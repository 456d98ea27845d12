import CompostRpc.CsSession

/-!
# The TCP proxy

A client sends messages to the proxy, which forwards each of them to the device as a call of its own
session. `HandleClientAsync` is one loop: it reads a message, runs `InvokeRawRpcAsync`, and writes
the response back under the number that the client chose. The proxy is the only user of the session.
A step is a step of the session, or the read of the next message, and the device may reply to any
message it has received, at any time and any number of times.
-/

namespace CompostRpc
open TransitionRun

/-- Where `HandleClientAsync` is: before the next message, in the call for a message, in a call that
timed out, or left with an exception. -/
inductive Handler
  | reading
  | invoking (call : ℕ) (req : CsMessage)
  | timedOut (call : ℕ)
  | ended

/-- The proxy, with the messages it read from the client, wrote to the device and wrote to the
client, and the replies of the device by the message they reply to. -/
structure TcpProxy where
  session : CsSession
  handler : Handler
  requests : List CsMessage
  toDevice : List CsMessage
  replies : List (ℕ × CsMessage)
  toClient : List CsMessage

inductive ProxyEvent
  | request (req : CsMessage)
  | addTransaction
  | writeMessage (throws : Bool)
  | timeout
  | timeoutRemove
  | complete
  | reply (index : ℕ) (rpcId : UInt16) (payload : List UInt8)
  | setResponse

namespace TcpProxy

def init : TcpProxy := ⟨CsSession.init, .reading, [], [], [], []⟩

/-- The message made for a request of the client, under the number of the call. -/
def forwarded (txn : UInt8) (req : CsMessage) : CsMessage := ⟨txn, req.rpcId, false, req.payload⟩

def paired (req resp : CsMessage) : CsMessage := ⟨req.txn, resp.rpcId, true, resp.payload⟩

/-- A step of the session in the call for the message in hand, and what the proxy does after it. -/
def callStep (s : TcpProxy) (event : ℕ → CsEvent)
    (after : CsCall → CsMessage → TcpProxy → TcpProxy) : Option TcpProxy :=
  match s.handler with
  | .invoking k req =>
    (s.session.step (event k)).bind fun session =>
      session.calls[k]?.map fun call => after call req { s with session := session }
  | _ => none

def ended (s : TcpProxy) : TcpProxy := { s with handler := .ended }

/-- `AddTransaction` throws if the slot is taken. -/
def added (call : CsCall) (_ : CsMessage) (s : TcpProxy) : TcpProxy :=
  if call.phase = .finished then s.ended else s

def written (throws : Bool) (call : CsCall) (req : CsMessage) (s : TcpProxy) : TcpProxy :=
  if throws then s.ended else { s with toDevice := s.toDevice ++ [forwarded call.txnID req] }

/-- The response is written to the client; a canceled transaction throws. -/
def completed (call : CsCall) (req : CsMessage) (s : TcpProxy) : TcpProxy :=
  match call.response with
  | .set resp => { s with handler := .reading, toClient := s.toClient ++ [paired req resp] }
  | _ => s.ended

def step (s : TcpProxy) : ProxyEvent → Option TcpProxy
  | .request req =>
    match s.handler with
    | .reading =>
      if req.resp then none else
        some { s with
          session := s.session.aquireNextTxnId
          handler := .invoking s.session.calls.length req
          requests := s.requests ++ [req] }
    | _ => none
  | .addTransaction => s.callStep .addTransaction added
  | .writeMessage throws => s.callStep (.writeMessage · throws) (written throws)
  | .complete => s.callStep .complete completed
  | .timeout =>
    match s.handler with
    | .invoking k _ =>
      (s.session.step (.timeout k)).map fun session =>
        { s with session := session, handler := .timedOut k }
    | _ => none
  | .timeoutRemove =>
    match s.handler with
    | .timedOut k =>
      (s.session.step (.timeoutRemove k)).map fun session =>
        { s with session := session, handler := .ended }
    | _ => none
  | .reply index rpcId payload =>
    s.toDevice[index]?.bind fun m =>
      let msg : CsMessage := ⟨m.txn, rpcId, true, payload⟩
      (s.session.step (.readMessage msg)).map fun session =>
        { s with session := session, replies := s.replies ++ [(index, msg)] }
  | .setResponse => (s.session.step .setResponse).map fun session => { s with session := session }

end TcpProxy

end CompostRpc
