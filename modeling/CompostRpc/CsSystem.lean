import CompostRpc.CsMessageSizes
import CompostRpc.CsStream
import CompostRpc.FailedCalls
import CompostRpc.HeaderAgreement
import CompostRpc.Server

/-!
# A C# session and a C server

Two links without loss carry messages in order between the session of a C# client and a C server.
Any number of calls are in progress in the client at the same time. The server reads one request
after the other and sends notifications by itself at any time. A step of a call is a step of its
session, and a `WriteMessage` that returns has put the message of the call on the link.
-/

namespace CompostRpc
open TransitionRun

/-- The arguments of a call: serialized before, or objects with the shape of a message. -/
inductive RequestArguments
  | serialized (bytes : List UInt8)
  | objects (args : List CsObject) (shape : MessageShape)

def copyMessage (txn : UInt8) (rpcId : UInt16) (resp : Bool) (args : List UInt8) :
    Except CsError (List UInt8) := do
  let payloadSize : BufferUnit := MemUnit.fromBytes args.length
  let header : MessageHeader := ⟨payloadSize, txn, rpcId, resp⟩
  let rawBuffer ← Serialization.initBuffer payloadSize
  return header.write (replaceFrom rawBuffer MessageHeader.headerSize.bytes args) 0

def RequestArguments.message (txn : UInt8) (rpcId : UInt16) :
    RequestArguments → Except CsError (List UInt8)
  | .serialized bytes => copyMessage txn rpcId false bytes
  | .objects args shape => serializeMessage txn rpcId false args shape

def CsMessage.ofBytes (bytes : List UInt8) : Except CsError CsMessage := do
  let header ← MessageHeader.parse bytes 0
  return ⟨header.txn, header.rpcId, header.resp, bytes.drop MessageHeader.headerSize.bytes⟩

/-- A request that the server has read: the call that wrote it, and what was sent in reply. -/
structure Exchange where
  call : ℕ
  reply : Option (List UInt8)

/-- A message of the server on its way, and the call to whose request it is the reply. -/
structure Sent where
  origin : Option ℕ
  bytes : List UInt8

/-- The session with the messages of its calls, the calls whose messages are on the way, and the
messages of the server. -/
structure CsSystem where
  session : CsSession
  messages : List (Except CsError (List UInt8))
  requests : List ℕ
  served : List Exchange
  replies : List Sent

/-- A notification of the server names the entry of the protocol by its position. -/
inductive CsSystemEvent
  | invoke (rpcId : UInt16) (args : RequestArguments)
  | client (e : InvokeEvent)
  | serve (mem : ByteMemory)
  | emit (position : ℕ) (args : (d : Rpc) → CValues d.params) (mem : ByteMemory)
  | deliver

namespace CsSystem

def init : CsSystem := ⟨CsSession.init, [], [], [], []⟩

/-- The message of the call, if it was made. -/
def message (s : CsSystem) (k : ℕ) : Option (List UInt8) := s.messages[k]?.bind Except.toOption

/-- A call goes on to the table only with a message, and without one ends with the exception. -/
def allowed (s : CsSystem) : InvokeEvent → Bool
  | .serializationError k => (s.message k).isNone
  | .session (.addTransaction k) => (s.message k).isSome
  | .session .aquire | .session (.readMessage _) => false
  | .session _ => true

def puts : InvokeEvent → Option ℕ
  | .session (.writeMessage k false) => some k
  | _ => none

variable (srv : Server)

def serve (s : CsSystem) (mem : ByteMemory) (k : ℕ) (request : List UInt8) : CsSystem :=
  let reply := srv.serve mem request
  { s with
    requests := s.requests.tail
    served := s.served ++ [⟨k, reply⟩]
    replies := s.replies ++ reply.toList.map fun bytes => ⟨some k, bytes⟩ }

def step (s : CsSystem) : CsSystemEvent → Option CsSystem
  | .invoke rpcId args =>
    some { s with
      session := s.session.aquireNextTxnId
      messages := s.messages ++ [args.message s.session.txnCounter rpcId] }
  | .client e =>
    if s.allowed e then
      (s.session.invokeStep e).map fun session =>
        { s with session := session, requests := s.requests ++ (puts e).toList }
    else none
  | .serve mem =>
    match s.requests with
    | [] => none
    | k :: _ => (s.message k).map fun request => s.serve srv mem k request
  | .emit position args mem =>
    srv.protocol.rpcs[position]?.bind fun d =>
      if d.isNotification && srv.endpoint.isCallOutbound d.direction then
        some { s with replies := s.replies ++ [⟨none, srv.emit d mem (args d)⟩] }
      else none
  | .deliver =>
    match s.replies with
    | [] => none
    | sent :: replies =>
      match CsMessage.ofBytes sent.bytes with
      | .error _ => none
      | .ok msg =>
        (s.session.step (.readMessage msg)).map fun session =>
          { s with session := session, replies := replies }

end CsSystem

end CompostRpc
