import CompostRpc.CsPairing

/-!
# The clients of the TCP proxy

The task `StartAsync` of the proxy accepts one client after the other. For each it starts a task
`HandleClientAsync`, and before it takes the next one it closes the connection and awaits that task.
Both tasks read the fields for the connected client and its stream, and so does the read task of the
session, which writes notifications to the stream. The session may have other calls. A step is one
statement of `CloseClientConnection`, what a task does up to the next `await`, or a step of the
session.
-/

namespace CompostRpc
open TransitionRun

/-- The exceptions that end a task of the proxy; `thrown` are those of the streams, of the listener
and of the transport. -/
inductive ProxyFault
  | operationCanceled | endOfStream | nullReference | timeout | wrapAround | aggregate | thrown
  deriving DecidableEq

def ProxyFault.isCaught : ProxyFault → Bool
  | .operationCanceled | .endOfStream => true
  | .nullReference | .timeout | .wrapAround | .aggregate | .thrown => false

inductive ClientTask
  | checking
  | reading (client : ℕ)
  | invoking (client call : ℕ) (req : CsMessage)
  | timedOut (client call : ℕ)
  | responding (client call : ℕ) (req resp : CsMessage)
  | ended (fault : Option ProxyFault)

inductive CloseStage
  | stream | token | client | awaiting

/-- Where `StartAsync` is: at the condition of its loop, in `Task.WhenAny`, at the condition at the
end of the loop, in `CloseClientConnection` for a client that waits or before the end of the loop,
with a client to open, or left. -/
inductive ListenerTask
  | checking
  | accepting
  | accepted
  | closing (stage : CloseStage) (next : Option ℕ)
  | opening (client : ℕ)
  | stopped
  | faulted (fault : ProxyFault)

/-- A request, with the client from whose stream it was read and the call made for it. -/
structure ProxyRequest where
  client : ℕ
  call : ℕ
  req : CsMessage

inductive ProxyWrite
  | response (call : ℕ) (msg : CsMessage)
  | notification (msg : CsMessage)

structure ProxyClients where
  session : CsSession
  readTaskFailed : Bool
  accepted : ℕ
  listenerTask : ListenerTask
  listenerCanceled : Bool
  subscribed : Bool
  connectedStream : Option ℕ
  connectedClient : Option ℕ
  clientCanceled : Bool
  handleClientTask : Option ClientTask
  requests : List ProxyRequest
  written : List (ℕ × ProxyWrite)

/-- A notification is a message for which the session has a handler. The parameters of an event say
what the libraries do: a fault is an exception they throw. -/
inductive ProxyClientEvent
  | dispose
  | checkCancellation
  | accept
  | acceptThrows
  | tick
  | close
  | openClient (connected : Bool)
  | openThrows
  | loop (connected : Bool)
  | request (req : CsMessage)
  | readThrows (fault : ProxyFault)
  | addTransaction
  | writeMessage (fault : Option ProxyFault)
  | timeout
  | timeoutRemove
  | complete
  | respond (fault : Option ProxyFault)
  | notification (msg : CsMessage) (fails : Bool)
  | session (e : CsEvent)

def CsEvent.call? : CsEvent → Option ℕ
  | .addTransaction k | .writeMessage k _ | .timeout k | .timeoutRemove k | .complete k => some k
  | .aquire | .readMessage _ | .setResponse | .clearTransactions => none

def CsEvent.isRead : CsEvent → Bool
  | .readMessage _ | .setResponse => true
  | .aquire | .addTransaction _ | .writeMessage _ _ | .timeout _ | .timeoutRemove _ | .complete _
  | .clearTransactions => false

def ClientTask.call? : ClientTask → Option ℕ
  | .invoking _ k _ | .timedOut _ k => some k
  | .checking | .reading _ | .responding _ _ _ _ | .ended _ => none

namespace ProxyClients

def paired (req resp : CsMessage) : CsMessage := ⟨req.txn, resp.rpcId, true, resp.payload⟩

def init : ProxyClients where
  session := CsSession.init
  readTaskFailed := false
  accepted := 0
  listenerTask := .checking
  listenerCanceled := false
  subscribed := true
  connectedStream := none
  connectedClient := none
  clientCanceled := false
  handleClientTask := none
  requests := []
  written := []

/-- The condition of the loop of `HandleClientAsync`, and the start of the next read. -/
def checkLoop (s : ProxyClients) (connected : Bool) : ClientTask :=
  if s.clientCanceled then .ended none
  else if s.connectedClient.isNone then .ended (some .nullReference)
  else if connected then
    match s.connectedStream with
    | none => .ended (some .nullReference)
    | some client => .reading client
  else .ended none

/-- `OpenClientConnection`, which runs `HandleClientAsync` up to its first read. -/
def openClientConnection (s : ProxyClients) (client : ℕ) (connected : Bool) : ProxyClients :=
  let opened : ProxyClients := { s with
    connectedClient := some client
    connectedStream := some client
    clientCanceled := false }
  { opened with
    handleClientTask := some (opened.checkLoop connected)
    listenerTask := .accepted }

def afterClose : Option ℕ → ListenerTask
  | some client => .opening client
  | none => .stopped

def closeClientConnection (s : ProxyClients) (stage : CloseStage) (next : Option ℕ) :
    Option ProxyClients :=
  match stage with
  | .stream => some { s with connectedStream := none, listenerTask := .closing .token next }
  | .token => some { s with clientCanceled := true, listenerTask := .closing .client next }
  | .client => some { s with connectedClient := none, listenerTask := .closing .awaiting next }
  | .awaiting =>
    match s.handleClientTask with
    | none => some { s with listenerTask := afterClose next }
    | some (.ended none) =>
      some { s with handleClientTask := none, listenerTask := afterClose next }
    | some (.ended (some fault)) =>
      if fault.isCaught then
        some { s with handleClientTask := none, listenerTask := afterClose next }
      else some { s with listenerTask := .faulted fault }
    | some _ => none

def readRequest (s : ProxyClients) (client : ℕ) (req : CsMessage) : ProxyClients :=
  { s with
    session := s.session.aquireNextTxnId
    handleClientTask := some (.invoking client s.session.calls.length req)
    requests := s.requests ++ [⟨client, s.session.calls.length, req⟩] }

def writeResponse (s : ProxyClients) (client k : ℕ) (req resp : CsMessage) : ProxyClients :=
  { s with
    handleClientTask := some .checking
    written := s.written ++ [(client, .response k (paired req resp))] }

/-- A step of the session in the call of the task, and where the task is after it. -/
def callStep (s : ProxyClients) (event : ℕ → CsEvent)
    (after : ℕ → ℕ → CsMessage → CsCall → ClientTask) : Option ProxyClients :=
  match s.handleClientTask with
  | some (.invoking client k req) =>
    (s.session.step (event k)).bind fun session =>
      session.calls[k]?.map fun c =>
        { s with session := session, handleClientTask := some (after client k req c) }
  | _ => none

/-- `AddTransaction` throws if the slot is taken. -/
def added (client k : ℕ) (req : CsMessage) (c : CsCall) : ClientTask :=
  if c.phase = .finished then .ended (some .wrapAround) else .invoking client k req

def sent (fault : Option ProxyFault) (client k : ℕ) (req : CsMessage) (_ : CsCall) : ClientTask :=
  match fault with
  | some fault => .ended (some fault)
  | none => .invoking client k req

/-- `Result` throws if the transaction was canceled. -/
def completed (client k : ℕ) (req : CsMessage) (c : CsCall) : ClientTask :=
  match c.response with
  | .set resp => .responding client k req resp
  | .pending | .canceled => .ended (some .aggregate)

def step (s : ProxyClients) : ProxyClientEvent → Option ProxyClients
  | .dispose => some { s with listenerCanceled := true, subscribed := false }
  | .checkCancellation =>
    match s.listenerTask with
    | .checking =>
      some { s with listenerTask := if s.listenerCanceled then .stopped else .accepting }
    | .accepted =>
      some { s with
        listenerTask := if s.listenerCanceled then .closing .stream none else .checking }
    | _ => none
  | .accept =>
    match s.listenerTask with
    | .accepting =>
      some { s with
        accepted := s.accepted + 1
        listenerTask := if s.handleClientTask.isSome then .closing .stream (some s.accepted)
          else .opening s.accepted }
    | _ => none
  | .acceptThrows =>
    match s.listenerTask with
    | .accepting => some { s with listenerTask := .faulted .thrown }
    | _ => none
  | .tick =>
    match s.listenerTask with
    | .accepting => some { s with listenerTask := .accepted }
    | _ => none
  | .close =>
    match s.listenerTask with
    | .closing stage next => s.closeClientConnection stage next
    | _ => none
  | .openClient connected =>
    match s.listenerTask with
    | .opening client => some (s.openClientConnection client connected)
    | _ => none
  | .openThrows =>
    match s.listenerTask with
    | .opening client =>
      some { s with connectedClient := some client, listenerTask := .faulted .thrown }
    | _ => none
  | .loop connected =>
    match s.handleClientTask with
    | some .checking => some { s with handleClientTask := some (s.checkLoop connected) }
    | _ => none
  | .request req =>
    match s.handleClientTask with
    | some (.reading client) => some (s.readRequest client req)
    | _ => none
  | .readThrows fault =>
    match s.handleClientTask with
    | some (.reading _) => some { s with handleClientTask := some (.ended (some fault)) }
    | _ => none
  | .addTransaction => s.callStep .addTransaction added
  | .writeMessage fault => s.callStep (.writeMessage · fault.isSome) (sent fault)
  | .timeout => s.callStep .timeout fun client k _ _ => .timedOut client k
  | .timeoutRemove =>
    match s.handleClientTask with
    | some (.timedOut _ k) =>
      (s.session.step (.timeoutRemove k)).map fun session =>
        { s with session := session, handleClientTask := some (.ended (some .timeout)) }
    | _ => none
  | .complete => s.callStep .complete completed
  | .respond fault =>
    match s.handleClientTask with
    | some (.responding _ k req resp) =>
      match s.connectedStream, fault with
      | none, _ => some { s with handleClientTask := some (.ended (some .nullReference)) }
      | some _, some fault => some { s with handleClientTask := some (.ended (some fault)) }
      | some client, none => some (s.writeResponse client k req resp)
    | _ => none
  | .notification msg fails =>
    -- the event is raised in the read task, between two messages
    if s.subscribed && !s.readTaskFailed && s.session.fetched.isNone && !msg.resp then
      match s.connectedStream, fails with
      | none, _ => some s
      | some _, true => some { s with readTaskFailed := true }
      | some client, false => some { s with written := s.written ++ [(client, .notification msg)] }
    else none
  | .session e =>
    if (e.isRead && s.readTaskFailed) || (e.call?.isSome &&
        s.handleClientTask.bind ClientTask.call? == e.call?) then none
    else (s.session.step e).map fun session => { s with session := session }

end ProxyClients

end CompostRpc
