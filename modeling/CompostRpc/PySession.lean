import CompostRpc.Message
import CompostRpc.UnpackPayload
import CompostRpc.TransitionRun

/-!
# The session of a Python client

One thread calls `rpc` and `send_notif`; the listener thread runs `receiver`. They share an
unbounded queue. A call sends its request, checks that the listener is alive, and then takes one
item from the queue or times out. The state keeps the outcomes of `receive`, and for each call
what happened while it was in progress.
-/

namespace CompostRpc

inductive SessionError
  | transport (e : PyError)
  | malformedMessage | unknownRpcId | requestTimeout | unexpectedTxn | listenerNotRunning
  deriving DecidableEq, Repr

abbrev Rpcs := ℕ → Option Members

def txnMax : ℕ := 255

def nextTxn (lastTxn : ℕ) : ℕ := if lastTxn ≥ txnMax then 1 else lastTxn + 1

/-- What one round of the loop in `_Session.receiver` does with the outcome of `receive`. -/
inductive Received
  | put (item : Except SessionError Msg)
  | notification (reqTypes : Members) (msg : Msg)
  | raised (e : PyError)

def classify (rpcs : Rpcs) : Except PyError (List UInt8) → Received
  | .error e => .put (.error (.transport e))
  | .ok msgBytes =>
    if msgBytes.length < 4 then .put (.error .malformedMessage) else
      match Msg.unpack msgBytes with
      | .error e => .raised e
      | .ok msg =>
        match rpcs msg.header.rpcId with
        | none => .put (.error .unknownRpcId)
        | some reqTypes =>
          if msg.header.txn = 0 then .notification reqTypes msg else .put (.ok msg)

theorem classify_of_unpack {rpcs : Rpcs} {msgBytes : List UInt8} {msg : Msg} {reqTypes : Members}
    (hlen : 4 ≤ msgBytes.length) (hunpack : Msg.unpack msgBytes = .ok msg)
    (hknown : rpcs msg.header.rpcId = some reqTypes) :
    classify rpcs (.ok msgBytes) =
      if msg.header.txn = 0 then .notification reqTypes msg else .put (.ok msg) := by
  simp only [classify, if_neg (Nat.not_lt.mpr hlen), hunpack, hknown]

/-- Whether the dispatch of a notification raises: with a subscriber, the payload is unpacked. -/
def dispatchRaises (reqTypes : Members) (payload : List UInt8) (subscribed callbackRaises : Bool) :
    Bool :=
  subscribed && (callbackRaises || !(unpackPayload reqTypes payload).toBool)

def recvItem (rpcs : Rpcs) (txn : ℕ) :
    Except SessionError Msg → Except SessionError (List UInt8)
  | .error e => .error e
  | .ok msg =>
    if rpcs msg.header.rpcId = none then .error .unknownRpcId
    else if msg.header.txn ≠ txn then .error .unexpectedTxn
    else .ok msg.payload

/-- An item of the queue, with the number of the outcome of `receive` that it comes from. -/
structure Delivered where
  item : Except SessionError Msg
  stamp : ℕ

/-- The call in progress: `front` is the first item that was in the queue since the request was
sent, and `reply` the payload of the first reply to it that was queued. -/
structure PendingCall where
  rpcId : ℕ
  txn : ℕ
  sentAt : ℕ
  waiting : Bool
  front : Option Delivered
  reply : Option (List UInt8)

def PendingCall.isReply (c : PendingCall) (msg : Msg) : Prop :=
  msg.header.resp = true ∧ msg.header.rpcId = c.rpcId ∧ msg.header.txn = c.txn

instance (c : PendingCall) (msg : Msg) : Decidable (c.isReply msg) := instDecidableAnd

def PendingCall.noteReply (c : PendingCall) : Except SessionError Msg → Option (List UInt8)
  | .error _ => c.reply
  | .ok msg => if c.reply = none ∧ c.isReply msg then some msg.payload else c.reply

def PendingCall.note (c : PendingCall) (d : Delivered) : PendingCall :=
  { c with front := c.front.or (some d), reply := c.noteReply d.item }

/-- A finished call, whether the listener was alive at the check, the item it took, and the
outcome. -/
structure FinishedCall where
  call : PendingCall
  alive : Bool
  taken : Option Delivered
  result : Except SessionError (List UInt8)

structure Client where
  lastTxn : ℕ
  queue : List Delivered
  listenerAlive : Bool
  received : List (Except PyError (List UInt8))
  call : Option PendingCall
  finished : List FinishedCall

def Client.init : Client := ⟨1, [], true, [], none, []⟩

/-- Whether `transport.send` raises, whether the notification has a subscriber, and whether one of
these raises are choices of the environment. -/
inductive SessionEvent
  | rpc (rpcId : ℕ) (data : List UInt8) (sendRaises : Bool)
  | sendNotif (rpcId : ℕ) (data : List UInt8)
  | checkListener
  | get
  | timeout
  | receive (outcome : Except PyError (List UInt8)) (subscribed callbackRaises : Bool)

namespace Client

def put (s : Client) (item : Except SessionError Msg) : Client :=
  let d : Delivered := ⟨item, s.received.length⟩
  { s with queue := s.queue ++ [d], call := s.call.map fun c => c.note d }

def finish (s : Client) (c : PendingCall) (alive : Bool) (taken : Option Delivered)
    (result : Except SessionError (List UInt8)) : Client :=
  { s with call := none, finished := s.finished ++ [⟨c, alive, taken, result⟩] }

/-- `_Session.send_request`; a call whose request is not sent only uses up its number. -/
def sendRequest (s : Client) (rpcId : ℕ) (data : List UInt8) (sendRaises : Bool) : Client :=
  let txn := nextTxn s.lastTxn
  if sendRaises || !(Msg.fromData txn false rpcId data).pack.toBool then { s with lastTxn := txn }
  else
    { s with
      lastTxn := txn
      call := some ⟨rpcId, txn, s.received.length, false, s.queue.head?, none⟩ }

theorem sendRequest_of_not_packed (s : Client) {rpcId : ℕ} {data : List UInt8} (sendRaises : Bool)
    (h : (Msg.fromData (nextTxn s.lastTxn) false rpcId data).pack.toBool = false) :
    s.sendRequest rpcId data sendRaises = { s with lastTxn := nextTxn s.lastTxn } := by
  simp [sendRequest, h]

theorem sendRequest_of_packed (s : Client) {rpcId : ℕ} {data : List UInt8}
    (h : (Msg.fromData (nextTxn s.lastTxn) false rpcId data).pack.toBool = true) :
    s.sendRequest rpcId data false =
      { s with
        lastTxn := nextTxn s.lastTxn
        call := some
          ⟨rpcId, nextTxn s.lastTxn, s.received.length, false, s.queue.head?, none⟩ } := by
  simp [sendRequest, h]

def checkListener (s : Client) (c : PendingCall) : Client :=
  if s.listenerAlive then { s with call := some { c with waiting := true } }
  else s.finish c false none (.error .listenerNotRunning)

def receive (rpcs : Rpcs) (s : Client) (outcome : Except PyError (List UInt8))
    (subscribed callbackRaises : Bool) : Client :=
  let s' :=
    match classify rpcs outcome with
    | .put item => s.put item
    | .notification reqTypes msg =>
      { s with
        listenerAlive := !dispatchRaises reqTypes msg.payload subscribed callbackRaises }
    | .raised _ => { s with listenerAlive := false }
  { s' with received := s.received ++ [outcome] }

def step (rpcs : Rpcs) (s : Client) : SessionEvent → Option Client
  | .rpc rpcId data sendRaises =>
    if s.call.isNone then some (s.sendRequest rpcId data sendRaises) else none
  | .sendNotif _ _ => if s.call.isNone then some s else none
  | .checkListener =>
    match s.call with
    | some c => if c.waiting then none else some (s.checkListener c)
    | none => none
  | .get =>
    match s.call, s.queue with
    | some c, d :: queue =>
      if c.waiting then
        some ({ s with queue := queue }.finish c true (some d) (recvItem rpcs c.txn d.item))
      else none
    | _, _ => none
  | .timeout =>
    match s.call, s.queue with
    | some c, [] =>
      if c.waiting then some (s.finish c true none (.error .requestTimeout)) else none
    | _, _ => none
  | .receive outcome subscribed callbackRaises =>
    if s.listenerAlive then some (s.receive rpcs outcome subscribed callbackRaises) else none

variable {rpcs : Rpcs} {s s' : Client}

theorem step_rpc {rpcId : ℕ} {data : List UInt8} {sendRaises : Bool} :
    step rpcs s (.rpc rpcId data sendRaises) = some s' ↔
      s.call = none ∧ s' = s.sendRequest rpcId data sendRaises := by
  simp only [step, Option.ite_none_right_eq_some, Option.some.injEq, Option.isNone_iff_eq_none,
    @eq_comm _ s']

theorem step_sendNotif {rpcId : ℕ} {data : List UInt8} :
    step rpcs s (.sendNotif rpcId data) = some s' ↔ s.call = none ∧ s' = s := by
  simp only [step, Option.ite_none_right_eq_some, Option.some.injEq, Option.isNone_iff_eq_none,
    @eq_comm _ s']

theorem step_checkListener :
    step rpcs s .checkListener = some s' ↔
      ∃ c, s.call = some c ∧ c.waiting = false ∧ s' = s.checkListener c := by
  cases hc : s.call with
  | none => simp [step, hc]
  | some c => simp [step, hc, @eq_comm _ s']

theorem step_get :
    step rpcs s .get = some s' ↔
      ∃ c d queue, s.call = some c ∧ s.queue = d :: queue ∧ c.waiting = true ∧
        s' = { s with queue := queue }.finish c true (some d) (recvItem rpcs c.txn d.item) := by
  cases hc : s.call with
  | none => simp [step, hc]
  | some c =>
    cases hq : s.queue with
    | nil => simp [step, hc, hq]
    | cons d queue => simp [step, hc, hq, @eq_comm _ s']

theorem step_timeout :
    step rpcs s .timeout = some s' ↔
      ∃ c, s.call = some c ∧ s.queue = [] ∧ c.waiting = true ∧
        s' = s.finish c true none (.error .requestTimeout) := by
  cases hc : s.call with
  | none => simp [step, hc]
  | some c =>
    cases hq : s.queue with
    | nil => simp [step, hc, hq, @eq_comm _ s']
    | cons d queue => simp [step, hc, hq]

theorem step_receive {outcome : Except PyError (List UInt8)} {subscribed callbackRaises : Bool} :
    step rpcs s (.receive outcome subscribed callbackRaises) = some s' ↔
      s.listenerAlive = true ∧ s' = s.receive rpcs outcome subscribed callbackRaises := by
  simp only [step, Option.ite_none_right_eq_some, Option.some.injEq, @eq_comm _ s']

end Client

end CompostRpc
