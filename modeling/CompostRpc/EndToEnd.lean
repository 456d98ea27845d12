import CompostRpc.PySession
import CompostRpc.Server

/-!
# A Python client and a C server

Two links without loss carry messages in order between one client and one server that share a
protocol. The thread of the client makes calls and no timeout expires; the server reads one request
after the other and sends notifications by itself at any time. A continuation of the client, a
round of the server and a round of the listener are steps that go on without a new call.
-/

namespace CompostRpc
open TransitionRun

def Protocol.pyRpcs (p : Protocol) : Rpcs :=
  fun rpcId => (p.rpcs.find? fun d => d.rpcId == rpcId).map Rpc.params

structure Served where
  request : List UInt8
  reply : Option (List UInt8)

def Served.isNotification (v : Served) : Bool := v.request.getD 1 0 == 0

/-- The client, the messages on their way to the server and back, and what the server did. -/
structure System where
  client : Client
  requests : List (List UInt8)
  replies : List (List UInt8)
  served : List Served

/-- A call and a notification of the server name the entry of the protocol by its position. -/
inductive SystemEvent
  | call (position : ℕ) (data : List UInt8)
  | checkListener
  | get
  | serve (mem : ByteMemory)
  | emit (position : ℕ) (args : (d : Rpc) → CValues d.params) (mem : ByteMemory)
  | deliver (subscribed : Bool)

namespace System

def init : System := ⟨Client.init, [], [], []⟩

/-- The request of a call, if it can be packed. -/
def packed (txn : ℕ) (d : Rpc) (data : List UInt8) : List (List UInt8) :=
  (Msg.fromData txn false d.rpcId data).pack.toOption.toList

variable (srv : Server)

def call (s : System) (d : Rpc) (data : List UInt8) : Option System :=
  if d.isNotification then
    (s.client.step srv.protocol.pyRpcs (.sendNotif d.rpcId data)).map fun c =>
      { s with client := c, requests := s.requests ++ packed 0 d data }
  else
    (s.client.step srv.protocol.pyRpcs (.rpc d.rpcId data false)).map fun c =>
      { s with client := c, requests := s.requests ++ packed (nextTxn s.client.lastTxn) d data }

def step (s : System) : SystemEvent → Option System
  | .call position data => srv.protocol.rpcs[position]?.bind fun d => s.call srv d data
  | .checkListener =>
    (s.client.step srv.protocol.pyRpcs .checkListener).map fun c => { s with client := c }
  | .get => (s.client.step srv.protocol.pyRpcs .get).map fun c => { s with client := c }
  | .serve mem =>
    match s.requests with
    | [] => none
    | request :: requests =>
      let reply := srv.serve mem request
      some { s with
        requests := requests
        replies := s.replies ++ reply.toList
        served := s.served ++ [⟨request, reply⟩] }
  | .emit position args mem =>
    srv.protocol.rpcs[position]?.bind fun d =>
      if d.isNotification && srv.endpoint.isCallOutbound d.direction then
        some { s with replies := s.replies ++ [srv.emit d mem (args d)] }
      else none
  | .deliver subscribed =>
    match s.replies with
    | [] => none
    | msgBytes :: replies =>
      (s.client.step srv.protocol.pyRpcs (.receive (.ok msgBytes) subscribed false)).map fun c =>
        { s with client := c, replies := replies }

/-- The payloads of the replies to requests that are no notifications, in their order. -/
def produced (s : System) : List (Option (List UInt8)) :=
  (s.served.filter fun v => !v.isNotification).map fun v => v.reply.map (List.drop 4)

structure Agrees (s : System) : Prop where
  results : ∀ (k : ℕ) (r : FinishedCall), s.client.finished[k]? = some r →
    ∃ payload, r.result = .ok payload ∧ s.produced[k]? = some (some payload)
  unanswered : ∀ v ∈ s.served, v.isNotification = true → v.reply = none
  queue_empty : s.client.call = none → s.client.queue = []

/-- The steps that go on without a new call and without a new message of the server. -/
def goesOn : SystemEvent → Bool
  | .checkListener | .get | .serve _ | .deliver _ => true
  | .call _ _ | .emit _ _ _ => false

def callWork : Option PendingCall → ℕ
  | some c => if c.waiting then 1 else 2
  | none => 0

def work (s : System) : ℕ :=
  2 * s.requests.length + s.replies.length + callWork s.client.call

def Decodes (s : System) : SystemEvent → Prop
  | .deliver true => ∀ msgBytes msg reqTypes, s.replies.head? = some msgBytes →
      Msg.unpack msgBytes = .ok msg → msg.header.txn = 0 →
      srv.protocol.pyRpcs msg.header.rpcId = some reqTypes →
      (unpackPayload reqTypes msg.payload).toBool = true
  | _ => True

def Returns (s : System) : Prop :=
  ∀ es s', (∀ e ∈ es, goesOn e = true) → Along (step srv) (Decodes srv) s es →
    run (step srv) s es = some s' →
      es.length ≤ s.work ∧
        (s'.client.call = none ∨ ∃ e, goesOn e = true ∧ (step srv s' e).isSome = true)

end System

end CompostRpc
