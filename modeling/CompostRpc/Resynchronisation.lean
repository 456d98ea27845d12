import CompostRpc.SessionQueue

/-!
# Resynchronisation of a Python client

A call should return its reply if that is queued before the timeout of the call expires, and should
not fail because of an item that is not for it. A call that fails early can still be answered in
time, so finished calls are watched until their timeouts expire. A call returns as it should exactly
when the first item in the queue since its request was sent does not stand in the way: the code
takes that item and no other.
-/

namespace CompostRpc
open TransitionRun

variable {rpcs : Rpcs}

/-- An item left in the queue by an earlier call, or made of an unsolicited message. -/
def PendingCall.Foreign (c : PendingCall) (d : Delivered) : Prop :=
  d.stamp < c.sentAt ∨
    match d.item with
    | .ok msg => ¬ c.isReply msg
    | .error (.transport _) => False
    | .error _ => True

def PendingCall.Passes (c : PendingCall) (d : Delivered) (p : List UInt8) : Prop :=
  ∃ msg, d.item = .ok msg ∧ msg.header.txn = c.txn ∧ msg.payload = p

/-- A finished call, whether its timeout has expired, and the payload of the first reply to it that
was queued before. -/
structure TimedCall where
  finished : FinishedCall
  expired : Bool
  reply : Option (List UInt8)

namespace TimedCall

def note (w : TimedCall) : Except SessionError Msg → TimedCall
  | .error _ => w
  | .ok msg =>
    if w.expired = false ∧ w.reply = none ∧ w.finished.call.isReply msg then
      { w with reply := some msg.payload }
    else w

def expire (w : TimedCall) : TimedCall := { w with expired := true }

theorem note_finished (w : TimedCall) (item : Except SessionError Msg) :
    (w.note item).finished = w.finished := by
  cases item with
  | error e => rfl
  | ok msg =>
    rw [note]
    split <;> rfl

/-- The call returns the payload of its reply if that is queued in time, and the item that it takes
does not make it fail if it is foreign. -/
def Resynchronised (w : TimedCall) : Prop :=
  (∀ p, w.reply = some p → w.finished.result = .ok p) ∧
    ∀ d, w.finished.taken = some d → w.finished.call.Foreign d → ∃ p, w.finished.result = .ok p

def Unobstructed (w : TimedCall) : Prop :=
  (∀ p, w.reply = some p →
      w.finished.alive = true ∧
        ∃ d, w.finished.call.front = some d ∧ w.finished.call.Passes d p) ∧
    (w.finished.alive = true → ∀ d, w.finished.call.front = some d → w.finished.call.Foreign d →
      ∃ p, w.finished.call.Passes d p)

end TimedCall

structure TimedClient where
  client : Client
  calls : List TimedCall

/-- A step of the session, or the time at which the timeout of a finished call would have
expired. -/
inductive TimedEvent
  | session (e : SessionEvent)
  | expire (k : ℕ)

namespace TimedClient

def init : TimedClient := ⟨.init, []⟩

/-- What the calls that are still watched keep of an item that the listener puts in the queue. -/
def noteAll (rpcs : Rpcs) (calls : List TimedCall) : SessionEvent → List TimedCall
  | .receive outcome _ _ =>
    match classify rpcs outcome with
    | .put item => calls.map (·.note item)
    | .notification _ _ | .raised _ => calls
  | .rpc _ _ _ | .sendNotif _ _ | .checkListener | .get | .timeout => calls

def timesOut : SessionEvent → Bool
  | .timeout => true
  | .rpc _ _ _ | .sendNotif _ _ | .checkListener | .get | .receive _ _ _ => false

def newCalls (e : SessionEvent) (before after : Client) : List TimedCall :=
  (after.finished.drop before.finished.length).map fun r => ⟨r, timesOut e, r.call.reply⟩

def step (rpcs : Rpcs) (s : TimedClient) : TimedEvent → Option TimedClient
  | .session e => (Client.step rpcs s.client e).map fun client' =>
    ⟨client', noteAll rpcs s.calls e ++ newCalls e s.client client'⟩
  | .expire k => s.calls[k]?.map fun w => { s with calls := s.calls.set k w.expire }

theorem noteAll_finished (calls : List TimedCall) (e : SessionEvent) :
    (noteAll rpcs calls e).map TimedCall.finished = calls.map TimedCall.finished := by
  cases e with
  | receive outcome subscribed callbackRaises =>
    rw [noteAll]
    cases classify rpcs outcome with
    | put item =>
      rw [List.map_map]
      exact List.map_congr_left fun w _ => w.note_finished item
    | notification | raised => rfl
  | rpc | sendNotif | checkListener | get | timeout => rfl

/-- Finished calls stay as they are. -/
theorem finished_prefix {s s' : Client} {e : SessionEvent} (h : Client.step rpcs s e = some s') :
    s.finished <+: s'.finished := by
  cases e with
  | rpc rpcId data sendRaises =>
    obtain ⟨-, rfl⟩ := Client.step_rpc.mp h
    rw [Client.sendRequest]
    split <;> exact List.prefix_refl _
  | sendNotif rpcId data =>
    obtain ⟨-, rfl⟩ := Client.step_sendNotif.mp h
    exact List.prefix_refl _
  | checkListener =>
    obtain ⟨c, -, -, rfl⟩ := Client.step_checkListener.mp h
    rw [Client.checkListener]
    split
    · exact List.prefix_refl _
    · exact List.prefix_append _ _
  | get =>
    obtain ⟨c, d, queue, -, -, -, rfl⟩ := Client.step_get.mp h
    exact List.prefix_append _ _
  | timeout =>
    obtain ⟨c, -, -, -, rfl⟩ := Client.step_timeout.mp h
    exact List.prefix_append _ _
  | receive outcome subscribed callbackRaises =>
    obtain ⟨-, rfl⟩ := Client.step_receive.mp h
    rw [Client.receive]
    split <;> exact List.prefix_refl _

structure Watched (rpcs : Rpcs) (s : TimedClient) : Prop where
  consistent : Client.Consistent rpcs s.client
  finished : s.calls.map TimedCall.finished = s.client.finished

theorem watched_init : Watched rpcs init := ⟨Client.consistent_init, rfl⟩

theorem Watched.step {s s' : TimedClient} {e : TimedEvent} (h : Watched rpcs s)
    (hstep : step rpcs s e = some s') : Watched rpcs s' := by
  cases e with
  | session e =>
    obtain ⟨client', hclient, rfl⟩ := Option.map_eq_some_iff.mp hstep
    refine ⟨h.consistent.step hclient, ?_⟩
    have hnew : (newCalls e s.client client').map TimedCall.finished =
        client'.finished.drop s.client.finished.length := by
      rw [newCalls, List.map_map]
      exact List.map_id _
    rw [List.map_append, noteAll_finished, h.finished, hnew]
    obtain ⟨more, hmore⟩ := finished_prefix hclient
    rw [← hmore, List.drop_left]
  | expire k =>
    obtain ⟨w, hw, rfl⟩ := Option.map_eq_some_iff.mp hstep
    refine ⟨h.consistent, Eq.trans ?_ h.finished⟩
    obtain ⟨hlt, rfl⟩ := List.getElem?_eq_some_iff.mp hw
    have hlt' : k < (s.calls.map TimedCall.finished).length := by rwa [List.length_map]
    have hsame : s.calls[k].finished = (s.calls.map TimedCall.finished)[k] :=
      (List.getElem_map _).symm
    rw [List.map_set]
    change (s.calls.map TimedCall.finished).set k s.calls[k].finished = _
    rw [hsame, List.set_getElem_self]

theorem watched_of_run {s : TimedClient} {es : List TimedEvent}
    (hrun : run (step rpcs) init es = some s) : Watched rpcs s :=
  run_invariant (fun _ _ _ h hstep => h.step hstep) watched_init hrun

end TimedClient

namespace Client

theorem recvItem_eq_ok_iff_passes {received : List (Except PyError (List UInt8))}
    {c : PendingCall} {d : Delivered} (hd : Comes rpcs received d) {p : List UInt8} :
    recvItem rpcs c.txn d.item = .ok p ↔ c.Passes d p := by
  rw [recvItem_eq_ok]
  constructor
  · rintro ⟨msg, hmsg, -, htxn, hp⟩
    exact ⟨msg, hmsg, htxn, hp⟩
  · rintro ⟨msg, hmsg, htxn, hp⟩
    obtain ⟨outcome, -, hput⟩ := hd
    rw [hmsg] at hput
    obtain ⟨-, -, -, hknown, -⟩ := unpack_of_classify_put hput
    exact ⟨msg, hmsg, hknown, htxn, hp⟩

theorem Settled.result_eq_ok {received : List (Except PyError (List UInt8))} {r : FinishedCall}
    (h : Settled rpcs received r) {p : List UInt8} :
    r.result = .ok p ↔ r.alive = true ∧ ∃ d, r.call.front = some d ∧ r.call.Passes d p := by
  rw [h.result_eq, outcomeOf]
  cases halive : r.alive with
  | false => simp
  | true =>
    cases hfront : r.call.front with
    | none => simp
    | some d => simp [recvItem_eq_ok_iff_passes (h.front_comes d hfront)]

theorem Settled.resynchronised_iff {received : List (Except PyError (List UInt8))}
    {w : TimedCall} (h : Settled rpcs received w.finished) :
    w.Resynchronised ↔ w.Unobstructed := by
  refine and_congr (forall_congr' fun p => imp_congr_right fun _ => h.result_eq_ok) ?_
  rw [h.taken_eq]
  cases halive : w.finished.alive with
  | false => simp
  | true =>
    simp only [if_true, forall_const]
    refine forall_congr' fun d => imp_congr_right fun hfront => imp_congr_right fun _ => ?_
    refine exists_congr fun p => h.result_eq_ok.trans ?_
    simp [halive, hfront]

/-- A protocol with one call, without parameters. -/
def pingRpcs : Rpcs := fun rpcId => if rpcId = 1 then some .nil else none

def pingReply (txn : UInt8) : SessionEvent := .receive (.ok [0, txn, 0x10, 1]) false false

def answeredPing : List SessionEvent := [.rpc 1 [] false, .checkListener, pingReply 2, .get]

def latePing : List SessionEvent :=
  [.rpc 1 [] false, .checkListener, .timeout, pingReply 2, .rpc 1 [] false, .checkListener,
    pingReply 3, .get]

def brokenPing : List SessionEvent :=
  [.rpc 1 [] false, .checkListener, .receive (.error .runtimeError) false false, .get,
    pingReply 2]

end Client

namespace TimedClient

/-- In every run, all calls are resynchronised if and only if none was obstructed. -/
theorem resynchronised_iff_unobstructed {s : TimedClient} {es : List TimedEvent}
    (hrun : run (step rpcs) init es = some s) :
    s.calls.map TimedCall.finished = s.client.finished ∧
      ((∀ w ∈ s.calls, w.Resynchronised) ↔ ∀ w ∈ s.calls, w.Unobstructed) := by
  have h := watched_of_run hrun
  refine ⟨h.finished, forall₂_congr fun w hw => ?_⟩
  have hmem : w.finished ∈ s.client.finished := by
    rw [← h.finished]
    exact List.mem_map_of_mem hw
  exact (h.consistent.settled _ hmem).resynchronised_iff

set_option maxRecDepth 10000 in
theorem resynchronised_answeredPing :
    ∃ s, run (step Client.pingRpcs) init (Client.answeredPing.map .session) = some s ∧
      s.calls.map (·.finished.result) = [.ok []] ∧ ∀ w ∈ s.calls, w.Resynchronised := by
  refine ⟨_, rfl, rfl, (@resynchronised_iff_unobstructed Client.pingRpcs _
    (Client.answeredPing.map .session) rfl).2.mpr ?_⟩
  intro w hw
  obtain rfl := List.mem_singleton.mp hw
  refine ⟨fun p hp => ⟨rfl, _, rfl, _, rfl, rfl, Option.some.inj hp⟩, fun _ d hd _ => ?_⟩
  obtain rfl := Option.some.inj hd
  exact ⟨_, _, rfl, rfl, rfl⟩

set_option maxRecDepth 10000 in
/-- The reply to a call that timed out is taken by the next call, which fails although its own
reply is in the queue. -/
theorem not_resynchronised_late_reply :
    ¬ ∀ (rpcs : Rpcs) (es : List TimedEvent) (s : TimedClient),
        run (step rpcs) init es = some s → ∀ w ∈ s.calls, w.Resynchronised := by
  intro h
  have hlate := h Client.pingRpcs (Client.latePing.map .session) _ rfl _ (.tail _ (.head _))
  have hfails := hlate.1 [] rfl
  exact absurd hfails (by decide)

set_option maxRecDepth 10000 in
/-- The reply comes in time, but the call has failed already. -/
example : ∃ s, run (step Client.pingRpcs) init
    (Client.brokenPing.map .session ++ [.expire 0]) = some s ∧
    s.calls.map TimedCall.reply = [some []] ∧
    s.calls.map (·.finished.result) = [.error (.transport .runtimeError)] := ⟨_, rfl, rfl, rfl⟩

end TimedClient

end CompostRpc
