import CompostRpc.PySession

/-!
# The listener of a Python client

The loop of `_Session.receiver` catches what `receive` raises and checks the length before it
unpacks a message, so a round can raise only where a notification is decoded for a subscriber. Such
a round ends the loop, whatever the callers do meanwhile.
-/

namespace CompostRpc
open TransitionRun

variable {rpcs : Rpcs}

def SessionEvent.outcome? : SessionEvent → Option (Except PyError (List UInt8))
  | .receive outcome _ _ => some outcome
  | _ => none

/-- A subscriber raises in the round. -/
def SessionEvent.SubscriberRaises : SessionEvent → Prop
  | .receive _ _ callbackRaises => callbackRaises = true
  | _ => False

def Decodes (rpcs : Rpcs) : SessionEvent → Prop
  | .receive (.ok msgBytes) true _ =>
    ∀ msg reqTypes, Msg.unpack msgBytes = .ok msg → rpcs msg.header.rpcId = some reqTypes →
      msg.header.txn = 0 → ∃ values, unpackPayload reqTypes msg.payload = .ok values
  | _ => True

structure WellFormedReply (rpcs : Rpcs) (msgBytes : List UInt8) (msg : Msg) : Prop where
  unpack : Msg.unpack msgBytes = .ok msg
  known : rpcs msg.header.rpcId ≠ none
  txn : msg.header.txn ≠ 0

theorem Msg.exists_unpack {msgBytes : List UInt8} (h : 4 ≤ msgBytes.length) :
    ∃ msg, Msg.unpack msgBytes = .ok msg := by
  match msgBytes, h with
  | len :: txn :: hi :: lo :: payload, _ => exact ⟨_, rfl⟩

theorem Msg.length_of_unpack {msgBytes : List UInt8} {msg : Msg}
    (h : Msg.unpack msgBytes = .ok msg) : 4 ≤ msgBytes.length := by
  by_contra hshort
  have htake : msgBytes.take 4 = msgBytes := List.take_of_length_le (by omega)
  simp only [Msg.unpack, htake] at h
  cases hheader : Header.unpack msgBytes with
  | error e =>
    rw [hheader] at h
    cases h
  | ok header => exact hshort (Header.length_of_unpack hheader).ge

theorem WellFormedReply.classify_eq {msgBytes : List UInt8} {msg : Msg}
    (h : WellFormedReply rpcs msgBytes msg) : classify rpcs (.ok msgBytes) = .put (.ok msg) := by
  obtain ⟨reqTypes, hknown⟩ := Option.ne_none_iff_exists'.mp h.known
  rw [classify_of_unpack (Msg.length_of_unpack h.unpack) h.unpack hknown, if_neg h.txn]

/-- A round puts an item in the queue or dispatches a notification. -/
theorem classify_cases (rpcs : Rpcs) (outcome : Except PyError (List UInt8)) :
    (∃ item, classify rpcs outcome = .put item) ∨
    ∃ msgBytes msg reqTypes, outcome = .ok msgBytes ∧ Msg.unpack msgBytes = .ok msg ∧
      rpcs msg.header.rpcId = some reqTypes ∧ msg.header.txn = 0 ∧
      classify rpcs outcome = .notification reqTypes msg := by
  cases outcome with
  | error e => exact .inl ⟨_, rfl⟩
  | ok msgBytes =>
    by_cases hshort : msgBytes.length < 4
    · exact .inl ⟨_, if_pos hshort⟩
    · obtain ⟨msg, hunpack⟩ := Msg.exists_unpack (Nat.le_of_not_lt hshort)
      cases hknown : rpcs msg.header.rpcId with
      | none =>
        left
        simp only [classify, if_neg hshort, hunpack, hknown]
        exact ⟨_, rfl⟩
      | some reqTypes =>
        have hclass := classify_of_unpack (Nat.le_of_not_lt hshort) hunpack hknown
        by_cases htxn : msg.header.txn = 0
        · rw [if_pos htxn] at hclass
          exact .inr ⟨msgBytes, msg, reqTypes, rfl, hunpack, hknown, htxn, hclass⟩
        · rw [if_neg htxn] at hclass
          exact .inl ⟨_, hclass⟩

theorem decodes_of_put {outcome : Except PyError (List UInt8)} {item : Except SessionError Msg}
    (h : classify rpcs outcome = .put item) (subscribed : Bool) :
    Decodes rpcs (.receive outcome subscribed false) := by
  cases outcome with
  | error e => trivial
  | ok msgBytes =>
    cases subscribed with
    | false => trivial
    | true =>
      intro msg reqTypes hunpack hknown htxn
      rw [classify_of_unpack (Msg.length_of_unpack hunpack) hunpack hknown, if_pos htxn] at h
      cases h

theorem decodes_notification {msgBytes : List UInt8} {msg : Msg} {reqTypes : Members}
    (hunpack : Msg.unpack msgBytes = .ok msg) (hknown : rpcs msg.header.rpcId = some reqTypes)
    (htxn : msg.header.txn = 0) {callbackRaises : Bool} :
    Decodes rpcs (.receive (.ok msgBytes) true callbackRaises) ↔
      ∃ values, unpackPayload reqTypes msg.payload = .ok values := by
  refine ⟨fun h => h msg reqTypes hunpack hknown htxn, ?_⟩
  intro h msg' reqTypes' hunpack' hknown' _
  obtain rfl := Except.ok.inj (hunpack.symm.trans hunpack')
  obtain rfl := Option.some.inj (hknown.symm.trans hknown')
  exact h

theorem decodes_of_caller {e : SessionEvent} (h : e.outcome? = none) : Decodes rpcs e := by
  cases e with
  | receive outcome subscribed callbackRaises => cases h
  | _ => trivial

namespace Client

theorem receive_received (rpcs : Rpcs) (s : Client) (outcome : Except PyError (List UInt8))
    (subscribed callbackRaises : Bool) :
    (s.receive rpcs outcome subscribed callbackRaises).received = s.received ++ [outcome] := by
  rfl

theorem receive_of_put {outcome : Except PyError (List UInt8)} {item : Except SessionError Msg}
    (h : classify rpcs outcome = .put item) (s : Client) (subscribed callbackRaises : Bool) :
    s.receive rpcs outcome subscribed callbackRaises =
      { s.put item with received := s.received ++ [outcome] } := by
  simp only [receive, h]

theorem receive_of_notification {outcome : Except PyError (List UInt8)} {reqTypes : Members}
    {msg : Msg} (h : classify rpcs outcome = .notification reqTypes msg) (s : Client)
    (subscribed callbackRaises : Bool) :
    s.receive rpcs outcome subscribed callbackRaises =
      { s with
        listenerAlive := !dispatchRaises reqTypes msg.payload subscribed callbackRaises
        received := s.received ++ [outcome] } := by
  simp only [receive, h]

/-- The listener lives on after a round if and only if the round decodes. -/
theorem receive_listenerAlive {s : Client} (h : s.listenerAlive = true)
    (outcome : Except PyError (List UInt8)) (subscribed : Bool) :
    (s.receive rpcs outcome subscribed false).listenerAlive = true ↔
      Decodes rpcs (.receive outcome subscribed false) := by
  obtain ⟨item, hclass⟩ | ⟨msgBytes, msg, reqTypes, rfl, hunpack, hknown, htxn, hclass⟩ :=
    classify_cases rpcs outcome
  · rw [receive_of_put hclass]
    exact iff_of_true h (decodes_of_put hclass subscribed)
  · rw [receive_of_notification hclass]
    cases subscribed with
    | false => exact iff_of_true rfl trivial
    | true =>
      rw [decodes_notification hunpack hknown htxn]
      cases hvalues : unpackPayload reqTypes msg.payload with
      | error e => simp [dispatchRaises, hvalues, Except.toBool]
      | ok values => simp [dispatchRaises, hvalues, Except.toBool]

/-- What the callers do leaves the listener alone. -/
theorem step_of_caller {s s' : Client} {e : SessionEvent} (he : e.outcome? = none)
    (h : step rpcs s e = some s') :
    s'.listenerAlive = s.listenerAlive ∧ s'.received = s.received := by
  cases e with
  | rpc rpcId data sendRaises =>
    obtain ⟨-, rfl⟩ := step_rpc.mp h
    simp only [sendRequest]
    split <;> exact ⟨rfl, rfl⟩
  | sendNotif rpcId data =>
    obtain ⟨-, rfl⟩ := step_sendNotif.mp h
    exact ⟨rfl, rfl⟩
  | checkListener =>
    obtain ⟨c, -, -, rfl⟩ := step_checkListener.mp h
    simp only [checkListener]
    split <;> exact ⟨rfl, rfl⟩
  | get =>
    obtain ⟨c, d, queue, -, -, -, rfl⟩ := step_get.mp h
    exact ⟨rfl, rfl⟩
  | timeout =>
    obtain ⟨c, -, -, -, rfl⟩ := step_timeout.mp h
    exact ⟨rfl, rfl⟩
  | receive outcome subscribed callbackRaises => cases he

def CallerEnabled (rpcs : Rpcs) (s : Client) (e : SessionEvent) : Prop :=
  e.outcome? = none → ∃ s', step rpcs s e = some s'

/-- The listener processes everything that is delivered, lives on, and puts a later reply in the
queue. -/
def Survives (rpcs : Rpcs) (s : Client) (es : List SessionEvent) : Prop :=
  ∃ s', run (step rpcs) s es = some s' ∧ s'.listenerAlive = true ∧
    s'.received = s.received ++ es.filterMap SessionEvent.outcome? ∧
    ∀ msgBytes msg subscribed, WellFormedReply rpcs msgBytes msg →
      ∃ next, step rpcs s' (.receive (.ok msgBytes) subscribed false) = some next ∧
        next.listenerAlive = true ∧ next.queue = s'.queue ++ [⟨.ok msg, s'.received.length⟩]

/-- A listener that is alive puts a well-formed reply in the queue. -/
theorem queues_reply {s : Client} (h : s.listenerAlive = true) {msgBytes : List UInt8} {msg : Msg}
    (hreply : WellFormedReply rpcs msgBytes msg) (subscribed : Bool) :
    ∃ next, step rpcs s (.receive (.ok msgBytes) subscribed false) = some next ∧
      next.listenerAlive = true ∧ next.queue = s.queue ++ [⟨.ok msg, s.received.length⟩] := by
  refine ⟨_, step_receive.mpr ⟨h, rfl⟩, ?_⟩
  rw [receive_of_put hreply.classify_eq]
  exact ⟨h, rfl⟩

theorem survives_nil {s : Client} (h : s.listenerAlive = true) : Survives rpcs s [] :=
  ⟨s, rfl, h, (List.append_nil _).symm, fun _ _ subscribed hreply =>
    queues_reply h hreply subscribed⟩

theorem survives_cons {s m : Client} {e : SessionEvent} {es : List SessionEvent}
    (hstep : step rpcs s e = some m) (hreceived : m.received = s.received ++ e.outcome?.toList) :
    Survives rpcs s (e :: es) ↔ Survives rpcs m es := by
  have hrun : ∀ s', run (step rpcs) s (e :: es) = some s' ↔ run (step rpcs) m es = some s' := by
    intro s'
    rw [run, hstep, Option.bind_some]
  have hall : s.received ++ (e :: es).filterMap SessionEvent.outcome? =
      m.received ++ es.filterMap SessionEvent.outcome? := by
    rw [hreceived, List.append_assoc, List.filterMap_cons]
    cases e.outcome? with
    | none => rfl
    | some outcome => rfl
  simp only [Survives, hrun, hall]

/-- A listener that has ended stays so. -/
theorem listenerAlive_of_run {s s' : Client} {es : List SessionEvent}
    (hrun : run (step rpcs) s es = some s') (h : s.listenerAlive = false) :
    s'.listenerAlive = false := by
  refine @run_invariant _ _ _ (fun s : Client => s.listenerAlive = false) ?_ _ _ _ h hrun
  intro s e s' hdead hstep
  cases he : e.outcome? with
  | none => rw [(step_of_caller he hstep).1, hdead]
  | some outcome =>
    cases e with
    | receive outcome subscribed callbackRaises =>
      rw [(step_receive.mp hstep).1] at hdead
      cases hdead
    | _ => cases he

theorem not_survives {s : Client} (h : s.listenerAlive = false) (es : List SessionEvent) :
    ¬ Survives rpcs s es := by
  rintro ⟨s', hrun, halive, -⟩
  rw [listenerAlive_of_run hrun h] at halive
  cases halive

/-- Whatever the callers do meanwhile, the listener survives a sequence of deliveries if and only if
each notification with a subscriber decodes. -/
theorem survives_iff {s : Client} {es : List SessionEvent} (h : s.listenerAlive = true)
    (hsubscribers : ∀ e ∈ es, ¬ e.SubscriberRaises)
    (hcallers : Along (step rpcs) (CallerEnabled rpcs) s es) :
    Survives rpcs s es ↔ ∀ e ∈ es, Decodes rpcs e := by
  induction es generalizing s with
  | nil => exact iff_of_true (survives_nil h) (List.forall_mem_nil _)
  | cons e es ih =>
    obtain ⟨henabled, hlater⟩ := hcallers
    obtain ⟨hraises, hrest⟩ := List.forall_mem_cons.mp hsubscribers
    rw [List.forall_mem_cons]
    cases he : e.outcome? with
    | none =>
      obtain ⟨m, hm⟩ := henabled he
      obtain ⟨halive, hreceived⟩ := step_of_caller he hm
      rw [survives_cons hm (by rw [hreceived, he, Option.toList_none, List.append_nil]),
        ih (halive.trans h) hrest (hlater m hm)]
      exact (and_iff_right (decodes_of_caller he)).symm
    | some outcome =>
      cases e with
      | receive outcome subscribed callbackRaises =>
        obtain rfl : callbackRaises = false := Bool.eq_false_of_not_eq_true hraises
        have hm : step rpcs s (.receive outcome subscribed false) = _ := step_receive.mpr ⟨h, rfl⟩
        rw [survives_cons hm (receive_received rpcs s outcome subscribed false)]
        have halive := @receive_listenerAlive rpcs s h outcome subscribed
        by_cases hdecodes : Decodes rpcs (.receive outcome subscribed false)
        · rw [ih (halive.mpr hdecodes) hrest (hlater _ hm)]
          exact (and_iff_right hdecodes).symm
        · refine iff_of_false (not_survives ?_ es) fun hall => hdecodes hall.1
          exact Bool.eq_false_of_not_eq_true (mt halive.mp hdecodes)
      | _ => cases he

def notifyRpcs : Rpcs := fun rpcId => if rpcId = 0x100 then some (.ofTypes [.num .u16]) else none

/-- A transport error, a short message, a request sent meanwhile, and a notification. -/
theorem survives_notification :
    Survives notifyRpcs init
      [.receive (.error .structError) true false, .receive (.ok [0x01]) true false,
        .rpc 0x001 [] false, .checkListener,
        .receive (.ok [0x01, 0x00, 0x01, 0x00, 0x12, 0x34, 0x00, 0x00]) true false] := by
  refine (survives_iff rfl ?_ ?_).mpr ?_
  · simp [SessionEvent.SubscriberRaises]
  · refine along_cons rfl nofun (along_cons rfl nofun (along_cons rfl (fun _ => ⟨_, rfl⟩)
      (along_cons rfl (fun _ => ⟨_, rfl⟩) (along_cons rfl nofun trivial))))
  · have hshort : Decodes notifyRpcs (.receive (.ok [0x01]) true false) :=
      decodes_of_put (show classify _ _ = .put (.error .malformedMessage) from rfl) true
    have hunpack : Msg.unpack [0x01, 0x00, 0x01, 0x00, 0x12, 0x34, 0x00, 0x00] =
        .ok ⟨⟨1, 0, false, 0x100⟩, [0x12, 0x34, 0x00, 0x00]⟩ := by decide +kernel
    have hnotification : Decodes notifyRpcs
        (.receive (.ok [0x01, 0x00, 0x01, 0x00, 0x12, 0x34, 0x00, 0x00]) true false) :=
      (decodes_notification hunpack (if_pos rfl) rfl).mpr ⟨_, rfl⟩
    simp only [List.forall_mem_cons]
    exact ⟨trivial, hshort, trivial, trivial, hnotification, List.forall_mem_nil _⟩

/-- A notification without its argument ends the listener. -/
theorem not_survives_shortNotification :
    init.listenerAlive = true ∧
      ¬ Survives notifyRpcs init [.receive (.ok [0x00, 0x00, 0x01, 0x00]) true false] := by
  refine ⟨rfl, fun hsurvives => ?_⟩
  have hm : step notifyRpcs init (.receive (.ok [0x00, 0x00, 0x01, 0x00]) true false) = _ :=
    step_receive.mpr ⟨rfl, rfl⟩
  exact not_survives rfl [] ((survives_cons hm rfl).mp hsurvives)

end Client

end CompostRpc
