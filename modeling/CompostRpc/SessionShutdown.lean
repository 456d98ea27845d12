import CompostRpc.TransactionTable

/-!
# The end of the read task

The read task of a C# session ends when it is canceled or when a read fails, and `DisposeAsync`
clears the table of transactions after it. Calls go on beside both. A transaction in the table is
never completed, so after the end of the read task the table must be empty, and it stays so exactly
if no read fails over a transaction in the table and no call adds one behind the reader.
-/

namespace CompostRpc
open TransitionRun

/-- Where `ReadMessagesAsync` is: at the condition of its loop, in `ReadMessageAsync`, or left by
cancellation or by an exception of the transport. -/
inductive ReadTask
  | checking | reading | canceled | failed
  deriving DecidableEq

/-- The session, whether its token is canceled, the calls of `DisposeAsync` in progress, and whether
one of them has completed. -/
structure SessionLife where
  session : CsSession
  cancellationRequested : Bool
  readTask : ReadTask
  disposing : ℕ
  disposed : Bool

/-- A read that throws does so with an `OperationCanceledException` or with another exception. -/
inductive LifeEvent
  | call (event : CsEvent)
  | checkCondition
  | readMessage (msg : CsMessage)
  | readThrows (operationCanceled : Bool)
  | setResponse
  | dispose
  | disposeTimeout
  | disposeCompletes

def CsEvent.isCall : CsEvent → Bool
  | .readMessage _ | .setResponse | .clearTransactions => false
  | _ => true

def Response.isCompleted : Response → Bool
  | .pending => false
  | _ => true

namespace SessionLife

def init : SessionLife := ⟨CsSession.init, false, .checking, 0, false⟩

def readTaskEnded (s : SessionLife) : Bool := s.readTask = .canceled || s.readTask = .failed

/-- A read that throws because the token is canceled ends the task by cancellation. -/
def readThrows (s : SessionLife) (operationCanceled : Bool) : SessionLife :=
  { s with readTask := if operationCanceled && s.cancellationRequested then .canceled else .failed }

def step (s : SessionLife) : LifeEvent → Option SessionLife
  | .call event =>
    if event.isCall then
      (s.session.step event).map fun session => { s with session := session }
    else none
  | .checkCondition =>
    if s.readTask = .checking ∧ s.session.fetched.isNone then
      some { s with readTask := if s.cancellationRequested then .canceled else .reading }
    else none
  | .readMessage msg =>
    if s.readTask = .reading then
      (s.session.step (.readMessage msg)).map fun session =>
        { s with session := session, readTask := .checking }
    else none
  | .readThrows operationCanceled =>
    if s.readTask = .reading then some (s.readThrows operationCanceled) else none
  | .setResponse => (s.session.step .setResponse).map fun session => { s with session := session }
  | .dispose =>
    -- the source of the token is disposed with the session, and cannot be canceled after that
    if s.disposed then none
    else some { s with cancellationRequested := true, disposing := s.disposing + 1 }
  | .disposeTimeout =>
    if 0 < s.disposing ∧ s.readTaskEnded = false then some { s with disposing := s.disposing - 1 }
    else none
  | .disposeCompletes =>
    if 0 < s.disposing ∧ s.readTaskEnded = true then
      some { s with
        session := s.session.clearTransactions
        disposing := s.disposing - 1
        disposed := true }
    else none

/-- The read task has ended by an exception, or by cancellation with `DisposeAsync` completed. -/
def Stopped (s : SessionLife) : Prop :=
  s.readTask = .failed ∨ s.readTask = .canceled ∧ s.disposed = true

def NoneStranded (s : SessionLife) : Prop :=
  s.Stopped → ∀ i t c, s.session.txnDict i = some t → s.session.calls[t.call]? = some c →
    c.response.isCompleted = true

/-- A step that strands no call: a read does not fail over a transaction in the table, and no
transaction is added when the reader has stopped. -/
def Ok (s : SessionLife) : LifeEvent → Prop
  | .readThrows operationCanceled =>
    (s.readThrows operationCanceled).readTask = .failed → ∀ i, s.session.txnDict i = none
  | .call (.addTransaction _) => ¬ s.Stopped
  | _ => True

end SessionLife

namespace CsSession

/-- The call of a transaction in the table, and a call before it adds its transaction, has no
response. The transaction that the reader holds is not in the table any more. -/
structure Unanswered (s : CsSession) : Prop where
  aquired : ∀ (k : ℕ) (c : CsCall), s.calls[k]? = some c → c.phase = .aquired →
    c.response = .pending
  slots : ∀ i t, s.txnDict i = some t →
    ∃ c, s.calls[t.call]? = some c ∧ c.phase ≠ .aquired ∧ c.response = .pending
  fetched : ∀ t msg, s.fetched = some (t, msg) →
    (∃ c, s.calls[t.call]? = some c ∧ c.phase ≠ .aquired) ∧
      ∀ i t', s.txnDict i = some t' → t'.call ≠ t.call

theorem unanswered_init : Unanswered init where
  aquired := by simp [init]
  slots := by simp [init]
  fetched := by simp [init]

/-- A call goes on behind the phase in which it has its number only. -/
theorem Unanswered.enter {s : CsSession} (h : s.Unanswered) (k : ℕ) {phase : CallPhase}
    (hphase : phase ≠ .aquired) : (s.updateCall k (·.enter phase)).Unanswered := by
  have hkeeps : ∀ (j : ℕ) (c : CsCall), s.calls[j]? = some c → c.phase ≠ .aquired →
      ∃ c' : CsCall,
      (s.updateCall k (·.enter phase)).calls[j]? = some c' ∧ c'.phase ≠ .aquired ∧
        c'.response = c.response := by
    intro j c hj hc
    by_cases hjk : j = k
    · subst hjk
      exact ⟨_, getElem?_updateCall hj _, hphase, rfl⟩
    · exact ⟨c, (getElem?_updateCall_of_ne s hjk _).trans hj, hc, rfl⟩
  refine ⟨fun j c hj hc => ?_, fun i t hi => ?_, fun t msg ht => ⟨?_, (h.fetched t msg ht).2⟩⟩
  · by_cases hjk : j = k
    · subst hjk
      simp only [updateCall, List.getElem?_modify, if_true] at hj
      obtain ⟨c', -, rfl⟩ := Option.map_eq_some_iff.mp hj
      exact absurd hc hphase
    · exact h.aquired j c ((getElem?_updateCall_of_ne s hjk _).symm.trans hj) hc
  · obtain ⟨c, hc, hin, hpending⟩ := h.slots i t hi
    obtain ⟨c', hc', hin', hresponse⟩ := hkeeps _ c hc hin
    exact ⟨c', hc', hin', hresponse.trans hpending⟩
  · obtain ⟨c, hc, hin⟩ := (h.fetched t msg ht).1
    obtain ⟨c', hc', hin', -⟩ := hkeeps _ c hc hin
    exact ⟨c', hc', hin'⟩

theorem Unanswered.aquire {s : CsSession} (h : s.Unanswered) :
    s.aquireNextTxnId.Unanswered := by
  have hold : ∀ (k : ℕ) (c : CsCall), s.calls[k]? = some c →
      s.aquireNextTxnId.calls[k]? = some c := by
    intro k c hk
    rw [aquireNextTxnId, List.getElem?_append_left (List.getElem?_eq_some_iff.mp hk).1]
    exact hk
  refine ⟨fun k c hk hc => ?_, fun i t hi => ?_, fun t msg ht => ?_⟩
  · by_cases hlt : k < s.calls.length
    · rw [aquireNextTxnId, List.getElem?_append_left hlt] at hk
      exact h.aquired k c hk hc
    · rw [aquireNextTxnId, List.getElem?_append_right (by omega)] at hk
      obtain rfl := List.mem_singleton.mp (List.mem_of_getElem? hk)
      rfl
  · obtain ⟨c, hc, hin⟩ := h.slots i t hi
    exact ⟨c, hold _ _ hc, hin⟩
  · obtain ⟨⟨c, hc, hin⟩, hslots⟩ := h.fetched t msg ht
    exact ⟨⟨c, hold _ _ hc, hin⟩, hslots⟩

/-- The table is cleared at a slot, or the transaction of a call that just left its first phase is
put there. -/
theorem Unanswered.setSlot {s : CsSession} (h : s.Unanswered) (i : UInt8)
    {slot : Option Transaction}
    (hslot : ∀ t ∈ slot, (∃ c, s.calls[t.call]? = some c ∧ c.phase ≠ .aquired ∧
      c.response = .pending) ∧ ∀ t' msg, s.fetched = some (t', msg) → t.call ≠ t'.call) :
    (s.setSlot i slot).Unanswered := by
  have hslots : ∀ j t, (s.setSlot i slot).txnDict j = some t → s.txnDict j = some t ∨ t ∈ slot := by
    intro j t hj
    by_cases hji : j = i
    · subst hji
      rw [setSlot_txnDict_self] at hj
      exact .inr hj
    · rw [setSlot_txnDict_of_ne s slot hji] at hj
      exact .inl hj
  refine ⟨h.aquired, fun j t hj => ?_, fun t msg ht => ⟨(h.fetched t msg ht).1, fun j t' hj => ?_⟩⟩
  · rcases hslots j t hj with hold | hnew
    · exact h.slots j t hold
    · exact (hslot t hnew).1
  · rcases hslots j t' hj with hold | hnew
    · exact (h.fetched t msg ht).2 j t' hold
    · exact (hslot t' hnew).2 t msg ht

theorem Unanswered.fetchAndRemove {s : CsSession} (h : s.Unanswered) (i : UInt8)
    (cause : RemovalCause) : (s.fetchAndRemoveTransaction i cause).Unanswered := by
  have hnone : ∀ t ∈ (none : Option Transaction), (∃ c, s.calls[t.call]? = some c ∧
      c.phase ≠ .aquired ∧ c.response = .pending) ∧
        ∀ t' msg, s.fetched = some (t', msg) → t.call ≠ t'.call := fun t ht => by cases ht
  have hset := h.setSlot i hnone
  exact ⟨hset.aquired, hset.slots, hset.fetched⟩

theorem Unanswered.addTransaction {s : CsSession} (h : s.Unanswered) {k : ℕ} {c : CsCall}
    (hk : s.calls[k]? = some c) (hc : c.phase = .aquired) : (s.addTransaction k c).Unanswered := by
  unfold CsSession.addTransaction
  split
  · exact h.enter k (by decide)
  · refine (@Unanswered.enter _ h k .added (by decide)).setSlot c.txnID fun t ht => ?_
    obtain rfl := Option.some.inj ht
    refine ⟨⟨_, getElem?_updateCall hk _, by simp [CsCall.enter], h.aquired k c hk hc⟩, ?_⟩
    rintro t' msg ht' rfl
    obtain ⟨c', hc', hin⟩ := (h.fetched t' msg ht').1
    obtain rfl := Option.some.inj (hk.symm.trans hc')
    exact hin hc

/-- A transaction is in the slot of its number only. -/
theorem Numbered.slot_unique {s : CsSession} (h : s.Numbered) {i j : UInt8} {t t' : Transaction}
    (hi : s.txnDict i = some t) (hj : s.txnDict j = some t') (hcall : t.call = t'.call) :
    i = j := by
  obtain ⟨htxn, hnum⟩ := h.slots i t hi
  obtain ⟨htxn', hnum'⟩ := h.slots j t' hj
  rw [← htxn, ← htxn', hnum.txnID_eq, hnum'.txnID_eq, hcall]

theorem Unanswered.readMessage {s : CsSession} (h : s.Unanswered) (hnumbered : s.Numbered)
    (msg : CsMessage) : (s.readMessage msg).Unanswered := by
  unfold CsSession.readMessage
  split
  · have hremoved := h.fetchAndRemove msg.txn (.response msg.txn)
    refine ⟨hremoved.aquired, hremoved.slots, fun t msg' ht => ?_⟩
    obtain ⟨t', ht', heq⟩ := Option.map_eq_some_iff.mp ht
    obtain ⟨rfl, rfl⟩ := Prod.mk.inj heq
    obtain ⟨c, hc, hin, -⟩ := h.slots msg.txn t' ht'
    refine ⟨⟨c, hc, hin⟩, fun i t hi hcall => ?_⟩
    by_cases hne : i = msg.txn
    · subst hne
      exact Option.some_ne_none t (hi.symm.trans (setSlot_txnDict_self s msg.txn none))
    · have hold : s.txnDict i = some t := (setSlot_txnDict_of_ne s none hne).symm.trans hi
      exact hne (hnumbered.slot_unique hold ht' hcall)
  · exact h

/-- A response to a call whose transaction is in no slot. -/
theorem Unanswered.trySet {s : CsSession} (h : s.Unanswered) {k : ℕ} (response : Response)
    (hin : ∃ c, s.calls[k]? = some c ∧ c.phase ≠ .aquired)
    (hslots : ∀ i t, s.txnDict i = some t → t.call ≠ k) :
    (s.updateCall k (·.trySet response)).Unanswered := by
  have hkeeps : ∀ (j : ℕ) (c : CsCall), s.calls[j]? = some c → c.phase ≠ .aquired →
      ∃ c', (s.updateCall k (·.trySet response)).calls[j]? = some c' ∧ c'.phase ≠ .aquired := by
    intro j c hj hc
    by_cases hjk : j = k
    · subst hjk
      exact ⟨_, getElem?_updateCall hj _, (phase_trySet c response).symm ▸ hc⟩
    · exact ⟨c, (getElem?_updateCall_of_ne s hjk _).trans hj, hc⟩
  refine ⟨fun j c hj hc => ?_, fun i t hi => ?_, fun t msg ht => ⟨?_, (h.fetched t msg ht).2⟩⟩
  · by_cases hjk : j = k
    · subst hjk
      obtain ⟨c', hc', hin'⟩ := hin
      obtain rfl := Option.some.inj ((getElem?_updateCall hc' _).symm.trans hj)
      exact absurd ((phase_trySet c' response).symm.trans hc) hin'
    · exact h.aquired j c ((getElem?_updateCall_of_ne s hjk _).symm.trans hj) hc
  · obtain ⟨c, hc, hrest⟩ := h.slots i t hi
    exact ⟨c, (getElem?_updateCall_of_ne s (hslots i t hi) _).trans hc, hrest⟩
  · obtain ⟨c, hc, hphase⟩ := (h.fetched t msg ht).1
    exact hkeeps _ c hc hphase

theorem Unanswered.clearSlot {s : CsSession} (h : s.Unanswered) (hnumbered : s.Numbered)
    (i : UInt8) : (s.clearSlot i).Unanswered := by
  unfold CsSession.clearSlot
  split
  · rename_i t ht
    obtain ⟨c, hc, hin, -⟩ := h.slots i t ht
    have hremoved := h.fetchAndRemove i .clear
    have hslots : ∀ j t', (s.fetchAndRemoveTransaction i .clear).txnDict j = some t' →
        t'.call ≠ t.call := by
      intro j t' hj hcall
      by_cases hji : j = i
      · subst hji
        exact Option.some_ne_none t' (hj.symm.trans (setSlot_txnDict_self s j none))
      · have hold : s.txnDict j = some t' := (setSlot_txnDict_of_ne s none hji).symm.trans hj
        exact hji (hnumbered.slot_unique hold ht hcall)
    have hset := hremoved.trySet .canceled ⟨c, hc, hin⟩ hslots
    exact ⟨hset.aquired, hset.slots, hset.fetched⟩
  · exact h

theorem txnDict_clearSlot (s : CsSession) (i j : UInt8) :
    (s.clearSlot i).txnDict j = if j = i then none else s.txnDict j := by
  unfold CsSession.clearSlot
  split
  · exact Function.update_apply ..
  · rename_i hnone
    split
    · rename_i hji
      rw [hji, hnone]
    · rfl

theorem Unanswered.clearTransactions {s : CsSession} (h : s.Unanswered)
    (hnumbered : s.Numbered) : s.clearTransactions.Unanswered :=
  (List.foldlRecOn (motive := fun s' : CsSession => s'.Unanswered ∧ s'.Numbered) _ _
    ⟨h, hnumbered⟩ fun _ hs i _ => ⟨hs.1.clearSlot hs.2 i, hs.2.clearSlot i⟩).1

theorem txnDict_foldl_clearSlot (is : List UInt8) (s : CsSession) (j : UInt8) :
    (is.foldl CsSession.clearSlot s).txnDict j = if j ∈ is then none else s.txnDict j := by
  induction is generalizing s with
  | nil => rfl
  | cons i is ih =>
    rw [List.foldl_cons, ih, txnDict_clearSlot]
    by_cases hj : j ∈ is
    · rw [if_pos hj, if_pos (List.mem_cons_of_mem _ hj)]
    · rw [if_neg hj]
      by_cases hji : j = i
      · rw [if_pos hji, if_pos (hji ▸ List.mem_cons_self)]
      · rw [if_neg hji, if_neg (by simp [hji, hj])]

theorem txnDict_clearTransactions (s : CsSession) (i : UInt8) :
    s.clearTransactions.txnDict i = none := by
  have hmem : i ∈ (List.range 256).map UInt8.ofNat :=
    List.mem_map.mpr ⟨i.toNat, List.mem_range.mpr i.toNat_lt, UInt8.ofNat_toNat⟩
  rw [clearTransactions, txnDict_foldl_clearSlot, if_pos hmem]

theorem Unanswered.step {s s' : CsSession} {e : CsEvent} (h : s.Unanswered)
    (hnumbered : s.Numbered) (hstep : step s e = some s') : s'.Unanswered := by
  cases stepped_of_step hstep with
  | aquire => exact h.aquire
  | addTransaction hcall hphase => exact h.addTransaction hcall hphase
  | writeMessage _ _ throws hnext => exact h.enter _ (by rw [hnext]; split <;> decide)
  | timeout | complete => exact h.enter _ (by decide)
  | timeoutRemove => exact (h.enter _ (by decide)).fetchAndRemove _ _
  | readMessage msg => exact h.readMessage hnumbered msg
  | @setResponse t msg hfetched =>
    obtain ⟨hin, hslots⟩ := h.fetched t msg hfetched
    have hset := h.trySet (.set msg) hin hslots
    exact ⟨hset.aquired, hset.slots, fun _ _ hnone => by cases hnone⟩
  | clearTransactions => exact h.clearTransactions hnumbered

/-- Only `AddTransaction` puts a transaction into the table. -/
theorem txnDict_step {s s' : CsSession} {e : CsEvent} (hadd : ∀ k, e ≠ .addTransaction k)
    (hstep : step s e = some s') (hempty : ∀ i, s.txnDict i = none) (i : UInt8) :
    s'.txnDict i = none := by
  have hremoved : ∀ (s : CsSession) (j : UInt8) (cause : RemovalCause),
      (∀ i, s.txnDict i = none) → (s.fetchAndRemoveTransaction j cause).txnDict i = none := by
    intro s j cause hs
    refine (Function.update_apply ..).trans ?_
    split
    · rfl
    · exact hs i
  cases stepped_of_step hstep with
  | addTransaction => exact absurd rfl (hadd _)
  | aquire | writeMessage | timeout | complete | setResponse => exact hempty i
  | timeoutRemove => exact hremoved _ _ _ hempty
  | readMessage msg =>
    unfold CsSession.readMessage
    split
    · exact hremoved s msg.txn (.response msg.txn) hempty
    · exact hempty i
  | clearTransactions => exact txnDict_clearTransactions s i

end CsSession

namespace SessionLife

open CsSession

structure Good (s : SessionLife) : Prop where
  numbered : s.session.Numbered
  unanswered : s.session.Unanswered
  disposed : s.disposed = true → s.readTaskEnded = true
  stopped : s.Stopped → ∀ i, s.session.txnDict i = none

theorem good_init : Good init where
  numbered := numbered_init
  unanswered := unanswered_init
  disposed := by simp [init]
  stopped := by simp [init, Stopped]

theorem Good.noneStranded {s : SessionLife} (h : Good s) : s.NoneStranded := by
  intro hstopped i t c hi
  rw [h.stopped hstopped i] at hi
  cases hi

theorem Good.withSession {s : SessionLife} (h : Good s) {session : CsSession} {e : CsEvent}
    (hstep : s.session.step e = some session)
    (hempty : s.Stopped → ∀ i, session.txnDict i = none) : Good { s with session := session } where
  numbered := h.numbered.step hstep
  unanswered := h.unanswered.step h.numbered hstep
  disposed := h.disposed
  stopped := hempty

/-- A step of the read task that does not stop it. -/
theorem Good.withReadTask {s : SessionLife} (h : Good s) {task : ReadTask}
    (hrunning : s.readTaskEnded = false)
    (hempty : task = .failed → ∀ i, s.session.txnDict i = none) :
    Good { s with readTask := task } where
  numbered := h.numbered
  unanswered := h.unanswered
  disposed := fun hd => by rw [h.disposed hd] at hrunning; cases hrunning
  stopped := by
    rintro (hfailed | ⟨-, hd⟩)
    · exact hempty hfailed
    · rw [h.disposed hd] at hrunning
      cases hrunning

theorem Good.step {s s' : SessionLife} {e : LifeEvent} (h : Good s) (hok : Ok s e)
    (hstep : step s e = some s') : Good s' := by
  cases e with
  | call event =>
    obtain ⟨-, hcall⟩ := Option.ite_none_right_eq_some.mp hstep
    obtain ⟨session, hsession, rfl⟩ := Option.map_eq_some_iff.mp hcall
    refine h.withSession hsession fun hstopped => ?_
    refine txnDict_step ?_ hsession (h.stopped hstopped)
    rintro k rfl
    exact hok hstopped
  | checkCondition =>
    obtain ⟨⟨htask, -⟩, hsome⟩ := Option.ite_none_right_eq_some.mp hstep
    obtain rfl := Option.some.inj hsome
    refine h.withReadTask (by simp [readTaskEnded, htask]) fun hfailed => ?_
    split at hfailed <;> cases hfailed
  | readMessage msg =>
    obtain ⟨htask, hread⟩ := Option.ite_none_right_eq_some.mp hstep
    obtain ⟨session, hsession, rfl⟩ := Option.map_eq_some_iff.mp hread
    have hrunning : s.readTaskEnded = false := by simp [readTaskEnded, htask]
    have hnot : ¬ s.Stopped := by
      rintro (hfailed | ⟨hcanceled, -⟩)
      · rw [htask] at hfailed; cases hfailed
      · rw [htask] at hcanceled; cases hcanceled
    exact (h.withSession hsession (absurd · hnot)).withReadTask hrunning fun hfailed => by
      cases hfailed
  | readThrows operationCanceled =>
    obtain ⟨htask, hsome⟩ := Option.ite_none_right_eq_some.mp hstep
    obtain rfl := Option.some.inj hsome
    exact h.withReadTask (by simp [readTaskEnded, htask]) hok
  | setResponse =>
    obtain ⟨session, hsession, rfl⟩ := Option.map_eq_some_iff.mp hstep
    exact h.withSession hsession fun hstopped =>
      txnDict_step (by simp) hsession (h.stopped hstopped)
  | dispose =>
    obtain ⟨-, hsome⟩ := Option.ite_none_left_eq_some.mp hstep
    obtain rfl := Option.some.inj hsome
    exact ⟨h.numbered, h.unanswered, h.disposed, h.stopped⟩
  | disposeTimeout =>
    obtain ⟨-, hsome⟩ := Option.ite_none_right_eq_some.mp hstep
    obtain rfl := Option.some.inj hsome
    exact ⟨h.numbered, h.unanswered, h.disposed, h.stopped⟩
  | disposeCompletes =>
    obtain ⟨⟨-, hended⟩, hsome⟩ := Option.ite_none_right_eq_some.mp hstep
    obtain rfl := Option.some.inj hsome
    have hempty := txnDict_clearTransactions s.session
    have hnumbered := h.numbered.clearTransactions
    have hunanswered := h.unanswered.clearTransactions h.numbered
    generalize s.session.clearTransactions = session at hempty hnumbered hunanswered
    exact ⟨hnumbered, hunanswered, fun _ => hended, fun _ => hempty⟩

/-- A transaction in the table when the session has stopped strands its call. -/
theorem not_noneStranded {s : SessionLife} (hunanswered : s.session.Unanswered)
    (hstopped : s.Stopped) {i : UInt8} {t : Transaction} (hi : s.session.txnDict i = some t) :
    ¬ s.NoneStranded := by
  intro hnone
  obtain ⟨c, hc, -, hpending⟩ := hunanswered.slots i t hi
  have hcompleted := hnone hstopped i t c hi hc
  rw [hpending] at hcompleted
  cases hcompleted

theorem Good.not_step {s s' : SessionLife} {e : LifeEvent} (h : Good s) (hnot : ¬ Ok s e)
    (hstep : SessionLife.step s e = some s') : ¬ s'.NoneStranded := by
  cases e with
  | call event =>
    obtain ⟨-, hcall⟩ := Option.ite_none_right_eq_some.mp hstep
    obtain ⟨session, hsession, rfl⟩ := Option.map_eq_some_iff.mp hcall
    cases event with
    | addTransaction k =>
      have hstopped : s.Stopped := not_not.mp hnot
      have hunanswered := h.unanswered.step h.numbered hsession
      obtain ⟨c, hc, rfl⟩ := Option.map_eq_some_iff.mp hsession
      have hadded : (s.session.addTransaction k c).txnDict c.txnID = some ⟨k, c.txnID⟩ := by
        simp only [addTransaction, h.stopped hstopped]
        exact setSlot_txnDict_self ..
      exact not_noneStranded hunanswered hstopped hadded
    | _ => exact absurd trivial hnot
  | readThrows operationCanceled =>
    simp only [Ok, Classical.not_imp, not_forall] at hnot
    obtain ⟨hfailed, i, hi⟩ := hnot
    obtain ⟨t, ht⟩ := Option.ne_none_iff_exists'.mp hi
    obtain ⟨-, hsome⟩ := Option.ite_none_right_eq_some.mp hstep
    obtain rfl := Option.some.inj hsome
    exact not_noneStranded h.unanswered (.inl hfailed) ht
  | _ => exact absurd trivial hnot

/-- No call is stranded in any state of a run if and only if no read fails over a transaction in the
table and no call adds a transaction to a session that has stopped. -/
theorem noneStranded_throughout_iff {s : SessionLife} {es : List LifeEvent}
    (hrun : run step init es = some s) :
    Throughout step NoneStranded init es ↔ Along step Ok init es :=
  throughout_iff_along (fun _ h => h.noneStranded) (fun _ _ _ h hstep hok => h.step hok hstep)
    (fun _ _ _ h hstep hnot => h.not_step hnot hstep) good_init hrun

def answeredCall : List LifeEvent :=
  [.checkCondition, .call .aquire, .call (.addTransaction 0), .call (.writeMessage 0 false),
    .readMessage ⟨1, 7, true, []⟩, .setResponse, .call (.complete 0), .checkCondition, .dispose,
    .readThrows true, .disposeCompletes]

theorem noneStranded_answeredCall : Throughout step NoneStranded init answeredCall := by
  refine (@noneStranded_throughout_iff _ answeredCall rfl).mpr ?_
  refine along_cons rfl trivial (along_cons rfl trivial (along_cons rfl ?_ (along_cons rfl trivial
    (along_cons rfl trivial (along_cons rfl trivial (along_cons rfl trivial (along_cons rfl trivial
      (along_cons rfl trivial (along_cons rfl ?_ (along_cons rfl trivial trivial))))))))))
  · rintro (hfailed | ⟨hcanceled, -⟩)
    · cases hfailed
    · cases hcanceled
  · intro hfailed
    cases hfailed

/-- A call is waiting when the connection breaks. -/
def brokenConnection : List LifeEvent :=
  [.checkCondition, .call .aquire, .call (.addTransaction 0), .call (.writeMessage 0 false),
    .readThrows false]

theorem stranded_brokenConnection :
    ∃ s, run step init brokenConnection = some s ∧ s.readTask = .failed ∧ ¬ s.NoneStranded := by
  refine ⟨_, rfl, rfl, fun hnone => ?_⟩
  have hcompleted := hnone (.inl rfl) 1 ⟨0, 1⟩ ⟨1, .written, .pending⟩ rfl rfl
  cases hcompleted

end SessionLife

end CompostRpc
