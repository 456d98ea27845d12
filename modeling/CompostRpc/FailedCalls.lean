import CompostRpc.SessionShutdown

/-!
# Calls that end with an exception

A call of `InvokeRawRpcAsync` can fail when its request is serialized, when its slot is taken, when
`WriteMessage` throws and when it times out. The first two fail before the transaction is in the
table, the last one clears the slot of the number, and a throwing `WriteMessage` leaves the
transaction where it is.
-/

namespace CompostRpc
open TransitionRun

/-- The events of the session, and the exception of a request that cannot be serialized: the
constructor of the message runs between `AquireNextTxnId` and `AddTransaction`. -/
inductive InvokeEvent
  | session (e : CsEvent)
  | serializationError (call : ℕ)

namespace CsSession

def invokeStep (s : CsSession) : InvokeEvent → Option CsSession
  | .session e => s.step e
  | .serializationError k =>
    (s.callIn k .aquired).map fun _ => s.updateCall k (·.enter .finished)

def failedCall (s : CsSession) : InvokeEvent → Option ℕ
  | .serializationError k => some k
  | .session (.addTransaction k) =>
    (s.callIn k .aquired).bind fun c => (s.txnDict c.txnID).map fun _ => k
  | .session (.writeMessage k true) => some k
  | .session (.timeoutRemove k) => some k
  | .session _ => none

/-- The transactions of other calls are the same as before, and the failed call has none. -/
structure LeavesNoTrace (s s' : CsSession) (k : ℕ) : Prop where
  others : ∀ i t, t.call ≠ k → (s'.txnDict i = some t ↔ s.txnDict i = some t)
  gone : ∀ i t, s'.txnDict i = some t → t.call ≠ k

/-- When `WriteMessage` throws, the transaction of the call has been removed by something else; when
a call has timed out, no other call has a transaction in the slot of its number. -/
def CleansUp (s : CsSession) : InvokeEvent → Prop
  | .session (.writeMessage k _) => ∃ r ∈ s.removed, r.transaction.call = k
  | .session (.timeoutRemove k) =>
    ∀ c t, s.calls[k]? = some c → s.txnDict c.txnID = some t → t.call = k
  | _ => True

/-- The transaction of a call is added once, and from then on it is in the table until its removal
is recorded. -/
structure Accounted (s : CsSession) : Prop where
  aquired : ∀ (k : ℕ) (c : CsCall), s.calls[k]? = some c → c.phase = .aquired →
    ∀ r ∈ s.removed, r.transaction.call ≠ k
  added : ∀ (k : ℕ) (c : CsCall), s.calls[k]? = some c → c.phase = .added →
    (∃ i t, s.txnDict i = some t ∧ t.call = k) ∨ ∃ r ∈ s.removed, r.transaction.call = k
  removed : ∀ r ∈ s.removed, ∀ i t, s.txnDict i = some t → t.call ≠ r.transaction.call

theorem accounted_init : Accounted init where
  aquired := by simp [init]
  added := by simp [init]
  removed := by simp [init]

theorem Accounted.aquire {s : CsSession} (h : s.Accounted) (hnumbered : s.Numbered) :
    s.aquireNextTxnId.Accounted := by
  have hcalls : ∀ (k : ℕ) (c : CsCall), s.aquireNextTxnId.calls[k]? = some c →
      s.calls[k]? = some c ∨ k = s.calls.length ∧ c.phase = .aquired := by
    intro k c hk
    rcases Nat.lt_trichotomy k s.calls.length with hlt | rfl | hgt
    · rw [aquireNextTxnId, List.getElem?_append_left hlt] at hk
      exact .inl hk
    · rw [aquireNextTxnId, List.getElem?_concat_length] at hk
      obtain rfl := Option.some.inj hk
      exact .inr ⟨rfl, rfl⟩
    · rw [aquireNextTxnId, List.getElem?_eq_none (by simp; omega)] at hk
      cases hk
  refine ⟨fun k c hk hc r hr => ?_, fun k c hk hc => ?_, h.removed⟩
  · rcases hcalls k c hk with hold | ⟨rfl, -⟩
    · exact h.aquired k c hold hc r hr
    · exact (hnumbered.removed r hr).1.call_lt.ne
  · rcases hcalls k c hk with hold | ⟨-, hphase⟩
    · exact h.added k c hold hc
    · rw [hphase] at hc
      cases hc

/-- A call is changed otherwise, or goes on behind the phase in which it has added its
transaction. -/
theorem Accounted.updateCall {s : CsSession} (h : s.Accounted) (k : ℕ) {f : CsCall → CsCall}
    (hf : ∀ c, (f c).phase = .aquired ∨ (f c).phase = .added → (f c).phase = c.phase) :
    (s.updateCall k f).Accounted := by
  have hcalls : ∀ (j : ℕ) (c : CsCall), (s.updateCall k f).calls[j]? = some c →
      c.phase = .aquired ∨ c.phase = .added →
      ∃ c', s.calls[j]? = some c' ∧ c'.phase = c.phase := by
    intro j c hj hphase
    simp only [CsSession.updateCall, List.getElem?_modify] at hj
    obtain ⟨c', hc', rfl⟩ := Option.map_eq_some_iff.mp hj
    split at hphase
    · rename_i hkj
      rw [if_pos hkj]
      exact ⟨c', hc', (hf c' hphase).symm⟩
    · rename_i hkj
      rw [if_neg hkj]
      exact ⟨c', hc', rfl⟩
  refine ⟨fun j c hj hc => ?_, fun j c hj hc => ?_, h.removed⟩
  · obtain ⟨c', hc', hphase⟩ := hcalls j c hj (.inl hc)
    exact h.aquired j c' hc' (hphase.trans hc)
  · obtain ⟨c', hc', hphase⟩ := hcalls j c hj (.inr hc)
    exact h.added j c' hc' (hphase.trans hc)

theorem Accounted.enter {s : CsSession} (h : s.Accounted) (k : ℕ) {phase : CallPhase}
    (haquired : phase ≠ .aquired) (hadded : phase ≠ .added) :
    (s.updateCall k (·.enter phase)).Accounted :=
  h.updateCall k fun _ hphase => (hphase.elim haquired hadded).elim

theorem Accounted.fetchAndRemove {s : CsSession} (h : s.Accounted) (hnumbered : s.Numbered)
    (hunanswered : s.Unanswered) (i : UInt8) (cause : RemovalCause) :
    (s.fetchAndRemoveTransaction i cause).Accounted := by
  have hslots : ∀ j t, (s.fetchAndRemoveTransaction i cause).txnDict j = some t →
      j ≠ i ∧ s.txnDict j = some t := by
    intro j t hj
    by_cases hji : j = i
    · subst hji
      cases hj.symm.trans (setSlot_txnDict_self s j none)
    · exact ⟨hji, (setSlot_txnDict_of_ne s none hji).symm.trans hj⟩
  have hremoved : ∀ r, r ∈ (s.fetchAndRemoveTransaction i cause).removed →
      r ∈ s.removed ∨ s.txnDict i = some r.transaction := by
    intro r hr
    rcases List.mem_append.mp hr with hold | hnew
    · exact .inl hold
    · obtain ⟨t, ht, rfl⟩ := List.mem_map.mp hnew
      exact .inr (Option.mem_toList.mp ht)
  refine ⟨fun k c hk hc r hr => ?_, fun k c hk hc => ?_, fun r hr j t hj => ?_⟩
  · rcases hremoved r hr with hold | hslot
    · exact h.aquired k c hk hc r hold
    · -- the call of a transaction in the table is past its first phase
      rintro rfl
      obtain ⟨c', hc', hphase, -⟩ := hunanswered.slots i _ hslot
      obtain rfl := Option.some.inj (hk.symm.trans hc')
      exact hphase hc
  · rcases h.added k c hk hc with ⟨j, t, hj, hcall⟩ | ⟨r, hr, hcall⟩
    · by_cases hji : j = i
      · subst hji
        refine .inr ⟨⟨t, cause⟩, List.mem_append_right _ ?_, hcall⟩
        rw [hj]
        exact List.mem_singleton_self _
      · exact .inl ⟨j, t, (setSlot_txnDict_of_ne s none hji).trans hj, hcall⟩
    · exact .inr ⟨r, List.mem_append_left _ hr, hcall⟩
  · obtain ⟨hji, hslot⟩ := hslots j t hj
    rcases hremoved r hr with hold | hremoved
    · exact h.removed r hold j t hslot
    · intro hcall
      exact hji (hnumbered.slot_unique hslot hremoved hcall)

theorem Accounted.addTransaction {s : CsSession} (h : s.Accounted) {k : ℕ} {c : CsCall}
    (hk : s.calls[k]? = some c) (hc : c.phase = .aquired) : (s.addTransaction k c).Accounted := by
  unfold CsSession.addTransaction
  split
  · exact h.enter k (by decide) (by decide)
  · rename_i hnone
    have hslot : ∀ i t, ((s.updateCall k (·.enter .added)).setSlot c.txnID
        (some ⟨k, c.txnID⟩)).txnDict i = some t → t.call = k ∨ s.txnDict i = some t := by
      intro i t hi
      by_cases hic : i = c.txnID
      · subst hic
        rw [setSlot_txnDict_self] at hi
        obtain rfl := Option.some.inj hi
        exact .inl rfl
      · rw [setSlot_txnDict_of_ne _ _ hic] at hi
        exact .inr hi
    refine ⟨fun j d hj hd => ?_, fun j d hj hd => ?_, fun r hr i t hi => ?_⟩
    · by_cases hjk : j = k
      · subst hjk
        obtain rfl := Option.some.inj ((getElem?_updateCall hk _).symm.trans hj)
        cases hd
      · exact h.aquired j d ((getElem?_updateCall_of_ne s hjk _).symm.trans hj) hd
    · by_cases hjk : j = k
      · exact .inl ⟨c.txnID, ⟨k, c.txnID⟩, setSlot_txnDict_self .., hjk.symm⟩
      · have hold := (getElem?_updateCall_of_ne s hjk _).symm.trans hj
        rcases h.added j d hold hd with ⟨i, t, hi, hcall⟩ | hremoved
        · have hic : i ≠ c.txnID := by
            rintro rfl
            rw [hnone] at hi
            cases hi
          exact .inl ⟨i, t, (setSlot_txnDict_of_ne _ _ hic).trans hi, hcall⟩
        · exact .inr hremoved
    · rcases hslot i t hi with hcall | hold
      · rw [hcall]
        exact (h.aquired k c hk hc r hr).symm
      · exact h.removed r hr i t hold

structure Tracked (s : CsSession) : Prop where
  numbered : s.Numbered
  unanswered : s.Unanswered
  accounted : s.Accounted

theorem tracked_init : Tracked init := ⟨numbered_init, unanswered_init, accounted_init⟩

theorem Tracked.enter {s : CsSession} (h : s.Tracked) (k : ℕ) {phase : CallPhase}
    (haquired : phase ≠ .aquired) (hadded : phase ≠ .added) :
    (s.updateCall k (·.enter phase)).Tracked :=
  ⟨h.numbered.enter k phase, h.unanswered.enter k haquired,
    h.accounted.enter k haquired hadded⟩

theorem Tracked.clearSlot {s : CsSession} (h : s.Tracked) (i : UInt8) :
    (s.clearSlot i).Tracked := by
  refine ⟨h.numbered.clearSlot i, h.unanswered.clearSlot h.numbered i, ?_⟩
  unfold CsSession.clearSlot
  split
  · rename_i t ht
    have hremoved := h.accounted.fetchAndRemove h.numbered h.unanswered i .clear
    have hset := hremoved.updateCall t.call fun c _ => phase_trySet c .canceled
    exact ⟨hset.aquired, hset.added, hset.removed⟩
  · exact h.accounted

theorem Tracked.clearTransactions {s : CsSession} (h : s.Tracked) : s.clearTransactions.Tracked :=
  List.foldlRecOn _ _ h fun _ hs i _ => hs.clearSlot i

theorem Accounted.readMessage {s : CsSession} (h : s.Accounted) (hnumbered : s.Numbered)
    (hunanswered : s.Unanswered) (msg : CsMessage) : (s.readMessage msg).Accounted := by
  unfold CsSession.readMessage
  split
  · have hremoved := h.fetchAndRemove hnumbered hunanswered msg.txn (.response msg.txn)
    exact ⟨hremoved.aquired, hremoved.added, hremoved.removed⟩
  · exact h

theorem Tracked.step {s s' : CsSession} {e : CsEvent} (h : s.Tracked)
    (hstep : step s e = some s') : s'.Tracked := by
  refine ⟨h.numbered.step hstep, h.unanswered.step h.numbered hstep, ?_⟩
  cases stepped_of_step hstep with
  | aquire => exact h.accounted.aquire h.numbered
  | addTransaction hcall hphase => exact h.accounted.addTransaction hcall hphase
  | writeMessage _ _ throws hnext =>
    apply h.accounted.enter
    · rw [hnext]
      split <;> decide
    · rw [hnext]
      split <;> decide
  | timeout | complete => exact h.accounted.enter _ (by decide) (by decide)
  | @timeoutRemove k =>
    have hfinished := @Tracked.enter s h k .finished (by decide) (by decide)
    exact hfinished.accounted.fetchAndRemove hfinished.numbered hfinished.unanswered _ _
  | readMessage msg => exact h.accounted.readMessage h.numbered h.unanswered msg
  | @setResponse t msg =>
    have hset := h.accounted.updateCall t.call fun c _ => phase_trySet c (.set msg)
    exact ⟨hset.aquired, hset.added, hset.removed⟩
  | clearTransactions => exact h.clearTransactions.accounted

theorem Tracked.invokeStep {s s' : CsSession} {e : InvokeEvent} (h : s.Tracked)
    (hstep : s.invokeStep e = some s') : s'.Tracked := by
  cases e with
  | session e => exact h.step hstep
  | serializationError k =>
    obtain ⟨c, -, rfl⟩ := Option.map_eq_some_iff.mp hstep
    exact h.enter k (by decide) (by decide)

/-- A call that has its number only has no transaction in the table. -/
theorem Unanswered.ne_of_aquired {s : CsSession} (h : s.Unanswered) {k : ℕ} {c : CsCall}
    (hk : s.calls[k]? = some c) (hc : c.phase = .aquired) {i : UInt8} {t : Transaction}
    (hi : s.txnDict i = some t) : t.call ≠ k := by
  rintro rfl
  obtain ⟨c', hc', hphase, -⟩ := h.slots i t hi
  obtain rfl := Option.some.inj (hk.symm.trans hc')
  exact hphase hc

theorem leavesNoTrace_of_txnDict_eq {s s' : CsSession} {k : ℕ} (hdict : s'.txnDict = s.txnDict)
    (hgone : ∀ i t, s.txnDict i = some t → t.call ≠ k) : LeavesNoTrace s s' k := by
  refine ⟨fun i t _ => ?_, fun i t hi => ?_⟩
  · rw [hdict]
  · rw [hdict] at hi
    exact hgone i t hi

/-- A transaction whose `WriteMessage` threw is in the table unless its removal is recorded. -/
theorem Tracked.leavesNoTrace_write_iff {s s' : CsSession} (h : s.Tracked) {k : ℕ} {c : CsCall}
    (hk : s.calls[k]? = some c) (hc : c.phase = .added) (hdict : s'.txnDict = s.txnDict) :
    LeavesNoTrace s s' k ↔ ∃ r ∈ s.removed, r.transaction.call = k := by
  constructor
  · intro hclean
    rcases h.accounted.added k c hk hc with ⟨i, t, hi, hcall⟩ | hremoved
    · exact absurd hcall (hclean.gone i t (by rw [hdict, hi]))
    · exact hremoved
  · rintro ⟨r, hr, rfl⟩
    exact leavesNoTrace_of_txnDict_eq hdict fun i t hi => h.accounted.removed r hr i t hi

/-- The removal after a timeout takes what is in the slot of the number. -/
theorem Tracked.leavesNoTrace_timeout_iff {s : CsSession} (h : s.Tracked) {k : ℕ} {c : CsCall}
    (hk : s.calls[k]? = some c) :
    LeavesNoTrace s ((s.updateCall k (·.enter .finished)).fetchAndRemoveTransaction c.txnID
        (.timeout k)) k ↔ ∀ t, s.txnDict c.txnID = some t → t.call = k := by
  have hself : ((s.updateCall k (·.enter .finished)).fetchAndRemoveTransaction c.txnID
      (.timeout k)).txnDict c.txnID = none := setSlot_txnDict_self ..
  have hother : ∀ i, i ≠ c.txnID → ((s.updateCall k (·.enter .finished)).fetchAndRemoveTransaction
      c.txnID (.timeout k)).txnDict i = s.txnDict i := fun i hi => setSlot_txnDict_of_ne _ _ hi
  constructor
  · intro hclean t ht
    by_contra hcall
    rw [(hclean.others c.txnID t hcall).mpr ht] at hself
    cases hself
  · intro hown
    refine ⟨fun i t hcall => ?_, fun i t hi => ?_⟩
    · by_cases hi : i = c.txnID
      · subst hi
        rw [hself]
        exact iff_of_false (fun hnone => nomatch hnone) fun ht => hcall (hown t ht)
      · rw [hother i hi]
    · by_cases hic : i = c.txnID
      · subst hic
        rw [hself] at hi
        cases hi
      · rw [hother i hic] at hi
        rintro rfl
        obtain ⟨htxn, hnum⟩ := h.numbered.slots i t hi
        rw [← htxn, hnum.txnID_eq, h.numbered.txnID_eq _ c hk] at hic
        exact hic rfl

theorem Tracked.leavesNoTrace_step_iff {s s' : CsSession} (h : s.Tracked) {e : InvokeEvent}
    (hstep : s.invokeStep e = some s') {k : ℕ} (hfailed : s.failedCall e = some k) :
    LeavesNoTrace s s' k ↔ s.CleansUp e := by
  cases e with
  | serializationError j =>
    obtain rfl := Option.some.inj hfailed
    obtain ⟨c, hc, rfl⟩ := Option.map_eq_some_iff.mp hstep
    obtain ⟨hcall, hphase⟩ := callIn_eq_some hc
    refine iff_of_true ?_ trivial
    exact leavesNoTrace_of_txnDict_eq rfl fun i t hi =>
      h.unanswered.ne_of_aquired hcall hphase hi
  | session e =>
    cases stepped_of_step hstep with
    | @addTransaction j c hcall hphase =>
      obtain ⟨c', hc', hslot⟩ := Option.bind_eq_some_iff.mp hfailed
      obtain ⟨t, ht, rfl⟩ := Option.map_eq_some_iff.mp hslot
      obtain rfl := Option.some.inj (hcall.symm.trans (callIn_eq_some hc').1)
      refine iff_of_true ?_ trivial
      have htaken : s.addTransaction j c = s.updateCall j (·.enter .finished) := by
        rw [CsSession.addTransaction, ht]
      rw [htaken]
      exact leavesNoTrace_of_txnDict_eq rfl fun i t hi =>
        h.unanswered.ne_of_aquired hcall hphase hi
    | @writeMessage j c phase hcall hphase throws hnext =>
      cases throws with
      | false => cases hfailed
      | true =>
        obtain rfl := Option.some.inj hfailed
        exact h.leavesNoTrace_write_iff hcall hphase rfl
    | @timeoutRemove j c hcall hphase =>
      obtain rfl := Option.some.inj hfailed
      rw [h.leavesNoTrace_timeout_iff hcall]
      constructor
      · intro hown c' t hc' ht
        obtain rfl := Option.some.inj (hcall.symm.trans hc')
        exact hown t ht
      · intro hown t ht
        exact hown c t hcall ht
    | aquire | timeout | complete | readMessage | setResponse | clearTransactions => cases hfailed

/-- In every reachable state a call that ends with an exception leaves no trace in the table exactly
if, after a throwing `WriteMessage`, its transaction had been removed already, and after a timeout,
the slot of its number is not in use for another call. -/
theorem leavesNoTrace_iff {es : List InvokeEvent} {s s' : CsSession} {e : InvokeEvent} {k : ℕ}
    (hrun : run invokeStep init es = some s) (hstep : s.invokeStep e = some s')
    (hfailed : s.failedCall e = some k) : LeavesNoTrace s s' k ↔ s.CleansUp e := by
  have htracked : s.Tracked := run_invariant (fun _ _ _ h hstep => h.invokeStep hstep)
    tracked_init hrun
  exact htracked.leavesNoTrace_step_iff hstep hfailed

/-- Within one lap of the counter a timeout always cleans up. -/
theorem Tracked.cleansUp_timeoutRemove {s : CsSession} (h : s.Tracked)
    (hcalls : s.calls.length ≤ 255) (k : ℕ) : s.CleansUp (.session (.timeoutRemove k)) := by
  intro c t hk ht
  obtain ⟨htxn, hnum⟩ := h.numbered.slots c.txnID t ht
  have hlt : k < s.calls.length := (List.getElem?_eq_some_iff.mp hk).1
  apply txnIDOf_injective (by have := hnum.call_lt; omega) (by omega)
  rw [← hnum.txnID_eq, htxn, h.numbered.txnID_eq k c hk]

/-- A timeout, and a call whose response came before its `WriteMessage` threw. -/
theorem leavesNoTrace_timeout :
    (∃ s s', run invokeStep init [.session .aquire, .session (.addTransaction 0),
          .session (.writeMessage 0 false), .session (.timeout 0)] = some s ∧
        s.invokeStep (.session (.timeoutRemove 0)) = some s' ∧ LeavesNoTrace s s' 0) ∧
      ∃ s s', run invokeStep init [.session .aquire, .session (.addTransaction 0),
          .session (.readMessage ⟨1, 7, true, []⟩)] = some s ∧
        s.invokeStep (.session (.writeMessage 0 true)) = some s' ∧ LeavesNoTrace s s' 0 := by
  constructor
  · refine ⟨_, _, rfl, rfl, ?_⟩
    apply (@leavesNoTrace_iff [.session .aquire, .session (.addTransaction 0),
      .session (.writeMessage 0 false), .session (.timeout 0)] _ _
      (.session (.timeoutRemove 0)) 0 rfl rfl rfl).mpr
    rintro c t hc ht
    obtain rfl := Option.some.inj hc
    obtain rfl := Option.some.inj ht
    rfl
  · refine ⟨_, _, rfl, rfl, ?_⟩
    apply (@leavesNoTrace_iff [.session .aquire, .session (.addTransaction 0),
      .session (.readMessage ⟨1, 7, true, []⟩)] _ _ (.session (.writeMessage 0 true)) 0
      rfl rfl rfl).mpr
    exact ⟨⟨⟨0, 1⟩, .response 1⟩, List.mem_singleton_self _, rfl⟩

/-- The slot of a call whose `WriteMessage` throws stays taken. -/
theorem not_leavesNoTrace_write :
    ∃ s s', run invokeStep init [.session .aquire, .session (.addTransaction 0)] = some s ∧
      s.invokeStep (.session (.writeMessage 0 true)) = some s' ∧
      s.failedCall (.session (.writeMessage 0 true)) = some 0 ∧
      s'.txnDict 1 = some ⟨0, 1⟩ ∧ ¬ LeavesNoTrace s s' 0 := by
  refine ⟨_, _, rfl, rfl, rfl, rfl, fun h => ?_⟩
  exact h.gone 1 ⟨0, 1⟩ rfl rfl

end CsSession

end CompostRpc
