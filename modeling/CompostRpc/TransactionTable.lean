import CompostRpc.CsSession

/-!
# Ownership of the table of transactions

The number of a call is determined by how many calls were made before it, counted in a byte. From
this it follows which transactions the slots hold and which ones were removed, and that the table
is owned properly exactly as long as the numbers have not wrapped.
-/

namespace CompostRpc
open TransitionRun

namespace CsSession

/-- A removal by a response to the transaction, by its own timeout, or by clearing the table. -/
def Allowed (r : Removal) : Prop :=
  match r.cause with
  | .response txn => txn = r.transaction.txnID
  | .timeout call => call = r.transaction.call
  | .clear => True

structure Owned (s : CsSession) : Prop where
  slot_txnID : ∀ i t, s.txnDict i = some t → t.txnID = i
  txnID_ne_zero : ∀ c ∈ s.calls, c.txnID ≠ 0
  pending_unique : ∀ i j t t', s.txnDict i = some t → s.txnDict j = some t' →
    t.txnID = t'.txnID → t = t'
  removed_allowed : ∀ r ∈ s.removed, Allowed r

def txnIDOf (k : ℕ) : UInt8 := UInt8.ofNat (k + 1)

theorem nextCounter_txnIDOf (k : ℕ) : nextCounter (txnIDOf k) = txnIDOf (k + 1) := by
  apply UInt8.toNat_inj.mp
  simp [nextCounter, txnIDOf]

/-- The first 256 calls have different numbers. -/
theorem txnIDOf_injective {k k' : ℕ} (hk : k < 256) (hk' : k' < 256) (h : txnIDOf k = txnIDOf k') :
    k = k' := by
  have h256 := congrArg UInt8.toNat h
  simp only [txnIDOf, UInt8.toNat_ofNat'] at h256
  omega

theorem txnIDOf_eq_zero_iff {k : ℕ} : txnIDOf k = 0 ↔ (k + 1) % 256 = 0 := by
  rw [← UInt8.toNat_inj, txnIDOf, UInt8.toNat_ofNat', UInt8.toNat_zero]

theorem txnIDOf_ne_zero {k : ℕ} (hk : k < 255) : txnIDOf k ≠ 0 := by
  rw [Ne, txnIDOf_eq_zero_iff]
  omega

structure Numbers (calls : ℕ) (t : Transaction) : Prop where
  call_lt : t.call < calls
  txnID_eq : t.txnID = txnIDOf t.call

theorem Numbers.mono {n m : ℕ} {t : Transaction} (h : Numbers n t) (hnm : n ≤ m) : Numbers m t :=
  ⟨Nat.lt_of_lt_of_le h.call_lt hnm, h.txnID_eq⟩

def CauseNumbered (calls : ℕ) (cause : RemovalCause) (t : Transaction) : Prop :=
  match cause with
  | .response txn => txn = t.txnID
  | .timeout call => call < calls ∧ txnIDOf call = t.txnID
  | .clear => True

theorem CauseNumbered.mono {n m : ℕ} {cause : RemovalCause} {t : Transaction}
    (h : CauseNumbered n cause t) (hnm : n ≤ m) : CauseNumbered m cause t := by
  cases cause with
  | response txn => exact h
  | timeout call => exact ⟨Nat.lt_of_lt_of_le h.1 hnm, h.2⟩
  | clear => trivial

structure Numbered (s : CsSession) : Prop where
  counter_eq : s.txnCounter = txnIDOf s.calls.length
  txnID_eq : ∀ k c, s.calls[k]? = some c → c.txnID = txnIDOf k
  slots : ∀ i t, s.txnDict i = some t → t.txnID = i ∧ Numbers s.calls.length t
  removed : ∀ r ∈ s.removed, Numbers s.calls.length r.transaction ∧
    CauseNumbered s.calls.length r.cause r.transaction

theorem numbered_init : Numbered init where
  counter_eq := rfl
  txnID_eq := by simp [init]
  slots := by simp [init]
  removed := by simp [init]

theorem txnID_trySet (c : CsCall) (response : Response) :
    (c.trySet response).txnID = c.txnID := by
  unfold CsCall.trySet
  split <;> rfl

theorem phase_trySet (c : CsCall) (response : Response) :
    (c.trySet response).phase = c.phase := by
  unfold CsCall.trySet
  split <;> rfl

theorem Numbered.aquire {s : CsSession} (h : s.Numbered) : s.aquireNextTxnId.Numbered := by
  have hle : s.calls.length ≤ s.aquireNextTxnId.calls.length := by simp [aquireNextTxnId]
  refine ⟨?_, fun k c hk => ?_, fun i t hi => ?_, fun r hr => ?_⟩
  · rw [aquireNextTxnId, List.length_append, List.length_singleton, h.counter_eq,
      nextCounter_txnIDOf]
  · rcases Nat.lt_trichotomy k s.calls.length with hlt | rfl | hgt
    · rw [aquireNextTxnId, List.getElem?_append_left hlt] at hk
      exact h.txnID_eq k c hk
    · rw [aquireNextTxnId, List.getElem?_concat_length] at hk
      obtain rfl := Option.some.inj hk
      exact h.counter_eq
    · rw [aquireNextTxnId, List.getElem?_eq_none (by simp; omega)] at hk
      cases hk
  · obtain ⟨htxn, hnum⟩ := h.slots i t hi
    exact ⟨htxn, hnum.mono hle⟩
  · obtain ⟨hnum, hcause⟩ := h.removed r hr
    exact ⟨hnum.mono hle, hcause.mono hle⟩

theorem Numbered.updateCall {s : CsSession} (h : s.Numbered) (k : ℕ) {f : CsCall → CsCall}
    (hf : ∀ c, (f c).txnID = c.txnID) : (s.updateCall k f).Numbered := by
  refine ⟨?_, fun j c hj => ?_, fun i t hi => ?_, fun r hr => ?_⟩
  · rw [updateCall_calls_length]
    exact h.counter_eq
  · simp only [CsSession.updateCall, List.getElem?_modify] at hj
    obtain ⟨c', hc', rfl⟩ := Option.map_eq_some_iff.mp hj
    have hid := h.txnID_eq j c' hc'
    split
    · rw [hf, hid]
    · exact hid
  · rw [updateCall_calls_length]
    exact h.slots i t hi
  · rw [updateCall_calls_length]
    exact h.removed r hr

theorem Numbered.enter {s : CsSession} (h : s.Numbered) (k : ℕ) (phase : CallPhase) :
    (s.updateCall k (·.enter phase)).Numbered := h.updateCall k fun _ => rfl

theorem Numbered.setSlot {s : CsSession} (h : s.Numbered) (i : UInt8) {slot : Option Transaction}
    (hslot : ∀ t ∈ slot, t.txnID = i ∧ Numbers s.calls.length t) : (s.setSlot i slot).Numbered := by
  refine ⟨h.counter_eq, h.txnID_eq, fun j t hj => ?_, h.removed⟩
  by_cases hij : j = i
  · subst hij
    rw [setSlot_txnDict_self] at hj
    exact hslot t hj
  · rw [setSlot_txnDict_of_ne s slot hij] at hj
    exact h.slots j t hj

theorem Numbered.fetchAndRemove {s : CsSession} (h : s.Numbered) (i : UInt8)
    {cause : RemovalCause}
    (hcause : ∀ t, s.txnDict i = some t → CauseNumbered s.calls.length cause t) :
    (s.fetchAndRemoveTransaction i cause).Numbered := by
  have h' : (s.setSlot i none).Numbered := h.setSlot i (by simp)
  refine ⟨h'.counter_eq, h'.txnID_eq, h'.slots, fun r hr => ?_⟩
  rcases List.mem_append.mp hr with hold | hnew
  · exact h.removed r hold
  · obtain ⟨t, ht, rfl⟩ := List.mem_map.mp hnew
    have hslot : s.txnDict i = some t := Option.mem_toList.mp ht
    exact ⟨(h.slots i t hslot).2, hcause t hslot⟩

theorem Numbered.addTransaction {s : CsSession} (h : s.Numbered) {k : ℕ} {c : CsCall}
    (hk : s.calls[k]? = some c) : (s.addTransaction k c).Numbered := by
  unfold CsSession.addTransaction
  split
  · exact h.enter k .finished
  · refine (h.enter k .added).setSlot c.txnID fun t ht => ?_
    obtain rfl := Option.some.inj ht
    have hlt : k < s.calls.length := (List.getElem?_eq_some_iff.mp hk).1
    exact ⟨rfl, by rwa [updateCall_calls_length], h.txnID_eq k c hk⟩

theorem Numbered.readMessage {s : CsSession} (h : s.Numbered) (msg : CsMessage) :
    (s.readMessage msg).Numbered := by
  unfold CsSession.readMessage
  split
  · have h' : (s.fetchAndRemoveTransaction msg.txn (.response msg.txn)).Numbered :=
      h.fetchAndRemove msg.txn fun t ht => (h.slots msg.txn t ht).1.symm
    exact ⟨h'.counter_eq, h'.txnID_eq, h'.slots, h'.removed⟩
  · exact h

theorem Numbered.clearSlot {s : CsSession} (h : s.Numbered) (i : UInt8) :
    (s.clearSlot i).Numbered := by
  unfold CsSession.clearSlot
  split
  · rename_i t _
    exact (h.updateCall t.call (txnID_trySet · _)).fetchAndRemove i fun _ _ => trivial
  · exact h

theorem Numbered.clearTransactions {s : CsSession} (h : s.Numbered) :
    s.clearTransactions.Numbered :=
  List.foldlRecOn _ _ h fun _ hs i _ => hs.clearSlot i

theorem Numbered.step {s s' : CsSession} {e : CsEvent} (h : s.Numbered)
    (hstep : step s e = some s') : s'.Numbered := by
  cases stepped_of_step hstep with
  | aquire => exact h.aquire
  | addTransaction hcall => exact h.addTransaction hcall
  | writeMessage | timeout | complete => exact h.enter _ _
  | timeoutRemove hcall =>
    refine (h.enter _ .finished).fetchAndRemove _ fun t ht => ⟨?_, ?_⟩
    · rw [updateCall_calls_length]
      exact (List.getElem?_eq_some_iff.mp hcall).1
    · rw [(h.slots _ t ht).1, h.txnID_eq _ _ hcall]
  | readMessage msg => exact h.readMessage msg
  | @setResponse t msg =>
    have h' := h.updateCall t.call (txnID_trySet · (.set msg))
    exact ⟨h'.counter_eq, h'.txnID_eq, h'.slots, h'.removed⟩
  | clearTransactions => exact h.clearTransactions

theorem numbered_of_run {s : CsSession} {es : List CsEvent}
    (hrun : run CsSession.step init es = some s) : s.Numbered :=
  run_invariant (fun _ _ _ h hstep => h.step hstep) numbered_init hrun

def isAquire : CsEvent → Bool
  | .aquire => true
  | _ => false

theorem addTransaction_calls_length (s : CsSession) (k : ℕ) (c : CsCall) :
    (s.addTransaction k c).calls.length = s.calls.length := by
  unfold addTransaction
  split
  · exact updateCall_calls_length ..
  · exact updateCall_calls_length ..

theorem readMessage_calls (s : CsSession) (msg : CsMessage) :
    (s.readMessage msg).calls = s.calls := by
  unfold readMessage
  split <;> rfl

theorem clearTransactions_calls_length (s : CsSession) :
    s.clearTransactions.calls.length = s.calls.length := by
  refine List.foldlRecOn (motive := fun s' : CsSession => s'.calls.length = s.calls.length) _ _
    rfl fun s' hs' i _ => ?_
  rw [← hs', clearSlot]
  split
  · exact updateCall_calls_length ..
  · rfl

theorem calls_length_step {s s' : CsSession} {e : CsEvent} (hstep : step s e = some s') :
    s'.calls.length = s.calls.length + if isAquire e then 1 else 0 := by
  cases stepped_of_step hstep with
  | aquire => simp [aquireNextTxnId, isAquire]
  | addTransaction => exact addTransaction_calls_length s _ _
  | writeMessage | timeout | timeoutRemove | complete | setResponse =>
    exact updateCall_calls_length ..
  | readMessage msg =>
    rw [readMessage_calls]
    rfl
  | clearTransactions => exact clearTransactions_calls_length s

theorem calls_length_of_run {s s' : CsSession} {es : List CsEvent}
    (hrun : run step s es = some s') :
    s'.calls.length = s.calls.length + es.countP isAquire := by
  induction es generalizing s with
  | nil =>
    cases hrun
    rfl
  | cons e es ih =>
    obtain ⟨m, hm, hrest⟩ := run_cons.mp hrun
    rw [ih hrest, calls_length_step hm, List.countP_cons]
    omega

theorem Numbered.owned {s : CsSession} (h : s.Numbered) (hcalls : s.calls.length ≤ 255) :
    s.Owned := by
  refine ⟨fun i t hi => (h.slots i t hi).1, fun c hc => ?_, fun i j t t' hi hj htxn => ?_,
    fun r hr => ?_⟩
  · obtain ⟨k, hk⟩ := List.mem_iff_getElem?.mp hc
    have hlt : k < s.calls.length := (List.getElem?_eq_some_iff.mp hk).1
    rw [h.txnID_eq k c hk]
    exact txnIDOf_ne_zero (by omega)
  · have hij : i = j := (h.slots i t hi).1.symm.trans (htxn.trans (h.slots j t' hj).1)
    subst hij
    exact Option.some.inj (hi.symm.trans hj)
  · obtain ⟨hnum, hcause⟩ := h.removed r hr
    obtain ⟨t, cause⟩ := r
    cases cause with
    | response txn => exact hcause
    | timeout call =>
      have hlt := hnum.call_lt
      have hlt' := hcause.1
      exact txnIDOf_injective (by omega) (by omega) (hcause.2.trans hnum.txnID_eq)
    | clear => trivial

/-- The call that is made after 255 others gets the number zero. -/
theorem Numbered.not_owned {s : CsSession} (h : s.Numbered) (hcalls : 255 < s.calls.length) :
    ¬ s.Owned := by
  intro howned
  have hk : s.calls[255]? = some s.calls[255] := List.getElem?_eq_getElem hcalls
  exact howned.txnID_ne_zero _ (List.mem_of_getElem? hk) (h.txnID_eq 255 _ hk)

/-- In every run the table is owned properly if and only if at most 255 numbers were acquired. -/
theorem owned_iff_aquired_le {s : CsSession} {es : List CsEvent}
    (hrun : run step init es = some s) : s.Owned ↔ es.countP isAquire ≤ 255 := by
  have hnum := numbered_of_run hrun
  have hlen : s.calls.length = es.countP isAquire := by
    rw [calls_length_of_run hrun]
    simp [init]
  rw [← hlen]
  constructor
  · intro howned
    by_contra hcalls
    exact hnum.not_owned (by omega) howned
  · exact hnum.owned

def oneTimeout : List CsEvent :=
  [.aquire, .addTransaction 0, .writeMessage 0 false, .timeout 0, .timeoutRemove 0,
    .readMessage ⟨1, 7, true, []⟩]

theorem owned_oneTimeout :
    ∃ s, run step init oneTimeout = some s ∧ s.removed.length = 1 ∧ s.Owned :=
  ⟨_, rfl, rfl, (@owned_iff_aquired_le _ oneTimeout rfl).mpr (by decide)⟩

theorem run_aquires (n : ℕ) (s : CsSession) :
    ∃ s', run step s (List.replicate n .aquire) = some s' := by
  induction n generalizing s with
  | zero => exact ⟨s, rfl⟩
  | succ n ih =>
    obtain ⟨s', hrun⟩ := ih s.aquireNextTxnId
    exact ⟨s', run_cons.mpr ⟨_, rfl, hrun⟩⟩

/-- After 256 calls the number zero was issued. -/
theorem not_owned_lap :
    ¬ ∀ (es : List CsEvent) (s : CsSession), run step init es = some s → s.Owned := by
  intro h
  obtain ⟨s, hrun⟩ := run_aquires 256 init
  have hlen : s.calls.length = 256 := by
    rw [calls_length_of_run hrun, List.countP_replicate,
      if_pos (show isAquire .aquire = true from rfl)]
    rfl
  exact (numbered_of_run hrun).not_owned (by omega) (h _ s hrun)

end CsSession

end CompostRpc
