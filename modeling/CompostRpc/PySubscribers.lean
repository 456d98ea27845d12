import CompostRpc.PySession
import Mathlib.Data.List.Nodup
import Mathlib.Data.List.Perm.Basic

/-!
# The subscribers of a Python notification

The listener goes through the list of subscribers with an iterator that knows its place only. The
list can change meanwhile: a subscriber can take back subscriptions, its own for instance, and so
can other threads. Each subscription then gets its call once at most, in the order of the list, but
one is skipped where one whose turn is over is taken back.
-/

namespace CompostRpc
open TransitionRun

structure PySubscriber where
  callback : ℕ
  serial : ℕ
  deriving DecidableEq

/-- The loop over `call.subscribers`: the list, the place of its iterator, the calls made and
whether one of them raised. All subscriptions are kept, and of those that are not called the skipped
and the ones that were taken back before their turn. `left` were taken back after their turn. -/
structure PyDispatch where
  subscribers : List PySubscriber
  index : ℕ
  called : List (PySubscriber × List PyVal)
  raised : Bool
  all : List PySubscriber
  skipped : List PySubscriber
  dropped : List PySubscriber
  left : List PySubscriber

inductive PyDispatchEvent
  | subscribe (callback : ℕ)
  | unsubscribe (callback : ℕ)
  | next (raises : Bool)

namespace PyDispatch

def start (callbacks : List ℕ) : PyDispatch :=
  let subscribers := callbacks.zipIdx.map fun c => ⟨c.1, c.2⟩
  ⟨subscribers, 0, [], false, subscribers, [], [], []⟩

def rest (s : PyDispatch) : List PySubscriber := s.subscribers.drop s.index

def subscribe (s : PyDispatch) (callback : ℕ) : PyDispatch :=
  let sub : PySubscriber := ⟨callback, s.all.length⟩
  { s with
    subscribers := s.subscribers ++ [sub]
    all := s.all ++ [sub]
    skipped := s.skipped ++ if s.subscribers.length < s.index then [sub] else [] }

def removePassed (s : PyDispatch) (place : ℕ) : PyDispatch :=
  { s with
    subscribers := s.subscribers.eraseIdx place
    skipped := s.skipped ++ s.rest.head?.toList
    left := s.left ++ s.subscribers[place]?.toList }

def removeNext (s : PyDispatch) (place : ℕ) : PyDispatch :=
  { s with
    subscribers := s.subscribers.eraseIdx place
    dropped := s.dropped ++ s.subscribers[place]?.toList }

def remove (s : PyDispatch) (place : ℕ) : PyDispatch :=
  if place < s.index then s.removePassed place else s.removeNext place

variable (reqTypes : Members) (payload : List UInt8)

/-- The iterator gives the next subscriber, which is called with what the payload unpacks to. -/
def callNext (s : PyDispatch) (sub : PySubscriber) (raises : Bool) : PyDispatch :=
  match unpackPayload reqTypes payload with
  | .error _ => { s with raised := true }
  | .ok args =>
    { s with index := s.index + 1, called := s.called ++ [(sub, args)], raised := raises }

/-- `Rpc.unsubscribe` raises a `ValueError` for a callback that is not there. -/
def step (s : PyDispatch) : PyDispatchEvent → Option PyDispatch
  | .subscribe callback => some (s.subscribe callback)
  | .unsubscribe callback =>
    (s.subscribers.findIdx? fun sub => sub.callback = callback).map s.remove
  | .next raises =>
    if s.raised then none
    else s.subscribers[s.index]?.map fun sub => s.callNext reqTypes payload sub raises

def isDone (s : PyDispatch) : Bool := s.subscribers.length ≤ s.index && !s.raised

def calledSubscribers (s : PyDispatch) : List PySubscriber := s.called.map Prod.fst

/-- The list is cut at the iterator, which is behind the end by as many as were taken back after
their turn when nobody was next. All subscriptions are called, skipped, taken back before their
turn, or have their turn to come. -/
structure Accounted (s : PyDispatch) (passed rest : List PySubscriber) (behind : ℕ) : Prop where
  subscribers : s.subscribers = passed ++ rest
  index : s.index = passed.length + behind
  end_or_next : behind = 0 ∨ rest = []
  serials : s.all.map PySubscriber.serial = List.range s.all.length
  all : (s.calledSubscribers ++ s.skipped ++ s.dropped ++ rest).Perm s.all
  order : (s.calledSubscribers ++ rest).Sublist s.all
  iterated : (s.calledSubscribers ++ s.skipped).Perm (passed ++ s.left)
  count : s.left.length = s.skipped.length + behind

theorem accounted_start (callbacks : List ℕ) :
    (start callbacks).Accounted [] (start callbacks).subscribers 0 where
  subscribers := rfl
  index := rfl
  end_or_next := .inl rfl
  serials := by
    simp only [start, List.map_map, List.length_map, List.length_zipIdx]
    exact (List.zipIdx_map_snd 0 callbacks).trans List.range_eq_range'.symm
  all := .refl _
  order := .refl _
  iterated := .refl _
  count := rfl

variable {s : PyDispatch} {passed rest : List PySubscriber} {behind : ℕ}

theorem Accounted.nodup (h : s.Accounted passed rest behind) : s.all.Nodup :=
  List.Nodup.of_map PySubscriber.serial (h.serials ▸ List.nodup_range)

theorem Accounted.rest_eq (h : s.Accounted passed rest behind) : s.rest = rest := by
  rw [PyDispatch.rest, h.subscribers, h.index]
  rcases h.end_or_next with rfl | rfl
  · exact List.drop_left
  · rw [List.append_nil]
    exact List.drop_eq_nil_of_le (Nat.le_add_right _ _)

theorem serials_subscribe (h : s.all.map PySubscriber.serial = List.range s.all.length)
    (callback : ℕ) : (s.subscribe callback).all.map PySubscriber.serial =
      List.range (s.subscribe callback).all.length := by
  simp only [PyDispatch.subscribe, List.map_append, h, List.length_append, List.length_singleton,
    List.range_succ]
  rfl

theorem Accounted.subscribe (h : s.Accounted passed rest behind) (callback : ℕ) :
    ∃ passed rest behind, (s.subscribe callback).Accounted passed rest behind := by
  have hserials := serials_subscribe h.serials callback
  have hall := h.all
  have hover := h.iterated
  have hcount := h.count
  have hlength : s.subscribers.length = passed.length + rest.length := by
    rw [h.subscribers, List.length_append]
  generalize hsub : (⟨callback, s.all.length⟩ : PySubscriber) = sub
  have hsubscribers : (s.subscribe callback).subscribers = passed ++ rest ++ [sub] := by
    rw [← hsub, ← h.subscribers]
    rfl
  cases behind with
  | zero =>
    -- the new one is behind the iterator, and has its turn to come
    have hskipped : (s.subscribe callback).skipped = s.skipped := by
      have hnot : ¬ s.subscribers.length < s.index := by
        rw [h.index]
        omega
      exact (congrArg (s.skipped ++ ·) (if_neg hnot)).trans (List.append_nil _)
    refine ⟨passed, rest ++ [sub], 0, ?_, h.index, .inl rfl, hserials, ?_, ?_, ?_, ?_⟩
    · rw [hsubscribers, List.append_assoc]
    · rw [hskipped, ← List.append_assoc]
      exact hsub ▸ hall.append_right _
    · rw [← List.append_assoc]
      exact hsub ▸ h.order.append (.refl _)
    · rw [hskipped]
      exact hover
    · rw [hskipped]
      exact hcount
  | succ behind =>
    -- the iterator is behind the end, and the new one is skipped
    obtain rfl := h.end_or_next.resolve_left (Nat.succ_ne_zero _)
    have hskipped : (s.subscribe callback).skipped = s.skipped ++ [sub] := by
      have hbehind : s.subscribers.length < s.index := by
        rw [h.index, hlength, List.length_nil]
        omega
      rw [← hsub]
      exact congrArg (s.skipped ++ ·) (if_pos hbehind)
    refine ⟨passed ++ [sub], [], behind, ?_, ?_, .inr rfl, hserials, ?_, ?_, ?_, ?_⟩
    · rw [hsubscribers, List.append_nil, List.append_nil]
    · rw [List.length_append, List.length_singleton]
      exact h.index.trans (by omega)
    · rw [hskipped]
      refine List.perm_iff_count.mpr fun x => ?_
      have hx := hall.count_eq x
      change (s.calledSubscribers ++ _ ++ s.dropped ++ _).count x = (s.all ++ [_]).count x
      rw [hsub]
      simp only [List.count_append] at hx ⊢
      omega
    · exact h.order.trans (List.sublist_append_left _ _)
    · rw [hskipped]
      refine List.perm_iff_count.mpr fun x => ?_
      have hx := hover.count_eq x
      change (s.calledSubscribers ++ _).count x = (_ ++ s.left).count x
      simp only [List.count_append] at hx ⊢
      omega
    · rw [hskipped, List.length_append, List.length_singleton]
      exact hcount.trans (by omega)

theorem perm_eraseIdx {xs : List PySubscriber} {place : ℕ} (h : place < xs.length) :
    xs.Perm (xs.eraseIdx place ++ [xs[place]]) :=
  (List.getElem_cons_eraseIdx_perm h).symm.trans (List.perm_append_singleton _ _).symm

/-- One whose turn is over is taken back. -/
theorem Accounted.removePassed (h : s.Accounted passed rest behind) {place : ℕ}
    (hplace : place < passed.length) :
    ∃ passed rest behind, (s.removePassed place).Accounted passed rest behind := by
  have hcount := h.count
  have hperm := perm_eraseIdx hplace
  have hlength := List.length_eraseIdx_add_one hplace
  have herase : s.subscribers.eraseIdx place = passed.eraseIdx place ++ rest := by
    rw [h.subscribers, List.eraseIdx_append_of_lt_length hplace]
  have hskipped : (s.removePassed place).skipped = s.skipped ++ rest.head?.toList := by
    rw [PyDispatch.removePassed, h.rest_eq]
  have hleft : (s.removePassed place).left = s.left ++ [passed[place]] := by
    rw [PyDispatch.removePassed, h.subscribers, List.getElem?_append_left hplace,
      List.getElem?_eq_getElem hplace, Option.toList_some]
  have hover : ∀ x, (s.calledSubscribers ++ s.skipped).count x =
      (passed.eraseIdx place ++ (s.left ++ [passed[place]])).count x := by
    intro x
    have hx := h.iterated.count_eq x
    have hpassed := hperm.count_eq x
    simp only [List.count_append] at hx hpassed ⊢
    omega
  cases rest with
  | nil =>
    rw [List.head?_nil, Option.toList_none, List.append_nil] at hskipped
    refine ⟨passed.eraseIdx place, [], behind + 1, herase, ?_, .inr rfl, h.serials, ?_, h.order,
      ?_, ?_⟩
    · exact h.index.trans (by omega)
    · rw [hskipped]
      exact h.all
    · rw [hskipped, hleft]
      exact List.perm_iff_count.mpr hover
    · rw [hskipped, hleft, List.length_append, List.length_singleton]
      omega
  | cons next rest =>
    obtain rfl := h.end_or_next.resolve_right (List.cons_ne_nil _ _)
    rw [List.head?_cons, Option.toList_some] at hskipped
    refine ⟨passed.eraseIdx place ++ [next], rest, 0, ?_, ?_, .inl rfl, h.serials, ?_, ?_, ?_, ?_⟩
    · rw [List.append_assoc]
      exact herase
    · rw [List.length_append, List.length_singleton]
      exact h.index.trans (by omega)
    · rw [hskipped]
      refine List.perm_iff_count.mpr fun x => ?_
      have hx := h.all.count_eq x
      change (s.calledSubscribers ++ _ ++ s.dropped ++ rest).count x = s.all.count x
      simp only [List.count_append, List.count_cons, List.count_nil] at hx ⊢
      omega
    · refine List.Sublist.trans ?_ h.order
      exact List.Sublist.append (.refl _) (List.sublist_cons_self next rest)
    · rw [hskipped, hleft]
      refine List.perm_iff_count.mpr fun x => ?_
      have hx := hover x
      change (s.calledSubscribers ++ _).count x = _
      simp only [List.count_append] at hx ⊢
      omega
    · rw [hskipped, hleft, List.length_append, List.length_append, List.length_singleton,
        List.length_singleton]
      omega

/-- One whose turn has not come is taken back. -/
theorem Accounted.removeNext (h : s.Accounted passed rest behind) {place : ℕ}
    (hpassed : passed.length ≤ place) (hplace : place < s.subscribers.length) :
    ∃ passed rest behind, (s.removeNext place).Accounted passed rest behind := by
  rw [h.subscribers, List.length_append] at hplace
  have hlt : place - passed.length < rest.length := by omega
  have hperm := perm_eraseIdx hlt
  have hdropped : (s.removeNext place).dropped = s.dropped ++ [rest[place - passed.length]] := by
    rw [PyDispatch.removeNext, h.subscribers, List.getElem?_append_right hpassed,
      List.getElem?_eq_getElem hlt, Option.toList_some]
  obtain rfl := h.end_or_next.resolve_right (List.ne_nil_of_length_pos (by omega))
  refine ⟨passed, rest.eraseIdx (place - passed.length), 0, ?_, h.index, .inl rfl, h.serials, ?_,
    ?_, h.iterated, h.count⟩
  · change s.subscribers.eraseIdx place = _
    rw [h.subscribers, List.eraseIdx_append_of_length_le hpassed]
  · rw [hdropped]
    refine List.perm_iff_count.mpr fun x => ?_
    have hx := h.all.count_eq x
    have hrest := hperm.count_eq x
    change (s.calledSubscribers ++ s.skipped ++ _ ++ _).count x = s.all.count x
    simp only [List.count_append] at hx hrest ⊢
    omega
  · refine List.Sublist.trans ?_ h.order
    exact List.Sublist.append (.refl _) (List.eraseIdx_sublist rest _)

theorem Accounted.remove (h : s.Accounted passed rest behind) {place : ℕ}
    (hplace : place < s.subscribers.length) :
    ∃ passed rest behind, (s.remove place).Accounted passed rest behind := by
  have hlength : s.subscribers.length = passed.length + rest.length := by
    rw [h.subscribers, List.length_append]
  rw [PyDispatch.remove]
  split_ifs with hindex
  · refine h.removePassed ?_
    rcases h.end_or_next with rfl | rfl
    · exact hindex.trans_eq h.index
    · exact hplace.trans_eq hlength
  · refine h.removeNext ?_ hplace
    have hlower := h.index
    omega

/-- The next one is called. -/
theorem Accounted.callNext (h : s.Accounted passed rest behind) {sub : PySubscriber}
    (hsub : s.subscribers[s.index]? = some sub) (reqTypes : Members) (payload : List UInt8)
    (raises : Bool) :
    ∃ passed rest behind,
      (s.callNext reqTypes payload sub raises).Accounted passed rest behind := by
  rw [PyDispatch.callNext]
  cases unpackPayload reqTypes payload with
  | error e =>
    exact ⟨passed, rest, behind, h.subscribers, h.index, h.end_or_next, h.serials, h.all, h.order,
      h.iterated, h.count⟩
  | ok args =>
    obtain ⟨hindex, -⟩ := List.getElem?_eq_some_iff.mp hsub
    rw [h.subscribers, h.index] at hsub
    cases rest with
    | nil =>
      rw [h.subscribers, List.append_nil, h.index] at hindex
      omega
    | cons next rest =>
      obtain rfl := h.end_or_next.resolve_right (List.cons_ne_nil _ _)
      rw [Nat.add_zero, List.getElem?_append_right le_rfl, Nat.sub_self] at hsub
      obtain rfl := Option.some.inj hsub
      have hcalled : (s.called ++ [(next, args)]).map Prod.fst = s.calledSubscribers ++ [next] :=
        List.map_append
      refine ⟨passed ++ [next], rest, 0, ?_, ?_, .inl rfl, h.serials, ?_, ?_, ?_, h.count⟩
      · rw [List.append_assoc]
        exact h.subscribers
      · rw [List.length_append, List.length_singleton]
        exact congrArg (· + 1) h.index
      · refine List.perm_iff_count.mpr fun x => ?_
        have hx := h.all.count_eq x
        change ((s.called ++ [_]).map Prod.fst ++ s.skipped ++ s.dropped ++ rest).count x =
          s.all.count x
        rw [hcalled]
        simp only [List.count_append, List.count_cons, List.count_nil] at hx ⊢
        omega
      · change ((s.called ++ [_]).map Prod.fst ++ rest).Sublist s.all
        rw [hcalled, List.append_assoc]
        exact h.order
      · refine List.perm_iff_count.mpr fun x => ?_
        have hx := h.iterated.count_eq x
        change ((s.called ++ [_]).map Prod.fst ++ s.skipped).count x = _
        rw [hcalled]
        simp only [List.count_append] at hx ⊢
        omega

variable {reqTypes : Members} {payload : List UInt8}

def Unpacks (reqTypes : Members) (payload : List UInt8) (s : PyDispatch) : Prop :=
  ∀ call ∈ s.called, unpackPayload reqTypes payload = .ok call.2

theorem Unpacks.callNext {s : PyDispatch} (h : s.Unpacks reqTypes payload) (sub : PySubscriber)
    (raises : Bool) : (s.callNext reqTypes payload sub raises).Unpacks reqTypes payload := by
  rw [PyDispatch.callNext]
  cases hunpack : unpackPayload reqTypes payload with
  | error e => exact h
  | ok args =>
    intro call hcall
    rcases List.mem_append.mp hcall with hcall | hcall
    · exact h call hcall
    · obtain rfl := List.mem_singleton.mp hcall
      exact hunpack

structure Dispatches (reqTypes : Members) (payload : List UInt8) (s : PyDispatch) : Prop where
  accounted : ∃ passed rest behind, s.Accounted passed rest behind
  unpacks : s.Unpacks reqTypes payload

theorem Dispatches.step {s s' : PyDispatch} (h : s.Dispatches reqTypes payload)
    {e : PyDispatchEvent} (hstep : s.step reqTypes payload e = some s') :
    s'.Dispatches reqTypes payload := by
  obtain ⟨passed, rest, behind, haccounted⟩ := h.accounted
  cases e with
  | subscribe callback =>
    obtain rfl := Option.some.inj hstep
    exact ⟨haccounted.subscribe callback, h.unpacks⟩
  | unsubscribe callback =>
    obtain ⟨place, hplace, rfl⟩ := Option.map_eq_some_iff.mp hstep
    obtain ⟨hlt, -⟩ := List.findIdx?_eq_some_iff_getElem.mp hplace
    refine ⟨haccounted.remove hlt, ?_⟩
    rw [PyDispatch.remove]
    split_ifs
    · exact h.unpacks
    · exact h.unpacks
  | next raises =>
    obtain ⟨-, hstep⟩ := Option.ite_none_left_eq_some.mp hstep
    obtain ⟨sub, hsub, rfl⟩ := Option.map_eq_some_iff.mp hstep
    exact ⟨haccounted.callNext hsub reqTypes payload raises, h.unpacks.callNext sub raises⟩

/-- When the iterator has nothing left, each subscription that ever was is called once, skipped, or
was taken back before its turn; the calls are in the order of the subscriptions and have what the
payload unpacks to. Those that are left in the list and those taken back after their turn are called
or skipped, and no more are skipped than were taken back after their turn. -/
theorem called_or_skipped {callbacks : List ℕ} {es : List PyDispatchEvent} {s : PyDispatch}
    (hrun : run (PyDispatch.step reqTypes payload) (start callbacks) es = some s)
    (hdone : s.isDone = true) :
    (s.calledSubscribers ++ s.skipped ++ s.dropped).Perm s.all ∧ s.all.Nodup ∧
      s.calledSubscribers.Sublist s.all ∧
      (s.calledSubscribers ++ s.skipped).Perm (s.subscribers ++ s.left) ∧
      s.skipped.length ≤ s.left.length ∧
      ∀ call ∈ s.called, unpackPayload reqTypes payload = .ok call.2 := by
  have hstart : (start callbacks).Dispatches reqTypes payload :=
    ⟨⟨_, _, _, accounted_start callbacks⟩, nofun⟩
  have hend := run_invariant (fun _ _ _ hinv hstep => hinv.step hstep) hstart hrun
  obtain ⟨passed, rest, behind, h⟩ := hend.accounted
  rw [isDone, Bool.and_eq_true, decide_eq_true_eq, h.subscribers, h.index, List.length_append]
    at hdone
  have hrest : rest = [] := by
    rcases h.end_or_next with rfl | hnil
    · exact List.length_eq_zero_iff.mp (by omega)
    · exact hnil
  have hall := h.all
  have horder := h.order
  have hsubscribers := h.subscribers
  rw [hrest, List.append_nil] at hall horder hsubscribers
  refine ⟨hall, h.nodup, horder, hsubscribers ▸ h.iterated, ?_, hend.unpacks⟩
  rw [h.count]
  exact Nat.le_add_right _ _

def ownUnsubscription : List PyDispatchEvent := [.next false, .unsubscribe 7, .next false]

theorem called_or_skipped_ownUnsubscription :
    ∃ s, run (PyDispatch.step .nil []) (start [7, 8, 9]) ownUnsubscription = some s ∧
      s.calledSubscribers = [⟨7, 0⟩, ⟨9, 2⟩] ∧ s.skipped = [⟨8, 1⟩] ∧
        (s.calledSubscribers ++ s.skipped ++ s.dropped).Perm s.all := by
  have hresult : (run (PyDispatch.step .nil []) (start [7, 8, 9]) ownUnsubscription).map
      (fun s => (s.calledSubscribers, s.skipped, s.isDone)) =
        some ([⟨7, 0⟩, ⟨9, 2⟩], [⟨8, 1⟩], true) := by decide +kernel
  obtain ⟨s, hrun, hvalues⟩ := Option.map_eq_some_iff.mp hresult
  obtain ⟨hcalled, hskipped, hdone⟩ : _ ∧ _ ∧ _ := by
    simpa only [Prod.mk.injEq] using hvalues
  exact ⟨s, hrun, hcalled, hskipped, (called_or_skipped hrun hdone).1⟩

end PyDispatch

end CompostRpc
