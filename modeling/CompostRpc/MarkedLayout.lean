import CompostRpc.BitLayout

/-!
# Layouts that disagree on the alignment of groups

A marked layout has marks at the start and at the end of every group of pieces. A reader or writer
honours some of the marks, and aligns there. `walk` follows a marked layout with one party that
honours every mark and one that honours only some: it fails at a bit field that the two would place
differently. If it succeeds, the layouts are the same at every position and for every content; if
it fails, they are not the same, since one of two contents tells them apart.
-/

namespace Piece
open ByteMemory

inductive Mark
  | opening | closing
  deriving DecidableEq

inductive Token
  | mark (k : Mark)
  | piece (p : Piece)

def honoured (honour : Mark → Bool) : List Token → List Piece
  | [] => []
  | .mark k :: ts => if honour k then bytes [] :: honoured honour ts else honoured honour ts
  | .piece p :: ts => p :: honoured honour ts

def allMarks : Mark → Bool := fun _ => true

theorem honoured_append (honour : Mark → Bool) (ts us : List Token) :
    honoured honour (ts ++ us) = honoured honour ts ++ honoured honour us := by
  induction ts with
  | nil => rfl
  | cons t ts ih =>
    cases t with
    | mark k =>
      simp only [List.cons_append, honoured, ih]
      split
      · rfl
      · rfl
    | piece p => exact congrArg (p :: ·) ih

theorem stop_mono (p : Piece) {o c : ℕ} (h : o ≤ c) : p.stop o ≤ p.stop c := by
  cases p with
  | bits width value => exact Nat.add_le_add_right h width
  | bytes data =>
    simp only [stop, alignUp]
    omega

/-- One who aligns at every mark ends last. -/
theorem stopAll_honoured_le (honour : Mark → Bool) (ts : List Token) {o c : ℕ} (h : o ≤ c) :
    stopAll (honoured honour ts) o ≤ stopAll (honoured allMarks ts) c := by
  induction ts generalizing o c with
  | nil => exact h
  | cons t ts ih =>
    cases t with
    | mark k =>
      simp only [honoured, allMarks, if_true]
      split
      · exact ih (stop_mono _ h)
      · exact ih (h.trans ((bytes []).le_stop c))
    | piece p => exact ih (p.stop_mono h)

/-- The bit within its byte at which the one stands, and whether the other, who honours every mark,
stands at the next byte instead. -/
structure Stand where
  phase : ℕ
  apart : Bool
  deriving DecidableEq

namespace Stand

def aligned : Stand := ⟨0, false⟩

def mark (honour : Mark → Bool) (s : Stand) (k : Mark) : Stand :=
  if honour k then aligned else ⟨s.phase, s.phase != 0⟩

def piece (s : Stand) : Piece → Option Stand
  | bits width _ =>
    if width = 0 then some s
    else if s.apart then none
    else some ⟨(s.phase + width) % 8, false⟩
  | bytes _ => some aligned

structure At (s : Stand) (o c : ℕ) : Prop where
  phase_eq : s.phase = o % 8
  other_eq : c = if s.apart then alignUp o else o
  apart_mod : s.apart = true → o % 8 ≠ 0

theorem at_same (o : ℕ) : At ⟨o % 8, false⟩ o o := ⟨rfl, rfl, fun h => by cases h⟩

theorem at_aligned {o : ℕ} (ho : o % 8 = 0) : aligned.At o o := by
  have h := at_same o
  rwa [ho] at h

theorem At.alignUp_eq {s : Stand} {o c : ℕ} (h : s.At o c) : alignUp c = alignUp o := by
  rw [h.other_eq]
  split
  · exact alignUp_alignUp o
  · rfl

theorem At.mark {s : Stand} {o c : ℕ} (h : s.At o c) (honour : Mark → Bool) (k : Mark) :
    (s.mark honour k).At (if honour k then alignUp o else o) (alignUp c) := by
  rw [h.alignUp_eq, Stand.mark]
  by_cases hk : honour k
  · rw [if_pos hk, if_pos hk]
    exact at_aligned (alignUp_mod o)
  · rw [if_neg hk, if_neg hk]
    refine ⟨h.phase_eq, ?_, fun hne => by simpa [h.phase_eq] using hne⟩
    by_cases hphase : o % 8 = 0
    · simp [h.phase_eq, hphase, alignUp_of_mod hphase]
    · simp [h.phase_eq, hphase]

end Stand

def walk (honour : Mark → Bool) (s : Stand) : List Token → Option Stand
  | [] => some s
  | .mark k :: ts => walk honour (s.mark honour k) ts
  | .piece p :: ts => (s.piece p).bind fun s => walk honour s ts

theorem walk_append (honour : Mark → Bool) (s : Stand) (ts us : List Token) :
    walk honour s (ts ++ us) = (walk honour s ts).bind fun s => walk honour s us := by
  induction ts generalizing s with
  | nil => rfl
  | cons t ts ih =>
    cases t with
    | mark k => exact ih _
    | piece p =>
      simp only [List.cons_append, walk]
      cases s.piece p with
      | none => rfl
      | some s => exact ih s

theorem writeAll_align (m : ByteMemory) (o : ℕ) (ps : List Piece) :
    writeAll m o (bytes [] :: ps) = writeAll m (alignUp o) ps := by
  simp only [writeAll, write, ByteMemory.write_nil, stop, List.length_nil, Nat.mul_zero,
    Nat.add_zero]

theorem stopAll_align (o : ℕ) (ps : List Piece) :
    stopAll (bytes [] :: ps) o = stopAll ps (alignUp o) := by
  simp only [stopAll, stop, List.length_nil, Nat.mul_zero, Nat.add_zero]

/-- Both write the piece at the same place, and stand together or a boundary apart again. -/
theorem Stand.At.piece {s s' : Stand} {o c : ℕ} {p : Piece} (h : s.At o c)
    (hp : s.piece p = some s') :
    s'.At (p.stop o) (p.stop c) ∧ ∀ m, p.write m c = p.write m o := by
  cases p with
  | bits width value =>
    simp only [Stand.piece] at hp
    split_ifs at hp with hw hapart
    · cases hp
      subst hw
      exact ⟨h, fun m => rfl⟩
    · cases hp
      have hc : c = o := h.other_eq.trans (if_neg hapart)
      rw [hc, h.phase_eq]
      refine ⟨⟨by simp only [stop]; omega, rfl, fun hfalse => by cases hfalse⟩, fun m => rfl⟩
  | bytes data =>
    cases hp
    simp only [stop, write, h.alignUp_eq, implies_true, and_true]
    have hmod := alignUp_mod o
    exact Stand.at_aligned (by omega)

theorem walk_same {honour : Mark → Bool} {ts : List Token} {s s' : Stand} {o c : ℕ}
    (h : walk honour s ts = some s') (hs : s.At o c) :
    (∀ m, writeAll m c (honoured allMarks ts) = writeAll m o (honoured honour ts)) ∧
      s'.At (stopAll (honoured honour ts) o) (stopAll (honoured allMarks ts) c) := by
  induction ts generalizing s o c with
  | nil =>
    cases h
    exact ⟨fun m => rfl, hs⟩
  | cons t ts ih =>
    cases t with
    | mark k =>
      obtain ⟨hwrite, hstop⟩ := ih h (hs.mark honour k)
      simp only [honoured, allMarks, if_true, writeAll_align, stopAll_align]
      cases hk : honour k with
      | true =>
        simp only [hk, if_true] at hwrite hstop
        simp only [if_true, writeAll_align, stopAll_align]
        exact ⟨hwrite, hstop⟩
      | false =>
        simp only [hk, Bool.false_eq_true, if_false] at hwrite hstop
        simp only [Bool.false_eq_true, if_false]
        exact ⟨hwrite, hstop⟩
    | piece p =>
      obtain ⟨s₁, hp, hrest⟩ := Option.bind_eq_some_iff.mp h
      obtain ⟨hs₁, hsame⟩ := hs.piece hp
      obtain ⟨hwrite, hstop⟩ := ih hrest hs₁
      refine ⟨fun m => ?_, hstop⟩
      simp only [honoured, writeAll, hsame m]
      exact hwrite _

/-- As long as the walk goes on, a memory holds the one layout exactly if it holds the other. -/
theorem allAt_walk_iff {honour : Mark → Bool} {ts : List Token} {s s' : Stand} {o c : ℕ}
    (h : walk honour s ts = some s') (hs : s.At o c) (m : ByteMemory) :
    AllAt m c (honoured allMarks ts) ↔ AllAt m o (honoured honour ts) := by
  rw [allAt_iff_writeAll_eq, allAt_iff_writeAll_eq, (walk_same h hs).1]

/-- The same piece with the number `x`, if it is a bit field. -/
def setBits (x : ℕ) : Piece → Piece
  | bits width _ => bits width (x % 2 ^ width)
  | bytes data => bytes data

def withBits (x : ℕ) : List Token → List Token
  | [] => []
  | .mark k :: ts => .mark k :: withBits x ts
  | .piece p :: ts => .piece (p.setBits x) :: withBits x ts

theorem withBits_append (x : ℕ) (ts us : List Token) :
    withBits x (ts ++ us) = withBits x ts ++ withBits x us := by
  induction ts with
  | nil => rfl
  | cons t ts ih => cases t <;> simp only [List.cons_append, withBits, ih]

@[simp] theorem stop_setBits (p : Piece) (x o : ℕ) : (p.setBits x).stop o = p.stop o := by
  cases p <;> rfl

@[simp] theorem covers_setBits (p : Piece) (x o i : ℕ) :
    (p.setBits x).Covers o i ↔ p.Covers o i := by
  cases p <;> rfl

theorem stopAll_withBits (honour : Mark → Bool) (x : ℕ) (ts : List Token) (o : ℕ) :
    stopAll (honoured honour (withBits x ts)) o = stopAll (honoured honour ts) o := by
  induction ts generalizing o with
  | nil => rfl
  | cons t ts ih =>
    cases t with
    | mark k =>
      simp only [withBits, honoured]
      split
      · exact ih _
      · exact ih _
    | piece p =>
      simp only [withBits, honoured, stopAll, stop_setBits]
      exact ih _

theorem covered_withBits (honour : Mark → Bool) (x : ℕ) (ts : List Token) (o i : ℕ) :
    Covered (honoured honour (withBits x ts)) o i ↔ Covered (honoured honour ts) o i := by
  induction ts generalizing o with
  | nil => exact Iff.rfl
  | cons t ts ih =>
    cases t with
    | mark k =>
      simp only [withBits, honoured]
      split
      · simp only [Covered, ih]
      · exact ih o
    | piece p => simp only [withBits, honoured, Covered, covers_setBits, stop_setBits, ih]

/-- Bit `i` of the one is the lowest bit of a field, and the other has put nothing there, or only
another bit of that field. -/
structure Misplaced (honour : Mark → Bool) (ts : List Token) (o c i : ℕ) : Prop where
  le : o ≤ i
  wanted : ∀ x m, AllAt m o (honoured honour (withBits x ts)) → bitAt m i = x.testBit 0
  found : (∀ x m, bitAt (writeAll m c (honoured allMarks (withBits x ts))) i = bitAt m i) ∨
    ∀ x m, x ≤ 1 → bitAt (writeAll m c (honoured allMarks (withBits x ts))) i = false

theorem Stand.At.not_covers {s s' : Stand} {o c i : ℕ} {p : Piece} (h : s.At o c)
    (hp : s.piece p = some s') (hi : p.stop o ≤ i) : ¬ p.Covers c i := by
  intro hcovers
  have hbounds := hcovers.bounds
  cases p with
  | bits width value =>
    simp only [Stand.piece] at hp
    split_ifs at hp with hw hapart
    · simp only [Covers] at hcovers
      omega
    · have hc : c = o := h.other_eq.trans (if_neg hapart)
      rw [hc] at hbounds
      omega
  | bytes data =>
    simp only [stop, h.alignUp_eq] at hbounds hi
    omega

/-- A bit field that begins inside a byte for the one and at the next byte for the other. -/
theorem Stand.At.misplaced {s : Stand} {o c width value : ℕ} (h : s.At o c) (hw : width ≠ 0)
    (hapart : s.apart = true) (honour : Mark → Bool) (ts : List Token) :
    Misplaced honour (.piece (bits width value) :: ts) o c (o + (width - 1)) := by
  have hc : c = alignUp o := h.other_eq.trans (if_pos hapart)
  have hmod := h.apart_mod hapart
  have hlt : o < c := by
    rw [hc, alignUp]
    omega
  have htail : ∀ x m, bitAt (writeAll m c (honoured allMarks
      (withBits x (.piece (bits width value) :: ts)))) (o + (width - 1)) =
        bitAt ((bits width (x % 2 ^ width)).write m c) (o + (width - 1)) := fun x m =>
    bitAt_writeAll_of_lt _ _ (show o + (width - 1) < c + width by omega)
  refine ⟨Nat.le_add_right _ _, fun x m hall => ?_, ?_⟩
  · have hlow : (x % 2 ^ width).testBit 0 = x.testBit 0 := by
      rw [Nat.testBit_mod_two_pow, decide_eq_true (by omega), Bool.true_and]
    have hbit := hall.1 (width - 1) (by omega)
    rwa [Nat.sub_self, hlow] at hbit
  · by_cases hpad : o + (width - 1) < c
    · refine .inl fun x m => ?_
      rw [htail]
      exact bitAt_write_of_not_covers m fun hcovers => absurd hcovers.bounds.1 (by omega)
    · refine .inr fun x m hx => ?_
      rw [htail, write, bitAt_storeBits _ _ _ _ _ _ le_rfl, if_pos (by omega)]
      apply Nat.testBit_lt_two_pow
      calc x % 2 ^ width ≤ x := Nat.mod_le _ _
        _ < 2 ^ 1 := by omega
        _ ≤ 2 ^ (c + width - 1 - (o + (width - 1))) :=
          Nat.pow_le_pow_right (by decide) (by omega)

theorem walk_misplaced {honour : Mark → Bool} {ts : List Token} {s : Stand} {o c : ℕ}
    (h : walk honour s ts = none) (hs : s.At o c) : ∃ i, Misplaced honour ts o c i := by
  induction ts generalizing s o c with
  | nil => cases h
  | cons t ts ih =>
    cases t with
    | mark k =>
      obtain ⟨i, hle, hwanted, hfound⟩ := ih h (hs.mark honour k)
      have hup := le_alignUp o
      refine ⟨i, ?_, fun x m hall => hwanted x m ?_, ?_⟩
      · split at hle <;> omega
      · cases hk : honour k with
        | true =>
          simp only [withBits, honoured, hk, if_true] at hall ⊢
          simpa only [stop, List.length_nil, Nat.mul_zero, Nat.add_zero] using hall.2
        | false =>
          simp only [withBits, honoured, hk, Bool.false_eq_true, if_false] at hall ⊢
          exact hall
      · simpa only [withBits, honoured, allMarks, if_true, writeAll_align] using hfound
    | piece p =>
      cases hp : s.piece p with
      | none =>
        cases p with
        | bits width value =>
          simp only [Stand.piece] at hp
          split_ifs at hp with hw hapart
          exact ⟨_, hs.misplaced hw hapart honour ts⟩
        | bytes data => cases hp
      | some s₁ =>
        obtain ⟨hs₁, -⟩ := hs.piece hp
        simp only [walk, hp, Option.bind_some] at h
        obtain ⟨i, hle, hwanted, hfound⟩ := ih h hs₁
        refine ⟨i, (p.le_stop o).trans hle, fun x m hall => hwanted x m ?_, ?_⟩
        · have htail := hall.2
          rwa [stop_setBits] at htail
        · have hskip : ∀ x m, bitAt ((p.setBits x).write m c) i = bitAt m i := fun x m =>
            bitAt_write_of_not_covers m fun hcovers =>
              hs.not_covers hp hle ((covers_setBits p x c i).mp hcovers)
          simp only [withBits, honoured, writeAll, stop_setBits]
          rcases hfound with hsame | hfalse
          · exact .inl fun x m => (hsame x _).trans (hskip x m)
          · exact .inr fun x m hx => hfalse x _ hx

/-- One of the numbers 0 and 1 in every bit field tells the two layouts apart. -/
theorem exists_not_allAt {honour : Mark → Bool} {ts : List Token} {s : Stand} {o c : ℕ}
    (h : walk honour s ts = none) (hs : s.At o c) (m : ByteMemory) :
    ∃ x, x ≤ 1 ∧ ¬ AllAt (writeAll m c (honoured allMarks (withBits x ts))) o
      (honoured honour (withBits x ts)) := by
  obtain ⟨i, -, hwanted, hfound⟩ := walk_misplaced h hs
  rcases hfound with hsame | hfalse
  · cases hbit : bitAt m i with
    | true =>
      refine ⟨0, by decide, fun hall => ?_⟩
      have hzero := hwanted 0 _ hall
      rw [hsame, hbit] at hzero
      cases hzero
    | false =>
      refine ⟨1, by decide, fun hall => ?_⟩
      have hone := hwanted 1 _ hall
      rw [hsame, hbit] at hone
      cases hone
  · refine ⟨1, by decide, fun hall => ?_⟩
    have hone := hwanted 1 _ hall
    rw [hfalse 1 m le_rfl] at hone
    cases hone

end Piece
