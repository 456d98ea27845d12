import Mathlib.Data.List.Nodup
import Mathlib.Data.List.Infix

/-!
# Lists of subscribers

Subscribers are kept in a list. One is added at the end unless it is there, and removed where it is.
After any operations the list has no duplicates, and exactly those are in it whose last operation
was an addition. A multicast delegate is such a list as well, and loses the last occurrence of what
is removed, which may be several subscribers at once.
-/

namespace Subscriptions

variable {α : Type*} [DecidableEq α]

inductive Op (α : Type*)
  | add (x : α)
  | remove (x : α)
  deriving DecidableEq

def Op.subject : Op α → α
  | .add x | .remove x => x

def apply (xs : List α) : Op α → List α
  | .add x => if x ∈ xs then xs else xs ++ [x]
  | .remove x => xs.erase x

def after (ops : List (Op α)) : List α := ops.foldl apply []

theorem nodup_apply {xs : List α} (h : xs.Nodup) (op : Op α) : (apply xs op).Nodup := by
  cases op with
  | remove x => exact h.erase x
  | add x =>
    rw [apply]
    split_ifs with hmem
    · exact h
    · refine List.nodup_append.mpr ⟨h, List.nodup_singleton x, fun a ha b hb => ?_⟩
      rw [List.mem_singleton.mp hb]
      rintro rfl
      exact hmem ha

theorem mem_apply {xs : List α} (h : xs.Nodup) (op : Op α) (x : α) :
    x ∈ apply xs op ↔ if op.subject = x then op = .add x else x ∈ xs := by
  cases op with
  | add y =>
    simp only [apply, Op.subject]
    by_cases hy : y = x
    · subst hy
      by_cases hmem : y ∈ xs
      · simp [hmem]
      · simp [hmem]
    · have hne : x ≠ y := fun heq => hy heq.symm
      by_cases hmem : y ∈ xs
      · simp [hmem, hy]
      · simp [hmem, hy, hne]
  | remove y =>
    simp only [apply, Op.subject]
    rw [h.mem_erase_iff]
    by_cases hy : y = x
    · simp [hy]
    · simp [hy, Ne.symm hy]

theorem after_append (ops : List (Op α)) (op : Op α) : after (ops ++ [op]) = apply (after ops) op :=
  List.foldl_append ..

theorem nodup_after (ops : List (Op α)) : (after ops).Nodup := by
  induction ops using List.reverseRecOn with
  | nil => exact List.nodup_nil
  | append_singleton ops op ih =>
    rw [after_append]
    exact nodup_apply ih op

/-- A subscriber is there if the last operation on it was its addition. -/
theorem mem_after_iff (ops : List (Op α)) (x : α) :
    x ∈ after ops ↔ ops.reverse.find? (·.subject = x) = some (.add x) := by
  induction ops using List.reverseRecOn with
  | nil => simp [after]
  | append_singleton ops op ih =>
    rw [after_append, mem_apply (nodup_after ops), List.reverse_append, List.reverse_singleton,
      List.singleton_append, List.find?_cons]
    by_cases hop : op.subject = x
    · simp [hop]
    · simp [hop, ih]

/-- The list without the last occurrence of the other one, if it has one. -/
def removeLast (value : List α) : List α → Option (List α)
  | [] => if value = [] then some [] else none
  | x :: xs =>
    match removeLast value xs with
    | some rest => some (x :: rest)
    | none =>
      if value.isPrefixOf (x :: xs) then some ((x :: xs).drop value.length) else none

theorem removeLast_eq_some {value xs rest : List α} (h : removeLast value xs = some rest) :
    ∃ front back, xs = front ++ value ++ back ∧ rest = front ++ back := by
  induction xs generalizing rest with
  | nil =>
    rw [removeLast] at h
    obtain ⟨rfl, hrest⟩ := Option.ite_none_right_eq_some.mp h
    exact ⟨[], [], rfl, (Option.some.inj hrest).symm⟩
  | cons x xs ih =>
    rw [removeLast] at h
    cases htail : removeLast value xs with
    | some tail =>
      rw [htail] at h
      obtain ⟨front, back, rfl, rfl⟩ := ih htail
      exact ⟨x :: front, back, rfl, (Option.some.inj h).symm⟩
    | none =>
      simp only [htail] at h
      obtain ⟨hstart, hrest⟩ := Option.ite_none_right_eq_some.mp h
      obtain ⟨back, hback⟩ := List.isPrefixOf_iff_prefix.mp hstart
      refine ⟨[], back, hback.symm, ?_⟩
      rw [← Option.some.inj hrest, ← hback, List.drop_left]
      rfl

theorem not_mem_of_removeLast_eq_none {x : α} {xs : List α} (h : removeLast [x] xs = none) :
    x ∉ xs := by
  induction xs with
  | nil => exact List.not_mem_nil
  | cons y ys ih =>
    rw [removeLast] at h
    cases htail : removeLast [x] ys with
    | some tail =>
      rw [htail] at h
      cases h
    | none =>
      have hne : x ≠ y := by
        rintro rfl
        simp [htail, List.isPrefixOf] at h
      rintro (_ | ⟨_, hmem⟩)
      · exact hne rfl
      · exact ih htail hmem

/-- For one subscriber of several different ones, it is the removal. -/
theorem removeLast_singleton {xs : List α} (h : xs.Nodup) (x : α) :
    removeLast [x] xs = if x ∈ xs then some (xs.erase x) else none := by
  induction xs with
  | nil => rfl
  | cons y ys ih =>
    have hnodup := List.nodup_cons.mp h
    rw [removeLast, ih hnodup.2]
    by_cases hy : x = y
    · subst hy
      simp [hnodup.1, List.isPrefixOf]
    · by_cases hmem : x ∈ ys
      · simp [hmem, List.erase_cons_tail, Ne.symm hy]
      · simp [hmem, hy, List.isPrefixOf]

end Subscriptions
