import Mathlib.Algebra.Order.BigOperators.Ring.List

/-!
# Blocks one after the other, and the allocator that makes them

A list of pairs stands for blocks with the gap in front of each. `starts` are the addresses of the
blocks behind a base address. A bump allocator with a capacity gives out such blocks: it refuses a
request that exceeds the capacity and skips a fixed gap after every block that it gives out.
-/

namespace BumpAllocator

/-- The addresses of blocks, given as pairs of the gap in front and the length. -/
def starts (a : ℕ) : List (ℕ × ℕ) → List ℕ
  | [] => []
  | (gap, len) :: rest => (a + gap) :: starts (a + gap + len) rest

def extent : List (ℕ × ℕ) → ℕ
  | [] => 0
  | (gap, len) :: rest => gap + len + extent rest

def regions (a : ℕ) : List (ℕ × ℕ) → List (ℕ × ℕ)
  | [] => []
  | (gap, len) :: rest => (a + gap, len) :: regions (a + gap + len) rest

theorem map_fst_regions (a : ℕ) (bs : List (ℕ × ℕ)) :
    (regions a bs).map Prod.fst = starts a bs := by
  induction bs generalizing a with
  | nil => rfl
  | cons b bs ih => exact congrArg (_ :: ·) (ih _)

theorem regions_append (a : ℕ) (bs cs : List (ℕ × ℕ)) :
    regions a (bs ++ cs) = regions a bs ++ regions (a + extent bs) cs := by
  induction bs generalizing a with
  | nil => rfl
  | cons b bs ih =>
    obtain ⟨gap, len⟩ := b
    have hassoc : a + gap + len + extent bs = a + (gap + len + extent bs) := by omega
    simp only [List.cons_append, regions, extent, ih, hassoc]

theorem length_regions (a : ℕ) (bs : List (ℕ × ℕ)) : (regions a bs).length = bs.length := by
  induction bs generalizing a with
  | nil => rfl
  | cons b bs ih => exact congrArg Nat.succ (ih _)

theorem starts_append (a : ℕ) (bs cs : List (ℕ × ℕ)) :
    starts a (bs ++ cs) = starts a bs ++ starts (a + extent bs) cs := by
  rw [← map_fst_regions, regions_append, List.map_append, map_fst_regions, map_fst_regions]

theorem extent_append (bs cs : List (ℕ × ℕ)) : extent (bs ++ cs) = extent bs + extent cs := by
  induction bs with
  | nil => exact (Nat.zero_add _).symm
  | cons b bs ih =>
    obtain ⟨gap, len⟩ := b
    simp only [List.cons_append, extent, ih, Nat.add_assoc]

theorem extent_zip {gaps lens : List ℕ} (h : gaps.length = lens.length) :
    extent (gaps.zip lens) = gaps.sum + lens.sum := by
  induction lens generalizing gaps with
  | nil =>
    rw [List.length_eq_zero_iff.mp h]
    rfl
  | cons len lens ih =>
    obtain ⟨gap, gaps, rfl⟩ := List.exists_cons_of_length_eq_add_one h
    simp only [List.zip_cons_cons, extent, ih (Nat.succ.inj h), List.sum_cons]
    omega

theorem length_starts (a : ℕ) (bs : List (ℕ × ℕ)) : (starts a bs).length = bs.length := by
  rw [← map_fst_regions, List.length_map, length_regions]

theorem map_add_starts (d a : ℕ) (bs : List (ℕ × ℕ)) :
    (starts a bs).map (d + ·) = starts (d + a) bs := by
  induction bs generalizing a with
  | nil => rfl
  | cons b bs ih =>
    obtain ⟨gap, len⟩ := b
    simp only [starts, List.map_cons, ih, Nat.add_assoc]

/-- The same blocks start at the same addresses exactly behind the same gaps. -/
theorem starts_zip_inj {a : ℕ} {gaps gaps' lens : List ℕ} (h : gaps.length = lens.length)
    (h' : gaps'.length = lens.length) :
    starts a (gaps.zip lens) = starts a (gaps'.zip lens) ↔ gaps = gaps' := by
  induction lens generalizing a gaps gaps' with
  | nil =>
    rw [List.length_eq_zero_iff.mp h, List.length_eq_zero_iff.mp h']
    exact iff_of_true rfl rfl
  | cons len lens ih =>
    obtain ⟨gap, gaps, rfl⟩ := List.exists_cons_of_length_eq_add_one h
    obtain ⟨gap', gaps', rfl⟩ := List.exists_cons_of_length_eq_add_one h'
    simp only [List.zip_cons_cons, starts, List.cons.injEq]
    constructor
    · rintro ⟨hhead, htail⟩
      have hgap : gap = gap' := by omega
      subst hgap
      exact ⟨rfl, (ih (Nat.succ.inj h) (Nat.succ.inj h')).mp htail⟩
    · rintro ⟨rfl, rfl⟩
      exact ⟨rfl, rfl⟩

/-- The first gap may be counted to the base address. -/
theorem starts_zip_shift (a d gap : ℕ) (gaps lens : List ℕ) :
    starts a (((d + gap) :: gaps).zip lens) = starts (a + d) ((gap :: gaps).zip lens) := by
  cases lens with
  | nil => rfl
  | cons len lens => simp only [List.zip_cons_cons, starts, Nat.add_assoc]

/-- Regions lie inside the extent of the blocks. -/
theorem bounds_of_mem_regions {a : ℕ} {bs : List (ℕ × ℕ)} {r : ℕ × ℕ} (h : r ∈ regions a bs) :
    a ≤ r.1 ∧ r.1 + r.2 ≤ a + extent bs := by
  induction bs generalizing a with
  | nil => cases h
  | cons b bs ih =>
    obtain ⟨gap, len⟩ := b
    rcases List.mem_cons.mp h with rfl | hrest
    · simp only [extent]
      omega
    · have hbounds := ih hrest
      simp only [extent]
      omega

/-- Each region ends before all later ones start. -/
theorem pairwise_regions (a : ℕ) (bs : List (ℕ × ℕ)) :
    (regions a bs).Pairwise fun r r' => r.1 + r.2 ≤ r'.1 := by
  induction bs generalizing a with
  | nil => exact .nil
  | cons b bs ih =>
    obtain ⟨gap, len⟩ := b
    exact .cons (fun r hr => (bounds_of_mem_regions hr).1) (ih _)

/-- Between a region and the next one there is the gap in front of the latter. -/
theorem regions_succ {a : ℕ} {bs : List (ℕ × ℕ)} {i : ℕ} {r r' : ℕ × ℕ}
    (h : (regions a bs)[i]? = some r) (h' : (regions a bs)[i + 1]? = some r') :
    ∃ gap, (bs.map Prod.fst)[i + 1]? = some gap ∧ r'.1 = r.1 + r.2 + gap := by
  induction bs generalizing a i with
  | nil => cases h
  | cons b bs ih =>
    obtain ⟨gap, len⟩ := b
    cases i with
    | zero =>
      cases bs with
      | nil => cases h'
      | cons b' bs =>
        obtain ⟨gap', len'⟩ := b'
        cases h
        cases h'
        exact ⟨gap', rfl, rfl⟩
    | succ i => exact ih h h'

/-- What has been given out, and the gaps that are left to follow the next blocks. -/
structure State where
  used : ℕ
  gaps : List ℕ

/-- The offset of the block for a request, unless it is refused. -/
def next (cap : ℕ) (s : State) (len : ℕ) : Option ℕ × State :=
  match s.gaps with
  | [] => (none, s)
  | gap :: gaps =>
    if s.used + len ≤ cap then (some s.used, ⟨s.used + len + gap, gaps⟩) else (none, s)

def run (cap : ℕ) : State → List ℕ → List (Option ℕ)
  | _, [] => []
  | s, len :: lens => (next cap s len).1 :: run cap (next cap s len).2 lens

theorem next_of_le {cap used len : ℕ} (h : used + len ≤ cap) (gap : ℕ) (gaps : List ℕ) :
    next cap ⟨used, gap :: gaps⟩ len = (some used, ⟨used + len + gap, gaps⟩) := if_pos h

theorem next_of_lt {cap used len : ℕ} (h : cap < used + len) (gaps : List ℕ) :
    next cap ⟨used, gaps⟩ len = (none, ⟨used, gaps⟩) := by
  cases gaps with
  | nil => rfl
  | cons gap gaps => exact if_neg (Nat.not_le.mpr h)

theorem length_run (cap : ℕ) (s : State) (lens : List ℕ) :
    (run cap s lens).length = lens.length := by
  induction lens generalizing s with
  | nil => rfl
  | cons len lens ih => exact congrArg Nat.succ (ih _)

theorem next_eq_some {cap len u : ℕ} {s s' : State} (h : next cap s len = (some u, s')) :
    ∃ gap, s.gaps = gap :: s'.gaps ∧ u = s.used ∧ s.used + len ≤ cap ∧
      s'.used = s.used + len + gap := by
  obtain ⟨used, gaps⟩ := s
  cases gaps with
  | nil => cases h
  | cons gap gaps =>
    simp only [next] at h
    split at h
    · rename_i hfits
      cases h
      exact ⟨gap, rfl, rfl, hfits, rfl⟩
    · cases h

theorem next_fst (cap : ℕ) (s : State) (len : ℕ) :
    (next cap s len).1 = none ∨ (next cap s len).1 = some s.used := by
  cases hnext : next cap s len with
  | mk u s' =>
    cases u with
    | none => exact .inl rfl
    | some u =>
      obtain ⟨-, -, rfl, -, -⟩ := next_eq_some hnext
      exact .inr rfl

theorem eq_none_of_mem_run {cap used : ℕ} {lens : List ℕ} {o : Option ℕ}
    (h : o ∈ run cap ⟨used, []⟩ lens) : o = none := by
  induction lens with
  | nil => cases h
  | cons len lens ih =>
    rcases List.mem_cons.mp h with rfl | htail
    · rfl
    · exact ih htail

/-- Requests that are all granted lie one after the other. -/
theorem run_eq_starts {cap : ℕ} {s : State} {lens : List ℕ} (h : none ∉ run cap s lens) :
    run cap s lens = (starts 0 ((s.used :: s.gaps).zip lens)).map some := by
  induction lens generalizing s with
  | nil => rfl
  | cons len lens ih =>
    obtain ⟨hhead, htail⟩ := not_or.mp (mt List.mem_cons.mpr h)
    obtain ⟨used, gaps⟩ := s
    cases hnext : next cap ⟨used, gaps⟩ len with
    | mk u s' =>
      cases u with
      | none => rw [hnext] at hhead; exact absurd rfl hhead
      | some u =>
        obtain ⟨gap, rfl, rfl, -, hused⟩ := next_eq_some hnext
        rw [hnext] at htail
        have hshift := starts_zip_shift 0 (u + len) gap s'.gaps lens
        simp only [run, hnext, ih htail, hused]
        rw [hshift, List.zip_cons_cons, starts, List.map_cons, Nat.zero_add, Nat.zero_add]

/-- All requests are granted exactly if there are enough gaps and the last block ends within the
capacity. -/
theorem none_notMem_run_iff {cap : ℕ} {s : State} {lens : List ℕ} :
    none ∉ run cap s lens ↔
      lens.length ≤ s.gaps.length ∧
        (lens ≠ [] → extent ((s.used :: s.gaps).zip lens) ≤ cap) := by
  induction lens generalizing s with
  | nil => exact iff_of_true List.not_mem_nil ⟨Nat.zero_le _, fun h => absurd rfl h⟩
  | cons len lens ih =>
    obtain ⟨used, gaps⟩ := s
    cases gaps with
    | nil =>
      refine iff_of_false (fun h => h (.head _)) fun h => ?_
      exact absurd h.1 (by simp)
    | cons gap gaps =>
      have hextent : extent ((used :: gap :: gaps).zip (len :: lens)) =
          used + len + extent ((gap :: gaps).zip lens) := rfl
      by_cases hfits : used + len ≤ cap
      · have hrest : extent (((used + len + gap) :: gaps).zip lens) ≤ cap ↔
            lens = [] ∨ used + len + extent ((gap :: gaps).zip lens) ≤ cap := by
          cases lens with
          | nil => exact iff_of_true (Nat.zero_le _) (.inl rfl)
          | cons len' lens =>
            simp only [List.zip_cons_cons, extent, reduceCtorEq, false_or]
            omega
        rw [run, next_of_le hfits, List.mem_cons, not_or, ih, hextent]
        simp only [reduceCtorEq, not_false_eq_true, true_and, List.length_cons,
          Nat.add_le_add_iff_right, ne_eq, forall_const, hrest]
        refine and_congr_right fun _ => ?_
        cases lens with
        | nil => simpa [extent] using hfits
        | cons len' lens => simp
      · refine iff_of_false (fun h => h ?_) fun h => ?_
        · rw [run, next_of_lt (Nat.not_le.mp hfits)]
          exact .head _
        · have hall : used + len + extent ((gap :: gaps).zip lens) ≤ cap := h.2 (by simp)
          omega

def Granted {α : Type} (cap : ℕ) (len : α → ℕ) (ok : ℕ → α → Prop) : ℕ → List ℕ → List α → Prop
  | used, gap :: gaps, r :: rs =>
    if used + len r ≤ cap then ok used r ∧ Granted cap len ok (used + len r + gap) gaps rs
    else Granted cap len ok used (gap :: gaps) rs
  | _, _, _ => True

theorem granted_iff {α : Type} {cap : ℕ} {len : α → ℕ} {ok : ℕ → α → Prop} {used : ℕ}
    {gaps : List ℕ} {rs : List α} :
    Granted cap len ok used gaps rs ↔
      ∀ p ∈ (run cap ⟨used, gaps⟩ (rs.map len)).zip rs, ∀ u ∈ p.1, ok u p.2 := by
  induction rs generalizing used gaps with
  | nil =>
    rw [show Granted cap len ok used gaps [] = True by cases gaps <;> rfl]
    exact iff_of_true trivial fun p hp => nomatch hp
  | cons r rs ih =>
    cases gaps with
    | nil =>
      refine iff_of_true trivial fun p hp u hu => ?_
      rw [eq_none_of_mem_run (List.of_mem_zip hp).1] at hu
      cases hu
    | cons gap gaps =>
      by_cases hfits : used + len r ≤ cap
      · rw [Granted, if_pos hfits, List.map_cons, run, next_of_le hfits, List.zip_cons_cons,
          List.forall_mem_cons, ih]
        simp only [Option.mem_def, Option.some.injEq, forall_eq']
      · rw [Granted, if_neg hfits, List.map_cons, run, next_of_lt (Nat.not_le.mp hfits),
          List.zip_cons_cons, List.forall_mem_cons, ih]
        exact ⟨fun h => ⟨fun u hu => (nomatch hu), h⟩, fun h => h.2⟩

instance {α : Type} {cap used : ℕ} {len : α → ℕ} {ok : ℕ → α → Prop} [∀ u r, Decidable (ok u r)]
    {gaps : List ℕ} {rs : List α} : Decidable (Granted cap len ok used gaps rs) :=
  decidable_of_iff _ granted_iff.symm

end BumpAllocator
