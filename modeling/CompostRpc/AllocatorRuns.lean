import CompostRpc.CAllocator
import CompostRpc.TransitionRun

/-!
# Runs of the allocator in C

A history is an allocator with the suffixes that its caller gave and the regions that were handed
out since the last reset. Whatever is requested, these are blocks one after the other inside the
buffer, with the suffix that the caller gave for each between it and the next one. The pointer may
stand behind the end of the buffer, by the last suffix; then nothing more is handed out.
-/

namespace CompostRpc
open BumpAllocator TransitionRun

def compostAllocSetSuffixes (alloc : CompostAlloc) (suffixes : List UInt16) (len : UInt16) :
    CompostAlloc :=
  { alloc with suffixes := some (suffixes.map UInt16.toNat), suffixesLen := len }

def compostAllocReset (alloc : CompostAlloc) : CompostAlloc :=
  { alloc with suffixes := none, suffixesLen := 0, allocCtr := 0, ptr := alloc.buffer.ptr }

inductive AllocEvent
  | setSuffixes (suffixes : List UInt16) (len : UInt16)
  | next (len : UInt16)
  | reset

structure AllocHistory where
  alloc : CompostAlloc
  given : Option (List UInt16 × UInt16)
  regions : List (ℕ × ℕ)

namespace AllocHistory

def init (buffer : ℕ) (len : UInt16) : AllocHistory :=
  ⟨compostAllocInit buffer len.toNat, none, []⟩

/-- Suffixes are set before the first region is handed out, from an array that has that many. -/
def step (h : AllocHistory) : AllocEvent → Option AllocHistory
  | .setSuffixes suffixes len =>
    if h.regions = [] ∧ len.toNat ≤ suffixes.length then
      some ⟨compostAllocSetSuffixes h.alloc suffixes len, some (suffixes, len), []⟩
    else none
  | .next len =>
    let (ptr, alloc) := compostAllocNext h.alloc len.toNat
    some ⟨alloc, h.given, if ptr = 0 then h.regions else h.regions ++ [(ptr, len.toNat)]⟩
  | .reset => some ⟨compostAllocReset h.alloc, none, []⟩

def suffix (h : AllocHistory) (i : ℕ) : ℕ :=
  match h.given with
  | none => 0
  | some (suffixes, _) => (suffixes.getD i 0).toNat

end AllocHistory

def CompostAlloc.suffix (alloc : CompostAlloc) (i : ℕ) : ℕ :=
  (alloc.suffixes.getD []).getD i 0

structure AllocHistory.Bumps (h : AllocHistory) (buffer : ℕ) (len : UInt16) : Prop where
  buffer_eq : h.alloc.buffer = ⟨buffer, len⟩
  inside : ∀ r ∈ h.regions, buffer ≤ r.1 ∧ r.1 + r.2 ≤ buffer + len.toNat
  ordered : h.regions.Pairwise fun r r' => r.1 + r.2 ≤ r'.1
  separated : ∀ i r r', h.regions[i]? = some r → h.regions[i + 1]? = some r' →
    r'.1 = r.1 + r.2 + h.suffix i
  limited : ∀ suffixes count, h.given = some (suffixes, count) →
    h.regions.length ≤ count.toNat
  refused : ∀ more, (compostAllocNext h.alloc more).1 = 0 →
    (compostAllocNext h.alloc more).2 = h.alloc

namespace AllocHistory

def gapBefore (alloc : CompostAlloc) : ℕ → ℕ
  | 0 => 0
  | i + 1 => alloc.suffix i

/-- The counter and the number of suffixes, if any are set. -/
structure Counted (alloc : CompostAlloc) (blocks : ℕ) : Prop where
  ctr_eq : alloc.allocCtr = UInt16.ofNat blocks
  none_set : alloc.suffixes = none → alloc.suffixesLen = 0
  some_set : ∀ suffixes, alloc.suffixes = some suffixes →
    blocks ≤ alloc.suffixesLen.toNat ∧ ∀ s ∈ suffixes, s < 2 ^ 16

structure Keeps (h : AllocHistory) : Prop where
  suffixes_eq : h.alloc.suffixes = h.given.map fun g => g.1.map UInt16.toNat
  len_eq : ∀ g, h.given = some g → h.alloc.suffixesLen = g.2

theorem Keeps.suffix_eq {h : AllocHistory} (hkeeps : Keeps h) (i : ℕ) :
    h.alloc.suffix i = h.suffix i := by
  rw [CompostAlloc.suffix, AllocHistory.suffix, hkeeps.suffixes_eq]
  cases h.given with
  | none => rfl
  | some g =>
    simp only [Option.map_some, Option.getD_some, List.getD_eq_getElem?_getD, List.getElem?_map]
    cases g.1[i]? <;> rfl

/-- The regions are blocks behind the buffer's start, which end within its length. -/
structure Laid (buffer : ℕ) (len : UInt16) (h : AllocHistory) (blocks : List (ℕ × ℕ)) : Prop where
  buffer_eq : h.alloc.buffer = ⟨buffer, len⟩
  regions_eq : h.regions = BumpAllocator.regions buffer blocks
  gaps_eq : blocks.map Prod.fst = (List.range blocks.length).map (gapBefore h.alloc)
  ptr_eq : h.alloc.ptr = buffer + extent blocks + gapBefore h.alloc blocks.length
  extent_le : extent blocks ≤ len.toNat
  counted : Counted h.alloc blocks.length
  keeps : Keeps h

theorem laid_init (buffer : ℕ) (len : UInt16) : Laid buffer len (init buffer len) [] where
  buffer_eq := by simp [init, compostAllocInit]
  regions_eq := rfl
  gaps_eq := rfl
  ptr_eq := rfl
  extent_le := Nat.zero_le _
  counted := ⟨rfl, fun _ => rfl, fun _ h => nomatch h⟩
  keeps := ⟨rfl, fun _ h => nomatch h⟩

def skipped (alloc : CompostAlloc) : ℕ :=
  if alloc.suffixesLen > 0 then alloc.suffix alloc.allocCtr.toNat % 2 ^ 16 else 0

end AllocHistory

def CompostAlloc.Refuses (alloc : CompostAlloc) (len : ℕ) : Prop :=
  alloc.buffer.ptr + alloc.buffer.len.toNat < alloc.ptr + len % 2 ^ 16 ∨
    (alloc.suffixes ≠ none ∧ alloc.suffixesLen ≤ alloc.allocCtr)

instance (alloc : CompostAlloc) (len : ℕ) : Decidable (alloc.Refuses len) :=
  inferInstanceAs (Decidable (_ ∨ _))

theorem compostAllocNext_eq (alloc : CompostAlloc) (len : ℕ) :
    compostAllocNext alloc len =
      if alloc.Refuses len then (0, alloc)
      else (alloc.ptr, { alloc with
        ptr := alloc.ptr + len % 2 ^ 16 + AllocHistory.skipped alloc
        allocCtr := alloc.allocCtr + 1 }) := by
  have hiff : (((len % 2 ^ 16 : ℕ) : ℤ) >
        alloc.buffer.len.toNat - ((alloc.ptr : ℤ) - alloc.buffer.ptr) ∨
      (alloc.suffixes.isSome = true ∧ alloc.allocCtr ≥ alloc.suffixesLen)) ↔ alloc.Refuses len := by
    rw [CompostAlloc.Refuses, Option.isSome_iff_ne_none]
    exact or_congr (by omega) Iff.rfl
  rw [compostAllocNext]
  by_cases hrefused : alloc.Refuses len
  · rw [if_pos hrefused]
    exact if_pos (hiff.mpr hrefused)
  · rw [if_neg hrefused]
    simp only [hiff, if_neg hrefused, AllocHistory.skipped]
    split <;> rfl

namespace AllocHistory

/-- A request is refused, or there is room for it and suffixes are left. -/
theorem compostAllocNext_cases (alloc : CompostAlloc) (len : ℕ) :
    compostAllocNext alloc len = (0, alloc) ∨
      alloc.ptr + len % 2 ^ 16 ≤ alloc.buffer.ptr + alloc.buffer.len.toNat ∧
      (alloc.suffixes ≠ none → alloc.allocCtr < alloc.suffixesLen) ∧
      compostAllocNext alloc len = (alloc.ptr, { alloc with
        ptr := alloc.ptr + len % 2 ^ 16 + skipped alloc
        allocCtr := alloc.allocCtr + 1 }) := by
  rw [compostAllocNext_eq]
  by_cases hrefused : alloc.Refuses len
  · exact .inl (if_pos hrefused)
  · obtain ⟨hroom, hleft⟩ := not_or.mp hrefused
    refine .inr ⟨by omega, fun hsome => ?_, if_neg hrefused⟩
    by_contra hlate
    exact hleft ⟨hsome, UInt16.not_lt.mp hlate⟩

/-- The counter does not wrap while there are suffixes. -/
theorem Counted.ctr_toNat {alloc : CompostAlloc} {n : ℕ} (h : Counted alloc n)
    {suffixes : List ℕ} (hsuffixes : alloc.suffixes = some suffixes) :
    alloc.allocCtr.toNat = n := by
  have hle := (h.some_set suffixes hsuffixes).1
  rw [h.ctr_eq, UInt16.toNat_ofNat']
  exact Nat.mod_eq_of_lt (hle.trans_lt alloc.suffixesLen.toNat_lt)

theorem Counted.skipped_eq {alloc : CompostAlloc} {n : ℕ} (h : Counted alloc n)
    (hleft : alloc.suffixes ≠ none → alloc.allocCtr < alloc.suffixesLen) :
    skipped alloc = alloc.suffix n := by
  cases hsuffixes : alloc.suffixes with
  | none =>
    rw [skipped, h.none_set hsuffixes, if_neg (by decide), CompostAlloc.suffix, hsuffixes]
    rfl
  | some suffixes =>
    obtain ⟨-, hsmall⟩ := h.some_set suffixes hsuffixes
    have hpos : alloc.suffixesLen > 0 := by
      have hlt := UInt16.lt_iff_toNat_lt.mp (hleft (hsuffixes ▸ Option.some_ne_none suffixes))
      rw [gt_iff_lt, UInt16.lt_iff_toNat_lt]
      exact Nat.zero_lt_of_lt hlt
    have hlt : alloc.suffix n < 2 ^ 16 := by
      rw [CompostAlloc.suffix, hsuffixes, Option.getD_some, List.getD_eq_getElem?_getD]
      cases hget : suffixes[n]? with
      | none => decide
      | some s => exact hsmall s (List.mem_of_getElem? hget)
    rw [skipped, if_pos hpos, h.ctr_toNat hsuffixes]
    exact Nat.mod_eq_of_lt hlt

theorem Counted.next {alloc : CompostAlloc} {n : ℕ} (h : Counted alloc n)
    (hleft : alloc.suffixes ≠ none → alloc.allocCtr < alloc.suffixesLen) (ptr : ℕ) :
    Counted { alloc with ptr := ptr, allocCtr := alloc.allocCtr + 1 } (n + 1) := by
  refine ⟨?_, h.none_set, fun suffixes hsuffixes => ?_⟩
  · simp only [h.ctr_eq, UInt16.ofNat_add]
    rfl
  · obtain ⟨-, hsmall⟩ := h.some_set suffixes hsuffixes
    have hlt := UInt16.lt_iff_toNat_lt.mp (hleft (hsuffixes ▸ Option.some_ne_none suffixes))
    rw [h.ctr_toNat hsuffixes] at hlt
    exact ⟨hlt, hsmall⟩

/-- A granted request is one more block. -/
theorem Laid.next {buffer : ℕ} {len : UInt16} {h : AllocHistory} {blocks : List (ℕ × ℕ)}
    (hlaid : Laid buffer len h blocks) {more : ℕ}
    (hroom : h.alloc.ptr + more ≤ h.alloc.buffer.ptr + h.alloc.buffer.len.toNat)
    (hleft : h.alloc.suffixes ≠ none → h.alloc.allocCtr < h.alloc.suffixesLen) :
    Laid buffer len ⟨{ h.alloc with
      ptr := h.alloc.ptr + more + skipped h.alloc
      allocCtr := h.alloc.allocCtr + 1 }, h.given, h.regions ++ [(h.alloc.ptr, more)]⟩
      (blocks ++ [(gapBefore h.alloc blocks.length, more)]) := by
  have hextent : extent (blocks ++ [(gapBefore h.alloc blocks.length, more)]) =
      extent blocks + gapBefore h.alloc blocks.length + more := by
    rw [extent_append, extent, extent]
    omega
  have hptr := hlaid.ptr_eq
  rw [hlaid.buffer_eq] at hroom
  refine ⟨hlaid.buffer_eq, ?_, ?_, ?_, ?_, ?_, ⟨hlaid.keeps.suffixes_eq, hlaid.keeps.len_eq⟩⟩
  · rw [regions_append, hlaid.regions_eq, BumpAllocator.regions, BumpAllocator.regions, ← hptr]
  · rw [List.map_append, hlaid.gaps_eq, List.length_append, List.length_singleton, List.range_succ,
      List.map_append]
    rfl
  · rw [hextent, List.length_append, List.length_singleton, hlaid.counted.skipped_eq hleft]
    change h.alloc.ptr + more + h.alloc.suffix blocks.length = _ + h.alloc.suffix blocks.length
    omega
  · simp only at hroom
    omega
  · rw [List.length_append]
    exact hlaid.counted.next hleft _

/-- In every step the regions stay blocks behind the buffer's start. -/
theorem Laid.step {buffer : ℕ} (hbuffer : 0 < buffer) {len : UInt16} {h h' : AllocHistory}
    {blocks : List (ℕ × ℕ)} (hlaid : Laid buffer len h blocks) {e : AllocEvent}
    (hstep : AllocHistory.step h e = some h') : ∃ blocks', Laid buffer len h' blocks' := by
  cases e with
  | setSuffixes suffixes count =>
    obtain ⟨⟨hnone, -⟩, hset⟩ := Option.ite_none_right_eq_some.mp hstep
    obtain rfl := Option.some.inj hset
    -- no region was handed out, so there is no block
    have hblocks : blocks = [] := by
      rw [hlaid.regions_eq] at hnone
      apply List.eq_nil_of_length_eq_zero
      rw [← length_regions buffer blocks, hnone]
      rfl
    subst hblocks
    refine ⟨[], hlaid.buffer_eq, rfl, rfl, hlaid.ptr_eq, Nat.zero_le _,
      ⟨hlaid.counted.ctr_eq, fun hcleared => absurd hcleared (by simp [compostAllocSetSuffixes]),
        fun suffixes' hsome => ⟨Nat.zero_le _, fun s hs => ?_⟩⟩,
      ⟨rfl, fun g hgiven => ?_⟩⟩
    · obtain rfl := Option.some.inj hsome
      obtain ⟨s', -, rfl⟩ := List.mem_map.mp hs
      exact s'.toNat_lt
    · obtain rfl := Option.some.inj hgiven
      rfl
  | next more =>
    have hmod : more.toNat % 2 ^ 16 = more.toNat := Nat.mod_eq_of_lt more.toNat_lt
    simp only [AllocHistory.step] at hstep
    rcases compostAllocNext_cases h.alloc more.toNat with hnull | ⟨hroom, hleft, hgranted⟩
    · rw [hnull] at hstep
      obtain rfl := Option.some.inj hstep
      exact ⟨blocks, hlaid⟩
    · have hptr : h.alloc.ptr ≠ 0 := by
        rw [hlaid.ptr_eq]
        omega
      rw [hmod] at hroom hgranted
      rw [hgranted, if_neg hptr] at hstep
      obtain rfl := Option.some.inj hstep
      exact ⟨_, hlaid.next hroom hleft⟩
  | reset =>
    obtain rfl := Option.some.inj hstep
    have hptr : h.alloc.buffer.ptr = buffer := congrArg Slice.ptr hlaid.buffer_eq
    exact ⟨[], hlaid.buffer_eq, rfl, rfl, hptr, Nat.zero_le _,
      ⟨rfl, fun _ => rfl, fun _ hsome => nomatch hsome⟩, ⟨rfl, fun _ hgiven => nomatch hgiven⟩⟩

theorem Laid.bumps {buffer : ℕ} (hbuffer : 0 < buffer) {len : UInt16} {h : AllocHistory}
    {blocks : List (ℕ × ℕ)} (hlaid : Laid buffer len h blocks) : h.Bumps buffer len where
  buffer_eq := hlaid.buffer_eq
  inside := fun r hr => by
    rw [hlaid.regions_eq] at hr
    have hbounds := bounds_of_mem_regions hr
    have hle := hlaid.extent_le
    omega
  ordered := hlaid.regions_eq ▸ pairwise_regions buffer blocks
  separated := fun i r r' hr hr' => by
    rw [hlaid.regions_eq] at hr hr'
    obtain ⟨gap, hgap, hnext⟩ := regions_succ hr hr'
    rw [hlaid.gaps_eq, List.getElem?_map] at hgap
    obtain ⟨j, hj, rfl⟩ := Option.map_eq_some_iff.mp hgap
    obtain ⟨hlt, rfl⟩ := List.getElem?_eq_some_iff.mp hj
    rw [List.getElem_range] at hnext
    rw [← hlaid.keeps.suffix_eq]
    exact hnext
  limited := fun suffixes count hgiven => by
    have hsuffixes := hlaid.keeps.suffixes_eq
    rw [hgiven] at hsuffixes
    have hlen : h.alloc.suffixesLen = count := hlaid.keeps.len_eq _ hgiven
    rw [hlaid.regions_eq, length_regions, ← hlen]
    exact (hlaid.counted.some_set _ hsuffixes).1
  refused := fun more hnull => by
    rcases compostAllocNext_cases h.alloc more with hrefused | ⟨-, -, hgranted⟩
    · rw [hrefused]
    · have hptr := hlaid.ptr_eq
      rw [hgranted] at hnull
      simp only at hnull
      omega

theorem laid_of_run {buffer : ℕ} (hbuffer : 0 < buffer) {len : UInt16} {es : List AllocEvent}
    {h : AllocHistory} (hrun : run AllocHistory.step (init buffer len) es = some h) :
    ∃ blocks, Laid buffer len h blocks :=
  @run_invariant _ _ _ (fun h => ∃ blocks, Laid buffer len h blocks)
    (fun _ _ _ ⟨_, hlaid⟩ hstep => hlaid.step hbuffer hstep) _ _ _ ⟨[], laid_init buffer len⟩ hrun

/-- In a buffer at the address zero the first region cannot be told from a refusal. -/
theorem not_bumps_null : ¬ (init 0 10).Bumps 0 10 := by
  intro hbumps
  have hctr := congrArg CompostAlloc.allocCtr (hbumps.refused 4 (by decide))
  exact absurd hctr (by decide)

/-- After every run in a buffer at another address the regions that were handed out since the last
reset lie in order inside the buffer, separated by the suffixes, and a refused request changes
nothing. -/
theorem bumps_of_run {buffer : ℕ} (hbuffer : 0 < buffer) {len : UInt16} {es : List AllocEvent}
    {h : AllocHistory} (hrun : run AllocHistory.step (init buffer len) es = some h) :
    h.Bumps buffer len := by
  obtain ⟨blocks, hlaid⟩ := laid_of_run hbuffer hrun
  exact hlaid.bumps hbuffer

/-- Two slices with suffixes in a buffer of ten bytes, with a request that is too large, and one
more without suffixes. -/
theorem bumps_two_suffixes :
    (∃ h, run AllocHistory.step (init 100 10)
        [.setSuffixes [2, 0] 2, .next 12, .next 4, .next 4, .next 0] = some h ∧
      h.regions = [(100, 4), (106, 4)] ∧ h.Bumps 100 10) ∧
    ∃ h, run AllocHistory.step (init 100 10)
        [.setSuffixes [2, 0] 2, .next 4, .reset, .next 8, .next 2, .next 1] = some h ∧
      h.regions = [(100, 8), (108, 2)] ∧ h.Bumps 100 10 := by
  refine ⟨⟨_, rfl, by decide, ?_⟩, ⟨_, rfl, by decide, ?_⟩⟩
  · exact @bumps_of_run 100 (by decide) 10
      [.setSuffixes [2, 0] 2, .next 12, .next 4, .next 4, .next 0] _ rfl
  · exact @bumps_of_run 100 (by decide) 10
      [.setSuffixes [2, 0] 2, .next 4, .reset, .next 8, .next 2, .next 1] _ rfl

end AllocHistory
end CompostRpc
