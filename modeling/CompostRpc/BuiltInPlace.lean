import CompostRpc.CAllocator
import CompostRpc.MsgProcessBounds

/-!
# Slices that are built where they are stored

`T_alloc_init` and `T_init` shall place the slices of a struct where `T_store` writes their
elements. For a notification they do so exactly if the alignments in every stretch skip less than a
byte, as the layout rounds once where the store code may round several times. For the result of a
call the base is shifted twice and by four bytes, so that no slice is in place.
-/

namespace CompostRpc
open ByteMemory Piece Machine BumpAllocator

def StoredInPlace (m : Machine) (dest : ℕ) (t : WireType) (v : CValue t) : Prop :=
  ∀ s ∈ sliceStores m dest ⟨0⟩ t v, s.ptr = s.dataAddr

/-- No slice of the struct is null. -/
def AllAllocated (members : Members) (vs : CValues members) : Prop :=
  ∀ r ∈ slicesAll members vs, r.1 ≠ 0

/-- The alignments in the stretches before the slices skip less than a byte each, and a suffix does
not overflow. -/
def LayoutPredicts (members : Members) : Prop :=
  (∀ s ∈ (structStretches members).1, s.Tight) ∧
    ∀ s ∈ (structStretches members).1.tail, s.bytes < 2 ^ 16

/-- A finished stretch is at least as long as its sizes and ends with a length prefix. -/
structure Stretch.Finished (s : Stretch) : Prop where
  sum_le : s.sum ≤ s.extent
  extent_mod : s.extent % 8 = 0
  prefix_le : 16 ≤ s.sum

theorem Stretch.align_le {cur : Stretch} (h : cur.sum ≤ cur.extent) :
    cur.align.sum ≤ cur.align.extent := h.trans (le_alignUp cur.extent)

theorem Stretch.finished_field {cur : Stretch} (h : cur.sum ≤ cur.extent) :
    (cur.align.field 16).Finished := by
  have hle := Stretch.align_le h
  have hmod := alignUp_mod cur.extent
  refine ⟨Nat.add_le_add_right hle 16, ?_, Nat.le_add_left 16 _⟩
  change (alignUp cur.extent + 16) % 8 = 0
  omega

mutual

theorem stretches_finished {cur : Stretch} (h : cur.sum ≤ cur.extent) (t : WireType) :
    (∀ s ∈ (stretches cur t).1, s.Finished) ∧
      (stretches cur t).2.sum ≤ (stretches cur t).2.extent := by
  match t with
  | .num n => exact ⟨fun s hs => (nomatch hs), Nat.add_le_add_right (Stretch.align_le h) _⟩
  | .bitU width => exact ⟨fun s hs => (nomatch hs), Nat.add_le_add_right h _⟩
  | .enum e =>
    simp only [stretches]
    cases e.backing.repr with
    | inl n => exact ⟨fun s hs => (nomatch hs), Nat.add_le_add_right (Stretch.align_le h) _⟩
    | inr width => exact ⟨fun s hs => (nomatch hs), Nat.add_le_add_right h _⟩
  | .str | .bytes | .list inner =>
    refine ⟨fun s hs => ?_, le_rfl⟩
    cases List.mem_singleton.mp hs
    exact Stretch.finished_field h
  | .struct name members => exact stretchesAll_finished (Stretch.align_le h) members

theorem stretchesAll_finished {cur : Stretch} (h : cur.sum ≤ cur.extent) (ms : Members) :
    (∀ s ∈ (stretchesAll cur ms).1, s.Finished) ∧
      (stretchesAll cur ms).2.sum ≤ (stretchesAll cur ms).2.extent := by
  match ms with
  | .nil => exact ⟨fun s hs => (nomatch hs), Stretch.align_le h⟩
  | .cons name t rest =>
    obtain ⟨hdone, hopen⟩ := stretches_finished h t
    obtain ⟨hdone', hopen'⟩ := stretchesAll_finished hopen rest
    refine ⟨fun s hs => ?_, hopen'⟩
    rcases List.mem_append.mp hs with hs | hs
    · exact hdone s hs
    · exact hdone' s hs

end

theorem structStretches_finished (members : Members) :
    ∀ s ∈ (structStretches members).1, s.Finished :=
  (@stretchesAll_finished ⟨0, 0⟩ le_rfl members).1

theorem Stretch.Finished.layoutBytes_eq_iff {s : Stretch} (h : s.Finished) :
    s.layoutBytes = s.bytes ↔ s.Tight := by
  obtain ⟨hle, hmod, -⟩ := h
  unfold layoutBytes bytes Tight
  omega

theorem Stretch.Finished.suffix_eq_iff {s : Stretch} (h : s.Finished) :
    s.layoutBytes % 2 ^ 16 = s.bytes ↔ s.Tight ∧ s.bytes < 2 ^ 16 := by
  obtain ⟨hle, hmod, -⟩ := h
  unfold layoutBytes bytes Tight
  omega

/-- The gaps of the allocator are those of the store code. -/
theorem suffixes_eq_iff {rest : List Stretch} (h : ∀ s ∈ rest, s.Finished) :
    rest.map (fun s => s.layoutBytes % 2 ^ 16) = rest.map Stretch.bytes ↔
      (∀ s ∈ rest, s.Tight) ∧ ∀ s ∈ rest, s.bytes < 2 ^ 16 := by
  rw [List.map_inj_left, ← forall_and]
  exact forall_congr' fun s => ⟨fun heq => ⟨fun hs => ((h s hs).suffix_eq_iff.mp (heq hs)).1,
    fun hs => ((h s hs).suffix_eq_iff.mp (heq hs)).2⟩,
    fun hand hs => (h s hs).suffix_eq_iff.mpr ⟨hand.1 hs, hand.2 hs⟩⟩

theorem storedInPlace_iff (m : Machine) (dest : ℕ) (name : String) (members : Members)
    (vs : CValues members) :
    StoredInPlace m dest (.struct name members) vs ↔
      (slicesAll members vs).map Prod.fst =
        starts dest (storedBlocks (structStretches members).1 (slicesAll members vs)) := by
  have halign : alignUp (8 * dest) = 8 * dest := alignUp_of_mod (by omega)
  have hstored : sliceStores m dest ⟨0⟩ (.struct name members) vs =
      storedSlicesAll (8 * dest) members vs := by
    rw [← halign]
    exact sliceStores_eq m dest ⟨0⟩ (.struct name members) vs
  have hstarts := (stored_behind_stretchesAll dest ⟨0, 0⟩ members vs).starts_eq
  have hptrs : (slicesAll members vs).map Prod.fst =
      (storedSlicesAll (8 * dest) members vs).map StoredSlice.ptr := by
    rw [← map_region_storedSlicesAll (8 * dest), List.map_map]
    rfl
  have hplace : StoredInPlace m dest (.struct name members) vs ↔
      ∀ s ∈ storedSlicesAll (8 * dest) members vs, s.ptr = s.dataAddr := by
    unfold StoredInPlace
    exact hstored ▸ Iff.rfl
  rw [hplace, hptrs, ← List.map_inj_left]
  exact Eq.congr_right hstarts

def allocGaps : List Stretch → List ℕ
  | [] => []
  | s :: rest => s.layoutBytes :: rest.map fun s => s.layoutBytes % 2 ^ 16

theorem length_allocGaps (done : List Stretch) : (allocGaps done).length = done.length := by
  cases done with
  | nil => rfl
  | cons s rest => rw [allocGaps, List.length_cons, List.length_map, List.length_cons]

theorem allocGaps_eq_iff {done : List Stretch} (h : ∀ s ∈ done, s.Finished) :
    allocGaps done = done.map Stretch.bytes ↔
      (∀ s ∈ done, s.Tight) ∧ ∀ s ∈ done.tail, s.bytes < 2 ^ 16 := by
  cases done with
  | nil => exact iff_of_true rfl ⟨fun s hs => (nomatch hs), fun s hs => (nomatch hs)⟩
  | cons s rest =>
    rw [List.forall_mem_cons] at h
    rw [allocGaps, List.map_cons, List.cons.injEq, h.1.layoutBytes_eq_iff, suffixes_eq_iff h.2,
      List.forall_mem_cons, List.tail_cons, and_assoc]

/-- With a suffix for every slice, the suffixes are all used but the last. -/
theorem zip_suffixGaps (members : Members) {lens : List ℕ}
    (hlength : lens.length = (structStretches members).1.length)
    (hsuffixes : lens.length ≤ (suffixGaps members).length) :
    (headBytes members :: suffixGaps members).zip lens =
      (allocGaps (structStretches members).1).zip lens := by
  unfold headBytes suffixGaps allStretches at *
  cases hdone : (structStretches members).1 with
  | nil =>
    rw [hdone, List.length_nil, List.length_eq_zero_iff] at hlength
    rw [hlength, List.zip_nil_right, List.zip_nil_right]
  | cons s rest =>
    rw [hdone] at hlength hsuffixes
    simp only [List.cons_append, List.tail_cons, List.headD_cons, List.map_append, List.map_cons,
      List.map_nil, List.map_map, List.length_take, List.length_append, List.length_map,
      List.length_cons, List.length_nil] at hlength hsuffixes ⊢
    have hall : ∀ gaps : List ℕ, gaps.length = lens.length →
        gaps.take ((rest.length + (0 + 1)) % 2 ^ 16) = gaps := fun gaps hgaps =>
      List.take_of_length_le (by omega)
    rw [hall _ (by simp [hlength]), allocGaps, ← List.cons_append,
      ← List.append_nil lens, List.zip_append (by simp [hlength]), List.zip_nil_right,
      List.append_nil, List.append_nil]
    rfl

theorem slices_of_allAllocated {members : Members} {lens : String → UInt16} {txBuf txBufLen : ℕ}
    (h : AllAllocated members
      (structInit members lens (structAllocInit (layoutFrom [⟨0⟩] members) txBuf txBufLen)).1) :
    let regions := slicesAll members
      (structInit members lens (structAllocInit (layoutFrom [⟨0⟩] members) txBuf txBufLen)).1
    let asked := (structRequests members lens).map SliceRequest.asked
    regions.map Prod.fst =
        starts (txBuf + 4) ((allocGaps (structStretches members).1).zip asked) ∧
      regions.map (fun r => r.2 % 2 ^ 16) = asked := by
  intro regions asked
  have hregions : regions = ((run (txBufLen % 2 ^ 16) ⟨0, suffixGaps members⟩ asked).zip
      (structRequests members lens)).map (blockRegion (txBuf + 4 + headBytes members)) :=
    slicesAll_structInit_eq members lens txBuf txBufLen
  have hbase : 0 < txBuf + 4 + headBytes members := by omega
  have hgranted : none ∉ run (txBufLen % 2 ^ 16) ⟨0, suffixGaps members⟩ asked :=
    (forall_blockRegion_ne_zero_iff hbase).mp (hregions ▸ h)
  have hasked : asked.length = (structStretches members).1.length := by
    rw [List.length_map, length_structRequests]
  have hsuffixes : asked.length ≤ (suffixGaps members).length :=
    (none_notMem_run_iff.mp hgranted).1
  have hrun := run_eq_starts hgranted
  have hstarts : (starts 0 ((0 :: suffixGaps members).zip asked)).length =
      (structRequests members lens).length := by
    rw [length_starts, List.length_zip, List.length_cons, Nat.min_eq_right (by omega),
      List.length_map]
  obtain ⟨hfst, hsnd⟩ := @map_blockRegion_granted (txBuf + 4 + headBytes members) _ _ hstarts
  rw [← hrun, ← hregions] at hfst hsnd
  constructor
  · have hshift : starts (txBuf + 4) ((headBytes members :: suffixGaps members).zip asked) =
        starts (txBuf + 4 + headBytes members) ((0 :: suffixGaps members).zip asked) :=
      starts_zip_shift (txBuf + 4) (headBytes members) 0 (suffixGaps members) asked
    rw [hfst, map_add_starts, Nat.add_zero, ← hshift, zip_suffixGaps members hasked hsuffixes]
  · rw [show (fun r : ℕ × ℕ => r.2 % 2 ^ 16) = (· % 2 ^ 16) ∘ Prod.snd from rfl,
      ← List.map_map, hsnd, List.map_map]
    rfl

/-- The slices of a notification argument are in place exactly if the layout predicts the store
code. -/
theorem structInit_in_place_iff (name : String) {members : Members} {lens : String → UInt16}
    {txBuf txBufLen : ℕ} (m : Machine)
    (hfits : AllAllocated members
      (structInit members lens (structAllocInit (layoutFrom [⟨0⟩] members) txBuf txBufLen)).1) :
    StoredInPlace m (txBuf + 4) (.struct name members)
        (structInit members lens
          (structAllocInit (layoutFrom [⟨0⟩] members) txBuf txBufLen)).1 ↔
      LayoutPredicts members := by
  obtain ⟨hptrs, hlens⟩ := slices_of_allAllocated hfits
  have hasked : ((structRequests members lens).map SliceRequest.asked).length =
      (structStretches members).1.length := by
    rw [List.length_map, length_structRequests]
  rw [storedInPlace_iff, hptrs, storedBlocks, hlens, starts_zip_inj]
  · exact allocGaps_eq_iff (structStretches_finished members)
  · rw [length_allocGaps, hasked]
  · rw [List.length_map, hasked]

def solderingProfile : Members :=
  .cons "step_seconds" (.num .u16) (.cons "temps" (.list .i16) .nil)

theorem structInit_in_place_solderingProfile :
    StoredInPlace (.start fun _ => 0) 104 (.struct "SolderingProfile" solderingProfile)
      (structInit solderingProfile (fun _ => 20)
        (structAllocInit (layoutFrom [⟨0⟩] solderingProfile) 100 1024)).1 := by
  have hfits : AllAllocated solderingProfile (structInit solderingProfile (fun _ => 20)
      (structAllocInit (layoutFrom [⟨0⟩] solderingProfile) 100 1024)).1 := by
    unfold AllAllocated
    decide +kernel
  exact (structInit_in_place_iff "SolderingProfile" (.start fun _ => 0) hfits).mpr
    ⟨by decide, by decide⟩

def flaggedSamples : Members :=
  .cons "low" (.bitU 4) (.cons "count" (.num .u8) (.cons "high" (.bitU 4)
    (.cons "samples" (.list .u8) .nil)))

/-- The layout counts four bytes in front of the samples, and the store code takes five. -/
theorem not_in_place_flaggedSamples :
    AllAllocated flaggedSamples (structInit flaggedSamples (fun _ => 1)
      (structAllocInit (layoutFrom [⟨0⟩] flaggedSamples) 100 64)).1 ∧
    ¬ StoredInPlace (.start fun _ => 0) 104 (.struct "FlaggedSamples" flaggedSamples)
      (structInit flaggedSamples (fun _ => 1)
        (structAllocInit (layoutFrom [⟨0⟩] flaggedSamples) 100 64)).1 := by
  unfold AllAllocated StoredInPlace
  decide +kernel

mutual

def WireType.hasBitField : WireType → Bool
  | .bitU _ => true
  | .enum e => e.backing.repr.isRight
  | .struct _ members => members.hasBitField
  | .num _ | .str | .bytes | .list _ => false

def Members.hasBitField : Members → Bool
  | .nil => false
  | .cons _ t rest => t.hasBitField || rest.hasBitField

end

/-- A stretch of bytes without an alignment. -/
structure Stretch.Exact (s : Stretch) : Prop where
  sum_eq : s.sum = s.extent
  extent_mod : s.extent % 8 = 0

theorem Stretch.Exact.align {cur : Stretch} (h : cur.Exact) : cur.align.Exact := by
  obtain ⟨hsum, hmod⟩ := h
  exact ⟨hsum.trans (alignUp_of_mod hmod).symm, alignUp_mod cur.extent⟩

theorem Stretch.Exact.layoutBytes_eq {s : Stretch} (h : s.Exact) : s.layoutBytes = s.bytes := by
  unfold layoutBytes bytes
  rw [h.sum_eq]

theorem Stretch.Exact.field {cur : Stretch} (h : cur.Exact) {width : ℕ} (hwidth : width % 8 = 0) :
    (cur.field width).Exact := by
  obtain ⟨hsum, hmod⟩ := h
  refine ⟨congrArg (· + width) hsum, ?_⟩
  change (cur.extent + width) % 8 = 0
  omega

mutual

theorem stretches_exact {cur : Stretch} (h : cur.Exact) {t : WireType}
    (ht : t.hasBitField = false) :
    (∀ s ∈ (stretches cur t).1, s.Exact) ∧ (stretches cur t).2.Exact := by
  match t with
  | .num n =>
    have hbits := n.size_bits
    exact ⟨fun s hs => (nomatch hs), h.align.field (by omega)⟩
  | .bitU width => cases ht
  | .enum e =>
    simp only [WireType.hasBitField] at ht
    simp only [stretches]
    cases he : e.backing.repr with
    | inl n =>
      have hbits := n.size_bits
      exact ⟨fun s hs => (nomatch hs), h.align.field (by omega)⟩
    | inr width => rw [he] at ht; cases ht
  | .str | .bytes | .list inner =>
    refine ⟨fun s hs => ?_, rfl, rfl⟩
    cases List.mem_singleton.mp hs
    exact h.align.field rfl
  | .struct name members =>
    exact @stretchesAll_exact _ h.align members ht

theorem stretchesAll_exact {cur : Stretch} (h : cur.Exact) {ms : Members}
    (hms : ms.hasBitField = false) :
    (∀ s ∈ (stretchesAll cur ms).1, s.Exact) ∧ (stretchesAll cur ms).2.Exact := by
  match ms with
  | .nil => exact ⟨fun s hs => (nomatch hs), h.align⟩
  | .cons name t rest =>
    simp only [Members.hasBitField, Bool.or_eq_false_iff] at hms
    obtain ⟨hdone, hopen⟩ := stretches_exact h hms.1
    obtain ⟨hdone', hopen'⟩ := stretchesAll_exact hopen hms.2
    refine ⟨fun s hs => ?_, hopen'⟩
    rcases List.mem_append.mp hs with hs | hs
    · exact hdone s hs
    · exact hdone' s hs

end

/-- The head of the layout is the first stretch. -/
theorem headBytes_of_cons {members : Members} {s : Stretch} {rest : List Stretch}
    (hdone : (structStretches members).1 = s :: rest) : headBytes members = s.layoutBytes := by
  rw [headBytes, allStretches, hdone]
  rfl

/-- No struct result without bit fields is built in place: the first slice is null, or behind the
place where its elements are stored. -/
theorem result_not_in_place {name : String} {members : Members} {tx : CompostMsg}
    {alloc : CompostAlloc} (halloc : resultAlloc (some (.struct name members)) tx = some alloc)
    (hbits : members.hasBitField = false) (lens : String → UInt16) (m : Machine) :
    ¬ StoredInPlace m tx.payloadBuf (.struct name members) (structInit members lens alloc).1 := by
  obtain ⟨hdynamic, rfl⟩ := resultAlloc_struct halloc
  obtain ⟨s, rest, hdone⟩ := List.exists_cons_of_ne_nil hdynamic
  have hexact : s.Exact :=
    (@stretchesAll_exact ⟨0, 0⟩ ⟨rfl, rfl⟩ members hbits).1 s (hdone ▸ List.mem_cons_self)
  have hfinished := structStretches_finished members s (hdone ▸ List.mem_cons_self)
  have hhead : headBytes members = s.bytes := (headBytes_of_cons hdone).trans hexact.layoutBytes_eq
  obtain ⟨r, rs, hrequests⟩ := List.exists_cons_of_ne_nil
    (List.ne_nil_of_length_pos (by
      rw [length_structRequests members lens, hdone]
      exact Nat.succ_pos _))
  rw [storedInPlace_iff, slicesAll_structInit_eq, hdone, hrequests]
  intro hplace
  simp only [List.map_cons, run, List.zip_cons_cons, storedBlocks, starts,
    List.cons.injEq] at hplace
  obtain ⟨hptr, -⟩ := hplace
  have hprefix : 2 ≤ s.bytes := by
    obtain ⟨hle, -, hsum⟩ := hfinished
    unfold Stretch.bytes
    omega
  rcases next_fst (sizeDiff16 tx.payloadBufSize (headBytes members) % 2 ^ 16)
    ⟨0, suffixGaps members⟩ r.asked with hnull | hgranted
  · rw [hnull] at hptr
    change 0 = tx.payloadBuf + s.bytes at hptr
    omega
  · rw [hgranted, hhead] at hptr
    change tx.payloadBuf + s.bytes + 4 + s.bytes + 0 = tx.payloadBuf + s.bytes at hptr
    omega

/-- The result with a profile, in a transmit buffer of 64 bytes at address 100. -/
def profileReply : CompostMsg := ⟨⟨0, 7, 0, true⟩, 60, 104⟩

def profileAlloc : CompostAlloc :=
  structAllocInit (layoutFrom [⟨0⟩] solderingProfile) (104 + 4) (sizeDiff16 60 4)

theorem result_not_in_place_solderingProfile :
    ¬ StoredInPlace (.start fun _ => 0) 104 (.struct "SolderingProfile" solderingProfile)
      (structInit solderingProfile (fun _ => 2) profileAlloc).1 :=
  @result_not_in_place "SolderingProfile" solderingProfile profileReply profileAlloc rfl
    (by decide) (fun _ => 2) (.start fun _ => 0)

/-- The list of two numbers is allocated at address 116 and stored at 108. -/
theorem profile_misplaced :
    resultAlloc (some (.struct "SolderingProfile" solderingProfile)) profileReply =
        some profileAlloc ∧
      slicesAll solderingProfile (structInit solderingProfile (fun _ => 2) profileAlloc).1 =
        [(116, 4)] ∧
      ¬ StoredInPlace (.start fun _ => 0) 104 (.struct "SolderingProfile" solderingProfile)
        (structInit solderingProfile (fun _ => 2) profileAlloc).1 := by
  refine ⟨rfl, by decide +kernel, ?_⟩
  unfold StoredInPlace
  decide +kernel

end CompostRpc
