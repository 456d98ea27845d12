import CompostRpc.Stretches

/-!
# Allocation of the slices of a struct in C

`T_init` asks the allocator for the slices of a struct in the order of its members. The allocator
that `T_alloc_init` sets up is a bump allocator whose gaps are the suffixes: `compostAllocNext`
follows `BumpAllocator.next`, with requests and suffixes reduced to 16 bits.
-/

namespace CompostRpc
open ByteMemory BumpAllocator

/-- `compost_alloc_next`; the address zero is the null pointer. -/
def compostAllocNext (alloc : CompostAlloc) (len : ℕ) : ℕ × CompostAlloc :=
  let len : ℕ := len % 2 ^ 16
  let capacity : ℤ := alloc.buffer.len.toNat - ((alloc.ptr : ℤ) - alloc.buffer.ptr)
  if (len : ℤ) > capacity ∨
      (alloc.suffixes.isSome = true ∧ alloc.allocCtr ≥ alloc.suffixesLen) then (0, alloc)
  else
    let ret := alloc.ptr
    let ptr : ℕ := alloc.ptr + len
    let ptr : ℕ :=
      if alloc.suffixesLen > 0 then
        ptr + (alloc.suffixes.getD []).getD alloc.allocCtr.toNat 0 % 2 ^ 16
      else ptr
    (ret, { alloc with ptr := ptr, allocCtr := alloc.allocCtr + 1 })

def sliceNew (inner : Numeric) (alloc : CompostAlloc) (len : UInt16) : Slice × CompostAlloc :=
  let (ptr, alloc) := compostAllocNext alloc (inner.size.bytes * len.toNat)
  (⟨ptr, if ptr = 0 then 0 else len⟩, alloc)

mutual

def memberDynamicNames (name : String) : WireType → List String
  | .str | .bytes | .list _ => [name]
  | .struct _ members => (dynamicMemberNames members).map fun x => name ++ "_" ++ x
  | .num _ | .bitU _ | .enum _ => []

def dynamicMemberNames : Members → List String
  | .nil => []
  | .cons name t rest => memberDynamicNames name t ++ dynamicMemberNames rest

end

/-- What the `T_init` of a struct passes to that of a nested one for the length of `x`: the first of
its own lengths whose name ends with `x`. -/
def nestedLen (names : List String) (lens : String → UInt16) (x : String) : UInt16 :=
  match names.find? fun y => x.toList.isSuffixOf y.toList with
  | some y => lens y
  | none => 0

mutual

/-- `_member_default_value` in the `T_init` with the length parameters `names`. -/
def memberInit (names : List String) (lens : String → UInt16) (name : String)
    (alloc : CompostAlloc) : (t : WireType) → CValue t × CompostAlloc
  | .num _ => ((0 : BitVec _), alloc)
  | .bitU _ => ((0 : BitVec _), alloc)
  | .str => sliceNew .u8 alloc (lens name)
  | .bytes => sliceNew .u8 alloc (lens name)
  | .list inner => sliceNew inner alloc (lens name)
  | .struct _ members =>
    membersInit (dynamicMemberNames members) (nestedLen names lens) alloc members
  | .enum e =>
    match e.backing.repr with
    | .inr _ => ((0 : BitVec 32), alloc)
    | .inl _ => (BitVec.ofInt 32 (e.values.headD 0), alloc)

def membersInit (names : List String) (lens : String → UInt16) (alloc : CompostAlloc) :
    (ms : Members) → CValues ms × CompostAlloc
  | .nil => ((), alloc)
  | .cons name t rest =>
    let (v, alloc) := memberInit names lens name alloc t
    let (vs, alloc) := membersInit names lens alloc rest
    ((v, vs), alloc)

end

/-- `T_init`; `lens` are its length parameters by name. -/
def structInit (members : Members) (lens : String → UInt16) (alloc : CompostAlloc) :
    CValues members × CompostAlloc :=
  membersInit (dynamicMemberNames members) lens alloc members

abbrev SliceRequest := Numeric × UInt16

def SliceRequest.bytes (r : SliceRequest) : ℕ := r.2.toNat * r.1.size.bytes

def SliceRequest.asked (r : SliceRequest) : ℕ := r.bytes % 2 ^ 16

theorem SliceRequest.asked_eq (r : SliceRequest) :
    r.1.size.bytes * r.2.toNat % 2 ^ 16 = r.asked := by
  rw [asked, bytes, Nat.mul_comm]

mutual

def memberRequests (names : List String) (lens : String → UInt16) (name : String) :
    WireType → List SliceRequest
  | .num _ | .bitU _ | .enum _ => []
  | .str | .bytes => [(.u8, lens name)]
  | .list inner => [(inner, lens name)]
  | .struct _ members => membersRequests (dynamicMemberNames members) (nestedLen names lens) members

def membersRequests (names : List String) (lens : String → UInt16) : Members → List SliceRequest
  | .nil => []
  | .cons name t rest => memberRequests names lens name t ++ membersRequests names lens rest

end

def structRequests (members : Members) (lens : String → UInt16) : List SliceRequest :=
  membersRequests (dynamicMemberNames members) lens members

def allocSlices (alloc : CompostAlloc) : List SliceRequest → List (ℕ × ℕ) × CompostAlloc
  | [] => ([], alloc)
  | r :: rs =>
    let (s, alloc) := sliceNew r.1 alloc r.2
    let (regions, alloc) := allocSlices alloc rs
    (s.region r.1 :: regions, alloc)

theorem allocSlices_append (alloc : CompostAlloc) (rs rs' : List SliceRequest) :
    allocSlices alloc (rs ++ rs') =
      ((allocSlices alloc rs).1 ++ (allocSlices (allocSlices alloc rs).2 rs').1,
        (allocSlices (allocSlices alloc rs).2 rs').2) := by
  induction rs generalizing alloc with
  | nil => rfl
  | cons r rs ih => simp only [List.cons_append, allocSlices, ih]

mutual

theorem memberInit_slices (names : List String) (lens : String → UInt16) (name : String)
    (alloc : CompostAlloc) (t : WireType) :
    (slices t (memberInit names lens name alloc t).1, (memberInit names lens name alloc t).2) =
      allocSlices alloc (memberRequests names lens name t) := by
  match t with
  | .num n | .bitU width | .str | .bytes | .list inner => rfl
  | .enum e =>
    simp only [memberInit, slices]
    cases e.backing.repr <;> rfl
  | .struct sname members =>
    exact membersInit_slices (dynamicMemberNames members) (nestedLen names lens) alloc members

theorem membersInit_slices (names : List String) (lens : String → UInt16) (alloc : CompostAlloc)
    (ms : Members) :
    (slicesAll ms (membersInit names lens alloc ms).1, (membersInit names lens alloc ms).2) =
      allocSlices alloc (membersRequests names lens ms) := by
  match ms with
  | .nil => rfl
  | .cons name t rest =>
    have hfirst := memberInit_slices names lens name alloc t
    have hrest := membersInit_slices names lens (memberInit names lens name alloc t).2 rest
    simp only [membersRequests]
    rw [allocSlices_append, ← hfirst, ← hrest]
    rfl

end

theorem slicesAll_structInit (members : Members) (lens : String → UInt16) (alloc : CompostAlloc) :
    slicesAll members (structInit members lens alloc).1 =
      (allocSlices alloc (structRequests members lens)).1 :=
  congrArg Prod.fst (membersInit_slices (dynamicMemberNames members) lens alloc members)

structure CompostAlloc.Follows (alloc : CompostAlloc) (base cap : ℕ) (s : State) : Prop where
  ptr_eq : alloc.ptr = base + s.used
  base_eq : alloc.buffer.ptr = base
  cap_eq : alloc.buffer.len.toNat = cap
  suffixes_eq : ∃ suffixes, alloc.suffixes = some suffixes ∧
    alloc.suffixesLen.toNat ≤ suffixes.length ∧
    s.gaps = ((suffixes.map (· % 2 ^ 16)).take alloc.suffixesLen.toNat).drop alloc.allocCtr.toNat

/-- The address of a block behind `base`; null for a refused request. -/
def blockPtr (base : ℕ) : Option ℕ → ℕ
  | none => 0
  | some u => base + u

/-- Behind the counted suffixes the abstract state has no gap left. -/
theorem CompostAlloc.Follows.gaps_eq_nil {alloc : CompostAlloc} {base cap : ℕ} {s : State}
    (h : alloc.Follows base cap s) (hctr : alloc.suffixesLen ≤ alloc.allocCtr) : s.gaps = [] := by
  obtain ⟨suffixes, -, -, hgaps⟩ := h.suffixes_eq
  rw [hgaps, List.drop_eq_nil_iff, List.length_take]
  exact (Nat.min_le_left _ _).trans (UInt16.le_iff_toNat_le.mp hctr)

/-- The counter does not wrap in front of the counted suffixes. -/
theorem toNat_succ_of_lt {i n : UInt16} (h : i < n) : (i + 1).toNat = i.toNat + 1 := by
  have hle := n.toNat_lt
  have hlt := UInt16.lt_iff_toNat_lt.mp h
  rw [UInt16.toNat_add, show (1 : UInt16).toNat = 1 from rfl]
  omega

/-- The next counted suffix is the first gap. -/
theorem drop_suffixes_eq_cons {suffixes : List ℕ} {i n : UInt16} (h : i < n)
    (hlength : n.toNat ≤ suffixes.length) :
    ((suffixes.map (· % 2 ^ 16)).take n.toNat).drop i.toNat =
      suffixes.getD i.toNat 0 % 2 ^ 16 ::
        ((suffixes.map (· % 2 ^ 16)).take n.toNat).drop (i + 1).toNat := by
  have hlt := UInt16.lt_iff_toNat_lt.mp h
  have hmem : i.toNat < suffixes.length := by omega
  have hget : i.toNat < ((suffixes.map (· % 2 ^ 16)).take n.toNat).length := by
    rw [List.length_take, List.length_map]
    omega
  rw [toNat_succ_of_lt h, List.drop_eq_getElem_cons hget]
  simp [List.getD_eq_getElem?_getD, hmem]

theorem compostAllocNext_follows {alloc : CompostAlloc} {base cap : ℕ} {s : State}
    (h : alloc.Follows base cap s) (len : ℕ) :
    (compostAllocNext alloc len).1 = blockPtr base (next cap s (len % 2 ^ 16)).1 ∧
      (compostAllocNext alloc len).2.Follows base cap (next cap s (len % 2 ^ 16)).2 := by
  have hnil := h.gaps_eq_nil
  obtain ⟨ptr, suffixes?, ⟨bufPtr, bufLen⟩, suffixesLen, ctr⟩ := alloc
  obtain ⟨used, gaps⟩ := s
  obtain ⟨hptr, hbase, hcap, suffixes, hsuffixes, hlength, hgaps⟩ := h
  simp only at hptr hbase hcap hsuffixes hlength hgaps hnil
  subst hptr hbase hcap hsuffixes
  have hcapacity : ((len % 2 ^ 16 : ℕ) : ℤ) >
      (bufLen.toNat : ℤ) - (((bufPtr + used : ℕ) : ℤ) - bufPtr) ↔
      bufLen.toNat < used + len % 2 ^ 16 := by omega
  by_cases hctr : suffixesLen ≤ ctr
  · -- no suffix is left
    obtain rfl := hnil hctr
    rw [compostAllocNext, if_pos (Or.inr ⟨rfl, hctr⟩)]
    exact ⟨rfl, rfl, rfl, rfl, suffixes, rfl, hlength, hgaps⟩
  · have hlt := UInt16.not_le.mp hctr
    rw [drop_suffixes_eq_cons hlt hlength] at hgaps
    subst hgaps
    by_cases hfits : used + len % 2 ^ 16 ≤ bufLen.toNat
    · have haccept : ¬ (((len % 2 ^ 16 : ℕ) : ℤ) >
          (bufLen.toNat : ℤ) - (((bufPtr + used : ℕ) : ℤ) - bufPtr) ∨
          (some suffixes).isSome = true ∧ ctr ≥ suffixesLen) := by
        rintro (hlarge | hlate)
        · omega
        · exact hctr hlate.2
      have hpos : suffixesLen > 0 := by
        rw [gt_iff_lt, UInt16.lt_iff_toNat_lt]
        exact Nat.zero_lt_of_lt (UInt16.lt_iff_toNat_lt.mp hlt)
      rw [compostAllocNext, if_neg haccept, next_of_le hfits]
      refine ⟨rfl, ?_, rfl, rfl, suffixes, rfl, hlength, rfl⟩
      simp only [if_pos hpos, Option.getD_some]
      omega
    · have hlarge := Nat.not_le.mp hfits
      rw [compostAllocNext, if_pos (Or.inl (hcapacity.mpr hlarge)), next_of_lt hlarge]
      refine ⟨rfl, rfl, rfl, rfl, suffixes, rfl, hlength, ?_⟩
      exact (drop_suffixes_eq_cons hlt hlength).symm

def blockRegion (base : ℕ) (p : Option ℕ × SliceRequest) : ℕ × ℕ :=
  match p.1 with
  | none => (0, 0)
  | some u => (base + u, p.2.bytes)

theorem blockRegion_ne_zero_iff {base : ℕ} (hbase : 0 < base) (p : Option ℕ × SliceRequest) :
    (blockRegion base p).1 ≠ 0 ↔ p.1 ≠ none := by
  obtain ⟨u | u, r⟩ := p
  · exact iff_of_false (fun h => h rfl) fun h => h rfl
  · exact iff_of_true (show base + u ≠ 0 by omega) (Option.some_ne_none u)

theorem sliceNew_region {alloc : CompostAlloc} {base cap : ℕ} {s : State}
    (h : alloc.Follows base cap s) (hbase : 0 < base) (r : SliceRequest) :
    (sliceNew r.1 alloc r.2).1.region r.1 = blockRegion base ((next cap s r.asked).1, r) := by
  obtain ⟨hptr, -⟩ := compostAllocNext_follows h (r.1.size.bytes * r.2.toNat)
  rw [r.asked_eq] at hptr
  simp only [sliceNew, Slice.region, hptr, blockRegion]
  cases (next cap s r.asked).1 with
  | none => simp [blockPtr]
  | some u =>
    have hne : base + u ≠ 0 := by omega
    exact congrArg (fun len : UInt16 => (base + u, len.toNat * r.1.size.bytes)) (if_neg hne)

theorem allocSlices_eq {alloc : CompostAlloc} {base cap : ℕ} {s : State}
    (h : alloc.Follows base cap s) (hbase : 0 < base) (rs : List SliceRequest) :
    (allocSlices alloc rs).1 =
      ((run cap s (rs.map SliceRequest.asked)).zip rs).map (blockRegion base) := by
  induction rs generalizing alloc s with
  | nil => rfl
  | cons r rs ih =>
    obtain ⟨-, hfollows⟩ := compostAllocNext_follows h (r.1.size.bytes * r.2.toNat)
    rw [r.asked_eq] at hfollows
    simp only [allocSlices, List.map_cons, run, List.zip_cons_cons]
    rw [sliceNew_region h hbase]
    exact congrArg _ (ih hfollows)

def allStretches (members : Members) : List Stretch :=
  (structStretches members).1 ++ [(structStretches members).2]

def headBytes (members : Members) : ℕ := ((allStretches members).headD ⟨0, 0⟩).layoutBytes

def suffixGaps (members : Members) : List ℕ :=
  (((allStretches members).tail.map Stretch.layoutBytes).map (· % 2 ^ 16)).take
    ((allStretches members).tail.length % 2 ^ 16)

theorem layout_eq_map (members : Members) :
    layoutFrom [⟨0⟩] members = (allStretches members).map fun s => ⟨s.sum⟩ := by
  rw [layout_eq, stretchSums, allStretches, List.map_append]
  rfl

theorem headD_layout_bytes (members : Members) :
    ((layoutFrom [⟨0⟩] members).headD ⟨0⟩).bytes = headBytes members := by
  rw [layout_eq_map, headBytes]
  cases allStretches members <;> rfl

theorem structAllocInit_follows (members : Members) (txBuf txBufLen : ℕ) :
    (structAllocInit (layoutFrom [⟨0⟩] members) txBuf txBufLen).Follows
      (txBuf + 4 + headBytes members) (txBufLen % 2 ^ 16) ⟨0, suffixGaps members⟩ := by
  have hsuffixes : ((layoutFrom [⟨0⟩] members).drop 1).map MemUnit.bytes =
      (allStretches members).tail.map Stretch.layoutBytes := by
    rw [layout_eq_map, List.drop_one, ← List.map_tail, List.map_map]
    rfl
  refine ⟨?_, ?_, UInt16.toNat_ofNat', _, rfl, ?_, ?_⟩
  · exact congrArg (txBuf + 4 + ·) (headD_layout_bytes members)
  · exact congrArg (txBuf + 4 + ·) (headD_layout_bytes members)
  · simp only [structAllocInit]
    rw [UInt16.toNat_ofNat']
    exact Nat.mod_le _ _
  · simp only [structAllocInit, hsuffixes, List.length_map]
    rw [UInt16.toNat_ofNat']
    rfl

/-- The slices that `T_init` gets from the allocator of `T_alloc_init`. -/
theorem slicesAll_structInit_eq (members : Members) (lens : String → UInt16)
    (txBuf txBufLen : ℕ) :
    slicesAll members (structInit members lens
        (structAllocInit (layoutFrom [⟨0⟩] members) txBuf txBufLen)).1 =
      ((run (txBufLen % 2 ^ 16) ⟨0, suffixGaps members⟩
        ((structRequests members lens).map SliceRequest.asked)).zip
          (structRequests members lens)).map (blockRegion (txBuf + 4 + headBytes members)) := by
  rw [slicesAll_structInit]
  exact allocSlices_eq (structAllocInit_follows members txBuf txBufLen) (by omega) _

theorem length_structRequests (members : Members) (lens : String → UInt16) :
    (structRequests members lens).length = (structStretches members).1.length := by
  have hslices := length_stretchesAll ⟨0, 0⟩ members
    (structInit members lens (structAllocInit (layoutFrom [⟨0⟩] members) 0 0)).1
  rw [slicesAll_structInit_eq, List.length_map, List.length_zip, length_run, List.length_map,
    Nat.min_self] at hslices
  exact hslices.symm

/-- The allocator that the handler of a struct result gets: the base is moved behind the head of the
payload once by the generated code of the call and once more by `T_alloc_init`. -/
theorem resultAlloc_struct {name : String} {members : Members} {tx : CompostMsg}
    {alloc : CompostAlloc} (h : resultAlloc (some (.struct name members)) tx = some alloc) :
    (structStretches members).1 ≠ [] ∧
      alloc = structAllocInit (layoutFrom [⟨0⟩] members) (tx.payloadBuf + headBytes members)
        (sizeDiff16 tx.payloadBufSize (headBytes members)) := by
  have hlength : (layoutFrom [⟨0⟩] members).length = (structStretches members).1.length + 1 := by
    rw [layout_eq_map, List.length_map, allStretches, List.length_append, List.length_singleton]
  simp only [resultAlloc, headD_layout_bytes, hlength] at h
  split at h
  · rename_i hdynamic
    cases h
    refine ⟨fun hnil => ?_, rfl⟩
    rw [hnil] at hdynamic
    exact absurd hdynamic (by decide)
  · cases h

theorem map_blockRegion_granted {base : ℕ} {os : List ℕ} {rs : List SliceRequest}
    (h : os.length = rs.length) :
    (((os.map some).zip rs).map (blockRegion base)).map Prod.fst = os.map (base + ·) ∧
      (((os.map some).zip rs).map (blockRegion base)).map Prod.snd =
        rs.map SliceRequest.bytes := by
  induction rs generalizing os with
  | nil =>
    rw [List.length_eq_zero_iff.mp h]
    exact ⟨rfl, rfl⟩
  | cons r rs ih =>
    obtain ⟨o, os, rfl⟩ := List.exists_cons_of_length_eq_add_one h
    obtain ⟨hfst, hsnd⟩ := ih (Nat.succ.inj h)
    exact ⟨congrArg _ hfst, congrArg _ hsnd⟩

/-- No slice is null exactly if the abstract allocator grants every request. -/
theorem forall_blockRegion_ne_zero_iff {base cap : ℕ} (hbase : 0 < base) {s : State}
    {rs : List SliceRequest} :
    (∀ r ∈ ((run cap s (rs.map SliceRequest.asked)).zip rs).map (blockRegion base), r.1 ≠ 0) ↔
      none ∉ run cap s (rs.map SliceRequest.asked) := by
  have hlength : (run cap s (rs.map SliceRequest.asked)).length = rs.length := by
    rw [length_run, List.length_map]
  rw [List.forall_mem_map]
  constructor
  · intro h hnone
    rw [← List.map_fst_zip hlength.le] at hnone
    obtain ⟨p, hp, hfst⟩ := List.mem_map.mp hnone
    exact (blockRegion_ne_zero_iff hbase p).mp (h p hp) hfst
  · intro h p hp
    rw [blockRegion_ne_zero_iff hbase]
    intro hfst
    exact h (hfst ▸ (List.of_mem_zip hp).1)

end CompostRpc
