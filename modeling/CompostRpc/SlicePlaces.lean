import CompostRpc.CStoreExtent
import CompostRpc.WireFormat

/-!
# Where the C store functions put slices

`sliceStores` are the calls of the slice store functions that the generated store code makes, each
with its destination. They do not depend on the memory: `storedSlices` gives them by the bit
position alone. The prefix that a call writes is still there when the store code is done, since it
goes on behind the slice.
-/

namespace CompostRpc
open ByteMemory Piece Machine

structure StoredSlice where
  dest : ℕ
  ptr : ℕ
  bytes : ℕ

def StoredSlice.region (s : StoredSlice) : ℕ × ℕ := (s.ptr, s.bytes)

def StoredSlice.dataAddr (s : StoredSlice) : ℕ := s.dest + 2

def Slice.storedAt (inner : Numeric) (dest : ℕ) (s : Slice) : StoredSlice :=
  ⟨dest, s.ptr, s.len.toNat * inner.size.bytes⟩

mutual

def sliceStores (m : Machine) (dest : ℕ) (offset : MemUnit) :
    (t : WireType) → CValue t → List StoredSlice
  | .str, s => [Slice.storedAt .u8 (byteAlignPtr dest offset).1 s]
  | .bytes, s => [Slice.storedAt .u8 (byteAlignPtr dest offset).1 s]
  | .list inner, s => [Slice.storedAt inner (byteAlignPtr dest offset).1 s]
  | .struct _ members, vs => sliceStoresAll m (byteAlignPtr dest offset).1 ⟨0⟩ members vs
  | .num _, _ | .bitU _, _ | .enum _, _ => []

def sliceStoresAll (m : Machine) (dest : ℕ) (offset : MemUnit) :
    (ms : Members) → CValues ms → List StoredSlice
  | .nil, _ => []
  | .cons _ t rest, v =>
    let (m', dest', offset') := storeMember m dest offset t v.1
    sliceStores m dest offset t v.1 ++ sliceStoresAll m' dest' offset' rest v.2

end

def sliceStoresCalls (m : Machine) (dest : ℕ) : (ms : Members) → CValues ms → List StoredSlice
  | .nil, _ => []
  | .cons _ t rest, v =>
    let (m', dest') := storeCall m dest t v.1
    sliceStores m dest ⟨0⟩ t v.1 ++ sliceStoresCalls m' dest' rest v.2

mutual

def storedSlices (o : ℕ) : (t : WireType) → CValue t → List StoredSlice
  | .str, s => [Slice.storedAt .u8 (alignUp o / 8) s]
  | .bytes, s => [Slice.storedAt .u8 (alignUp o / 8) s]
  | .list inner, s => [Slice.storedAt inner (alignUp o / 8) s]
  | .struct _ members, vs => storedSlicesAll (alignUp o) members vs
  | .num _, _ | .bitU _, _ | .enum _, _ => []

def storedSlicesAll (o : ℕ) : (ms : Members) → CValues ms → List StoredSlice
  | .nil, _ => []
  | .cons _ t rest, v => storedSlices o t v.1 ++ storedSlicesAll (storedEnd o t v.1) rest v.2

end

mutual

theorem sliceStores_eq (m : Machine) (dest : ℕ) (offset : MemUnit) (t : WireType) (v : CValue t) :
    sliceStores m dest offset t v = storedSlices (8 * dest + offset.bits) t v := by
  obtain ⟨hptr, -, -⟩ := byteAlignPtr_pos dest offset
  have hdiv : alignUp (8 * dest + offset.bits) / 8 = (byteAlignPtr dest offset).1 := by omega
  match t, v with
  | .num n, v | .bitU width, v | .enum e, v => rfl
  | .str, s | .bytes, s | .list inner, s => simp only [sliceStores, storedSlices, hdiv]
  | .struct name members, vs =>
    have hmembers := sliceStoresAll_eq m (byteAlignPtr dest offset).1 ⟨0⟩ members vs
    rw [Nat.add_zero, hptr] at hmembers
    exact hmembers

theorem sliceStoresAll_eq (m : Machine) (dest : ℕ) (offset : MemUnit) (ms : Members)
    (vs : CValues ms) :
    sliceStoresAll m dest offset ms vs = storedSlicesAll (8 * dest + offset.bits) ms vs := by
  match ms, vs with
  | .nil, _ => rfl
  | .cons name t rest, v =>
    obtain ⟨hstop, -, -⟩ := storeMember_extent m dest offset t v.1
    simp only [sliceStoresAll, storedSlicesAll]
    rw [sliceStores_eq, sliceStoresAll_eq, hstop]

end

/-- A parameter or result ends at a byte, so that the next one starts without an alignment. -/
theorem storeCall_end {t : WireType} (ht : t.isParameter = true) (m : Machine) (dest : ℕ)
    (v : CValue t) : 8 * (storeCall m dest t v).2 = storedEnd (8 * dest) t v := by
  obtain ⟨hstop, -, -⟩ := storeMember_extent m dest ⟨0⟩ t v
  rw [storeMember_offset ht] at hstop
  exact hstop

theorem sliceStoresCalls_eq {ms : Members} (hms : ms.areParameters = true) (m : Machine)
    (dest : ℕ) (vs : CValues ms) :
    sliceStoresCalls m dest ms vs = storedSlicesAll (8 * dest) ms vs := by
  induction ms using Members.induction generalizing m dest with
  | nil => rfl
  | cons name t rest ih =>
    simp only [Members.areParameters, Bool.and_eq_true] at hms
    simp only [sliceStoresCalls, storedSlicesAll]
    rw [sliceStores_eq, ih hms.2, storeCall_end hms.1]
    rfl

theorem storeCalls_storedEnd {ms : Members} (hms : ms.areParameters = true) (m : Machine)
    (dest : ℕ) (vs : CValues ms) :
    8 * (storeCalls m dest ms vs).2 = storedEndMembers (8 * dest) ms vs := by
  induction ms using Members.induction generalizing m dest with
  | nil => exact (alignUp_of_mod (by omega)).symm
  | cons name t rest ih =>
    simp only [Members.areParameters, Bool.and_eq_true] at hms
    simp only [storedEndMembers]
    rw [← storeCall_end hms.1 m]
    exact ih hms.2 _ _ vs.2

mutual

theorem map_region_storedSlices (o : ℕ) (t : WireType) (v : CValue t) :
    (storedSlices o t v).map StoredSlice.region = slices t v := by
  match t, v with
  | .num n, v | .bitU width, v | .enum e, v => rfl
  | .str, s | .bytes, s | .list inner, s => rfl
  | .struct name members, vs => exact map_region_storedSlicesAll (alignUp o) members vs

theorem map_region_storedSlicesAll (o : ℕ) (ms : Members) (vs : CValues ms) :
    (storedSlicesAll o ms vs).map StoredSlice.region = slicesAll ms vs := by
  match ms, vs with
  | .nil, _ => rfl
  | .cons name t rest, v =>
    simp only [storedSlicesAll, slicesAll, List.map_append]
    rw [map_region_storedSlices, map_region_storedSlicesAll]

end

def StoredSlice.PrefixIn (mem : ByteMemory) (s : StoredSlice) : Prop :=
  lengthAt mem s.dest = s.bytes % 2 ^ 16

theorem StoredSlice.PrefixIn.within {s : StoredSlice} {m m' : Machine} {lo hi : ℕ}
    (h : s.PrefixIn m.mem) (hstores : StoresWithin m m' lo hi)
    (hout : s.dest + 2 ≤ lo ∨ hi ≤ s.dest) : s.PrefixIn m'.mem := by
  unfold PrefixIn lengthAt at h ⊢
  rw [← h]
  refine congrArg beNat (read_congr fun k hk => hstores.mem_eq _ ?_)
  omega

theorem lengthAt_numericStore (m : Machine) (dest : ℕ) (len : BitVec Numeric.u16.size.bits) :
    lengthAt (numericStore .u16 m dest len).1.mem dest = len.toNat := by
  have hread := read_write_self m.mem dest (beBytes 2 len.toNat)
  rw [length_beBytes] at hread
  calc lengthAt (numericStore .u16 m dest len).1.mem dest
      = beNat (read (ByteMemory.write m.mem dest (beBytes 2 len.toNat)) dest 2) :=
        congrArg (fun mem => lengthAt mem dest) (numericStore_mem .u16 m dest len)
    _ = beNat (beBytes 2 len.toNat) := congrArg beNat hread
    _ = len.toNat := (beNat_beBytes 2 len.toNat).trans (Nat.mod_eq_of_lt len.isLt)

theorem sliceStore_prefix (inner : Numeric) (m : Machine) (dest : ℕ) (s : Slice) :
    (s.storedAt inner dest).PrefixIn (sliceStore inner m dest s).1.mem := by
  have hcount : (BitVec.ofNat 16 (s.len.toNat * inner.size.bytes % 2 ^ 16)).toNat =
      s.len.toNat * inner.size.bytes % 2 ^ 16 := by
    rw [BitVec.toNat_ofNat, Nat.mod_mod]
  exact (lengthAt_numericStore _ dest _).trans hcount

structure PrefixesStored (lo : ℕ) (stored : List StoredSlice) (mem : ByteMemory) (hi : ℕ) :
    Prop where
  within : ∀ s ∈ stored, lo ≤ s.dest ∧ s.dest + 2 ≤ hi
  prefixes : ∀ s ∈ stored, s.PrefixIn mem

theorem PrefixesStored.nil (lo : ℕ) (mem : ByteMemory) (hi : ℕ) : PrefixesStored lo [] mem hi :=
  ⟨fun _ hs => (nomatch hs), fun _ hs => (nomatch hs)⟩

theorem PrefixesStored.mono {lo lo' hi hi' : ℕ} {stored : List StoredSlice} {mem : ByteMemory}
    (h : PrefixesStored lo stored mem hi) (hlo : lo' ≤ lo) (hhi : hi ≤ hi') :
    PrefixesStored lo' stored mem hi' := by
  refine ⟨fun s hs => ?_, h.prefixes⟩
  have hbounds := h.within s hs
  omega

theorem PrefixesStored.append {lo mid hi stop : ℕ} {stored stored' : List StoredSlice}
    {m m' : Machine} (h : PrefixesStored lo stored m.mem mid) (hstores : StoresWithin m m' mid stop)
    (h' : PrefixesStored mid stored' m'.mem hi) (hlo : lo ≤ mid) (hhi : mid ≤ hi) :
    PrefixesStored lo (stored ++ stored') m'.mem hi := by
  refine ⟨fun s hs => ?_, fun s hs => ?_⟩
  · rcases List.mem_append.mp hs with hs | hs
    · exact (h.mono le_rfl hhi).within s hs
    · exact (h'.mono hlo le_rfl).within s hs
  · rcases List.mem_append.mp hs with hs | hs
    · exact (h.prefixes s hs).within hstores (.inl (h.within s hs).2)
    · exact h'.prefixes s hs

theorem PrefixesStored.slice (inner : Numeric) (m : Machine) (dest : ℕ) (offset : MemUnit)
    (s : Slice) :
    PrefixesStored dest [s.storedAt inner (byteAlignPtr dest offset).1]
      (sliceStore inner m (byteAlignPtr dest offset).1 s).1.mem
      (sliceStore inner m (byteAlignPtr dest offset).1 s).2 := by
  obtain ⟨-, -, hle⟩ := byteAlignPtr_pos dest offset
  refine ⟨fun r hr => ?_, fun r hr => ?_⟩
  · cases List.mem_singleton.mp hr
    exact ⟨hle, Nat.le_add_right _ _⟩
  · cases List.mem_singleton.mp hr
    exact sliceStore_prefix inner m _ s

mutual

theorem storeMember_prefixes (m : Machine) (dest : ℕ) (offset : MemUnit) (t : WireType)
    (v : CValue t) :
    PrefixesStored dest (sliceStores m dest offset t v) (storeMember m dest offset t v).1.mem
      (storeMember m dest offset t v).2.1 := by
  match t, v with
  | .num n, v | .bitU width, v | .enum e, v => exact .nil _ _ _
  | .str, s | .bytes, s => exact .slice .u8 m dest offset s
  | .list inner, s => exact .slice inner m dest offset s
  | .struct name members, vs =>
    obtain ⟨-, -, hle⟩ := byteAlignPtr_pos dest offset
    exact (storeMembers_prefixes m _ ⟨0⟩ members vs).mono hle le_rfl

theorem storeMembers_prefixes (m : Machine) (dest : ℕ) (offset : MemUnit) (ms : Members)
    (vs : CValues ms) :
    PrefixesStored dest (sliceStoresAll m dest offset ms vs)
      (storeMembers m dest offset ms vs).1.mem (storeMembers m dest offset ms vs).2 := by
  match ms, vs with
  | .nil, _ => exact .nil _ _ _
  | .cons name t rest, v =>
    obtain ⟨-, hle, -⟩ := storeMember_extent m dest offset t v.1
    obtain ⟨-, hle', hwithin⟩ := storeMembers_extent (storeMember m dest offset t v.1).1
      (storeMember m dest offset t v.1).2.1 (storeMember m dest offset t v.1).2.2 rest v.2
    exact (storeMember_prefixes m dest offset t v.1).append hwithin
      (storeMembers_prefixes _ _ _ rest v.2) hle hle'

end

theorem storeCalls_within {ms : Members} (hms : ms.areParameters = true) (m : Machine) (dest : ℕ)
    (vs : CValues ms) : dest ≤ (storeCalls m dest ms vs).2 ∧
      StoresWithin m (storeCalls m dest ms vs).1 dest (storeCalls m dest ms vs).2 := by
  induction ms using Members.induction generalizing m dest with
  | nil => exact ⟨le_rfl, .refl _ _ _⟩
  | cons name t rest ih =>
    simp only [Members.areParameters, Bool.and_eq_true] at hms
    obtain ⟨hdest, hwithin⟩ := storeCall_extent hms.1 m dest vs.1
    obtain ⟨hle, hwithin'⟩ := ih hms.2 (storeCall m dest t vs.1).1 (storeCall m dest t vs.1).2 vs.2
    have hfirst : dest ≤ (storeCall m dest t vs.1).2 := by omega
    exact ⟨hfirst.trans hle, (hwithin.mono le_rfl hle).trans (hwithin'.mono hfirst le_rfl)⟩

theorem storeCalls_prefixes {ms : Members} (hms : ms.areParameters = true) (m : Machine)
    (dest : ℕ) (vs : CValues ms) :
    PrefixesStored dest (sliceStoresCalls m dest ms vs) (storeCalls m dest ms vs).1.mem
      (storeCalls m dest ms vs).2 := by
  induction ms using Members.induction generalizing m dest with
  | nil => exact .nil _ _ _
  | cons name t rest ih =>
    simp only [Members.areParameters, Bool.and_eq_true] at hms
    obtain ⟨hle, -⟩ := storeCall_extent hms.1 m dest vs.1
    obtain ⟨hle', hwithin⟩ := storeCalls_within hms.2 (storeCall m dest t vs.1).1
      (storeCall m dest t vs.1).2 vs.2
    exact (storeMember_prefixes m dest ⟨0⟩ t vs.1).append hwithin (ih hms.2 _ _ vs.2)
      (by change dest ≤ (storeCall m dest t vs.1).2; omega) hle'

end CompostRpc
