import CompostRpc.CLoadExtent

/-!
# How far the C store functions write

`storedEnd` is the bit position at which the generated store code ends for a C value. The theorem
`storeMember_extent` says, for every type and every value, that the code ends there and that all
it writes lies between its destination pointer and that end.
-/

namespace CompostRpc
open ByteMemory Piece

namespace Machine

theorem storeBytes_eq (m : Machine) (a : ℕ) (bs : List UInt8) :
    m.storeBytes a bs =
      { m with
        mem := ByteMemory.write m.mem a bs
        stores := m.stores ++ List.range' a bs.length } := by
  induction bs generalizing m a with
  | nil => simp [storeBytes]
  | cons b bs ih =>
    have hcons : ByteMemory.write m.mem a (b :: bs) =
        ByteMemory.write (Function.update m.mem a b) (a + 1) bs := by
      have hone : ByteMemory.write m.mem a [b] = Function.update m.mem a b := by
        funext i
        by_cases hi : i = a
        · subst i
          rw [write_of_mem m.mem le_rfl (by simp), Function.update_self, Nat.sub_self]
          rfl
        · rw [Function.update_of_ne hi, ByteMemory.write, if_neg (by simp; omega)]
      rw [← hone]
      exact write_append m.mem a [b] bs
    rw [storeBytes, ih, hcons]
    simp [storeByte, List.range'_succ]

theorem numericStore_mem (n : Numeric) (m : Machine) (dest : ℕ) (v : BitVec n.size.bits) :
    (numericStore n m dest v).1.mem =
      ByteMemory.write m.mem dest (beBytes n.size.bytes v.toNat) := by
  rw [numericStore, storeBytes_eq]

structure StoresWithin (m m' : Machine) (lo hi : ℕ) : Prop where
  loads_eq : m'.loads = m.loads
  handed_eq : m'.handed = m.handed
  stores_eq : ∃ l, m'.stores = m.stores ++ l ∧ ∀ a ∈ l, lo ≤ a ∧ a < hi
  mem_eq : ∀ a, a < lo ∨ hi ≤ a → m'.mem a = m.mem a

theorem StoresWithin.refl (m : Machine) (lo hi : ℕ) : StoresWithin m m lo hi :=
  ⟨rfl, rfl, ⟨[], by simp⟩, fun _ _ => rfl⟩

theorem StoresWithin.mono {m m' : Machine} {lo hi lo' hi' : ℕ} (h : StoresWithin m m' lo hi)
    (hlo : lo' ≤ lo) (hhi : hi ≤ hi') : StoresWithin m m' lo' hi' := by
  obtain ⟨hloads, hhanded, ⟨l, hl, hwithin⟩, hmem⟩ := h
  refine ⟨hloads, hhanded, ⟨l, hl, fun a ha => ?_⟩, fun a ha => hmem a (by omega)⟩
  have hbounds := hwithin a ha
  omega

theorem StoresWithin.trans {m m' m'' : Machine} {lo hi : ℕ} (h : StoresWithin m m' lo hi)
    (h' : StoresWithin m' m'' lo hi) : StoresWithin m m'' lo hi := by
  obtain ⟨hloads, hhanded, ⟨l, hl, hwithin⟩, hmem⟩ := h
  obtain ⟨hloads', hhanded', ⟨l', hl', hwithin'⟩, hmem'⟩ := h'
  refine ⟨hloads'.trans hloads, hhanded'.trans hhanded,
    ⟨l ++ l', by rw [hl', hl, List.append_assoc], fun a ha => ?_⟩,
    fun a ha => (hmem' a ha).trans (hmem a ha)⟩
  rcases List.mem_append.mp ha with ha | ha
  · exact hwithin a ha
  · exact hwithin' a ha

theorem storeBytes_within (m : Machine) (a : ℕ) (bs : List UInt8) :
    StoresWithin m (m.storeBytes a bs) a (a + bs.length) := by
  rw [storeBytes_eq]
  refine ⟨rfl, rfl, ⟨_, rfl, fun i hi => ?_⟩, fun i hi => ?_⟩
  · rw [List.mem_range'_1] at hi
    exact hi
  · exact if_neg (by omega)

theorem storeByte_within (m : Machine) (a : ℕ) (b : UInt8) :
    StoresWithin m (m.storeByte a b) a (a + 1) := storeBytes_within m a [b]

end Machine

open Machine

theorem numericStore_within (n : Numeric) (m : Machine) (dest : ℕ) (v : BitVec n.size.bits) :
    StoresWithin m (numericStore n m dest v).1 dest (dest + n.size.bytes) := by
  have h := storeBytes_within m dest (beBytes n.size.bytes v.toNat)
  rwa [length_beBytes] at h

def sliceBytes (inner : Numeric) (s : Slice) : ℕ := s.len.toNat * inner.size.bytes % 2 ^ 16

theorem sliceStore_within (inner : Numeric) (m : Machine) (dest : ℕ) (s : Slice) :
    StoresWithin m (sliceStore inner m dest s).1 dest (dest + 2 + sliceBytes inner s) := by
  have hcopy : StoresWithin m
      (if s.ptr ≠ dest then m.memcpy (dest + 2) s.ptr (sliceBytes inner s) else m)
      dest (dest + 2 + sliceBytes inner s) := by
    by_cases hp : s.ptr ≠ dest
    · rw [if_pos hp]
      have h := storeBytes_within m (dest + 2) (read m.mem s.ptr (sliceBytes inner s))
      rw [length_read] at h
      exact h.mono (by omega) le_rfl
    · rw [if_neg hp]
      exact .refl _ _ _
  exact hcopy.trans ((numericStore_within .u16 _ dest _).mono le_rfl (Nat.le_add_right _ _))

theorem bituintStoreLoop_within {fuel dest value byteIndex pos width : ℕ} (m : Machine)
    (hf : width ≤ fuel) (hindex : 0 < width → byteIndex = pos / 8) :
    StoresWithin m (bituintStoreLoop fuel m dest value byteIndex pos width) dest
      (dest + (pos + width + 7) / 8) := by
  induction fuel generalizing m byteIndex pos width with
  | zero => exact .refl _ _ _
  | succ fuel ih =>
    by_cases hw : width = 0
    · rw [bituintStoreLoop, if_neg (by omega)]
      exact .refl _ _ _
    · have hbyte := hindex (by omega)
      rw [bituintStoreLoop, if_pos (by omega)]
      simp only [← Nat.min_def]
      have hhi : dest + byteIndex + 1 ≤ dest + (pos + width + 7) / 8 := by omega
      have hlo : dest ≤ dest + byteIndex := Nat.le_add_right _ _
      have hbytes : ∀ b b' : UInt8,
          StoresWithin m ((m.storeByte (dest + byteIndex) b).storeByte (dest + byteIndex) b') dest
            (dest + (pos + width + 7) / 8) := fun b b' =>
        ((storeByte_within m _ b).mono hlo hhi).trans ((storeByte_within _ _ b').mono hlo hhi)
      exact (hbytes _ _).trans
        ((ih _ (by omega) (by intro hrem; omega)).mono le_rfl (by omega))

theorem bituintStore_within (m : Machine) (dest value offset width : ℕ) :
    StoresWithin m (bituintStore m dest value offset width) dest
      (dest + (offset + width + 7) / 8) :=
  bituintStoreLoop_within m le_rfl fun _ => rfl

mutual

/-- The bit position after the value, when the store code for it starts at bit position `o`. -/
def storedEnd (o : ℕ) : (t : WireType) → CValue t → ℕ
  | .bitU width, _ => o + width
  | .enum e, _ =>
    match e.backing.repr with
    | .inr width => o + width
    | .inl n => alignUp o + n.size.bits
  | .num n, _ => alignUp o + n.size.bits
  | .str, s => alignUp o + 8 * (2 + sliceBytes .u8 s)
  | .bytes, s => alignUp o + 8 * (2 + sliceBytes .u8 s)
  | .list inner, s => alignUp o + 8 * (2 + sliceBytes inner s)
  | .struct _ members, vs => storedEndMembers (alignUp o) members vs

def storedEndMembers (o : ℕ) : (ms : Members) → CValues ms → ℕ
  | .nil, _ => alignUp o
  | .cons _ t rest, v => storedEndMembers (storedEnd o t v.1) rest v.2

end

mutual

theorem le_storedEnd (o : ℕ) (t : WireType) (v : CValue t) : o ≤ storedEnd o t v := by
  have hle := le_alignUp o
  match t, v with
  | .bitU width, v => exact Nat.le_add_right _ _
  | .num n, v | .str, v | .bytes, v | .list inner, v =>
    exact hle.trans (Nat.le_add_right _ _)
  | .enum e, v =>
    simp only [storedEnd]
    cases e.backing.repr with
    | inl n => exact hle.trans (Nat.le_add_right _ _)
    | inr width => exact Nat.le_add_right _ _
  | .struct name members, vs => exact hle.trans (le_storedEndMembers _ members vs)

theorem le_storedEndMembers (o : ℕ) (ms : Members) (vs : CValues ms) :
    o ≤ storedEndMembers o ms vs := by
  match ms, vs with
  | .nil, _ => exact le_alignUp o
  | .cons name t rest, v =>
    exact (le_storedEnd o t v.1).trans (le_storedEndMembers _ rest v.2)

end

/-- Store code that starts at pointer `dest` ends at bit position `stop` and writes in between. -/
structure StoreExtent (m : Machine) (dest stop : ℕ) (r : Machine × ℕ × MemUnit) : Prop where
  stop_eq : 8 * r.2.1 + r.2.2.bits = stop
  le_dest : dest ≤ r.2.1
  within : StoresWithin m r.1 dest ((stop + 7) / 8)

theorem StoreExtent.bitField (m : Machine) (dest value width : ℕ) (offset : MemUnit) :
    StoreExtent m dest (8 * dest + offset.bits + width)
      (bituintStore m dest value offset.bits width, dest, offset + ⟨width⟩) := by
  refine ⟨by simp only [MemUnit.add_bits]; omega, le_rfl, ?_⟩
  exact (bituintStore_within m dest value offset.bits width).mono le_rfl (by omega)

/-- Code for a byte-sized value, run behind an alignment. -/
theorem StoreExtent.aligned {m m' : Machine} {dest dest' len : ℕ} {offset : MemUnit}
    (h : StoresWithin m m' (byteAlignPtr dest offset).1 dest')
    (hlen : dest' = (byteAlignPtr dest offset).1 + len) :
    StoreExtent m dest (alignUp (8 * dest + offset.bits) + 8 * len)
      (m', dest', (byteAlignPtr dest offset).2) := by
  obtain ⟨hptr, hoffset, hle⟩ := byteAlignPtr_pos dest offset
  refine ⟨by simp only [hoffset]; omega, by simp only []; omega, h.mono hle (by omega)⟩

mutual

theorem storeMember_extent (m : Machine) (dest : ℕ) (offset : MemUnit) (t : WireType)
    (v : CValue t) :
    StoreExtent m dest (storedEnd (8 * dest + offset.bits) t v)
      (storeMember m dest offset t v) := by
  match t, v with
  | .bitU width, v => exact .bitField m dest _ width offset
  | .num n, v =>
    simp only [storedEnd, n.size_bits]
    exact .aligned (numericStore_within n m _ v) rfl
  | .enum e, v =>
    simp only [storedEnd, storeMember]
    cases e.backing.repr with
    | inl n =>
      simp only [n.size_bits]
      exact .aligned (numericStore_within n m _ _) rfl
    | inr width => exact .bitField m dest _ width offset
  | .str, s => exact .aligned (sliceStore_within .u8 m _ s) (Nat.add_assoc _ _ _)
  | .bytes, s => exact .aligned (sliceStore_within .u8 m _ s) (Nat.add_assoc _ _ _)
  | .list inner, s => exact .aligned (sliceStore_within inner m _ s) (Nat.add_assoc _ _ _)
  | .struct name members, vs =>
    obtain ⟨hptr, hoffset, hle⟩ := byteAlignPtr_pos dest offset
    obtain ⟨hstop, hle', hwithin⟩ :=
      storeMembers_extent m (byteAlignPtr dest offset).1 ⟨0⟩ members vs
    rw [Nat.add_zero, hptr] at hstop hwithin
    refine ⟨?_, hle.trans hle', hwithin.mono hle le_rfl⟩
    simp only [storeMember, storedEnd, hoffset, Nat.add_zero]
    exact hstop

theorem storeMembers_extent (m : Machine) (dest : ℕ) (offset : MemUnit) (ms : Members)
    (vs : CValues ms) :
    8 * (storeMembers m dest offset ms vs).2 = storedEndMembers (8 * dest + offset.bits) ms vs ∧
      dest ≤ (storeMembers m dest offset ms vs).2 ∧
      StoresWithin m (storeMembers m dest offset ms vs).1 dest
        ((storedEndMembers (8 * dest + offset.bits) ms vs + 7) / 8) := by
  match ms, vs with
  | .nil, _ =>
    obtain ⟨hptr, -, hle⟩ := byteAlignPtr_pos dest offset
    exact ⟨hptr, hle, .refl _ _ _⟩
  | .cons name t rest, (v, vs) =>
    obtain ⟨hstop, hle, hwithin⟩ := storeMember_extent m dest offset t v
    obtain ⟨hstop', hle', hwithin'⟩ := storeMembers_extent (storeMember m dest offset t v).1
      (storeMember m dest offset t v).2.1 (storeMember m dest offset t v).2.2 rest vs
    rw [hstop] at hstop' hwithin'
    have hmono := le_storedEndMembers (storedEnd (8 * dest + offset.bits) t v) rest vs
    refine ⟨hstop', hle.trans hle', ?_⟩
    exact (hwithin.mono le_rfl (by simp only [storedEndMembers]; omega)).trans
      (hwithin'.mono hle le_rfl)

end

mutual

theorem storedEnd_shift (d o : ℕ) (t : WireType) (v : CValue t) :
    storedEnd (8 * d + o) t v = 8 * d + storedEnd o t v := by
  match t, v with
  | .bitU width, v => exact Nat.add_assoc _ _ _
  | .num n, v | .str, v | .bytes, v | .list inner, v =>
    simp only [storedEnd, alignUp_add, Nat.add_assoc]
  | .enum e, v =>
    simp only [storedEnd]
    cases e.backing.repr with
    | inl n => simp only [alignUp_add, Nat.add_assoc]
    | inr width => exact Nat.add_assoc _ _ _
  | .struct name members, vs =>
    simp only [storedEnd, alignUp_add]
    exact storedEndMembers_shift d _ members vs

theorem storedEndMembers_shift (d o : ℕ) (ms : Members) (vs : CValues ms) :
    storedEndMembers (8 * d + o) ms vs = 8 * d + storedEndMembers o ms vs := by
  match ms, vs with
  | .nil, _ => exact alignUp_add d o
  | .cons name t rest, v =>
    simp only [storedEndMembers]
    rw [storedEnd_shift, storedEndMembers_shift]

end

def storedSize (t : WireType) (v : CValue t) : ℕ := storedEnd 0 t v / 8

theorem storeMember_offset {t : WireType} (ht : t.isParameter = true) (m : Machine) (dest : ℕ)
    (offset : MemUnit) (c : CValue t) : (storeMember m dest offset t c).2.2.bits = 0 := by
  have hoffset := (byteAlignPtr_pos dest offset).2.1
  cases t with
  | bitU width => cases ht
  | enum e =>
    simp only [WireType.isParameter] at ht
    simp only [storeMember]
    cases he : e.backing.repr with
    | inl n => exact hoffset
    | inr width => rw [he] at ht; cases ht
  | _ => exact hoffset

theorem storeCall_extent {t : WireType} (ht : t.isParameter = true) (m : Machine) (dest : ℕ)
    (v : CValue t) : (storeCall m dest t v).2 = dest + storedSize t v ∧
      StoresWithin m (storeCall m dest t v).1 dest (storeCall m dest t v).2 := by
  obtain ⟨hstop, hle, hwithin⟩ := storeMember_extent m dest ⟨0⟩ t v
  rw [storeMember_offset ht, storedEnd_shift] at hstop
  rw [storedEnd_shift] at hwithin
  simp only [Nat.add_zero] at hstop hwithin
  refine ⟨?_, hwithin.mono le_rfl ?_⟩
  · change (storeMember m dest ⟨0⟩ t v).2.1 = _
    rw [storedSize]
    omega
  · change _ ≤ (storeMember m dest ⟨0⟩ t v).2.1
    omega

end CompostRpc
