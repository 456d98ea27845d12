import CompostRpc.LoadStored
import CompostRpc.PackedIntegers
import CompostRpc.StoreLayout
import Mathlib.Data.List.Pairwise

/-!
# Packed fields that are written in any order

A packed field has a place in a buffer, and a value of an unsigned C# type that fits its width. The
loops of `BitU.pack`, `compost_bituint_store` and `SerializePackedPrimitive` store its bits, the
most significant one first, and fields that lie apart can be written in any order. Only the first
step of `SerializePackedPrimitive` looks at the type, and knows no `ulong`.
-/

namespace CompostRpc
open ByteMemory Piece Serialization
open scoped List

structure PackedField where
  offset : ℕ
  width : ℕ
  type : Numeric
  value : BitVec type.size.bits
  width_le : width ≤ 32
  unsigned : type.kind = .unsigned
  value_lt : value.toNat < 2 ^ width

namespace PackedField

def Covers (f : PackedField) (i : ℕ) : Prop := f.offset ≤ i ∧ i < f.offset + f.width

/-- The two fields have no bit in common; adjacent fields have none. -/
def Apart (f g : PackedField) : Prop :=
  f.offset + f.width ≤ g.offset ∨ g.offset + g.width ≤ f.offset

def Inside (f : PackedField) (buffer : List UInt8) : Prop :=
  f.offset + f.width ≤ 8 * buffer.length

def write (m : ByteMemory) (o : ℕ) (f : PackedField) : ByteMemory :=
  (bits f.width f.value.toNat).write m (o + f.offset)

instance : Std.Symm Apart := ⟨fun _ _ h => h.symm⟩

theorem bitAt_write (m : ByteMemory) (o : ℕ) (f : PackedField) (i : ℕ) :
    bitAt (f.write m o) i =
      if o + f.offset ≤ i ∧ i < o + f.offset + f.width then
        f.value.toNat.testBit (o + f.offset + f.width - 1 - i)
      else bitAt m i := bitAt_storeBits _ _ _ _ _ _ le_rfl

/-- Two fields that lie apart do not disturb each other. -/
theorem write_comm {f g : PackedField} (h : f.Apart g) (m : ByteMemory) (o : ℕ) :
    g.write (f.write m o) o = f.write (g.write m o) o := by
  apply eq_of_bits
  intro i
  simp only [bitAt_write]
  by_cases hf : o + f.offset ≤ i ∧ i < o + f.offset + f.width
  · have hg : ¬ (o + g.offset ≤ i ∧ i < o + g.offset + g.width) := by
      unfold Apart at h
      omega
    rw [if_neg hg, if_pos hf, if_pos hf]
  · rw [if_neg hf, if_neg hf]

end PackedField

open PackedField

def writeFields (m : ByteMemory) (o : ℕ) (fs : List PackedField) : ByteMemory :=
  fs.foldl (fun m f => f.write m o) m

theorem writeFields_cons (m : ByteMemory) (o : ℕ) (f : PackedField) (fs : List PackedField) :
    writeFields m o (f :: fs) = writeFields (f.write m o) o fs := rfl

theorem writeFields_perm {fs fs' : List PackedField} (hperm : fs' ~ fs)
    (hapart : fs.Pairwise Apart) (m : ByteMemory) (o : ℕ) :
    writeFields m o fs' = writeFields m o fs := by
  apply hperm.foldl_eq'
  intro f hf g hg z
  by_cases heq : f = g
  · rw [heq]
  · exact write_comm (hapart.forall (hperm.subset hf) (hperm.subset hg) heq) z o

theorem bitAt_writeFields_of_not_covers (m : ByteMemory) (o : ℕ) {fs : List PackedField} {i : ℕ}
    (h : ∀ f ∈ fs, ¬ (o + f.offset ≤ i ∧ i < o + f.offset + f.width)) :
    bitAt (writeFields m o fs) i = bitAt m i := by
  induction fs generalizing m with
  | nil => rfl
  | cons f fs ih =>
    rw [writeFields_cons, ih _ fun g hg => h g (List.mem_cons_of_mem f hg), bitAt_write,
      if_neg (h f List.mem_cons_self)]

/-- A field holds its value, whatever was written apart from it. -/
theorem at_writeFields {fs : List PackedField} (hapart : fs.Pairwise Apart) (m : ByteMemory)
    (o : ℕ) {f : PackedField} (hf : f ∈ fs) :
    (bits f.width f.value.toNat).At (writeFields m o fs) (o + f.offset) := by
  induction fs generalizing m with
  | nil => cases hf
  | cons g fs ih =>
    obtain ⟨hg, hrest⟩ := List.pairwise_cons.mp hapart
    rw [writeFields_cons]
    rcases List.mem_cons.mp hf with rfl | htail
    · have hstored := at_write m (bits f.width f.value.toNat) (o + f.offset)
      intro k hk
      have hout : ∀ g ∈ fs,
          ¬ (o + g.offset ≤ o + f.offset + k ∧ o + f.offset + k < o + g.offset + g.width) := by
        intro g' hg'
        have := hg g' hg'
        unfold Apart at this
        omega
      rw [bitAt_writeFields_of_not_covers _ _ hout]
      exact hstored k hk
    · exact ih hrest _ htail

theorem bitAt_writeFields_shift {m m' : ByteMemory} {dest i : ℕ} (fs : List PackedField)
    (h : bitAt m (8 * dest + i) = bitAt m' i) :
    bitAt (writeFields m (8 * dest) fs) (8 * dest + i) = bitAt (writeFields m' 0 fs) i := by
  induction fs generalizing m m' with
  | nil => exact h
  | cons f fs ih =>
    rw [writeFields_cons, writeFields_cons]
    apply ih
    rw [PackedField.write, PackedField.write, Nat.zero_add]
    exact bitAt_write_shift _ _ h

/-- A memory that holds the buffer at `dest` gets there what the buffer gets. -/
theorem writeFields_eq_write {m : ByteMemory} {dest : ℕ} {buffer buffer' : List UInt8}
    (hmem : read m dest buffer.length = buffer) {fs : List PackedField}
    (hinside : ∀ f ∈ fs, f.Inside buffer) (hlength : buffer'.length = buffer.length)
    (hwritten : ofList buffer' = writeFields (ofList buffer) 0 fs) :
    writeFields m (8 * dest) fs = ByteMemory.write m dest buffer' := by
  apply eq_of_bits
  intro i
  by_cases hi : 8 * dest ≤ i ∧ i < 8 * dest + 8 * buffer.length
  · obtain ⟨k, rfl⟩ := Nat.exists_eq_add_of_le hi.1
    have hk : k < 8 * buffer.length := by omega
    have hold := bitAt_ofList_read m dest buffer.length k
    have hnew := bitAt_ofList_read (ByteMemory.write m dest buffer') dest buffer'.length k
    rw [hmem, if_pos hk] at hold
    rw [read_write_self, if_pos (hlength ▸ hk)] at hnew
    rw [← hnew, hwritten]
    exact bitAt_writeFields_shift fs hold.symm
  · have hout : ∀ f ∈ fs,
        ¬ (8 * dest + f.offset ≤ i ∧ i < 8 * dest + f.offset + f.width) := by
      intro f hf
      have hroom := hinside f hf
      unfold Inside at hroom
      omega
    rw [bitAt_writeFields_of_not_covers _ _ hout]
    by_cases hlow : i / 8 < dest
    · exact (bitAt_congr (write_of_lt m buffer' hlow)).symm
    · exact (bitAt_congr (write_of_ge m buffer' (by omega))).symm

/-- The fields written one after the other, by a function that is given the buffer. -/
def writeEach {ε : Type} (write : PackedField → List UInt8 → Except ε (List UInt8 × MemUnit)) :
    List PackedField → List UInt8 → Except ε (List UInt8)
  | [], buffer => .ok buffer
  | f :: fs, buffer => do
    let (buffer, _) ← write f buffer
    writeEach write fs buffer

def packFields : List PackedField → List UInt8 → Except PyError (List UInt8) :=
  writeEach fun f buffer => packBitU f.width buffer ⟨f.offset⟩ f.value.toNat

def serializeFields : List PackedField → List UInt8 → Except CsError (List UInt8) :=
  writeEach fun f buffer =>
    serializePackedPrimitive (.num f.type) f.value buffer ⟨f.offset⟩ ⟨f.width⟩

def storeFields (m : Machine) (dest : ℕ) (fs : List PackedField) : Machine :=
  fs.foldl (fun m f => bituintStore m dest f.value.toNat f.offset f.width) m

/-- The call returned a buffer that has the field in it, with the offset behind the field. -/
structure WritesField {ε : Type} (result : Except ε (List UInt8 × MemUnit)) (f : PackedField)
    (buffer : List UInt8) : Prop where
  returns : f.Inside buffer → ∃ r, result = .ok r
  stored : ∀ r, result = .ok r → Stored buffer ⟨f.offset⟩ [.bits f.width f.value.toNat] r.1 r.2

theorem packBitU_writesField (f : PackedField) (buffer : List UInt8) :
    WritesField (packBitU f.width buffer ⟨f.offset⟩ f.value.toNat) f buffer :=
  ⟨fun hroom => exists_packBitU _ hroom, fun r hr => packBitU_writes _ _ _ _ r.1 r.2 hr⟩

theorem writeEach_ok {ε : Type}
    {write : PackedField → List UInt8 → Except ε (List UInt8 × MemUnit)} {fs : List PackedField}
    (hwrite : ∀ f ∈ fs, ∀ buffer, WritesField (write f buffer) f buffer) {buffer : List UInt8}
    (hinside : ∀ f ∈ fs, f.Inside buffer) :
    ∃ buffer', writeEach write fs buffer = .ok buffer' ∧ buffer'.length = buffer.length ∧
      ofList buffer' = writeFields (ofList buffer) 0 fs := by
  induction fs generalizing buffer with
  | nil => exact ⟨buffer, rfl, rfl, rfl⟩
  | cons f fs ih =>
    have hfirst := hwrite f List.mem_cons_self buffer
    obtain ⟨r, hr⟩ := hfirst.returns (hinside f List.mem_cons_self)
    obtain ⟨hmemory, hlength, -, -⟩ := hfirst.stored r hr
    have hrest : ∀ g ∈ fs, g.Inside r.1 := by
      intro g hg
      unfold Inside
      rw [hlength]
      exact hinside g (List.mem_cons_of_mem f hg)
    obtain ⟨buffer', hloop, hlength', hmemory'⟩ :=
      ih (fun g hg => hwrite g (List.mem_cons_of_mem f hg)) hrest
    refine ⟨buffer', except_bind_eq_ok.mpr ⟨r, hr, hloop⟩, hlength'.trans hlength, ?_⟩
    rw [hmemory', hmemory, writeFields_cons, PackedField.write, Nat.zero_add]
    rfl

theorem storeFields_mem (m : Machine) (dest : ℕ) (fs : List PackedField) :
    (storeFields m dest fs).mem = writeFields m.mem (8 * dest) fs := by
  induction fs generalizing m with
  | nil => rfl
  | cons f fs ih =>
    have hstep := bituintStore_mem m dest f.value.toNat f.offset f.width
    rw [writeFields_cons, PackedField.write, ← hstep]
    exact ih _

theorem integerToBits_long {n : Numeric} (hn : n.size.bits = 64) (x : BitVec n.size.bits)
    (size : BufferUnit) : integerToBits (.num n) x size = .error .notSupported := by
  have hrep : integerRep (.num n) x = .error .notSupported := by
    simp only [integerRep, if_pos hn]
  unfold integerToBits
  rw [hrep]
  rfl

theorem bits_ne_of_unsigned {n : Numeric} (hkind : n.kind = .unsigned) (hn : n ≠ .u64) :
    n.size.bits ≠ 64 := by
  cases n with
  | u64 => exact absurd rfl hn
  | u32 | u16 | u8 => decide
  | i64 | i32 | i16 | i8 | f32 | f64 => cases hkind

theorem serializePackedPrimitive_writesField {f : PackedField} (hf : f.type ≠ .u64)
    (buffer : List UInt8) :
    WritesField (serializePackedPrimitive (.num f.type) f.value buffer ⟨f.offset⟩ ⟨f.width⟩) f
      buffer := by
  have hwidth := f.width_le
  have hsize : MemUnit.bits ⟨f.width⟩ < 64 := by simp only; omega
  have hbits : integerToBits (.num f.type) f.value ⟨f.width⟩ = .ok (f.value.setWidth 64) := by
    rw [integerToBits_unsigned f.unsigned (bits_ne_of_unsigned f.unsigned hf) f.value hsize,
      if_pos f.value_lt]
  have hnat : packedNat (.num f.type) f.value ⟨f.width⟩ = f.value.toNat := by
    have hsmall : f.value.toNat < 2 ^ 32 :=
      f.value_lt.trans_le (Nat.pow_le_pow_right (by decide) hwidth)
    have hlong : (f.value.setWidth 64).toNat = f.value.toNat := toNat_setWidth_numeric f.value
    have hint : (f.value.setWidth 64).toInt = f.value.toNat := by
      rw [BitVec.toInt_eq_toNat_of_lt (by rw [hlong]; omega), hlong]
    have hlt : (f.value.toNat : ℤ) < 2 ^ f.width := by exact_mod_cast f.value_lt
    rw [packedNat_of_ok hbits, hint, Int.emod_eq_of_lt (Int.natCast_nonneg _) hlt,
      Int.toNat_natCast]
  obtain ⟨hstored, hreturns⟩ := serializePackedPrimitive_places hbits hsize.le buffer
    ⟨f.offset⟩
  rw [hnat] at hstored hreturns
  exact ⟨hreturns, hstored⟩

theorem deserializePackedPrimitive_field {f : PackedField} {buffer : List UInt8}
    (hheld : Held buffer f.offset [.bits f.width f.value.toNat]) :
    deserializePackedPrimitive (.num f.type) buffer ⟨f.offset⟩ ⟨f.width⟩ =
      .ok (f.value, ⟨f.offset⟩ + ⟨f.width⟩) := by
  have hwidth := f.width_le
  have hsize : MemUnit.bits ⟨f.width⟩ < 64 := by simp only; omega
  have hkind : f.type.kind ≠ .float := by rw [f.unsigned]; decide
  have hpos : f.type.kind = .signed → 0 < MemUnit.bits ⟨f.width⟩ := by
    rw [f.unsigned]
    intro h
    cases h
  have hself : (f.value.toNat : ℤ) % 2 ^ f.width = f.value.toNat := by
    exact_mod_cast Nat.mod_eq_of_lt f.value_lt
  rw [deserializePackedPrimitive_held (size_bits_le f.type) hkind hpos hsize f.value_lt hheld,
    f.unsigned, extended, if_neg (by decide), hself, BitVec.ofInt_natCast, BitVec.ofNat_toNat,
    BitVec.setWidth_eq]

/-- The buffer has the bits of the fields, the most significant one first, and the other bits of
the buffer before. -/
structure Placed (buffer : List UInt8) (fs : List PackedField) (buffer' : List UInt8) : Prop where
  length_eq : buffer'.length = buffer.length
  bits : ∀ f ∈ fs, ∀ k < f.width,
    bitAt (ofList buffer') (f.offset + k) = f.value.toNat.testBit (f.width - 1 - k)
  frame : ∀ i, (∀ f ∈ fs, ¬ f.Covers i) → bitAt (ofList buffer') i = bitAt (ofList buffer) i

/-- All three writers, in any order of the fields, leave the same buffer, from which all three
readers return the values. -/
structure FieldsAgree (buffer : List UInt8) (fs : List PackedField) (buffer' : List UInt8) :
    Prop where
  placed : Placed buffer fs buffer'
  packed : ∀ fs', fs' ~ fs → packFields fs' buffer = .ok buffer'
  stored : ∀ fs', fs' ~ fs → ∀ m dest, read m.mem dest buffer.length = buffer →
    (storeFields m dest fs').mem = ByteMemory.write m.mem dest buffer'
  serialized : ∀ fs', fs' ~ fs → serializeFields fs' buffer = .ok buffer'
  unpacked : ∀ f ∈ fs, unpackBitU f.width buffer' ⟨f.offset⟩ =
    .ok (f.value.toNat, ⟨f.offset⟩ + ⟨f.width⟩)
  loaded : ∀ f ∈ fs, ∀ m src, read m.mem src buffer'.length = buffer' →
    (bituintLoad m src f.offset f.width).1 = f.value.toNat
  deserialized : ∀ f ∈ fs, deserializePackedPrimitive (.num f.type) buffer' ⟨f.offset⟩ ⟨f.width⟩ =
    .ok (f.value, ⟨f.offset⟩ + ⟨f.width⟩)

theorem placed_of_written {buffer buffer' : List UInt8} {fs : List PackedField}
    (hapart : fs.Pairwise Apart) (hlength : buffer'.length = buffer.length)
    (hwritten : ofList buffer' = writeFields (ofList buffer) 0 fs) :
    Placed buffer fs buffer' := by
  refine ⟨hlength, ?_, ?_⟩
  · intro f hf k hk
    have hat := at_writeFields hapart (ofList buffer) 0 hf k hk
    rwa [← hwritten, Nat.zero_add] at hat
  · intro i hi
    rw [hwritten]
    apply bitAt_writeFields_of_not_covers
    intro f hf
    rw [Nat.zero_add]
    exact hi f hf

theorem Placed.held {buffer buffer' : List UInt8} {fs : List PackedField}
    (h : Placed buffer fs buffer') {f : PackedField} (hf : f ∈ fs) (hroom : f.Inside buffer) :
    Held buffer' f.offset [.bits f.width f.value.toNat] := by
  apply held_bits (h.bits f hf)
  rw [h.length_eq]
  exact hroom

theorem fieldsAgree_of_ne {buffer : List UInt8} {fs : List PackedField}
    (hinside : ∀ f ∈ fs, f.Inside buffer) (hapart : fs.Pairwise Apart)
    (hne : ∀ f ∈ fs, f.type ≠ .u64) : ∃ buffer', FieldsAgree buffer fs buffer' := by
  have hpack : ∀ f ∈ fs, ∀ buffer,
      WritesField (packBitU f.width buffer ⟨f.offset⟩ f.value.toNat) f buffer :=
    fun f _ => packBitU_writesField f
  obtain ⟨buffer', -, hlength, hwritten⟩ := writeEach_ok hpack hinside
  have hplaced := placed_of_written hapart hlength hwritten
  have hsame : ∀ {ε : Type} {write : PackedField → List UInt8 → Except ε (List UInt8 × MemUnit)},
      (∀ f ∈ fs, ∀ buffer, WritesField (write f buffer) f buffer) →
      ∀ fs', fs' ~ fs → writeEach write fs' buffer = .ok buffer' := by
    intro ε write hwrite fs' hperm
    obtain ⟨other, hloop, hlength', hwritten'⟩ := writeEach_ok
      (fun f hf => hwrite f (hperm.subset hf)) fun f hf => hinside f (hperm.subset hf)
    rw [writeFields_perm hperm hapart, ← hwritten] at hwritten'
    rw [hloop, eq_of_ofList (hlength'.trans hlength.symm) hwritten']
  refine ⟨buffer', hplaced, hsame hpack, ?_, ?_, ?_, ?_, ?_⟩
  · intro fs' hperm m dest hmem
    rw [storeFields_mem, writeFields_perm hperm hapart]
    exact writeFields_eq_write hmem hinside hlength hwritten
  · exact hsame fun f hf => serializePackedPrimitive_writesField (hne f hf)
  · exact fun f hf => unpackBitU_held f.value_lt (hplaced.held hf (hinside f hf))
  · intro f hf m src hmem
    apply bituintLoad_value f.value_lt
    intro k hk
    have hroom := hinside f hf
    unfold Inside at hroom
    have hbit := bitAt_ofList_read m.mem src buffer'.length (f.offset + k)
    rw [hmem, if_pos (by omega), hplaced.bits f hf k hk, ← Nat.add_assoc] at hbit
    exact hbit.symm
  · exact fun f hf => deserializePackedPrimitive_field (hplaced.held hf (hinside f hf))

/-- Fields that lie apart in a buffer agree unless one of them is a `ulong`. -/
theorem fieldsAgree_iff {buffer : List UInt8} {fs : List PackedField}
    (hinside : ∀ f ∈ fs, f.Inside buffer) (hapart : fs.Pairwise Apart) :
    (∃ buffer', FieldsAgree buffer fs buffer') ↔ ∀ f ∈ fs, f.type ≠ .u64 := by
  constructor
  · rintro ⟨buffer', hagree⟩ f hf htype
    obtain ⟨before, after, rfl⟩ := List.append_of_mem hf
    have hfirst := hagree.serialized (f :: (before ++ after)) List.perm_middle.symm
    obtain ⟨r, hr, -⟩ := except_bind_eq_ok.mp hfirst
    obtain ⟨val, hbits, -⟩ := except_bind_eq_ok.mp hr
    rw [integerToBits_long (by rw [htype]; rfl)] at hbits
    cases hbits
  · exact fieldsAgree_of_ne hinside hapart

/-- A `byte`, a `uint` and a `ushort`, each starting in the byte where the one before ends. -/
def adjacentFields : List PackedField :=
  [⟨6, 3, .u8, 5, by decide, rfl, by decide⟩, ⟨9, 16, .u32, 0x3FFC, by decide, rfl, by decide⟩,
    ⟨25, 6, .u16, 9, by decide, rfl, by decide⟩]

theorem fieldsAgree_adjacent :
    ∃ buffer', FieldsAgree [0x55, 0xFF, 0x00, 0x81] adjacentFields buffer' := by
  refine (fieldsAgree_iff ?_ ?_).mpr ?_
  · simp [adjacentFields, Inside]
  · simp [adjacentFields, Apart]
  · simp [adjacentFields]

def wideField : PackedField := ⟨0, 32, .u64, 5, by decide, rfl, by decide⟩

theorem not_fieldsAgree_wide : ¬ ∃ buffer', FieldsAgree [0, 0, 0, 0] [wideField] buffer' := by
  rintro ⟨buffer', hagree⟩
  have hrefused : serializeFields [wideField] [0, 0, 0, 0] = .error .notSupported := rfl
  cases hrefused.symm.trans (hagree.serialized [wideField] (List.Perm.refl _))

end CompostRpc
