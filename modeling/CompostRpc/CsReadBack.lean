import CompostRpc.CsExtent
import CompostRpc.CsStrings
import CompostRpc.PackedIntegers

/-!
# Single fields that come back

`Agrees` says that a buffer still has what was written between two offsets. A packed integer of any
size that was taken is read back from such a buffer, and a primitive is if it was written from where
the offset stood: `SerializePrimitive` rounds the offset up, and `DeserializePrimitive` adds to the
offset as it is.
-/

namespace CompostRpc
open ByteMemory Piece Serialization

structure Agrees (r : CsBuffer) (o : ℕ) (buffer : List UInt8) : Prop where
  length_eq : buffer.length = r.1.length
  bits : ∀ i, o ≤ i → i < r.2.bits → bitAt (ofList buffer) i = bitAt (ofList r.1) i

theorem Agrees.refl (r : CsBuffer) (o : ℕ) : Agrees r o r.1 := ⟨rfl, fun _ _ _ => rfl⟩

/-- What is written later leaves what was written before. -/
theorem Agrees.split {r r₁ : CsBuffer} {o : ℕ} {buffer : List UInt8} {ps : List Piece}
    (h : Agrees r o buffer) (hrest : Extended r₁.1 r₁.2 ps r.1 r.2) (hle : o ≤ r₁.2.bits) :
    Agrees r₁ o buffer ∧ Agrees r r₁.2.bits buffer := by
  have hend := hrest.le
  constructor
  · refine ⟨h.length_eq.trans hrest.length_eq, fun i hi hlt => ?_⟩
    rw [h.bits i hi (hlt.trans_le hend), hrest.before i hlt]
  · exact ⟨h.length_eq, fun i hi hlt => h.bits i (hle.trans hi) hlt⟩

/-- A buffer that agrees holds the pieces that were stored. -/
theorem Agrees.allAt {r : CsBuffer} {offset : BufferUnit} {buffer before : List UInt8}
    {ps : List Piece} (h : Agrees r offset.bits buffer)
    (hstored : Stored before offset ps r.1 r.2) : AllAt (ofList buffer) offset.bits ps := by
  have hall : AllAt (ofList r.1) offset.bits ps := by
    rw [hstored.memory]
    exact allAt_writeAll _ _ _
  apply hall.congr
  intro i hi hlt
  exact h.bits i hi (hlt.trans_eq hstored.stop_eq.symm)

namespace Serialization

/-- The bits that a round of the loop of `DeserializePackedPrimitive` gathers. -/
theorem getLsbD_gathered {buffer : List UInt8} {pos place : ℕ}
    (hplace : place ≤ 8 - pos % 8) (acc : BitVec 64) (count : ℕ) {i : ℕ} (hi : i < 64) :
    (acc ||| shiftLeft (BitVec.ofNat 64
        ((buffer.getD (pos / 8) 0).toNat >>> (8 - pos % 8 - place)) &&&
          (shiftLeft 1 place - 1)) count).getLsbD i =
      (acc.getLsbD i || (decide (count % 64 ≤ i ∧ i < count % 64 + place) &&
        bitAt (ofList buffer) (pos + place - 1 - (i - count % 64)))) := by
  rw [BitVec.getLsbD_or, shiftLeft, BitVec.getLsbD_shiftLeft, BitVec.getLsbD_and,
    getLsbD_mask (by omega), BitVec.getLsbD_ofNat, Nat.testBit_shiftRight]
  by_cases hlow : i < count % 64
  · simp [hlow, hi, show ¬ count % 64 ≤ i by omega]
  · by_cases hin : i - count % 64 < place
    · have hbyte : (pos + place - 1 - (i - count % 64)) / 8 = pos / 8 := by omega
      have hbit : 7 - (pos + place - 1 - (i - count % 64)) % 8 =
          8 - pos % 8 - place + (i - count % 64) := by omega
      rw [bitAt, hbyte, hbit]
      simp [hlow, hi, hin, show i - count % 64 < 64 by omega, show count % 64 ≤ i by omega,
        show i < count % 64 + place by omega, ofList, BitVec.getLsbD]
    · simp [hlow, hi, hin, show ¬ i < count % 64 + place by omega]

/-- A round gathers the bits that the same round of `SerializePackedPrimitive` placed. -/
theorem getLsbD_gathered_placed {buffer buffer' : List UInt8} {pos place count : ℕ}
    {val : BitVec 64} (hlen : pos / 8 < buffer.length) (hplace : place ≤ 8 - pos % 8)
    (hagrees : Agrees (buffer.set (pos / 8) (insertBits (buffer.getD (pos / 8) 0)
      (8 - pos % 8 - place) place (bitValue val count place)), ⟨pos + place⟩) pos buffer')
    (acc : BitVec 64) {i : ℕ} (hi : i < 64) :
    (acc ||| shiftLeft (BitVec.ofNat 64
        ((buffer'.getD (pos / 8) 0).toNat >>> (8 - pos % 8 - place)) &&&
          (shiftLeft 1 place - 1)) count).getLsbD i =
      (acc.getLsbD i ||
        (decide (count % 64 ≤ i ∧ i < count % 64 + place) && val.getLsbD i)) := by
  rw [getLsbD_gathered hplace acc count hi]
  by_cases hin : count % 64 ≤ i ∧ i < count % 64 + place
  · have hlast : pos + place - 1 - (pos + place - 1 - (i - count % 64)) = i - count % 64 := by
      omega
    have hread : bitAt (ofList buffer') (pos + place - 1 - (i - count % 64)) = val.getLsbD i := by
      rw [hagrees.bits _ (by omega) (by simp only; omega),
        bitAt_set_insertBits hlen hplace (bitValue_lt val count (by omega)), if_pos (by omega),
        hlast, testBit_bitValue val (by omega) (by omega) (by omega), Nat.add_sub_cancel' hin.1]
    rw [hread]
  · rw [decide_eq_false hin, Bool.false_and, Bool.false_and]

/-- The loops of a packed property of any size: what is gathered are the low bits of what was
placed. -/
theorem unpackedLoop_of_packedLoop {fuel byteIndex pos width : ℕ}
    {buffer written buffer' : List UInt8} {val : BitVec 64} (acc : BitVec 64)
    (hfuel : width ≤ fuel) (hindex : 0 < width → byteIndex = pos / 8)
    (h : packedLoop fuel buffer byteIndex pos width val = .ok written)
    (hagrees : Agrees (written, ⟨pos + width⟩) pos buffer') :
    ∃ res, unpackedLoop fuel buffer' byteIndex pos width acc = .ok res ∧
      ∀ i < 64, res.getLsbD i = (acc.getLsbD i || (decide (i < width) && val.getLsbD i)) := by
  induction fuel generalizing buffer byteIndex pos width acc with
  | zero =>
    obtain rfl : width = 0 := by omega
    exact ⟨acc, rfl, fun i hi => by simp⟩
  | succ fuel ih =>
    by_cases hw : width = 0
    · subst hw
      refine ⟨acc, ?_, fun i hi => by simp⟩
      rw [unpackedLoop, if_neg (Nat.lt_irrefl 0)]
    · obtain rfl := hindex (by omega)
      obtain ⟨place, hplace⟩ : ∃ place, place = min width (8 - pos % 8) := ⟨_, rfl⟩
      rw [packedLoop_succ hw] at h
      rw [unpackedLoop, if_pos (by omega)]
      simp only [← Nat.min_def]
      simp only [MemUnit.bitsPerByte, ← hplace] at h ⊢
      by_cases hlen : pos / 8 < buffer.length
      · rw [if_pos hlen] at h
        have hgathered := fun hround acc i hi => @getLsbD_gathered_placed buffer buffer' pos place
          (width - place) val hlen (by omega) hround acc i hi
        generalize hround : buffer.set _ _ = round at h hgathered
        have hlength : round.length = buffer.length := by rw [← hround, List.length_set]
        -- the later rounds leave the bits of this one
        have hreaches := @packedLoop_reaches fuel (pos / 8 + 1) (pos + place) (width - place) round
          val (by omega) (by intro hrem; omega) 0
        have hextended := hreaches.extended (written, ⟨pos + place + (width - place)⟩)
          (except_bind_eq_ok.mpr ⟨written, h, rfl⟩)
        have hstop : pos + place + (width - place) = pos + width := by omega
        rw [hstop] at hextended
        obtain ⟨hfirst, hrest⟩ := @Agrees.split _ (round, ⟨pos + place⟩) _ _ _ hagrees hextended
          (Nat.le_add_right ..)
        rw [if_pos (by rw [hfirst.length_eq, hlength]; exact hlen)]
        rw [← hstop] at hrest
        obtain ⟨res, hres, hval⟩ := ih _ (by omega) (by intro hrem; omega) h hrest
        refine ⟨res, hres, fun i hi => ?_⟩
        rw [hval i hi, hgathered hfirst acc i hi, Bool.or_assoc, ← Bool.and_or_distrib_right]
        congr 2
        rw [← Bool.decide_or]
        congr 1
        apply propext
        omega
      · rw [if_neg hlen] at h
        cases h

def expand (signed : Bool) (size : ℕ) (rep : BitVec 64) : BitVec 64 :=
  if signed && rep &&& shiftLeft 1 (size + 63) != 0 then rep ||| ~~~(shiftLeft 1 size - 1)
  else rep &&& (shiftLeft 1 size - 1)

theorem integerToBits_ok_iff {t : CsType} {x : CsValue t} {size : BufferUnit} {val : BitVec 64} :
    integerToBits t x size = .ok val ↔
      integerRep t x = .ok val ∧ expand (isTypeSignedInteger t) size.bits val = val := by
  constructor
  · intro h
    obtain ⟨rep, hrep, h⟩ := except_bind_eq_ok.mp h
    change (if expand (isTypeSignedInteger t) size.bits rep ≠ rep then Except.error CsError.overflow
      else Except.ok (expand (isTypeSignedInteger t) size.bits rep)) = Except.ok val at h
    split_ifs at h with hsame
    cases h
    rw [not_not.mp hsame]
    exact ⟨hrep, not_not.mp hsame⟩
  · rintro ⟨hrep, hsame⟩
    unfold integerToBits
    rw [hrep, except_ok_bind]
    change (if expand (isTypeSignedInteger t) size.bits val ≠ val then Except.error CsError.overflow
      else Except.ok (expand (isTypeSignedInteger t) size.bits val)) = Except.ok val
    rw [hsame, if_neg (not_not.mpr rfl)]

/-- What was accepted is recovered from its low bits, whatever the size. -/
theorem extend_of_low {signed : Bool} {size : ℕ} (hpos : 0 < size) {rep low : BitVec 64}
    (haccepted : expand signed size rep = rep)
    (hlow : ∀ i < 64, low.getLsbD i = (decide (i < size) && rep.getLsbD i)) :
    (if signed && low &&& shiftLeft 1 (size + 63) != 0 then low ||| ~~~(shiftLeft 1 size - 1)
      else low) = rep := by
  have hsign : low.getLsbD ((size + 63) % 64) = rep.getLsbD ((size + 63) % 64) := by
    rw [hlow _ (Nat.mod_lt _ (by decide)), decide_eq_true (by omega), Bool.true_and]
  have hbits := fun i => congrArg (BitVec.getLsbD · i) haccepted
  simp only [expand, and_shiftLeft_one_ne_zero] at hbits
  rw [and_shiftLeft_one_ne_zero, hsign]
  apply BitVec.eq_of_getLsbD_eq
  intro i hi
  have hbit := hbits i
  by_cases hneg : (signed && rep.getLsbD ((size + 63) % 64)) = true
  · rw [if_pos hneg, BitVec.getLsbD_or] at hbit ⊢
    rw [hlow i hi]
    by_cases hin : i < size
    · rw [decide_eq_true hin, Bool.true_and, hbit]
    · rw [BitVec.getLsbD_not, getLsbD_mask (by omega), decide_eq_false hin, decide_eq_true hi,
        Bool.not_false, Bool.true_and, Bool.or_true] at hbit ⊢
      exact hbit
  · rw [if_neg hneg] at hbit ⊢
    rw [hlow i hi]
    by_cases hin : i < size
    · rw [decide_eq_true hin, Bool.true_and]
    · rw [BitVec.getLsbD_and, getLsbD_mask (by omega), decide_eq_false hin, Bool.and_false] at hbit
      rw [decide_eq_false hin, Bool.false_and, hbit]

/-- The conversion to `long` loses nothing. -/
theorem setWidth_integerRep {n : Numeric} {x : BitVec n.size.bits} {rep : BitVec 64}
    (h : integerRep (.num n) x = .ok rep) : rep.setWidth n.size.bits = x := by
  have hle := size_bits_le n
  simp only [integerRep] at h
  split_ifs at h with hlong
  apply BitVec.eq_of_getLsbD_eq
  intro i hi
  cases hkind : n.kind with
  | float => simp only [hkind, reduceCtorEq] at h
  | unsigned =>
    simp only [hkind, Except.ok.injEq] at h
    rw [← h, BitVec.getLsbD_setWidth, BitVec.getLsbD_setWidth]
    simp [hi, show i < 64 by omega]
  | signed =>
    simp only [hkind, Except.ok.injEq] at h
    rw [← h, BitVec.getLsbD_setWidth, BitVec.getLsbD_signExtend]
    simp [hi, show i < 64 by omega]

theorem serializePackedPrimitive_next {t : CsType} {x : CsValue t} {buffer : List UInt8}
    {offset size : BufferUnit} {r : CsBuffer}
    (h : serializePackedPrimitive t x buffer offset size = .ok r) : r.2 = offset + size := by
  obtain ⟨val, -, h⟩ := except_bind_eq_ok.mp h
  obtain ⟨written, -, h⟩ := except_bind_eq_ok.mp h
  cases h
  rfl

theorem deserializePackedPrimitive_next {t : CsType} {x : CsValue t} {buffer : List UInt8}
    {offset next size : BufferUnit}
    (h : deserializePackedPrimitive t buffer offset size = .ok (x, next)) :
    next = offset + size := by
  obtain ⟨val, -, h⟩ := except_bind_eq_ok.mp h
  obtain ⟨value, -, h⟩ := except_bind_eq_ok.mp h
  cases h
  rfl

theorem integerRep_eq_zero_iff {n : Numeric} {x : BitVec n.size.bits} {rep : BitVec 64}
    (h : integerRep (.num n) x = .ok rep) : rep = 0 ↔ (0 : BitVec 64).setWidth n.size.bits = x := by
  have hwidth := setWidth_integerRep h
  constructor
  · rintro rfl
    exact hwidth
  · rintro rfl
    simp only [integerRep] at h
    split_ifs at h
    cases hkind : n.kind with
    | float => simp only [hkind, reduceCtorEq] at h
    | unsigned =>
      simp only [hkind, Except.ok.injEq] at h
      rw [← h]
      simp
    | signed =>
      simp only [hkind, Except.ok.injEq] at h
      have hzero : BitVec.setWidth n.size.bits (0 : BitVec 64) = 0#_ := BitVec.setWidth_zero ..
      rw [← h, hzero, BitVec.signExtend, BitVec.toInt_zero]
      rfl

/-- A packed integer that was taken comes back, unless it is not zero and was given no bits. -/
theorem deserializePackedPrimitive_iff {n : Numeric} (hkind : n.kind ≠ .float)
    {x : BitVec n.size.bits} {buffer buffer' : List UInt8} {offset size : BufferUnit} {r : CsBuffer}
    (h : serializePackedPrimitive (.num n) x buffer offset size = .ok r)
    (hagrees : Agrees r offset.bits buffer') :
    deserializePackedPrimitive (.num n) buffer' offset size = .ok (x, r.2) ↔
      (size.bits = 0 → integerRep (.num n) x = .ok 0) := by
  obtain ⟨val, hbits, h⟩ := except_bind_eq_ok.mp h
  obtain ⟨written, hloop, hr⟩ := except_bind_eq_ok.mp h
  cases hr
  obtain ⟨hrep, haccepted⟩ := integerToBits_ok_iff.mp hbits
  have hx := setWidth_integerRep hrep
  obtain ⟨low, hlow, hval⟩ := unpackedLoop_of_packedLoop 0 le_rfl (fun _ => rfl) hloop hagrees
  have hzero : ∀ i, (0 : BitVec 64).getLsbD i = false := fun i => BitVec.getLsbD_zero
  simp only [hzero, Bool.false_or] at hval
  have hread : deserializePackedPrimitive (.num n) buffer' offset size =
      .ok ((if isTypeSignedInteger (.num n) && low &&& shiftLeft 1 (size.bits + 63) != 0 then
        low ||| ~~~(shiftLeft 1 size.bits - 1) else low).setWidth n.size.bits, offset + size) := by
    simp only [deserializePackedPrimitive, MemUnit.bitsPerByte, hlow, except_ok_bind,
      underlyingType, packedDeser_getBytes hkind]
    rfl
  by_cases hpos : size.bits = 0
  · have hnone : low = 0 := by
      apply BitVec.eq_of_getLsbD_eq
      intro i hi
      rw [hval i hi, hpos, decide_eq_false (Nat.not_lt_zero i), Bool.false_and, hzero]
    have hnot : ¬ (isTypeSignedInteger (.num n) &&
        (0 : BitVec 64) &&& shiftLeft 1 (size.bits + 63) != 0) = true := by simp
    rw [hread, hnone, if_neg hnot, hrep]
    simp only [Except.ok.injEq, integerRep_eq_zero_iff hrep]
    constructor
    · exact fun hback _ => congrArg Prod.fst hback
    · exact fun hback => congrArg (Prod.mk · (offset + size)) (hback hpos)
  · rw [hread, extend_of_low (Nat.pos_of_ne_zero hpos) haccepted hval, hx]
    exact iff_of_true rfl fun hcontra => absurd hcontra hpos

end Serialization

namespace Serialization

theorem deserializePrimitive_next {t : CsType} {buffer : List UInt8}
    {offset next size : BufferUnit} {y : CsValue t} (hsize : getTypeSize t = .ok size)
    (h : deserializePrimitive t buffer offset = .ok (y, next)) : next = offset + size := by
  rw [deserializePrimitive, hsize, except_ok_bind] at h
  obtain ⟨⟨tmp, _⟩, -, h⟩ := except_bind_eq_ok.mp h
  obtain ⟨value, -, h⟩ := except_bind_eq_ok.mp h
  cases h
  rfl

theorem copyBytes_inside {src dest : List UInt8} {srcStart destStart length : ℕ}
    {r : List UInt8 × ℕ} (h : copyBytes src srcStart dest destStart length = .ok r) :
    destStart + length ≤ dest.length := by
  simp only [copyBytes] at h
  split_ifs at h with hrange
  omega

theorem serializePrimitive_inside {t : CsType} {x : CsValue t} {buffer : List UInt8}
    {offset size : BufferUnit} {r : CsBuffer} (hsize : getTypeSize t = .ok size)
    (h : serializePrimitive t x buffer offset = .ok r) :
    offset.bytes + size.bytes ≤ buffer.length := by
  cases t with
  | bool | char =>
    cases hsize
    obtain ⟨r', hcopy, -⟩ := except_bind_eq_ok.mp h
    exact copyBytes_inside hcopy
  | num n =>
    cases hsize
    cases n with
    | u8 | i8 =>
      obtain ⟨r', hcopy, -⟩ := except_bind_eq_ok.mp h
      simp only [copyByte] at hcopy
      split_ifs at hcopy with hrange
      exact hrange
    | _ =>
      obtain ⟨r', hcopy, -⟩ := except_bind_eq_ok.mp h
      exact copyBytes_inside hcopy
  | string | list element | cls properties | enum n => cases h

/-- A primitive comes back from a whole byte only, and as what its bytes say. -/
theorem deserializePrimitive_iff {t : CsType} {x y z : CsValue t} {buffer buffer' : List UInt8}
    {offset size : BufferUnit} {data : List UInt8} {r : CsBuffer}
    (hsize : getTypeSize t = .ok size) (hlen : size.bits = 8 * data.length)
    (hplaces : Places (serializePrimitive t x buffer offset) buffer offset [.bytes data])
    (h : serializePrimitive t x buffer offset = .ok r) (hagrees : Agrees r offset.bits buffer')
    (hread : ByteMemory.read (ofList buffer') offset.bytes data.length = data →
      offset.bytes + data.length ≤ buffer'.length →
        deserializePrimitive t buffer' offset = .ok (z, offset + size)) :
    deserializePrimitive t buffer' offset = .ok (y, r.2) ↔ offset.bits % 8 = 0 ∧ y = z := by
  have hstored := hplaces.stored r h
  have hinside := serializePrimitive_inside hsize h
  rw [← hstored.length_eq, ← hagrees.length_eq, size.bytes_eq, hlen,
    show (8 * data.length + 7) / 8 = data.length by omega] at hinside
  have hat := (hagrees.allAt hstored).1
  rw [Piece.At, alignUp_bits_div] at hat
  have hback := hread hat hinside
  have hend : r.2.bits = alignUp offset.bits + size.bits := by
    rw [hstored.stop_eq, hlen]
    rfl
  constructor
  · intro hdeserialize
    have hnext := deserializePrimitive_next hsize hdeserialize
    rw [hnext, MemUnit.add_bits] at hend
    rw [hnext, hback] at hdeserialize
    refine ⟨?_, congrArg Prod.fst (Except.ok.inj hdeserialize.symm)⟩
    have haligned := alignUp_mod offset.bits
    omega
  · rintro ⟨haligned, rfl⟩
    rw [alignUp_of_mod haligned] at hend
    rw [hback, show offset + size = r.2 from MemUnit.ext hend.symm]

theorem deserializePrimitive_num_iff {n : Numeric} {x y : BitVec n.size.bits}
    {buffer buffer' : List UInt8} {offset : BufferUnit} {r : CsBuffer}
    (h : serializePrimitive (.num n) x buffer offset = .ok r)
    (hagrees : Agrees r offset.bits buffer') :
    deserializePrimitive (.num n) buffer' offset = .ok (y, r.2) ↔
      offset.bits % 8 = 0 ∧ y = x := by
  apply deserializePrimitive_iff rfl _ (serializePrimitive_num_places n x buffer offset) h hagrees
  · intro hread hinside
    rw [length_beBytes] at hread hinside
    exact deserializePrimitive_num hread hinside
  · rw [length_beBytes, n.size_bits]

theorem read_singleton {buffer : List UInt8} {a : ℕ} {b : UInt8}
    (h : ByteMemory.read (ofList buffer) a 1 = [b]) : buffer.getD a 0 = b :=
  List.head_eq_of_cons_eq h

theorem deserializePrimitive_char_iff {x y : UInt16} {buffer buffer' : List UInt8}
    {offset : BufferUnit} {r : CsBuffer} (h : serializePrimitive .char x buffer offset = .ok r)
    (hagrees : Agrees r offset.bits buffer') :
    deserializePrimitive .char buffer' offset = .ok (y, r.2) ↔
      offset.bits % 8 = 0 ∧ y = x.toUInt8.toUInt16 := by
  apply deserializePrimitive_iff rfl rfl (serializePrimitive_char_places x buffer offset) h hagrees
  intro hread hinside
  rw [deserializePrimitive_char hinside, read_singleton hread]
  rfl

theorem deserializePrimitive_bool_iff {x y : Bool} {buffer buffer' : List UInt8}
    {offset : BufferUnit} {r : CsBuffer} (h : serializePrimitive .bool x buffer offset = .ok r)
    (hagrees : Agrees r offset.bits buffer') :
    deserializePrimitive .bool buffer' offset = .ok (y, r.2) ↔
      offset.bits % 8 = 0 ∧ y = x := by
  apply deserializePrimitive_iff rfl rfl (serializePrimitive_bool_places x buffer offset) h hagrees
  intro hread (hinside : offset.bytes + 1 ≤ buffer'.length)
  have hcopy := copyBytes_read hinside
  have hbyte : ((buffer'.drop offset.bytes).take 1) = [UInt8.ofNat x.toNat] := by
    rw [← read_ofList hinside]
    exact hread
  rw [hbyte] at hcopy
  have hvalue : (UInt8.ofNat x.toNat != 0) = x := by cases x <;> rfl
  simp only [deserializePrimitive, getTypeSize, except_ok_bind, fromBytes_bytes, hcopy,
    primitiveTypeDeser]
  change Except.ok ((UInt8.ofNat x.toNat != 0), _) = _
  rw [hvalue]
  rfl

end Serialization

end CompostRpc
