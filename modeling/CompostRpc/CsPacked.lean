import CompostRpc.CsSerialization
import CompostRpc.WireFormat
import CompostRpc.UnpackPayload

/-!
# Packed integers in C#

`IntegerToBits` keeps an integer in a `long` and refuses one that does not fit the size of its
`Pack` attribute: an unsigned type in that many bits, a signed type in that many bits of two's
complement. The loops that place and gather the bits then do what the loops of `BitU` do.
-/

namespace CompostRpc
open ByteMemory Piece Serialization

namespace Serialization

theorem natCast_two_pow (k : ℕ) : ((2 ^ k : ℕ) : ℤ) = 2 ^ k := by norm_cast

theorem toNat_mask {k : ℕ} (hk : k < 64) : (shiftLeft 1 k - 1).toNat = 2 ^ k - 1 := by
  rw [shiftLeft, Nat.mod_eq_of_lt hk]
  exact toNat_lowMask hk

theorem getLsbD_mask {k i : ℕ} (hk : k < 64) : (shiftLeft 1 k - 1).getLsbD i = decide (i < k) := by
  rw [BitVec.getLsbD, toNat_mask hk, Nat.testBit_two_pow_sub_one]

/-- The values of `size` bits as they are kept in a `long`. -/
theorem expand_unsigned {size : ℕ} (hsize : size < 64) (rep : BitVec 64) :
    rep &&& (shiftLeft 1 size - 1) = (rep.setWidth size).setWidth 64 := by
  apply BitVec.eq_of_getLsbD_eq
  intro i hi
  simp only [BitVec.getLsbD_and, getLsbD_mask hsize, BitVec.getLsbD_setWidth, hi, decide_true,
    Bool.true_and, Bool.and_comm]

theorem and_shiftLeft_one_ne_zero (x : BitVec 64) (count : ℕ) :
    (x &&& shiftLeft 1 count != 0) = x.getLsbD (count % 64) := by
  have hone : shiftLeft 1 count = BitVec.twoPow 64 (count % 64) := by
    rw [shiftLeft, BitVec.twoPow_eq]
    rfl
  have hlt : count % 64 < 64 := Nat.mod_lt _ (by decide)
  rw [hone, BitVec.and_twoPow]
  cases hbit : x.getLsbD (count % 64) with
  | false => rfl
  | true =>
    simp only [if_true, bne_iff_ne, ne_eq]
    intro hzero
    have := congrArg BitVec.toNat hzero
    rw [BitVec.toNat_twoPow_of_lt hlt] at this
    exact absurd this (by simp)

theorem signBit_ne_zero {size : ℕ} (hpos : 0 < size) (hsize : size < 64) (rep : BitVec 64) :
    (rep &&& shiftLeft 1 (size + 63) != 0) = rep.getLsbD (size - 1) := by
  rw [and_shiftLeft_one_ne_zero]
  congr 1
  omega

theorem expand_signed {size : ℕ} (hpos : 0 < size) (hsize : size < 64) (rep : BitVec 64) :
    (if rep &&& shiftLeft 1 (size + 63) != 0 then rep ||| ~~~(shiftLeft 1 size - 1)
      else rep &&& (shiftLeft 1 size - 1)) = (rep.setWidth size).signExtend 64 := by
  rw [signBit_ne_zero hpos hsize]
  apply BitVec.eq_of_getLsbD_eq
  intro i hi
  rw [BitVec.getLsbD_signExtend, BitVec.msb_setWidth, decide_eq_true hi, Bool.true_and,
    decide_eq_true hpos, Bool.true_and, BitVec.getLsbD_setWidth]
  cases hbit : rep.getLsbD (size - 1) with
  | false =>
    simp only [Bool.false_eq_true, if_false, BitVec.getLsbD_and, getLsbD_mask hsize]
    by_cases hi : i < size <;> simp [hi]
  | true =>
    simp only [if_true, BitVec.getLsbD_or, BitVec.getLsbD_not, getLsbD_mask hsize, hi,
      decide_true, Bool.true_and]
    by_cases hi : i < size <;> simp [hi]

theorem signExtend_setWidth_eq_self_iff {size : ℕ} (hpos : 0 < size) (hsize : size < 64)
    (rep : BitVec 64) : (rep.setWidth size).signExtend 64 = rep ↔
      -(2 ^ (size - 1) : ℤ) ≤ rep.toInt ∧ rep.toInt < 2 ^ (size - 1) := by
  have hdouble := Nat.two_pow_pred_mul_two hpos
  have hmultiple : ((2 ^ size : ℕ) : ℤ) ∣ rep.toInt - rep.toNat := by
    have hdvd : ((2 ^ size : ℕ) : ℤ) ∣ ((2 ^ 64 : ℕ) : ℤ) := by
      exact_mod_cast Nat.pow_dvd_pow 2 hsize.le
    rw [BitVec.toInt_eq_toNat_bmod]
    exact hdvd.trans Int.dvd_bmod_sub_self
  rw [← BitVec.toInt_inj, BitVec.toInt_signExtend_of_le hsize.le, BitVec.toInt_setWidth,
    Int.bmod_eq_iff (Nat.two_pow_pos size), and_iff_left hmultiple,
    ← natCast_two_pow]
  omega

theorem size_bits_le (n : Numeric) : n.size.bits ≤ 64 := by cases n <;> decide

theorem toNat_setWidth_numeric {n : Numeric} (x : BitVec n.size.bits) :
    (x.setWidth 64).toNat = x.toNat := by
  have hlt : x.toNat < 2 ^ 64 :=
    x.isLt.trans_le (Nat.pow_le_pow_right (by decide) (size_bits_le n))
  rw [BitVec.toNat_setWidth, Nat.mod_eq_of_lt hlt]

theorem setWidth_setWidth_eq_self_iff {size : ℕ} (hsize : size < 64) (rep : BitVec 64) :
    (rep.setWidth size).setWidth 64 = rep ↔ rep.toNat < 2 ^ size := by
  have hpos : 0 < 2 ^ size := Nat.two_pow_pos size
  have hpow : 2 ^ size < 2 ^ 64 := Nat.pow_lt_pow_right (by decide) hsize
  have hlt := Nat.mod_lt rep.toNat hpos
  rw [← BitVec.toNat_inj, BitVec.toNat_setWidth, BitVec.toNat_setWidth,
    Nat.mod_eq_of_lt (hlt.trans hpow)]
  exact ⟨fun h => h ▸ hlt, Nat.mod_eq_of_lt⟩

theorem integerToBits_zero {t : CsType} {x : CsValue t} (hrep : integerRep t x = .ok 0)
    (size : BufferUnit) : integerToBits t x size = .ok 0 := by
  unfold integerToBits
  rw [hrep, except_ok_bind]
  simp

/-- An unsigned number passes if it fits. -/
theorem integerToBits_unsigned {n : Numeric} (hkind : n.kind = .unsigned) (hn : n.size.bits ≠ 64)
    (x : BitVec n.size.bits) {size : BufferUnit} (hsize : size.bits < 64) :
    integerToBits (.num n) x size =
      if x.toNat < 2 ^ size.bits then .ok (x.setWidth 64) else .error .overflow := by
  have hrep : integerRep (.num n) x = .ok (x.setWidth 64) := by
    simp only [integerRep, if_neg hn, hkind]
  have hsigned : isTypeSignedInteger (.num n) = false := by
    rw [isTypeSignedInteger, hkind]
    rfl
  unfold integerToBits
  rw [hrep, except_ok_bind]
  simp only [hsigned, Bool.false_and, Bool.false_eq_true, if_false, expand_unsigned hsize, ne_eq,
    setWidth_setWidth_eq_self_iff hsize, toNat_setWidth_numeric, ite_not]
  by_cases hfits : x.toNat < 2 ^ size.bits
  · rw [if_pos hfits, if_pos hfits, (setWidth_setWidth_eq_self_iff hsize _).mpr]
    rwa [toNat_setWidth_numeric]
  · rw [if_neg hfits, if_neg hfits]

/-- A signed number passes if it fits in two's complement. -/
theorem integerToBits_signed {n : Numeric} (hkind : n.kind = .signed) (hn : n.size.bits ≠ 64)
    (x : BitVec n.size.bits) {size : BufferUnit} (hpos : 0 < size.bits) (hsize : size.bits < 64) :
    integerToBits (.num n) x size =
      if -(2 ^ (size.bits - 1) : ℤ) ≤ x.toInt ∧ x.toInt < 2 ^ (size.bits - 1) then
        .ok (x.signExtend 64)
      else .error .overflow := by
  have hrep : integerRep (.num n) x = .ok (x.signExtend 64) := by
    simp only [integerRep, if_neg hn, hkind]
  have hsigned : isTypeSignedInteger (.num n) = true := by
    rw [isTypeSignedInteger, hkind]
    rfl
  have hint : (x.signExtend 64).toInt = x.toInt := BitVec.toInt_signExtend_of_le (size_bits_le n)
  have hself := signExtend_setWidth_eq_self_iff hpos hsize (x.signExtend 64)
  rw [hint] at hself
  unfold integerToBits
  rw [hrep, except_ok_bind]
  simp only [hsigned, Bool.true_and, expand_signed hpos hsize, ne_eq, hself, ite_not]
  by_cases hfits : -(2 ^ (size.bits - 1) : ℤ) ≤ x.toInt ∧ x.toInt < 2 ^ (size.bits - 1)
  · rw [if_pos hfits, if_pos hfits, hself.mpr hfits]
  · rw [if_neg hfits, if_neg hfits]

theorem clearMask_eq : ∀ place shift : Fin 9, (place : ℕ) + shift ≤ 8 →
    UInt8.ofNat (~~~(shiftLeft (shiftLeft 1 place - 1) shift)).toNat =
      ~~~ UInt8.ofNat (((1 <<< (place : ℕ)) - 1) <<< (shift : ℕ)) := by
  decide +kernel

theorem toNat_emod_toInt (x : BitVec 64) {p : ℕ} (hp : p ≤ 64) :
    x.toNat % 2 ^ p = (x.toInt % 2 ^ p).toNat := by
  have hdvd : (2 ^ p : ℤ) ∣ ((2 ^ 64 : ℕ) : ℤ) := by exact_mod_cast Nat.pow_dvd_pow 2 hp
  have hnonneg : 0 ≤ x.toInt % ((2 ^ 64 : ℕ) : ℤ) := Int.emod_nonneg _ (by decide)
  have hraw := BitVec.toNat_ofInt (n := 64) x.toInt
  rw [BitVec.ofInt_toInt] at hraw
  rw [← Int.emod_emod_of_dvd _ hdvd, ← Int.toNat_of_nonneg hnonneg, ← hraw]
  norm_cast

theorem placedBits_toNat (val : BitVec 64) {count place : ℕ} (hcount : count < 64)
    (hplace : place ≤ 8) :
    (BitVec.sshiftRight val (count % 64) &&& (shiftLeft 1 place - 1)).toNat =
      ((val.toInt >>> count) % 2 ^ place).toNat := by
  rw [BitVec.toNat_and, toNat_mask (by omega), Nat.and_two_pow_sub_one_eq_mod,
    toNat_emod_toInt _ (by omega), BitVec.toInt_sshiftRight, Nat.mod_eq_of_lt hcount]

theorem shiftedByte_eq (x : BitVec 64) {shift : ℕ} (hshift : shift < 64) :
    UInt8.ofNat (shiftLeft x shift).toNat = UInt8.ofNat (x.toNat <<< shift) := by
  rw [shiftLeft, Nat.mod_eq_of_lt hshift, BitVec.toNat_shiftLeft]
  apply UInt8.toNat_inj.mp
  rw [UInt8.toNat_ofNat', UInt8.toNat_ofNat', Nat.mod_mod_of_dvd _ (by decide)]

/-- The loop of `SerializePackedPrimitive` returns what the loop of `BitU.pack` returns. -/
theorem packedLoop_ok_iff {fuel byteIndex pos width : ℕ} {buffer buffer' : List UInt8}
    {val : BitVec 64} (hwidth : width ≤ 64) :
    packedLoop fuel buffer byteIndex pos width val = .ok buffer' ↔
      packLoop fuel buffer byteIndex pos width val.toInt = .ok buffer' := by
  induction fuel generalizing buffer byteIndex pos width with
  | zero =>
    rw [packedLoop, packLoop]
    simp only [Except.ok.injEq]
  | succ fuel ih =>
    by_cases hw : width > 0
    · obtain ⟨place, hplace⟩ : ∃ place, place = min width (8 - pos % 8) := ⟨_, rfl⟩
      rw [packedLoop, packLoop, if_pos hw, if_pos hw]
      simp only [← Nat.min_def]
      simp only [MemUnit.bitsPerByte, ← hplace]
      by_cases hlen : byteIndex < buffer.length
      · rw [if_pos hlen, if_pos hlen, shiftedByte_eq _ (by omega),
          placedBits_toNat val (by omega) (by omega),
          clearMask_eq ⟨place, by omega⟩ ⟨8 - pos % 8 - place, by omega⟩ (by simp only; omega)]
        exact ih (by omega)
      · rw [if_neg hlen, if_neg hlen]
        simp only [reduceCtorEq]
    · rw [packedLoop, packLoop, if_neg hw, if_neg hw]
      simp only [Except.ok.injEq]

theorem serializePackedPrimitive_ok_iff {t : CsType} {arg : CsValue t} {packedSize : BufferUnit}
    {val : BitVec 64} (hbits : integerToBits t arg packedSize = .ok val)
    (hsize : packedSize.bits ≤ 64) (buffer : List UInt8) (offset : BufferUnit) (r : CsBuffer) :
    serializePackedPrimitive t arg buffer offset packedSize = .ok r ↔
      packBitU packedSize.bits buffer offset val.toInt = .ok r := by
  rw [serializePackedPrimitive, hbits, except_ok_bind, packBitU, except_bind_eq_ok,
    except_bind_eq_ok]
  refine exists_congr fun b => and_congr (packedLoop_ok_iff hsize) ?_
  simp only [pure, Except.pure, Except.ok.injEq]

theorem extractedBits_ofNat (b shift : ℕ) {place : ℕ} (hplace : place < 64) :
    BitVec.ofNat 64 (b >>> shift) &&& (shiftLeft 1 place - 1 : BitVec 64) =
      BitVec.ofNat 64 ((b >>> shift) &&& ((1 <<< place) - 1)) := by
  apply BitVec.eq_of_toNat_eq
  rw [BitVec.toNat_and, toNat_mask hplace, BitVec.toNat_ofNat, BitVec.toNat_ofNat, Nat.shiftLeft_eq,
    Nat.one_mul, Nat.and_two_pow_sub_one_eq_mod, Nat.and_two_pow_sub_one_eq_mod,
    Nat.mod_mod_of_dvd _ (Nat.pow_dvd_pow 2 (by omega))]
  have hlt : b >>> shift % 2 ^ place < 2 ^ 64 :=
    (Nat.mod_lt _ (Nat.two_pow_pos place)).trans (Nat.pow_lt_pow_right (by decide) hplace)
  exact (Nat.mod_eq_of_lt hlt).symm

theorem gathered_ofNat (val bits : ℕ) {count : ℕ} (hcount : count < 64) :
    BitVec.ofNat 64 val ||| shiftLeft (BitVec.ofNat 64 bits) count =
      BitVec.ofNat 64 (val ||| bits <<< count) := by
  rw [shiftLeft, Nat.mod_eq_of_lt hcount]
  apply BitVec.eq_of_getLsbD_eq
  intro i hi
  simp only [BitVec.getLsbD_or, BitVec.getLsbD_shiftLeft, BitVec.getLsbD_ofNat, hi, decide_true,
    Bool.true_and, Nat.testBit_or, Nat.testBit_shiftLeft]
  by_cases hlt : i < count
  · simp [hlt]
  · simp [hlt, show i - count < 64 by omega, show count ≤ i by omega]

/-- The loop of `DeserializePackedPrimitive` gathers the bits that the loop of `BitU.unpack`
gathers. -/
theorem unpackedLoop_of_unpackLoop {fuel byteIndex pos width acc val : ℕ} {buffer : List UInt8}
    (hwidth : width ≤ 64) (h : unpackLoop fuel buffer byteIndex pos width acc = .ok val) :
    unpackedLoop fuel buffer byteIndex pos width (BitVec.ofNat 64 acc) =
      .ok (BitVec.ofNat 64 val) := by
  induction fuel generalizing byteIndex pos width acc with
  | zero =>
    cases h
    rfl
  | succ fuel ih =>
    by_cases hw : width > 0
    · rw [unpackLoop, if_pos hw] at h
      rw [unpackedLoop, if_pos hw]
      obtain ⟨place, hplace⟩ : ∃ place, place = min width (8 - pos % 8) := ⟨_, rfl⟩
      simp only [← Nat.min_def]
      simp only [MemUnit.bitsPerByte, ← hplace] at h ⊢
      by_cases hlen : byteIndex < buffer.length
      · rw [if_pos hlen] at h ⊢
        rw [extractedBits_ofNat _ _ (by omega), gathered_ofNat _ _ (by omega)]
        exact ih (by omega) h
      · rw [if_neg hlen] at h
        cases h
    · rw [unpackLoop, if_neg hw] at h
      cases h
      rw [unpackedLoop, if_neg hw]

theorem primitiveTypeDeser_getBytes (n : Numeric) (x : BitVec 64) :
    primitiveTypeDeser (.num n) (getBytes x) = .ok (x.setWidth n.size.bits) := by
  have hlt : x.toNat % 256 ^ 8 = x.toNat := Nat.mod_eq_of_lt x.isLt
  have hnat : beNat (getBytes x).reverse = x.toNat := by
    rw [getBytes, List.reverse_reverse, beNat_beBytes, hlt]
  have hval : BitVec.ofNat n.size.bits x.toNat = x.setWidth n.size.bits := by
    apply BitVec.eq_of_toNat_eq
    rw [BitVec.toNat_ofNat, BitVec.toNat_setWidth]
  rw [primitiveTypeDeser, hnat, hval]

/-- A signed type extends the sign of what was gathered. -/
theorem deserializePackedPrimitive_signed {n : Numeric} (hkind : n.kind = .signed) {val : ℕ}
    {buffer : List UInt8} {offset size : BufferUnit} (hpos : 0 < size.bits) (hsize : size.bits < 64)
    (hval : val < 2 ^ size.bits)
    (hunpack : unpackLoop size.bits buffer (offset.bits / 8) offset.bits size.bits 0 = .ok val) :
    deserializePackedPrimitive (.num n) buffer offset size =
      .ok ((((BitVec.ofNat 64 val).setWidth size.bits).signExtend 64).setWidth n.size.bits,
        offset + size) := by
  have hloop : unpackedLoop size.bits buffer (offset.bits / MemUnit.bitsPerByte) offset.bits
      size.bits 0 = .ok (BitVec.ofNat 64 val) := unpackedLoop_of_unpackLoop hsize.le hunpack
  have hsigned : isTypeSignedInteger (underlyingType (.num n)) = true := by
    change (n.kind == .signed) = true
    rw [hkind]
    rfl
  have hdeser : ∀ x : BitVec 64, packedDeser (.num n) (getBytes x) =
      .ok (x.setWidth n.size.bits) := by
    intro x
    rw [← primitiveTypeDeser_getBytes]
    cases n with
    | f32 => cases hkind
    | _ => rfl
  have hlow : (BitVec.ofNat 64 val).toNat < 2 ^ size.bits :=
    (BitVec.toNat_ofNat .. ▸ Nat.mod_le val _).trans_lt hval
  have hexpand := expand_signed hpos hsize (BitVec.ofNat 64 val)
  rw [expand_unsigned hsize, (setWidth_setWidth_eq_self_iff hsize _).mpr hlow] at hexpand
  unfold deserializePackedPrimitive
  rw [hloop, except_ok_bind]
  simp only [hsigned, Bool.true_and, hexpand, hdeser]
  rfl

end Serialization
end CompostRpc
