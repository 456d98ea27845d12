import CompostRpc.CsLayout
import CompostRpc.UnpackFields

/-!
# Packed integers that come back

`SerializePackedPrimitive` refuses an integer that does not fit the size in the way of its boxed
type, and `DeserializePackedPrimitive` extends the sign in the way of the type below an enum. For an
integer type this is the same way; an enum counts as unsigned on one side, and on the other as the
type below it.
-/

namespace CompostRpc
open ByteMemory Piece Serialization

namespace Serialization

def intValue (n : Numeric) (x : BitVec n.size.bits) : ℤ :=
  if n.kind = .signed then x.toInt else x.toNat

/-- Two's complement for a signed type. -/
def FitsBits (signed : Bool) (bits : ℕ) (v : ℤ) : Prop :=
  if signed then -(2 ^ (bits - 1)) ≤ v ∧ v < 2 ^ (bits - 1) else 0 ≤ v ∧ v < 2 ^ bits

instance (signed : Bool) (bits : ℕ) (v : ℤ) : Decidable (FitsBits signed bits v) := by
  unfold FitsBits
  exact inferInstance

def extended (signed : Bool) (bits : ℕ) (v : ℤ) : ℤ :=
  if signed then v.bmod (2 ^ bits) else v % 2 ^ bits

theorem fitsBits_iff_extended {signed : Bool} {bits : ℕ} (hpos : 0 < bits) (v : ℤ) :
    FitsBits signed bits v ↔ extended signed bits v = v := by
  have hdouble := Nat.two_pow_pred_mul_two hpos
  cases signed with
  | true =>
    have hdvd : ((2 ^ bits : ℕ) : ℤ) ∣ v - v := by rw [sub_self]; exact Int.dvd_zero _
    simp only [FitsBits, extended, if_true, ← natCast_two_pow]
    rw [Int.bmod_eq_iff (Nat.two_pow_pos bits), and_iff_left hdvd]
    omega
  | false =>
    have hpow : (0 : ℤ) < 2 ^ bits := by positivity
    simp only [FitsBits, extended, Bool.false_eq_true, if_false]
    constructor
    · exact fun h => Int.emod_eq_of_lt h.1 h.2
    · intro h
      rw [← h]
      exact ⟨Int.emod_nonneg _ hpow.ne', Int.emod_lt_of_pos _ hpow⟩

theorem ofInt_intValue (n : Numeric) (x : BitVec n.size.bits) :
    BitVec.ofInt n.size.bits (intValue n x) = x := by
  unfold intValue
  split
  · exact BitVec.ofInt_toInt
  · rw [BitVec.ofInt_natCast, BitVec.ofNat_toNat, BitVec.setWidth_eq]

/-- The `long` of an integer. -/
theorem integerRep_int {n : Numeric} (hn : n.size.bits ≤ 32) (hkind : n.kind ≠ .float)
    (x : BitVec n.size.bits) :
    integerRep (.num n) x = .ok (BitVec.ofInt 64 (intValue n x)) ∧
      integerRep (.enum n) x = .ok (BitVec.ofInt 64 (intValue n x)) := by
  have h64 : n.size.bits ≠ 64 := by omega
  have hsmall : x.toNat < 2 ^ 63 :=
    x.isLt.trans_le (Nat.pow_le_pow_right (by decide) (by omega))
  cases hn : n.kind with
  | float => exact absurd hn hkind
  | signed =>
    have hint : intValue n x = x.toInt := if_pos hn
    rw [hint]
    constructor
    · simp only [integerRep, if_neg h64, hn]
      rfl
    · simp only [integerRep, hn]
      rfl
  | unsigned =>
    have hint : intValue n x = x.toNat := if_neg (by rw [hn]; decide)
    have hwidth : BitVec.setWidth 64 x = BitVec.ofInt 64 (x.toNat : ℤ) := by
      rw [BitVec.ofInt_natCast, BitVec.ofNat_toNat]
    rw [hint, ← hwidth]
    constructor
    · simp only [integerRep, if_neg h64, hn]
    · simp only [integerRep, hn]
      exact if_pos hsmall

theorem toNat_lt_iff_toInt {size : ℕ} (hsize : size < 64) (rep : BitVec 64) :
    rep.toNat < 2 ^ size ↔ 0 ≤ rep.toInt ∧ rep.toInt < 2 ^ size := by
  have hle : 2 ^ size ≤ 2 ^ 63 := Nat.pow_le_pow_right (by decide) (by omega)
  have hlt := rep.isLt
  rw [BitVec.toInt_eq_toNat_cond, ← natCast_two_pow]
  split <;> omega

/-- An integer passes if it fits in the way of its boxed type. -/
theorem integerToBits_of_rep {t : CsType} {x : CsValue t} {rep : BitVec 64}
    (hrep : integerRep t x = .ok rep) {size : BufferUnit} (hpos : 0 < size.bits)
    (hsize : size.bits < 64) :
    integerToBits t x size =
      if FitsBits (isTypeSignedInteger t) size.bits rep.toInt then .ok rep
      else .error .overflow := by
  unfold integerToBits
  rw [hrep, except_ok_bind]
  cases hsigned : isTypeSignedInteger t with
  | true =>
    have hself := signExtend_setWidth_eq_self_iff hpos hsize rep
    simp only [Bool.true_and, expand_signed hpos hsize, ne_eq, hself, ite_not, FitsBits, if_true]
    split
    · rename_i hfits
      rw [hself.mpr hfits]
    · rfl
  | false =>
    have hself := (setWidth_setWidth_eq_self_iff hsize rep).trans (toNat_lt_iff_toInt hsize rep)
    simp only [Bool.false_and, Bool.false_eq_true, if_false, expand_unsigned hsize, ne_eq, hself,
      ite_not, FitsBits]
    split
    · rename_i hfits
      rw [hself.mpr hfits]
    · rfl

theorem toInt_intValue {n : Numeric} (hn : n.size.bits ≤ 32) (x : BitVec n.size.bits) :
    (BitVec.ofInt 64 (intValue n x)).toInt = intValue n x := by
  have hpow : 2 ^ n.size.bits ≤ 2 ^ 32 := Nat.pow_le_pow_right (by decide) hn
  have hlt := x.isLt
  have hint : x.toInt = if 2 * x.toNat < 2 ^ n.size.bits then (x.toNat : ℤ)
    else (x.toNat : ℤ) - (2 ^ n.size.bits : ℕ) := BitVec.toInt_eq_toNat_cond x
  apply BitVec.toInt_ofInt_eq_self (by decide)
  · unfold intValue
    split
    · rw [hint]
      split <;> omega
    · omega
  · unfold intValue
    split
    · rw [hint]
      split <;> omega
    · omega

/-- An integer type takes what fits it in two's complement or unsigned, an enum the latter. -/
theorem integerToBits_int_iff {n : Numeric} (hn : n.size.bits ≤ 32) (hkind : n.kind ≠ .float)
    (x : BitVec n.size.bits) {size : BufferUnit} (hpos : 0 < size.bits) (hsize : size.bits < 64) :
    (integerToBits (.num n) x size =
        if FitsBits (n.kind == .signed) size.bits (intValue n x) then
          .ok (BitVec.ofInt 64 (intValue n x))
        else .error .overflow) ∧
      integerToBits (.enum n) x size =
        if FitsBits false size.bits (intValue n x) then .ok (BitVec.ofInt 64 (intValue n x))
        else .error .overflow := by
  obtain ⟨hnum, henum⟩ := integerRep_int hn hkind x
  have hint := toInt_intValue hn x
  constructor
  · rw [integerToBits_of_rep hnum hpos hsize, hint]
    rfl
  · rw [integerToBits_of_rep henum hpos hsize, hint]
    rfl

theorem deserializePackedPrimitive_enum {n : Numeric} (hkind : n.kind ≠ .float) :
    deserializePackedPrimitive (.enum n) = deserializePackedPrimitive (.num n) := by
  cases n with
  | f32 | f64 => exact absurd rfl hkind
  | u64 | i64 | u32 | i32 | u16 | i16 | u8 | i8 => rfl

theorem packedDeser_getBytes {n : Numeric} (hkind : n.kind ≠ .float) (x : BitVec 64) :
    packedDeser (.num n) (getBytes x) = .ok (x.setWidth n.size.bits) := by
  rw [← primitiveTypeDeser_getBytes]
  cases n with
  | f32 => exact absurd rfl hkind
  | u64 | i64 | u32 | i32 | u16 | i16 | u8 | i8 | f64 => rfl

theorem setWidth_ofInt {w k : ℕ} (h : k ≤ w) (v : ℤ) :
    (BitVec.ofInt w v).setWidth k = BitVec.ofInt k v := by
  have hdvd : ((2 ^ k : ℕ) : ℤ) ∣ ((2 ^ w : ℕ) : ℤ) := by exact_mod_cast Nat.pow_dvd_pow 2 h
  have hw : 0 ≤ v % ((2 ^ w : ℕ) : ℤ) := Int.emod_nonneg _ (by positivity)
  have hk : 0 ≤ v % ((2 ^ k : ℕ) : ℤ) := Int.emod_nonneg _ (by positivity)
  apply BitVec.eq_of_toNat_eq
  rw [BitVec.toNat_setWidth, BitVec.toNat_ofInt, BitVec.toNat_ofInt]
  apply Int.ofNat.inj
  change (((v % ((2 ^ w : ℕ) : ℤ)).toNat % 2 ^ k : ℕ) : ℤ) = ((v % ((2 ^ k : ℕ) : ℤ)).toNat : ℤ)
  rw [Int.natCast_mod, Int.toNat_of_nonneg hw, Int.toNat_of_nonneg hk, Int.emod_emod_of_dvd _ hdvd]

/-- From bits that hold a number, its value is read in the way of the type. -/
theorem deserializePackedPrimitive_held {n : Numeric} (hn : n.size.bits ≤ 64)
    (hkind : n.kind ≠ .float) {v : ℕ} {buffer : List UInt8} {offset size : BufferUnit}
    (hpos : n.kind = .signed → 0 < size.bits) (hsize : size.bits < 64) (hv : v < 2 ^ size.bits)
    (hheld : Held buffer offset.bits [.bits size.bits v]) :
    deserializePackedPrimitive (.num n) buffer offset size =
      .ok (BitVec.ofInt n.size.bits (extended (n.kind == .signed) size.bits v),
        offset + size) := by
  obtain ⟨val, hunpack, hval⟩ := except_bind_eq_ok.mp (unpackBitU_held hv hheld)
  cases hval
  have hlong : v % 2 ^ 64 = v :=
    Nat.mod_eq_of_lt (hv.trans (Nat.pow_lt_pow_right (by decide) hsize))
  cases hsigned : n.kind with
  | float => exact absurd hsigned hkind
  | signed =>
    rw [deserializePackedPrimitive_signed hsigned (hpos hsigned) hsize hv hunpack]
    have hlow : ((BitVec.ofNat 64 v).setWidth size.bits).toInt = (v : ℤ).bmod (2 ^ size.bits) := by
      rw [BitVec.toInt_setWidth, BitVec.toNat_ofNat, hlong]
    have hextend : ((BitVec.ofNat 64 v).setWidth size.bits).signExtend 64 =
        BitVec.ofInt 64 ((v : ℤ).bmod (2 ^ size.bits)) := by
      rw [← hlow]
      rfl
    rw [hextend, setWidth_ofInt hn]
    rfl
  | unsigned =>
    have hloop : unpackedLoop size.bits buffer (offset.bits / MemUnit.bitsPerByte) offset.bits
        size.bits 0 = .ok (BitVec.ofNat 64 v) := unpackedLoop_of_unpackLoop hsize.le hunpack
    have hwidth : (BitVec.ofNat 64 v).setWidth n.size.bits = BitVec.ofInt n.size.bits v := by
      rw [BitVec.ofInt_natCast]
      apply BitVec.eq_of_toNat_eq
      rw [BitVec.toNat_setWidth, BitVec.toNat_ofNat, BitVec.toNat_ofNat, hlong]
    have hself : (v : ℤ) % 2 ^ size.bits = v := by
      exact_mod_cast Nat.mod_eq_of_lt hv
    have hfalse : isTypeSignedInteger (underlyingType (.num n)) = false := by
      change (n.kind == .signed) = false
      rw [hsigned]
      rfl
    unfold deserializePackedPrimitive
    rw [hloop, except_ok_bind]
    simp only [hfalse, Bool.false_and, Bool.false_eq_true, if_false, packedDeser_getBytes hkind,
      hwidth]
    rw [show (NumericKind.unsigned == NumericKind.signed) = false from rfl, extended,
      if_neg (by decide), hself]
    rfl

def packedLoopState :
    ℕ → List UInt8 → ℕ → ℕ → ℕ → BitVec 64 → Except CsError Unit × List UInt8
  | 0, buffer, _, _, _, _ => (.ok (), buffer)
  | fuel + 1, buffer, byteIndex, bitPosition, bitsRemaining, val =>
    if bitsRemaining > 0 then
      let bitsToFill := MemUnit.bitsPerByte - bitPosition % MemUnit.bitsPerByte
      let bitsToPlace := if bitsRemaining ≤ bitsToFill then bitsRemaining else bitsToFill
      let shift := bitsToFill - bitsToPlace
      let mask := shiftLeft 1 bitsToPlace - 1
      let bitValue := BitVec.sshiftRight val ((bitsRemaining - bitsToPlace) % 64) &&& mask
      if byteIndex < buffer.length then
        let byte := buffer.getD byteIndex 0 &&& UInt8.ofNat (~~~(shiftLeft mask shift)).toNat
        packedLoopState fuel
          (buffer.set byteIndex (byte ||| UInt8.ofNat (shiftLeft bitValue shift).toNat))
          (byteIndex + 1) (bitPosition + bitsToPlace) (bitsRemaining - bitsToPlace) val
      else (.error .indexOutOfRange, buffer)
    else (.ok (), buffer)

/-- `SerializePackedPrimitive` with the buffer and the offset as it leaves them. -/
def serializePackedState (t : CsType) (arg : CsValue t) (buffer : List UInt8)
    (offset packedSize : BufferUnit) : Except CsError Unit × CsBuffer :=
  match integerToBits t arg packedSize with
  | .error e => (.error e, (buffer, offset))
  | .ok val =>
    match packedLoopState packedSize.bits buffer (offset.bits / MemUnit.bitsPerByte) offset.bits
      packedSize.bits val with
    | (.error e, buffer) => (.error e, (buffer, offset))
    | (.ok _, buffer) => (.ok (), (buffer, offset + packedSize))

/-- The loop can only run out of the buffer. -/
theorem packedLoopState_ne_overflow (fuel : ℕ) (buffer : List UInt8) (byteIndex pos width : ℕ)
    (val : BitVec 64) :
    (packedLoopState fuel buffer byteIndex pos width val).1 ≠ .error .overflow := by
  induction fuel generalizing buffer byteIndex pos width with
  | zero => exact fun h => nomatch h
  | succ fuel ih =>
    rw [packedLoopState]
    split_ifs
    · exact fun h => ih _ _ _ _ h
    · exact fun h => nomatch h
    · exact fun h => nomatch h

theorem serializePackedState_ne_overflow {t : CsType} {arg : CsValue t} {size : BufferUnit}
    {val : BitVec 64} (hbits : integerToBits t arg size = .ok val) (buffer : List UInt8)
    (offset : BufferUnit) :
    (serializePackedState t arg buffer offset size).1 ≠ .error .overflow := by
  have hloop := packedLoopState_ne_overflow size.bits buffer (offset.bits / MemUnit.bitsPerByte)
    offset.bits size.bits val
  rw [serializePackedState, hbits]
  dsimp only
  generalize packedLoopState size.bits buffer (offset.bits / MemUnit.bitsPerByte) offset.bits
    size.bits val = state at hloop
  obtain ⟨e | ⟨⟩, b⟩ := state
  · exact hloop
  · exact fun h => nomatch h

theorem packedLoop_eq_state (fuel : ℕ) (buffer : List UInt8) (byteIndex pos width : ℕ)
    (val : BitVec 64) :
    packedLoop fuel buffer byteIndex pos width val =
      (packedLoopState fuel buffer byteIndex pos width val).1.map fun _ =>
        (packedLoopState fuel buffer byteIndex pos width val).2 := by
  induction fuel generalizing buffer byteIndex pos width with
  | zero => rfl
  | succ fuel ih =>
    rw [packedLoop, packedLoopState]
    by_cases hw : width > 0
    · rw [if_pos hw, if_pos hw]
      dsimp only
      split
      · exact ih ..
      · rfl
    · rw [if_neg hw, if_neg hw]
      rfl

theorem serializePackedPrimitive_eq_state (t : CsType) (arg : CsValue t) (buffer : List UInt8)
    (offset size : BufferUnit) :
    serializePackedPrimitive t arg buffer offset size =
      (serializePackedState t arg buffer offset size).1.map fun _ =>
        (serializePackedState t arg buffer offset size).2 := by
  rw [serializePackedPrimitive, serializePackedState]
  cases integerToBits t arg size with
  | error e => rfl
  | ok val =>
    rw [except_ok_bind, packedLoop_eq_state]
    dsimp only
    generalize packedLoopState size.bits buffer (offset.bits / MemUnit.bitsPerByte) offset.bits
      size.bits val = state
    obtain ⟨e | ⟨⟩, b⟩ := state <;> rfl

theorem serializePackedState_ok_iff {t : CsType} {arg : CsValue t} {buffer : List UInt8}
    {offset size : BufferUnit} {r : CsBuffer} :
    serializePackedState t arg buffer offset size = (.ok (), r) ↔
      serializePackedPrimitive t arg buffer offset size = .ok r := by
  rw [serializePackedPrimitive_eq_state]
  obtain ⟨e | ⟨⟩, r'⟩ := serializePackedState t arg buffer offset size
  · simp [Except.map]
  · simp [Except.map]

/-- What has been written ends inside the buffer. -/
theorem inside_of_serialized {t : CsType} {x : CsValue t} {size : BufferUnit} {val : BitVec 64}
    (hbits : integerToBits t x size = .ok val) (hpos : 0 < size.bits) (hsize : size.bits ≤ 64)
    {buffer : List UInt8} {offset : BufferUnit} {r : CsBuffer}
    (h : serializePackedPrimitive t x buffer offset size = .ok r) :
    offset.bits + size.bits ≤ 8 * buffer.length := by
  obtain ⟨b, hloop, -⟩ := except_bind_eq_ok.mp
    ((serializePackedPrimitive_ok_iff hbits hsize buffer offset r).mp h)
  obtain ⟨fuel, hfuel⟩ := Nat.exists_eq_succ_of_ne_zero hpos.ne'
  have hfirst := hloop
  rw [show packLoop size.bits = packLoop (fuel + 1) from congrArg _ hfuel] at hfirst
  obtain ⟨hbyte, -⟩ := packLoop_succ hpos.ne' hfirst
  have hoffset : offset.bits ≤ 8 * buffer.length := by
    simp only [MemUnit.bitsPerByte] at hbyte
    omega
  exact packLoop_fits le_rfl (fun _ => rfl) hoffset hloop

theorem packedNat_int {t : CsType} {x : CsValue t} {size : BufferUnit} {n : Numeric}
    (hn : n.size.bits ≤ 32) {y : BitVec n.size.bits}
    (hbits : integerToBits t x size = .ok (BitVec.ofInt 64 (intValue n y))) :
    packedNat t x size < 2 ^ size.bits ∧
      (packedNat t x size : ℤ) = intValue n y % 2 ^ size.bits := by
  have hpow : (0 : ℤ) < 2 ^ size.bits := by positivity
  have hcast := natCast_two_pow size.bits
  have hlt := Int.emod_lt_of_pos (intValue n y) hpow
  have hnonneg := Int.emod_nonneg (intValue n y) hpow.ne'
  rw [packedNat_of_ok hbits, toInt_intValue hn, Int.toNat_of_nonneg hnonneg]
  exact ⟨by omega, rfl⟩

theorem extended_emod (signed : Bool) (bits : ℕ) (v : ℤ) :
    extended signed bits (v % 2 ^ bits) = extended signed bits v := by
  unfold extended
  split
  · rw [← natCast_two_pow, Int.emod_bmod]
  · exact Int.emod_emod_of_dvd _ (dvd_refl _)

/-- What is read back in the way of the type below. -/
theorem deserialize_serialized {n : Numeric} (hn : n.size.bits ≤ 32) (hkind : n.kind ≠ .float)
    {t : CsType} {x : CsValue t} {y : BitVec n.size.bits} {size : BufferUnit}
    (hpos : 0 < size.bits) (hsize : size.bits < 64)
    (hbits : integerToBits t x size = .ok (BitVec.ofInt 64 (intValue n y)))
    {buffer : List UInt8} {offset : BufferUnit} {r : CsBuffer}
    (h : serializePackedPrimitive t x buffer offset size = .ok r) :
    deserializePackedPrimitive (.num n) r.1 offset size =
      .ok (BitVec.ofInt n.size.bits (extended (n.kind == .signed) size.bits (intValue n y)),
        offset + size) := by
  have hroom := inside_of_serialized hbits hpos hsize.le h
  have hstored := (serializePackedPrimitive_places hbits hsize.le buffer offset).stored r h
  obtain ⟨hlt, hnat⟩ := packedNat_int hn hbits
  have hread := deserializePackedPrimitive_held (by omega) hkind (fun _ => hpos) hsize hlt
    (hstored.held hroom)
  rw [hnat, extended_emod] at hread
  exact hread

theorem fitsBits_extended (signed : Bool) {bits : ℕ} (hpos : 0 < bits) (v : ℤ) :
    FitsBits signed bits (extended signed bits v) := by
  rw [fitsBits_iff_extended hpos]
  cases signed with
  | true => exact Int.bmod_bmod
  | false => exact extended_emod false bits v

theorem intValue_ofInt {n : Numeric} {size : ℕ} (hpos : 0 < size) (hsize : size ≤ n.size.bits)
    {v : ℤ} (hfits : FitsBits (n.kind == .signed) size v) :
    intValue n (BitVec.ofInt n.size.bits v) = v := by
  unfold intValue
  split
  · rename_i hsigned
    rw [hsigned] at hfits
    have hle : 2 ^ (size - 1) ≤ 2 ^ (n.size.bits - 1) :=
      Nat.pow_le_pow_right (by decide) (by omega)
    obtain ⟨hlow, hhigh⟩ : -(2 ^ (size - 1)) ≤ v ∧ v < 2 ^ (size - 1) := hfits
    rw [← natCast_two_pow] at hlow hhigh
    apply BitVec.toInt_ofInt_eq_self (by omega)
    · rw [← natCast_two_pow]
      omega
    · rw [← natCast_two_pow]
      omega
  · rename_i hkind
    have hfalse : (n.kind == .signed) = false := beq_eq_false_iff_ne.mpr hkind
    rw [hfalse] at hfits
    have hle : 2 ^ size ≤ 2 ^ n.size.bits := Nat.pow_le_pow_right (by decide) hsize
    obtain ⟨hlow, hhigh⟩ : 0 ≤ v ∧ v < 2 ^ size := hfits
    rw [← natCast_two_pow] at hhigh
    rw [BitVec.toNat_ofInt, Int.emod_eq_of_lt hlow (by omega), Int.toNat_of_nonneg hlow]

/-- What is extended from the low bits is the number exactly if these are enough for it. -/
theorem ofInt_extended_eq_iff {n : Numeric} {size : ℕ} (hpos : 0 < size)
    (hsize : size ≤ n.size.bits) (x : BitVec n.size.bits) :
    BitVec.ofInt n.size.bits (extended (n.kind == .signed) size (intValue n x)) = x ↔
      FitsBits (n.kind == .signed) size (intValue n x) := by
  rw [fitsBits_iff_extended hpos]
  constructor
  · intro h
    have hvalue := intValue_ofInt hpos hsize (fitsBits_extended (n.kind == .signed) hpos
      (intValue n x))
    rw [h] at hvalue
    exact hvalue.symm
  · intro h
    rw [h, ofInt_intValue]

/-- A value is refused with an `OverflowException` that changes nothing, or it is read back; one
that fits is not refused. -/
structure RoundTripsOrRefuses (t : CsType) (arg : CsValue t) (fits : Prop) (buffer : List UInt8)
    (offset size : BufferUnit) : Prop where
  outcome : serializePackedState t arg buffer offset size = (.error .overflow, (buffer, offset)) ∨
    ∃ packed next, serializePackedState t arg buffer offset size = (.ok (), packed) ∧
      deserializePackedPrimitive t packed.1 offset size = .ok (arg, next)
  accepts : fits → (serializePackedState t arg buffer offset size).1 ≠ .error .overflow

/-- Where `SerializePackedPrimitive` takes a value, it has to be the right one to take, and there
has to be room for it. -/
theorem roundTripsOrRefuses_iff {n : Numeric} (hn : n.size.bits ≤ 32) (hkind : n.kind ≠ .float)
    {t : CsType} {arg : CsValue t} {x : BitVec n.size.bits} {size : BufferUnit}
    (hpos : 0 < size.bits) (hsize : size.bits ≤ n.size.bits) {signed : Bool}
    (hbits : integerToBits t arg size =
      if FitsBits signed size.bits (intValue n x) then .ok (BitVec.ofInt 64 (intValue n x))
      else .error .overflow)
    (hread : ∀ buffer offset next, deserializePackedPrimitive t buffer offset size =
        .ok (arg, next) ↔ deserializePackedPrimitive (.num n) buffer offset size = .ok (x, next))
    (buffer : List UInt8) (offset : BufferUnit) :
    RoundTripsOrRefuses t arg (FitsBits (n.kind == .signed) size.bits (intValue n x)) buffer offset
        size ↔
      (FitsBits signed size.bits (intValue n x) ↔
        FitsBits (n.kind == .signed) size.bits (intValue n x)) ∧
      (FitsBits (n.kind == .signed) size.bits (intValue n x) →
        offset.bits + size.bits ≤ 8 * buffer.length) := by
  have hlt : size.bits < 64 := by omega
  by_cases htaken : FitsBits signed size.bits (intValue n x)
  · rw [if_pos htaken] at hbits
    have hnotOverflow := serializePackedState_ne_overflow hbits buffer offset
    constructor
    · rintro ⟨hrefused | ⟨packed, next, hserialize, hdeserialize⟩, -⟩
      · exact absurd (congrArg Prod.fst hrefused) hnotOverflow
      · rw [serializePackedState_ok_iff] at hserialize
        have hback := deserialize_serialized hn hkind hpos hlt hbits hserialize
        rw [hread] at hdeserialize
        have hsame := congrArg Prod.fst (Except.ok.inj (hback.symm.trans hdeserialize))
        have hfits := (ofInt_extended_eq_iff hpos hsize x).mp hsame
        exact ⟨iff_of_true htaken hfits,
          fun _ => inside_of_serialized hbits hpos hlt.le hserialize⟩
    · rintro ⟨hsame, hroom⟩
      have hfits := hsame.mp htaken
      refine ⟨.inr ?_, fun _ => hnotOverflow⟩
      obtain ⟨r, hr⟩ := (serializePackedPrimitive_places hbits hlt.le buffer offset).returns
        (hroom hfits)
      refine ⟨r, offset + size, serializePackedState_ok_iff.mpr hr, ?_⟩
      rw [hread, deserialize_serialized hn hkind hpos hlt hbits hr,
        (ofInt_extended_eq_iff hpos hsize x).mpr hfits]
  · rw [if_neg htaken] at hbits
    have hrefused : serializePackedState t arg buffer offset size =
        (.error .overflow, (buffer, offset)) := by
      rw [serializePackedState, hbits]
    constructor
    · rintro ⟨-, haccepts⟩
      have hnot : ¬ FitsBits (n.kind == .signed) size.bits (intValue n x) := fun hfits =>
        haccepts hfits (congrArg Prod.fst hrefused)
      exact ⟨iff_of_false htaken hnot, fun hfits => absurd hfits hnot⟩
    · rintro ⟨hsame, -⟩
      exact ⟨.inl hrefused, fun hfits => absurd (hsame.mpr hfits) htaken⟩

/-- An enum over a signed type with a value that fits one way only: a negative number, or one that
is in the upper half of the unsigned range. -/
def Misjudged (n : Numeric) (bits : ℕ) (v : ℤ) : Prop :=
  n.kind = .signed ∧ (-(2 ^ (bits - 1)) ≤ v ∧ v < 0 ∨ 2 ^ (bits - 1) ≤ v ∧ v < 2 ^ bits)

theorem not_misjudged_iff {n : Numeric} {bits : ℕ} (hpos : 0 < bits) (v : ℤ) :
    ¬ Misjudged n bits v ↔ (FitsBits false bits v ↔ FitsBits (n.kind == .signed) bits v) := by
  have hdouble := Nat.two_pow_pred_mul_two hpos
  have hhalf := Nat.two_pow_pos (bits - 1)
  by_cases hsigned : n.kind = .signed
  · have htrue : (n.kind == .signed) = true := beq_iff_eq.mpr hsigned
    simp only [Misjudged, and_iff_right hsigned, htrue, FitsBits, Bool.false_eq_true, if_false,
      if_true, ← natCast_two_pow]
    omega
  · have hfalse : (n.kind == .signed) = false := beq_eq_false_iff_ne.mpr hsigned
    rw [hfalse]
    exact iff_of_true (fun h => hsigned h.1) Iff.rfl

/-- A packed integer is read back or refused as it should be exactly if there is room for it where
it fits; for an enum the value must also fit both ways or not at all. -/
theorem packed_roundTripsOrRefuses_iff {n : Numeric} (hn : n.size.bits ≤ 32)
    (hkind : n.kind ≠ .float) (x : BitVec n.size.bits) {size : BufferUnit} (hpos : 1 ≤ size.bits)
    (hsize : size.bits ≤ n.size.bits) (buffer : List UInt8) (offset : BufferUnit) :
    (RoundTripsOrRefuses (.num n) x (FitsBits (n.kind == .signed) size.bits (intValue n x)) buffer
        offset size ↔
      (FitsBits (n.kind == .signed) size.bits (intValue n x) →
        offset.bits + size.bits ≤ 8 * buffer.length)) ∧
    (RoundTripsOrRefuses (.enum n) x (FitsBits (n.kind == .signed) size.bits (intValue n x)) buffer
        offset size ↔
      ¬ Misjudged n size.bits (intValue n x) ∧
        (FitsBits (n.kind == .signed) size.bits (intValue n x) →
          offset.bits + size.bits ≤ 8 * buffer.length)) := by
  obtain ⟨hnum, henum⟩ := integerToBits_int_iff hn hkind x hpos (show size.bits < 64 by omega)
  constructor
  · rw [roundTripsOrRefuses_iff hn hkind hpos hsize hnum (fun _ _ _ => Iff.rfl)]
    exact and_iff_right Iff.rfl
  · rw [roundTripsOrRefuses_iff hn hkind hpos hsize henum fun buffer offset next => by
      rw [deserializePackedPrimitive_enum hkind]; rfl, not_misjudged_iff hpos]

/-- A `short` of five bits at the bit 3, and an enum over `byte` with its largest value. -/
theorem packed_roundTripsOrRefuses_short :
    RoundTripsOrRefuses (.num .i16) (BitVec.ofInt 16 (-16)) (FitsBits true 5 (-16)) [0xFF] ⟨3⟩
        ⟨5⟩ ∧
      RoundTripsOrRefuses (.enum .u8) (BitVec.ofNat 8 15) (FitsBits false 4 15) [0xFF] ⟨2⟩ ⟨4⟩ := by
  constructor
  · exact ((@packed_roundTripsOrRefuses_iff .i16 (by decide) (by decide) (BitVec.ofInt 16 (-16)) ⟨5⟩
      (by decide) (by decide) [0xFF] ⟨3⟩).1).mpr (by decide)
  · refine ((@packed_roundTripsOrRefuses_iff .u8 (by decide) (by decide) (BitVec.ofNat 8 15) ⟨4⟩
      (by decide) (by decide) [0xFF] ⟨2⟩).2).mpr ⟨fun h => ?_, by decide⟩
    exact absurd h.1 (by decide)

/-- The number 9 of an enum over `int` is taken in four bits and comes back as -7. -/
theorem not_roundTripsOrRefuses_enum :
    serializePackedState (.enum .i32) (BitVec.ofInt 32 9) [0] ⟨0⟩ ⟨4⟩ =
        (.ok (), ([0x90], ⟨4⟩)) ∧
      deserializePackedPrimitive (.enum .i32) [0x90] ⟨0⟩ ⟨4⟩ =
        .ok (BitVec.ofInt 32 (-7), ⟨4⟩) ∧
      ¬ RoundTripsOrRefuses (.enum .i32) (BitVec.ofInt 32 9) (FitsBits true 4 9) [0] ⟨0⟩ ⟨4⟩ := by
  have hwritten : serializePackedState (.enum .i32) (BitVec.ofInt 32 9) [0] ⟨0⟩ ⟨4⟩ =
      (.ok (), ([0x90], ⟨4⟩)) := rfl
  have hread : deserializePackedPrimitive (.enum .i32) [0x90] ⟨0⟩ ⟨4⟩ =
      .ok (BitVec.ofInt 32 (-7), ⟨4⟩) := rfl
  refine ⟨hwritten, hread, fun h => ?_⟩
  rcases h.outcome with hrefused | ⟨packed, next, hserialize, hdeserialize⟩
  · cases hwritten.symm.trans hrefused
  · obtain rfl := congrArg Prod.snd (hwritten.symm.trans hserialize)
    have hsame : BitVec.ofInt 32 (-7) = BitVec.ofInt 32 9 :=
      congrArg Prod.fst (Except.ok.inj (hread.symm.trans hdeserialize))
    exact absurd hsame (by decide)

end Serialization
end CompostRpc
