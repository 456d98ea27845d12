import CompostRpc.CsPacked
import CompostRpc.UnpackFields

/-!
# The C# properties generated for bit fields

`CSharpCodeGenerator` declares a member `BitU[n]` as an `int` with the attribute `[Pack(n)]`, and
one of 32 bits as a `ulong`. An `int` carries the lower half of the range only, and `IntegerToBits`
knows no `ulong`, which is found out at the first use of the class.
-/

namespace CompostRpc
open ByteMemory Piece Serialization

namespace CSharpCodeGenerator

def bitUNumeric (width : Fin 33) : Numeric := if (width : ℕ) ≥ 32 then .u64 else .i32

/-- The `Pack` attribute of a member. An enum over a bit field is a subclass of `BitU`. -/
def packedSize : WireType → Option BufferUnit
  | .bitU width => some ⟨width⟩
  | .enum e =>
    match e.backing.repr with
    | .inr width => some ⟨width⟩
    | .inl _ => none
  | _ => none

mutual

def type : WireType → CsType
  | .num n => .num n
  | .str => .string
  | .bytes => .list (.num .u8)
  | .list inner => .list (.num inner)
  | .bitU width => .num (bitUNumeric width)
  | .enum e =>
    match e.backing.repr with
    | .inr width => .enum (bitUNumeric width)
    | .inl n => .enum n
  | .struct _ members => .cls (typeDefinition members)

def typeDefinition : Members → CsProperties
  | .nil => .nil
  | .cons _ t rest => .cons (type t) (packedSize t) (typeDefinition rest)

end

end CSharpCodeGenerator

open CSharpCodeGenerator

def Members.types : Members → List WireType
  | .nil => []
  | .cons _ t rest => t :: rest.types

theorem testPacked_bitU (width : Fin 33) :
    testPacked (.num (bitUNumeric width)) ⟨width⟩ =
      if width = 32 then .error .notSupported else .ok 0 := by
  by_cases hw : width = 32
  · subst hw
    rfl
  · have hlt : ¬ (width : ℕ) ≥ 32 := by
      have hne : (width : ℕ) ≠ 32 := fun h => hw (Fin.ext h)
      omega
    rw [if_neg hw, bitUNumeric, if_neg hlt]
    exact integerToBits_zero rfl _

theorem testPacked_enum (n : Numeric) (size : BufferUnit) : testPacked (.enum n) size = .ok 0 := by
  have hrep : integerRep (.enum n) (0 : BitVec n.size.bits) = .ok 0 := by cases n <;> rfl
  exact integerToBits_zero hrep size

theorem getCompostStructProperties_cons {t : CsType} {size : BufferUnit} {rest : CsProperties}
    {r : BitVec 64} (h : testPacked t size = .ok r) :
    getCompostStructProperties (.cons t (some size) rest) = getCompostStructProperties rest := by
  rw [getCompostStructProperties, h]
  rfl

/-- The class can be used if no member is declared as a packed `ulong`. -/
theorem getCompostStructProperties_ok_iff (members : Members) :
    getCompostStructProperties (typeDefinition members) = .ok () ↔
      WireType.bitU 32 ∉ members.types := by
  induction members using Members.induction with
  | nil => simp [typeDefinition, getCompostStructProperties, Members.types]
  | cons name t rest ih =>
    rw [typeDefinition, Members.types, List.mem_cons, not_or]
    cases t with
    | bitU width =>
      rw [WireType.bitU.injEq, eq_comm (a := (32 : Fin 33)), ← ih]
      simp only [type, packedSize, getCompostStructProperties, testPacked_bitU]
      by_cases hw : width = 32
      · rw [if_pos hw]
        exact iff_of_false (fun h => nomatch h) fun h => h.1 hw
      · rw [if_neg hw, except_ok_bind]
        exact (and_iff_right hw).symm
    | enum e =>
      rw [and_iff_right (by exact fun h => nomatch h), ← ih]
      simp only [type, packedSize]
      cases e.backing.repr with
      | inl n => rfl
      | inr width => rw [getCompostStructProperties_cons (testPacked_enum _ _)]
    | _ =>
      rw [and_iff_right (by exact fun h => nomatch h), ← ih]
      rfl

theorem toInt_ofNat_of_lt {v w : ℕ} (hv : 2 * v < 2 ^ w) : (BitVec.ofNat w v).toInt = v := by
  have hlt : v < 2 ^ w := by omega
  rw [BitVec.toInt_eq_toNat_of_lt]
  · rw [BitVec.toNat_ofNat, Nat.mod_eq_of_lt hlt]
  · rwa [BitVec.toNat_ofNat, Nat.mod_eq_of_lt hlt]

/-- An `int` passes in the lower half of the range. -/
theorem integerToBits_int {v width : ℕ} (hpos : 0 < width)
    (hsize : width < 32) (hv : v < 2 ^ width) :
    integerToBits (.num .i32) (BitVec.ofNat Numeric.i32.size.bits v) ⟨width⟩ =
      if v < 2 ^ (width - 1) then .ok (BitVec.ofNat 64 v) else .error .overflow := by
  have hlt : v < 2 ^ 31 := hv.trans_le (Nat.pow_le_pow_right (by decide) (by omega))
  have hint : (BitVec.ofNat Numeric.i32.size.bits v).toInt = v :=
    toInt_ofNat_of_lt (by change 2 * v < 2 ^ 32; omega)
  have hcast := natCast_two_pow (width - 1)
  have hrange : (-(2 ^ (width - 1) : ℤ) ≤ v ∧ (v : ℤ) < 2 ^ (width - 1)) ↔
      v < 2 ^ (width - 1) := by omega
  have hextend : (BitVec.ofNat Numeric.i32.size.bits v).signExtend 64 = BitVec.ofNat 64 v := by
    rw [← BitVec.toInt_inj, BitVec.toInt_signExtend_of_le (by decide), hint,
      toInt_ofNat_of_lt (by omega)]
  rw [integerToBits_signed rfl (by decide) _ hpos (hsize.trans (by decide)), hextend, hint]
  exact if_congr hrange rfl rfl

/-- What was gathered is the number itself where the sign bit is not set. -/
theorem deserializePackedPrimitive_int {v width : ℕ} (hsize : width < 32)
    (hv : v < 2 ^ (width - 1)) {buffer : List UInt8} {offset next : BufferUnit}
    (hunpack : unpackBitU width buffer offset = .ok (v, next)) :
    deserializePackedPrimitive (.num .i32) buffer offset ⟨width⟩ =
      .ok (BitVec.ofNat Numeric.i32.size.bits v, next) := by
  obtain ⟨val, hloop, hval⟩ := except_bind_eq_ok.mp hunpack
  cases hval
  by_cases hpos : 0 < width
  · have hlt : v < 2 ^ width := hv.trans (Nat.pow_lt_pow_right (by decide) (by omega))
    have hlong : v < 2 ^ 63 := hlt.trans (Nat.pow_lt_pow_right (by decide) (by omega))
    have hint : (BitVec.ofNat 64 v).toInt = v := toInt_ofNat_of_lt (by omega)
    have hcast := natCast_two_pow (width - 1)
    have hself : ((BitVec.ofNat 64 v).setWidth width).signExtend 64 = BitVec.ofNat 64 v := by
      rw [signExtend_setWidth_eq_self_iff hpos (by omega), hint]
      omega
    rw [deserializePackedPrimitive_signed rfl hpos (hsize.trans (by decide)) hlt hloop, hself]
    congr 2
    apply BitVec.eq_of_toNat_eq
    have hmod : v % 2 ^ 64 = v := Nat.mod_eq_of_lt (by omega)
    rw [BitVec.toNat_setWidth, BitVec.toNat_ofNat, BitVec.toNat_ofNat, hmod]
  · -- without bits the loop gathers zero
    obtain rfl : width = 0 := by omega
    obtain rfl : v = 0 := by omega
    rfl

theorem bitUNumeric_of_ne {width : Fin 33} (hw : width ≠ 32) :
    bitUNumeric width = .i32 ∧ (width : ℕ) < 32 := by
  have hne : (width : ℕ) ≠ 32 := fun h => hw (Fin.ext h)
  have hlt : (width : ℕ) < 32 := by omega
  exact ⟨if_neg (by omega), hlt⟩

end CompostRpc
