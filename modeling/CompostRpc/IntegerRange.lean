import CompostRpc.WireFormat

/-!
# Ranges of integers in Python

The range of an integer type is written down three times: in the comparisons of its constructor, in
the format character that `struct.pack` gets, and for a bit field nowhere, since `BitU.pack` masks
what it is given. The first two agree but for `I64`, whose constructor takes 65 bits.
-/

namespace CompostRpc
open ByteMemory

inductive IntegerType
  | u64 | i64 | u32 | i32 | u16 | i16 | u8 | i8 | bitU (width : Fin 33)
  deriving DecidableEq

/-- The two comparisons of a constructor, with the text of the `ValueError` of each. -/
def newInteger (lo hi : ℤ) (below above : String) (value : ℤ) : Except String ℤ :=
  if value < lo then .error below
  else if value ≥ hi then .error above
  else .ok value

def newU64 : ℤ → Except String ℤ :=
  newInteger 0 (2 ^ 64) "Unsigned type cannot hold negative value"
    "Value too large for 64 bit unsigned integer"

def newI64 : ℤ → Except String ℤ :=
  newInteger (-(2 ^ 64)) (2 ^ 64) "Unsigned type cannot hold negative value"
    "Value too large for 64 bit unsigned integer"

def newU32 : ℤ → Except String ℤ :=
  newInteger 0 (2 ^ 32) "Unsigned type cannot hold negative value"
    "Value too large for 32 bit unsigned integer"

def newI32 : ℤ → Except String ℤ :=
  newInteger (-(2 ^ 31)) (2 ^ 31) "Unsigned type cannot hold negative value"
    "Value too large for 32 bit unsigned integer"

def newU16 : ℤ → Except String ℤ :=
  newInteger 0 (2 ^ 16) "Unsigned type cannot hold negative value"
    "Value too large for 16 bit unsigned integer"

def newI16 : ℤ → Except String ℤ :=
  newInteger (-(2 ^ 15)) (2 ^ 15) "Value is less than minimum for 16 bit signed integer"
    "Value too large for 16 bit signed integer"

def newU8 : ℤ → Except String ℤ :=
  newInteger 0 (2 ^ 8) "Unsigned type cannot hold negative value"
    "Value too large for 8 bit unsigned integer"

def newI8 : ℤ → Except String ℤ :=
  newInteger (-(2 ^ 7)) (2 ^ 7) "Value is less than minimum for 8 bit signed integer"
    "Value too large for 8 bit signed integer"

def newBitU (width : Fin 33) : ℤ → Except String ℤ :=
  newInteger 0 (2 ^ (width : ℕ)) "Unsigned type cannot hold negative value"
    s!"Value too large for {(width : ℕ)} bit unsigned integer"

namespace IntegerType

def construct : IntegerType → ℤ → Except String ℤ
  | u64 => newU64
  | i64 => newI64
  | u32 => newU32
  | i32 => newI32
  | u16 => newU16
  | i16 => newI16
  | u8 => newU8
  | i8 => newI8
  | bitU width => newBitU width

def wireType : IntegerType → WireType
  | u64 => .num .u64
  | i64 => .num .i64
  | u32 => .num .u32
  | i32 => .num .i32
  | u16 => .num .u16
  | i16 => .num .i16
  | u8 => .num .u8
  | i8 => .num .i8
  | bitU width => .bitU width

def width : IntegerType → ℕ
  | u64 | i64 => 64
  | u32 | i32 => 32
  | u16 | i16 => 16
  | u8 | i8 => 8
  | bitU width => width

def isSigned : IntegerType → Bool
  | i64 | i32 | i16 | i8 => true
  | _ => false

def Representable (t : IntegerType) (v : ℤ) : Prop :=
  if t.isSigned then -(2 ^ (t.width - 1)) ≤ v ∧ v < 2 ^ (t.width - 1) else 0 ≤ v ∧ v < 2 ^ t.width

def HasRoom (t : IntegerType) (buffer : List UInt8) (offset : MemUnit) : Prop :=
  match t with
  | bitU width => offset.bits + width ≤ 8 * buffer.length
  | t => 8 * offset.bytes + t.width ≤ 8 * buffer.length

/-- The constructor and `pack_payload` take the same values, alone and at every offset of a struct,
and these are the representable ones. -/
structure RangeEnforced (t : IntegerType) (v : ℤ) : Prop where
  representable : (∃ x, t.construct v = .ok x) ↔ t.Representable v
  alone : (∃ payload, packPayload (.ofTypes [t.wireType]) [.int v] = .ok payload) ↔
    ∃ x, t.construct v = .ok x
  member : ∀ buffer offset, t.HasRoom buffer offset →
    ((∃ r, pack buffer offset t.wireType (.int v) = .ok r) ↔ ∃ x, t.construct v = .ok x)

def Agrees : IntegerType → ℤ → Prop
  | i64, v => -(2 ^ 63) ≤ v ∧ v < 2 ^ 63 ∨ v < -(2 ^ 64) ∨ 2 ^ 64 ≤ v
  | bitU width, v => 0 ≤ v ∧ v < 2 ^ (width : ℕ)
  | _, _ => True

theorem newInteger_ok_iff {lo hi : ℤ} {below above : String} {v : ℤ} :
    (∃ x, newInteger lo hi below above v = .ok x) ↔ lo ≤ v ∧ v < hi := by
  rw [newInteger]
  split_ifs with hbelow habove
  · exact iff_of_false (by rintro ⟨x, hx⟩; cases hx) (by omega)
  · exact iff_of_false (by rintro ⟨x, hx⟩; cases hx) (by omega)
  · exact iff_of_true ⟨v, rfl⟩ (by omega)

theorem structPack_int_length {n : Numeric} {v : ℤ} {data : List UInt8}
    (h : structPack n (.int v) = .ok data) : data.length = n.size.bytes := by
  simp only [structPack] at h
  cases hkind : n.kind with
  | float =>
    rw [hkind] at h
    cases h
  | _ =>
    simp only [hkind] at h
    split_ifs at h
    cases h
    exact length_beBytes _ _

/-- With room in the buffer a number is packed if and only if `struct.pack` takes it. -/
theorem exists_packNumeric_iff {n : Numeric} {v : ℤ} {buffer : List UInt8} {offset : MemUnit}
    (hroom : offset.bytes + n.size.bytes ≤ buffer.length) :
    (∃ r, packNumeric n buffer offset (.int v) = .ok r) ↔
      ∃ data, structPack n (.int v) = .ok data := by
  constructor
  · rintro ⟨r, hr⟩
    obtain ⟨data, hdata, -⟩ := except_bind_eq_ok.mp hr
    exact ⟨data, hdata⟩
  · rintro ⟨data, hdata⟩
    exact exists_packNumeric hdata (structPack_int_length hdata) hroom

/-- The values that are packed: the representable ones, and any for a bit field. -/
def Packable : IntegerType → ℤ → Prop
  | bitU _, _ => True
  | t, v => t.Representable v

theorem exists_structPack_iff {n : Numeric} {v : ℤ} {t : IntegerType} (ht : t.wireType = .num n) :
    (∃ data, structPack n (.int v) = .ok data) ↔ t.Representable v := by
  have hok : ∀ {p : Prop} [Decidable p] {data : List UInt8},
      (∃ d, (if p then .ok data else .error .structError : Except PyError (List UInt8)) = .ok d) ↔
        p := by
    intro p _ data
    by_cases hp : p
    · exact iff_of_true ⟨data, if_pos hp⟩ hp
    · rw [if_neg hp]
      exact iff_of_false (by rintro ⟨d, hd⟩; cases hd) hp
  cases t with
  | bitU width => cases ht
  | _ =>
    cases ht
    exact hok

theorem exists_pack_iff {t : IntegerType} {v : ℤ} {buffer : List UInt8} {offset : MemUnit}
    (hroom : t.HasRoom buffer offset) :
    (∃ r, pack buffer offset t.wireType (.int v) = .ok r) ↔ t.Packable v := by
  cases t with
  | bitU width =>
    refine iff_of_true ?_ trivial
    rw [wireType, pack, asInt, except_ok_bind]
    exact exists_packBitU v hroom
  | _ =>
    refine Iff.trans (exists_packNumeric_iff ?_) (exists_structPack_iff rfl)
    simp only [HasRoom, width, MemUnit.bytes, Numeric.size, MemUnit.bitsPerByte] at hroom ⊢
    omega

theorem exists_packPayload_iff (t : WireType) (value : PyVal) :
    (∃ payload, packPayload (.ofTypes [t]) [value] = .ok payload) ↔
      ∃ r, pack (List.replicate scratchSize 0) ⟨0⟩ t value = .ok r := by
  have hmembers : ∀ r, packMembers (List.replicate scratchSize 0) ⟨0⟩ (.ofTypes [t]) [value] =
      .ok r ↔ pack (List.replicate scratchSize 0) ⟨0⟩ t value = .ok r := by
    intro r
    simp only [Members.ofTypes, packMembers]
    cases pack (List.replicate scratchSize 0) ⟨0⟩ t value <;> rfl
  constructor
  · rintro ⟨payload, hpayload⟩
    obtain ⟨r, hr, -⟩ := except_bind_eq_ok.mp hpayload
    exact ⟨r, (hmembers r).mp hr⟩
  · rintro ⟨r, hr⟩
    exact ⟨r.1.take r.2.bytes, except_bind_eq_ok.mpr ⟨r, (hmembers r).mpr hr, rfl⟩⟩

theorem hasRoom_replicate (t : IntegerType) :
    t.HasRoom (List.replicate scratchSize 0) ⟨0⟩ := by
  cases t with
  | bitU width =>
    have hwidth : (width : ℕ) < 33 := width.isLt
    rw [HasRoom, List.length_replicate, scratchSize]
    change 0 + (width : ℕ) ≤ 8 * 1024
    omega
  | _ =>
    rw [HasRoom, List.length_replicate]
    · decide
    · exact fun _ h => by cases h

/-- The values that the constructor takes. -/
theorem exists_construct_iff (t : IntegerType) (v : ℤ) :
    (∃ x, t.construct v = .ok x) ↔
      if t = i64 then -(2 ^ 64) ≤ v ∧ v < 2 ^ 64 else t.Representable v := by
  cases t <;> exact newInteger_ok_iff

/-- The ranges of a type agree on every value but for `I64`, which constructs more values than it
packs, and for bit fields, which pack any value. -/
theorem rangeEnforced_iff (t : IntegerType) (v : ℤ) : t.RangeEnforced v ↔ t.Agrees v := by
  have hranges : t.RangeEnforced v ↔
      ((∃ x, t.construct v = .ok x) ↔ t.Representable v) ∧
        (t.Packable v ↔ ∃ x, t.construct v = .ok x) := by
    constructor
    · rintro ⟨hrepresentable, -, hmember⟩
      exact ⟨hrepresentable,
        (exists_pack_iff t.hasRoom_replicate).symm.trans (hmember _ _ t.hasRoom_replicate)⟩
    · rintro ⟨hrepresentable, hpackable⟩
      refine ⟨hrepresentable, ?_, fun buffer offset hroom =>
        (exists_pack_iff hroom).trans hpackable⟩
      exact (exists_packPayload_iff _ _).trans
        ((exists_pack_iff t.hasRoom_replicate).trans hpackable)
  rw [hranges, exists_construct_iff]
  cases t with
  | i64 =>
    rw [if_pos rfl]
    simp only [Packable, Representable, Agrees, isSigned, width, if_pos]
    omega
  | bitU width =>
    simp only [Packable, Representable, Agrees, isSigned, reduceCtorEq, if_false, true_iff]
    exact and_iff_right trivial
  | _ =>
    rw [if_neg (by decide)]
    exact iff_of_true ⟨Iff.rfl, Iff.rfl⟩ trivial

/-- `I64` constructs 2⁶³, which is not packed; `BitU[3]` does not construct 8, which is packed as
0. -/
theorem not_rangeEnforced_slips :
    newI64 (2 ^ 63) = .ok (2 ^ 63) ∧ ¬ i64.RangeEnforced (2 ^ 63) ∧
      packPayload (.ofTypes [.bitU 3]) [.int 8] = .ok [0] ∧ ¬ (bitU 3).RangeEnforced 8 := by
  refine ⟨by decide, ?_, by decide +kernel, ?_⟩
  · rw [rangeEnforced_iff]
    simp only [Agrees]
    omega
  · rw [rangeEnforced_iff]
    rintro ⟨-, h⟩
    exact absurd h (by decide)

end IntegerType

end CompostRpc
