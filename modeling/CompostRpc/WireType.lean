import CompostRpc.ByteMemory

/-!
# Wire types and their values

`MemUnit` measures a position or a size in bits. A `WireType` is a type a protocol definition may
use; bit field widths, enum values and numbers out of range cannot be built. `Value t` is the set
of in-range values of the type `t`, with integers and floats as bit patterns, and `toPy` is the
Python object that stands for such a value.
-/

namespace CompostRpc

structure MemUnit where
  bits : ℕ
  deriving DecidableEq, Repr

namespace MemUnit

def bitsPerByte : ℕ := 8

def fromBytes (bytes : ℕ) : MemUnit := ⟨bytes * bitsPerByte⟩

def bytes (u : MemUnit) : ℕ := (u.bits + bitsPerByte - 1) / bitsPerByte

def setBytes (_u : MemUnit) (value : ℕ) : MemUnit := ⟨value * bitsPerByte⟩

def isByteAligned (u : MemUnit) : Bool := u.bits % bitsPerByte == 0

def byteAlign (u : MemUnit) : MemUnit :=
  if u.isByteAligned then u else ⟨u.bytes * bitsPerByte⟩

instance : Add MemUnit := ⟨fun u v => ⟨u.bits + v.bits⟩⟩

@[ext] theorem ext {u v : MemUnit} (h : u.bits = v.bits) : u = v := by
  cases u; cases v; cases h; rfl

@[simp] theorem add_bits (u v : MemUnit) : (u + v).bits = u.bits + v.bits := rfl

@[simp] theorem setBytes_bits (u : MemUnit) (value : ℕ) : (u.setBytes value).bits = value * 8 := rfl

theorem bytes_eq (u : MemUnit) : u.bytes = (u.bits + 7) / 8 := rfl

theorem byteAlign_bits (u : MemUnit) : u.byteAlign.bits = 8 * u.bytes := by
  rw [byteAlign]
  by_cases h : u.isByteAligned
  · have hmod : u.bits % 8 = 0 := by simpa [isByteAligned, bitsPerByte] using h
    rw [if_pos h, bytes_eq]
    omega
  · rw [if_neg h, bitsPerByte, Nat.mul_comm]

@[simp] theorem byteAlign_bytes (u : MemUnit) : u.byteAlign.bytes = u.bytes := by
  rw [bytes_eq, byteAlign_bits, bytes_eq]
  omega

end MemUnit

inductive Numeric
  | u64 | i64 | u32 | i32 | u16 | i16 | u8 | i8 | f32 | f64
  deriving DecidableEq, Repr

inductive NumericKind
  | unsigned | signed | float
  deriving DecidableEq, Repr

namespace Numeric

def size : Numeric → MemUnit
  | u64 | i64 | f64 => ⟨64⟩
  | u32 | i32 | f32 => ⟨32⟩
  | u16 | i16 => ⟨16⟩
  | u8 | i8 => ⟨8⟩

def kind : Numeric → NumericKind
  | u64 | u32 | u16 | u8 => .unsigned
  | i64 | i32 | i16 | i8 => .signed
  | f32 | f64 => .float

theorem size_bits (n : Numeric) : n.size.bits = 8 * n.size.bytes := by cases n <;> rfl

theorem size_bytes_pos (n : Numeric) : 0 < n.size.bytes := by cases n <;> decide

end Numeric

instance neZero_bitWidths : NeZero 33 := ⟨by decide⟩

inductive EnumBacking
  | i8 | u8 | i16 | bitU (width : Fin 33)

namespace EnumBacking

def repr : EnumBacking → Numeric ⊕ Fin 33
  | i8 => .inl .i8
  | u8 => .inl .u8
  | i16 => .inl .i16
  | bitU width => .inr width

def InRange : EnumBacking → ℤ → Prop
  | i8, v => -(2 ^ 7) ≤ v ∧ v < 2 ^ 7
  | u8, v => 0 ≤ v ∧ v < 2 ^ 8
  | i16, v => -(2 ^ 15) ≤ v ∧ v < 2 ^ 15
  | bitU width, v => 0 ≤ v ∧ v < 2 ^ (width : ℕ)

instance (b : EnumBacking) (v : ℤ) : Decidable (b.InRange v) := by
  cases b <;> exact instDecidableAnd

/-- A value in range fits the number behind the enum. -/
theorem InRange.numeric {b : EnumBacking} {n : Numeric} (hb : b.repr = .inl n) {v : ℤ}
    (h : b.InRange v) :
    n.size.bits ≤ 16 ∧
      (n.kind = .signed ∧ -(2 ^ (n.size.bits - 1)) ≤ v ∧ v < 2 ^ (n.size.bits - 1) ∨
        n.kind = .unsigned ∧ 0 ≤ v ∧ v < 2 ^ n.size.bits) := by
  cases b with
  | i8 | i16 =>
    cases hb
    exact ⟨by decide, .inl ⟨rfl, h⟩⟩
  | u8 =>
    cases hb
    exact ⟨by decide, .inr ⟨rfl, h⟩⟩
  | bitU width => cases hb

end EnumBacking

structure EnumType where
  name : String
  backing : EnumBacking
  variants : List (String × ℤ)
  inRange : ∀ v ∈ variants, backing.InRange v.2

namespace EnumType

def values (e : EnumType) : List ℤ := e.variants.map Prod.snd

theorem inRange_of_mem (e : EnumType) {v : ℤ} (h : v ∈ e.values) : e.backing.InRange v := by
  obtain ⟨variant, hmem, rfl⟩ := List.mem_map.mp h
  exact e.inRange variant hmem

end EnumType

mutual

/-- A type usable in a protocol definition; `list` holds numbers only. -/
inductive WireType
  | num (n : Numeric)
  | str
  | bytes
  | list (inner : Numeric)
  | bitU (width : Fin 33)
  | enum (e : EnumType)
  | struct (name : String) (members : Members)

inductive Members
  | nil
  | cons (name : String) (type : WireType) (rest : Members)

end

namespace Members

def length : Members → ℕ
  | nil => 0
  | cons _ _ rest => rest.length + 1

def ofTypes : List WireType → Members
  | [] => nil
  | t :: ts => cons "" t (ofTypes ts)

end Members

/-- A Python object as the codec sees it. A float is its bit pattern in the declared width; a
`tuple` is what `astuple` makes of a nested dataclass instance. -/
inductive PyVal
  | int (v : ℤ)
  | float (bits : ℕ)
  | str (s : String)
  | bytes (b : List UInt8)
  | list (xs : List PyVal)
  | enum (v : ℤ)
  | struct (fields : List PyVal)
  | tuple (fields : List PyVal)

mutual

def Value : WireType → Type
  | .num n => BitVec n.size.bits
  | .str => String
  | .bytes => List UInt8
  | .list inner => List (BitVec inner.size.bits)
  | .bitU width => BitVec width
  | .enum e => {v : ℤ // v ∈ e.values}
  | .struct _ members => Values members

def Values : Members → Type
  | .nil => Unit
  | .cons _ t rest => Value t × Values rest

end

def Numeric.toPy (n : Numeric) (v : BitVec n.size.bits) : PyVal :=
  match n.kind with
  | .unsigned => .int v.toNat
  | .signed => .int v.toInt
  | .float => .float v.toNat

mutual

def Value.toPy : (t : WireType) → Value t → PyVal
  | .num n, v => n.toPy v
  | .str, s => .str s
  | .bytes, b => .bytes b
  | .list inner, xs => .list (List.map inner.toPy xs)
  | .bitU _, v => .int (BitVec.toNat v)
  | .enum _, v => .enum v.val
  | .struct _ members, vs => .struct (Values.toPy members vs)

def Values.toPy : (ms : Members) → Values ms → List PyVal
  | .nil, _ => []
  | .cons _ t rest, v => Value.toPy t v.1 :: Values.toPy rest v.2

end

/-- Induction on a list of members alone. -/
@[elab_as_elim]
theorem Members.induction {motive : Members → Prop} (nil : motive .nil)
    (cons : ∀ name t rest, motive rest → motive (.cons name t rest)) : ∀ ms, motive ms
  | .nil => nil
  | .cons name t rest => cons name t rest (Members.induction nil cons rest)

def utf8 (s : String) : List UInt8 := s.toByteArray.data.toList

/-- Strict UTF-8 decoding. -/
def ofUtf8? (bytes : List UInt8) : Option String := String.fromUTF8? ⟨bytes.toArray⟩

theorem ofUtf8?_utf8 (s : String) : ofUtf8? (utf8 s) = some s := by
  have h : (⟨(utf8 s).toArray⟩ : ByteArray) = s.toByteArray := by simp [utf8]
  simp only [ofUtf8?, h, String.fromUTF8?, dif_pos s.isValidUTF8]
  rfl

end CompostRpc
