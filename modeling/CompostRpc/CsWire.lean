import CompostRpc.CsLayout
import CompostRpc.StructBoundaries

/-!
# C# types and the types of the protocol

A class of scalars, lists of scalars, packed unsigned properties and classes of the same kind has a
struct type of the protocol that stands for it. `csPieces` of an object is then the format of its
contents without any alignment at the structs, and `csBits` is the size that the constructor of a
message counts.
-/

namespace CompostRpc
open ByteMemory Piece Serialization

def CsType.scalar : CsType → Option Numeric
  | .bool | .char => some .u8
  | .num n | .enum n => some n
  | .string | .list _ | .cls _ => none

def CsType.numeric (t : CsType) : Numeric := t.scalar.getD .u8

mutual

/-- The types made of scalars, lists of scalars and classes, in which packed properties are of an
unsigned type and have the width of a bit field. -/
def CsType.hasWire : CsType → Bool
  | .bool | .char | .num _ | .enum _ => true
  | .string => false
  | .list element => element.scalar.isSome
  | .cls properties => properties.haveWire

def CsProperties.haveWire : CsProperties → Bool
  | .nil => true
  | .cons t packedSize rest =>
    (match packedSize with
      | none => t.hasWire
      | some size => match t with
        | .num n => n.kind == .unsigned && decide (size.bits ≤ 32)
        | _ => false) && rest.haveWire

end

def elementBytes : (t : CsType) → CsValue t → List UInt8
  | .bool, x => [UInt8.ofNat (Bool.toNat x)]
  | .char, x => [UInt16.toUInt8 x]
  | .num n, x => beBytes n.size.bytes (BitVec.toNat x)
  | .enum n, x => beBytes n.size.bytes (BitVec.toNat x)
  | .string, _ | .list _, _ | .cls _, _ => []

mutual

/-- The corresponding type; a string is given one byte. -/
def CsType.wire : CsType → WireType
  | .bool | .char | .string => .num .u8
  | .num n | .enum n => .num n
  | .list element => .list element.numeric
  | .cls properties => .struct "" properties.wireAll

def CsProperties.wireAll : CsProperties → Members
  | .nil => .nil
  | .cons t packedSize rest =>
    .cons "" (match packedSize with
      | none => t.wire
      | some size => .bitU (Fin.ofNat 33 size.bits)) rest.wireAll

end

def rawNat : (t : CsType) → CsValue t → ℕ
  | .num _, x => BitVec.toNat x
  | _, _ => 0

mutual

def csContents : (t : CsType) → CsValue t → Contents t.wire
  | .bool, x => BitVec.ofNat 8 (Bool.toNat x)
  | .char, x => (UInt16.toUInt8 x).toBitVec
  | .num _, x => x
  | .enum _, x => x
  | .string, _ => (0 : BitVec 8)
  | .list element, xs => List.flatMap (elementBytes element) xs
  | .cls properties, xs => csContentsAll properties xs

def csContentsAll : (ps : CsProperties) → CsValues ps → ContentsAll ps.wireAll
  | .nil, _ => ()
  | .cons t none rest, x => (csContents t x.1, csContentsAll rest x.2)
  | .cons t (some size) rest, x =>
    (BitVec.ofNat (Fin.ofNat 33 size.bits) (rawNat t x.1), csContentsAll rest x.2)

end

mutual

def PacksFit : (t : CsType) → CsValue t → Prop
  | .cls properties, xs => AllPacksFit properties xs
  | _, _ => True

def AllPacksFit : (ps : CsProperties) → CsValues ps → Prop
  | .nil, _ => True
  | .cons t packedSize rest, x =>
    (match packedSize with
      | none => PacksFit t x.1
      | some size => rawNat t x.1 < 2 ^ size.bits) ∧ AllPacksFit rest x.2

end

mutual

def CsType.noPackedULong : CsType → Bool
  | .cls properties => properties.noPackedULong
  | _ => true

def CsProperties.noPackedULong : CsProperties → Bool
  | .nil => true
  | .cons t packedSize rest =>
    (match packedSize with
      | none => t.noPackedULong
      | some _ => match t with
        | .num n => n != .u64
        | _ => true) && rest.noPackedULong

end

mutual

def csBits : (t : CsType) → CsValue t → ℕ
  | .bool, _ | .char, _ => 8
  | .num n, _ => n.size.bits
  | .enum n, _ => n.size.bits
  | .string, s => 8 * (List.length s + 2)
  | .list element, xs =>
    match (xs : List (CsValue element)) with
    | [] => 16
    | x :: rest => csBits element x * (rest.length + 1) + 16
  | .cls properties, xs => csBitsAll properties xs

def csBitsAll : (ps : CsProperties) → CsValues ps → ℕ
  | .nil, _ => 0
  | .cons t packedSize rest, x =>
    (match packedSize with
      | none => csBits t x.1
      | some size => size.bits) + csBitsAll rest x.2

end

/-- Induction on a list of properties alone. -/
@[elab_as_elim]
theorem CsProperties.induction {motive : CsProperties → Prop} (nil : motive .nil)
    (cons : ∀ t packedSize rest, motive rest → motive (.cons t packedSize rest)) :
    ∀ ps, motive ps
  | .nil => nil
  | .cons t packedSize rest => cons t packedSize rest (CsProperties.induction nil cons rest)

theorem csPieces_scalar {t : CsType} (h : t.scalar.isSome = true) (x : CsValue t) :
    csPieces t x = [.bytes (elementBytes t x)] := by
  cases t with
  | bool | char | num n | enum n => rfl
  | string | list element | cls properties => cases h

theorem packable_scalar {t : CsType} (h : t.scalar.isSome = true) (x : CsValue t) :
    Packable t x := by
  cases t with
  | bool | char | num n | enum n => trivial
  | string | list element | cls properties => cases h

theorem getObjectSize_scalar {t : CsType} (h : t.scalar.isSome = true) (x : CsValue t) :
    getObjectSize t x = .ok t.numeric.size := by
  cases t with
  | bool | char | num n | enum n => rfl
  | string | list element | cls properties => cases h

theorem csBits_scalar {t : CsType} (h : t.scalar.isSome = true) (x : CsValue t) :
    csBits t x = t.numeric.size.bits := by
  cases t with
  | bool | char | num n | enum n => rfl
  | string | list element | cls properties => cases h

theorem length_elementBytes {t : CsType} (h : t.scalar.isSome = true) (x : CsValue t) :
    (elementBytes t x).length = t.numeric.size.bytes := by
  cases t with
  | bool | char => rfl
  | num n | enum n => exact length_beBytes _ _
  | string | list element | cls properties => cases h

theorem testPacked_unsigned {n : Numeric} (hkind : n.kind = .unsigned) (hn : n ≠ .u64)
    (size : BufferUnit) : testPacked (.num n) size = .ok 0 := by
  have hrep : integerRep (.num n) (0 : BitVec n.size.bits) = .ok 0 := by
    cases n with
    | u64 => exact absurd rfl hn
    | u32 | u16 | u8 => rfl
    | _ => cases hkind
  exact integerToBits_zero hrep size

theorem size_bits_ne {n : Numeric} (hkind : n.kind = .unsigned) (hn : n ≠ .u64) :
    n.size.bits ≠ 64 := by
  cases n with
  | u64 => exact absurd rfl hn
  | u32 | u16 | u8 => decide
  | _ => cases hkind

theorem getCompostStructProperties_ok {ps : CsProperties} (hw : ps.haveWire = true)
    (hp : ps.noPackedULong = true) : getCompostStructProperties ps = .ok () := by
  induction ps using CsProperties.induction with
  | nil => rfl
  | cons t packedSize rest ih =>
    simp only [CsProperties.haveWire, CsProperties.noPackedULong, Bool.and_eq_true] at hw hp
    cases packedSize with
    | none => exact ih hw.2 hp.2
    | some size =>
      cases t with
      | num n =>
        simp only [Bool.and_eq_true, beq_iff_eq, bne_iff_ne] at hw hp
        rw [getCompostStructProperties, testPacked_unsigned hw.1.1 hp.1]
        exact ih hw.2 hp.2
      | _ => cases hw.1

mutual

/-- The objects that `serialize` accepts: those without a packed `ulong`. -/
theorem packable_of_noPackedULong (t : CsType) (x : CsValue t) (hw : t.hasWire = true)
    (hfit : PacksFit t x) (hp : t.noPackedULong = true) : Packable t x := by
  match t, x with
  | .bool, _ | .char, _ | .num _, _ | .enum _, _ => trivial
  | .list element, xs =>
    have hscalar : element.scalar.isSome = true := hw
    exact ⟨fun x _ => ⟨_, getObjectSize_scalar hscalar x⟩, fun x _ => packable_scalar hscalar x⟩
  | .cls properties, xs =>
    exact ⟨getCompostStructProperties_ok hw hp, propertiesPackable properties xs hw hfit hp⟩
  | .string, _ => cases hw

theorem propertiesPackable (ps : CsProperties) (xs : CsValues ps) (hw : ps.haveWire = true)
    (hfit : AllPacksFit ps xs) (hp : ps.noPackedULong = true) : PropertiesPackable ps xs := by
  match ps, xs with
  | .nil, _ => trivial
  | .cons t none rest, (x, xs) =>
    simp only [CsProperties.haveWire, CsProperties.noPackedULong, Bool.and_eq_true] at hw hp
    exact ⟨packable_of_noPackedULong t x hw.1 hfit.1 hp.1,
      propertiesPackable rest xs hw.2 hfit.2 hp.2⟩
  | .cons t (some size) rest, (x, xs) =>
    simp only [CsProperties.haveWire, CsProperties.noPackedULong, Bool.and_eq_true] at hw hp
    refine ⟨?_, propertiesPackable rest xs hw.2 hfit.2 hp.2⟩
    cases t with
    | num n =>
      simp only [Bool.and_eq_true, beq_iff_eq, bne_iff_ne, decide_eq_true_eq] at hw hp
      have hsize : size.bits < 64 := by omega
      have hbits := integerToBits_unsigned hw.1.1 (size_bits_ne hw.1.1 hp.1) x hsize
      exact ⟨hsize.le, _, hbits.trans (if_pos hfit.1)⟩
    | _ => cases hw.1

end

mutual

theorem noPackedULong_of_serialize (t : CsType) (x : CsValue t) (hw : t.hasWire = true)
    {buffer : List UInt8} {offset : BufferUnit} {r : CsBuffer}
    (h : serialize t x buffer offset = .ok r) : t.noPackedULong = true := by
  match t, x with
  | .bool, _ | .char, _ | .num _, _ | .enum _, _ | .list _, _ => rfl
  | .cls properties, xs =>
    rw [serialize] at h
    obtain ⟨-, -, hproperties⟩ := except_bind_eq_ok.mp h
    exact noPackedULong_of_serializeProperties properties xs hw hproperties
  | .string, _ => cases hw

theorem noPackedULong_of_serializeProperties (ps : CsProperties) (xs : CsValues ps)
    (hw : ps.haveWire = true) {buffer : List UInt8} {offset : BufferUnit} {r : CsBuffer}
    (h : serializeProperties ps xs buffer offset = .ok r) : ps.noPackedULong = true := by
  match ps, xs with
  | .nil, _ => rfl
  | .cons t none rest, (x, xs) =>
    simp only [CsProperties.haveWire, Bool.and_eq_true] at hw
    simp only [CsProperties.noPackedULong, Bool.and_eq_true]
    obtain ⟨r₁, hfirst, hrest⟩ := except_bind_eq_ok.mp h
    exact ⟨noPackedULong_of_serialize t x hw.1 hfirst,
      noPackedULong_of_serializeProperties rest xs hw.2 hrest⟩
  | .cons t (some size) rest, (x, xs) =>
    simp only [CsProperties.haveWire, Bool.and_eq_true] at hw
    simp only [CsProperties.noPackedULong, Bool.and_eq_true]
    obtain ⟨r₁, hfirst, hrest⟩ := except_bind_eq_ok.mp h
    refine ⟨?_, noPackedULong_of_serializeProperties rest xs hw.2 hrest⟩
    cases t with
    | num n =>
      rw [bne_iff_ne]
      rintro rfl
      cases hfirst
    | _ => cases hw.1

end

end CompostRpc
