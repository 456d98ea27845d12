import CompostRpc.BitFieldProperties
import CompostRpc.CsCallValues
import CompostRpc.CsStrings
import CompostRpc.PackedIntegers
import CompostRpc.SendValues

/-!
# Objects of the generated classes

`CSharpCodeGenerator` declares a C# type for every type of a protocol. An object of that type that
stands for a Python value has the layout of the value without alignment at the structs, if its texts
are ASCII and its bit fields are in the lower half of their range. So a C# call makes the message of
the Python call, byte for byte, if no field is shifted by such an alignment and the message has room
for the others.
-/

namespace CompostRpc
open ByteMemory Piece Serialization

namespace CSharpCodeGenerator

def enumObject : (r : Numeric ⊕ Fin 33) → ℤ →
    CsValue (match r with
      | .inr width => .enum (bitUNumeric width)
      | .inl n => .enum n)
  | .inr width, v => BitVec.ofInt (bitUNumeric width).size.bits v
  | .inl n, v => BitVec.ofInt n.size.bits v

mutual

def object : (t : WireType) → Value t → CsValue (type t)
  | .num _, v => v
  | .str, s => utf16 s
  | .bytes, b => List.map UInt8.toBitVec b
  | .list _, xs => xs
  | .bitU width, v => BitVec.ofNat (bitUNumeric width).size.bits (BitVec.toNat v)
  | .enum e, v => enumObject e.backing.repr v.val
  | .struct _ members, vs => objects members vs

def objects : (ms : Members) → Values ms → CsValues (typeDefinition ms)
  | .nil, _ => ()
  | .cons _ t rest, v => (object t v.1, objects rest v.2)

end

def parameterTypes : Members → List CsType
  | .nil => []
  | .cons _ t rest => type t :: parameterTypes rest

def argumentObjects : (ms : Members) → Values ms → CsValues (.ofTypes (parameterTypes ms))
  | .nil, _ => ()
  | .cons _ t rest, v => (object t v.1, argumentObjects rest v.2)

mutual

def Carried : (t : WireType) → Value t → Prop
  | .str, s => ∀ c ∈ String.toList s, c.toNat < 128
  | .bitU width, v => BitVec.toNat v < 2 ^ ((width : ℕ) - 1)
  | .struct _ members, vs => CarriedAll members vs
  | .num _, _ | .bytes, _ | .list _, _ | .enum _, _ => True

def CarriedAll : (ms : Members) → Values ms → Prop
  | .nil, _ => True
  | .cons _ t rest, v => Carried t v.1 ∧ CarriedAll rest v.2

end

end CSharpCodeGenerator

open CSharpCodeGenerator

/-- A number that fits is packed as it is. -/
theorem packed_of_integerRep {t : CsType} {x : CsValue t} {size : BufferUnit} {raw : ℕ}
    (hrep : integerRep t x = .ok (BitVec.ofNat 64 raw)) (hsize : size.bits ≤ 32)
    (hraw : raw < 2 ^ size.bits)
    (hsigned : isTypeSignedInteger t = true → raw < 2 ^ (size.bits - 1)) :
    integerToBits t x size = .ok (BitVec.ofNat 64 raw) ∧ packedNat t x size = raw := by
  have hlong : raw < 2 ^ 63 := hraw.trans (Nat.pow_lt_pow_right (by decide) (by omega))
  have hint : (BitVec.ofNat 64 raw).toInt = raw := toInt_ofNat_of_lt (by omega)
  have hbits : integerToBits t x size = .ok (BitVec.ofNat 64 raw) := by
    by_cases hpos : 0 < size.bits
    · have hfits : FitsBits (isTypeSignedInteger t) size.bits raw := by
        have hcast := natCast_two_pow size.bits
        have hcast' := natCast_two_pow (size.bits - 1)
        cases hs : isTypeSignedInteger t with
        | true =>
          have hhalf := hsigned hs
          simp only [FitsBits, if_true]
          omega
        | false =>
          simp only [FitsBits, Bool.false_eq_true, if_false]
          omega
      rw [integerToBits_of_rep hrep hpos (by omega), hint, if_pos hfits]
    · have hzero : size.bits = 0 := by omega
      rw [hzero] at hraw
      obtain rfl : raw = 0 := by omega
      exact integerToBits_zero hrep size
  refine ⟨hbits, ?_⟩
  have hcast := natCast_two_pow size.bits
  have hmod : (raw : ℤ) % 2 ^ size.bits = raw := Int.emod_eq_of_lt (by omega) (by omega)
  rw [packedNat_of_ok hbits, hint, hmod, Int.toNat_natCast]

theorem integerRep_ofNat {n : Numeric} (hn : n = .i32) {raw : ℕ} (hraw : raw < 2 ^ 31) :
    integerRep (.num n) (BitVec.ofNat n.size.bits raw) = .ok (BitVec.ofNat 64 raw) ∧
      integerRep (.enum n) (BitVec.ofNat n.size.bits raw) = .ok (BitVec.ofNat 64 raw) := by
  subst hn
  have hint : (BitVec.ofNat Numeric.i32.size.bits raw).toInt = raw :=
    toInt_ofNat_of_lt (by change 2 * raw < 2 ^ 32; omega)
  have hrep := @integerRep_int .i32 (by decide) (by decide) (BitVec.ofNat _ raw)
  have hvalue : intValue .i32 (BitVec.ofNat Numeric.i32.size.bits raw) = raw :=
    (if_pos rfl).trans hint
  rw [hvalue, BitVec.ofInt_natCast] at hrep
  exact hrep

/-- A bit field as a property. -/
theorem packed_bitU {width : Fin 33} (hw : width ≠ 32) {v : BitVec width}
    (hlow : v.toNat < 2 ^ ((width : ℕ) - 1)) :
    (∃ val, integerToBits (type (.bitU width)) (object (.bitU width) v) ⟨width⟩ = .ok val) ∧
      packedNat (type (.bitU width)) (object (.bitU width) v) ⟨width⟩ = v.toNat := by
  obtain ⟨hnumeric, hlt⟩ := bitUNumeric_of_ne hw
  have hsmall : v.toNat < 2 ^ 31 :=
    v.isLt.trans_le (Nat.pow_le_pow_right (by decide) (by omega))
  obtain ⟨hrep, -⟩ := integerRep_ofNat hnumeric hsmall
  obtain ⟨hbits, hnat⟩ := @packed_of_integerRep (type (.bitU width)) (object (.bitU width) v)
    ⟨width⟩ v.toNat hrep (by simp only; omega) v.isLt fun _ => hlow
  exact ⟨⟨_, hbits⟩, hnat⟩

/-- The value of an enum over a bit field. -/
theorem packed_enumObject {r : Numeric ⊕ Fin 33} {width : Fin 33} (hr : r = .inr width) {raw : ℕ}
    (hraw : raw < 2 ^ (width : ℕ)) :
    (∃ val, integerToBits _ (enumObject r raw) ⟨width⟩ = .ok val) ∧
      packedNat _ (enumObject r raw) ⟨width⟩ = raw := by
  subst hr
  have hrep : integerRep (.enum (bitUNumeric width)) (enumObject (.inr width) (raw : ℤ)) =
      .ok (BitVec.ofNat 64 raw) := by
    rw [enumObject, BitVec.ofInt_natCast]
    by_cases hw : width = 32
    · subst hw
      have hnat : (BitVec.ofNat 64 raw).toNat = raw := by
        rw [BitVec.toNat_ofNat, Nat.mod_eq_of_lt (hraw.trans (by decide))]
      have hlong : (BitVec.ofNat 64 raw).toNat < 2 ^ 63 := by
        rw [hnat]
        exact hraw.trans (by decide)
      have hself : BitVec.setWidth 64 (BitVec.ofNat 64 raw) = BitVec.ofNat 64 raw :=
        BitVec.setWidth_eq _
      exact (if_pos hlong).trans (congrArg Except.ok hself)
    · obtain ⟨hnumeric, hsmall⟩ := bitUNumeric_of_ne hw
      have hint : raw < 2 ^ 31 :=
        hraw.trans_le (Nat.pow_le_pow_right (by decide) (by omega))
      exact (integerRep_ofNat hnumeric hint).2
  obtain ⟨hbits, hnat⟩ := @packed_of_integerRep (.enum (bitUNumeric width))
    (enumObject (.inr width) (raw : ℤ)) ⟨width⟩ raw hrep (by simp only; omega) hraw
    fun h => by cases h
  exact ⟨⟨_, hbits⟩, hnat⟩

theorem ne_of_noPackedULong {width : Fin 33} {rest : CsProperties}
    (h : (CsProperties.cons (type (.bitU width)) (some ⟨width⟩) rest).noPackedULong = true) :
    width ≠ 32 := by
  rintro rfl
  cases (Bool.and_eq_true_iff.mp h).1

/-- What is written is accepted and has the format of a value, in which it takes at least the bits
that are counted for it. -/
structure Formatted (packable : Prop) (pieces : List Piece) (bits : ℕ) (format : List Piece) :
    Prop where
  packable : packable
  layout : SameLayout pieces format
  bits_le : ∀ o, o + bits ≤ stopAll format o

/-- A packed property takes the bits of the member. -/
theorem packed_formatted {t : WireType} {size : BufferUnit} (hp : packedSize t = some size)
    (v : Value t) (hcarried : Carried t v) {rest : CsProperties}
    (husable : (CsProperties.cons (type t) (packedSize t) rest).noPackedULong = true) :
    Formatted (size.bits ≤ 64 ∧ ∃ val, integerToBits (type t) (object t v) size = .ok val)
      [.bits size.bits (packedNat (type t) (object t v) size)] size.bits
      (honoured noMarks (markedPieces t (Value.contents t v))) := by
  cases t with
  | num n | str | bytes | list inner | struct name members => cases hp
  | bitU width =>
    obtain rfl := Option.some.inj hp
    obtain ⟨hbits, hnat⟩ := packed_bitU (ne_of_noPackedULong husable) hcarried
    refine ⟨⟨by simp only; omega, hbits⟩, ?_, fun o => le_rfl⟩
    rw [hnat]
    exact .refl _
  | enum e =>
    obtain ⟨v, hv⟩ := v
    cases he : e.backing.repr with
    | inl n =>
      simp only [packedSize, he] at hp
      cases hp
    | inr width =>
      simp only [packedSize, he] at hp
      obtain rfl := Option.some.inj hp
      obtain ⟨hcast, hlt⟩ := rawValue_of_bitU he hv
      obtain ⟨hbits, hnat⟩ := packed_enumObject he hlt
      rw [hcast] at hbits hnat
      have hformat : honoured noMarks (markedPieces (.enum e) (Value.contents (.enum e) ⟨v, hv⟩)) =
          [.bits width (e.rawValue v)] := by
        simp only [markedPieces, he, honoured, Value.contents, ofInt_toNat_of_bitU he hv]
      rw [hformat]
      refine ⟨⟨by simp only; omega, hbits⟩, ?_, fun o => le_rfl⟩
      have hpiece := congrArg (fun raw => [Piece.bits width raw]) hnat
      exact hpiece ▸ .refl _

theorem bytes_bits_le (data : List UInt8) (o : ℕ) :
    o + 8 * data.length ≤ stopAll [.bytes data] o :=
  Nat.add_le_add_right (le_alignUp o) _

/-- The value of an enum in a number. -/
theorem enumObject_formatted {r : Numeric ⊕ Fin 33} {n : Numeric} (hr : r = .inl n) (v : ℤ) :
    Formatted (Packable _ (enumObject r v)) (csPieces _ (enumObject r v))
      (csBits _ (enumObject r v))
      [.bytes (beBytes n.size.bytes (BitVec.ofInt n.size.bits v).toNat)] := by
  subst hr
  refine ⟨trivial, .refl _, fun o => ?_⟩
  have hle := bytes_bits_le (beBytes n.size.bytes (BitVec.ofInt n.size.bits v).toNat) o
  rw [length_beBytes, ← n.size_bits] at hle
  exact hle

theorem enum_formatted {e : EnumType} {n : Numeric} (he : e.backing.repr = .inl n)
    (v : Value (.enum e)) :
    Formatted (Packable (type (.enum e)) (object (.enum e) v))
      (csPieces (type (.enum e)) (object (.enum e) v))
      (csBits (type (.enum e)) (object (.enum e) v))
      (honoured noMarks (markedPieces (.enum e) (Value.contents (.enum e) v))) := by
  have hformat : honoured noMarks (markedPieces (.enum e) (Value.contents (.enum e) v)) =
      [.bytes (beBytes n.size.bytes (BitVec.ofInt n.size.bits v.val).toNat)] := by
    simp only [markedPieces, he, honoured, Value.contents, setWidth_ofInt_toNat he,
      rawValue_of_numeric he]
  rw [hformat]
  exact enumObject_formatted he v.val

theorem counted_bits (data : List UInt8) (o : ℕ) :
    o + 8 * (data.length + 2) ≤ stopAll [counted data] o := by
  have hle := bytes_bits_le (beBytes 2 data.length ++ data) o
  rwa [List.length_append, length_beBytes, Nat.add_comm 2] at hle

theorem list_formatted {inner : Numeric} {xs : List (BitVec inner.size.bits)}
    {data : List UInt8} (hdata : (xs.flatMap fun x => beBytes inner.size.bytes x.toNat) = data)
    (hlen : data.length < 2 ^ 16) :
    Formatted (Packable (.list (.num inner)) xs) (csPieces (.list (.num inner)) xs)
      (csBits (.list (.num inner)) xs) [counted data] := by
  subst hdata
  refine ⟨⟨fun _ _ => ⟨_, rfl⟩, fun _ _ => trivial⟩, @list_layout (.num inner) rfl xs hlen,
    fun o => ?_⟩
  rw [@csBits_list (.num inner) rfl xs]
  exact counted_bits _ o

theorem flatMap_toBitVec (b : List UInt8) :
    ((b.map UInt8.toBitVec).flatMap fun x => beBytes 1 x.toNat) = b := by
  induction b with
  | nil => rfl
  | cons x b ih =>
    rw [List.map_cons, List.flatMap_cons, ih]
    simp only [beBytes, Nat.mul_zero, Nat.shiftRight_zero, UInt8.toNat_toBitVec,
      UInt8.ofNat_toNat, List.cons_append, List.nil_append]

theorem string_formatted {s : String} (h : ∀ c ∈ s.toList, c.toNat < 128)
    (hlen : (utf8 s).length < 2 ^ 16) :
    Formatted True (csPieces .string (utf16 s)) (csBits .string (utf16 s)) [counted (utf8 s)] := by
  have hlength : (utf16 s).length = (utf8 s).length := by
    rw [← (utf16_ascii h).1, List.length_map]
  have hlayout := @string_layout (utf16 s) (hlength ▸ hlen)
  rw [(utf16_ascii h).1] at hlayout
  refine ⟨trivial, hlayout, fun o => ?_⟩
  change o + 8 * ((utf16 s).length + 2) ≤ _
  rw [hlength]
  exact counted_bits _ o

theorem length_of_short {data : List UInt8} {ps : List Piece} (hmem : counted data ∈ ps)
    (h : ∀ bytes, .bytes bytes ∈ ps → bytes.length < 2 ^ 16 + 2) : data.length < 2 ^ 16 := by
  have hshort := h _ hmem
  rw [List.length_append, length_beBytes] at hshort
  omega

theorem getCompostStructProperties_typeDefinition {ms : Members}
    (h : (typeDefinition ms).noPackedULong = true) :
    getCompostStructProperties (typeDefinition ms) = .ok () := by
  apply (getCompostStructProperties_ok_iff ms).mpr
  induction ms using Members.induction with
  | nil => exact List.not_mem_nil
  | cons name t rest ih =>
    intro hmem
    rcases List.mem_cons.mp hmem with rfl | hmem
    · exact ne_of_noPackedULong h rfl
    · exact ih (Bool.and_eq_true_iff.mp h).2 hmem

theorem cons_formatted {t : CsType} {packedSize : Option BufferUnit} {rest : CsProperties}
    {x : CsValue t} {xs : CsValues rest} {head tail : List Piece}
    (hplain : packedSize = none → Formatted (Packable t x) (csPieces t x) (csBits t x) head)
    (hpacked : ∀ size, packedSize = some size →
      Formatted (size.bits ≤ 64 ∧ ∃ val, integerToBits t x size = .ok val)
        [.bits size.bits (packedNat t x size)] size.bits head)
    (hrest : Formatted (PropertiesPackable rest xs) (csPropertiesPieces rest xs)
      (csBitsAll rest xs) tail) :
    Formatted (PropertiesPackable (.cons t packedSize rest) (x, xs))
      (csPropertiesPieces (.cons t packedSize rest) (x, xs))
      (csBitsAll (.cons t packedSize rest) (x, xs)) (head ++ tail) := by
  have hsum : ∀ bits, (∀ o, o + bits ≤ stopAll head o) →
      ∀ o, o + (bits + csBitsAll rest xs) ≤ stopAll (head ++ tail) o := by
    intro bits hhead o
    have hfirst := hhead o
    have hthen := hrest.bits_le (stopAll head o)
    rw [stopAll_append]
    omega
  cases packedSize with
  | none =>
    obtain ⟨hpackable, hlayout, hbits⟩ := hplain rfl
    exact ⟨⟨hpackable, hrest.packable⟩, hlayout.append hrest.layout, hsum _ hbits⟩
  | some size =>
    obtain ⟨hpackable, hlayout, hbits⟩ := hpacked size rfl
    exact ⟨⟨hpackable, hrest.packable⟩, hlayout.append hrest.layout, hsum _ hbits⟩

mutual

/-- An object that is no packed property has the layout of its value, with no alignment. -/
theorem object_formatted (t : WireType) (v : Value t) (hp : packedSize t = none)
    (hcarried : Carried t v) (husable : (type t).noPackedULong = true)
    (hshort : ∀ data, .bytes data ∈ pieces t v → data.length < 2 ^ 16 + 2) :
    Formatted (Packable (type t) (object t v)) (csPieces (type t) (object t v))
      (csBits (type t) (object t v)) (honoured noMarks (markedPieces t (Value.contents t v))) := by
  match t, v with
  | .num n, v =>
    refine ⟨trivial, .refl _, fun o => ?_⟩
    have hle := bytes_bits_le (beBytes n.size.bytes (BitVec.toNat v)) o
    rw [length_beBytes, ← n.size_bits] at hle
    exact hle
  | .str, s =>
    exact string_formatted hcarried (length_of_short (List.mem_singleton.mpr rfl) hshort)
  | .bytes, b =>
    have hlen := length_of_short (List.mem_singleton.mpr rfl) hshort
    exact @list_formatted .u8 _ _ (flatMap_toBitVec b) hlen
  | .list inner, xs =>
    exact list_formatted rfl (length_of_short (List.mem_singleton.mpr rfl) hshort)
  | .bitU width, v => cases hp
  | .enum e, v =>
    cases he : e.backing.repr with
    | inl n => exact enum_formatted he v
    | inr width =>
      simp only [packedSize, he] at hp
      cases hp
  | .struct name members, vs =>
    obtain ⟨hpackable, hlayout, hbits⟩ := objects_formatted members vs hcarried husable
      fun data hdata => hshort data (List.mem_cons_of_mem _ hdata)
    simp only [markedPieces, List.cons_append, honoured, honoured_append, noMarks,
      Bool.false_eq_true, if_false, List.append_nil]
    exact ⟨⟨getCompostStructProperties_typeDefinition husable, hpackable⟩, hlayout, hbits⟩

theorem objects_formatted (ms : Members) (vs : Values ms) (hcarried : CarriedAll ms vs)
    (husable : (typeDefinition ms).noPackedULong = true)
    (hshort : ∀ data, .bytes data ∈ piecesMembers ms vs → data.length < 2 ^ 16 + 2) :
    Formatted (PropertiesPackable (typeDefinition ms) (objects ms vs))
      (csPropertiesPieces (typeDefinition ms) (objects ms vs))
      (csBitsAll (typeDefinition ms) (objects ms vs))
      (honoured noMarks (markedPiecesAll ms (Values.contents ms vs))) := by
  match ms, vs with
  | .nil, _ => exact ⟨trivial, .refl _, fun o => le_rfl⟩
  | .cons name t rest, (v, vs) =>
    have hrest := (Bool.and_eq_true_iff.mp husable).2
    have htail := objects_formatted rest vs hcarried.2 hrest fun data hdata =>
      hshort data (List.mem_append_right _ hdata)
    simp only [markedPiecesAll, honoured_append, Values.contents]
    refine cons_formatted (fun hp => ?_) (fun size hp => packed_formatted hp v hcarried.1 husable)
      htail
    have hhead : (type t).noPackedULong = true := by
      have hfirst := (Bool.and_eq_true_iff.mp husable).1
      rwa [hp] at hfirst
    exact object_formatted t v hp hcarried.1 hhead fun data hdata =>
      hshort data (List.mem_append_left _ hdata)

end

theorem packedSize_parameter {t : WireType} (ht : t.isParameter = true) : packedSize t = none := by
  cases t with
  | bitU width => cases ht
  | enum e =>
    simp only [WireType.isParameter] at ht
    cases he : e.backing.repr with
    | inl n => simp only [packedSize, he]
    | inr width =>
      rw [he] at ht
      cases ht
  | _ => rfl

/-- The arguments have the layout of the values, with no alignment at the structs. -/
theorem argumentObjects_formatted {ms : Members} (hms : ms.areParameters = true) (vs : Values ms)
    (hcarried : CarriedAll ms vs)
    (husable : (CsProperties.ofTypes (parameterTypes ms)).noPackedULong = true)
    (hshort : ∀ data, .bytes data ∈ piecesMembers ms vs → data.length < 2 ^ 16 + 2) :
    Formatted (PropertiesPackable (.ofTypes (parameterTypes ms)) (argumentObjects ms vs))
      (csPropertiesPieces (.ofTypes (parameterTypes ms)) (argumentObjects ms vs))
      (csBitsAll (.ofTypes (parameterTypes ms)) (argumentObjects ms vs))
      (honoured noMarks (markedPiecesAll ms (Values.contents ms vs))) := by
  induction ms using Members.induction with
  | nil => exact ⟨trivial, .refl _, fun o => le_rfl⟩
  | cons name t rest ih =>
    obtain ⟨v, vs⟩ := vs
    obtain ⟨ht, hrest⟩ := Bool.and_eq_true_iff.mp hms
    obtain ⟨hhead, htail⟩ := Bool.and_eq_true_iff.mp husable
    simp only [markedPiecesAll, honoured_append, Values.contents]
    refine cons_formatted (fun _ => ?_) (fun size hp => by cases hp)
      (ih hrest vs hcarried.2 htail fun data hdata => hshort data (List.mem_append_right _ hdata))
    exact object_formatted t v (packedSize_parameter ht) hcarried.1 hhead fun data hdata =>
      hshort data (List.mem_append_left _ hdata)

theorem scalar_enum (e : EnumType) : (type (.enum e)).scalar.isSome = true := by
  simp only [type]
  cases e.backing.repr with
  | inl n => rfl
  | inr width => rfl

theorem isTypeStatic_packed {t : WireType} (h : (packedSize t).isSome = true) :
    isTypeStatic (type t) = .ok true := by
  cases t with
  | bitU width => rfl
  | enum e =>
    simp only [type]
    cases e.backing.repr with
    | inl n => rfl
    | inr width => rfl
  | _ => cases h

mutual

theorem type_sized (t : WireType) (husable : (type t).noPackedULong = true) :
    Sized (isTypeStatic (type t)) (getTypeSize (type t)) (getObjectSize (type t))
      (csBits (type t)) := by
  match t with
  | .num n | .bytes | .list inner | .bitU width => exact sized _ rfl rfl
  | .str =>
    refine ⟨fun s => congrArg (fun bits => Except.ok (MemUnit.mk bits)) ?_, .inl rfl⟩
    exact Nat.mul_comm _ 8
  | .enum e => exact sized_scalar (scalar_enum e)
  | .struct name members =>
    exact sized_cls (getCompostStructProperties_typeDefinition husable)
      (typeDefinition_sized members husable)

theorem typeDefinition_sized (ms : Members) (husable : (typeDefinition ms).noPackedULong = true) :
    Sized (arePropertiesStatic (typeDefinition ms)) (propertiesTypeSize (typeDefinition ms))
      (propertiesSize (typeDefinition ms)) (csBitsAll (typeDefinition ms)) := by
  match ms with
  | .nil => exact ⟨fun _ => rfl, .inr ⟨rfl, 0, rfl, fun _ => rfl⟩⟩
  | .cons name t rest =>
    obtain ⟨hfirst, hrest⟩ := Bool.and_eq_true_iff.mp husable
    refine sized_cons (fun hp => ?_) isTypeStatic_packed (typeDefinition_sized rest hrest)
    rw [hp] at hfirst
    exact type_sized t hfirst

end

end CompostRpc
