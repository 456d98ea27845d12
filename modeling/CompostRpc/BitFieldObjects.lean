import CompostRpc.GeneratedObjects

/-!
# Bit fields in the objects of the generated classes

`Serialize` walks the properties of an object and of the objects in it. What should come out is what
`BitU.pack` writes for every bit field on the way, and `Deserialize` should make of those bits what
`BitU.unpack` does. It is so exactly if no bit field has 32 bits, not even in a nested struct, and
every number is in the lower half of its range.
-/

namespace CompostRpc
open ByteMemory Serialization CSharpCodeGenerator

structure BitField where
  width : Fin 33
  value : ℕ
  deriving DecidableEq

namespace BitField

def IsLow (f : BitField) : Prop := f.width ≠ 32 ∧ f.value < 2 ^ ((f.width : ℕ) - 1)

instance (f : BitField) : Decidable f.IsLow := inferInstanceAs (Decidable (_ ∧ _))

end BitField

mutual

def bitFields : (t : WireType) → Value t → List BitField
  | .bitU width, v => [⟨width, BitVec.toNat v⟩]
  | .struct _ members, vs => bitFieldsAll members vs
  | .num _, _ | .str, _ | .bytes, _ | .list _, _ | .enum _, _ => []

def bitFieldsAll : (ms : Members) → Values ms → List BitField
  | .nil, _ => []
  | .cons _ t rest, v => bitFields t v.1 ++ bitFieldsAll rest v.2

end

mutual

def bitNumbers : (t : WireType) → CsValue (type t) → List ℤ
  | .bitU width, x => [intValue (bitUNumeric width) x]
  | .struct _ members, xs => bitNumbersAll members xs
  | .num _, _ | .str, _ | .bytes, _ | .list _, _ | .enum _, _ => []

def bitNumbersAll : (ms : Members) → CsValues (typeDefinition ms) → List ℤ
  | .nil, _ => []
  | .cons _ t rest, x => bitNumbers t x.1 ++ bitNumbersAll rest x.2

end

def serializeOther (t : WireType) (v : Value t) (buffer : List UInt8) (offset : BufferUnit) :
    Option CsBuffer :=
  match packedSize t with
  | none => (serialize (type t) (object t v) buffer offset).toOption
  | some size => (serializePackedPrimitive (type t) (object t v) buffer offset size).toOption

def deserializeOther (t : WireType) (buffer : List UInt8) (offset : BufferUnit) :
    Option (CsValue (type t) × BufferUnit) :=
  match packedSize t with
  | none => (deserialize (type t) buffer offset).toOption
  | some size => (deserializePackedPrimitive (type t) buffer offset size).toOption

mutual

/-- `Serialize` with `BitU.pack` in the place of its own conversion of bit fields. -/
def serializeByPack : (t : WireType) → Value t → List UInt8 → BufferUnit → Option CsBuffer
  | .bitU width, v, buffer, offset =>
    (packBitU width buffer offset (BitVec.toNat v : ℕ)).toOption
  | .struct _ members, vs, buffer, offset => serializeAllByPack members vs buffer offset
  | .num n, v, buffer, offset => serializeOther (.num n) v buffer offset
  | .str, v, buffer, offset => serializeOther .str v buffer offset
  | .bytes, v, buffer, offset => serializeOther .bytes v buffer offset
  | .list inner, v, buffer, offset => serializeOther (.list inner) v buffer offset
  | .enum e, v, buffer, offset => serializeOther (.enum e) v buffer offset

def serializeAllByPack : (ms : Members) → Values ms → List UInt8 → BufferUnit → Option CsBuffer
  | .nil, _, buffer, offset => some (buffer, offset)
  | .cons _ t rest, v, buffer, offset => do
    let (buffer, offset) ← serializeByPack t v.1 buffer offset
    serializeAllByPack rest v.2 buffer offset

end

mutual

def bitFieldsMet : WireType → List UInt8 → BufferUnit → Option (List BitField × BufferUnit)
  | .bitU width, buffer, offset => do
    let (v, offset) ← (unpackBitU width buffer offset).toOption
    return ([⟨width, v⟩], offset)
  | .struct _ members, buffer, offset => bitFieldsMetAll members buffer offset
  | .num n, buffer, offset => do return ([], (← deserializeOther (.num n) buffer offset).2)
  | .str, buffer, offset => do return ([], (← deserializeOther .str buffer offset).2)
  | .bytes, buffer, offset => do return ([], (← deserializeOther .bytes buffer offset).2)
  | .list inner, buffer, offset => do
    return ([], (← deserializeOther (.list inner) buffer offset).2)
  | .enum e, buffer, offset => do return ([], (← deserializeOther (.enum e) buffer offset).2)

def bitFieldsMetAll : Members → List UInt8 → BufferUnit → Option (List BitField × BufferUnit)
  | .nil, _, offset => some ([], offset)
  | .cons _ t rest, buffer, offset => do
    let (fs, offset) ← bitFieldsMet t buffer offset
    let (gs, offset) ← bitFieldsMetAll rest buffer offset
    return (fs ++ gs, offset)

end

/-- The object of the generated class is written with the bits of `BitU.pack`, and wherever
`Deserialize` meets these bits it returns the numbers. -/
structure CarriesBitFields (ms : Members) (vs : Values ms) (buffer : List UInt8)
    (offset : BufferUnit) (r : CsBuffer) : Prop where
  serialize_eq : serialize (.cls (typeDefinition ms)) (objects ms vs) buffer offset = .ok r
  deserialize_eq : ∀ buffer' offset' next,
    bitFieldsMetAll ms buffer' offset' = some (bitFieldsAll ms vs, next) →
      ∃ xs, deserialize (.cls (typeDefinition ms)) buffer' offset' = .ok (xs, next) ∧
        bitNumbersAll ms xs = (bitFieldsAll ms vs).map fun f => (f.value : ℤ)

theorem toOption_eq_some {ε α : Type} {x : Except ε α} {a : α} :
    x.toOption = some a ↔ x = .ok a := by
  cases x <;> simp [Except.toOption]

/-- A bit field is written as by `BitU.pack` if it is written at all. -/
theorem serializePackedPrimitive_bitU_iff {width : Fin 33} {v : BitVec width}
    {buffer : List UInt8} {offset : BufferUnit} {r : CsBuffer}
    (h : packBitU width buffer offset (v.toNat : ℕ) = .ok r) (r' : CsBuffer) :
    serializePackedPrimitive (type (.bitU width)) (object (.bitU width) v) buffer offset ⟨width⟩ =
        .ok r' ↔
      r' = r ∧ BitField.IsLow ⟨width, v.toNat⟩ := by
  change serializePackedPrimitive (.num (bitUNumeric width)) (BitVec.ofNat _ v.toNat) buffer offset
    ⟨width⟩ = .ok r' ↔ r' = r ∧ width ≠ 32 ∧ v.toNat < 2 ^ ((width : ℕ) - 1)
  by_cases hw : width = 32
  · subst hw
    have herror : serializePackedPrimitive (.num (bitUNumeric 32)) (BitVec.ofNat _ v.toNat) buffer
        offset ⟨(32 : Fin 33)⟩ = .error .notSupported := rfl
    rw [herror]
    exact iff_of_false (fun hok => by cases hok) fun hlow => hlow.2.1 rfl
  obtain ⟨hnumeric, hlt⟩ := bitUNumeric_of_ne hw
  rw [hnumeric]
  by_cases hlow : v.toNat < 2 ^ ((width : ℕ) - 1)
  · have hsmall : v.toNat < 2 ^ 31 :=
      v.isLt.trans_le (Nat.pow_le_pow_right (by decide) (by omega))
    have hbits := (@packed_of_integerRep (.num .i32) (BitVec.ofNat _ v.toNat) ⟨width⟩ v.toNat
      (integerRep_ofNat rfl hsmall).1 (by simp only; omega) v.isLt fun _ => hlow).1
    have hint : (BitVec.ofNat 64 v.toNat).toInt = v.toNat := toInt_ofNat_of_lt (by omega)
    rw [serializePackedPrimitive_ok_iff hbits (by simp only; omega), hint, h, Except.ok.injEq,
      and_iff_left ⟨hw, hlow⟩]
    exact eq_comm
  · have hfits : v.toNat < 2 ^ (width : ℕ) := v.isLt
    have hpos : 0 < (width : ℕ) := by
      by_contra hnone
      have hzero : (width : ℕ) = 0 := by omega
      generalize v.toNat = value at hfits hlow
      rw [hzero] at hfits hlow
      omega
    refine iff_of_false (fun hok => ?_) fun hall => hlow hall.2.2
    obtain ⟨val, hbits, -⟩ := except_bind_eq_ok.mp hok
    rw [integerToBits_int hpos hlt hfits, if_neg hlow] at hbits
    cases hbits

theorem serializeProperties_cons_iff {t : CsType} {packedSize : Option BufferUnit}
    {rest : CsProperties} {x : CsValue t} {xs : CsValues rest} {buffer : List UInt8}
    {offset : BufferUnit} {r : CsBuffer} :
    serializeProperties (.cons t packedSize rest) (x, xs) buffer offset = .ok r ↔
      ∃ mid : CsBuffer, (match packedSize with
        | none => serialize t x buffer offset
        | some size => serializePackedPrimitive t x buffer offset size) = .ok mid ∧
          serializeProperties rest xs mid.1 mid.2 = .ok r := by
  cases packedSize with
  | none => exact @except_bind_eq_ok _ _ _ (serialize t x buffer offset) _ _
  | some size =>
    exact @except_bind_eq_ok _ _ _ (serializePackedPrimitive t x buffer offset size) _ _

theorem serializeOther_iff {t : WireType} {v : Value t} {buffer : List UInt8}
    {offset : BufferUnit} {r : CsBuffer} (h : serializeOther t v buffer offset = some r)
    (r' : CsBuffer) :
    (match packedSize t with
      | none => serialize (type t) (object t v) buffer offset
      | some size => serializePackedPrimitive (type t) (object t v) buffer offset size) = .ok r' ↔
      r' = r := by
  have hok : (match packedSize t with
      | none => serialize (type t) (object t v) buffer offset
      | some size => serializePackedPrimitive (type t) (object t v) buffer offset size) =
        .ok r := by
    unfold serializeOther at h
    split at h <;> exact toOption_eq_some.mp h
  rw [hok, Except.ok.injEq]
  exact eq_comm

/-- The class of a struct without a `BitU[32]` can be used. -/
theorem getCompostStructProperties_of_low {ms : Members} {vs : Values ms}
    (hlow : ∀ f ∈ bitFieldsAll ms vs, f.IsLow) :
    getCompostStructProperties (typeDefinition ms) = .ok () := by
  rw [getCompostStructProperties_ok_iff]
  induction ms using Members.induction with
  | nil => exact List.not_mem_nil
  | cons name t rest ih =>
    obtain ⟨v, vs⟩ := vs
    obtain ⟨hfirst, hrest⟩ := List.forall_mem_append.mp hlow
    intro hmem
    rcases List.mem_cons.mp hmem with rfl | hmem
    · exact (hfirst _ (List.mem_singleton.mpr rfl)).1 rfl
    · exact ih hrest hmem

mutual

/-- A property is written as `BitU.pack` would have it if it is written at all. -/
theorem serialize_iff_low (t : WireType) (v : Value t) {buffer : List UInt8} {offset : BufferUnit}
    {r : CsBuffer} (h : serializeByPack t v buffer offset = some r) (r' : CsBuffer) :
    (match packedSize t with
      | none => serialize (type t) (object t v) buffer offset
      | some size => serializePackedPrimitive (type t) (object t v) buffer offset size) = .ok r' ↔
      r' = r ∧ ∀ f ∈ bitFields t v, f.IsLow := by
  match t, v with
  | .bitU width, v =>
    rw [bitFields, List.forall_mem_singleton]
    exact serializePackedPrimitive_bitU_iff (toOption_eq_some.mp h) r'
  | .struct name members, vs =>
    have hmembers := serializeProperties_iff_low members vs h r'
    refine except_bind_eq_ok.trans ?_
    constructor
    · rintro ⟨_, -, hwritten⟩
      exact hmembers.mp hwritten
    · intro hlow
      exact ⟨(), getCompostStructProperties_of_low hlow.2, hmembers.mpr hlow⟩
  | .num n, v | .str, v | .bytes, v | .list inner, v | .enum e, v =>
    rw [serializeByPack] at h
    rw [bitFields, and_iff_left fun f hf => absurd hf List.not_mem_nil]
    exact serializeOther_iff h r'

theorem serializeProperties_iff_low (ms : Members) (vs : Values ms) {buffer : List UInt8}
    {offset : BufferUnit} {r : CsBuffer} (h : serializeAllByPack ms vs buffer offset = some r)
    (r' : CsBuffer) :
    serializeProperties (typeDefinition ms) (objects ms vs) buffer offset = .ok r' ↔
      r' = r ∧ ∀ f ∈ bitFieldsAll ms vs, f.IsLow := by
  match ms, vs with
  | .nil, _ =>
    cases Option.some.inj h
    rw [bitFieldsAll, and_iff_left fun f hf => absurd hf List.not_mem_nil]
    exact ⟨fun hok => (Except.ok.inj hok).symm, fun hr => congrArg Except.ok hr.symm⟩
  | .cons name t rest, (v, vs) =>
    obtain ⟨mid, hfirst, hrest⟩ := Option.bind_eq_some_iff.mp h
    have hhead := serialize_iff_low t v hfirst
    have htail := serializeProperties_iff_low rest vs hrest r'
    have hfields : (∀ f ∈ bitFieldsAll (.cons name t rest) (v, vs), f.IsLow) ↔
        (∀ f ∈ bitFields t v, f.IsLow) ∧ ∀ f ∈ bitFieldsAll rest vs, f.IsLow :=
      List.forall_mem_append
    rw [hfields]
    constructor
    · intro hok
      obtain ⟨mid', hmid, hwritten⟩ := serializeProperties_cons_iff.mp hok
      obtain ⟨rfl, hlow⟩ := (hhead mid').mp hmid
      obtain ⟨rfl, hlows⟩ := htail.mp hwritten
      exact ⟨rfl, hlow, hlows⟩
    · rintro ⟨rfl, hlow, hlows⟩
      exact serializeProperties_cons_iff.mpr
        ⟨mid, (hhead mid).mpr ⟨rfl, hlow⟩, htail.mpr ⟨rfl, hlows⟩⟩

end

theorem deserializeOther_ok {t : WireType} {buffer : List UInt8} {offset : BufferUnit}
    {fs : List BitField} {next : BufferUnit}
    (h : (do return ([], (← deserializeOther t buffer offset).2)) = some (fs, next)) :
    fs = [] ∧ ∃ x, (match packedSize t with
      | none => deserialize (type t) buffer offset
      | some size => deserializePackedPrimitive (type t) buffer offset size) = .ok (x, next) := by
  obtain ⟨⟨x, next⟩, hother, heq⟩ := Option.bind_eq_some_iff.mp h
  cases heq
  refine ⟨rfl, x, ?_⟩
  unfold deserializeOther at hother
  split at hother <;> exact toOption_eq_some.mp hother

theorem intValue_low {width : Fin 33} {v : ℕ} (hlow : BitField.IsLow ⟨width, v⟩) :
    intValue (bitUNumeric width) (BitVec.ofNat _ v) = v := by
  obtain ⟨hw, hv⟩ := hlow
  obtain ⟨hnumeric, hlt⟩ := bitUNumeric_of_ne hw
  have hsmall : v < 2 ^ 31 := hv.trans_le (Nat.pow_le_pow_right (by decide) (by simp only; omega))
  rw [hnumeric]
  exact (if_pos rfl).trans (toInt_ofNat_of_lt (by change 2 * v < 2 ^ 32; omega))

theorem getCompostStructProperties_of_met {ms : Members} {buffer : List UInt8}
    {offset next : BufferUnit} {fs : List BitField}
    (h : bitFieldsMetAll ms buffer offset = some (fs, next)) (hlow : ∀ f ∈ fs, f.IsLow) :
    getCompostStructProperties (typeDefinition ms) = .ok () := by
  rw [getCompostStructProperties_ok_iff]
  induction ms using Members.induction generalizing offset next fs with
  | nil => exact List.not_mem_nil
  | cons name t rest ih =>
    obtain ⟨⟨gs, mid⟩, hfirst, h⟩ := Option.bind_eq_some_iff.mp h
    obtain ⟨⟨hs, stop⟩, hrest, heq⟩ := Option.bind_eq_some_iff.mp h
    cases heq
    obtain ⟨hlows, hlows'⟩ := List.forall_mem_append.mp hlow
    intro hmem
    rcases List.mem_cons.mp hmem with rfl | hmem
    · obtain ⟨v, -, heq⟩ := Option.bind_eq_some_iff.mp hfirst
      cases heq
      exact (hlows _ (List.mem_singleton.mpr rfl)).1 rfl
    · exact ih hrest hlows' hmem

mutual

/-- The numbers that `BitU.unpack` reads are those in the properties. -/
theorem deserialize_of_low (t : WireType) {buffer : List UInt8} {offset next : BufferUnit}
    {fs : List BitField} (h : bitFieldsMet t buffer offset = some (fs, next))
    (hlow : ∀ f ∈ fs, f.IsLow) :
    ∃ x, (match packedSize t with
        | none => deserialize (type t) buffer offset
        | some size => deserializePackedPrimitive (type t) buffer offset size) = .ok (x, next) ∧
      bitNumbers t x = fs.map fun f => (f.value : ℤ) := by
  match t with
  | .bitU width =>
    obtain ⟨⟨v, next⟩, hunpack, heq⟩ := Option.bind_eq_some_iff.mp h
    cases heq
    have hfield := hlow _ (List.mem_singleton.mpr rfl)
    obtain ⟨hnumeric, hlt⟩ := bitUNumeric_of_ne hfield.1
    have hsmall : v < 2 ^ ((width : ℕ) - 1) := hfield.2
    have hread := deserializePackedPrimitive_int hlt hsmall (toOption_eq_some.mp hunpack)
    refine ⟨BitVec.ofNat _ v, ?_, congrArg (fun n => [n]) (intValue_low hfield)⟩
    change deserializePackedPrimitive (.num (bitUNumeric width)) buffer offset ⟨width⟩ =
      .ok (BitVec.ofNat _ v, _)
    rw [hnumeric]
    exact hread
  | .struct name members =>
    obtain ⟨xs, hread, hnumbers⟩ := deserializeProperties_of_low members h hlow
    have husable := getCompostStructProperties_of_met h hlow
    exact ⟨xs, except_bind_eq_ok.mpr ⟨(), husable, hread⟩, hnumbers⟩
  | .num n | .str | .bytes | .list inner | .enum e =>
    rw [bitFieldsMet] at h
    obtain ⟨rfl, x, hread⟩ := deserializeOther_ok h
    exact ⟨x, hread, rfl⟩

theorem deserializeProperties_of_low (ms : Members) {buffer : List UInt8}
    {offset next : BufferUnit} {fs : List BitField}
    (h : bitFieldsMetAll ms buffer offset = some (fs, next)) (hlow : ∀ f ∈ fs, f.IsLow) :
    ∃ xs, deserializeProperties (typeDefinition ms) buffer offset = .ok (xs, next) ∧
      bitNumbersAll ms xs = fs.map fun f => (f.value : ℤ) := by
  match ms with
  | .nil =>
    cases Option.some.inj h
    exact ⟨(), rfl, rfl⟩
  | .cons name t rest =>
    obtain ⟨⟨gs, mid⟩, hfirst, h⟩ := Option.bind_eq_some_iff.mp h
    obtain ⟨⟨hs, stop⟩, hrest, heq⟩ := Option.bind_eq_some_iff.mp h
    cases heq
    obtain ⟨hlows, hlows'⟩ := List.forall_mem_append.mp hlow
    obtain ⟨x, hx, hnumbers⟩ := deserialize_of_low t hfirst hlows
    obtain ⟨xs, hxs, hnumbers'⟩ := deserializeProperties_of_low rest hrest hlows'
    refine ⟨(x, xs), deserializeProperties_cons_iff.mpr ⟨mid, hx, hxs⟩, ?_⟩
    rw [List.map_append, ← hnumbers, ← hnumbers']
    rfl

end

/-- A number in front of a struct of two bit fields, and a bit field behind it. -/
def gauge : Members :=
  .cons "level" (.num .u8) (.cons "flags" (.struct "Flags"
    (.cons "mode" (.bitU 3) (.cons "channel" (.bitU 5) .nil))) (.cons "gain" (.bitU 8) .nil))

end CompostRpc
