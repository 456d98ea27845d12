import CompostRpc.CsWire

/-!
# The extent of C# objects

`serialize_places` is about packed properties of at most 64 bits. A `Pack` attribute takes any size,
and since the shifts of a `long` count modulo 64, a wider property is written with some bits twice;
it takes as much room as its size says. The theorem `serialize_reaches` is about the extent of an
object only: where `serialize` ends, that it returns if there is room, and that it changes nothing
before its offset.
-/

namespace CompostRpc
open ByteMemory Piece Serialization

/-- What a call that returned `buffer'` and `offset'` leaves: the bits before the offset are as they
were, and it ends where the pieces end. -/
structure Extended (buffer : List UInt8) (offset : BufferUnit) (ps : List Piece)
    (buffer' : List UInt8) (offset' : BufferUnit) : Prop where
  before : ∀ i < offset.bits, bitAt (ofList buffer') i = bitAt (ofList buffer) i
  length_eq : buffer'.length = buffer.length
  stop_eq : offset'.bits = stopAll ps offset.bits
  fits : offset.bits ≤ 8 * buffer.length → offset'.bits ≤ 8 * buffer.length

theorem Stored.extended {buffer buffer' : List UInt8} {offset offset' : BufferUnit}
    {ps : List Piece} (h : Stored buffer offset ps buffer' offset') :
    Extended buffer offset ps buffer' offset' := by
  refine ⟨fun i hi => ?_, h.length_eq, h.stop_eq, h.fits⟩
  rw [h.memory]
  exact bitAt_writeAll_of_lt _ ps hi

theorem Extended.le {buffer buffer' : List UInt8} {offset offset' : BufferUnit} {ps : List Piece}
    (h : Extended buffer offset ps buffer' offset') : offset.bits ≤ offset'.bits := by
  rw [h.stop_eq]
  exact le_stopAll ps _

theorem Extended.append {buffer buffer₁ buffer₂ : List UInt8} {offset offset₁ offset₂ : BufferUnit}
    {ps qs : List Piece} (h : Extended buffer offset ps buffer₁ offset₁)
    (h' : Extended buffer₁ offset₁ qs buffer₂ offset₂) :
    Extended buffer offset (ps ++ qs) buffer₂ offset₂ := by
  refine ⟨fun i hi => ?_, h'.length_eq.trans h.length_eq, ?_, fun hpos => ?_⟩
  · exact (h'.before i (hi.trans_le h.le)).trans (h.before i hi)
  · rw [h'.stop_eq, h.stop_eq, stopAll_append]
  · have hfits := h'.fits
    rw [h.length_eq] at hfits
    exact hfits (h.fits hpos)

/-- A call that takes the room of the pieces if it returns, and returns if there is that room. -/
structure Reaches (result : Except CsError CsBuffer) (buffer : List UInt8) (offset : BufferUnit)
    (ps : List Piece) : Prop where
  extended : ∀ r, result = .ok r → Extended buffer offset ps r.1 r.2
  returns : stopAll ps offset.bits ≤ 8 * buffer.length → ∃ r, result = .ok r

theorem Places.reaches {result : Except CsError CsBuffer} {buffer : List UInt8}
    {offset : BufferUnit} {ps : List Piece} (h : Places result buffer offset ps) :
    Reaches result buffer offset ps :=
  ⟨fun r hr => (h.stored r hr).extended, h.returns⟩

theorem Reaches.bind {result : Except CsError CsBuffer} {next : CsBuffer → Except CsError CsBuffer}
    {buffer : List UInt8} {offset : BufferUnit} {ps qs : List Piece}
    (h : Reaches result buffer offset ps) (hnext : ∀ r, Reaches (next r) r.1 r.2 qs) :
    Reaches (result >>= next) buffer offset (ps ++ qs) := by
  constructor
  · intro r hr
    obtain ⟨r₁, hfirst, hrest⟩ := except_bind_eq_ok.mp hr
    exact (h.extended r₁ hfirst).append ((hnext r₁).extended r hrest)
  · intro hfits
    rw [stopAll_append] at hfits
    obtain ⟨r₁, hfirst⟩ := h.returns ((le_stopAll qs _).trans hfits)
    obtain ⟨-, hlength, hstop, -⟩ := h.extended r₁ hfirst
    rw [← hstop, ← hlength] at hfits
    obtain ⟨r, hrest⟩ := (hnext r₁).returns hfits
    exact ⟨r, except_bind_eq_ok.mpr ⟨r₁, hfirst, hrest⟩⟩

namespace Serialization

theorem getTypeSize_cls {ps : CsProperties} {size : BufferUnit}
    (h : getTypeSize (.cls ps) = .ok size) :
    isTypeStatic (.cls ps) = .ok true ∧ propertiesTypeSize ps = .ok size := by
  rw [getTypeSize] at h
  obtain ⟨static, hstatic, h⟩ := except_bind_eq_ok.mp h
  split_ifs at h with hfixed
  exact ⟨hfixed ▸ hstatic, h⟩

mutual

theorem csBits_of_getTypeSize (t : CsType) {size : BufferUnit} (h : getTypeSize t = .ok size)
    (x : CsValue t) : csBits t x = size.bits := by
  match t with
  | .bool | .char | .num n | .enum n =>
    cases h
    rfl
  | .string | .list element => cases h
  | .cls properties => exact csBitsAll_of_propertiesTypeSize properties (getTypeSize_cls h).2 x

theorem csBitsAll_of_propertiesTypeSize (ps : CsProperties) {size : BufferUnit}
    (h : propertiesTypeSize ps = .ok size) (xs : CsValues ps) : csBitsAll ps xs = size.bits := by
  match ps with
  | .nil =>
    cases h
    rfl
  | .cons t none rest =>
    obtain ⟨first, hfirst, h⟩ := except_bind_eq_ok.mp h
    obtain ⟨others, hothers, h⟩ := except_bind_eq_ok.mp h
    cases h
    rw [csBitsAll, csBitsAll_of_propertiesTypeSize rest hothers]
    exact congrArg (· + others.bits) (csBits_of_getTypeSize t hfirst xs.1)
  | .cons t (some packedSize) rest =>
    obtain ⟨first, hfirst, h⟩ := except_bind_eq_ok.mp h
    obtain ⟨others, hothers, h⟩ := except_bind_eq_ok.mp h
    cases hfirst
    cases h
    rw [csBitsAll, csBitsAll_of_propertiesTypeSize rest hothers]
    rfl

end

/-- An object of a static type has the size of its type. -/
theorem getObjectSize_of_getTypeSize {t : CsType} {size : BufferUnit} (h : getTypeSize t = .ok size)
    (x : CsValue t) : getObjectSize t x = .ok size := by
  cases t with
  | bool | char | num n | enum n => exact h
  | string | list element => cases h
  | cls properties =>
    rw [getObjectSize, (getTypeSize_cls h).1, except_ok_bind, if_pos rfl, h]

theorem csBits_list_of_forall {element : CsType} {xs : List (CsValue element)} {n : ℕ}
    (h : ∀ x ∈ xs, csBits element x = n) : csBits (.list element) xs = 16 + xs.length * n := by
  cases xs with
  | nil =>
    rw [List.length_nil, Nat.zero_mul]
    rfl
  | cons x rest =>
    have hfirst : csBits (.list element) (x :: rest) =
        csBits element x * (rest.length + 1) + 16 := rfl
    rw [hfirst, h x List.mem_cons_self, List.length_cons, Nat.mul_comm, Nat.add_comm]

end Serialization

namespace Serialization

/-- The bits that a round of the loop of `SerializePackedPrimitive` places, above `count` others. -/
def bitValue (val : BitVec 64) (count place : ℕ) : ℕ :=
  (BitVec.sshiftRight val (count % 64) &&& (shiftLeft 1 place - 1)).toNat

theorem bitValue_lt (val : BitVec 64) (count : ℕ) {place : ℕ} (hplace : place ≤ 8) :
    bitValue val count place < 2 ^ place := by
  rw [bitValue, BitVec.toNat_and, toNat_mask (by omega), Nat.and_two_pow_sub_one_eq_mod]
  exact Nat.mod_lt _ (Nat.two_pow_pos place)

theorem testBit_bitValue (val : BitVec 64) {count place j : ℕ} (hplace : place ≤ 8) (hj : j < place)
    (hlong : count % 64 + j < 64) :
    (bitValue val count place).testBit j = val.getLsbD (count % 64 + j) := by
  change (BitVec.sshiftRight val (count % 64) &&& (shiftLeft 1 place - 1)).getLsbD j = _
  rw [BitVec.getLsbD_and, getLsbD_mask (by omega), decide_eq_true hj, Bool.and_true,
    BitVec.getLsbD_sshiftRight, if_pos hlong, decide_eq_false (by omega : ¬ 64 ≤ j), Bool.not_false,
    Bool.true_and]

/-- A round replaces bits of a byte. -/
theorem packedLoop_succ {fuel byteIndex pos width : ℕ} (hw : width ≠ 0) (buffer : List UInt8)
    (val : BitVec 64) :
    packedLoop (fuel + 1) buffer byteIndex pos width val =
      let place := min width (8 - pos % 8)
      if byteIndex < buffer.length then
        packedLoop fuel
          (buffer.set byteIndex (insertBits (buffer.getD byteIndex 0) (8 - pos % 8 - place) place
            (bitValue val (width - place) place)))
          (byteIndex + 1) (pos + place) (width - place) val
      else .error .indexOutOfRange := by
  rw [packedLoop, if_pos (Nat.pos_of_ne_zero hw)]
  obtain ⟨place, hplace⟩ : ∃ place, place = min width (8 - pos % 8) := ⟨_, rfl⟩
  simp only [← Nat.min_def]
  simp only [MemUnit.bitsPerByte, ← hplace]
  rw [shiftedByte_eq _ (by omega),
    clearMask_eq ⟨place, by omega⟩ ⟨8 - pos % 8 - place, by omega⟩ (by simp only; omega)]
  rfl

/-- The bits of the buffer after a round. -/
theorem bitAt_set_insertBits {buffer : List UInt8} {pos place v i : ℕ}
    (hlen : pos / 8 < buffer.length) (hplace : place ≤ 8 - pos % 8) (hv : v < 2 ^ place) :
    bitAt (ofList (buffer.set (pos / 8)
        (insertBits (buffer.getD (pos / 8) 0) (8 - pos % 8 - place) place v))) i =
      if pos ≤ i ∧ i < pos + place then v.testBit (pos + place - 1 - i)
      else bitAt (ofList buffer) i := by
  rw [ofList_set hlen]
  exact bitAt_update_insertBits (ofList buffer) hplace hv

theorem reaches_no_bits (buffer : List UInt8) (pos v : ℕ) :
    Reaches (.ok (buffer, ⟨pos⟩)) buffer ⟨pos⟩ [.bits 0 v] := by
  refine ⟨fun r hr => ?_, fun _ => ⟨_, rfl⟩⟩
  cases hr
  exact ⟨fun _ _ => rfl, rfl, rfl, id⟩

theorem packedLoop_reaches {fuel byteIndex pos width : ℕ} {buffer : List UInt8} {val : BitVec 64}
    (hfuel : width ≤ fuel) (hindex : 0 < width → byteIndex = pos / 8) (v : ℕ) :
    Reaches (do
      let buffer ← packedLoop fuel buffer byteIndex pos width val
      return (buffer, ⟨pos + width⟩)) buffer ⟨pos⟩ [.bits width v] := by
  induction fuel generalizing buffer byteIndex pos width with
  | zero =>
    obtain rfl : width = 0 := by omega
    exact reaches_no_bits buffer pos v
  | succ fuel ih =>
    by_cases hw : width = 0
    · subst hw
      rw [packedLoop, if_neg (Nat.lt_irrefl 0)]
      exact reaches_no_bits buffer pos v
    · obtain rfl := hindex (by omega)
      rw [packedLoop_succ hw]
      obtain ⟨place, hplace⟩ : ∃ place, place = min width (8 - pos % 8) := ⟨_, rfl⟩
      simp only [← hplace]
      by_cases hlen : pos / 8 < buffer.length
      · rw [if_pos hlen]
        have hlt := bitValue_lt val (width - place) (show place ≤ 8 by omega)
        have hbits := fun i => bitAt_set_insertBits (i := i) hlen
          (show place ≤ 8 - pos % 8 by omega) hlt
        generalize hround : buffer.set _ _ = round at hbits ⊢
        have hlength : round.length = buffer.length := by rw [← hround, List.length_set]
        have hrest := @ih (pos / 8 + 1) (pos + place) (width - place) round (by omega)
          (by intro hrem; omega)
        rw [show pos + place + (width - place) = pos + width by omega] at hrest
        refine ⟨fun r hr => ?_, fun hfits => hrest.returns ?_⟩
        · obtain ⟨hbefore, hsame, hstop, hfits⟩ := hrest.extended r hr
          simp only [stopAll, stop] at hbefore hstop hfits ⊢
          refine ⟨fun i hi => ?_, hsame.trans hlength, by simp only [stopAll, stop]; omega,
            fun hpos => ?_⟩
          · simp only at hi
            rw [hbefore i (by omega), hbits i, if_neg (by omega)]
          · rw [hlength] at hfits
            exact hfits (by simp only at hpos; omega)
        · simp only [stopAll, stop] at hfits ⊢
          omega
      · rw [if_neg hlen]
        constructor
        · intro r hr
          cases hr
        · intro hfits
          simp only [stopAll, stop] at hfits
          omega

theorem serializePackedPrimitive_reaches {t : CsType} {x : CsValue t} {size : BufferUnit}
    {val : BitVec 64} (hbits : integerToBits t x size = .ok val) (buffer : List UInt8)
    (offset : BufferUnit) :
    Reaches (serializePackedPrimitive t x buffer offset size) buffer offset
      [.bits size.bits (packedNat t x size)] := by
  rw [serializePackedPrimitive, hbits, except_ok_bind]
  exact packedLoop_reaches le_rfl (fun _ => rfl) _

end Serialization

theorem serializeEach_calls {α : Type}
    {write : α → List UInt8 → BufferUnit → Except CsError CsBuffer} {xs : List α}
    {buffer : List UInt8} {offset : BufferUnit} {r : CsBuffer}
    (h : serializeEach write xs buffer offset = .ok r) :
    ∀ x ∈ xs, ∃ buffer offset r, write x buffer offset = .ok r := by
  induction xs generalizing buffer offset with
  | nil => exact fun x hx => nomatch hx
  | cons y ys ih =>
    obtain ⟨r₁, hfirst, hrest⟩ := except_bind_eq_ok.mp h
    intro x hx
    rcases List.mem_cons.mp hx with rfl | htail
    · exact ⟨buffer, offset, r₁, hfirst⟩
    · exact ih hrest x htail

theorem serializeEach_reaches {α : Type}
    {write : α → List UInt8 → BufferUnit → Except CsError CsBuffer} {pieces : α → List Piece}
    {xs : List α}
    (h : ∀ x ∈ xs, ∀ buffer offset, Reaches (write x buffer offset) buffer offset (pieces x))
    (buffer : List UInt8) (offset : BufferUnit) :
    Reaches (serializeEach write xs buffer offset) buffer offset (xs.flatMap pieces) := by
  induction xs generalizing buffer offset with
  | nil => exact (Places.nil buffer offset).reaches
  | cons x xs ih =>
    rw [List.flatMap_cons]
    apply (h x List.mem_cons_self buffer offset).bind
    rintro ⟨buffer, offset⟩
    exact ih (fun y hy => h y (List.mem_cons_of_mem x hy)) buffer offset

/-- The extent of a length prefix does not depend on the length. -/
theorem serializeLength_reaches (len elemSize : UInt16) (prefixed : ℕ) (buffer : List UInt8)
    (offset : BufferUnit) :
    Reaches (serializeLength len elemSize buffer offset) buffer offset
      [.bytes (beBytes 2 prefixed)] := by
  have hreaches := (serializeLength_places len elemSize buffer offset).reaches
  have hstop : ∀ n o, stopAll [.bytes (beBytes 2 n)] o = alignUp o + 8 * 2 := fun n o => by
    simp only [stopAll, stop, length_beBytes]
  refine ⟨fun r hr => ?_, fun hfits => hreaches.returns ?_⟩
  · obtain ⟨hbefore, hlength, hend, hfits⟩ := hreaches.extended r hr
    exact ⟨hbefore, hlength, by rw [hend, hstop, hstop], hfits⟩
  · rwa [hstop] at hfits ⊢

theorem serialize_list_calls {element : CsType} {xs : List (CsValue element)}
    {buffer : List UInt8} {offset : BufferUnit} {r : CsBuffer}
    (h : serialize (.list element) xs buffer offset = .ok r) :
    ∃ elemSize, elementSize (getObjectSize element) (UInt16.ofNat xs.length) xs = .ok elemSize ∧
      ∃ r₁, serializeLength (UInt16.ofNat xs.length) elemSize buffer offset = .ok r₁ ∧
        serializeEach (serialize element) (xs.take (UInt16.ofNat xs.length).toNat) r₁.1 r₁.2 =
          .ok r := by
  simp only [serialize] at h
  obtain ⟨elemSize, hsize, h⟩ := except_bind_eq_ok.mp h
  obtain ⟨r₁, hlength, h⟩ := except_bind_eq_ok.mp h
  exact ⟨elemSize, hsize, r₁, hlength, h⟩

mutual

/-- An object that can be serialized takes the room of its pieces in every buffer. -/
theorem serialize_reaches (t : CsType) (x : CsValue t) {b : List UInt8} {o : BufferUnit}
    {r : CsBuffer} (h : serialize t x b o = .ok r) (buffer : List UInt8) (offset : BufferUnit) :
    Reaches (serialize t x buffer offset) buffer offset (csPieces t x) := by
  match t, x with
  | .bool, x => exact (serializePrimitive_bool_places x buffer offset).reaches
  | .char, x => exact (serializePrimitive_char_places x buffer offset).reaches
  | .num n, x => exact (serializePrimitive_num_places n x buffer offset).reaches
  | .enum n, x => exact (serializePrimitive_num_places n x buffer offset).reaches
  | .string, s => exact (serialize_places .string s trivial buffer offset).reaches
  | .list element, xs =>
    obtain ⟨elemSize, hsize, r₁, -, heach⟩ := serialize_list_calls h
    have helement : ∀ x ∈ List.take (UInt16.ofNat (List.length xs)).toNat xs, ∀ buffer offset,
        Reaches (serialize element x buffer offset) buffer offset (csPieces element x) := by
      intro x hx
      obtain ⟨b, o, r, hcall⟩ := serializeEach_calls heach x hx
      exact serialize_reaches element x hcall
    rw [serialize, hsize, except_ok_bind]
    apply (serializeLength_reaches (UInt16.ofNat (List.length xs)) elemSize
      (lengthPrefix element xs).toNat buffer offset).bind
    rintro ⟨buffer, offset⟩
    exact serializeEach_reaches helement buffer offset
  | .cls properties, xs =>
    rw [serialize] at h
    obtain ⟨_, hproperties, h⟩ := except_bind_eq_ok.mp h
    rw [serialize, hproperties, except_ok_bind]
    exact serializeProperties_reaches properties xs h buffer offset

theorem serializeProperties_reaches (ps : CsProperties) (xs : CsValues ps) {b : List UInt8}
    {o : BufferUnit} {r : CsBuffer} (h : serializeProperties ps xs b o = .ok r)
    (buffer : List UInt8) (offset : BufferUnit) :
    Reaches (serializeProperties ps xs buffer offset) buffer offset (csPropertiesPieces ps xs) := by
  match ps, xs with
  | .nil, _ => exact (Places.nil buffer offset).reaches
  | .cons t none rest, (x, xs) =>
    obtain ⟨r₁, hfirst, hrest⟩ := except_bind_eq_ok.mp h
    apply (serialize_reaches t x hfirst buffer offset).bind
    rintro ⟨buffer, offset⟩
    exact serializeProperties_reaches rest xs hrest buffer offset
  | .cons t (some size) rest, (x, xs) =>
    obtain ⟨r₁, hfirst, hrest⟩ := except_bind_eq_ok.mp h
    obtain ⟨val, hbits, -⟩ := except_bind_eq_ok.mp hfirst
    apply (serializePackedPrimitive_reaches hbits buffer offset).bind
    rintro ⟨buffer, offset⟩
    exact serializeProperties_reaches rest xs hrest buffer offset

end

end CompostRpc
