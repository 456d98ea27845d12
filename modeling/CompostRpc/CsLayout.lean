import CompostRpc.CsPacked

/-!
# The layout of C# objects

`csPieces t x` is the layout of an object: the pieces of its properties one after the other, with no
alignment at a class. The theorem `serialize_places` says that `serialize` stores these pieces, and
returns if they end inside the buffer, for an object whose packed properties are all accepted.
-/

namespace CompostRpc
open ByteMemory Piece Serialization

/-- A call that stores the pieces if it returns, and returns if they end inside the buffer. -/
structure Places (result : Except CsError CsBuffer) (buffer : List UInt8) (offset : BufferUnit)
    (ps : List Piece) : Prop where
  stored : ∀ r, result = .ok r → Stored buffer offset ps r.1 r.2
  returns : stopAll ps offset.bits ≤ 8 * buffer.length → ∃ r, result = .ok r

theorem Places.nil (buffer : List UInt8) (offset : BufferUnit) :
    Places (.ok (buffer, offset)) buffer offset [] := by
  refine ⟨fun r hr => ?_, fun _ => ⟨_, rfl⟩⟩
  cases hr
  exact ⟨rfl, rfl, rfl, id⟩

theorem Places.bind {result : Except CsError CsBuffer} {next : CsBuffer → Except CsError CsBuffer}
    {buffer : List UInt8} {offset : BufferUnit} {ps qs : List Piece}
    (h : Places result buffer offset ps)
    (hnext : ∀ r, Places (next r) r.1 r.2 qs) :
    Places (result >>= next) buffer offset (ps ++ qs) := by
  constructor
  · intro r hr
    obtain ⟨r₁, hfirst, hrest⟩ := except_bind_eq_ok.mp hr
    exact (h.stored r₁ hfirst).append ((hnext r₁).stored r hrest)
  · intro hfits
    rw [stopAll_append] at hfits
    obtain ⟨r₁, hfirst⟩ := h.returns ((le_stopAll qs _).trans hfits)
    obtain ⟨-, hlength, hstop, -⟩ := h.stored r₁ hfirst
    rw [← hstop, ← hlength] at hfits
    obtain ⟨r, hrest⟩ := (hnext r₁).returns hfits
    exact ⟨r, except_bind_eq_ok.mpr ⟨r₁, hfirst, hrest⟩⟩

theorem update_eq_write (m : ByteMemory) (a : ℕ) (b : UInt8) :
    Function.update m a b = ByteMemory.write m a [b] := by
  funext i
  by_cases hi : i = a
  · subst hi
    rw [Function.update_self, write_of_mem _ le_rfl (Nat.lt_succ_self i), Nat.sub_self]
    rfl
  · rw [Function.update_of_ne hi, ByteMemory.write, if_neg]
    rw [List.length_singleton]
    omega

theorem copyLoop_writes {src dest : List UInt8} {srcIdx destStart count : ℕ}
    (hsrc : srcIdx + count ≤ src.length) (hdest : destStart + count ≤ dest.length) :
    ofList (copyLoop src dest srcIdx (destStart + count - 1) count) =
        ByteMemory.write (ofList dest) destStart ((src.drop srcIdx).take count).reverse ∧
      (copyLoop src dest srcIdx (destStart + count - 1) count).length = dest.length := by
  induction count generalizing dest srcIdx with
  | zero => simp [copyLoop]
  | succ count ih =>
    have hhead : (src.drop srcIdx).take (count + 1) =
        src.getD srcIdx 0 :: (src.drop (srcIdx + 1)).take count := by
      rw [List.drop_eq_getElem_cons (show srcIdx < src.length by omega), List.take_succ_cons,
        List.getD_eq_getElem _ _ (by omega)]
    have hlen : ((src.drop (srcIdx + 1)).take count).reverse.length = count := by
      rw [List.length_reverse, List.length_take, List.length_drop]
      omega
    have hlast := write_append_swap (ofList dest) destStart
      ((src.drop (srcIdx + 1)).take count).reverse [src.getD srcIdx 0]
    rw [hlen] at hlast
    have hidx : destStart + (count + 1) - 1 = destStart + count := by omega
    have hfits : destStart + count ≤
        (dest.set (destStart + count) (src.getD srcIdx 0)).length := by
      rw [List.length_set]
      omega
    obtain ⟨hwrite, hlength⟩ := ih (show srcIdx + 1 + count ≤ src.length by omega) hfits
    rw [hidx, copyLoop, hlength, List.length_set, hwrite, ofList_set (by omega),
      update_eq_write, hlast, hhead, List.reverse_cons]
    exact ⟨rfl, rfl⟩

/-- Where a byte string is stored from the offset rounded up. -/
theorem Places.bytes {data : List UInt8} {buffer : List UInt8} {offset : BufferUnit}
    {result : Except CsError (List UInt8 × ℕ)}
    (hstored : ∀ r, result = .ok r →
      ofList r.1 = ByteMemory.write (ofList buffer) offset.bytes data ∧
        r.1.length = buffer.length ∧ r.2 = offset.bytes + data.length ∧ r.2 ≤ buffer.length)
    (hreturns : offset.bytes + data.length ≤ buffer.length → ∃ r, result = .ok r) :
    Places (do let (buffer, next) ← result; return (buffer, MemUnit.fromBytes next)) buffer offset
      [.bytes data] := by
  constructor
  · intro r hr
    obtain ⟨⟨b, next⟩, hresult, hr⟩ := except_bind_eq_ok.mp hr
    cases hr
    obtain ⟨hmemory, hlength, hnext, hinside⟩ := hstored _ hresult
    have hbits : (MemUnit.fromBytes next).bits = next * 8 := rfl
    refine ⟨?_, hlength, ?_, fun _ => ?_⟩
    · simp only [writeAll, Piece.write, alignUp_bits_div]
      exact hmemory
    · simp only at hnext
      simp only [stopAll, stop, alignUp_bits, hbits]
      omega
    · simp only at hinside
      simp only [hbits]
      omega
  · intro hfits
    simp only [stopAll, stop, alignUp_bits] at hfits
    obtain ⟨r, hresult⟩ := hreturns (by omega)
    exact ⟨_, except_bind_eq_ok.mpr ⟨r, hresult, rfl⟩⟩

theorem Places.copyBytes (src buffer : List UInt8) (offset : BufferUnit) :
    Places (do
      let (buffer, next) ← Serialization.copyBytes src 0 buffer offset.bytes src.length
      return (buffer, MemUnit.fromBytes next)) buffer offset [.bytes src.reverse] := by
  refine Places.bytes (fun r hr => ?_) fun hfits => ?_
  · simp only [Serialization.copyBytes] at hr
    split_ifs at hr with hrange
    cases hr
    have hsrc : 0 + src.length ≤ src.length := by omega
    have hdest : offset.bytes + src.length ≤ buffer.length := by omega
    obtain ⟨hwrite, hlength⟩ := copyLoop_writes hsrc hdest
    rw [List.drop_zero, List.take_length] at hwrite
    rw [List.length_reverse]
    exact ⟨hwrite, hlength, rfl, by simp only; omega⟩
  · rw [List.length_reverse] at hfits
    exact ⟨_, if_neg (by omega)⟩

theorem Places.copyByte (src : UInt8) (buffer : List UInt8) (offset : BufferUnit) :
    Places (do
      let (buffer, next) ← Serialization.copyByte src buffer offset.bytes
      return (buffer, MemUnit.fromBytes next)) buffer offset [.bytes [src]] := by
  refine Places.bytes (fun r hr => ?_) fun hfits => ?_
  · simp only [Serialization.copyByte] at hr
    split_ifs at hr with hrange
    cases hr
    refine ⟨?_, List.length_set .., rfl, hrange⟩
    rw [ofList_set hrange, update_eq_write]
  · exact ⟨_, if_pos hfits⟩

theorem serializePrimitive_bool_places (x : Bool) (buffer : List UInt8) (offset : BufferUnit) :
    Places (serializePrimitive .bool x buffer offset) buffer offset
      [.bytes [UInt8.ofNat x.toNat]] :=
  Places.copyBytes [UInt8.ofNat x.toNat] buffer offset

theorem serializePrimitive_char_places (x : UInt16) (buffer : List UInt8) (offset : BufferUnit) :
    Places (serializePrimitive .char x buffer offset) buffer offset [.bytes [x.toUInt8]] :=
  Places.copyBytes [x.toUInt8] buffer offset

theorem serializePrimitive_num_places (n : Numeric) (x : BitVec n.size.bits) (buffer : List UInt8)
    (offset : BufferUnit) :
    Places (serializePrimitive (.num n) x buffer offset) buffer offset
      [.bytes (beBytes n.size.bytes x.toNat)] := by
  have hdiv : n.size.bits / 8 = n.size.bytes := by
    rw [n.size_bits]
    omega
  have hbytes : (getBytes x).reverse = beBytes n.size.bytes x.toNat := by
    rw [getBytes, List.reverse_reverse, hdiv]
  have hlen : (getBytes x).length = n.size.bytes := by
    rw [← List.length_reverse, hbytes, length_beBytes]
  have hcopy := Places.copyBytes (getBytes x) buffer offset
  rw [hlen, hbytes] at hcopy
  cases n with
  | u8 | i8 => exact Places.copyByte (UInt8.ofNat x.toNat) buffer offset
  | _ => exact hcopy

theorem shiftRight_emod (v : ℤ) {k p w : ℕ} (h : k + p ≤ w) :
    ((v % 2 ^ w) >>> k) % 2 ^ p = (v >>> k) % 2 ^ p := by
  have hsplit : (2 : ℤ) ^ w = 2 ^ k * (2 ^ p * 2 ^ (w - k - p)) := by
    rw [← pow_add, ← pow_add]
    congr 1
    omega
  have hsub : v % 2 ^ w = v + 2 ^ k * (2 ^ p * -(2 ^ (w - k - p) * (v / 2 ^ w))) := by
    rw [Int.emod_def]
    nth_rewrite 1 [hsplit]
    ring
  rw [Int.shiftRight_eq_div_pow, Int.shiftRight_eq_div_pow, natCast_two_pow, hsub,
    Int.add_mul_ediv_left _ _ (by positivity), Int.add_mul_emod_self_left]

/-- The loop of `BitU.pack` looks at the low bits of the number. -/
theorem packLoop_emod {fuel byteIndex pos width w : ℕ} {buffer : List UInt8} (v : ℤ)
    (hw : width ≤ w) :
    packLoop fuel buffer byteIndex pos width (v % 2 ^ w) =
      packLoop fuel buffer byteIndex pos width v := by
  induction fuel generalizing buffer byteIndex pos width with
  | zero => rfl
  | succ fuel ih =>
    rw [packLoop, packLoop]
    simp only [← Nat.min_def]
    simp only [MemUnit.bitsPerByte]
    split
    · rw [shiftRight_emod v (by omega), ih (by omega)]
    · rfl

def packedNat (t : CsType) (x : CsValue t) (size : BufferUnit) : ℕ :=
  match integerToBits t x size with
  | .ok val => (val.toInt % 2 ^ size.bits).toNat
  | .error _ => 0

theorem packedNat_of_ok {t : CsType} {x : CsValue t} {size : BufferUnit} {val : BitVec 64}
    (hbits : integerToBits t x size = .ok val) :
    packedNat t x size = (val.toInt % 2 ^ size.bits).toNat := by rw [packedNat, hbits]

theorem serializePackedPrimitive_places {t : CsType} {x : CsValue t} {size : BufferUnit}
    {val : BitVec 64} (hbits : integerToBits t x size = .ok val) (hsize : size.bits ≤ 64)
    (buffer : List UInt8) (offset : BufferUnit) :
    Places (serializePackedPrimitive t x buffer offset size) buffer offset
      [.bits size.bits (packedNat t x size)] := by
  have hnonneg : 0 ≤ val.toInt % 2 ^ size.bits := Int.emod_nonneg _ (by positivity)
  have hnat : (packedNat t x size : ℤ) = val.toInt % 2 ^ size.bits := by
    rw [packedNat_of_ok hbits]
    exact Int.toNat_of_nonneg hnonneg
  have hpack : packBitU size.bits buffer offset val.toInt =
      packBitU size.bits buffer offset (packedNat t x size) := by
    rw [packBitU, packBitU, hnat, packLoop_emod _ le_rfl]
  have hok := serializePackedPrimitive_ok_iff hbits hsize buffer offset
  rw [hpack] at hok
  constructor
  · exact fun r hr => packBitU_writes size.bits buffer offset _ r.1 r.2 ((hok r).mp hr)
  · intro hfits
    obtain ⟨r, hr⟩ := exists_packBitU (packedNat t x size) hfits
    exact ⟨r, (hok r).mpr hr⟩

def lengthPrefix (element : CsType) (xs : List (CsValue element)) : UInt16 :=
  match xs with
  | [] => 0
  | x :: _ =>
    match getObjectSize element x with
    | .ok size => UInt16.ofNat xs.length * UInt16.ofNat size.bytes
    | .error _ => 0

theorem toNat_ofNat_length {α : Type} {xs : List α} (h : xs.length < 2 ^ 16) :
    (UInt16.ofNat xs.length).toNat = xs.length := by
  rw [UInt16.toNat_ofNat', Nat.mod_eq_of_lt h]

/-- A length below 2^16 is kept by the length prefix. -/
theorem take_ofNat_length {α : Type} {xs : List α} (h : xs.length < 2 ^ 16) :
    xs.take (UInt16.ofNat xs.length).toNat = xs := by
  rw [toNat_ofNat_length h, List.take_length]

mutual

def csPieces : (t : CsType) → CsValue t → List Piece
  | .bool, x => [.bytes [UInt8.ofNat (Bool.toNat x)]]
  | .char, x => [.bytes [UInt16.toUInt8 x]]
  | .num n, x => [.bytes (beBytes n.size.bytes (BitVec.toNat x))]
  | .enum n, x => [.bytes (beBytes n.size.bytes (BitVec.toNat x))]
  | .string, s =>
    .bytes (beBytes 2 (UInt16.ofNat (List.length s)).toNat) ::
      (List.take (UInt16.ofNat (List.length s)).toNat s).flatMap fun c =>
        [.bytes [UInt16.toUInt8 c]]
  | .list element, xs =>
    .bytes (beBytes 2 (lengthPrefix element xs).toNat) ::
      (List.take (UInt16.ofNat (List.length xs)).toNat xs).flatMap (csPieces element)
  | .cls properties, xs => csPropertiesPieces properties xs

def csPropertiesPieces : (ps : CsProperties) → CsValues ps → List Piece
  | .nil, _ => []
  | .cons t packedSize rest, x =>
    (match packedSize with
      | none => csPieces t x.1
      | some size => [.bits size.bits (packedNat t x.1 size)]) ++ csPropertiesPieces rest x.2

end

mutual

/-- What `serialize` asks of an object: the properties of its classes may be packed, and their
values fit. -/
def Packable : (t : CsType) → CsValue t → Prop
  | .list element, xs =>
    (∀ x ∈ List.head? xs, ∃ size, getObjectSize element x = .ok size) ∧
      ∀ x ∈ List.take (UInt16.ofNat (List.length xs)).toNat xs, Packable element x
  | .cls properties, xs =>
    getCompostStructProperties properties = .ok () ∧ PropertiesPackable properties xs
  | _, _ => True

def PropertiesPackable : (ps : CsProperties) → CsValues ps → Prop
  | .nil, _ => True
  | .cons t packedSize rest, x =>
    (match packedSize with
      | none => Packable t x.1
      | some size => size.bits ≤ 64 ∧ ∃ val, integerToBits t x.1 size = .ok val) ∧
    PropertiesPackable rest x.2

end

theorem serializeEach_places {α : Type}
    {write : α → List UInt8 → BufferUnit → Except CsError CsBuffer} {pieces : α → List Piece}
    {xs : List α}
    (h : ∀ x ∈ xs, ∀ buffer offset, Places (write x buffer offset) buffer offset (pieces x))
    (buffer : List UInt8) (offset : BufferUnit) :
    Places (serializeEach write xs buffer offset) buffer offset (xs.flatMap pieces) := by
  induction xs generalizing buffer offset with
  | nil => exact Places.nil buffer offset
  | cons x xs ih =>
    rw [List.flatMap_cons]
    apply (h x List.mem_cons_self buffer offset).bind
    rintro ⟨buffer, offset⟩
    exact ih (fun y hy => h y (List.mem_cons_of_mem x hy)) buffer offset

theorem serializeLength_places (len elemSize : UInt16) (buffer : List UInt8)
    (offset : BufferUnit) :
    Places (serializeLength len elemSize buffer offset) buffer offset
      [.bytes (beBytes 2 (len * elemSize).toNat)] :=
  serializePrimitive_num_places .u16 (len * elemSize).toBitVec buffer offset

theorem elementSize_eq {element : CsType} {xs : List (CsValue element)}
    (hsize : ∀ x ∈ xs.head?, ∃ size, getObjectSize element x = .ok size) :
    ∃ elemSize, elementSize (getObjectSize element) (UInt16.ofNat xs.length) xs = .ok elemSize ∧
      UInt16.ofNat xs.length * elemSize = lengthPrefix element xs := by
  cases xs with
  | nil => exact ⟨0, rfl, rfl⟩
  | cons x rest =>
    obtain ⟨size, hx⟩ := hsize x rfl
    simp only [elementSize, lengthPrefix, hx]
    by_cases hlen : UInt16.ofNat (x :: rest).length > 0
    · exact ⟨UInt16.ofNat size.bytes, if_pos hlen, rfl⟩
    · have hzero : UInt16.ofNat (x :: rest).length = 0 := by
        by_contra hne
        exact hlen (UInt16.pos_iff_ne_zero.mpr hne)
      refine ⟨0, if_neg hlen, ?_⟩
      rw [hzero, UInt16.zero_mul, UInt16.zero_mul]

theorem serialize_list_places {element : CsType} {xs : List (CsValue element)}
    (hsize : ∀ x ∈ xs.head?, ∃ size, getObjectSize element x = .ok size)
    (helement : ∀ x ∈ xs.take (UInt16.ofNat xs.length).toNat, ∀ buffer offset,
      Places (serialize element x buffer offset) buffer offset (csPieces element x))
    (buffer : List UInt8) (offset : BufferUnit) :
    Places (serialize (.list element) xs buffer offset) buffer offset
      (csPieces (.list element) xs) := by
  obtain ⟨elemSize, hfirst, hlength⟩ := elementSize_eq hsize
  have hprefix := serializeLength_places (UInt16.ofNat xs.length) elemSize buffer offset
  rw [hlength] at hprefix
  have hcall : serialize (.list element) xs buffer offset =
      serializeLength (UInt16.ofNat xs.length) elemSize buffer offset >>= fun r =>
        serializeEach (serialize element) (xs.take (UInt16.ofNat xs.length).toNat) r.1 r.2 := by
    simp only [serialize, hfirst]
    rfl
  rw [hcall]
  exact hprefix.bind fun r => serializeEach_places helement r.1 r.2

mutual

/-- `serialize` stores the layout of the object. -/
theorem serialize_places (t : CsType) (x : CsValue t) (h : Packable t x) (buffer : List UInt8)
    (offset : BufferUnit) : Places (serialize t x buffer offset) buffer offset (csPieces t x) := by
  match t, x with
  | .bool, x => exact serializePrimitive_bool_places x buffer offset
  | .char, x => exact serializePrimitive_char_places x buffer offset
  | .num n, x => exact serializePrimitive_num_places n x buffer offset
  | .enum n, x => exact serializePrimitive_num_places n x buffer offset
  | .string, s =>
    have hlen : UInt16.ofNat (List.length s) * 1 = UInt16.ofNat (List.length s) := UInt16.mul_one ..
    have hprefix := serializeLength_places (UInt16.ofNat (List.length s)) 1 buffer offset
    rw [hlen] at hprefix
    apply hprefix.bind
    rintro ⟨buffer, offset⟩
    exact serializeEach_places (fun c _ => serializePrimitive_char_places c) buffer offset
  | .list element, xs =>
    have helement := fun x hx => serialize_places element x (h.2 x hx)
    exact serialize_list_places h.1 helement buffer offset
  | .cls properties, xs =>
    rw [serialize, h.1, except_ok_bind]
    exact serializeProperties_places properties xs h.2 buffer offset

theorem serializeProperties_places (ps : CsProperties) (xs : CsValues ps)
    (h : PropertiesPackable ps xs) (buffer : List UInt8) (offset : BufferUnit) :
    Places (serializeProperties ps xs buffer offset) buffer offset (csPropertiesPieces ps xs) := by
  match ps, xs with
  | .nil, _ => exact Places.nil buffer offset
  | .cons t none rest, (x, xs) =>
    apply (serialize_places t x h.1 buffer offset).bind
    rintro ⟨buffer, offset⟩
    exact serializeProperties_places rest xs h.2 buffer offset
  | .cons t (some size) rest, (x, xs) =>
    obtain ⟨⟨hsize, val, hbits⟩, hrest⟩ := h
    apply (serializePackedPrimitive_places hbits hsize buffer offset).bind
    rintro ⟨buffer, offset⟩
    exact serializeProperties_places rest xs hrest buffer offset

end

end CompostRpc
