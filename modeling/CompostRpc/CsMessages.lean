import CompostRpc.CsWire

/-!
# The payload of a message in C#

The constructor of a message counts the bits of its arguments, takes a buffer of that many words and
serializes the arguments one after the other. The payload is the layout of the arguments in a buffer
of zeros. There is one exactly if the packed properties are accepted, the bits are within the limit
of a body and the layout ends inside the buffer.
-/

namespace CompostRpc
open ByteMemory Piece Serialization

/-- What is counted for the objects of a type: their bits. A static type has one size for all of
its objects. -/
structure Sized (static : Except CsError Bool) (typeSize : Except CsError BufferUnit)
    {α : Type} (objectSize : α → Except CsError BufferUnit) (bits : α → ℕ) : Prop where
  object : ∀ x, objectSize x = .ok ⟨bits x⟩
  type : static = .ok false ∨ static = .ok true ∧ ∃ n, typeSize = .ok ⟨n⟩ ∧ ∀ x, bits x = n

theorem sized_scalar {t : CsType} (h : t.scalar.isSome = true) :
    Sized (isTypeStatic t) (getTypeSize t) (getObjectSize t) (csBits t) := by
  refine ⟨fun x => ?_, .inr ⟨?_, t.numeric.size.bits, ?_, csBits_scalar h⟩⟩
  · rw [getObjectSize_scalar h, csBits_scalar h]
  · cases t with
    | bool | char | num n | enum n => rfl
    | string | list element | cls properties => cases h
  · cases t with
    | bool | char | num n | enum n => rfl
    | string | list element | cls properties => cases h

theorem sized_cls {ps : CsProperties} (hok : getCompostStructProperties ps = .ok ())
    (h : Sized (arePropertiesStatic ps) (propertiesTypeSize ps) (propertiesSize ps)
      (csBitsAll ps)) :
    Sized (isTypeStatic (.cls ps)) (getTypeSize (.cls ps)) (getObjectSize (.cls ps))
      (csBits (.cls ps)) := by
  obtain ⟨hobject, htype⟩ := h
  have hstatic : isTypeStatic (.cls ps) = arePropertiesStatic ps := by
    rw [isTypeStatic, hok, except_ok_bind]
  rcases htype with hdynamic | ⟨hfixed, n, hsize, hbits⟩
  · refine ⟨fun xs => ?_, .inl (hstatic.trans hdynamic)⟩
    rw [getObjectSize, hstatic, hdynamic]
    exact hobject xs
  · have htypeSize : getTypeSize (.cls ps) = .ok ⟨n⟩ := by
      rw [getTypeSize, hstatic, hfixed]
      exact hsize
    refine ⟨fun xs => ?_, .inr ⟨hstatic.trans hfixed, n, htypeSize, hbits⟩⟩
    rw [getObjectSize, hstatic, hfixed]
    exact htypeSize.trans (congrArg (fun bits => Except.ok (MemUnit.mk bits)) (hbits xs).symm)

/-- A property counts with its packed size, or with its type, which is static if it is packed. -/
theorem sized_cons {t : CsType} {packedSize : Option BufferUnit} {rest : CsProperties}
    (hplain : packedSize = none →
      Sized (isTypeStatic t) (getTypeSize t) (getObjectSize t) (csBits t))
    (hpacked : packedSize.isSome = true → isTypeStatic t = .ok true)
    (hrest : Sized (arePropertiesStatic rest) (propertiesTypeSize rest) (propertiesSize rest)
      (csBitsAll rest)) :
    Sized (arePropertiesStatic (.cons t packedSize rest))
      (propertiesTypeSize (.cons t packedSize rest)) (propertiesSize (.cons t packedSize rest))
      (csBitsAll (.cons t packedSize rest)) := by
  obtain ⟨hobject', htype'⟩ := hrest
  cases packedSize with
  | none =>
    obtain ⟨hobject, htype⟩ := hplain rfl
    refine ⟨fun x => ?_, ?_⟩
    · rw [propertiesSize, hobject, hobject']
      rfl
    · rw [arePropertiesStatic]
      rcases htype with hdynamic | ⟨hfixed, n, hsize, hbits⟩
      · rw [hdynamic]
        exact .inl rfl
      · rw [hfixed]
        rcases htype' with hdynamic' | ⟨hfixed', n', hsize', hbits'⟩
        · exact .inl hdynamic'
        · refine .inr ⟨hfixed', n + n', ?_, fun x => ?_⟩
          · rw [propertiesTypeSize, hsize, hsize']
            rfl
          · rw [csBitsAll, hbits, hbits']
  | some size =>
    have hstatic : arePropertiesStatic (.cons t (some size) rest) = arePropertiesStatic rest := by
      rw [arePropertiesStatic, hpacked rfl]
      rfl
    rw [hstatic]
    refine ⟨fun x => ?_, ?_⟩
    · rw [propertiesSize, hobject']
      rfl
    · rcases htype' with hdynamic | ⟨hfixed, n, hsize, hbits⟩
      · exact .inl hdynamic
      · refine .inr ⟨hfixed, size.bits + n, ?_, fun x => ?_⟩
        · rw [propertiesTypeSize, hsize]
          rfl
        · rw [csBitsAll, hbits]

mutual

theorem sized (t : CsType) (hw : t.hasWire = true) (hp : t.noPackedULong = true) :
    Sized (isTypeStatic t) (getTypeSize t) (getObjectSize t) (csBits t) := by
  match t with
  | .bool | .char | .num n | .enum n => exact sized_scalar rfl
  | .string => cases hw
  | .list element =>
    have hscalar : element.scalar.isSome = true := hw
    refine ⟨fun xs => ?_, .inl rfl⟩
    match xs with
    | [] => rfl
    | x :: rest =>
      simp only [getObjectSize, getObjectSize_scalar hscalar, csBits, csBits_scalar hscalar]
      rfl
  | .cls properties =>
    exact sized_cls (getCompostStructProperties_ok hw hp) (propertiesSized properties hw hp)

theorem propertiesSized (ps : CsProperties) (hw : ps.haveWire = true)
    (hp : ps.noPackedULong = true) :
    Sized (arePropertiesStatic ps) (propertiesTypeSize ps) (propertiesSize ps) (csBitsAll ps) := by
  match ps with
  | .nil => exact ⟨fun _ => rfl, .inr ⟨rfl, 0, rfl, fun _ => rfl⟩⟩
  | .cons t none rest =>
    obtain ⟨hw, hwrest⟩ := Bool.and_eq_true_iff.mp hw
    obtain ⟨hp, hprest⟩ := Bool.and_eq_true_iff.mp hp
    exact sized_cons (fun _ => sized t hw hp) (fun h => by cases h)
      (propertiesSized rest hwrest hprest)
  | .cons t (some size) rest =>
    obtain ⟨hw, hwrest⟩ := Bool.and_eq_true_iff.mp hw
    obtain ⟨-, hprest⟩ := Bool.and_eq_true_iff.mp hp
    refine sized_cons (fun h => by cases h) (fun _ => ?_) (propertiesSized rest hwrest hprest)
    cases t with
    | num n => rfl
    | _ => cases hw

end

/-- Arguments as the properties of a class without attributes. -/
def CsProperties.ofTypes : List CsType → CsProperties
  | [] => .nil
  | t :: ts => .cons t none (ofTypes ts)

def arguments : (ts : List CsType) → CsValues (.ofTypes ts) → List CsObject
  | [], _ => []
  | t :: ts, x => ⟨t, x.1⟩ :: arguments ts x.2

theorem map_fst_arguments (ts : List CsType) (xs : CsValues (.ofTypes ts)) :
    (arguments ts xs).map Sigma.fst = ts := by
  induction ts with
  | nil => rfl
  | cons t ts ih => exact congrArg (t :: ·) (ih (Prod.snd xs))

theorem serializeEach_arguments (ts : List CsType) (xs : CsValues (.ofTypes ts))
    (buffer : List UInt8) (offset : BufferUnit) :
    serializeEach (fun arg : CsObject => serialize arg.1 arg.2) (arguments ts xs) buffer offset =
      serializeProperties (.ofTypes ts) xs buffer offset := by
  induction ts generalizing buffer offset with
  | nil => rfl
  | cons t ts ih =>
    simp only [arguments, serializeEach, ih]
    rfl

theorem getCollectionSize_arguments {ts : List CsType}
    (hw : (CsProperties.ofTypes ts).haveWire = true)
    (hp : (CsProperties.ofTypes ts).noPackedULong = true) (xs : CsValues (.ofTypes ts)) :
    getCollectionSize (arguments ts xs) = .ok ⟨csBitsAll (.ofTypes ts) xs⟩ := by
  induction ts with
  | nil => rfl
  | cons t ts ih =>
    simp only [CsProperties.ofTypes, CsProperties.haveWire, CsProperties.noPackedULong,
      Bool.and_eq_true] at hw hp
    simp only [arguments, getCollectionSize, (sized t hw.1 hp.1).object, ih hw.2 hp.2]
    rfl

theorem ofTypes_size {ts : List CsType} (hw : (CsProperties.ofTypes ts).haveWire = true)
    (hp : (CsProperties.ofTypes ts).noPackedULong = true) (size : BufferUnit) :
    ∃ shape, MessageShape.ofTypes size ts = .ok shape ∧ (shape.isFixedSize = true →
      ∀ xs, shape.size = ⟨size.bits + csBitsAll (.ofTypes ts) xs⟩) := by
  induction ts generalizing size with
  | nil => exact ⟨⟨size, true⟩, rfl, fun _ _ => rfl⟩
  | cons t ts ih =>
    simp only [CsProperties.ofTypes, CsProperties.haveWire, CsProperties.noPackedULong,
      Bool.and_eq_true] at hw hp
    rw [MessageShape.ofTypes]
    rcases (sized t hw.1 hp.1).type with hdynamic | ⟨hfixed, n, hsize, hbits⟩
    · rw [hdynamic]
      exact ⟨_, rfl, fun h => by cases h⟩
    · obtain ⟨shape, hshape, hsum⟩ := ih hw.2 hp.2 (size + ⟨n⟩)
      rw [hfixed, hsize]
      refine ⟨shape, hshape, fun h xs => ?_⟩
      rw [hsum h (Prod.snd xs), MemUnit.add_bits, Nat.add_assoc]
      simp only [CsProperties.ofTypes, csBitsAll, hbits]

theorem length_write (h : MessageHeader) (buffer : List UInt8) (offset : ℕ) :
    (h.write buffer offset).length = buffer.length := by
  rw [MessageHeader.write]
  split
  · rfl
  · simp only [List.length_set]

/-- The header leaves the payload as it was. -/
theorem ofList_write_header (h : MessageHeader) (buffer : List UInt8) (k : ℕ) :
    ofList (h.write buffer 0) (4 + k) = ofList buffer (4 + k) := by
  rw [MessageHeader.write]
  split
  · rfl
  · have hset : ∀ (bytes : List UInt8) (j : ℕ) (b : UInt8), j < 4 →
        (bytes.set j b).getD (4 + k) 0 = bytes.getD (4 + k) 0 := by
      intro bytes j b hj
      simp only [List.getD_eq_getElem?_getD, List.getElem?_set_ne (show j ≠ 4 + k by omega)]
    simp only [ofList]
    rw [hset _ 3 _ (by decide), hset _ 2 _ (by decide), hset _ 1 _ (by decide),
      hset _ 0 _ (by decide)]

def fillMessage (header : MessageHeader) (args : List CsObject) : Except CsError (List UInt8) := do
  let rawBuffer ← initBuffer header.len
  let (rawBuffer, _) ← serializeEach (fun arg : CsObject => serialize arg.1 arg.2) args
    (header.write rawBuffer 0) MessageHeader.headerSize
  return rawBuffer

theorem serializeMessage_eq (txn : UInt8) (rpcId : UInt16) (resp : Bool) (args : List CsObject)
    (shape : MessageShape) : serializeMessage txn rpcId resp args shape =
      (if shape.isFixedSize then pure shape.size else getCollectionSize args) >>= fun size =>
        fillMessage ⟨size, txn, rpcId, resp⟩ args := by
  rw [serializeMessage]
  split <;> rfl

theorem noPackedULong_of_messagePayload {ts : List CsType}
    (hw : (CsProperties.ofTypes ts).haveWire = true) {xs : CsValues (.ofTypes ts)} {txn : UInt8}
    {rpcId : UInt16} {resp : Bool} {payload : List UInt8}
    (h : messagePayload txn rpcId resp (arguments ts xs) = .ok payload) :
    (CsProperties.ofTypes ts).noPackedULong = true := by
  obtain ⟨shape, -, h⟩ := except_bind_eq_ok.mp h
  obtain ⟨rawBuffer, h, -⟩ := except_bind_eq_ok.mp h
  rw [serializeMessage_eq] at h
  obtain ⟨size, -, h⟩ := except_bind_eq_ok.mp h
  obtain ⟨zeros, -, h⟩ := except_bind_eq_ok.mp h
  obtain ⟨r, h, -⟩ := except_bind_eq_ok.mp h
  rw [serializeEach_arguments] at h
  exact noPackedULong_of_serializeProperties _ xs hw h

theorem messagePayload_arguments {ts : List CsType}
    (hw : (CsProperties.ofTypes ts).haveWire = true)
    (hp : (CsProperties.ofTypes ts).noPackedULong = true) (xs : CsValues (.ofTypes ts))
    (txn : UInt8) (rpcId : UInt16) (resp : Bool) :
    messagePayload txn rpcId resp (arguments ts xs) = (do
      let rawBuffer ← fillMessage ⟨⟨csBitsAll (.ofTypes ts) xs⟩, txn, rpcId, resp⟩ (arguments ts xs)
      return rawBuffer.drop MessageHeader.headerSize.bytes) := by
  obtain ⟨shape, hshape, hsum⟩ := ofTypes_size hw hp ⟨0⟩
  have hsize : (if shape.isFixedSize then pure shape.size else
      getCollectionSize (arguments ts xs)) = .ok ⟨csBitsAll (.ofTypes ts) xs⟩ := by
    cases hfixed : shape.isFixedSize with
    | true =>
      rw [if_pos rfl, hsum hfixed xs, Nat.zero_add]
      rfl
    | false => exact getCollectionSize_arguments hw hp xs
  rw [messagePayload, MessageShape.fromArguments, map_fst_arguments, hshape, except_ok_bind,
    serializeMessage_eq, hsize, except_ok_bind]

/-- There is a message for the arguments: no packed property is refused, their bits are within the
limit of a body, and with the alignments they end inside the words taken for their bits. -/
structure HasMessage (ps : CsProperties) (xs : CsValues ps) : Prop where
  supported : ps.noPackedULong = true
  limit : csBitsAll ps xs ≤ messageBodyLimit.bits
  inside : stopAll (csPropertiesPieces ps xs) 0 ≤ 32 * BufferUnit.words ⟨csBitsAll ps xs⟩

structure IsPayload (ps : CsProperties) (xs : CsValues ps) (payload : List UInt8) : Prop where
  hasMessage : HasMessage ps xs
  length_eq : payload.length = 4 * BufferUnit.words ⟨csBitsAll ps xs⟩
  memory : ofList payload = writeAll (fun _ => 0) 0 (csPropertiesPieces ps xs)

/-- What lies behind the header in a buffer. -/
theorem ofList_drop (buffer : List UInt8) (n i : ℕ) :
    ofList (buffer.drop n) i = ofList buffer (n + i) := by
  simp only [ofList, List.getD_eq_getElem?_getD, List.getElem?_drop]

theorem ofList_drop_stored {buffer buffer' : List UInt8} {ps : List Piece} {next : MemUnit}
    (hzero : ∀ i, ofList buffer (4 + i) = 0)
    (h : Stored buffer MessageHeader.headerSize ps buffer' next) :
    ofList (buffer'.drop 4) = writeAll (fun _ => 0) 0 ps := by
  have hstart : MessageHeader.headerSize.bits = 8 * 4 + 0 := rfl
  funext i
  rw [ofList_drop, h.memory, hstart]
  apply byte_eq_of_bits
  intro k hk
  have hbit : 8 * (4 + i) + k = 8 * 4 + (8 * i + k) := by omega
  rw [hbit]
  apply bitAt_writeAll_shift
  have hbyte : (8 * 4 + (8 * i + k)) / 8 = 4 + i := by omega
  simp only [bitAt, hbyte, hzero]
  simp

theorem fillMessage_ok_iff (header : MessageHeader) (args : List CsObject)
    (rawBuffer : List UInt8) : fillMessage header args = .ok rawBuffer ↔
      header.len.bits ≤ messageBodyLimit.bits ∧
        ∃ next, serializeEach (fun arg : CsObject => serialize arg.1 arg.2) args
          (header.write (List.replicate (4 + header.len.words * 4) 0) 0)
          MessageHeader.headerSize = .ok (rawBuffer, next) := by
  rw [fillMessage, initBuffer]
  by_cases hlimit : header.len.bits > messageBodyLimit.bits
  · rw [if_pos hlimit]
    constructor
    · intro h
      cases h
    · rintro ⟨hle, -⟩
      omega
  · rw [if_neg hlimit, except_ok_bind, and_iff_right (by omega)]
    constructor
    · intro h
      obtain ⟨⟨buffer, next⟩, hserialize, hbuffer⟩ := except_bind_eq_ok.mp h
      cases hbuffer
      exact ⟨next, hserialize⟩
    · rintro ⟨next, hserialize⟩
      exact except_bind_eq_ok.mpr ⟨_, hserialize, rfl⟩

/-- The message with the arguments as its payload. -/
theorem messagePayload_ok_iff {ts : List CsType} (hw : (CsProperties.ofTypes ts).haveWire = true)
    {xs : CsValues (.ofTypes ts)} (hfit : AllPacksFit (.ofTypes ts) xs) (txn : UInt8)
    (rpcId : UInt16) (resp : Bool) (payload : List UInt8) :
    messagePayload txn rpcId resp (arguments ts xs) = .ok payload ↔
      IsPayload (.ofTypes ts) xs payload := by
  have hstart : MessageHeader.headerSize.bits = 8 * 4 + 0 := rfl
  have hshift := stopAll_shift (csPropertiesPieces (.ofTypes ts) xs) 4 0
  generalize hheader : MessageHeader.mk ⟨csBitsAll (.ofTypes ts) xs⟩ txn rpcId resp = header
  have hlen : header.len = ⟨csBitsAll (.ofTypes ts) xs⟩ := by rw [← hheader]
  -- the buffer before the arguments are serialized
  generalize hbuffer : header.write (List.replicate (4 + header.len.words * 4) 0) 0 = buffer
  have hlength : buffer.length = 4 + header.len.words * 4 := by
    rw [← hbuffer, length_write, List.length_replicate]
  have hzero : ∀ i, ofList buffer (4 + i) = 0 := fun i => by
    rw [← hbuffer, ofList_write_header, ofList_replicate]
  have hplaces : (CsProperties.ofTypes ts).noPackedULong = true → Places (serializeProperties
      (.ofTypes ts) xs buffer MessageHeader.headerSize) buffer MessageHeader.headerSize
      (csPropertiesPieces (.ofTypes ts) xs) := fun hp =>
    serializeProperties_places (.ofTypes ts) xs (propertiesPackable _ xs hw hfit hp) _ _
  constructor
  · intro h
    have hp := noPackedULong_of_messagePayload hw h
    rw [messagePayload_arguments hw hp, hheader] at h
    obtain ⟨rawBuffer, hfill, hpayload⟩ := except_bind_eq_ok.mp h
    cases hpayload
    obtain ⟨hlimit, next, hserialize⟩ := (fillMessage_ok_iff header _ rawBuffer).mp hfill
    rw [hbuffer, serializeEach_arguments] at hserialize
    have hstored := (hplaces hp).stored _ hserialize
    have hend := hstored.stop_eq
    have hfits := hstored.fits
    have hraw : rawBuffer.length = buffer.length := hstored.length_eq
    rw [hstart, hshift] at hend
    rw [hstart] at hfits
    rw [hlen] at hlimit hlength
    have hdrop : (rawBuffer.drop 4).length = 4 * BufferUnit.words ⟨csBitsAll (.ofTypes ts) xs⟩ := by
      rw [List.length_drop]
      omega
    exact ⟨⟨hp, hlimit, by omega⟩, hdrop, ofList_drop_stored hzero hstored⟩
  · rintro ⟨⟨hp, hlimit, hinside⟩, hdrop, hmemory⟩
    rw [← hlen] at hinside hdrop
    have hroom : stopAll (csPropertiesPieces (.ofTypes ts) xs) MessageHeader.headerSize.bits ≤
        8 * buffer.length := by
      rw [hstart, hshift]
      omega
    obtain ⟨⟨rawBuffer, next⟩, hserialize⟩ := (hplaces hp).returns hroom
    have hstored := (hplaces hp).stored _ hserialize
    have hraw : rawBuffer.length = buffer.length := hstored.length_eq
    have hpayload : rawBuffer.drop 4 = payload := by
      apply eq_of_ofList
      · rw [List.length_drop]
        omega
      · rw [hmemory]
        exact ofList_drop_stored hzero hstored
    have hfill : fillMessage header (arguments ts xs) = .ok rawBuffer := by
      refine (fillMessage_ok_iff header _ rawBuffer).mpr ⟨hlen ▸ hlimit, next, ?_⟩
      rw [hbuffer, serializeEach_arguments, hserialize]
    rw [messagePayload_arguments hw hp, hheader, hfill]
    exact congrArg Except.ok hpayload

end CompostRpc
