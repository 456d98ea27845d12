import CompostRpc.MessageHeader

/-!
# Serialization in C#

The C# library reads the layout of an object off its type. `serialize` writes an object at a bit
offset of a buffer, and `deserialize` reads one back. A property with a `Pack` attribute is written
where the offset stands; everything else is written from the next whole byte. `getObjectSize` counts
the bits of an object, with nothing for the rest of a byte, and `serializeMessage` takes a buffer of
that many words. Sizes are natural numbers: an object of 2^28 bytes, whose size overflows an `int`,
is out of scope.
-/

namespace CompostRpc
open ByteMemory

mutual

inductive CsType
  | bool
  | char
  | num (n : Numeric)
  | enum (underlying : Numeric)
  | string
  | list (element : CsType)
  | cls (properties : CsProperties)

/-- The properties of a class in order, each with the size of its `Pack` attribute. -/
inductive CsProperties
  | nil
  | cons (type : CsType) (packedSize : Option BufferUnit) (rest : CsProperties)

end

mutual

/-- The objects of a type. A number is its bit pattern and a string its UTF-16 code units. -/
def CsValue : CsType → Type
  | .bool => Bool
  | .char => UInt16
  | .num n => BitVec n.size.bits
  | .enum underlying => BitVec underlying.size.bits
  | .string => List UInt16
  | .list element => List (CsValue element)
  | .cls properties => CsValues properties

def CsValues : CsProperties → Type
  | .nil => Unit
  | .cons t _ rest => CsValue t × CsValues rest

end

abbrev CsObject := (t : CsType) × CsValue t

abbrev CsBuffer := List UInt8 × BufferUnit

namespace Serialization

def listLengthSize : BufferUnit := MemUnit.fromBytes 2

def messageBodyLimit : BufferUnit := BufferUnit.fromWords 255

def isTypeSignedInteger : CsType → Bool
  | .num n => n.kind == .signed
  | _ => false

def integerRep : (t : CsType) → CsValue t → Except CsError (BitVec 64)
  | .bool, x => .ok (BitVec.ofNat 64 (Bool.toNat x))
  | .num n, x =>
    if n.size.bits = 64 then .error .notSupported else
      match n.kind with
      | .unsigned => .ok (BitVec.setWidth 64 x)
      | .signed => .ok (BitVec.signExtend 64 x)
      | .float => .error .notSupported
  | .enum n, x =>
    match n.kind with
    | .signed => .ok (BitVec.signExtend 64 x)
    | _ => if BitVec.toNat x < 2 ^ 63 then .ok (BitVec.setWidth 64 x) else .error .overflow
  | _, _ => .error .notSupported

/-- The count of a shift of a `long` is taken modulo 64. -/
def shiftLeft (x : BitVec 64) (count : ℕ) : BitVec 64 := x <<< (count % 64)

def integerToBits (t : CsType) (value : CsValue t) (packedSize : BufferUnit) :
    Except CsError (BitVec 64) := do
  let sizeBits := packedSize.bits
  let rep ← integerRep t value
  let mask := shiftLeft 1 sizeBits - 1
  let isNegativeValue :=
    isTypeSignedInteger t && rep &&& shiftLeft 1 (sizeBits + 63) != 0
  let expanded := if isNegativeValue then rep ||| ~~~mask else rep &&& mask
  if expanded ≠ rep then .error .overflow else .ok expanded

/-- The test conversion of `GetCompostStructProperties`, of a value that `CreateInstance` makes. -/
def testPacked : CsType → BufferUnit → Except CsError (BitVec 64)
  | .bool, size => integerToBits .bool false size
  | .num n, size => integerToBits (.num n) (0 : BitVec n.size.bits) size
  | .enum n, size => integerToBits (.enum n) (0 : BitVec n.size.bits) size
  | .string, _ => .error .missingMethod
  | .char, _ | .list _, _ | .cls _, _ => .error .notSupported

def getCompostStructProperties : CsProperties → Except CsError Unit
  | .nil => .ok ()
  | .cons _ none rest => getCompostStructProperties rest
  | .cons t (some size) rest => do
    let _ ← testPacked t size
    getCompostStructProperties rest

mutual

def isTypeStatic : CsType → Except CsError Bool
  | .string | .list _ => .ok false
  | .cls properties => do
    getCompostStructProperties properties
    arePropertiesStatic properties
  | _ => .ok true

def arePropertiesStatic : CsProperties → Except CsError Bool
  | .nil => .ok true
  | .cons t _ rest => do
    if ← isTypeStatic t then arePropertiesStatic rest else return false

end

mutual

def getTypeSize : CsType → Except CsError BufferUnit
  | .bool | .char => .ok (MemUnit.fromBytes 1)
  | .num n | .enum n => .ok n.size
  | .string | .list _ => .error .serialization
  | .cls properties => do
    if ← isTypeStatic (.cls properties) then propertiesTypeSize properties
    else .error .serialization

def propertiesTypeSize : CsProperties → Except CsError BufferUnit
  | .nil => .ok ⟨0⟩
  | .cons t packedSize rest => do
    let size ← match packedSize with
      | some size => pure size
      | none => getTypeSize t
    return size + (← propertiesTypeSize rest)

end

mutual

def getObjectSize : (t : CsType) → CsValue t → Except CsError BufferUnit
  | .string, s => .ok (MemUnit.fromBytes (List.length s + listLengthSize.bytes))
  | .list element, xs =>
    match (xs : List (CsValue element)) with
    | [] => .ok listLengthSize
    | x :: rest => do
      -- the first element stands for all of them
      let size ← getObjectSize element x
      return ⟨size.bits * (rest.length + 1)⟩ + listLengthSize
  | .cls properties, xs => do
    if ← isTypeStatic (.cls properties) then getTypeSize (.cls properties)
    else propertiesSize properties xs
  | .bool, _ => getTypeSize .bool
  | .char, _ => getTypeSize .char
  | .num n, _ => getTypeSize (.num n)
  | .enum n, _ => getTypeSize (.enum n)

def propertiesSize : (ps : CsProperties) → CsValues ps → Except CsError BufferUnit
  | .nil, _ => .ok ⟨0⟩
  | .cons t packedSize rest, x => do
    let size ← match packedSize with
      | some size => pure size
      | none => getObjectSize t x.1
    return size + (← propertiesSize rest x.2)

end

def getCollectionSize : List CsObject → Except CsError BufferUnit
  | [] => .ok ⟨0⟩
  | arg :: args => do
    let size ← getObjectSize arg.1 arg.2
    return size + (← getCollectionSize args)

/-- `BitConverter.GetBytes` on a little-endian machine. -/
def getBytes {w : ℕ} (x : BitVec w) : List UInt8 := (beBytes (w / 8) x.toNat).reverse

/-- The loop of `CopyBytes`, which reverses the bytes. -/
def copyLoop (src dest : List UInt8) (srcIdx destIdx : ℕ) : ℕ → List UInt8
  | 0 => dest
  | i + 1 => copyLoop src (dest.set destIdx (src.getD srcIdx 0)) (srcIdx + 1) (destIdx - 1) i

def copyBytes (src : List UInt8) (srcStart : ℕ) (dest : List UInt8) (destStart length : ℕ) :
    Except CsError (List UInt8 × ℕ) :=
  if srcStart + length > src.length ∨ destStart + length > dest.length then
    .error .argumentOutOfRange
  else .ok (copyLoop src dest srcStart (destStart + length - 1) length, destStart + length)

def copyByte (src : UInt8) (dest : List UInt8) (destStart : ℕ) :
    Except CsError (List UInt8 × ℕ) :=
  if destStart < dest.length then .ok (dest.set destStart src, destStart + 1)
  else .error .indexOutOfRange

def serializePrimitive (t : CsType) (arg : CsValue t) (buffer : List UInt8)
    (offset : BufferUnit) : Except CsError CsBuffer := do
  let (buffer, next) ← match t, arg with
    | .bool, x => copyBytes [UInt8.ofNat (Bool.toNat x)] 0 buffer offset.bytes 1
    | .char, x => copyBytes [UInt16.toUInt8 x] 0 buffer offset.bytes 1
    | .num n, x =>
      match n with
      | .u8 | .i8 => copyByte (UInt8.ofNat (BitVec.toNat x)) buffer offset.bytes
      | _ => copyBytes (getBytes x) 0 buffer offset.bytes n.size.bytes
    | _, _ => .error .notSupported
  return (buffer, MemUnit.fromBytes next)

/-- The loop of `SerializePackedPrimitive`; the fuel is the size, since each round places a bit. -/
def packedLoop : ℕ → List UInt8 → ℕ → ℕ → ℕ → BitVec 64 → Except CsError (List UInt8)
  | 0, buffer, _, _, _, _ => .ok buffer
  | fuel + 1, buffer, byteIndex, bitPosition, bitsRemaining, val =>
    if bitsRemaining > 0 then
      let bitsToFill := MemUnit.bitsPerByte - bitPosition % MemUnit.bitsPerByte
      let bitsToPlace := if bitsRemaining ≤ bitsToFill then bitsRemaining else bitsToFill
      let shift := bitsToFill - bitsToPlace
      let mask := shiftLeft 1 bitsToPlace - 1
      let bitValue := BitVec.sshiftRight val ((bitsRemaining - bitsToPlace) % 64) &&& mask
      if byteIndex < buffer.length then
        let byte := buffer.getD byteIndex 0 &&& UInt8.ofNat (~~~(shiftLeft mask shift)).toNat
        packedLoop fuel
          (buffer.set byteIndex (byte ||| UInt8.ofNat (shiftLeft bitValue shift).toNat))
          (byteIndex + 1) (bitPosition + bitsToPlace) (bitsRemaining - bitsToPlace) val
      else .error .indexOutOfRange
    else .ok buffer

def serializePackedPrimitive (t : CsType) (arg : CsValue t) (buffer : List UInt8)
    (offset packedSize : BufferUnit) : Except CsError CsBuffer := do
  let val ← integerToBits t arg packedSize
  let buffer ← packedLoop packedSize.bits buffer (offset.bits / MemUnit.bitsPerByte) offset.bits
    packedSize.bits val
  return (buffer, offset + packedSize)

def serializeEach {α : Type} (write : α → List UInt8 → BufferUnit → Except CsError CsBuffer) :
    List α → List UInt8 → BufferUnit → Except CsError CsBuffer
  | [], buffer, offset => .ok (buffer, offset)
  | x :: xs, buffer, offset => do
    let (buffer, offset) ← write x buffer offset
    serializeEach write xs buffer offset

def elementSize {α : Type} (size : α → Except CsError BufferUnit) (len : UInt16) :
    List α → Except CsError UInt16
  | [] => .ok 0
  | x :: _ => if len > 0 then do return UInt16.ofNat (← size x).bytes else .ok 0

def serializeLength (len elemSize : UInt16) (buffer : List UInt8) (offset : BufferUnit) :
    Except CsError CsBuffer :=
  serializePrimitive (.num .u16) (len * elemSize).toBitVec buffer offset

mutual

def serialize : (t : CsType) → CsValue t → List UInt8 → BufferUnit → Except CsError CsBuffer
  | .enum n, x, buffer, offset => serializePrimitive (.num n) x buffer offset
  | .string, s, buffer, offset => do
    let len := UInt16.ofNat (List.length s)
    let (buffer, offset) ← serializeLength len 1 buffer offset
    serializeEach (serializePrimitive .char) (List.take len.toNat s) buffer offset
  | .list element, xs, buffer, offset => do
    let xs : List (CsValue element) := xs
    let len := UInt16.ofNat xs.length
    let elemSize ← elementSize (getObjectSize element) len xs
    let (buffer, offset) ← serializeLength len elemSize buffer offset
    serializeEach (serialize element) (xs.take len.toNat) buffer offset
  | .cls properties, xs, buffer, offset => do
    getCompostStructProperties properties
    serializeProperties properties xs buffer offset
  | .bool, x, buffer, offset => serializePrimitive .bool x buffer offset
  | .char, x, buffer, offset => serializePrimitive .char x buffer offset
  | .num n, x, buffer, offset => serializePrimitive (.num n) x buffer offset

def serializeProperties :
    (ps : CsProperties) → CsValues ps → List UInt8 → BufferUnit → Except CsError CsBuffer
  | .nil, _, buffer, offset => .ok (buffer, offset)
  | .cons t packedSize rest, x, buffer, offset => do
    let (buffer, offset) ← match packedSize with
      | none => serialize t x.1 buffer offset
      | some size => serializePackedPrimitive t x.1 buffer offset size
    serializeProperties rest x.2 buffer offset

end

def primitiveTypeDeser : (t : CsType) → List UInt8 → Except CsError (CsValue t)
  | .bool, buf => .ok (buf.getD 0 0 != 0)
  | .char, buf => .ok (buf.getD 0 0).toUInt16
  | .num n, buf => .ok (BitVec.ofNat n.size.bits (beNat buf.reverse))
  | _, _ => .error .notSupported

def deserializePrimitive (t : CsType) (buffer : List UInt8) (offset : BufferUnit) :
    Except CsError (CsValue t × BufferUnit) := do
  let size ← getTypeSize t
  let (tmp, _) ← copyBytes buffer offset.bytes (List.replicate size.bytes 0) 0 size.bytes
  return (← primitiveTypeDeser t tmp, offset + size)

def unpackedLoop : ℕ → List UInt8 → ℕ → ℕ → ℕ → BitVec 64 → Except CsError (BitVec 64)
  | 0, _, _, _, _, val => .ok val
  | fuel + 1, buffer, byteIndex, bitPosition, bitsRemaining, val =>
    if bitsRemaining > 0 then
      let bitsToFill := MemUnit.bitsPerByte - bitPosition % MemUnit.bitsPerByte
      let bitsToPlace := if bitsRemaining ≤ bitsToFill then bitsRemaining else bitsToFill
      let shift := bitsToFill - bitsToPlace
      let mask := shiftLeft 1 bitsToPlace - 1
      if byteIndex < buffer.length then
        let bitValue := BitVec.ofNat 64 ((buffer.getD byteIndex 0).toNat >>> shift) &&& mask
        unpackedLoop fuel buffer (byteIndex + 1) (bitPosition + bitsToPlace)
          (bitsRemaining - bitsToPlace)
          (val ||| shiftLeft bitValue (bitsRemaining - bitsToPlace))
      else .error .indexOutOfRange
    else .ok val

def underlyingType : CsType → CsType
  | .enum n => .num n
  | t => t

def packedDeser : (t : CsType) → List UInt8 → Except CsError (CsValue t)
  | .num .f32, _ => .error .notSupported
  | .num n, bytes => primitiveTypeDeser (.num n) bytes
  | .enum n, bytes => primitiveTypeDeser (.num n) bytes
  | t, bytes => primitiveTypeDeser t bytes

def deserializePackedPrimitive (t : CsType) (buffer : List UInt8) (offset packedSize : BufferUnit) :
    Except CsError (CsValue t × BufferUnit) := do
  let val ← unpackedLoop packedSize.bits buffer (offset.bits / MemUnit.bitsPerByte) offset.bits
    packedSize.bits 0
  let mask := shiftLeft 1 packedSize.bits - 1
  let isNegativeValue := isTypeSignedInteger (underlyingType t) &&
    val &&& shiftLeft 1 (packedSize.bits + 63) != 0
  let bytes := getBytes (if isNegativeValue then val ||| ~~~mask else val)
  return (← packedDeser t bytes, offset + packedSize)

def deserializeEach {α : Type} (read : BufferUnit → Except CsError (α × BufferUnit)) :
    ℕ → BufferUnit → Except CsError (List α × BufferUnit)
  | 0, offset => .ok ([], offset)
  | count + 1, offset => do
    let (x, offset) ← read offset
    let (xs, offset) ← deserializeEach read count offset
    return (x :: xs, offset)

def deserializeLength (buffer : List UInt8) (offset : BufferUnit) :
    Except CsError (UInt16 × BufferUnit) := do
  let (len, offset) ← deserializePrimitive (.num .u16) buffer offset
  return (UInt16.ofBitVec len, offset)

mutual

def deserialize : (t : CsType) → List UInt8 → BufferUnit →
    Except CsError (CsValue t × BufferUnit)
  | .enum n, buffer, offset => deserializePrimitive (.num n) buffer offset
  | .string, buffer, offset => do
    let (len, offset) ← deserializeLength buffer offset
    deserializeEach (deserializePrimitive .char buffer) len.toNat offset
  | .list element, buffer, offset => do
    let (len, offset) ← deserializeLength buffer offset
    let elemSize := UInt16.ofNat (← getTypeSize element).bytes
    if elemSize = 0 then .error .divideByZero
    else deserializeEach (deserialize element buffer) (len / elemSize).toNat offset
  | .cls properties, buffer, offset => do
    getCompostStructProperties properties
    deserializeProperties properties buffer offset
  | .bool, buffer, offset => deserializePrimitive .bool buffer offset
  | .char, buffer, offset => deserializePrimitive .char buffer offset
  | .num n, buffer, offset => deserializePrimitive (.num n) buffer offset

def deserializeProperties : (ps : CsProperties) → List UInt8 → BufferUnit →
    Except CsError (CsValues ps × BufferUnit)
  | .nil, _, offset => .ok ((), offset)
  | .cons t packedSize rest, buffer, offset => do
    let (x, offset) ← match packedSize with
      | none => deserialize t buffer offset
      | some size => deserializePackedPrimitive t buffer offset size
    let (xs, offset) ← deserializeProperties rest buffer offset
    return ((x, xs), offset)

end

def initBuffer (bodySize : BufferUnit) : Except CsError (List UInt8) :=
  if bodySize.bits > messageBodyLimit.bits then .error .argumentOutOfRange
  else .ok (List.replicate (MessageHeader.headerSize.bytes + bodySize.words * 4) 0)

end Serialization

open Serialization

structure MessageShape where
  size : BufferUnit
  isFixedSize : Bool

namespace MessageShape

def ofTypes (size : BufferUnit) : List CsType → Except CsError MessageShape
  | [] => .ok ⟨size, true⟩
  | t :: ts => do
    if ← isTypeStatic t then ofTypes (size + (← getTypeSize t)) ts else return ⟨⟨0⟩, false⟩

def fromArguments (args : List CsObject) : Except CsError MessageShape :=
  ofTypes ⟨0⟩ (args.map Sigma.fst)

end MessageShape

def serializeMessage (txn : UInt8) (rpcId : UInt16) (resp : Bool) (args : List CsObject)
    (shape : MessageShape) : Except CsError (List UInt8) := do
  let payloadSize ← if shape.isFixedSize then pure shape.size else getCollectionSize args
  let rawBuffer ← initBuffer payloadSize
  let header : MessageHeader := ⟨payloadSize, txn, rpcId, resp⟩
  let (rawBuffer, _) ← serializeEach (fun arg : CsObject => serialize arg.1 arg.2) args
    (header.write rawBuffer 0) MessageHeader.headerSize
  return rawBuffer

def messagePayload (txn : UInt8) (rpcId : UInt16) (resp : Bool) (args : List CsObject) :
    Except CsError (List UInt8) := do
  let shape ← MessageShape.fromArguments args
  let rawBuffer ← serializeMessage txn rpcId resp args shape
  return rawBuffer.drop MessageHeader.headerSize.bytes

end CompostRpc
