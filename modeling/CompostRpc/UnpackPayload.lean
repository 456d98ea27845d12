import CompostRpc.PackPayload

/-!
# Deserialization in Python

`unpackPayload` is the recursive reader of the Python package. Its bit fields are read where the
running offset stands, as the writer's are. A byte-sized field is read from the next whole byte,
but the reader then adds its size to the offset it had, which is not rounded up. `unpackTrace`
lists the offsets the reader holds after each field.
-/

namespace CompostRpc
open ByteMemory

def unpackFrom (n : Numeric) (payload : List UInt8) (offset : ℕ) : Except PyError PyVal :=
  if offset + n.size.bytes ≤ payload.length then
    .ok (n.toPy (BitVec.ofNat _ (beNat ((payload.drop offset).take n.size.bytes))))
  else .error .structError

def unpackLength (payload : List UInt8) (offset : ℕ) : Except PyError ℕ :=
  if offset + 2 ≤ payload.length then .ok (beNat ((payload.drop offset).take 2))
  else .error .structError

def unpackLoop : ℕ → List UInt8 → ℕ → ℕ → ℕ → ℕ → Except PyError ℕ
  | 0, _, _, _, _, val => .ok val
  | fuel + 1, buffer, byteIndex, bitPosition, bitsRemaining, val =>
    if bitsRemaining > 0 then
      let bitsToFill := 8 - bitPosition % 8
      let bitsToPlace := min bitsRemaining bitsToFill
      let shift := bitsToFill - bitsToPlace
      let mask := (1 <<< bitsToPlace) - 1
      if byteIndex < buffer.length then
        let bitValue := ((buffer.getD byteIndex 0).toNat >>> shift) &&& mask
        unpackLoop fuel buffer (byteIndex + 1) (bitPosition + bitsToPlace)
          (bitsRemaining - bitsToPlace) (val ||| bitValue <<< (bitsRemaining - bitsToPlace))
      else .error .indexError
    else .ok val

def unpackBitU (width : ℕ) (buffer : List UInt8) (offset : MemUnit) :
    Except PyError (ℕ × MemUnit) := do
  let val ← unpackLoop width buffer (offset.bits / MemUnit.bitsPerByte) offset.bits width 0
  return (val, offset + ⟨width⟩)

/-- The data of a `bytes` or `str` field; a slice past the end of the payload is cut short. -/
def unpackCounted (payload : List UInt8) (offset : MemUnit) :
    Except PyError (List UInt8 × MemUnit) := do
  let length ← unpackLength payload offset.bytes
  let offset := offset.setBytes (offset.bytes + 2)
  let data := (payload.drop offset.bytes).take length
  return (data, offset.setBytes (offset.bytes + length))

def decodeUtf8 (data : List UInt8) : Except PyError PyVal :=
  match ofUtf8? data with
  | some s => .ok (.str s)
  | none => .error .unicodeDecodeError

def unpackElements (inner : Numeric) (payload : List UInt8) (o : ℕ) :
    ℕ → Except PyError (List PyVal)
  | 0 => .ok []
  | count + 1 => do
    let x ← unpackFrom inner payload o
    let xs ← unpackElements inner payload (o + inner.size.bytes) count
    return x :: xs

def unpackList (inner : Numeric) (payload : List UInt8) (offset : MemUnit) :
    Except PyError (PyVal × MemUnit) := do
  let length ← unpackLength payload offset.bytes
  let offset := offset.setBytes (offset.bytes + 2)
  let count := length / inner.size.bytes
  let xs ← unpackElements inner payload offset.bytes count
  return (.list xs, offset.setBytes (offset.bytes + count * inner.size.bytes))

def EnumType.ofValue (e : EnumType) (v : PyVal) : Except PyError PyVal := do
  let v ← asInt v
  if v ∈ e.values then return .enum v else throw .valueError

mutual

def unpack (payload : List UInt8) (offset : MemUnit) :
    WireType → Except PyError (PyVal × MemUnit)
  | .struct _ members => do
    let (fields, offset) ← unpackMembers payload offset.byteAlign members
    return (.struct fields, offset)
  | .bytes => do
    let (data, offset) ← unpackCounted payload offset
    return (.bytes data, offset)
  | .str => do
    let (data, offset) ← unpackCounted payload offset
    return (← decodeUtf8 data, offset)
  | .list inner => unpackList inner payload offset
  | .enum e =>
    match e.backing.repr with
    | .inr width => do
      let (val, offset) ← unpackBitU width payload offset
      return (← e.ofValue (.int val), offset)
    | .inl n => do
      let val ← unpackFrom n payload offset.bytes
      return (← e.ofValue val, offset + n.size)
  | .bitU width => do
    let (val, offset) ← unpackBitU width payload offset
    return (.int val, offset)
  | .num n => do
    let val ← unpackFrom n payload offset.bytes
    return (val, offset + n.size)

def unpackMembers (payload : List UInt8) (offset : MemUnit) :
    Members → Except PyError (List PyVal × MemUnit)
  | .nil => .ok ([], offset)
  | .cons _ t rest => do
    let (v, offset) ← unpack payload offset t
    let (vs, offset) ← unpackMembers payload offset rest
    return (v :: vs, offset)

end

def unpackPayload (types : Members) (payload : List UInt8) : Except PyError (List PyVal) := do
  let (values, _) ← unpackMembers payload ⟨0⟩ types
  return values

mutual

def unpackTrace (payload : List UInt8) (offset : MemUnit) : WireType → List MemUnit
  | .struct _ members => unpackTraceMembers payload offset.byteAlign members
  | t => traceOf (unpack payload offset t)

def unpackTraceMembers (payload : List UInt8) (offset : MemUnit) : Members → List MemUnit
  | .nil => []
  | .cons _ t rest =>
    unpackTrace payload offset t ++
      match unpack payload offset t with
      | .ok (_, offset) => unpackTraceMembers payload offset rest
      | .error _ => []

end

def unpackOffsets (types : Members) (payload : List UInt8) : List MemUnit :=
  unpackTraceMembers payload ⟨0⟩ types

end CompostRpc
