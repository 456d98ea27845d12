import CompostRpc.WireType

/-!
# Serialization in Python

`packPayload` is the recursive writer of the Python package: one scratch buffer of 1024 bytes and
one running bit offset. Bit fields are written where the offset stands; every other field first
rounds it up to a byte. A raised exception is the error of the result. `packTrace` lists the
offsets the writer holds after each field.
-/

namespace CompostRpc
open ByteMemory

inductive PyError
  | assertionError | indexError | overflowError | runtimeError | structError | typeError
  | unicodeDecodeError | valueError
  deriving DecidableEq, Repr

theorem except_ok_bind {ε α β : Type} (a : α) (f : α → Except ε β) :
    ((Except.ok a : Except ε α) >>= f) = f a := rfl

theorem except_bind_eq_ok {ε α β : Type} {x : Except ε α} {f : α → Except ε β} {b : β} :
    (x >>= f) = .ok b ↔ ∃ a, x = .ok a ∧ f a = .ok b := by
  cases x with
  | error e => simp [bind, Except.bind]
  | ok a => simp [bind, Except.bind]

/-- `struct.pack` with the format of `n`. An int given for a float is not modelled. -/
def structPack (n : Numeric) : PyVal → Except PyError (List UInt8)
  | .int v | .enum v =>
    match n.kind with
    | .unsigned =>
      if 0 ≤ v ∧ v < 2 ^ n.size.bits then .ok (beBytes n.size.bytes v.toNat)
      else .error .structError
    | .signed =>
      if -(2 ^ (n.size.bits - 1)) ≤ v ∧ v < 2 ^ (n.size.bits - 1) then
        .ok (beBytes n.size.bytes (v % 2 ^ n.size.bits).toNat)
      else .error .structError
    | .float => .error .typeError
  | .float b =>
    match n.kind with
    | .float =>
      if b < 2 ^ n.size.bits then .ok (beBytes n.size.bytes b) else .error .overflowError
    | _ => .error .structError
  | _ => .error .structError

/-- The assignment `buffer[lo:hi] = data` on a memoryview, which cannot change its length. -/
def assignSlice (buffer : List UInt8) (lo hi : ℕ) (data : List UInt8) :
    Except PyError (List UInt8) :=
  let lo := min lo buffer.length
  let hi := max lo (min hi buffer.length)
  if hi - lo = data.length then .ok (buffer.take lo ++ data ++ buffer.drop hi)
  else .error .valueError

/-- The loop of `BitU.pack`; the fuel is the width, since each round places at least one bit. -/
def packLoop : ℕ → List UInt8 → ℕ → ℕ → ℕ → ℤ → Except PyError (List UInt8)
  | 0, buffer, _, _, _, _ => .ok buffer
  | fuel + 1, buffer, byteIndex, bitPosition, bitsRemaining, value =>
    if bitsRemaining > 0 then
      let bitsToFill := MemUnit.bitsPerByte - bitPosition % MemUnit.bitsPerByte
      let bitsToPlace := if bitsRemaining ≤ bitsToFill then bitsRemaining else bitsToFill
      let shift := bitsToFill - bitsToPlace
      let mask := (1 <<< bitsToPlace) - 1
      -- `& mask` on a Python int keeps the low bits of its two's complement
      let bitValue := ((value >>> (bitsRemaining - bitsToPlace)) % 2 ^ bitsToPlace).toNat
      if byteIndex < buffer.length then
        let byte := buffer.getD byteIndex 0 &&& ~~~ UInt8.ofNat (mask <<< shift)
        packLoop fuel (buffer.set byteIndex (byte ||| UInt8.ofNat (bitValue <<< shift)))
          (byteIndex + 1) (bitPosition + bitsToPlace) (bitsRemaining - bitsToPlace) value
      else .error .indexError
    else .ok buffer

def packBitU (width : ℕ) (buffer : List UInt8) (offset : MemUnit) (value : ℤ) :
    Except PyError (List UInt8 × MemUnit) := do
  let byteIndex := offset.bits / MemUnit.bitsPerByte
  let buffer ← packLoop width buffer byteIndex offset.bits width value
  return (buffer, offset + ⟨width⟩)

mutual

def astupleInner : PyVal → PyVal
  | .struct fields => .tuple (astupleInners fields)
  | .list xs => .list (astupleInners xs)
  | .tuple xs => .tuple (astupleInners xs)
  | v => v

def astupleInners : List PyVal → List PyVal
  | [] => []
  | v :: vs => astupleInner v :: astupleInners vs

end

/-- `dataclasses.astuple`: nested instances become tuples, anything but an instance is refused. -/
def astuple : PyVal → Except PyError (List PyVal)
  | .struct fields => .ok (astupleInners fields)
  | _ => .error .typeError

def strEncode : PyVal → Except PyError (List UInt8)
  | .str s => .ok (utf8 s)
  | _ => .error .typeError

/-- `bytes(value)` of a bytes object; the int and iterable constructors are not modelled. -/
def toBytes : PyVal → Except PyError (List UInt8)
  | .bytes b => .ok b
  | _ => .error .typeError

def asInt : PyVal → Except PyError ℤ
  | .int v | .enum v => .ok v
  | _ => .error .typeError

def packCounted (buffer : List UInt8) (offset : MemUnit) (value : List UInt8) :
    Except PyError (List UInt8 × MemUnit) := do
  let offset := offset.byteAlign
  let len ← structPack .u16 (.int value.length)
  let buffer ← assignSlice buffer offset.bytes (offset.bytes + 2) len
  let offset := offset.setBytes (offset.bytes + 2)
  let buffer ← assignSlice buffer offset.bytes (offset.bytes + value.length) value
  return (buffer, offset.setBytes (offset.bytes + value.length))

def packElements (inner : Numeric) (buffer : List UInt8) (offset : MemUnit) :
    List PyVal → Except PyError (List UInt8 × MemUnit)
  | [] => .ok (buffer, offset)
  | i :: rest => do
    let data ← structPack inner i
    let buffer ← assignSlice buffer offset.bytes (offset.bytes + inner.size.bytes) data
    packElements inner buffer (offset + inner.size) rest

def packList (inner : Numeric) (buffer : List UInt8) (offset : MemUnit) :
    PyVal → Except PyError (List UInt8 × MemUnit)
  | .list xs => do
    let offset := offset.byteAlign
    let len ← structPack .u16 (.int (xs.length * inner.size.bytes : ℕ))
    let buffer ← assignSlice buffer offset.bytes (offset.bytes + 2) len
    packElements inner buffer (offset.setBytes (offset.bytes + 2)) xs
  | _ => .error .typeError

def packNumeric (n : Numeric) (buffer : List UInt8) (offset : MemUnit) (value : PyVal) :
    Except PyError (List UInt8 × MemUnit) := do
  let offset := offset.byteAlign
  let data ← structPack n value
  let buffer ← assignSlice buffer offset.bytes (offset.bytes + n.size.bytes) data
  return (buffer, offset + n.size)

mutual

/-- The inner function `_pack`. An enum class is a subclass of its backing type, so an enum takes
the branch of that type. -/
def pack (buffer : List UInt8) (offset : MemUnit) :
    WireType → PyVal → Except PyError (List UInt8 × MemUnit)
  | .struct _ members, value => do
    packMembers buffer offset.byteAlign members (← astuple value)
  | .bytes, value => do packCounted buffer offset (← toBytes value)
  | .str, value => do packCounted buffer offset (← strEncode value)
  | .list inner, value => packList inner buffer offset value
  | .bitU width, value => do packBitU width buffer offset (← asInt value)
  | .num n, value => packNumeric n buffer offset value
  | .enum e, value =>
    match e.backing.repr with
    | .inr width => do packBitU width buffer offset (← asInt value)
    | .inl n => packNumeric n buffer offset value

def packMembers (buffer : List UInt8) (offset : MemUnit) :
    Members → List PyVal → Except PyError (List UInt8 × MemUnit)
  | .cons _ t rest, v :: vs => do
    let (buffer, offset) ← pack buffer offset t v
    packMembers buffer offset rest vs
  | _, _ => .ok (buffer, offset)

end

def scratchSize : ℕ := 1024

def packPayload (types : Members) (args : List PyVal) : Except PyError (List UInt8) := do
  let buffer := List.replicate scratchSize 0
  if args.length ≠ types.length then throw .valueError
  let (buffer, offset) ← packMembers buffer ⟨0⟩ types args
  return buffer.take offset.bytes

def traceOf {α : Type} : Except PyError (α × MemUnit) → List MemUnit
  | .ok (_, offset) => [offset]
  | .error _ => []

mutual

/-- The offsets held after each field of `t`, struct members counted one by one. -/
def packTrace (buffer : List UInt8) (offset : MemUnit) : WireType → PyVal → List MemUnit
  | .struct _ members, value =>
    match astuple value with
    | .ok fields => packTraceMembers buffer offset.byteAlign members fields
    | .error _ => []
  | t, value => traceOf (pack buffer offset t value)

def packTraceMembers (buffer : List UInt8) (offset : MemUnit) :
    Members → List PyVal → List MemUnit
  | .cons _ t rest, v :: vs =>
    packTrace buffer offset t v ++
      match pack buffer offset t v with
      | .ok (buffer, offset) => packTraceMembers buffer offset rest vs
      | .error _ => []
  | _, _ => []

end

def packOffsets (types : Members) (args : List PyVal) : List MemUnit :=
  packTraceMembers (List.replicate scratchSize 0) ⟨0⟩ types args

end CompostRpc
