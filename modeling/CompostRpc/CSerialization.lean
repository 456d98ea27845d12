import CompostRpc.WireType

/-!
# The load and store functions of the C library

A `Machine` is the memory of the C program with a record of the addresses that the load functions
read, of those that the store functions write, and of the regions that handlers are given. Pointers
are natural numbers. `storeMember` and
`loadMember` are what the code generator emits for one value: a struct restarts a local bit offset
after every alignment and advances the byte pointer, so the helper function of a struct type runs
together with the compile-time offset that the generator keeps.
-/

namespace CompostRpc
open ByteMemory

structure Machine where
  mem : ByteMemory
  loads : List ℕ
  stores : List ℕ
  handed : List (ℕ × ℕ)

namespace Machine

def loadByte (m : Machine) (a : ℕ) : UInt8 × Machine :=
  (m.mem a, { m with loads := m.loads ++ [a] })

def storeByte (m : Machine) (a : ℕ) (b : UInt8) : Machine :=
  { m with mem := Function.update m.mem a b, stores := m.stores ++ [a] }

def loadBytes (m : Machine) (a : ℕ) : ℕ → List UInt8 × Machine
  | 0 => ([], m)
  | n + 1 =>
    let (b, m) := m.loadByte a
    let (bs, m) := m.loadBytes (a + 1) n
    (b :: bs, m)

def storeBytes (m : Machine) (a : ℕ) : List UInt8 → Machine
  | [] => m
  | b :: bs => (m.storeByte a b).storeBytes (a + 1) bs

def memcpy (m : Machine) (dest src len : ℕ) : Machine := m.storeBytes dest (read m.mem src len)

end Machine

/-- A C slice; `len` counts elements. -/
structure Slice where
  ptr : ℕ
  len : UInt16

mutual

/-- The C values of a type: an integer or a float as its bits, an enum as an `int`. -/
def CValue : WireType → Type
  | .num n => BitVec n.size.bits
  | .str | .bytes | .list _ => Slice
  | .bitU width => BitVec width
  | .enum _ => BitVec 32
  | .struct _ members => CValues members

def CValues : Members → Type
  | .nil => Unit
  | .cons _ t rest => CValue t × CValues rest

end

def numericStore (n : Numeric) (m : Machine) (dest : ℕ) (src : BitVec n.size.bits) : Machine × ℕ :=
  (m.storeBytes dest (beBytes n.size.bytes src.toNat), dest + n.size.bytes)

/-- The loop of `compost_bituint_store`, with the width as fuel. -/
def bituintStoreLoop : ℕ → Machine → ℕ → ℕ → ℕ → ℕ → ℕ → Machine
  | 0, m, _, _, _, _, _ => m
  | fuel + 1, m, dest, value, byteIndex, bitPosition, bitsRemaining =>
    if bitsRemaining > 0 then
      let bitsToFill := 8 - bitPosition % 8
      let bitsToPlace := if bitsRemaining ≤ bitsToFill then bitsRemaining else bitsToFill
      let shift := bitsToFill - bitsToPlace
      let mask := (1 <<< bitsToPlace) - 1
      let bitValue := (value >>> (bitsRemaining - bitsToPlace)) &&& mask
      let a := dest + byteIndex
      let m := m.storeByte a (m.mem a &&& ~~~ UInt8.ofNat (mask <<< shift))
      let m := m.storeByte a (m.mem a ||| UInt8.ofNat (bitValue <<< shift))
      bituintStoreLoop fuel m dest value (byteIndex + 1) (bitPosition + bitsToPlace)
        (bitsRemaining - bitsToPlace)
    else m

def bituintStore (m : Machine) (dest value offsetBits sizeBits : ℕ) : Machine :=
  bituintStoreLoop sizeBits m dest value (offsetBits / 8) offsetBits sizeBits

def sliceStore (inner : Numeric) (m : Machine) (dest : ℕ) (src : Slice) : Machine × ℕ :=
  let len := src.len.toNat * inner.size.bytes % 2 ^ 16
  let m := if src.ptr ≠ dest then m.memcpy (dest + 2) src.ptr len else m
  let (m, dest) := numericStore .u16 m dest (BitVec.ofNat _ len)
  (m, dest + len)

def numericLoad (n : Numeric) (m : Machine) (src : ℕ) : BitVec n.size.bits × Machine × ℕ :=
  let (bs, m) := m.loadBytes src n.size.bytes
  (BitVec.ofNat _ (beNat bs), m, src + n.size.bytes)

def bituintLoadLoop : ℕ → Machine → ℕ → ℕ → ℕ → ℕ → ℕ → ℕ × Machine
  | 0, m, _, _, _, _, val => (val, m)
  | fuel + 1, m, src, byteIndex, bitPosition, bitsRemaining, val =>
    if bitsRemaining > 0 then
      let bitsToFill := 8 - bitPosition % 8
      let bitsToPlace := if bitsRemaining ≤ bitsToFill then bitsRemaining else bitsToFill
      let shift := bitsToFill - bitsToPlace
      let mask := (1 <<< bitsToPlace) - 1
      let (b, m) := m.loadByte (src + byteIndex)
      let bitValue := (b.toNat >>> shift) &&& mask
      bituintLoadLoop fuel m src (byteIndex + 1) (bitPosition + bitsToPlace)
        (bitsRemaining - bitsToPlace) (val ||| bitValue <<< (bitsRemaining - bitsToPlace))
    else (val, m)

def bituintLoad (m : Machine) (src offsetBits sizeBits : ℕ) : ℕ × Machine :=
  bituintLoadLoop sizeBits m src (offsetBits / 8) offsetBits sizeBits 0

def sliceLoad (inner : Numeric) (m : Machine) (src : ℕ) : Slice × Machine × ℕ :=
  let (len, m, src) := numericLoad .u16 m src
  (⟨src, UInt16.ofNat (len.toNat / inner.size.bytes)⟩, m, src + len.toNat)

def byteAlignPtr (ptr : ℕ) (offset : MemUnit) : ℕ × MemUnit :=
  let offset := offset.byteAlign
  (ptr + offset.bytes, offset.setBytes 0)

def enumOfNumeric (n : Numeric) (v : BitVec n.size.bits) : BitVec 32 :=
  match n.kind with
  | .signed => v.signExtend 32
  | _ => v.setWidth 32

mutual

def storeMember (m : Machine) (dest : ℕ) (offset : MemUnit) :
    (t : WireType) → CValue t → Machine × ℕ × MemUnit
  | .bitU width, v =>
    (bituintStore m dest (BitVec.toNat v) offset.bits width, dest, offset + ⟨width⟩)
  | .enum e, v =>
    match e.backing.repr with
    | .inr width =>
      (bituintStore m dest (BitVec.toNat v) offset.bits width, dest, offset + ⟨width⟩)
    | .inl n =>
      let (dest, offset) := byteAlignPtr dest offset
      let (m, dest) := numericStore n m dest (BitVec.setWidth n.size.bits v)
      (m, dest, offset)
  | .num n, v =>
    let (dest, offset) := byteAlignPtr dest offset
    let (m, dest) := numericStore n m dest v
    (m, dest, offset)
  | .str, v =>
    let (dest, offset) := byteAlignPtr dest offset
    let (m, dest) := sliceStore .u8 m dest v
    (m, dest, offset)
  | .bytes, v =>
    let (dest, offset) := byteAlignPtr dest offset
    let (m, dest) := sliceStore .u8 m dest v
    (m, dest, offset)
  | .list inner, v =>
    let (dest, offset) := byteAlignPtr dest offset
    let (m, dest) := sliceStore inner m dest v
    (m, dest, offset)
  | .struct _ members, vs =>
    let (dest, offset) := byteAlignPtr dest offset
    let (m, dest) := storeMembers m dest ⟨0⟩ members vs
    (m, dest, offset)

def storeMembers (m : Machine) (dest : ℕ) (offset : MemUnit) :
    (ms : Members) → CValues ms → Machine × ℕ
  | .nil, _ => (m, (byteAlignPtr dest offset).1)
  | .cons _ t rest, v =>
    let (m, dest, offset) := storeMember m dest offset t v.1
    storeMembers m dest offset rest v.2

end

mutual

def loadMember (m : Machine) (src : ℕ) (offset : MemUnit) :
    (t : WireType) → CValue t × Machine × ℕ × MemUnit
  | .bitU width =>
    let (v, m) := bituintLoad m src offset.bits width
    (BitVec.ofNat _ v, m, src, offset + ⟨width⟩)
  | .enum e =>
    match e.backing.repr with
    | .inr width =>
      let (v, m) := bituintLoad m src offset.bits width
      (BitVec.ofNat 32 v, m, src, offset + ⟨width⟩)
    | .inl n =>
      let (src, offset) := byteAlignPtr src offset
      let (v, m, src) := numericLoad n m src
      (enumOfNumeric n v, m, src, offset)
  | .num n =>
    let (src, offset) := byteAlignPtr src offset
    let (v, m, src) := numericLoad n m src
    (v, m, src, offset)
  | .str =>
    let (src, offset) := byteAlignPtr src offset
    let (v, m, src) := sliceLoad .u8 m src
    (v, m, src, offset)
  | .bytes =>
    let (src, offset) := byteAlignPtr src offset
    let (v, m, src) := sliceLoad .u8 m src
    (v, m, src, offset)
  | .list inner =>
    let (src, offset) := byteAlignPtr src offset
    let (v, m, src) := sliceLoad inner m src
    (v, m, src, offset)
  | .struct _ members =>
    let (src, offset) := byteAlignPtr src offset
    let (vs, m, src) := loadMembers m src ⟨0⟩ members
    (vs, m, src, offset)

def loadMembers (m : Machine) (src : ℕ) (offset : MemUnit) :
    (ms : Members) → CValues ms × Machine × ℕ
  | .nil => ((), m, (byteAlignPtr src offset).1)
  | .cons _ t rest =>
    let (v, m, src, offset) := loadMember m src offset t
    let (vs, m, src) := loadMembers m src offset rest
    ((v, vs), m, src)

end

/-- The store call emitted for a return value, a parameter or a struct behind a pointer. -/
def storeCall (m : Machine) (dest : ℕ) (t : WireType) (v : CValue t) : Machine × ℕ :=
  let (m, dest, _) := storeMember m dest ⟨0⟩ t v
  (m, dest)

def storeCalls (m : Machine) (dest : ℕ) : (ms : Members) → CValues ms → Machine × ℕ
  | .nil, _ => (m, dest)
  | .cons _ t rest, v =>
    let (m, dest) := storeCall m dest t v.1
    storeCalls m dest rest v.2

def loadCall (m : Machine) (src : ℕ) (t : WireType) : CValue t × Machine × ℕ :=
  let (v, m, src, _) := loadMember m src ⟨0⟩ t
  (v, m, src)

def loadCalls (m : Machine) (src : ℕ) : (ms : Members) → CValues ms × Machine × ℕ
  | .nil => ((), m, src)
  | .cons _ t rest =>
    let (v, m, src) := loadCall m src t
    let (vs, m, src) := loadCalls m src rest
    ((v, vs), m, src)

/-- The types the `rpc` decorator accepts for a parameter or a return value: a bit field only as a
member of a struct. -/
def WireType.isParameter : WireType → Bool
  | .bitU _ => false
  | .enum e => e.backing.repr.isLeft
  | _ => true

def Members.areParameters : Members → Bool
  | .nil => true
  | .cons _ t rest => t.isParameter && rest.areParameters

end CompostRpc
