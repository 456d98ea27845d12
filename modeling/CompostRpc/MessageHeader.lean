import CompostRpc.WireType

/-!
# Message headers in C#

A `BufferUnit` is a size in bits that is also counted in words. `MessageHeader.parse` reads a header
at an offset of a buffer. `MessageHeader.write` checks that a header fits at the offset, but writes
it to the start of the buffer.
-/

namespace CompostRpc

inductive CsError
  | argumentOutOfRange | divideByZero | indexOutOfRange | missingMethod | notSupported | overflow
  | serialization
  deriving DecidableEq, Repr

abbrev BufferUnit := MemUnit

namespace BufferUnit

def words (u : BufferUnit) : ℕ := (u.bits + 31) / 32

def fromWords (n : ℕ) : BufferUnit := ⟨n * 32⟩

theorem words_fromWords (n : ℕ) : (fromWords n).words = n := by
  simp only [words, fromWords]
  omega

end BufferUnit

structure MessageHeader where
  len : BufferUnit
  txn : UInt8
  rpcId : UInt16
  resp : Bool

namespace MessageHeader

def errorResponseRpcId : UInt16 := 0xFEE
def unsupportedResponseRpcId : UInt16 := 0xFEF

def isErrorResponse (h : MessageHeader) : Bool := h.resp && h.rpcId == errorResponseRpcId

def isUnsupportedResponse (h : MessageHeader) : Bool :=
  h.resp && h.rpcId == unsupportedResponseRpcId

def headerSize : BufferUnit := MemUnit.fromBytes 4

def parse (buffer : List UInt8) (offset : ℕ) : Except CsError MessageHeader :=
  match buffer[offset]?, buffer[offset + 1]?, buffer[offset + 2]?, buffer[offset + 3]? with
  | some b0, some b1, some b2, some b3 =>
    .ok {
      len := BufferUnit.fromWords b0.toNat
      txn := b1
      rpcId := ((b2 &&& 0xF).toUInt16 <<< 8) ||| b3.toUInt16
      resp := (b2 >>> 4) &&& 1 != 0 }
  | _, _, _, _ => .error .indexOutOfRange

/-- Does nothing if the header does not fit behind the offset. -/
def write (h : MessageHeader) (buffer : List UInt8) (offset : ℕ) : List UInt8 :=
  if buffer.length < offset + headerSize.bytes then buffer else
    let hi := ((h.rpcId >>> 8) &&& 0x0F).toUInt8
    let buffer := buffer.set 0 (UInt8.ofNat h.len.words)
    let buffer := buffer.set 1 h.txn
    let buffer := buffer.set 2 (hi ||| (if h.resp then (1 : UInt8) else 0) <<< 4)
    buffer.set 3 (h.rpcId &&& 0xFF).toUInt8

end MessageHeader

end CompostRpc
