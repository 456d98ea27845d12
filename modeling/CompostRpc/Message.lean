import CompostRpc.PackPayload

/-!
# Headers and messages in Python

The header is a word: the payload length in words, the transaction number, and the RPC identifier
with the response flag. A message is unpacked from the bytes of one datagram or of one read of a
stream, and packed with zeros behind its payload.
-/

namespace CompostRpc
open ByteMemory

structure Header where
  len : ℕ
  txn : ℕ
  resp : Bool
  rpcId : ℕ
  deriving DecidableEq, Repr

namespace Header

def payloadByteLen (h : Header) : ℕ := 4 * h.len

def pack (h : Header) : Except PyError (List UInt8) :=
  let rpcIdAndFlags := h.rpcId &&& 0x0FFF
  let rpcIdAndFlags := if h.resp then rpcIdAndFlags ||| 0x1000 else rpcIdAndFlags
  if h.len < 2 ^ 8 ∧ h.txn < 2 ^ 8 then
    .ok ([UInt8.ofNat h.len, UInt8.ofNat h.txn] ++ beBytes 2 rpcIdAndFlags)
  else .error .structError

def unpack (header : List UInt8) : Except PyError Header :=
  match header with
  | [len, txn, hi, lo] =>
    let rpcIdAndFlags := beNat [hi, lo]
    .ok ⟨len.toNat, txn.toNat, rpcIdAndFlags &&& 0x1000 ≠ 0, rpcIdAndFlags &&& 0x0FFF⟩
  | _ => .error .structError

theorem length_of_unpack {header : List UInt8} {h : Header} (hu : unpack header = .ok h) :
    header.length = 4 := by
  unfold unpack at hu
  split at hu
  · rfl
  · cases hu

end Header

structure Msg where
  header : Header
  payload : List UInt8
  deriving DecidableEq, Repr

namespace Msg

def pack (msg : Msg) : Except PyError (List UInt8) := do
  if 4 * msg.header.len < msg.payload.length then throw .assertionError
  let padding := List.replicate (4 * msg.header.len - msg.payload.length) 0
  return (← msg.header.pack) ++ (msg.payload ++ padding)

def unpack (payload : List UInt8) : Except PyError Msg := do
  return ⟨← Header.unpack (payload.take 4), payload.drop 4⟩

def fromData (txn : ℕ) (response : Bool) (rpcId : ℕ) (payload : List UInt8) : Msg :=
  ⟨⟨(payload.length + 3) / 4, txn, response, rpcId⟩, payload⟩

end Msg

end CompostRpc
