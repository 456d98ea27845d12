import CompostRpc.HeaderAgreement
import CompostRpc.ReplyLaw

/-!
# Calls that the server does not have

The generated C code answers an unknown identifier with the number that stands for an error in
Python and in C#. Hence no C# client reports such a call as unsupported.
-/

namespace CompostRpc
open ByteMemory Machine

inductive ProtocolException
  | rpcError (identifier : UInt16)
  | unsupportedRequest (identifier : UInt16)
  | incorrectResponseRpcId (identifier received : UInt16)
  | csError (e : CsError)

/-- What `Protocol.InvokeRpcAsync` makes of the response, with the deserialization of the result. -/
def invokeRpcAsync {α : Type} (identifier : UInt16) (resp : MessageHeader)
    (deserialize : Except CsError α) : Except ProtocolException α :=
  if resp.isErrorResponse then .error (.rpcError identifier)
  else if resp.isUnsupportedResponse then .error (.unsupportedRequest identifier)
  else if resp.rpcId ≠ identifier then .error (.incorrectResponseRpcId identifier resp.rpcId)
  else deserialize.mapError .csError

/-- The C# client takes the reply to a call for one that says that the call is unsupported. -/
structure ReportedUnsupported (identifier : UInt16) (h : MessageHeader) : Prop where
  unsupported : h.isUnsupportedResponse = true
  not_error : h.isErrorResponse = false
  raised : ∀ {α : Type} (deserialize : Except CsError α),
    invokeRpcAsync identifier h deserialize = .error (.unsupportedRequest identifier)

structure ReportedError (identifier : UInt16) (h : MessageHeader) : Prop where
  error : h.isErrorResponse = true
  not_unsupported : h.isUnsupportedResponse = false
  raised : ∀ {α : Type} (deserialize : Except CsError α),
    invokeRpcAsync identifier h deserialize = .error (.rpcError identifier)

theorem reportedError_of_unknownMsg {len : BufferUnit} {txn : UInt8} (identifier : UInt16) :
    ReportedError identifier ⟨len, txn, unknownMsg, true⟩ :=
  ⟨rfl, rfl, fun _ => rfl⟩

theorem Protocol.lookup_eq_none {p : Protocol} {rpcId : ℕ} (h : ∀ d ∈ p.rpcs, d.rpcId ≠ rpcId)
    (endpoint : Endpoint) : p.lookup endpoint rpcId = none := by
  refine List.find?_eq_none.mpr fun d hd hfound => ?_
  rw [Bool.and_eq_true, beq_iff_eq] at hfound
  exact h d hd hfound.2

/-- The reply to a request with an unknown identifier is its header. -/
theorem compostMsgProcess_unknown {p : Protocol} (endpoint : Endpoint) (handlers : Handlers)
    {mem : ByteMemory} {txBuf txBufSize rxBuf rxBufSize : ℕ}
    (hb : Buffers txBuf txBufSize rxBuf rxBufSize) (haccepted : ¬ Refused mem rxBuf)
    (hunknown : ∀ d ∈ p.rpcs, d.rpcId ≠ (requestRpcId mem rxBuf).toNat)
    (htxn : (requestHeader mem rxBuf).txn ≠ 0) :
    (compostMsgProcess p endpoint handlers (.start mem) txBuf txBufSize rxBuf rxBufSize).1 = 4 ∧
      read (compostMsgProcess p endpoint handlers (.start mem) txBuf txBufSize rxBuf
        rxBufSize).2.mem txBuf 4 = headerBytes 0 (requestHeader mem rxBuf).txn true 0xFEE := by
  obtain ⟨m, -, hrun⟩ := compostMsgProcess_accepted p endpoint mem hb haccepted
  have hnone : p.lookup endpoint (requestMsg mem rxBuf rxBufSize).header.rpcId.toNat = none :=
    Protocol.lookup_eq_none hunknown endpoint
  have hswitch : compostInvokeSwitch p endpoint handlers m (replyMsg mem txBuf txBufSize rxBuf)
      (requestMsg mem rxBuf rxBufSize) =
        (m, compostUnknownMsg (replyMsg mem txBuf txBufSize rxBuf)) := by
    rw [compostInvokeSwitch, hnone]
  rw [(hrun handlers).1, hswitch, sendReply, if_pos (.inl htxn)]
  have hid : 0xFEE < 4096 := by decide
  exact ⟨rfl, compostHeaderStore_bytes m txBuf hid⟩

theorem not_reportedUnsupported {p : Protocol} (endpoint : Endpoint) (handlers : Handlers)
    {mem : ByteMemory} {txBuf txBufSize rxBuf rxBufSize : ℕ}
    (hb : Buffers txBuf txBufSize rxBuf rxBufSize) (haccepted : ¬ Refused mem rxBuf)
    (hunknown : ∀ d ∈ p.rpcs, d.rpcId ≠ (requestRpcId mem rxBuf).toNat)
    (htxn : (requestHeader mem rxBuf).txn ≠ 0) :
    ∃ n h, (compostMsgProcess p endpoint handlers (.start mem) txBuf txBufSize rxBuf
        rxBufSize).1 = (n : ℕ) ∧
      MessageHeader.parse (read (compostMsgProcess p endpoint handlers (.start mem) txBuf txBufSize
        rxBuf rxBufSize).2.mem txBuf n) 0 = .ok h ∧
      ReportedError (requestRpcId mem rxBuf) h ∧
      ¬ ReportedUnsupported (requestRpcId mem rxBuf) h := by
  obtain ⟨hreturn, hbytes⟩ :=
    compostMsgProcess_unknown endpoint handlers hb haccepted hunknown htxn
  have hid : 0xFEE < 4096 := by decide
  have hparse : MessageHeader.parse
      (headerBytes 0 (requestHeader mem rxBuf).txn true 0xFEE ++ []) 0 = _ :=
    MessageHeader.parse_headerBytes hid []
  rw [List.append_nil, ← hbytes] at hparse
  refine ⟨4, _, hreturn, hparse, reportedError_of_unknownMsg _, fun hreported => ?_⟩
  cases hreported.unsupported

def unknownRequest : ByteMemory := ByteMemory.write (fun _ => 0) 1000 [0, 7, 0, 9]

theorem not_reportedUnsupported_unknownRequest :
    ∃ n h, (compostMsgProcess textProtocol .remote zeroHandlers (.start unknownRequest) 100 64 1000
        4).1 = (n : ℕ) ∧
      MessageHeader.parse (read (compostMsgProcess textProtocol .remote zeroHandlers
        (.start unknownRequest) 100 64 1000 4).2.mem 100 n) 0 = .ok h ∧
      ReportedError 9 h ∧ ¬ ReportedUnsupported 9 h :=
  not_reportedUnsupported .remote zeroHandlers ⟨by decide, by decide, by decide, by decide⟩
    (by simp only [Refused]; decide +kernel) (by decide +kernel) (by decide +kernel)

theorem unknownRequest_reported_as_error :
    read (compostMsgProcess textProtocol .remote zeroHandlers (.start unknownRequest) 100 64 1000
        4).2.mem 100 4 = [0, 7, 0x1F, 0xEE] ∧
      ∀ h, MessageHeader.parse [0, 7, 0x1F, 0xEE] 0 = .ok h →
        h.isErrorResponse = true ∧ ¬ ReportedUnsupported 9 h := by
  refine ⟨by decide +kernel, fun h hparse => ?_⟩
  cases hparse
  exact ⟨rfl, fun hreported => by cases hreported.unsupported⟩

end CompostRpc
