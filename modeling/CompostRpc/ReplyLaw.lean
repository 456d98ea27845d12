import Mathlib.Data.List.Find
import CompostRpc.HeaderFormat
import CompostRpc.MsgProcessBounds

/-!
# Which requests the C server answers, and how

The entry point refuses a request for its header alone. Any other request reaches the switch: at
most one handler runs, and the reply carries the transaction number of the request and the
identifier of the call, or `UNKNOWN_MSG`.
-/

namespace CompostRpc
open ByteMemory Machine

structure CodeGeneratorFeatures where
  inboundRpc : Bool
  outboundRpc : Bool
  inboundNotification : Bool
  outboundNotification : Bool

def cFeatures : CodeGeneratorFeatures := ⟨true, false, true, true⟩

/-- `_validate_endpoint`, without which no code is generated. -/
def Protocol.validateEndpoint (p : Protocol) (features : CodeGeneratorFeatures)
    (endpoint : Endpoint) : Bool :=
  p.rpcs.all fun d =>
    if d.isNotification then
      endpoint.isCallInbound d.direction && features.inboundNotification ||
        endpoint.isCallOutbound d.direction && features.outboundNotification
    else
      endpoint.isCallInbound d.direction && features.inboundRpc ||
        endpoint.isCallOutbound d.direction && features.outboundRpc

def Protocol.inbound (p : Protocol) (endpoint : Endpoint) (rpcId : ℕ) : Option Rpc :=
  p.rpcs.find? fun d => endpoint.isCallInbound d.direction && d.rpcId == rpcId

/-- The cases of the switch are the inbound calls. -/
theorem Protocol.lookup_eq_inbound {p : Protocol} {endpoint : Endpoint}
    (h : p.validateEndpoint cFeatures endpoint = true) (rpcId : ℕ) :
    p.lookup endpoint rpcId = p.inbound endpoint rpcId := by
  refine List.find?_congr fun d hd => ?_
  have hvalid := List.all_eq_true.mp h d hd
  simp only [Rpc.inSwitch]
  cases hnotification : d.isNotification with
  | true => rfl
  | false =>
    have hinbound : endpoint.isCallInbound d.direction = true := by
      simpa [hnotification, cFeatures] using hvalid
    rw [hinbound]
    rfl

def requestHeader (mem : ByteMemory) (buf : ℕ) : CompostHeader :=
  ⟨mem buf, mem (buf + 1), requestRpcId mem buf, mem (buf + 2) &&& 0x10 ≠ 0⟩

def reservedFlags (mem : ByteMemory) (buf : ℕ) : UInt8 := mem (buf + 2) &&& 0xE0

theorem flags_masks : ∀ b : Fin 256,
    (UInt8.ofNat b &&& 0xF0) &&& ~~~ 0x10 = UInt8.ofNat b &&& 0xE0 ∧
    (UInt8.ofNat b &&& 0xF0) &&& 0x10 = UInt8.ofNat b &&& 0x10 := by decide +kernel

theorem compostHeaderLoad_eq (m : Machine) {buf : ℕ} (hbuf : buf ≠ 0) :
    (compostHeaderLoad m buf).1 =
      if reservedFlags m.mem buf ≠ 0 then .error compostEflags
      else .ok (requestHeader m.mem buf) := by
  obtain ⟨hreserved, hresp⟩ := flags_masks ⟨(m.mem (buf + 2)).toNat, (m.mem (buf + 2)).toNat_lt⟩
  rw [UInt8.ofNat_toNat] at hreserved hresp
  rw [reservedFlags, ← hreserved]
  simp only [compostHeaderLoad, if_neg hbuf]
  split
  · rename_i hflags
    exact (if_pos hflags).symm
  · rename_i hflags
    refine Eq.trans ?_ (if_neg hflags).symm
    rw [requestHeader, requestRpcId, ← hresp]
    rfl

/-- The requests that are refused: a reserved flag is set, or it is a response to a request. -/
def Refused (mem : ByteMemory) (rxBuf : ℕ) : Prop :=
  reservedFlags mem rxBuf ≠ 0 ∨
    (requestHeader mem rxBuf).txn ≠ 0 ∧ (requestHeader mem rxBuf).resp = true

structure Buffers (txBuf txBufSize rxBuf rxBufSize : ℕ) : Prop where
  tx_ne : txBuf ≠ 0
  rx_ne : rxBuf ≠ 0
  tx_size : 4 ≤ txBufSize
  rx_size : 4 ≤ rxBufSize

def requestMsg (mem : ByteMemory) (rxBuf rxBufSize : ℕ) : CompostMsg :=
  ⟨requestHeader mem rxBuf, rxBufSize - payloadOffset, rxBuf + payloadOffset⟩

def replyMsg (mem : ByteMemory) (txBuf txBufSize rxBuf : ℕ) : CompostMsg :=
  ⟨⟨0, (requestHeader mem rxBuf).txn, 0, true⟩, txBufSize - payloadOffset, txBuf + payloadOffset⟩

section

variable (p : Protocol) (endpoint : Endpoint) (mem : ByteMemory)
  {txBuf txBufSize rxBuf rxBufSize : ℕ}

/-- A refused request is answered with an error code before the switch. -/
theorem compostMsgProcess_refused (hb : Buffers txBuf txBufSize rxBuf rxBufSize)
    (h : Refused mem rxBuf) : ∃ e m, e < 0 ∧ LoadsWithin (.start mem) m rxBuf (rxBuf + 4) ∧
      ∀ handlers, compostMsgProcess p endpoint handlers (.start mem) txBuf txBufSize rxBuf
        rxBufSize = (e, m) := by
  obtain ⟨htx, hrx, htxSize, hrxSize⟩ := hb
  have hguard : ¬ (rxBufSize < 4 ∨ txBufSize < 4 ∨ txBuf = 0 ∨ rxBuf = 0) := by omega
  have hwithin := compostHeaderLoad_within (.start mem) rxBuf
  have heq : (compostHeaderLoad (.start mem) rxBuf).1 = if reservedFlags mem rxBuf ≠ 0 then
    .error compostEflags else .ok (requestHeader mem rxBuf) := compostHeaderLoad_eq _ hrx
  rcases hload : compostHeaderLoad (.start mem) rxBuf with ⟨e | header, m⟩
  · rw [hload] at hwithin
    refine ⟨e, m, compostHeaderLoad_error (congrArg Prod.fst hload), hwithin, fun handlers => ?_⟩
    simp only [compostMsgProcess, if_neg hguard, hload]
  · rw [hload] at hwithin heq
    have hreserved : ¬ reservedFlags mem rxBuf ≠ 0 := by
      intro hne
      rw [if_pos hne] at heq
      cases heq
    rw [if_neg hreserved] at heq
    cases heq
    refine ⟨compostEtxn, m, by decide, hwithin, fun handlers => ?_⟩
    simp only [compostMsgProcess, if_neg hguard, hload]
    exact if_pos (h.resolve_left hreserved)

/-- Any other request is answered by the switch. -/
theorem compostMsgProcess_accepted (hb : Buffers txBuf txBufSize rxBuf rxBufSize)
    (h : ¬ Refused mem rxBuf) : ∃ m, LoadsWithin (.start mem) m rxBuf (rxBuf + 4) ∧
      ∀ handlers, compostMsgProcess p endpoint handlers (.start mem) txBuf txBufSize rxBuf
          rxBufSize = sendReply txBuf (compostInvokeSwitch p endpoint handlers m
            (replyMsg mem txBuf txBufSize rxBuf) (requestMsg mem rxBuf rxBufSize)) ∧
        handlerResult p endpoint handlers (.start mem) txBuf txBufSize rxBuf rxBufSize =
          (p.lookup endpoint (requestHeader mem rxBuf).rpcId.toNat).map fun d =>
            ⟨d, invokeResult handlers d m (replyMsg mem txBuf txBufSize rxBuf) (rxBuf + 4)⟩ := by
  obtain ⟨htx, hrx, htxSize, hrxSize⟩ := hb
  obtain ⟨hreserved, htxn⟩ := not_or.mp h
  have hguard : ¬ (rxBufSize < 4 ∨ txBufSize < 4 ∨ txBuf = 0 ∨ rxBuf = 0) := by omega
  have hwithin := compostHeaderLoad_within (.start mem) rxBuf
  have heq : (compostHeaderLoad (.start mem) rxBuf).1 = if reservedFlags mem rxBuf ≠ 0 then
    .error compostEflags else .ok (requestHeader mem rxBuf) := compostHeaderLoad_eq _ hrx
  rw [if_neg hreserved] at heq
  rcases hload : compostHeaderLoad (.start mem) rxBuf with ⟨e | header, m⟩
  · rw [hload] at heq
    cases heq
  · rw [hload] at hwithin heq
    cases heq
    refine ⟨m, hwithin, fun handlers => ⟨?_, ?_⟩⟩
    · simp only [compostMsgProcess, if_neg hguard, hload]
      exact if_neg htxn
    · simp only [handlerResult, if_neg hguard, hload]
      refine (if_neg htxn).trans ?_
      cases p.lookup endpoint (requestHeader mem rxBuf).rpcId.toNat <;> rfl

end

def compostMsgLen (mem : ByteMemory) (msg : ℕ) : ℕ := 4 + 4 * (mem msg).toNat

def replyRpcId (p : Protocol) (endpoint : Endpoint) (rpcId : UInt16) : UInt16 :=
  if (p.inbound endpoint rpcId.toNat).isSome then rpcId else unknownMsg

/-- The bytes that the result of the handler takes; none, if no handler is reached. -/
def payloadSize (result : Option ((d : Rpc) × CResult d.ret)) : ℕ :=
  match result with
  | some ⟨d, v⟩ => resultSize d.ret v
  | none => 0

theorem rpcId_of_lookup {p : Protocol} {endpoint : Endpoint} {rpcId : ℕ} {d : Rpc}
    (h : p.lookup endpoint rpcId = some d) : d.rpcId = rpcId := by
  have hfound := List.find?_some h
  rw [Bool.and_eq_true, beq_iff_eq] at hfound
  exact hfound.2

/-- The header that the switch leaves in the reply. -/
theorem compostInvokeSwitch_header {p : Protocol} {endpoint : Endpoint}
    (hvalid : p.validateEndpoint cFeatures endpoint = true) (handlers : Handlers) (m : Machine)
    (tx rx : CompostMsg) : (compostInvokeSwitch p endpoint handlers m tx rx).2.header =
      ⟨compostBytesToWords (payloadSize ((p.lookup endpoint rx.header.rpcId.toNat).map
          fun d => ⟨d, invokeResult handlers d m tx rx.payloadBuf⟩)),
        tx.header.txn, replyRpcId p endpoint rx.header.rpcId, tx.header.resp⟩ := by
  rw [replyRpcId, ← Protocol.lookup_eq_inbound hvalid, compostInvokeSwitch]
  cases hd : p.lookup endpoint rx.header.rpcId.toNat with
  | none =>
    have hzero : compostBytesToWords 0 = 0 := by decide
    simp only [Option.map_none, payloadSize, hzero]
    rfl
  | some d =>
    have hid : UInt16.ofNat d.rpcId = rx.header.rpcId := by
      rw [rpcId_of_lookup hd, UInt16.ofNat_toNat]
    have hheader := invoke_header handlers d m tx rx
    rw [hid] at hheader
    exact hheader

/-- A reply that is sent begins with its header. -/
theorem sendReply_header {txBuf rpcId : ℕ} (htx : txBuf ≠ 0) {r : Machine × CompostMsg}
    {wlen txn : UInt8} (hheader : r.2.header = ⟨wlen, txn, UInt16.ofNat rpcId, true⟩)
    (hid : rpcId < 4096) (hsent : 0 < (sendReply txBuf r).1) :
    (compostHeaderLoad (sendReply txBuf r).2 txBuf).1 =
        .ok ⟨wlen, txn, UInt16.ofNat rpcId, true⟩ ∧
      (sendReply txBuf r).1 = 4 + 4 * wlen.toNat ∧
      (sendReply txBuf r).1 = compostMsgLen (sendReply txBuf r).2.mem txBuf := by
  rw [sendReply, hheader] at hsent ⊢
  split at hsent
  · rename_i hsend
    rw [if_pos hsend]
    have hbytes : read (compostHeaderStore r.1 txBuf ⟨wlen, txn, UInt16.ofNat rpcId, true⟩).mem
        txBuf 4 = headerBytes wlen txn true rpcId := compostHeaderStore_bytes r.1 txBuf hid
    have hfirst : (compostHeaderStore r.1 txBuf ⟨wlen, txn, UInt16.ofNat rpcId, true⟩).mem txBuf =
        wlen := (List.cons.inj hbytes).1
    refine ⟨compostHeaderLoad_headerBytes htx hid hbytes, ?_, ?_⟩
    · simp only
      omega
    · simp only [compostMsgLen, hfirst]
      omega
  · cases hsent

theorem sendReply_eq_zero_iff {txBuf : ℕ} {r : Machine × CompostMsg} :
    (sendReply txBuf r).1 = 0 ↔ r.2.header.txn = 0 ∧ r.2.header.wlen = 0 := by
  rw [sendReply]
  split
  · rename_i hsend
    refine iff_of_false (by simp only; omega) fun hnone => ?_
    exact hsend.elim (fun htxn => htxn hnone.1) fun hwlen => hwlen hnone.2
  · rename_i hsilent
    obtain ⟨htxn, hwlen⟩ := not_or.mp hsilent
    exact iff_of_true rfl ⟨not_not.mp htxn, not_not.mp hwlen⟩

theorem compostBytesToWords_eq_zero_iff {size : ℕ} (h : size ≤ 4 * 255) :
    compostBytesToWords size = 0 ↔ size = 0 := by
  rw [← UInt8.toNat_inj, compostBytesToWords, UInt8.toNat_ofNat']
  change ((size % 2 ^ 16 + 3) / 4) % 2 ^ 8 = 0 ↔ size = 0
  omega

theorem requestRpcId_lt (mem : ByteMemory) (buf : ℕ) : (requestRpcId mem buf).toNat < 4096 := by
  have hhi : (mem (buf + 2) &&& 0x0F).toNat < 2 ^ 4 := Nat.and_lt_two_pow _ (by decide)
  have hlo := (mem (buf + 3)).toNat_lt
  rw [requestRpcId, UInt16.toNat_or, UInt16.toNat_shiftLeft, UInt8.toNat_toUInt16,
    UInt8.toNat_toUInt16]
  refine Nat.or_lt_two_pow (n := 12) ?_ (by omega)
  change (mem (buf + 2) &&& 0x0F).toNat <<< 8 % 2 ^ 16 < 2 ^ 12
  rw [Nat.shiftLeft_eq]
  omega

theorem replyRpcId_lt (p : Protocol) (endpoint : Endpoint) (mem : ByteMemory) (buf : ℕ) :
    (replyRpcId p endpoint (requestRpcId mem buf)).toNat < 4096 := by
  rw [replyRpcId]
  split
  · exact requestRpcId_lt mem buf
  · decide

/-- An error code, without a handler and without a write. -/
structure RefusedBy (run : Handlers → ℤ × Machine) (handlers : Handlers) (mem : ByteMemory) :
    Prop where
  negative : (run handlers).1 < 0
  no_handler : ∀ handlers', run handlers' = run handlers
  no_write : (run handlers).2.stores = [] ∧ (run handlers).2.mem = mem

/-- The run depends on the handlers only by one value of the handler of `d`: it runs no other
handler, and this one at most once. -/
def RunsAtMost (run : Handlers → ℤ × Machine) (handlers : Handlers) (d : Rpc) : Prop :=
  ∃ args alloc mem, ∀ handlers' : Handlers,
    handlers' d args alloc mem = handlers d args alloc mem → run handlers' = run handlers

structure ReplyLaw (p : Protocol) (endpoint : Endpoint) (run : Handlers → ℤ × Machine)
    (handlers : Handlers) (mem : ByteMemory) (txBuf rxBuf size : ℕ) : Prop where
  refused_iff : RefusedBy run handlers mem ↔ Refused mem rxBuf
  nonneg : ¬ Refused mem rxBuf → 0 ≤ (run handlers).1
  one_handler : ¬ Refused mem rxBuf →
    match p.inbound endpoint (requestHeader mem rxBuf).rpcId.toNat with
    | some d => d.rpcId = (requestHeader mem rxBuf).rpcId.toNat ∧ RunsAtMost run handlers d
    | none => ∀ handlers', run handlers' = run handlers
  zero_iff : ¬ Refused mem rxBuf →
    ((run handlers).1 = 0 ↔ (requestHeader mem rxBuf).txn = 0 ∧ size = 0)
  reply : 0 < (run handlers).1 → ∃ wlen, (compostHeaderLoad (run handlers).2 txBuf).1 =
      .ok ⟨wlen, (requestHeader mem rxBuf).txn,
        replyRpcId p endpoint (requestHeader mem rxBuf).rpcId, true⟩ ∧
    (run handlers).1 = 4 + 4 * wlen.toNat ∧
    (run handlers).1 = compostMsgLen (run handlers).2.mem txBuf

theorem compostMsgProcess_reply_law {p : Protocol} {endpoint : Endpoint}
    (hvalid : p.validateEndpoint cFeatures endpoint = true) (handlers : Handlers)
    (mem : ByteMemory) {txBuf txBufSize rxBuf rxBufSize : ℕ}
    (hb : Buffers txBuf txBufSize rxBuf rxBufSize)
    (hsize : payloadSize (handlerResult p endpoint handlers (.start mem) txBuf txBufSize rxBuf
      rxBufSize) ≤ 4 * 255) :
    ReplyLaw p endpoint
      (fun handlers => compostMsgProcess p endpoint handlers (.start mem) txBuf txBufSize rxBuf
        rxBufSize) handlers mem txBuf rxBuf
      (payloadSize (handlerResult p endpoint handlers (.start mem) txBuf txBufSize rxBuf
        rxBufSize)) := by
  by_cases hrefused : Refused mem rxBuf
  · obtain ⟨e, m, he, hwithin, hrun⟩ := compostMsgProcess_refused p endpoint mem hb hrefused
    refine ⟨iff_of_true ⟨?_, fun handlers' => ?_, ?_⟩ hrefused, fun h => absurd hrefused h,
      fun h => absurd hrefused h, fun h => absurd hrefused h, fun hpos => ?_⟩
    · simp only [hrun]
      exact he
    · simp only [hrun]
    · simp only [hrun]
      exact ⟨hwithin.stores_eq, hwithin.mem_eq⟩
    · simp only [hrun] at hpos
      omega
  · obtain ⟨m, -, hrun⟩ := compostMsgProcess_accepted p endpoint mem hb hrefused
    have hheader := compostInvokeSwitch_header hvalid handlers m
      (replyMsg mem txBuf txBufSize rxBuf) (requestMsg mem rxBuf rxBufSize)
    have hresult := (hrun handlers).2
    rw [hresult] at hsize ⊢
    have hnonneg := sendReply_nonneg txBuf (compostInvokeSwitch p endpoint handlers m
      (replyMsg mem txBuf txBufSize rxBuf) (requestMsg mem rxBuf rxBufSize))
    refine ⟨iff_of_false (fun h => ?_) hrefused, fun _ => ?_, fun _ => ?_, fun _ => ?_,
      fun hpos => ?_⟩
    · have hneg := h.negative
      simp only [(hrun handlers).1] at hneg
      omega
    · simp only [(hrun handlers).1]
      exact hnonneg
    · rw [← Protocol.lookup_eq_inbound hvalid]
      cases hd : p.lookup endpoint (requestHeader mem rxBuf).rpcId.toNat with
      | none =>
        intro handlers'
        simp only [(hrun _).1, compostInvokeSwitch, requestMsg, hd]
      | some d =>
        refine ⟨rpcId_of_lookup hd, (loadCalls m (rxBuf + payloadOffset) d.params).1,
          resultAlloc d.ret (replyMsg mem txBuf txBufSize rxBuf),
          (loadCalls m (rxBuf + payloadOffset) d.params).2.1.mem, fun handlers' heq => ?_⟩
        simp only [(hrun _).1, compostInvokeSwitch, requestMsg, hd, invoke, heq]
    · simp only [(hrun handlers).1]
      rw [sendReply_eq_zero_iff, hheader, ← compostBytesToWords_eq_zero_iff hsize]
      rfl
    · have hid := replyRpcId_lt p endpoint mem rxBuf
      simp only [(hrun handlers).1] at hpos ⊢
      rw [← UInt16.ofNat_toNat
        (x := replyRpcId p endpoint (requestMsg mem rxBuf rxBufSize).header.rpcId)] at hheader
      have hsent := sendReply_header hb.tx_ne hheader hid hpos
      rw [UInt16.ofNat_toNat] at hsent
      exact ⟨_, hsent⟩

theorem compostMsgProcess_reply_law_textRequest :
    ReplyLaw textProtocol .remote (fun handlers => compostMsgProcess textProtocol .remote handlers
      (.start textRequest) 100 64 1000 12) zeroHandlers textRequest 100 1000 4 := by
  have hsize : payloadSize (handlerResult textProtocol .remote zeroHandlers (.start textRequest)
      100 64 1000 12) = 4 := by decide +kernel
  have hvalid : textProtocol.validateEndpoint cFeatures .remote = true := by decide
  have hbuffers : Buffers 100 64 1000 12 := ⟨by decide, by decide, by decide, by decide⟩
  have hlaw := compostMsgProcess_reply_law hvalid zeroHandlers textRequest hbuffers
    (by rw [hsize]; decide)
  rwa [hsize] at hlaw

end CompostRpc
