import CompostRpc.CStoreExtent
import CompostRpc.MsgProcess

/-!
# The buffers of the C message processing

The entry point reads the request with the lengths that the request announces, and writes the reply
with the size that the result has. Hence it stays inside the receive buffer on complete requests,
and inside the transmit buffer exactly when the reply to the result fits there.
-/

namespace CompostRpc
open ByteMemory Piece Machine

def Machine.start (mem : ByteMemory) : Machine := ⟨mem, [], [], []⟩

theorem compostHeaderLoad_within (m : Machine) (buf : ℕ) :
    LoadsWithin m (compostHeaderLoad m buf).2 buf (buf + 4) := by
  have hbyte : ∀ (m : Machine) k, k < 4 →
      LoadsWithin m (m.loadByte (buf + k)).2 buf (buf + 4) := fun m k hk =>
    (loadByte_within m (buf + k)).mono (by omega) (by omega)
  simp only [compostHeaderLoad]
  split_ifs with hnull hflags
  · exact .refl _ _ _
  · exact hbyte m 2 (by omega)
  · exact ((hbyte m 2 (by omega)).trans (hbyte _ 0 (by omega))).trans
      ((hbyte _ 1 (by omega)).trans (hbyte _ 3 (by omega)))

theorem compostHeaderLoad_error {m : Machine} {buf : ℕ} {e : ℤ}
    (h : (compostHeaderLoad m buf).1 = .error e) : e < 0 := by
  simp only [compostHeaderLoad] at h
  split_ifs at h
  · cases h
    decide
  · cases h
    decide

def requestRpcId (mem : ByteMemory) (buf : ℕ) : UInt16 :=
  ((mem (buf + 2) &&& 0x0F).toUInt16 <<< 8) ||| (mem (buf + 3)).toUInt16

theorem compostHeaderLoad_ok {m : Machine} {buf : ℕ} {header : CompostHeader}
    (h : (compostHeaderLoad m buf).1 = .ok header) :
    header.txn = m.mem (buf + 1) ∧ header.rpcId = requestRpcId m.mem buf := by
  simp only [compostHeaderLoad] at h
  split_ifs at h
  cases h
  exact ⟨rfl, rfl⟩

/-- The address after the parameters of a message, by the lengths it announces. -/
def requestEnd (p : Protocol) (endpoint : Endpoint) (mem : ByteMemory) (buf : ℕ) : ℕ :=
  match p.lookup endpoint (requestRpcId mem buf).toNat with
  | some d => announcedEndAll mem (8 * (buf + 4)) d.params / 8
  | none => buf + 4

def resultSize : (ret : Option WireType) → CResult ret → ℕ
  | none, _ => 0
  | some t, v => storedSize t v

theorem storeResult_extent {ret : Option WireType} (hret : ∀ t ∈ ret, t.isParameter = true)
    (m : Machine) (dest : ℕ) (v : CResult ret) :
    StoresWithin m (storeResult m dest ret v).1 dest (dest + resultSize ret v) ∧
      (storeResult m dest ret v).2 = compostBytesToWords (resultSize ret v) := by
  cases ret with
  | none => exact ⟨.refl _ _ _, show 0 = compostBytesToWords 0 by decide⟩
  | some t =>
    obtain ⟨hdest, hwithin⟩ := storeCall_extent (hret t rfl) m dest v
    rw [hdest] at hwithin
    refine ⟨hwithin, ?_⟩
    change compostBytesToWords ((storeCall m dest t v).2 - dest) = _
    rw [hdest, Nat.add_sub_cancel_left]
    rfl

theorem compostHeaderStore_within (m : Machine) (buf : ℕ) (header : CompostHeader) :
    StoresWithin m (compostHeaderStore m buf header) buf (buf + 4) := by
  have hbyte : ∀ (m : Machine) k b, k < 4 →
      StoresWithin m (m.storeByte (buf + k) b) buf (buf + 4) := fun m k b hk =>
    (storeByte_within m (buf + k) b).mono (by omega) (by omega)
  have hresp : ∀ m : Machine, StoresWithin m
      (if header.resp then m.storeByte (buf + 2) (m.mem (buf + 2) ||| 0x10) else m)
      buf (buf + 4) := by
    intro m
    split
    · exact hbyte m 2 _ (by omega)
    · exact .refl _ _ _
  exact ((hbyte m 0 _ (by omega)).trans ((hbyte _ 1 _ (by omega)).trans
    (hbyte _ 2 _ (by omega)))).trans ((hresp _).trans (hbyte _ 3 _ (by omega)))

def invokeResult (handlers : Handlers) (d : Rpc) (m : Machine) (tx : CompostMsg) (src : ℕ) :
    CResult d.ret :=
  let (args, m, _) := loadCalls m src d.params
  (handlers d args (resultAlloc d.ret tx) m.mem).1

/-- What the handler returns, if the request is one that reaches a handler. -/
def handlerResult (p : Protocol) (endpoint : Endpoint) (handlers : Handlers) (m : Machine)
    (txBuf txBufSize rxBuf rxBufSize : ℕ) : Option ((d : Rpc) × CResult d.ret) :=
  if rxBufSize < 4 ∨ txBufSize < 4 ∨ txBuf = 0 ∨ rxBuf = 0 then none else
    match compostHeaderLoad m rxBuf with
    | (.error _, _) => none
    | (.ok header, m) =>
      if header.txn ≠ 0 ∧ header.resp = true then none else
        match p.lookup endpoint header.rpcId.toNat with
        | none => none
        | some d =>
          some ⟨d, invokeResult handlers d m ⟨⟨0, header.txn, 0, true⟩,
            txBufSize - payloadOffset, txBuf + payloadOffset⟩ (rxBuf + payloadOffset)⟩

/-- The end of the entry point: the message of the switch is sent, unless it is the empty reply to a
notification. -/
def sendReply (txBuf : ℕ) (r : Machine × CompostMsg) : ℤ × Machine :=
  if r.2.header.txn ≠ 0 ∨ r.2.header.wlen ≠ 0 then
    (4 + r.2.header.wlen.toNat * 4, compostHeaderStore r.1 txBuf r.2.header)
  else (0, r.1)

/-- A request is refused with an error after its header at most, or its reply is decided by the
switch. -/
theorem compostMsgProcess_cases (p : Protocol) (endpoint : Endpoint) (handlers : Handlers)
    (mem : ByteMemory) (txBuf txBufSize rxBuf rxBufSize : ℕ) :
    (∃ e m, compostMsgProcess p endpoint handlers (.start mem) txBuf txBufSize rxBuf rxBufSize =
        (e, m) ∧ e < 0 ∧ LoadsWithin (.start mem) m rxBuf (rxBuf + 4) ∧
      handlerResult p endpoint handlers (.start mem) txBuf txBufSize rxBuf rxBufSize = none) ∨
    ∃ header m tx rx, LoadsWithin (.start mem) m rxBuf (rxBuf + 4) ∧ 4 ≤ txBufSize ∧
      tx.payloadBuf = txBuf + 4 ∧ rx.payloadBuf = rxBuf + 4 ∧ rx.header = header ∧
      header.rpcId = requestRpcId mem rxBuf ∧
      compostMsgProcess p endpoint handlers (.start mem) txBuf txBufSize rxBuf rxBufSize =
        sendReply txBuf (compostInvokeSwitch p endpoint handlers m tx rx) ∧
      handlerResult p endpoint handlers (.start mem) txBuf txBufSize rxBuf rxBufSize =
        (p.lookup endpoint header.rpcId.toNat).map
          fun d => ⟨d, invokeResult handlers d m tx rx.payloadBuf⟩ := by
  have hwithin := compostHeaderLoad_within (.start mem) rxBuf
  by_cases hguard : rxBufSize < 4 ∨ txBufSize < 4 ∨ txBuf = 0 ∨ rxBuf = 0
  · left
    refine ⟨compostEinval, .start mem, ?_, by decide, .refl _ _ _, ?_⟩
    · rw [compostMsgProcess, if_pos hguard]
    · rw [handlerResult, if_pos hguard]
  · rcases hload : compostHeaderLoad (.start mem) rxBuf with ⟨e | header, m⟩
    · rw [hload] at hwithin
      refine .inl ⟨e, m, ?_, compostHeaderLoad_error (congrArg Prod.fst hload), hwithin, ?_⟩
      · simp only [compostMsgProcess, if_neg hguard, hload]
      · simp only [handlerResult, if_neg hguard, hload]
    · rw [hload] at hwithin
      by_cases htxn : header.txn ≠ 0 ∧ header.resp = true
      · left
        refine ⟨compostEtxn, m, ?_, by decide, hwithin, ?_⟩
        · simp only [compostMsgProcess, if_neg hguard, hload, if_pos htxn]
        · simp only [handlerResult, if_neg hguard, hload, if_pos htxn]
      · right
        have hid := (compostHeaderLoad_ok (congrArg Prod.fst hload)).2
        refine ⟨header, m, ⟨⟨0, header.txn, 0, true⟩, txBufSize - payloadOffset,
          txBuf + payloadOffset⟩, ⟨header, rxBufSize - payloadOffset, rxBuf + payloadOffset⟩,
          hwithin, by omega, rfl, rfl, rfl, hid, ?_, ?_⟩
        · simp only [compostMsgProcess, if_neg hguard, hload, if_neg htxn, sendReply]
        · simp only [handlerResult, if_neg hguard, hload, if_neg htxn]
          cases p.lookup endpoint header.rpcId.toNat <;> rfl

/-- All that was loaded, and every slice handed to a handler, lies in the buffer. -/
def ReadsInside (buf size : ℕ) (m : Machine) : Prop :=
  (∀ a ∈ m.loads, buf ≤ a ∧ a < buf + size) ∧
    ∀ region ∈ m.handed, RegionWithin buf (buf + size) region

theorem ReadsInside.of_within {mem : ByteMemory} {buf hi size : ℕ} {m : Machine}
    (h : LoadsWithin (.start mem) m buf hi) (hhi : hi ≤ buf + size) : ReadsInside buf size m := by
  obtain ⟨-, -, hhanded, l, hl, hwithin⟩ := h
  refine ⟨fun a ha => ?_, fun region hregion => ?_⟩
  · have hbounds := hwithin a (by rwa [hl] at ha)
    omega
  · rw [hhanded] at hregion
    cases hregion

theorem invoke_reads (handlers : Handlers) (d : Rpc) (m : Machine) (tx rx : CompostMsg) :
    ∃ m', LoadsWithin m m' rx.payloadBuf (announcedEndAll m.mem (8 * rx.payloadBuf) d.params / 8) ∧
      (invoke handlers d m tx rx).1.loads = m'.loads ∧
      (∀ region ∈ (invoke handlers d m tx rx).1.handed, region ∈ m.handed ∨
        RegionWithin rx.payloadBuf (announcedEndAll m.mem (8 * rx.payloadBuf) d.params / 8)
          region) := by
  obtain ⟨hstop, -, hwithin, hslices⟩ :=
    loadCalls_extent d.params_areParameters m rx.payloadBuf
  have hend : (loadCalls m rx.payloadBuf d.params).2.2 =
      announcedEndAll m.mem (8 * rx.payloadBuf) d.params / 8 := by omega
  rw [hend] at hwithin hslices
  refine ⟨_, hwithin, ?_, ?_⟩
  · exact (storeResult_extent d.ret_isParameter _ _ _).1.loads_eq
  · intro region hregion
    have hhanded : (invoke handlers d m tx rx).1.handed = _ :=
      (storeResult_extent d.ret_isParameter _ _ _).1.handed_eq
    rw [hhanded] at hregion
    simp only [hwithin.handed_eq] at hregion
    rcases List.mem_append.mp hregion with hold | hnew
    · exact .inl hold
    · exact .inr (hslices region hnew)

theorem compostInvokeSwitch_reads {p : Protocol} {endpoint : Endpoint} (handlers : Handlers)
    {mem : ByteMemory} {m : Machine} (tx rx : CompostMsg) {buf size : ℕ}
    (hload : LoadsWithin (.start mem) m buf (buf + 4)) (hsize : 4 ≤ size)
    (hpayload : rx.payloadBuf = buf + 4) (hid : rx.header.rpcId = requestRpcId mem buf)
    (hend : requestEnd p endpoint mem buf ≤ buf + size) :
    ReadsInside buf size (compostInvokeSwitch p endpoint handlers m tx rx).1 := by
  have hmem : m.mem = mem := hload.mem_eq
  simp only [compostInvokeSwitch, requestEnd, hid] at hend ⊢
  cases hd : p.lookup endpoint (requestRpcId mem buf).toNat with
  | none => exact .of_within hload (by omega)
  | some d =>
    simp only [hd] at hend
    obtain ⟨m', hwithin, hloads, hhanded⟩ := invoke_reads handlers d m tx rx
    rw [hpayload, hmem] at hwithin hhanded
    have hle := le_announcedEndAll mem (8 * (buf + 4)) d.params
    have hall := (hload.mono le_rfl (by omega)).trans (hwithin.mono (Nat.le_add_right _ _) hend)
    refine ⟨fun a ha => ?_, fun region hregion => ?_⟩
    · rw [hloads] at ha
      exact (ReadsInside.of_within hall le_rfl).1 a ha
    · rcases hhanded region hregion with hold | hnew
      · rw [hload.handed_eq] at hold
        cases hold
      · exact hnew.mono (Nat.le_add_right _ _) hend

theorem ReadsInside.sendReply {buf size : ℕ} {r : Machine × CompostMsg}
    (h : ReadsInside buf size r.1) (txBuf : ℕ) : ReadsInside buf size (sendReply txBuf r).2 := by
  rw [CompostRpc.sendReply]
  split
  · have hstore := compostHeaderStore_within r.1 txBuf r.2.header
    exact ⟨by rw [hstore.loads_eq]; exact h.1, by rw [hstore.handed_eq]; exact h.2⟩
  · exact h

theorem compostMsgProcess_reads_inside {p : Protocol} {endpoint : Endpoint} {mem : ByteMemory}
    {rxBuf rxBufSize : ℕ} (hsize : 4 ≤ rxBufSize)
    (hcomplete : requestEnd p endpoint mem rxBuf ≤ rxBuf + rxBufSize) (handlers : Handlers)
    (txBuf txBufSize : ℕ) :
    (compostMsgProcess p endpoint handlers (.start mem) txBuf txBufSize rxBuf rxBufSize).1 < 0 ∨
      ReadsInside rxBuf rxBufSize
        (compostMsgProcess p endpoint handlers (.start mem) txBuf txBufSize rxBuf rxBufSize).2 := by
  rcases compostMsgProcess_cases p endpoint handlers mem txBuf txBufSize rxBuf rxBufSize with
    ⟨e, m, hrefused, he, -⟩ | ⟨header, m, tx, rx, hwithin, -, -, hpayload, rfl, hid, hreply, -⟩
  · rw [hrefused]
    exact .inl he
  · rw [hreply]
    exact .inr (.sendReply
      (compostInvokeSwitch_reads handlers tx rx hwithin hsize hpayload hid hcomplete) txBuf)

mutual

def zeroValue : (t : WireType) → CValue t
  | .num _ => (0 : BitVec _)
  | .str => (⟨0, 0⟩ : Slice)
  | .bytes => (⟨0, 0⟩ : Slice)
  | .list _ => (⟨0, 0⟩ : Slice)
  | .bitU _ => (0 : BitVec _)
  | .enum _ => (0 : BitVec 32)
  | .struct _ members => zeroValues members

def zeroValues : (ms : Members) → CValues ms
  | .nil => ()
  | .cons _ t rest => (zeroValue t, zeroValues rest)

end

def zeroResult : (ret : Option WireType) → CResult ret
  | none => ()
  | some t => zeroValue t

def zeroHandlers : Handlers := fun d _ _ mem => (zeroResult d.ret, mem)

def textProtocol : Protocol where
  rpcs := [{
    rpcId := 3
    params := .ofTypes [.str]
    ret := some (.num .u32)
    isNotification := false
    direction := .toRemote
    rpcId_le := by decide
    params_areParameters := by decide
    ret_isParameter := by decide
    notification_ret := by decide }]
  ids_nodup := by decide

def textRequest : ByteMemory :=
  ByteMemory.write (fun _ => 0) 1000 [2, 7, 0, 3, 0, 3, 65, 66, 67, 0, 0, 0]

def shortRequest : ByteMemory :=
  ByteMemory.write (fun _ => 0) 1000 [1, 7, 0, 3, 0xFF, 0xFF, 65, 66]

theorem compostMsgProcess_reads_inside_textRequest :
    (compostMsgProcess textProtocol .remote zeroHandlers (.start textRequest)
        100 64 1000 12).1 = 8 ∧
      ReadsInside 1000 12 (compostMsgProcess textProtocol .remote zeroHandlers (.start textRequest)
        100 64 1000 12).2 := by
  have hreturn : (compostMsgProcess textProtocol .remote zeroHandlers (.start textRequest)
      100 64 1000 12).1 = 8 := by decide +kernel
  refine ⟨hreturn, ?_⟩
  rcases @compostMsgProcess_reads_inside textProtocol .remote textRequest 1000 12 (by decide)
    (by decide +kernel) zeroHandlers 100 64 with herror | hinside
  · omega
  · exact hinside

theorem not_reads_inside_shortRequest :
    4 ≤ 8 ∧ (compostMsgProcess textProtocol .remote zeroHandlers (.start shortRequest)
        100 64 1000 8).1 = 8 ∧
      ¬ ReadsInside 1000 8 (compostMsgProcess textProtocol .remote zeroHandlers
        (.start shortRequest) 100 64 1000 8).2 := by
  have hhanded : (compostMsgProcess textProtocol .remote zeroHandlers (.start shortRequest)
      100 64 1000 8).2.handed = [(1006, 65535)] := by decide +kernel
  refine ⟨by decide, by decide +kernel, fun hinside => ?_⟩
  have hregion := hinside.2 (1006, 65535) (by rw [hhanded]; exact List.mem_singleton.mpr rfl)
  exact absurd hregion.2 (by decide)

def replyLength (size : ℕ) : ℕ := 4 + 4 * ((size + 3) / 4)

theorem compostBytesToWords_le (size : ℕ) :
    4 + (compostBytesToWords size).toNat * 4 ≤ replyLength size := by
  simp only [compostBytesToWords, UInt8.toNat_ofNat', replyLength]
  omega

theorem invoke_header (handlers : Handlers) (d : Rpc) (m : Machine) (tx rx : CompostMsg) :
    (invoke handlers d m tx rx).2.header =
      ⟨compostBytesToWords (resultSize d.ret (invokeResult handlers d m tx rx.payloadBuf)),
        tx.header.txn, UInt16.ofNat d.rpcId, tx.header.resp⟩ := by
  obtain ⟨-, hwlen⟩ := storeResult_extent d.ret_isParameter
    { (loadCalls m rx.payloadBuf d.params).2.1 with
      handed := (loadCalls m rx.payloadBuf d.params).2.1.handed ++
        slicesAll d.params (loadCalls m rx.payloadBuf d.params).1
      mem := (handlers d (loadCalls m rx.payloadBuf d.params).1 (resultAlloc d.ret tx)
        (loadCalls m rx.payloadBuf d.params).2.1.mem).2 }
    tx.payloadBuf (invokeResult handlers d m tx rx.payloadBuf)
  rw [← hwlen]
  rfl

theorem invoke_stores (handlers : Handlers) (d : Rpc) {m : Machine} (tx rx : CompostMsg)
    (hm : m.stores = []) :
    ∀ a ∈ (invoke handlers d m tx rx).1.stores, tx.payloadBuf ≤ a ∧
      a < tx.payloadBuf + resultSize d.ret (invokeResult handlers d m tx rx.payloadBuf) := by
  obtain ⟨-, -, hload, -⟩ := loadCalls_extent d.params_areParameters m rx.payloadBuf
  obtain ⟨⟨-, -, ⟨l, hl, hwithin⟩, -⟩, -⟩ := storeResult_extent d.ret_isParameter
    { (loadCalls m rx.payloadBuf d.params).2.1 with
      handed := (loadCalls m rx.payloadBuf d.params).2.1.handed ++
        slicesAll d.params (loadCalls m rx.payloadBuf d.params).1
      mem := (handlers d (loadCalls m rx.payloadBuf d.params).1 (resultAlloc d.ret tx)
        (loadCalls m rx.payloadBuf d.params).2.1.mem).2 }
    tx.payloadBuf (invokeResult handlers d m tx rx.payloadBuf)
  intro a ha
  have hstores : (invoke handlers d m tx rx).1.stores = m.stores ++ l := by
    rw [← hload.stores_eq]
    exact hl
  rw [hstores, hm, List.nil_append] at ha
  exact hwithin a ha

/-- The reply to the handler's result, with its header and padding, fits the transmit buffer. -/
def ResultFits (p : Protocol) (endpoint : Endpoint) (handlers : Handlers) (m : Machine)
    (txBuf txBufSize rxBuf rxBufSize : ℕ) : Prop :=
  ∀ d v, handlerResult p endpoint handlers m txBuf txBufSize rxBuf rxBufSize = some ⟨d, v⟩ →
    replyLength (resultSize d.ret v) ≤ txBufSize

/-- All writes lie in the transmit buffer, the returned length does too, and a result that does not
fit is an error. -/
def WritesInside (txBuf txBufSize : ℕ) (fits : Prop) (r : ℤ × Machine) : Prop :=
  (∀ a ∈ r.2.stores, txBuf ≤ a ∧ a < txBuf + txBufSize) ∧
    (0 < r.1 → r.1 ≤ txBufSize) ∧ (¬ fits → r.1 < 0)

theorem WritesInside.of_error {mem : ByteMemory} {m : Machine} {txBuf txBufSize hi lo : ℕ}
    {fits : Prop} {e : ℤ} (he : e < 0) (h : LoadsWithin (.start mem) m lo hi) :
    WritesInside txBuf txBufSize fits (e, m) := by
  refine ⟨fun a ha => ?_, fun hpos => ?_, fun _ => he⟩
  · simp only [h.stores_eq] at ha
    cases ha
  · simp only at hpos
    omega

/-- The reply to a result of `size` bytes whose header is that of the switch. -/
theorem WritesInside.sendReply {r : Machine × CompostMsg} {txBuf txBufSize : ℕ} (size : ℕ)
    {fits : Prop} (hstores : ∀ a ∈ r.1.stores, txBuf + 4 ≤ a ∧ a < txBuf + 4 + size)
    (hwlen : r.2.header.wlen = compostBytesToWords size) (hfits : fits)
    (hsize : replyLength size ≤ txBufSize) :
    WritesInside txBuf txBufSize fits (sendReply txBuf r) := by
  have hle := compostBytesToWords_le size
  rw [← hwlen] at hle
  have hbytes : 4 + size ≤ replyLength size := by unfold replyLength; omega
  rw [CompostRpc.sendReply]
  refine ⟨fun a ha => ?_, fun _ => ?_, fun hnot => absurd hfits hnot⟩
  · split at ha
    · obtain ⟨-, -, ⟨l, hl, hwithin⟩, -⟩ := compostHeaderStore_within r.1 txBuf r.2.header
      simp only [hl] at ha
      rcases List.mem_append.mp ha with hold | hnew
      · have hbounds := hstores a hold
        omega
      · have hbounds := hwithin a hnew
        omega
    · have hbounds := hstores a ha
      omega
  · split
    · simp only
      omega
    · exact Int.natCast_nonneg _

theorem sendReply_nonneg (txBuf : ℕ) (r : Machine × CompostMsg) : 0 ≤ (sendReply txBuf r).1 := by
  rw [sendReply]
  split
  · simp only
    omega
  · exact le_rfl

end CompostRpc
