import CompostRpc.CsSystem

/-!
# The messages between a C# session and a C server

Whatever arguments a call has, its message starts with a header that carries the number of the call.
The server answers it under that number, or, if the number is zero and there is nothing to return,
not at all.
-/

namespace CompostRpc
open ByteMemory Serialization

def IsCall (txn : UInt8) (bytes : List UInt8) : Prop :=
  ∃ wlen rpcId body, rpcId < 4096 ∧ bytes = headerBytes wlen txn false rpcId ++ body

namespace MessageHeader

/-- The header has twelve bits for the identifier. -/
theorem write_mod (len : BufferUnit) (txn : UInt8) (rpcId : UInt16) (resp : Bool)
    (buffer : List UInt8) (offset : ℕ) :
    write ⟨len, txn, rpcId, resp⟩ buffer offset =
      write ⟨len, txn, UInt16.ofNat (rpcId.toNat % 4096), resp⟩ buffer offset := by
  have hmask : ∀ n, n &&& 15 = n % 16 := fun n => Nat.and_two_pow_sub_one_eq_mod n 4
  have hmask' : ∀ n, n &&& 255 = n % 256 := fun n => Nat.and_two_pow_sub_one_eq_mod n 8
  have hhi : ((rpcId >>> 8) &&& 0x0F).toUInt8 =
      ((UInt16.ofNat (rpcId.toNat % 4096) >>> 8) &&& 0x0F).toUInt8 := by
    apply UInt8.toNat_inj.mp
    simp [Nat.shiftRight_eq_div_pow, hmask]
    omega
  have hlo : (rpcId &&& 0xFF).toUInt8 = (UInt16.ofNat (rpcId.toNat % 4096) &&& 0xFF).toUInt8 := by
    apply UInt8.toNat_inj.mp
    simp only [UInt16.toNat_toUInt8, UInt16.toNat_and, UInt16.toNat_ofNat']
    change (rpcId.toNat &&& 255) % 256 = (rpcId.toNat % 4096 % 65536 &&& 255) % 256
    rw [hmask', hmask']
    omega
  simp only [write, hhi, hlo]

/-- What a header without the response flag makes of a buffer. -/
theorem isCall_write {len : BufferUnit} {txn : UInt8} {rpcId : UInt16} {buffer : List UInt8}
    (hbuffer : 4 ≤ buffer.length) : IsCall txn (write ⟨len, txn, rpcId, false⟩ buffer 0) := by
  have hid : rpcId.toNat % 4096 < 4096 := Nat.mod_lt _ (by decide)
  rw [write_mod, write_headerBytes hid hbuffer]
  exact ⟨_, _, _, hid, rfl⟩

end MessageHeader

/-- Messages that start with the same four bytes. -/
theorem IsCall.of_take {txn : UInt8} {bytes bytes' : List UInt8} (h : IsCall txn bytes)
    (htake : bytes'.take 4 = bytes.take 4) : IsCall txn bytes' := by
  obtain ⟨wlen, rpcId, body, hid, rfl⟩ := h
  refine ⟨wlen, rpcId, bytes'.drop 4, hid, ?_⟩
  have hheader : bytes'.take 4 = headerBytes wlen txn false rpcId := htake
  rw [← hheader, List.take_append_drop]

theorem Extended.take_eq {buffer buffer' : List UInt8} {next : BufferUnit} {ps : List Piece}
    (h : Extended buffer MessageHeader.headerSize ps buffer' next) :
    buffer'.take 4 = buffer.take 4 := by
  have hbyte : ∀ i < 4, ofList buffer' i = ofList buffer i := fun i hi =>
    byte_eq_of_bits fun k hk => h.before _ (by
      change 8 * i + k < 32
      omega)
  apply List.ext_getElem
  · rw [List.length_take, List.length_take, h.length_eq]
  · intro i hi hi'
    rw [List.length_take] at hi hi'
    have heq := hbyte i (by omega)
    rw [ofList, ofList, List.getD_eq_getElem _ _ (by omega), List.getD_eq_getElem _ _ (by omega)]
      at heq
    simpa only [List.getElem_take] using heq

theorem length_initBuffer {bodySize : BufferUnit} {buffer : List UInt8}
    (h : initBuffer bodySize = .ok buffer) : buffer.length = 4 + bodySize.words * 4 := by
  rw [initBuffer] at h
  split at h
  · cases h
  · obtain rfl := Except.ok.inj h
    exact List.length_replicate

theorem length_replaceFrom {buffer bytes : List UInt8} {offset : ℕ}
    (h : offset + bytes.length ≤ buffer.length) :
    (replaceFrom buffer offset bytes).length = buffer.length := by
  simp only [replaceFrom, List.length_append, List.length_take, List.length_drop]
  omega

/-- Every message of a call carries the number of the call. -/
theorem RequestArguments.isCall_message {txn : UInt8} {rpcId : UInt16} {args : RequestArguments}
    {bytes : List UInt8} (h : args.message txn rpcId = .ok bytes) : IsCall txn bytes := by
  cases args with
  | serialized data =>
    obtain ⟨rawBuffer, hinit, hbytes⟩ := except_bind_eq_ok.mp h
    obtain rfl := Except.ok.inj hbytes
    have hlength := length_initBuffer hinit
    have hwords : data.length ≤ BufferUnit.words (MemUnit.fromBytes data.length) * 4 := by
      simp only [BufferUnit.words, MemUnit.fromBytes, MemUnit.bitsPerByte]
      omega
    apply MessageHeader.isCall_write
    rw [length_replaceFrom (by
      change 4 + data.length ≤ rawBuffer.length
      omega)]
    omega
  | objects objects shape =>
    rw [RequestArguments.message, serializeMessage_eq] at h
    obtain ⟨size, -, h⟩ := except_bind_eq_ok.mp h
    obtain ⟨rawBuffer, hinit, h⟩ := except_bind_eq_ok.mp h
    obtain ⟨⟨buffer, next⟩, hserialize, hbytes⟩ := except_bind_eq_ok.mp h
    obtain rfl := Except.ok.inj hbytes
    have hlength := length_initBuffer hinit
    have hextended := (serializeArguments_reaches hserialize _ _).extended _ hserialize
    exact (MessageHeader.isCall_write (by omega)).of_take hextended.take_eq

theorem CsMessage.ofBytes_headerBytes {wlen txn : UInt8} {resp : Bool} {rpcId : ℕ}
    (hid : rpcId < 4096) (payload : List UInt8) :
    ofBytes (headerBytes wlen txn resp rpcId ++ payload) =
      .ok ⟨txn, UInt16.ofNat rpcId, resp, payload⟩ := by
  rw [ofBytes, MessageHeader.parse_headerBytes hid]
  rfl

def IsResponse (txn : UInt8) (bytes : List UInt8) : Prop :=
  ∃ msg, CsMessage.ofBytes bytes = .ok msg ∧ msg.txn = txn ∧ msg.resp = true

/-- The header that the switch leaves carries the number of the request. -/
theorem switch_header (p : Protocol) (endpoint : Endpoint) (handlers : Handlers)
    (m : Machine) (tx rx : CompostMsg) :
    ∃ wlen rpcId, rpcId < 4096 ∧ (compostInvokeSwitch p endpoint handlers m tx rx).2.header =
      ⟨wlen, tx.header.txn, UInt16.ofNat rpcId, tx.header.resp⟩ := by
  rw [compostInvokeSwitch]
  cases p.lookup endpoint rx.header.rpcId.toNat with
  | none => exact ⟨0, 0xFEE, by decide, rfl⟩
  | some d => exact ⟨_, _, d.rpcId_lt, invoke_header handlers d m tx rx⟩

namespace Server

variable {srv : Server}

/-- The server answers a call under its number, or the number is zero. -/
theorem serve_isCall {txn : UInt8} {request : List UInt8} (h : IsCall txn request)
    (mem : ByteMemory) :
    match srv.serve mem request with
    | some reply => IsResponse txn reply
    | none => txn = 0 := by
  obtain ⟨wlen, rpcId, body, hid, rfl⟩ := h
  obtain ⟨m, rx, tx, -, htx, hserve⟩ := srv.serve_eq mem wlen txn hid body
  obtain ⟨wlen', rpcId', hid', hheader⟩ :=
    switch_header srv.protocol srv.endpoint srv.handlers m tx rx
  rw [htx] at hheader
  rw [hserve]
  by_cases hreply : txn ≠ 0 ∨ wlen' ≠ 0
  · simp only [hheader, if_pos hreply, read_message, compostHeaderStore_bytes _ _ hid']
    exact ⟨_, CsMessage.ofBytes_headerBytes hid' _, rfl, rfl⟩
  · simp only [hheader, if_neg hreply]
    by_contra htxn
    exact hreply (.inl htxn)

/-- A notification is not a response. -/
theorem ofBytes_emit (d : Rpc) (mem : ByteMemory) (args : CValues d.params) :
    ∃ msg, CsMessage.ofBytes (srv.emit d mem args) = .ok msg ∧ msg.resp = false := by
  obtain ⟨wlen, payload, hemit⟩ := srv.emit_eq d mem args
  rw [hemit]
  exact ⟨_, CsMessage.ofBytes_headerBytes d.rpcId_lt _, rfl⟩

end Server

end CompostRpc
