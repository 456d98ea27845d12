import CompostRpc.HeaderFormat
import CompostRpc.MsgProcessBounds
import Mathlib.Data.List.Nodup

/-!
# The messages of a C server

A server is a protocol with its handlers and buffers. It answers every request of a call of the
protocol with one reply that carries the number and the identifier of the request, and never
answers a notification. The messages it sends by itself carry the number zero.
-/

namespace CompostRpc
open ByteMemory

structure Server where
  protocol : Protocol
  endpoint : Endpoint
  handlers : Handlers
  txBuf : ℕ
  txBufSize : ℕ
  rxBuf : ℕ
  txBuf_ne_zero : txBuf ≠ 0
  rxBuf_ne_zero : rxBuf ≠ 0
  header_fits : 4 ≤ txBufSize

namespace Server

/-- One round of the main loop: the request is read into the receive buffer, and what is returned
as length is sent from the transmit buffer. -/
def serve (srv : Server) (mem : ByteMemory) (request : List UInt8) : Option (List UInt8) :=
  let (n, m) := compostMsgProcess srv.protocol srv.endpoint srv.handlers
    (.start (write mem srv.rxBuf request)) srv.txBuf srv.txBufSize srv.rxBuf request.length
  if 0 < n then some (ByteMemory.read m.mem srv.txBuf n.toNat) else none

def emit (srv : Server) (d : Rpc) (mem : ByteMemory) (args : CValues d.params) : List UInt8 :=
  let (m, n) := notificationStore d (.start mem) srv.txBuf args
  ByteMemory.read m.mem srv.txBuf n

end Server

theorem Rpc.rpcId_lt (d : Rpc) : d.rpcId < 4096 := by
  have hle := d.rpcId_le
  omega

theorem Protocol.eq_of_rpcId {p : Protocol} {d d' : Rpc} (hd : d ∈ p.rpcs) (hd' : d' ∈ p.rpcs)
    (h : d.rpcId = d'.rpcId) : d = d' :=
  List.inj_on_of_nodup_map p.ids_nodup hd hd' h

theorem Protocol.lookup_eq_of_mem {p : Protocol} {endpoint : Endpoint} {d d' : Rpc}
    (hd : d ∈ p.rpcs) (h : p.lookup endpoint d.rpcId = some d') : d' = d := by
  have hid : d'.rpcId = d.rpcId := by
    have hfound := List.find?_some h
    simp only [Bool.and_eq_true, beq_iff_eq] at hfound
    exact hfound.2
  exact p.eq_of_rpcId (List.mem_of_find?_eq_some h) hd hid

theorem Protocol.lookup_rpc {p : Protocol} (endpoint : Endpoint) {d : Rpc} (hd : d ∈ p.rpcs)
    (hrpc : d.isNotification = false) : p.lookup endpoint d.rpcId = some d := by
  have hsome : (p.lookup endpoint d.rpcId).isSome := by
    rw [Protocol.lookup, List.find?_isSome]
    exact ⟨d, hd, by simp [Rpc.inSwitch, hrpc]⟩
  obtain ⟨d', hd'⟩ := Option.isSome_iff_exists.mp hsome
  rw [hd', p.lookup_eq_of_mem hd hd']

theorem storeResult_none {ret : Option WireType} (h : ret = none) (m : Machine) (dest : ℕ)
    (v : CResult ret) : (storeResult m dest ret v).2 = 0 := by
  subst h
  rfl

theorem invoke_wlen {d : Rpc} (h : d.ret = none) (handlers : Handlers) (m : Machine)
    (tx rx : CompostMsg) : (invoke handlers d m tx rx).2.header.wlen = 0 :=
  storeResult_none h _ _ _

namespace Server

variable {srv : Server}

theorem read_message (mem : ByteMemory) (a : ℕ) (wlen : UInt8) :
    ByteMemory.read mem a (4 + 4 * wlen.toNat) =
      ByteMemory.read mem a 4 ++ ByteMemory.read mem (a + 4) (4 * wlen.toNat) := read_append ..

/-- The message that the switch is to fill for a request with the number `txn`. -/
def txMsg (srv : Server) (txn : UInt8) : CompostMsg :=
  ⟨⟨0, txn, 0, true⟩, srv.txBufSize - payloadOffset, srv.txBuf + payloadOffset⟩

/-- The message processing of a request, in terms of what the switch leaves. -/
theorem serve_switch (mem : ByteMemory) (len txn : UInt8) {rpcId : ℕ} (hid : rpcId < 4096)
    (body : List UInt8) :
    ∃ m rx, m.mem = write mem srv.rxBuf (headerBytes len txn false rpcId ++ body) ∧
      rx.payloadBuf = srv.rxBuf + payloadOffset ∧ rx.header.rpcId.toNat = rpcId ∧
      srv.serve mem (headerBytes len txn false rpcId ++ body) =
        let (m, tx) := compostInvokeSwitch srv.protocol srv.endpoint srv.handlers m
          (srv.txMsg txn) rx
        if tx.header.txn ≠ 0 ∨ tx.header.wlen ≠ 0 then
          some (ByteMemory.read (compostHeaderStore m srv.txBuf tx.header).mem srv.txBuf
            (4 + 4 * tx.header.wlen.toNat))
        else none := by
  let request := headerBytes len txn false rpcId ++ body
  have hload := compostHeaderLoad_headerBytes (m := .start (write mem srv.rxBuf request))
    srv.rxBuf_ne_zero hid (read_write_append mem srv.rxBuf _ body)
  have hmem := (compostHeaderLoad_within (.start (write mem srv.rxBuf request)) srv.rxBuf).mem_eq
  have hsizes : ¬ (request.length < 4 ∨ srv.txBufSize < 4 ∨ srv.txBuf = 0 ∨ srv.rxBuf = 0) := by
    have h1 := srv.txBuf_ne_zero
    have h2 := srv.rxBuf_ne_zero
    have h3 := srv.header_fits
    have h4 : request.length = 4 + body.length := List.length_append
    omega
  rcases hresult : compostHeaderLoad (.start (write mem srv.rxBuf request)) srv.rxBuf
    with ⟨header, m⟩
  rw [hresult] at hload hmem
  obtain rfl := hload
  let rx : CompostMsg := ⟨⟨len, txn, UInt16.ofNat rpcId, false⟩, request.length - payloadOffset,
    srv.rxBuf + payloadOffset⟩
  refine ⟨m, rx, hmem, rfl, ?_, ?_⟩
  · exact (UInt16.toNat_ofNat' ..).trans (Nat.mod_eq_of_lt (by omega))
  · have hresp : ¬ (txn ≠ 0 ∧ false = true) := by simp
    rw [serve, compostMsgProcess, if_neg hsizes, hresult, txMsg]
    simp only [hresp, if_false]
    rcases compostInvokeSwitch srv.protocol srv.endpoint srv.handlers m _ rx with ⟨m', tx'⟩
    by_cases hreply : tx'.header.txn ≠ 0 ∨ tx'.header.wlen ≠ 0
    · have hpos : (0 : ℤ) < 4 + (tx'.header.wlen.toNat : ℤ) * 4 := by omega
      have hlen : (4 + (tx'.header.wlen.toNat : ℤ) * 4).toNat = 4 + 4 * tx'.header.wlen.toNat := by
        omega
      simp only [hreply, if_true, hpos, hlen]
    · simp only [hreply, if_false, lt_irrefl]

theorem serve_eq (mem : ByteMemory) (len txn : UInt8) {rpcId : ℕ} (hid : rpcId < 4096)
    (body : List UInt8) :
    ∃ m rx tx, rx.header.rpcId.toNat = rpcId ∧ tx.header = ⟨0, txn, 0, true⟩ ∧
      srv.serve mem (headerBytes len txn false rpcId ++ body) =
        let (m, tx) := compostInvokeSwitch srv.protocol srv.endpoint srv.handlers m tx rx
        if tx.header.txn ≠ 0 ∨ tx.header.wlen ≠ 0 then
          some (ByteMemory.read (compostHeaderStore m srv.txBuf tx.header).mem srv.txBuf
            (4 + 4 * tx.header.wlen.toNat))
        else none := by
  obtain ⟨m, rx, -, -, hrx, hserve⟩ := srv.serve_switch mem len txn hid body
  exact ⟨m, rx, srv.txMsg txn, hrx, rfl, hserve⟩

theorem serve_rpc {d : Rpc} (hd : d ∈ srv.protocol.rpcs) (hrpc : d.isNotification = false)
    (mem : ByteMemory) (len : UInt8) {txn : UInt8} (htxn : txn ≠ 0) (body : List UInt8) :
    ∃ wlen payload, srv.serve mem (headerBytes len txn false d.rpcId ++ body) =
      some (headerBytes wlen txn true d.rpcId ++ payload) := by
  obtain ⟨m, rx, tx, hid, htx, hserve⟩ := srv.serve_eq mem len txn d.rpcId_lt body
  rw [hserve, compostInvokeSwitch, hid, srv.protocol.lookup_rpc srv.endpoint hd hrpc]
  have hheader := invoke_header srv.handlers d m tx rx
  rw [htx] at hheader
  simp only [hheader, htxn, ne_eq, not_false_iff, true_or, if_true, read_message,
    compostHeaderStore_bytes _ _ d.rpcId_lt]
  exact ⟨_, _, rfl⟩

theorem serve_notification {d : Rpc} (hd : d ∈ srv.protocol.rpcs)
    (hnotification : d.isNotification = true) (mem : ByteMemory) (len : UInt8)
    (body : List UInt8) : srv.serve mem (headerBytes len 0 false d.rpcId ++ body) = none := by
  obtain ⟨m, rx, tx, hid, htx, hserve⟩ := srv.serve_eq mem len 0 d.rpcId_lt body
  rw [hserve, compostInvokeSwitch, hid]
  cases hlookup : srv.protocol.lookup srv.endpoint d.rpcId with
  | none => simp [compostUnknownMsg, htx]
  | some d' =>
    obtain rfl := srv.protocol.lookup_eq_of_mem hd hlookup
    have hheader := invoke_header srv.handlers d' m tx rx
    have hwlen := invoke_wlen (d'.notification_ret hnotification) srv.handlers m tx rx
    rw [htx] at hheader
    rw [hheader] at hwlen
    simp only at hwlen
    simp [hheader, hwlen]

theorem emit_eq (d : Rpc) (mem : ByteMemory) (args : CValues d.params) :
    ∃ wlen payload, srv.emit d mem args = headerBytes wlen 0 false d.rpcId ++ payload := by
  rw [emit, notificationStore]
  rcases storeCalls (.start mem) (srv.txBuf + payloadOffset) d.params args with ⟨m, dest⟩
  have hbytes := @compostHeaderStore_bytes m srv.txBuf
    (compostBytesToWords (dest - (srv.txBuf + payloadOffset))) 0 false d.rpcId d.rpcId_lt
  simp only [read_message, hbytes]
  exact ⟨_, _, rfl⟩

end Server

end CompostRpc
