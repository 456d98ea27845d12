import CompostRpc.EndToEnd

/-!
# The messages between a client and a server

There are four kinds: requests and notifications of the client, replies and notifications of the
server. For each kind this is what the server or the listener of the client does with it.
-/

namespace CompostRpc
open ByteMemory

namespace Server

variable (srv : Server)

def IsNotificationRequest (msgBytes : List UInt8) : Prop :=
  ∃ d ∈ srv.protocol.rpcs, d.isNotification = true ∧
    ∃ len body, msgBytes = headerBytes len 0 false d.rpcId ++ body

def IsRequest (txn : ℕ) (msgBytes : List UInt8) : Prop :=
  ∃ d ∈ srv.protocol.rpcs, d.isNotification = false ∧ 0 < txn ∧ txn < 256 ∧
    ∃ len body, msgBytes = headerBytes len (UInt8.ofNat txn) false d.rpcId ++ body

def IsNotification (msgBytes : List UInt8) : Prop :=
  ∃ d ∈ srv.protocol.rpcs, ∃ wlen payload,
    msgBytes = headerBytes wlen 0 false d.rpcId ++ payload

def IsReply (txn : ℕ) (payload msgBytes : List UInt8) : Prop :=
  ∃ d ∈ srv.protocol.rpcs, 0 < txn ∧ txn < 256 ∧
    ∃ wlen, msgBytes = headerBytes wlen (UInt8.ofNat txn) true d.rpcId ++ payload

variable {srv : Server}

theorem ofNat_ne_zero {txn : ℕ} (hpos : 0 < txn) (hlt : txn < 256) : UInt8.ofNat txn ≠ 0 := by
  intro h
  have hzero := congrArg UInt8.toNat h
  rw [UInt8.toNat_ofNat', UInt8.toNat_zero] at hzero
  omega

theorem IsNotificationRequest.serve_eq {msgBytes : List UInt8}
    (h : srv.IsNotificationRequest msgBytes) (mem : ByteMemory) :
    srv.serve mem msgBytes = none := by
  obtain ⟨d, hd, hnotification, len, body, rfl⟩ := h
  exact serve_notification hd hnotification mem len body

theorem IsNotificationRequest.isNotification {msgBytes : List UInt8}
    (h : srv.IsNotificationRequest msgBytes) (reply : Option (List UInt8)) :
    Served.isNotification ⟨msgBytes, reply⟩ = true := by
  obtain ⟨d, hd, hnotification, len, body, rfl⟩ := h
  rfl

theorem IsRequest.serve_eq {txn : ℕ} {msgBytes : List UInt8} (h : srv.IsRequest txn msgBytes)
    (mem : ByteMemory) :
    ∃ payload reply, srv.serve mem msgBytes = some reply ∧ srv.IsReply txn payload reply := by
  obtain ⟨d, hd, hrpc, hpos, hlt, len, body, rfl⟩ := h
  obtain ⟨wlen, payload, hserve⟩ := serve_rpc hd hrpc mem len (ofNat_ne_zero hpos hlt) body
  exact ⟨payload, _, hserve, d, hd, hpos, hlt, wlen, rfl⟩

theorem IsRequest.isNotification {txn : ℕ} {msgBytes : List UInt8} (h : srv.IsRequest txn msgBytes)
    (reply : Option (List UInt8)) : Served.isNotification ⟨msgBytes, reply⟩ = false := by
  obtain ⟨d, hd, hrpc, hpos, hlt, len, body, rfl⟩ := h
  exact beq_false_of_ne (ofNat_ne_zero hpos hlt)

theorem IsReply.drop_eq {txn : ℕ} {payload reply : List UInt8} (h : srv.IsReply txn payload reply) :
    reply.drop 4 = payload := by
  obtain ⟨d, hd, hpos, hlt, wlen, rfl⟩ := h
  rfl

end Server

theorem Protocol.pyRpcs_eq {p : Protocol} {d : Rpc} (hd : d ∈ p.rpcs) :
    p.pyRpcs d.rpcId = some d.params := by
  have hsome : (p.rpcs.find? fun d' => d'.rpcId == d.rpcId).isSome := by
    rw [List.find?_isSome]
    exact ⟨d, hd, beq_self_eq_true d.rpcId⟩
  obtain ⟨d', hd'⟩ := Option.isSome_iff_exists.mp hsome
  have hid : d'.rpcId = d.rpcId := by simpa using List.find?_some hd'
  rw [Protocol.pyRpcs, hd', p.eq_of_rpcId (List.mem_of_find?_eq_some hd') hd hid, Option.map_some]

namespace Server

variable {srv : Server}

theorem IsNotification.classify_eq {msgBytes : List UInt8} (h : srv.IsNotification msgBytes) :
    ∃ msg reqTypes, Msg.unpack msgBytes = .ok msg ∧ msg.header.txn = 0 ∧
      srv.protocol.pyRpcs msg.header.rpcId = some reqTypes ∧
        classify srv.protocol.pyRpcs (.ok msgBytes) = .notification reqTypes msg := by
  obtain ⟨d, hd, wlen, payload, rfl⟩ := h
  have hunpack := @Msg.unpack_headerBytes wlen 0 false d.rpcId d.rpcId_lt payload
  have hknown := srv.protocol.pyRpcs_eq hd
  exact ⟨_, _, hunpack, rfl, hknown, classify_of_unpack (Nat.le_add_left 4 _) hunpack hknown⟩

theorem IsReply.classify_eq {txn : ℕ} {payload msgBytes : List UInt8}
    (h : srv.IsReply txn payload msgBytes) :
    ∃ msg, classify srv.protocol.pyRpcs (.ok msgBytes) = .put (.ok msg) ∧
      recvItem srv.protocol.pyRpcs txn (.ok msg) = .ok payload := by
  obtain ⟨d, hd, hpos, hlt, wlen, rfl⟩ := h
  have hunpack := @Msg.unpack_headerBytes wlen (UInt8.ofNat txn) true d.rpcId d.rpcId_lt payload
  have hknown := srv.protocol.pyRpcs_eq hd
  have htxn : (UInt8.ofNat txn).toNat = txn := by
    rw [UInt8.toNat_ofNat', Nat.mod_eq_of_lt hlt]
  rw [htxn] at hunpack
  refine ⟨⟨⟨wlen.toNat, txn, true, d.rpcId⟩, payload⟩, ?_, by simp [recvItem, hknown]⟩
  exact (classify_of_unpack (Nat.le_add_left 4 _) hunpack hknown).trans (if_neg hpos.ne')

end Server

end CompostRpc
