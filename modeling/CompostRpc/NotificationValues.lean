import CompostRpc.CsCallValues
import CompostRpc.CsDelivery
import CompostRpc.PyCallValues
import CompostRpc.PySubscribers

/-!
# The values of notifications

The C server stores the arguments of a notification behind the header of its transmit buffer. A
Python client unpacks them for its subscribers, and a C# client deserializes them for its own. Both
give the values that the server stored, and the subscribers of the C# event are called with them.
-/

namespace CompostRpc
open ByteMemory Piece Serialization TransitionRun

structure Server.Emittable (srv : Server) (d : Rpc) (mem : ByteMemory) (args : CValues d.params) :
    Prop where
  valid : ContentsAll.Valid d.params (contentsAll mem d.params args)
  room : (storeCalls (.start mem) (srv.txBuf + payloadOffset) d.params args).2 ≤
    srv.txBuf + payloadOffset + 1020
  slices : Stable (srv.txBuf + payloadOffset)
    (storeCalls (.start mem) (srv.txBuf + payloadOffset) d.params args).2 (slicesAll d.params args)

/-- The message holds the arguments. -/
theorem Server.Emittable.holds {srv : Server} {d : Rpc} {mem : ByteMemory}
    {args : CValues d.params} (h : srv.Emittable d mem args) :
    ∃ wlen payload, srv.emit d mem args = headerBytes wlen 0 false d.rpcId ++ payload ∧
      payload.length = 4 * wlen.toNat ∧
        HoldsArguments d.params (contentsAll mem d.params args) payload := by
  have hend : 8 * (storeCalls (.start mem) (srv.txBuf + payloadOffset) d.params args).2 =
      stopAll (storedPiecesAll d.params (contentsAll mem d.params args))
        (8 * (srv.txBuf + payloadOffset)) :=
    storeCalls_end d.params_areParameters mem fun r hr => (h.slices r hr).1
  have hlayout : StoredLayout (.start mem) (srv.txBuf + payloadOffset)
      (storedPiecesAll d.params (contentsAll mem d.params args))
      (storeCalls (.start mem) (srv.txBuf + payloadOffset) d.params args) :=
    storeCalls_layout d.params_areParameters h.slices le_rfl hend.ge
  have hshift := stopAll_shift (storedPiecesAll d.params (contentsAll mem d.params args))
    (srv.txBuf + payloadOffset) 0
  have hroom := h.room
  have hall : AllAt (storeCalls (.start mem) (srv.txBuf + payloadOffset) d.params args).1.mem
      (8 * (srv.txBuf + payloadOffset))
      (storedPiecesAll d.params (contentsAll mem d.params args)) := by
    rw [hlayout.mem_eq]
    exact allAt_writeAll _ _ _
  rw [Nat.add_zero] at hshift
  rw [hshift] at hend
  rw [Server.emit, notificationStore]
  rcases hstored : storeCalls (.start mem) (srv.txBuf + payloadOffset) d.params args with ⟨m, dest⟩
  rw [hstored] at hall hend hroom
  dsimp only at hall hend hroom ⊢
  generalize hwlen : compostBytesToWords (dest - (srv.txBuf + payloadOffset)) = wlen
  have hbytes := @compostHeaderStore_bytes m srv.txBuf wlen 0 false d.rpcId d.rpcId_lt
  have hinside : stopAll (storedPiecesAll d.params (contentsAll mem d.params args)) 0 ≤
      8 * (4 * wlen.toNat) := by
    rw [← hwlen, compostBytesToWords, UInt8.toNat_ofNat']
    omega
  have hheld := allAt_compostHeaderStore ⟨wlen, 0, UInt16.ofNat d.rpcId, false⟩ hall
  have hfirst : (compostHeaderStore m srv.txBuf ⟨wlen, 0, UInt16.ofNat d.rpcId, false⟩).mem
      srv.txBuf = wlen := by
    rw [read_four] at hbytes
    exact (List.cons.inj hbytes).1
  rw [hfirst, Server.read_message, hbytes]
  refine ⟨wlen, _, rfl, length_read _ _ _, h.valid, ?_, ?_⟩
  · rw [allAt_ofList_read hinside]
    exact hheld
  · rw [length_read]
    exact hinside

/-- A Python client unpacks the values that the server stored. -/
theorem Server.Emittable.unpacked {srv : Server} {d : Rpc} {mem : ByteMemory}
    {args : CValues d.params} (h : srv.Emittable d mem args) (hread : ReadableAll d.params = true)
    {vs : Values d.params} (hvs : contentsAll mem d.params args = Values.contents d.params vs) :
    ∃ msg, Msg.unpack (srv.emit d mem args) = .ok msg ∧ msg.header.txn = 0 ∧
      msg.header.rpcId = d.rpcId ∧
        unpackPayload d.params msg.payload = .ok (Values.toPy d.params vs) := by
  obtain ⟨wlen, payload, hmessage, hlength, hholds⟩ := h.holds
  have hunpack := @Msg.unpack_headerBytes wlen 0 false d.rpcId d.rpcId_lt payload
  refine ⟨_, hmessage ▸ hunpack, rfl, rfl, ?_⟩
  have hlen : payload.length ≤ 1020 := by
    have hbyte := wlen.toNat_lt
    omega
  exact unpackPayload_storedAll hread hlen (hvs ▸ hholds.all) (hvs ▸ hholds.inside)

/-- `ReceivedHandler` of a C# event deserializes the objects for what the server stored. -/
theorem Server.Emittable.received {srv : Server} {d : Rpc} {mem : ByteMemory}
    {args : CValues d.params} (h : srv.Emittable d mem args) {ts : List CsType}
    {xs : CsValues (.ofTypes ts)} (hargs : ArgumentsFor d ts xs (contentsAll mem d.params args))
    (hsettles : d.isUnshifted = true) (hp : (CsProperties.ofTypes ts).packIntegers = true)
    (hback : AllComeBack (.ofTypes ts) xs MessageHeader.headerSize.bits) :
    receivedArguments ts (srv.emit d mem args) = .ok (arguments ts xs) := by
  obtain ⟨wlen, payload, hmessage, -, hholds⟩ := h.holds
  obtain ⟨s, hs⟩ := Option.isSome_iff_exists.mp (Bool.and_eq_true_iff.mp hsettles).1
  have hwalk := (walk_markedPiecesAll noMarks .aligned d.params
    (contentsAll mem d.params args)).trans hs
  obtain ⟨hiff, hend, -⟩ := hargs.layout.unmarked hwalk (ofList payload)
  have hheader : (headerBytes wlen 0 false d.rpcId).length = payloadOffset := rfl
  obtain ⟨hplace, hwithin⟩ :=
    allAt_behind_header hheader (hiff.mpr hholds.all) (hend.trans hholds.inside)
  have hread := deserializeProperties_of_allAt hargs.packable hp hback hplace hwithin
  rw [receivedArguments, hmessage]
  generalize deserializeProperties _ _ _ = r at hread
  cases r with
  | error e => cases hread
  | ok r =>
    cases hread
    rfl

/-- A notification that the server sends, with the objects for its arguments in C#. -/
structure SentNotification (d : Rpc) (ts : List CsType) where
  mem : ByteMemory
  args : CValues d.params
  xs : CsValues (.ofTypes ts)

structure SentNotification.Good {d : Rpc} {ts : List CsType} (srv : Server)
    (n : SentNotification d ts) : Prop where
  emittable : srv.Emittable d n.mem n.args
  objects : ArgumentsFor d ts n.xs (contentsAll n.mem d.params n.args)
  back : AllComeBack (.ofTypes ts) n.xs MessageHeader.headerSize.bits

def SentNotification.message {d : Rpc} {ts : List CsType} (srv : Server)
    (n : SentNotification d ts) : List UInt8 := srv.emit d n.mem n.args

namespace CsEvents

theorem isParameter_none : ∀ t ∈ (none : Option WireType), t.isParameter = true := by simp

theorem ret_none (isNotification : Bool) :
    isNotification = true → (none : Option WireType) = none := fun _ => rfl

def tickServer : Server where
  protocol :=
    { rpcs := [{
        rpcId := 9
        params := .ofTypes [.num .u16]
        ret := none
        isNotification := true
        direction := .toLocal
        rpcId_le := by decide
        params_areParameters := by decide
        ret_isParameter := isParameter_none
        notification_ret := ret_none true }]
      ids_nodup := by decide }
  endpoint := .remote
  handlers := zeroHandlers
  txBuf := 3000
  txBufSize := 96
  rxBuf := 5000
  txBuf_ne_zero := Nat.succ_ne_zero 2999
  rxBuf_ne_zero := Nat.succ_ne_zero 4999
  header_fits := Nat.le_add_right 4 92

def notifyTick : Rpc := tickServer.protocol.rpcs.head (List.cons_ne_nil _ _)

def sentTick : SentNotification notifyTick [.num .u16] := ⟨fun _ => 0, (300#16, ()), (300#16, ())⟩

theorem sentTick_good : sentTick.Good tickServer where
  emittable := ⟨⟨trivial, trivial⟩, by decide, nofun⟩
  objects := ⟨⟨trivial, trivial⟩, ⟨trivial, trivial⟩, .refl _⟩
  back := ⟨rfl, trivial⟩

def calledTick : List CsNotificationEvent :=
  [.subscribe 0 ⟨0, 1⟩, .readMessage tickMessage, .tryInvoke false, .startHandler 0 false,
    .moveNext 0, .invokeHandler 0 false]

end CsEvents

end CompostRpc
