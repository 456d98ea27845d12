import CompostRpc.SendValues
import CompostRpc.TcpTransport
import CompostRpc.TransitionRun
import Mathlib.Data.List.Forall2

/-!
# The transports of Python

A serial port is a stream to which a message is written in parts; the other transports send it in
one frame, some of them with zeros behind it, and on a CAN bus there are frames for others as well.
A transport and its peer carry every message in this order, followed by zeros only, from which the
receiver unpacks the same header and the same values.
-/

namespace CompostRpc
open ByteMemory TransitionRun

/-- The constructor of `RawEthernetTransport` takes addresses of six bytes only. -/
def MacAddress : Type := {bytes : List UInt8 // bytes.length = 6}

inductive PyTransport
  | serial
  | udp
  | rawEthernet (destinationMac sourceMac : MacAddress)
  | socketCanFd (canIdRx canIdTx : UInt32)

abbrev Line := List (List UInt8)

namespace PyTransport

def peer : PyTransport → PyTransport
  | serial => serial
  | udp => udp
  | rawEthernet destinationMac sourceMac => rawEthernet sourceMac destinationMac
  | socketCanFd canIdRx canIdTx => socketCanFd canIdTx canIdRx

/-- The loop of `SerialTransport.send`; `counts` are the results of `port.write`. It does not end
with these if bytes are left. -/
def sendLoop : List ℕ → List UInt8 → Option Line
  | _, [] => some []
  | [], _ :: _ => none
  | count :: counts, msg => (sendLoop counts (msg.drop count)).map (msg.take count :: ·)

def zeroPadded (size : ℕ) (bytes : List UInt8) : List UInt8 :=
  bytes ++ List.replicate (size - bytes.length) 0

def canMtu : ℕ := 72

/-- `CAN_FD_HEADER.pack` on a little-endian machine. -/
def canFdHeader (canId : UInt32) (length : ℕ) : List UInt8 :=
  (beBytes 4 canId.toNat).reverse ++ [UInt8.ofNat length, 0, 0, 0]

def send (t : PyTransport) (counts : List ℕ) (msg : List UInt8) : Option (Except PyError Line) :=
  match t with
  | serial => (sendLoop counts msg).map .ok
  | udp => some (.ok [zeroPadded 64 msg])
  | rawEthernet destinationMac sourceMac =>
    if msg.length < 2 ^ 16 then
      some (.ok [zeroPadded 64
        (destinationMac.val ++ sourceMac.val ++ beBytes 2 msg.length ++ msg)])
    else some (.error .overflowError)
  | socketCanFd _ canIdTx =>
    match msg with
    | [] => some (.error .indexError)
    | len :: _ =>
      if 4 + 4 * len.toNat > 64 then some (.error .valueError)
      else some (.ok [zeroPadded canMtu (canFdHeader canIdTx (4 + 4 * len.toNat) ++ msg)])

/-- Two reads of a serial port, which wait for all bytes. -/
def receiveStream (stream : List UInt8) : Option (Except PyError (List UInt8) × Line) :=
  if stream.length < 4 then none
  else
    match Header.unpack (stream.take 4) with
    | .error e => some (.error e, [stream.drop 4])
    | .ok header =>
      if (stream.drop 4).length < header.payloadByteLen then none
      else some (.ok (stream.take 4 ++ (stream.drop 4).take header.payloadByteLen),
        [(stream.drop 4).drop header.payloadByteLen])

/-- A frame that `SocketCanFdTransport.receive` ignores. -/
def ignoresCan (canIdRx : UInt32) (cf : List UInt8) : Bool :=
  (cf.take canMtu).length ≠ canMtu || beNat (cf.take 4).reverse ≠ canIdRx.toNat

def receiveCan (canIdRx : UInt32) : Line → Option (Except PyError (List UInt8) × Line)
  | [] => none
  | cf :: rest =>
    if ignoresCan canIdRx cf then receiveCan canIdRx rest
    else
      let length := (cf.getD 4 0).toNat
      if length ≤ 64 then some (.ok ((cf.drop 8).take length), rest)
      else some (.error .assertionError, rest)

/-- `receive`; there is no result as long as it waits. -/
def receive (t : PyTransport) (line : Line) : Option (Except PyError (List UInt8) × Line) :=
  match t with
  | serial => receiveStream line.flatten
  | udp => line.head?.map fun frame => (.ok (frame.take 1500), line.tail)
  | rawEthernet _ _ => line.head?.map fun frame => (.ok ((frame.take 1536).drop 14), line.tail)
  | socketCanFd canIdRx _ => receiveCan canIdRx line

def ignores : PyTransport → List UInt8 → Bool
  | socketCanFd canIdRx _, frame => ignoresCan canIdRx frame
  | serial, _ | udp, _ | rawEthernet _ _, _ => false

end PyTransport

def Header.masked (h : Header) : Header := { h with
  rpcId := h.rpcId &&& 0x0FFF }

theorem Header.pack_masked (h : Header) : h.masked.pack = h.pack := by
  simp only [Header.pack, Header.masked, Nat.and_assoc, Nat.and_self]

theorem Header.masked_lt (h : Header) : h.masked.rpcId < 4096 :=
  Nat.and_lt_two_pow h.rpcId (n := 12) (by decide)

/-- A packed message: the header, the payload, and zeros up to the length in the header. -/
theorem Msg.pack_eq_ok {msg : Msg} {bytes : List UInt8} (h : msg.pack = .ok bytes) :
    ∃ k, msg.payload.length + k = 4 * msg.header.len ∧ msg.header.len < 256 ∧
      msg.header.txn < 256 ∧
      bytes = headerBytes (UInt8.ofNat msg.header.len) (UInt8.ofNat msg.header.txn)
        msg.header.resp msg.header.masked.rpcId ++ (msg.payload ++ List.replicate k 0) := by
  by_cases hcovers : 4 * msg.header.len < msg.payload.length
  · simp only [Msg.pack, if_pos hcovers] at h
    cases h
  simp only [Msg.pack, if_neg hcovers] at h
  obtain ⟨header, hheader, hbytes⟩ := except_bind_eq_ok.mp h
  obtain ⟨hlen, htxn⟩ := Header.lt_of_pack hheader
  rw [← Header.pack_masked,
    @Header.pack_eq msg.header.masked hlen htxn msg.header.masked_lt] at hheader
  obtain rfl := Except.ok.inj hheader
  exact ⟨_, by omega, hlen, htxn, (Except.ok.inj hbytes).symm⟩

/-- What is unpacked from a packed message with zeros behind it. -/
theorem Msg.unpack_packed {msg : Msg} {bytes : List UInt8} (h : msg.pack = .ok bytes) (zeros : ℕ) :
    ∃ k, Msg.unpack (bytes ++ List.replicate zeros 0) =
      .ok ⟨msg.header.masked, msg.payload ++ List.replicate k 0⟩ := by
  obtain ⟨k, -, hlen, htxn, rfl⟩ := Msg.pack_eq_ok h
  refine ⟨k + zeros, ?_⟩
  rw [List.append_assoc, List.append_assoc, List.replicate_append_replicate,
    Msg.unpack_headerBytes msg.header.masked_lt, UInt8.toNat_ofNat', UInt8.toNat_ofNat',
    Nat.mod_eq_of_lt hlen, Nat.mod_eq_of_lt htxn]
  rfl

/-- The first byte of a packed message is its length in words. -/
theorem Msg.length_pack {msg : Msg} {bytes : List UInt8} (h : msg.pack = .ok bytes) :
    ∃ len : UInt8, bytes.head? = some len ∧ len.toNat = msg.header.len ∧
      bytes.length = 4 + 4 * len.toNat := by
  obtain ⟨k, hk, hlen, -, rfl⟩ := Msg.pack_eq_ok h
  have hword : (UInt8.ofNat msg.header.len).toNat = msg.header.len := by
    rw [UInt8.toNat_ofNat', Nat.mod_eq_of_lt hlen]
  refine ⟨_, rfl, hword, ?_⟩
  simp only [headerBytes, List.length_append, List.length_cons, List.length_nil,
    List.length_replicate, hword]
  omega

theorem Msg.isMessage_of_pack {msg : Msg} {bytes : List UInt8} (h : msg.pack = .ok bytes) :
    Socket.IsMessage bytes := by
  obtain ⟨len, -, hword, hlength⟩ := Msg.length_pack h
  obtain ⟨k, -, hlen, htxn, rfl⟩ := Msg.pack_eq_ok h
  refine ⟨_, Header.unpack_headerBytes msg.header.masked_lt, ?_⟩
  rw [hlength, hword, Header.payloadByteLen, UInt8.toNat_ofNat', Nat.mod_eq_of_lt hlen]

namespace PyTransport

/-- The parts that the loop writes are the message. -/
theorem sendLoop_flatten {counts : List ℕ} {msg : List UInt8} {parts : Line}
    (h : sendLoop counts msg = some parts) : parts.flatten = msg := by
  induction counts generalizing msg parts with
  | nil =>
    cases msg with
    | nil =>
      cases h
      rfl
    | cons b msg => cases h
  | cons count counts ih =>
    cases msg with
    | nil =>
      cases h
      rfl
    | cons b msg =>
      obtain ⟨rest, hrest, rfl⟩ := Option.map_eq_some_iff.mp h
      rw [List.flatten_cons, ih hrest, List.take_append_drop]

theorem receiveStream_message {msg later : List UInt8} (hm : Socket.IsMessage msg) :
    receiveStream (msg ++ later) = some (.ok msg, [later]) := by
  obtain ⟨h, hunpack, hlen⟩ := hm
  have htake : (msg ++ later).take 4 = msg.take 4 := List.take_append_of_le_length (by omega)
  have hdrop : (msg ++ later).drop 4 = msg.drop 4 ++ later :=
    List.drop_append_of_le_length (by omega)
  have hrest : (msg.drop 4).length = h.payloadByteLen := by
    rw [List.length_drop]
    omega
  rw [receiveStream, if_neg (by rw [List.length_append]; omega), htake, hunpack, hdrop]
  dsimp only
  rw [if_neg (by rw [List.length_append]; omega), ← hrest, List.take_left, List.drop_left,
    List.take_append_drop]

def Carries (t : PyTransport) (frame : List UInt8) (msg : Msg) : Prop :=
  ∃ bytes zeros, msg.pack = .ok bytes ∧ ∀ later,
    t.receive (frame :: later) = some (.ok (bytes ++ List.replicate zeros 0), later)

/-- The frame of a message on a CAN bus. -/
theorem receiveCan_frame {canId : UInt32} {bytes : List UInt8} (hlength : bytes.length ≤ 64)
    (later : Line) :
    receiveCan canId (zeroPadded canMtu (canFdHeader canId bytes.length ++ bytes) :: later) =
      some (.ok bytes, later) := by
  have hheader : (canFdHeader canId bytes.length).length = 8 := by
    simp only [canFdHeader, List.length_append, List.length_reverse, length_beBytes,
      List.length_cons, List.length_nil]
  have hmtu : (zeroPadded canMtu (canFdHeader canId bytes.length ++ bytes)).length = canMtu := by
    simp only [zeroPadded, List.length_append, List.length_replicate, hheader, canMtu]
    omega
  have hid : beNat ((zeroPadded canMtu (canFdHeader canId bytes.length ++ bytes)).take 4).reverse =
      canId.toNat := by
    have htake : (zeroPadded canMtu (canFdHeader canId bytes.length ++ bytes)).take 4 =
        (beBytes 4 canId.toNat).reverse := by
      rw [zeroPadded, canFdHeader, List.append_assoc, List.append_assoc, List.append_assoc]
      exact List.take_left' (by rw [List.length_reverse, length_beBytes])
    rw [htake, List.reverse_reverse, beNat_beBytes]
    exact Nat.mod_eq_of_lt canId.toNat_lt
  have hsize : (zeroPadded canMtu (canFdHeader canId bytes.length ++ bytes)).getD 4 0 =
      UInt8.ofNat bytes.length := by
    rw [zeroPadded, canFdHeader, List.append_assoc, List.append_assoc, List.append_assoc,
      List.getD_append_right _ _ _ _ (by rw [List.length_reverse, length_beBytes]),
      List.length_reverse, length_beBytes]
    rfl
  have hdata : ((zeroPadded canMtu (canFdHeader canId bytes.length ++ bytes)).drop 8).take
      bytes.length = bytes := by
    rw [zeroPadded, List.append_assoc, List.drop_left' hheader, List.take_left]
  have hignores : ignoresCan canId (zeroPadded canMtu (canFdHeader canId bytes.length ++ bytes)) =
      false := by
    rw [ignoresCan, hid, List.take_of_length_le hmtu.le, hmtu]
    simp
  have hbyte : (UInt8.ofNat bytes.length).toNat = bytes.length := by
    rw [UInt8.toNat_ofNat', Nat.mod_eq_of_lt (by omega)]
  rw [receiveCan, hignores, if_neg Bool.false_ne_true, hsize, hbyte]
  dsimp only
  rw [if_pos hlength, hdata]

theorem length_zeroPadded (size : ℕ) (bytes : List UInt8) :
    (zeroPadded size bytes).length = max size bytes.length := by
  rw [zeroPadded, List.length_append, List.length_replicate]
  omega

/-- What the peer sends is one frame with the message, unless it is a stream. -/
theorem carries_of_send {t : PyTransport} {counts : List ℕ} {msg : Msg} {bytes : List UInt8}
    {frames : Line} (ht : t ≠ serial) (hpack : msg.pack = .ok bytes)
    (h : t.peer.send counts bytes = some (.ok frames)) :
    ∃ frame, frames = [frame] ∧ t.Carries frame msg := by
  obtain ⟨len, hhead, -, hlength⟩ := Msg.length_pack hpack
  have hlen := len.toNat_lt
  cases t with
  | serial => exact absurd rfl ht
  | udp =>
    simp only [peer, send, Option.some.injEq, Except.ok.injEq] at h
    refine ⟨_, h.symm, bytes, 64 - bytes.length, hpack, fun later => ?_⟩
    have hwhole : (zeroPadded 64 bytes).length ≤ 1500 := by
      rw [length_zeroPadded]
      omega
    simp only [receive, List.head?_cons, Option.map_some, List.tail_cons]
    rw [List.take_of_length_le hwhole, zeroPadded]
  | rawEthernet destinationMac sourceMac =>
    have hfits : bytes.length < 2 ^ 16 := by omega
    simp only [peer, send, if_pos hfits, Option.some.injEq, Except.ok.injEq] at h
    have hheader : (sourceMac.val ++ destinationMac.val ++ beBytes 2 bytes.length).length = 14 := by
      rw [List.length_append, List.length_append, sourceMac.property, destinationMac.property,
        length_beBytes]
    have hwhole : (zeroPadded 64 (sourceMac.val ++ destinationMac.val ++ beBytes 2 bytes.length ++
        bytes)).length ≤ 1536 := by
      rw [length_zeroPadded, List.length_append, hheader]
      omega
    refine ⟨_, h.symm, bytes, 64 - (14 + bytes.length), hpack, fun later => ?_⟩
    simp only [receive, List.head?_cons, Option.map_some, List.tail_cons]
    rw [List.take_of_length_le hwhole, zeroPadded, List.append_assoc, List.drop_left' hheader,
      List.length_append, hheader]
  | socketCanFd canIdRx canIdTx =>
    cases bytes with
    | nil => cases hhead
    | cons b rest =>
      obtain rfl := Option.some.inj hhead
      simp only [peer, send, ← hlength] at h
      split_ifs at h with hlong
      · cases h
      simp only [Option.some.injEq, Except.ok.injEq] at h
      refine ⟨_, h.symm, _, 0, hpack, fun later => ?_⟩
      rw [receive, receiveCan_frame (Nat.le_of_not_lt hlong) later, List.replicate_zero,
        List.append_nil]

inductive Stream : List UInt8 → List Msg → Prop
  | nil : Stream [] []
  | message {msg : Msg} {bytes later : List UInt8} {msgs : List Msg} (hpack : msg.pack = .ok bytes)
      (rest : Stream later msgs) : Stream (bytes ++ later) (msg :: msgs)

theorem Stream.append {stream bytes : List UInt8} {msgs : List Msg} {msg : Msg}
    (h : Stream stream msgs) (hpack : msg.pack = .ok bytes) :
    Stream (stream ++ bytes) (msgs ++ [msg]) := by
  induction h with
  | nil =>
    have hlast := Stream.message hpack .nil
    rwa [List.append_nil] at hlast
  | message hfirst rest ih =>
    rw [List.append_assoc]
    exact .message hfirst ih

/-- Frames with the messages in this order, among others that the receiver ignores. -/
inductive Frames (t : PyTransport) : Line → List Msg → Prop
  | nil : Frames t [] []
  | ignored {frame : List UInt8} {line : Line} {msgs : List Msg}
      (hignores : t.ignores frame = true) (rest : Frames t line msgs) :
      Frames t (frame :: line) msgs
  | message {frame : List UInt8} {line : Line} {msg : Msg} {msgs : List Msg}
      (hcarries : t.Carries frame msg) (rest : Frames t line msgs) :
      Frames t (frame :: line) (msg :: msgs)

theorem Frames.append {t : PyTransport} {line line' : Line} {msgs msgs' : List Msg}
    (h : t.Frames line msgs) (h' : t.Frames line' msgs') :
    t.Frames (line ++ line') (msgs ++ msgs') := by
  induction h with
  | nil => exact h'
  | ignored hignores rest ih => exact .ignored hignores ih
  | message hcarries rest ih => exact .message hcarries ih

theorem receive_ignored {t : PyTransport} {frame : List UInt8} (h : t.ignores frame = true)
    (line : Line) : t.receive (frame :: line) = t.receive line := by
  cases t with
  | serial => cases h
  | udp => cases h
  | rawEthernet => cases h
  | socketCanFd canIdRx canIdTx =>
    rw [ignores] at h
    rw [receive, receiveCan, if_pos h, receive]

def Holds (t : PyTransport) (line : Line) (msgs : List Msg) : Prop :=
  (t = serial → Stream line.flatten msgs) ∧ (t ≠ serial → t.Frames line msgs)

theorem holds_init (t : PyTransport) : t.Holds [] [] := ⟨fun _ => .nil, fun _ => .nil⟩

theorem Holds.send {t : PyTransport} {line frames : Line} {msgs : List Msg} {counts : List ℕ}
    {msg : Msg} {bytes : List UInt8} (h : t.Holds line msgs) (hpack : msg.pack = .ok bytes)
    (hsend : t.peer.send counts bytes = some (.ok frames)) :
    t.Holds (line ++ frames) (msgs ++ [msg]) := by
  constructor
  · rintro rfl
    obtain ⟨parts, hparts, hframes⟩ := Option.map_eq_some_iff.mp hsend
    obtain rfl := Except.ok.inj hframes
    rw [List.flatten_append, sendLoop_flatten hparts]
    exact (h.1 rfl).append hpack
  · intro ht
    obtain ⟨frame, rfl, hcarries⟩ := carries_of_send ht hpack hsend
    exact (h.2 ht).append (.message hcarries .nil)

theorem Holds.foreign {t : PyTransport} {line : Line} {msgs : List Msg} {frame : List UInt8}
    (h : t.Holds line msgs) (hignores : t.ignores frame = true) :
    t.Holds (line ++ [frame]) msgs := by
  constructor
  · rintro rfl
    cases hignores
  · intro ht
    have hmore := (h.2 ht).append (.ignored hignores .nil)
    rwa [List.append_nil] at hmore

def Received (msg : Msg) (r : Except PyError (List UInt8)) : Prop :=
  ∃ bytes zeros, msg.pack = .ok bytes ∧ r = .ok (bytes ++ List.replicate zeros 0)

theorem Frames.receive_nil {t : PyTransport} (ht : t ≠ serial) {line : Line} {msgs : List Msg}
    (h : t.Frames line msgs) (hmsgs : msgs = []) : t.receive line = none := by
  induction h with
  | nil =>
    cases t with
    | serial => exact absurd rfl ht
    | udp | rawEthernet | socketCanFd => rfl
  | ignored hignores rest ih =>
    rw [receive_ignored hignores]
    exact ih hmsgs
  | message hcarries rest ih => cases hmsgs

theorem Frames.receive_cons {t : PyTransport} {line : Line} {msgs : List Msg}
    (h : t.Frames line msgs) {msg : Msg} {later : List Msg} (hmsgs : msgs = msg :: later) :
    ∃ r line', t.receive line = some (r, line') ∧ Received msg r ∧ t.Frames line' later := by
  induction h with
  | nil => cases hmsgs
  | ignored hignores rest ih =>
    rw [receive_ignored hignores]
    exact ih hmsgs
  | message hcarries rest ih =>
    cases hmsgs
    obtain ⟨bytes, zeros, hpack, hreceive⟩ := hcarries
    exact ⟨_, _, hreceive _, ⟨bytes, zeros, hpack, rfl⟩, rest⟩

/-- The receiver waits if no message is on the way. -/
theorem Holds.receive_nil {t : PyTransport} {line : Line} (h : t.Holds line []) :
    t.receive line = none := by
  by_cases ht : t = serial
  · subst ht
    have hnone := h.1 rfl
    generalize hstream : line.flatten = stream at hnone
    cases hnone
    rw [receive, hstream]
    rfl
  · exact (h.2 ht).receive_nil ht rfl

/-- The receiver takes the first message, and the others stay on the way. -/
theorem Holds.receive_cons {t : PyTransport} {line : Line} {msg : Msg} {msgs : List Msg}
    (h : t.Holds line (msg :: msgs)) :
    ∃ r line', t.receive line = some (r, line') ∧ Received msg r ∧ t.Holds line' msgs := by
  by_cases ht : t = serial
  · subst ht
    have hfirst := h.1 rfl
    generalize hstream : line.flatten = stream at hfirst
    cases hfirst with
    | @message _ bytes later _ hpack rest =>
      have hreceive := @receiveStream_message bytes later (Msg.isMessage_of_pack hpack)
      rw [← hstream] at hreceive
      refine ⟨_, _, hreceive, ⟨_, 0, hpack, (congrArg Except.ok (List.append_nil _)).symm⟩, ?_⟩
      refine ⟨fun _ => ?_, fun hserial => absurd rfl hserial⟩
      rwa [List.flatten_singleton]
  · obtain ⟨r, line', hreceive, hr, hrest⟩ := (h.2 ht).receive_cons rfl
    exact ⟨r, line', hreceive, hr, fun hserial => absurd hserial ht, fun _ => hrest⟩

end PyTransport

inductive TransportEvent
  | send (msg : Msg) (counts : List ℕ)
  | foreign (frame : List UInt8)
  | receive

/-- What is on the line, the messages that have been sent, and what has been received. -/
structure PyTraffic where
  line : Line
  sent : List Msg
  received : List (Except PyError (List UInt8))

namespace PyTraffic

def init : PyTraffic := ⟨[], [], []⟩

def sendMessage (s : PyTraffic) (msg : Msg) : Except PyError Line → PyTraffic
  | .ok frames => { s with
    line := s.line ++ frames
    sent := s.sent ++ [msg] }
  | .error _ => s

def step (t : PyTransport) (s : PyTraffic) : TransportEvent → Option PyTraffic
  | .send msg counts =>
    match msg.pack with
    | .error _ => some s
    | .ok bytes => (t.peer.send counts bytes).map (s.sendMessage msg)
  | .foreign frame => if t.ignores frame then some { s with line := s.line ++ [frame] } else none
  | .receive => (t.receive s.line).map fun r => { s with
    line := r.2
    received := s.received ++ [r.1] }

/-- The first messages that were sent have been received, and the others are on the way. -/
def InOrder (t : PyTransport) (s : PyTraffic) : Prop :=
  ∃ taken waiting, s.sent = taken ++ waiting ∧ List.Forall₂ PyTransport.Received taken s.received ∧
    t.Holds s.line waiting

theorem inOrder_step {t : PyTransport} (s : PyTraffic) (e : TransportEvent) (s' : PyTraffic)
    (h : InOrder t s) (hstep : step t s e = some s') : InOrder t s' := by
  obtain ⟨taken, waiting, hsent, hreceived, hholds⟩ := h
  cases e with
  | send msg counts =>
    simp only [step] at hstep
    split at hstep
    · cases hstep
      exact ⟨taken, waiting, hsent, hreceived, hholds⟩
    · rename_i bytes hpack
      obtain ⟨r, hsend, rfl⟩ := Option.map_eq_some_iff.mp hstep
      cases r with
      | error e => exact ⟨taken, waiting, hsent, hreceived, hholds⟩
      | ok frames =>
        refine ⟨taken, waiting ++ [msg], ?_, hreceived, hholds.send hpack hsend⟩
        rw [sendMessage, hsent, List.append_assoc]
  | foreign frame =>
    simp only [step] at hstep
    split_ifs at hstep with hignores
    cases hstep
    exact ⟨taken, waiting, hsent, hreceived, hholds.foreign hignores⟩
  | receive =>
    obtain ⟨⟨r, line'⟩, hreceive, rfl⟩ := Option.map_eq_some_iff.mp hstep
    cases waiting with
    | nil => cases hholds.receive_nil.symm.trans hreceive
    | cons msg waiting =>
      obtain ⟨r', line'', hreceive', hr, hrest⟩ := hholds.receive_cons
      cases hreceive'.symm.trans hreceive
      refine ⟨taken ++ [msg], waiting, ?_, ?_, hrest⟩
      · rw [hsent, List.append_assoc, List.singleton_append]
      · exact List.rel_append hreceived (.cons hr .nil)

theorem inOrder_run {t : PyTransport} {es : List TransportEvent} {s : PyTraffic}
    (hrun : run (step t) init es = some s) : InOrder t s :=
  run_invariant inOrder_step ⟨[], [], rfl, .nil, t.holds_init⟩ hrun

/-- The message with zeros behind it, of which its values are unpacked. -/
def Arrives (msg : Msg) (r : Except PyError (List UInt8)) : Prop :=
  ∃ bytes zeros, r = .ok bytes ∧
    Msg.unpack bytes = .ok ⟨msg.header.masked, msg.payload ++ List.replicate zeros 0⟩ ∧
    ∀ types vs, packPayload types (Values.toPy types vs) = .ok msg.payload →
      numbersAlignedMembers 0 types = true →
      unpackPayload types (msg.payload ++ List.replicate zeros 0) = .ok (Values.toPy types vs)

theorem arrives_of_received {msg : Msg} {r : Except PyError (List UInt8)}
    (h : PyTransport.Received msg r) : Arrives msg r := by
  obtain ⟨bytes, zeros, hpack, rfl⟩ := h
  obtain ⟨k, hunpack⟩ := Msg.unpack_packed hpack zeros
  refine ⟨_, k, rfl, hunpack, fun types vs hpayload haligned => ?_⟩
  exact ((roundTrips_iff_numbersAligned (List.replicate k 0) hpayload).mpr haligned).1

/-- Two messages on a CAN bus, the second with an argument of two bytes, and a frame of 16 bytes
between them. -/
def busEvents : List TransportEvent :=
  [.send (.fromData 7 false 0x122 []) [], .foreign (List.replicate 16 0xEE),
    .send (.fromData 8 false 0x123 [0x12, 0x34]) [], .receive, .receive]

end PyTraffic

end CompostRpc
