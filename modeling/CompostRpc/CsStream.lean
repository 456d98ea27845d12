import CompostRpc.TcpTransport
import CompostRpc.MessageHeader

/-!
# Reading messages from a stream in C#

`Message.FromStreamAsync` reads a header and then as many words as it says. `ReadExactlyAsync` fills
the part of an array that it is asked for, however the stream cuts the bytes, and throws at the end
of the stream. So the calls on a stream of messages return these messages one after the other.
-/

namespace CompostRpc

/-- The exceptions of a read: `EndOfStreamException`, and those of the library. -/
inductive ReadError
  | endOfStream
  | library (e : CsError)

structure Message where
  header : MessageHeader
  buffer : List UInt8

def replaceFrom (buffer : List UInt8) (offset : ℕ) (bytes : List UInt8) : List UInt8 :=
  buffer.take offset ++ bytes ++ buffer.drop (offset + bytes.length)

namespace Socket

def readAsync (stream : Socket) (buffer : List UInt8) (offset count : ℕ) :
    ℕ × List UInt8 × Socket :=
  let (bytes, stream) := stream.recv count
  (bytes.length, replaceFrom buffer offset bytes, stream)

/-- The loop of `ReadExactlyAsync`, with the count as fuel. -/
def readExactlyLoop : ℕ → Socket → List UInt8 → ℕ → ℕ → Except ReadError (List UInt8) × Socket
  | 0, stream, buffer, _, _ => (.ok buffer, stream)
  | fuel + 1, stream, buffer, offset, count =>
    if count > 0 then
      let (read, buffer, stream) := stream.readAsync buffer offset count
      if read = 0 then (.error .endOfStream, stream)
      else readExactlyLoop fuel stream buffer (offset + read) (count - read)
    else (.ok buffer, stream)

def readExactlyAsync (stream : Socket) (buffer : List UInt8) (offset count : ℕ) :
    Except ReadError (List UInt8) × Socket :=
  readExactlyLoop count stream buffer offset count

def fromStreamAsync (stream : Socket) : Except ReadError Message × Socket :=
  let headerSize := MessageHeader.headerSize.bytes
  match stream.readExactlyAsync (List.replicate headerSize 0) 0 headerSize with
  | (.error e, stream) => (.error e, stream)
  | (.ok headerBuf, stream) =>
    match MessageHeader.parse headerBuf 0 with
    | .error e => (.error (.library e), stream)
    | .ok header =>
      match stream.readExactlyAsync (List.replicate (headerSize + header.len.bytes) 0) headerSize
        header.len.bytes with
      | (.error e, stream) => (.error e, stream)
      | (.ok rxBuf, stream) => (.ok ⟨header, replaceFrom rxBuf 0 headerBuf⟩, stream)

def messagesFromStream : ℕ → Socket → List (Except ReadError Message) × Socket
  | 0, stream => ([], stream)
  | count + 1, stream =>
    let (r, stream) := stream.fromStreamAsync
    let (rs, stream) := messagesFromStream count stream
    (r :: rs, stream)

theorem replaceFrom_append (front rest bytes : List UInt8) :
    replaceFrom (front ++ rest) front.length bytes = front ++ bytes ++ rest.drop bytes.length := by
  rw [replaceFrom, List.take_left, List.drop_append, List.drop_of_length_le (by omega),
    Nat.add_sub_cancel_left, List.nil_append]

/-- A call of `recv` returns at least one byte as long as there are any. -/
theorem exists_recv (stream : Socket) {count : ℕ} (hcount : 0 < count) :
    ∃ size cuts, stream.recv count = (stream.unread.take size, ⟨stream.unread.drop size, cuts⟩) ∧
      1 ≤ size ∧ size ≤ count :=
  ⟨min (max 1 (stream.cuts 0)) count, _, rfl, by omega, by omega⟩

/-- The loop takes the next `count` bytes into the array. The front of the array is what was there
and what the rounds before have read. -/
theorem readExactlyLoop_ok {fuel count : ℕ} {stream : Socket} (front rest : List UInt8)
    (hfuel : count ≤ fuel) (hcount : count ≤ stream.unread.length) :
    ∃ cuts, readExactlyLoop fuel stream (front ++ rest) front.length count =
      (.ok (front ++ stream.unread.take count ++ rest.drop count),
        ⟨stream.unread.drop count, cuts⟩) := by
  induction fuel generalizing stream front rest count with
  | zero =>
    obtain rfl := Nat.le_zero.mp hfuel
    exact ⟨stream.cuts, by simp [readExactlyLoop]⟩
  | succ fuel ih =>
    rw [readExactlyLoop]
    by_cases hpos : count > 0
    · obtain ⟨size, cuts, hrecv, hone, hle⟩ := stream.exists_recv hpos
      have hlength : (stream.unread.take size).length = size := by
        rw [List.length_take]
        omega
      have hfront : front.length + size = (front ++ stream.unread.take size).length := by
        rw [List.length_append, hlength]
      obtain ⟨cuts', hloop⟩ := @ih (count - size) ⟨stream.unread.drop size, cuts⟩
        (front ++ stream.unread.take size) (rest.drop size) (by omega)
        (by rw [List.length_drop]; omega)
      refine ⟨cuts', ?_⟩
      rw [if_pos hpos]
      simp only [readAsync, hrecv, replaceFrom_append, hlength]
      rw [if_neg (by omega), hfront, hloop]
      simp only [List.drop_drop, List.append_assoc, ← List.take_add, Nat.add_sub_cancel' hle]
    · obtain rfl : count = 0 := by omega
      exact ⟨stream.cuts, by simp⟩

/-- At the end of the stream the loop throws. -/
theorem readExactlyLoop_end {fuel count : ℕ} {stream : Socket} (buffer : List UInt8) (offset : ℕ)
    (hfuel : count ≤ fuel) (hcount : stream.unread.length < count) :
    (readExactlyLoop fuel stream buffer offset count).1 = .error .endOfStream := by
  induction fuel generalizing stream buffer offset count with
  | zero => omega
  | succ fuel ih =>
    have hpos : count > 0 := by omega
    obtain ⟨size, cuts, hrecv, hone, hle⟩ := stream.exists_recv hpos
    rw [readExactlyLoop, if_pos hpos]
    simp only [readAsync, hrecv]
    split
    · rfl
    · rename_i hread
      rw [List.length_take] at hread ⊢
      exact ih _ _ (by omega) (by rw [List.length_drop]; omega)

theorem readExactlyAsync_ok {stream : Socket} {count : ℕ} (front rest : List UInt8)
    (hcount : count ≤ stream.unread.length) :
    ∃ cuts, stream.readExactlyAsync (front ++ rest) front.length count =
      (.ok (front ++ stream.unread.take count ++ rest.drop count),
        ⟨stream.unread.drop count, cuts⟩) :=
  readExactlyLoop_ok front rest le_rfl hcount

theorem readExactlyAsync_end {stream : Socket} {count : ℕ} (buffer : List UInt8) (offset : ℕ)
    (hcount : stream.unread.length < count) :
    (stream.readExactlyAsync buffer offset count).1 = .error .endOfStream :=
  readExactlyLoop_end buffer offset le_rfl hcount

end Socket

namespace Message

def WellFormed (m : List UInt8) : Prop :=
  ∃ header, MessageHeader.parse m 0 = .ok header ∧ m.length = 4 + header.len.bytes

def CutShort (bytes : List UInt8) : Prop :=
  ∃ m missing, WellFormed m ∧ m = bytes ++ missing ∧ missing ≠ []

def Of (m : List UInt8) (r : Except ReadError Message) : Prop :=
  ∃ header, MessageHeader.parse m 0 = .ok header ∧ r = .ok ⟨header, m⟩

theorem parse_take {bytes : List UInt8} (h : 4 ≤ bytes.length) :
    MessageHeader.parse (bytes.take 4) 0 = MessageHeader.parse bytes 0 := by
  match bytes, h with
  | b0 :: b1 :: b2 :: b3 :: rest, _ => rfl

theorem parse_append {m : List UInt8} (h : 4 ≤ m.length) (later : List UInt8) :
    MessageHeader.parse (m ++ later) 0 = MessageHeader.parse m 0 := by
  match m, h with
  | b0 :: b1 :: b2 :: b3 :: rest, _ => rfl

end Message

namespace Socket
open Message

/-- The header of a message arrives. -/
theorem readHeader {stream : Socket} (h : 4 ≤ stream.unread.length) :
    ∃ cuts, stream.readExactlyAsync (List.replicate 4 0) 0 4 =
      (.ok (stream.unread.take 4), ⟨stream.unread.drop 4, cuts⟩) := by
  obtain ⟨cuts, hread⟩ := readExactlyAsync_ok [] (List.replicate 4 0) h
  refine ⟨cuts, hread.trans ?_⟩
  rw [List.nil_append, List.drop_of_length_le (by simp), List.append_nil]

/-- The words behind the header arrive. -/
theorem readPayload {stream : Socket} {count : ℕ} (h : count ≤ stream.unread.length) :
    ∃ cuts, stream.readExactlyAsync (List.replicate (4 + count) 0) 4 count =
      (.ok (List.replicate 4 0 ++ stream.unread.take count),
        ⟨stream.unread.drop count, cuts⟩) := by
  obtain ⟨cuts, hread⟩ := readExactlyAsync_ok (List.replicate 4 0) (List.replicate count 0) h
  rw [List.length_replicate, List.replicate_append_replicate, List.drop_of_length_le (by simp),
    List.append_nil] at hread
  exact ⟨cuts, hread⟩

theorem fromStreamAsync_ok {stream : Socket} {m later : List UInt8} (hm : WellFormed m)
    (hstream : stream.unread = m ++ later) :
    ∃ r cuts, stream.fromStreamAsync = (r, ⟨later, cuts⟩) ∧ Of m r := by
  obtain ⟨header, hparse, hlength⟩ := hm
  have hfour : 4 ≤ stream.unread.length := by
    rw [hstream, List.length_append]
    omega
  have htake : stream.unread.take 4 = m.take 4 := by
    rw [hstream, List.take_append_of_le_length (by omega)]
  have hdrop : stream.unread.drop 4 = m.drop 4 ++ later := by
    rw [hstream, List.drop_append_of_le_length (by omega)]
  have hsize : (m.drop 4).length = header.len.bytes := by
    rw [List.length_drop]
    omega
  obtain ⟨cuts, hheader⟩ := readHeader hfour
  rw [htake, hdrop] at hheader
  obtain ⟨cuts', hpayload⟩ := @readPayload ⟨m.drop 4 ++ later, cuts⟩ header.len.bytes
    (by rw [List.length_append]; omega)
  rw [← hsize, List.take_left, List.drop_left, hsize] at hpayload
  have hbuffer : replaceFrom (List.replicate 4 0 ++ m.drop 4) 0 (m.take 4) = m := by
    have hfront : (m.take 4).length = (List.replicate 4 (0 : UInt8)).length := by
      rw [List.length_take, List.length_replicate]
      omega
    rw [replaceFrom, List.take_zero, List.nil_append, Nat.zero_add, hfront, List.drop_left,
      List.take_append_drop]
  have hparse' : MessageHeader.parse (m.take 4) 0 = .ok header :=
    (parse_take (by omega)).trans hparse
  refine ⟨.ok ⟨header, m⟩, cuts', ?_, header, hparse, rfl⟩
  rw [fromStreamAsync]
  simp only [show MessageHeader.headerSize.bytes = 4 from rfl, hheader, hparse', hpayload, hbuffer]

/-- A stream that ends before the message does. -/
theorem fromStreamAsync_end {stream : Socket} (h : CutShort stream.unread) :
    stream.fromStreamAsync.1 = .error .endOfStream := by
  obtain ⟨m, missing, ⟨header, hparse, hlength⟩, hm, hmissing⟩ := h
  have hpos : 0 < missing.length := List.length_pos_iff.mpr hmissing
  have hwhole : m.length = stream.unread.length + missing.length := by
    rw [hm, List.length_append]
  rw [fromStreamAsync, show MessageHeader.headerSize.bytes = 4 from rfl]
  by_cases hfour : 4 ≤ stream.unread.length
  · obtain ⟨cuts, hheader⟩ := readHeader hfour
    rw [hm, parse_append hfour] at hparse
    have hparse' := (parse_take hfour).trans hparse
    have hshort : (stream.unread.drop 4).length < header.len.bytes := by
      rw [List.length_drop]
      omega
    have hend := @readExactlyAsync_end ⟨stream.unread.drop 4, cuts⟩ header.len.bytes
      (List.replicate (4 + header.len.bytes) 0) 4 hshort
    simp only [hheader, hparse']
    split
    · rename_i e stream' hread
      rw [hread] at hend
      exact congrArg _ (Except.error.inj hend)
    · rename_i rxBuf stream' hread
      rw [hread] at hend
      cases hend
  · have hend := @readExactlyAsync_end stream 4 (List.replicate 4 0) 0 (by omega)
    split
    · rename_i e stream' hread
      rw [hread] at hend
      exact congrArg _ (Except.error.inj hend)
    · rename_i headerBuf stream' hread
      rw [hread] at hend
      cases hend

/-- The calls on a stream of messages return these messages in order, however the stream cuts its
bytes, and the call on a stream that ends before its message does throws `EndOfStreamException`. -/
theorem messagesFromStream_framed {ms : List (List UInt8)} (hms : ∀ m ∈ ms, WellFormed m)
    (later : List UInt8) (cuts : ℕ → ℕ) :
    ∃ rs stream, messagesFromStream ms.length ⟨ms.flatten ++ later, cuts⟩ = (rs, stream) ∧
      List.Forall₂ Of ms rs ∧ stream.unread = later ∧
      (CutShort later → stream.fromStreamAsync.1 = .error .endOfStream) := by
  induction ms generalizing cuts with
  | nil => exact ⟨[], ⟨later, cuts⟩, rfl, .nil, rfl, @fromStreamAsync_end ⟨later, cuts⟩⟩
  | cons m ms ih =>
    rw [List.forall_mem_cons] at hms
    obtain ⟨r, cuts', hfirst, hr⟩ := @fromStreamAsync_ok ⟨(m :: ms).flatten ++ later, cuts⟩ m
      (ms.flatten ++ later) hms.1 (by rw [List.flatten_cons, List.append_assoc])
    obtain ⟨rs, stream, hrest, hrs, hunread, hend⟩ := ih hms.2 cuts'
    refine ⟨r :: rs, stream, ?_, .cons hr hrs, hunread, hend⟩
    simp only [List.length_cons, messagesFromStream, hfirst, hrest]

/-- Two messages that arrive byte by byte, and three bytes of a third one. -/
theorem messagesFromStream_byte_by_byte :
    ∃ rs stream, messagesFromStream 2
        ⟨[[1, 5, 0x10, 7, 1, 2, 3, 4], [0, 0, 0, 9]].flatten ++ [0, 1, 2], fun _ => 1⟩ =
        (rs, stream) ∧
      List.Forall₂ Of [[1, 5, 0x10, 7, 1, 2, 3, 4], [0, 0, 0, 9]] rs ∧
      stream.unread = [0, 1, 2] ∧ stream.fromStreamAsync.1 = .error .endOfStream := by
  have hms : ∀ m ∈ [[1, 5, 0x10, 7, 1, 2, 3, 4], [0, 0, 0, (9 : UInt8)]], WellFormed m := by
    intro m hm
    rcases List.mem_cons.mp hm with rfl | hm
    · exact ⟨_, rfl, rfl⟩
    · obtain rfl := List.mem_singleton.mp hm
      exact ⟨_, rfl, rfl⟩
  have hcut : CutShort [0, 1, 2] := ⟨[0, 1, 2, 9], [9], ⟨_, rfl, rfl⟩, rfl, by decide⟩
  obtain ⟨rs, stream, hrun, hrs, hunread, hend⟩ :=
    messagesFromStream_framed hms [0, 1, 2] fun _ => 1
  exact ⟨rs, stream, hrun, hrs, hunread, hend hcut⟩

end Socket
end CompostRpc
