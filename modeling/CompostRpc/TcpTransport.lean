import CompostRpc.Message

/-!
# Reading messages from a TCP stream

A socket is the part of the stream that is not read yet and the sizes at which the coming `recv`
calls cut it. The loops of `TcpTransport.receive` count what they have read by adding the length of
the whole buffer in every round. A read of `n` bytes is therefore complete exactly when its first
two pieces make up `n` bytes; with more pieces the loop stops early.
-/

namespace CompostRpc

structure Socket where
  unread : List UInt8
  cuts : ℕ → ℕ

namespace Socket

/-- `socket.recv(k)`: at least one and at most `k` of the next bytes, or nothing at the end. -/
def recv (s : Socket) (k : ℕ) : List UInt8 × Socket :=
  let size := min (max 1 (s.cuts 0)) k
  (s.unread.take size, ⟨s.unread.drop size, fun i => s.cuts (i + 1)⟩)

/-- The loop that reads a header or a payload of `n` bytes; every round adds to `received`. -/
def receiveLoop : ℕ → Socket → ℕ → ℕ → List UInt8 → Except PyError (List UInt8) × Socket
  | 0, s, _, _, data => (.ok data, s)
  | fuel + 1, s, n, received, data =>
    if received < n then
      let (piece, s) := s.recv (n - received)
      let data := data ++ piece
      if data.length = 0 then (.error .runtimeError, s)
      else receiveLoop fuel s n (received + data.length) data
    else (.ok data, s)

def receive (s : Socket) : Except PyError (List UInt8) × Socket :=
  match receiveLoop 4 s 4 0 [] with
  | (.error e, s) => (.error e, s)
  | (.ok header, s) =>
    match Header.unpack header with
    | .error e => (.error e, s)
    | .ok h =>
      match receiveLoop h.payloadByteLen s h.payloadByteLen 0 [] with
      | (.error e, s) => (.error e, s)
      | (.ok payload, s) => (.ok (header ++ payload), s)

def receives : ℕ → Socket → List (Except PyError (List UInt8)) × Socket
  | 0, s => ([], s)
  | count + 1, s =>
    let (r, s) := s.receive
    let (rs, s) := receives count s
    (r :: rs, s)

/-- The fuel of the loop does not run out. -/
theorem receiveLoop_fuel (fuel : ℕ) (s : Socket) (n received : ℕ) (data : List UInt8)
    (h : n ≤ received + fuel) :
    receiveLoop (fuel + 1) s n received data = receiveLoop fuel s n received data := by
  induction fuel generalizing s received data with
  | zero => simp only [receiveLoop, if_neg (show ¬ received < n by omega)]
  | succ fuel ih =>
    rw [receiveLoop, receiveLoop]
    by_cases hlt : received < n
    · rw [if_pos hlt, if_pos hlt]
      by_cases hnil : (data ++ (s.recv (n - received)).1).length = 0
      · simp only [hnil, if_true]
      · simp only [hnil, if_false]
        exact ih _ _ _ (by omega)
    · rw [if_neg hlt, if_neg hlt]

def TwoPieces (cuts : ℕ → ℕ) (n : ℕ) : Prop := n ≤ max 1 (cuts 0) + max 1 (cuts 1)

def afterRead (cuts : ℕ → ℕ) (n : ℕ) : ℕ → ℕ :=
  if n = 0 then cuts
  else if n ≤ max 1 (cuts 0) then fun i => cuts (i + 1)
  else fun i => cuts (i + 2)

theorem length_recv_le (s : Socket) (k : ℕ) : (s.recv k).1.length ≤ k := by
  simp only [recv, List.length_take]
  omega

/-- Once the count is ahead of the data, the loop returns too little. -/
theorem receiveLoop_short {fuel n received : ℕ} {s s' : Socket} {data d : List UInt8}
    (hdata : data.length < n) (hahead : data.length < received)
    (h : receiveLoop fuel s n received data = (.ok d, s')) : d.length < n := by
  induction fuel generalizing s received data with
  | zero =>
    cases h
    exact hdata
  | succ fuel ih =>
    rw [receiveLoop] at h
    by_cases hlt : received < n
    · rw [if_pos hlt] at h
      have hpiece := s.length_recv_le (n - received)
      have hlen : (data ++ (s.recv (n - received)).1).length =
          data.length + (s.recv (n - received)).1.length := List.length_append
      by_cases hnil : (data ++ (s.recv (n - received)).1).length = 0
      · simp only [hnil, if_true] at h
        cases h
      · simp only [hnil, if_false] at h
        exact ih (by omega) (by omega) h
    · rw [if_neg hlt] at h
      cases h
      exact hdata

theorem receiveLoop_done {fuel n received : ℕ} (s : Socket) (data : List UInt8)
    (h : n ≤ received) : receiveLoop fuel s n received data = (.ok data, s) := by
  cases fuel with
  | zero => rfl
  | succ fuel => rw [receiveLoop, if_neg (by omega)]

theorem receiveLoop_round {fuel n received : ℕ} {s : Socket} (size : ℕ) (data : List UInt8)
    (hlt : received < n) (hn : n - received ≤ s.unread.length)
    (hsize : size = min (max 1 (s.cuts 0)) (n - received)) :
    receiveLoop (fuel + 1) s n received data =
      receiveLoop fuel ⟨s.unread.drop size, fun i => s.cuts (i + 1)⟩ n
        (received + (data.length + size)) (data ++ s.unread.take size) := by
  have htake : (s.unread.take size).length = size := by
    rw [List.length_take]
    omega
  have hlen : (data ++ s.unread.take size).length = data.length + size := by
    rw [List.length_append, htake]
  rw [receiveLoop, if_pos hlt]
  simp only [recv, ← hsize]
  rw [if_neg (by omega), hlen]

theorem receiveLoop_two_pieces {s : Socket} {n : ℕ} (hn : n ≤ s.unread.length)
    (h : TwoPieces s.cuts n) : receiveLoop n s n 0 [] =
      (.ok (s.unread.take n), ⟨s.unread.drop n, afterRead s.cuts n⟩) := by
  unfold TwoPieces at h
  by_cases hzero : n = 0
  · subst hzero
    rfl
  · obtain ⟨k, rfl⟩ := Nat.exists_eq_succ_of_ne_zero hzero
    by_cases hone : k + 1 ≤ max 1 (s.cuts 0)
    · rw [receiveLoop_round (k + 1) [] (by omega) hn (by omega),
        receiveLoop_done _ _ (by omega), afterRead, if_neg hzero, if_pos hone, List.nil_append]
    · obtain ⟨j, rfl⟩ := Nat.exists_eq_succ_of_ne_zero (by omega : k ≠ 0)
      rw [receiveLoop_round (max 1 (s.cuts 0)) [] (by omega) hn (by omega),
        receiveLoop_round (j + 1 + 1 - max 1 (s.cuts 0)) _ (by simp only [List.length_nil]; omega)
          (by simp only [List.length_drop, List.length_nil]; omega)
          (by simp only [List.length_nil, Nat.zero_add]; omega),
        receiveLoop_done _ _ (by simp only [List.length_nil]; omega), afterRead, if_neg hzero,
        if_neg hone, List.nil_append, ← List.take_add, List.drop_drop]
      rw [Nat.add_sub_cancel' (by omega)]

theorem receiveLoop_more_pieces {s s' : Socket} {n : ℕ} {d : List UInt8}
    (hn : n ≤ s.unread.length) (h : ¬ TwoPieces s.cuts n)
    (hread : receiveLoop n s n 0 [] = (.ok d, s')) : d.length < n := by
  unfold TwoPieces at h
  obtain ⟨k, rfl⟩ := Nat.exists_eq_add_of_le (by omega : 2 ≤ n)
  rw [Nat.add_comm 2 k, receiveLoop_round (max 1 (s.cuts 0)) [] (by omega) (by omega)
      (by omega),
    receiveLoop_round (max 1 (s.cuts 1)) _ (by simp only [List.length_nil]; omega)
      (by simp only [List.length_drop, List.length_nil]; omega)
      (by simp only [List.length_nil, Nat.zero_add]; omega)] at hread
  refine receiveLoop_short ?_ ?_ (Nat.add_comm 2 k ▸ hread)
  · simp only [List.nil_append, List.length_append, List.length_take, List.length_drop]
    omega
  · simp only [List.nil_append, List.length_append, List.length_take, List.length_drop,
      List.length_nil]
    omega

def IsMessage (m : List UInt8) : Prop :=
  ∃ h, Header.unpack (m.take 4) = .ok h ∧ m.length = 4 + h.payloadByteLen

/-- Every header and every payload of the stream arrives in at most two pieces. -/
def InTwoPieces : List (List UInt8) → (ℕ → ℕ) → Prop
  | [], _ => True
  | m :: ms, cuts =>
    TwoPieces cuts 4 ∧ TwoPieces (afterRead cuts 4) (m.length - 4) ∧
      InTwoPieces ms (afterRead (afterRead cuts 4) (m.length - 4))

theorem receive_message {s : Socket} {m later : List UInt8} (hm : IsMessage m)
    (hs : s.unread = m ++ later) (hheader : TwoPieces s.cuts 4)
    (hpayload : TwoPieces (afterRead s.cuts 4) (m.length - 4)) :
    s.receive = (.ok m, ⟨later, afterRead (afterRead s.cuts 4) (m.length - 4)⟩) := by
  obtain ⟨h, hunpack, hlen⟩ := hm
  have hfour : (m ++ later).take 4 = m.take 4 := List.take_append_of_le_length (by omega)
  have hdrop : (m ++ later).drop 4 = m.drop 4 ++ later := List.drop_append_of_le_length (by omega)
  have hrest : (m.drop 4).length = h.payloadByteLen := by rw [List.length_drop]; omega
  have hsize : m.length - 4 = h.payloadByteLen := by omega
  rw [hsize] at hpayload ⊢
  rw [receive, receiveLoop_two_pieces (by rw [hs, List.length_append]; omega) hheader, hs, hfour,
    hdrop]
  simp only [hunpack]
  rw [receiveLoop_two_pieces (by simp only [List.length_append]; omega) hpayload]
  simp only [← hrest, List.take_left, List.drop_left, List.take_append_drop]

theorem receive_fragmented {s : Socket} {m later : List UInt8} (hm : IsMessage m)
    (hs : s.unread = m ++ later)
    (hcut : ¬ (TwoPieces s.cuts 4 ∧ TwoPieces (afterRead s.cuts 4) (m.length - 4))) :
    s.receive.1 ≠ .ok m := by
  obtain ⟨h, hunpack, hlen⟩ := hm
  have hfour : (m ++ later).take 4 = m.take 4 := List.take_append_of_le_length (by omega)
  have hdrop : (m ++ later).drop 4 = m.drop 4 ++ later := List.drop_append_of_le_length (by omega)
  have hsize : m.length - 4 = h.payloadByteLen := by omega
  have hunread : s.unread.length = m.length + later.length := by rw [hs, List.length_append]
  by_cases hheader : TwoPieces s.cuts 4
  · have hpayload : ¬ TwoPieces (afterRead s.cuts 4) h.payloadByteLen := fun hpayload =>
      hcut ⟨hheader, hsize ▸ hpayload⟩
    rw [receive, receiveLoop_two_pieces (by omega) hheader, hs, hfour, hdrop]
    simp only [hunpack]
    rcases hread : receiveLoop h.payloadByteLen ⟨m.drop 4 ++ later, afterRead s.cuts 4⟩
      h.payloadByteLen 0 [] with ⟨e | d, s'⟩
    · simp only
      intro herror
      cases herror
    · have hshort := receiveLoop_more_pieces
        (by simp only [List.length_append, List.length_drop]; omega) hpayload hread
      simp only
      intro heq
      have hcount := congrArg List.length (Except.ok.inj heq)
      rw [List.length_append, List.length_take] at hcount
      omega
  · rw [receive]
    rcases hread : receiveLoop 4 s 4 0 [] with ⟨e | d, s'⟩
    · simp only
      intro herror
      cases herror
    · have hshort := receiveLoop_more_pieces (by omega) hheader hread
      cases hu : Header.unpack d with
      | error e =>
        simp only [hu]
        intro herror
        cases herror
      | ok h' =>
        have hfull := Header.length_of_unpack hu
        omega

/-- The messages come back one by one, with nothing lost or repeated, exactly when no header and no
payload is cut into more than two pieces. -/
theorem receives_eq_iff_inTwoPieces {ms : List (List UInt8)} (hms : ∀ m ∈ ms, IsMessage m)
    {s : Socket} {later : List UInt8} (hs : s.unread = ms.flatten ++ later) :
    (s.receives ms.length).1 = ms.map .ok ∧ (s.receives ms.length).2.unread = later ↔
      InTwoPieces ms s.cuts := by
  induction ms generalizing s with
  | nil => simpa [receives, InTwoPieces] using hs
  | cons m ms ih =>
    have hm := hms m List.mem_cons_self
    rw [List.flatten_cons, List.append_assoc] at hs
    by_cases hcut : TwoPieces s.cuts 4 ∧ TwoPieces (afterRead s.cuts 4) (m.length - 4)
    · have hfirst := receive_message hm hs hcut.1 hcut.2
      have hrest := ih (fun m' hm' => hms m' (List.mem_cons_of_mem m hm'))
        (s := ⟨ms.flatten ++ later, afterRead (afterRead s.cuts 4) (m.length - 4)⟩) rfl
      simp only [List.length_cons, receives, hfirst, List.map_cons, List.cons.injEq, true_and,
        InTwoPieces, hcut]
      exact hrest
    · have hfirst := receive_fragmented hm hs hcut
      refine iff_of_false ?_ fun hpieces => hcut ⟨hpieces.1, hpieces.2.1⟩
      intro hall
      simp only [List.length_cons, receives, List.map_cons, List.cons.injEq] at hall
      exact hfirst hall.1.1

/-- Two messages in one segment that is cut in the middle of the second header. -/
theorem receives_eq_two_messages :
    ((⟨[1, 7, 16, 1, 9, 9, 9, 9] ++ [0, 8, 16, 1], fun i => [4, 4, 2, 2].getD i 0⟩ :
      Socket).receives 2).1 = [.ok [1, 7, 16, 1, 9, 9, 9, 9], .ok [0, 8, 16, 1]] := by
  refine ((@receives_eq_iff_inTwoPieces [[1, 7, 16, 1, 9, 9, 9, 9], [0, 8, 16, 1]] ?_ _ [] rfl).mpr
    ?_).1
  · intro m hm
    simp only [List.mem_cons, List.not_mem_nil, or_false] at hm
    rcases hm with rfl | rfl
    · exact ⟨⟨1, 7, true, 1⟩, by decide, by decide⟩
    · exact ⟨⟨0, 8, true, 1⟩, by decide, by decide⟩
  · refine ⟨?_, ?_, ?_, ?_, trivial⟩ <;> unfold TwoPieces <;> decide

/-- A header that arrives byte by byte is taken for three bytes, which no header is. -/
theorem receives_ne_byte_by_byte :
    IsMessage [0, 8, 16, 1] ∧
      ((⟨[0, 8, 16, 1], fun _ => 1⟩ : Socket).receives 1).1 = [.error .structError] ∧
      ¬ (((⟨[0, 8, 16, 1], fun _ => 1⟩ : Socket).receives 1).1 = [[0, 8, 16, 1]].map .ok ∧
        ((⟨[0, 8, 16, 1], fun _ => 1⟩ : Socket).receives 1).2.unread = []) := by
  have herror : ((⟨[0, 8, 16, 1], fun _ => 1⟩ : Socket).receives 1).1 = [.error .structError] := by
    rfl
  refine ⟨⟨⟨0, 8, true, 1⟩, by decide, by decide⟩, herror, fun hall => ?_⟩
  rw [herror] at hall
  cases hall.1

end Socket

end CompostRpc
