import CompostRpc.HeaderFormat
import CompostRpc.MessageHeader

/-!
# The three header codecs

Python, C and C# write the same four bytes for a header and read its fields from them. Python and C#
ignore the reserved flags of a header that they read; C refuses it. So C accepts exactly the bytes
that Python would write again.
-/

namespace CompostRpc
open ByteMemory

theorem flagByte_shift : ∀ (resp : Bool) (idHi : Fin 16),
    ((flagByte resp idHi >>> 4) &&& 1 != 0) = resp ∧
      UInt8.ofNat idHi ||| (if resp then (1 : UInt8) else 0) <<< 4 = flagByte resp idHi := by decide

namespace MessageHeader

theorem write_headerBytes {len : BufferUnit} {txn : UInt8} {resp : Bool} {rpcId : ℕ}
    (hid : rpcId < 4096) {buffer : List UInt8} (hbuffer : 4 ≤ buffer.length) :
    write ⟨len, txn, UInt16.ofNat rpcId, resp⟩ buffer 0 =
      headerBytes (UInt8.ofNat len.words) txn resp rpcId ++ buffer.drop 4 := by
  have hhi : ((UInt16.ofNat rpcId >>> 8) &&& 0x0F).toUInt8 = UInt8.ofNat (rpcId / 256) := by
    apply UInt8.toNat_inj.mp
    have hmask : ∀ n, n &&& 15 = n % 16 := fun n => Nat.and_two_pow_sub_one_eq_mod n 4
    simp [Nat.shiftRight_eq_div_pow, hmask]
    omega
  have hlo : (UInt16.ofNat rpcId &&& 0xFF).toUInt8 = UInt8.ofNat rpcId := by
    apply UInt8.toNat_inj.mp
    have hmask : ∀ n, n &&& 255 = n % 256 := fun n => Nat.and_two_pow_sub_one_eq_mod n 8
    simp only [UInt16.toNat_toUInt8, UInt16.toNat_and, UInt16.toNat_ofNat', UInt8.toNat_ofNat']
    change (rpcId % 65536 &&& 255) % 256 = rpcId % 256
    rw [hmask]
    omega
  obtain ⟨-, hflag⟩ := flagByte_shift resp ⟨rpcId / 256, by omega⟩
  have hfits : ¬ buffer.length < 0 + headerSize.bytes := by
    rw [show headerSize.bytes = 4 from rfl]
    omega
  match buffer, hbuffer with
  | b0 :: b1 :: b2 :: b3 :: rest, _ =>
    simp only [write, if_neg hfits, hhi, hlo]
    simp only at hflag
    rw [hflag]
    rfl

theorem parse_headerBytes {wlen txn : UInt8} {resp : Bool} {rpcId : ℕ} (hid : rpcId < 4096)
    (payload : List UInt8) :
    parse (headerBytes wlen txn resp rpcId ++ payload) 0 =
      .ok ⟨.fromWords wlen.toNat, txn, UInt16.ofNat rpcId, resp⟩ := by
  obtain ⟨hhi, -⟩ := flagByte_masks resp ⟨rpcId / 256, by omega⟩
  obtain ⟨hflag, -⟩ := flagByte_shift resp ⟨rpcId / 256, by omega⟩
  simp only at hhi hflag
  simp only [parse, headerBytes, List.cons_append, List.nil_append, List.getElem?_cons_zero,
    List.getElem?_cons_succ, hhi, hflag, rpcId_join hid]

end MessageHeader

theorem reservedFlags_iff : ∀ b : Fin 256,
    (UInt8.ofNat b &&& 0xF0) &&& ~~~ 0x10 = 0 ↔ (b : ℕ) < 32 := by decide +kernel

/-- Four bytes without reserved flags are a header. -/
theorem eq_headerBytes (b0 b1 : UInt8) {b2 : UInt8} (b3 : UInt8) (h : b2.toNat < 32) :
    ∃ resp rpcId, rpcId < 4096 ∧ [b0, b1, b2, b3] = headerBytes b0 b1 resp rpcId := by
  have hlo := b3.toNat_lt
  refine ⟨decide (16 ≤ b2.toNat), b2.toNat % 16 * 256 + b3.toNat, by omega, ?_⟩
  have hhi : flagByte (decide (16 ≤ b2.toNat)) ((b2.toNat % 16 * 256 + b3.toNat) / 256) = b2 := by
    apply UInt8.toNat_inj.mp
    rw [flagByte_toNat _ (by omega)]
    by_cases hresp : 16 ≤ b2.toNat
    · rw [decide_eq_true hresp, if_pos rfl]
      omega
    · rw [decide_eq_false hresp, if_neg Bool.false_ne_true]
      omega
  have hlow : UInt8.ofNat (b2.toNat % 16 * 256 + b3.toNat) = b3 := by
    apply UInt8.toNat_inj.mp
    rw [UInt8.toNat_ofNat']
    omega
  rw [headerBytes, hhi, hlow]

/-- The load fails on reserved flags, and only on them. -/
theorem compostHeaderLoad_ok_iff {m : Machine} {buf : ℕ} (hbuf : buf ≠ 0) :
    (∃ header, (compostHeaderLoad m buf).1 = .ok header) ↔ (m.mem (buf + 2)).toNat < 32 := by
  have hflags := reservedFlags_iff ⟨(m.mem (buf + 2)).toNat, (m.mem (buf + 2)).toNat_lt⟩
  rw [UInt8.ofNat_toNat] at hflags
  rw [← hflags]
  simp only [compostHeaderLoad, if_neg hbuf]
  split
  · rename_i hreserved
    refine ⟨?_, fun h => absurd h hreserved⟩
    rintro ⟨header, hload⟩
    cases hload
  · rename_i hreserved
    exact ⟨fun _ => not_not.mp hreserved, fun _ => ⟨_, rfl⟩⟩

theorem Header.flags_of_pack {h : Header} {b0 b1 b2 b3 : UInt8}
    (hpack : h.pack = .ok [b0, b1, b2, b3]) : b2.toNat < 32 := by
  have hid : h.rpcId &&& 0x0FFF < 2 ^ 13 := Nat.and_lt_two_pow _ (by decide)
  have hword : (if h.resp then h.rpcId &&& 0x0FFF ||| 0x1000 else h.rpcId &&& 0x0FFF) < 2 ^ 13 := by
    split
    · exact Nat.or_lt_two_pow hid (by decide)
    · exact hid
  simp only [Header.pack] at hpack
  generalize (if h.resp then h.rpcId &&& 0x0FFF ||| 0x1000 else h.rpcId &&& 0x0FFF) = word at *
  split_ifs at hpack with hfields
  cases hpack
  rw [UInt8.toNat_ofNat', Nat.shiftRight_eq_div_pow, Nat.mul_one]
  omega

/-- The three headers have the same fields; the length is counted in words. -/
structure SameFields (h : Header) (c : CompostHeader) (s : MessageHeader) : Prop where
  len : h.len = c.wlen.toNat ∧ s.len.words = c.wlen.toNat
  txn : h.txn = c.txn.toNat ∧ s.txn = c.txn
  rpcId : h.rpcId = c.rpcId.toNat ∧ s.rpcId = c.rpcId
  resp : h.resp = c.resp ∧ s.resp = c.resp

/-- All three codecs take the headers to the bytes and the bytes to the headers. -/
structure Codecs (h : Header) (c : CompostHeader) (s : MessageHeader) (bytes : List UInt8) :
    Prop where
  pack : h.pack = .ok bytes
  store : ∀ m buf, read (compostHeaderStore m buf c).mem buf 4 = bytes
  write : ∀ buffer, 4 ≤ buffer.length → (s.write buffer 0).take 4 = bytes
  unpack : Header.unpack bytes = .ok h
  load : ∀ m buf, buf ≠ 0 → read m.mem buf 4 = bytes → (compostHeaderLoad m buf).1 = .ok c
  parse : MessageHeader.parse bytes 0 = .ok s

theorem codecs_headerBytes (wlen txn : UInt8) (resp : Bool) {rpcId : ℕ} (hid : rpcId < 4096) :
    Codecs ⟨wlen.toNat, txn.toNat, resp, rpcId⟩ ⟨wlen, txn, UInt16.ofNat rpcId, resp⟩
      ⟨.fromWords wlen.toNat, txn, UInt16.ofNat rpcId, resp⟩ (headerBytes wlen txn resp rpcId) where
  pack := by
    have hpack := Header.pack_eq (h := ⟨wlen.toNat, txn.toNat, resp, rpcId⟩) wlen.toNat_lt
      txn.toNat_lt hid
    rwa [UInt8.ofNat_toNat, UInt8.ofNat_toNat] at hpack
  store := fun m buf => compostHeaderStore_bytes m buf hid
  write := fun buffer hbuffer => by
    rw [MessageHeader.write_headerBytes hid hbuffer, BufferUnit.words_fromWords, UInt8.ofNat_toNat]
    rfl
  unpack := Header.unpack_headerBytes hid
  load := fun m buf hbuf hread => compostHeaderLoad_headerBytes hbuf hid hread
  parse := by
    have hparse : MessageHeader.parse (headerBytes wlen txn resp rpcId ++ []) 0 = _ :=
      MessageHeader.parse_headerBytes hid []
    rwa [List.append_nil] at hparse

theorem sameFields_of_lt (wlen txn : UInt8) (resp : Bool) {rpcId : ℕ} (hid : rpcId < 4096) :
    SameFields ⟨wlen.toNat, txn.toNat, resp, rpcId⟩ ⟨wlen, txn, UInt16.ofNat rpcId, resp⟩
      ⟨.fromWords wlen.toNat, txn, UInt16.ofNat rpcId, resp⟩ := by
  refine ⟨⟨rfl, BufferUnit.words_fromWords _⟩, ⟨rfl, rfl⟩, ⟨?_, rfl⟩, ⟨rfl, rfl⟩⟩
  rw [UInt16.toNat_ofNat', Nat.mod_eq_of_lt (show rpcId < 2 ^ 16 by omega)]

def Header.Canonical (bytes : List UInt8) : Prop :=
  ∃ h, Header.unpack bytes = .ok h ∧ h.pack = .ok bytes

theorem header_codecs_agree :
    (∀ (wlen txn : UInt8) (resp : Bool) (rpcId : ℕ), rpcId ≤ 0xFFF → ∃ bytes, bytes.length = 4 ∧
      Codecs ⟨wlen.toNat, txn.toNat, resp, rpcId⟩ ⟨wlen, txn, UInt16.ofNat rpcId, resp⟩
        ⟨.fromWords wlen.toNat, txn, UInt16.ofNat rpcId, resp⟩ bytes) ∧
    ∀ (m : Machine) (buf : ℕ), buf ≠ 0 →
      ((∃ c, (compostHeaderLoad m buf).1 = .ok c) ↔ Header.Canonical (read m.mem buf 4)) ∧
      ∀ c, (compostHeaderLoad m buf).1 = .ok c → ∃ h s,
        Header.unpack (read m.mem buf 4) = .ok h ∧
        MessageHeader.parse (read m.mem buf 4) 0 = .ok s ∧ SameFields h c s := by
  refine ⟨fun wlen txn resp rpcId hid => ⟨_, rfl, codecs_headerBytes wlen txn resp (by omega)⟩,
    fun m buf hbuf => ?_⟩
  rw [compostHeaderLoad_ok_iff hbuf]
  -- without reserved flags the bytes are a header, and all that holds of headers holds of them
  have hheader : (m.mem (buf + 2)).toNat < 32 → ∃ h c s, Codecs h c s (read m.mem buf 4) ∧
      SameFields h c s := by
    intro hflags
    obtain ⟨resp, rpcId, hid, hbytes⟩ := eq_headerBytes (m.mem buf) (m.mem (buf + 1))
      (m.mem (buf + 3)) hflags
    rw [read_four, hbytes]
    exact ⟨_, _, _, codecs_headerBytes _ _ resp hid, sameFields_of_lt _ _ resp hid⟩
  refine ⟨⟨fun hflags => ?_, ?_⟩, fun c hload => ?_⟩
  · obtain ⟨h, c, s, hcodecs, -⟩ := hheader hflags
    exact ⟨h, hcodecs.unpack, hcodecs.pack⟩
  · rintro ⟨h, -, hpack⟩
    exact Header.flags_of_pack hpack
  · obtain ⟨h, c', s, hcodecs, hsame⟩ := hheader ((compostHeaderLoad_ok_iff hbuf).mp ⟨c, hload⟩)
    have hc := (hcodecs.load m buf hbuf rfl).symm.trans hload
    cases hc
    exact ⟨h, s, hcodecs.unpack, hcodecs.parse, hsame⟩

theorem header_codecs_agree_reply : ∃ bytes, bytes.length = 4 ∧
    Codecs ⟨2, 5, true, 0xABC⟩ ⟨2, 5, 0xABC, true⟩ ⟨.fromWords 2, 5, 0xABC, true⟩ bytes :=
  header_codecs_agree.1 2 5 true 0xABC (by decide)

end CompostRpc
