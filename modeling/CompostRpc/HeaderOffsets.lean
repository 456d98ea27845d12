import CompostRpc.HeaderAgreement

/-!
# C# headers at an offset of a buffer

`MessageHeader.write` checks the room at the offset and then writes the four bytes to the start of
the buffer, while `MessageHeader.parse` reads at the offset. At an offset other than zero the header
is found again, with the rest of the buffer untouched, only where it had been there before.
-/

namespace CompostRpc
namespace MessageHeader

/-- The header of a message: a whole number of at most 255 words and an identifier of 12 bits. -/
structure Fits (h : MessageHeader) : Prop where
  len_eq : h.len = .fromWords h.len.words
  words_le : h.len.words ≤ 255
  rpcId_le : h.rpcId.toNat ≤ 0xFFF

def bytes (h : MessageHeader) : List UInt8 :=
  headerBytes (UInt8.ofNat h.len.words) h.txn h.resp h.rpcId.toNat

/-- The header is read back at the offset, and the bytes around it are as they were. -/
structure WrittenAt (h : MessageHeader) (buffer : List UInt8) (offset : ℕ) : Prop where
  parse_eq : parse (h.write buffer offset) offset = .ok h
  frame : ∀ i, ¬ (offset ≤ i ∧ i < offset + 4) → (h.write buffer offset)[i]? = buffer[i]?

/-- The bits of a header byte that `parse` reads; three flags of the third byte are reserved. -/
def readMask (j : ℕ) : UInt8 := if j = 2 then 0x1F else 0xFF

def ReadsAs (h : MessageHeader) (j : ℕ) (b : UInt8) : Prop := b &&& readMask j = h.bytes.getD j 0

/-- In front of the offset the buffer has the bytes of the header, and behind it, where the bytes of
a header at the start end before the fourth one, it has what is read as the rest. -/
structure AlreadyAt (h : MessageHeader) (buffer : List UInt8) (offset : ℕ) : Prop where
  front : ∀ i < min offset 4, buffer.getD i 0 = h.bytes.getD i 0
  there : ∀ j < 4, h.ReadsAs j
    (if offset + j < 4 then h.bytes.getD (offset + j) 0 else buffer.getD (offset + j) 0)

theorem reserved_bits : ∀ b : Fin 256,
    UInt8.ofNat b &&& 0x1F &&& 0xF = UInt8.ofNat b &&& 0xF ∧
      ((UInt8.ofNat b &&& 0x1F) >>> 4) &&& (1 : UInt8) = (UInt8.ofNat b >>> 4) &&& (1 : UInt8) ∧
      (UInt8.ofNat b &&& 0x1F).toNat < 32 := by decide +kernel

theorem getElem?_eq_getD {buffer : List UInt8} {i : ℕ} (hi : i < buffer.length) :
    buffer[i]? = some (buffer.getD i 0) := by
  rw [List.getD_eq_getElem?_getD, List.getElem?_eq_getElem hi]
  rfl

/-- The reserved flags do not matter. -/
theorem parse_eq_masked {buffer : List UInt8} {offset : ℕ} (hroom : offset + 4 ≤ buffer.length) :
    parse buffer offset = parse [buffer.getD offset 0, buffer.getD (offset + 1) 0,
      buffer.getD (offset + 2) 0 &&& 0x1F, buffer.getD (offset + 3) 0] 0 := by
  obtain ⟨hlow, hflag, -⟩ := reserved_bits ⟨(buffer.getD (offset + 2) 0).toNat, UInt8.toNat_lt _⟩
  simp only [UInt8.ofNat_toNat] at hlow hflag
  simp only [parse, getElem?_eq_getD (show offset < buffer.length by omega),
    getElem?_eq_getD (show offset + 1 < buffer.length by omega),
    getElem?_eq_getD (show offset + 2 < buffer.length by omega),
    getElem?_eq_getD (show offset + 3 < buffer.length by omega), List.getElem?_cons_zero,
    List.getElem?_cons_succ, Nat.zero_add, hlow, hflag]

theorem readsAs_iff (h : MessageHeader) (buffer : List UInt8) (offset : ℕ) :
    (∀ j < 4, h.ReadsAs j (buffer.getD (offset + j) 0)) ↔
      [buffer.getD offset 0, buffer.getD (offset + 1) 0, buffer.getD (offset + 2) 0 &&& 0x1F,
        buffer.getD (offset + 3) 0] = h.bytes := by
  have hall : ∀ b : UInt8, b &&& 0xFF = b := fun b => UInt8.and_neg_one
  have hindex : ∀ P : ℕ → Prop, (∀ j < 4, P j) ↔ P 0 ∧ P 1 ∧ P 2 ∧ P 3 := by
    intro P
    simp only [Nat.forall_lt_succ_right, Nat.not_lt_zero, false_implies, implies_true, true_and,
      and_assoc]
  rw [hindex]
  simp only [ReadsAs, readMask, bytes, headerBytes, List.cons.injEq, and_true]
  simp only [show (0 : ℕ) ≠ 2 by decide, show (1 : ℕ) ≠ 2 by decide, show (3 : ℕ) ≠ 2 by decide,
    if_true, if_false, hall, List.getD_cons_zero, List.getD_cons_succ, Nat.add_zero]

theorem parse_bytes {h : MessageHeader} (hfits : h.Fits) : parse h.bytes 0 = .ok h := by
  have hread := @parse_headerBytes (UInt8.ofNat h.len.words) h.txn h.resp h.rpcId.toNat
    (Nat.lt_succ_of_le hfits.rpcId_le) []
  have hwords : (UInt8.ofNat h.len.words).toNat = h.len.words := by
    have hle := hfits.words_le
    rw [UInt8.toNat_ofNat']
    omega
  rw [List.append_nil, hwords, ← hfits.len_eq, UInt16.ofNat_toNat] at hread
  exact hread

theorem parse_eq_ok_iff {h : MessageHeader} (hfits : h.Fits) {buffer : List UInt8} {offset : ℕ}
    (hroom : offset + 4 ≤ buffer.length) :
    parse buffer offset = .ok h ↔ ∀ j < 4, h.ReadsAs j (buffer.getD (offset + j) 0) := by
  rw [readsAs_iff, parse_eq_masked hroom]
  constructor
  · intro hparse
    obtain ⟨-, -, hflags⟩ :=
      reserved_bits ⟨(buffer.getD (offset + 2) 0).toNat, UInt8.toNat_lt _⟩
    simp only [UInt8.ofNat_toNat] at hflags
    obtain ⟨resp, rpcId, hid, hbytes⟩ := eq_headerBytes (buffer.getD offset 0)
      (buffer.getD (offset + 1) 0) (buffer.getD (offset + 3) 0) hflags
    have hread := @parse_headerBytes (buffer.getD offset 0) (buffer.getD (offset + 1) 0) resp
      rpcId hid []
    rw [List.append_nil, ← hbytes, hparse] at hread
    obtain rfl := Except.ok.inj hread
    have hlow : (UInt16.ofNat rpcId).toNat = rpcId := by
      rw [UInt16.toNat_ofNat']
      omega
    rw [hbytes, bytes, BufferUnit.words_fromWords, UInt8.ofNat_toNat, hlow]
  · intro hbytes
    rw [hbytes]
    exact parse_bytes hfits

/-- The offset decides only whether the header is written. -/
theorem write_eq {h : MessageHeader} (hfits : h.Fits) {buffer : List UInt8} {offset : ℕ}
    (hroom : offset + 4 ≤ buffer.length) : h.write buffer offset = h.bytes ++ buffer.drop 4 := by
  have hid : h.rpcId.toNat < 4096 := Nat.lt_succ_of_le hfits.rpcId_le
  have hsize : headerSize.bytes = 4 := rfl
  have hhere : ¬ buffer.length < offset + headerSize.bytes := by omega
  have hstart : ¬ buffer.length < 0 + headerSize.bytes := by omega
  have hwrite := @write_headerBytes h.len h.txn h.resp _ hid buffer (by omega)
  rw [UInt16.ofNat_toNat, write, if_neg hstart] at hwrite
  rw [write, if_neg hhere]
  exact hwrite

theorem length_write_eq {h : MessageHeader} (hfits : h.Fits) {buffer : List UInt8} {offset : ℕ}
    (hroom : offset + 4 ≤ buffer.length) : (h.write buffer offset).length = buffer.length := by
  have hlength : h.bytes.length = 4 := rfl
  rw [write_eq hfits hroom, List.length_append, List.length_drop]
  omega

theorem getD_write {h : MessageHeader} (hfits : h.Fits) {buffer : List UInt8} {offset : ℕ}
    (hroom : offset + 4 ≤ buffer.length) (i : ℕ) :
    (h.write buffer offset).getD i 0 = if i < 4 then h.bytes.getD i 0 else buffer.getD i 0 := by
  have hlength : h.bytes.length = 4 := rfl
  rw [write_eq hfits hroom]
  split
  · rw [List.getD_append _ _ _ _ (by omega)]
  · rw [List.getD_append_right _ _ _ _ (by omega), hlength, List.getD_eq_getElem?_getD,
      List.getElem?_drop, Nat.add_sub_cancel' (by omega), List.getD_eq_getElem?_getD]

theorem frame_iff {h : MessageHeader} (hfits : h.Fits) {buffer : List UInt8} {offset : ℕ}
    (hroom : offset + 4 ≤ buffer.length) :
    (∀ i, ¬ (offset ≤ i ∧ i < offset + 4) → (h.write buffer offset)[i]? = buffer[i]?) ↔
      ∀ i < min offset 4, buffer.getD i 0 = h.bytes.getD i 0 := by
  have hlength := length_write_eq hfits hroom
  have hbyte : ∀ i < buffer.length, (h.write buffer offset)[i]? = buffer[i]? ↔
      (if i < 4 then h.bytes.getD i 0 else buffer.getD i 0) = buffer.getD i 0 := by
    intro i hi
    rw [getElem?_eq_getD hi, getElem?_eq_getD (hlength.symm ▸ hi), getD_write hfits hroom,
      Option.some.injEq]
  constructor
  · intro hframe i hi
    have hsame := (hbyte i (by omega)).mp (hframe i (by omega))
    rw [if_pos (by omega)] at hsame
    exact hsame.symm
  · intro hfront i hi
    rcases Nat.lt_or_ge i buffer.length with hlt | hge
    · apply (hbyte i hlt).mpr
      split
      · exact (hfront i (by omega)).symm
      · rfl
    · rw [List.getElem?_eq_none hge, List.getElem?_eq_none (hlength.symm ▸ hge)]

/-- A header is written at an offset only if this is the start of the buffer or the header is there
already. -/
theorem writtenAt_iff {h : MessageHeader} (hfits : h.Fits) {buffer : List UInt8} {offset : ℕ}
    (hroom : offset + 4 ≤ buffer.length) :
    h.WrittenAt buffer offset ↔ offset = 0 ∨ h.AlreadyAt buffer offset := by
  have hlength := length_write_eq hfits hroom
  have hparse := @parse_eq_ok_iff h hfits (h.write buffer offset) offset (hlength.symm ▸ hroom)
  simp only [getD_write hfits hroom] at hparse
  have hframe := frame_iff hfits hroom
  constructor
  · rintro ⟨hread, hsame⟩
    exact .inr ⟨hframe.mp hsame, hparse.mp hread⟩
  · rintro (rfl | ⟨hfront, hthere⟩)
    · have hread := (@parse_eq_ok_iff h hfits h.bytes 0 le_rfl).mp (parse_bytes hfits)
      refine ⟨hparse.mpr fun j hj => ?_, hframe.mpr fun i hi => ?_⟩
      · rw [if_pos (by omega)]
        exact hread j hj
      · omega
    · exact ⟨hparse.mpr hthere, hframe.mpr hfront⟩

theorem writtenAt_start : WrittenAt ⟨.fromWords 2, 5, 0xABC, true⟩ [0, 0, 0, 0, 1] 0 :=
  (@writtenAt_iff ⟨.fromWords 2, 5, 0xABC, true⟩ ⟨rfl, by decide, by decide⟩ [0, 0, 0, 0, 1] 0
    (by decide)).mpr (.inl rfl)

/-- A header for the second half of a buffer ends up in the first half. -/
theorem not_writtenAt_second_half :
    write ⟨.fromWords 2, 5, 0xABC, true⟩ [0, 0, 0, 0, 0, 0, 0, 0] 4 =
        [2, 5, 0x1A, 0xBC, 0, 0, 0, 0] ∧
      ¬ WrittenAt ⟨.fromWords 2, 5, 0xABC, true⟩ [0, 0, 0, 0, 0, 0, 0, 0] 4 := by
  refine ⟨by decide, fun h => ?_⟩
  exact absurd (h.frame 0 (by decide)) (by decide)

end MessageHeader
end CompostRpc
