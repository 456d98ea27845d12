import CompostRpc.NestedBitFields
import CompostRpc.PayloadLayout
import CompostRpc.RoundTrip

/-!
# Strings between C# and Python

A C# string is a sequence of UTF-16 code units, of which `Serialize` writes the low bytes, and
`Deserialize` makes a code unit of every byte. Python encodes a string as UTF-8. The two encodings
of a character have the same length exactly if it is an ASCII character, and there they have the
same numbers.
-/

namespace CompostRpc
open ByteMemory Piece Serialization

def utf16Char (c : Char) : List UInt16 :=
  if c.toNat < 0x10000 then [UInt16.ofNat c.toNat]
  else
    let rest := c.toNat - 0x10000
    [UInt16.ofNat (0xD800 + rest / 0x400), UInt16.ofNat (0xDC00 + rest % 0x400)]

def utf16 (s : String) : List UInt16 := s.toList.flatMap utf16Char

theorem utf8_eq_flatMap (s : String) : utf8 s = s.toList.flatMap String.utf8EncodeChar := by
  rw [utf8, ← String.utf8Encode_toList, List.utf8Encode]
  simp

theorem utf8Size_eq_one_iff (c : Char) : c.utf8Size = 1 ↔ c.toNat < 128 := by
  rw [Char.utf8Size_eq_one_iff, UInt32.le_iff_toNat_le]
  exact Nat.lt_succ_iff.symm

/-- The encodings of a character have the same length for an ASCII character only. -/
theorem length_utf16Char_le (c : Char) : (utf16Char c).length ≤ c.utf8Size ∧
    ((utf16Char c).length = c.utf8Size ↔ c.toNat < 128) := by
  have hpos := c.utf8Size_pos
  rw [← utf8Size_eq_one_iff, utf16Char]
  by_cases hsmall : c.toNat < 0x10000
  · rw [if_pos hsmall, List.length_singleton]
    exact ⟨hpos, eq_comm⟩
  · have hfour : c.utf8Size = 4 := by
      rw [Char.utf8Size_eq_four_iff, UInt32.lt_iff_toNat_lt]
      exact Nat.lt_of_not_le fun hle => hsmall (Nat.lt_succ_of_le hle)
    rw [if_neg hsmall, hfour]
    simp

theorem length_utf16_le (cs : List Char) :
    (cs.flatMap utf16Char).length ≤ (cs.flatMap String.utf8EncodeChar).length ∧
      ((cs.flatMap utf16Char).length = (cs.flatMap String.utf8EncodeChar).length ↔
        ∀ c ∈ cs, c.toNat < 128) := by
  induction cs with
  | nil => simp
  | cons c cs ih =>
    obtain ⟨hle, hiff⟩ := length_utf16Char_le c
    obtain ⟨hle', hiff'⟩ := ih
    simp only [List.flatMap_cons, List.length_append, String.length_utf8EncodeChar,
      List.forall_mem_cons, ← hiff, ← hiff']
    omega

theorem utf16Char_ascii {c : Char} (h : c.toNat < 128) :
    utf16Char c = [UInt16.ofNat c.toNat] ∧ String.utf8EncodeChar c = [UInt8.ofNat c.toNat] := by
  refine ⟨if_pos (by omega), ?_⟩
  rw [String.utf8EncodeChar_eq_singleton ((utf8Size_eq_one_iff c).mpr h)]
  rfl

/-- The code units of a string of ASCII characters are its bytes. -/
theorem utf16_ascii {s : String} (h : ∀ c ∈ s.toList, c.toNat < 128) :
    (utf16 s).map UInt16.toUInt8 = utf8 s ∧ (utf8 s).map UInt8.toUInt16 = utf16 s := by
  rw [utf8_eq_flatMap, utf16]
  generalize s.toList = cs at h ⊢
  induction cs with
  | nil => exact ⟨rfl, rfl⟩
  | cons c cs ih =>
    rw [List.forall_mem_cons] at h
    obtain ⟨hunits, hbytes⟩ := utf16Char_ascii h.1
    obtain ⟨hdown, hup⟩ := ih h.2
    have hbyte : (UInt16.ofNat c.toNat).toUInt8 = UInt8.ofNat c.toNat := by
      apply UInt8.toNat_inj.mp
      simp only [UInt16.toNat_toUInt8, UInt16.toNat_ofNat', UInt8.toNat_ofNat']
      omega
    have hunit : (UInt8.ofNat c.toNat).toUInt16 = UInt16.ofNat c.toNat := by
      apply UInt16.toNat_inj.mp
      simp only [UInt8.toNat_toUInt16, UInt16.toNat_ofNat', UInt8.toNat_ofNat']
      omega
    rw [List.flatMap_cons, List.flatMap_cons, List.map_append, List.map_append, hunits, hbytes,
      hdown, hup, List.map_singleton, List.map_singleton, hbyte, hunit]
    exact ⟨rfl, rfl⟩

theorem string_layout {units : List UInt16} (hlen : units.length < 2 ^ 16) :
    SameLayout (csPieces .string units) [counted (units.map UInt16.toUInt8)] := by
  have hlayout := sameLayout_flatMap (fun c => [UInt16.toUInt8 c]) (beBytes 2 units.length) units
  have hmap : units.flatMap (fun c => [UInt16.toUInt8 c]) = units.map UInt16.toUInt8 :=
    List.map_eq_flatMap.symm
  rw [hmap] at hlayout
  change SameLayout (bytes (beBytes 2 (UInt16.ofNat units.length).toNat) ::
    (units.take (UInt16.ofNat units.length).toNat).flatMap _) _
  rw [take_ofNat_length hlen, toNat_ofNat_length hlen, counted, List.length_map]
  exact hlayout

def serializedString (s : String) : Except CsError (List UInt8) := do
  let size ← getObjectSize .string (utf16 s)
  let (buffer, _) ← serialize .string (utf16 s) (List.replicate size.bytes 0) ⟨0⟩
  return buffer

theorem fromBytes_bytes (n : ℕ) : (MemUnit.fromBytes n).bytes = n := by
  simp only [MemUnit.bytes_eq, MemUnit.fromBytes, MemUnit.bitsPerByte]
  omega

theorem write_zero (data : List UInt8) : ByteMemory.write (fun _ => 0) 0 data = ofList data := by
  funext i
  by_cases hi : i < data.length
  · exact write_of_mem _ (Nat.zero_le i) (by omega)
  · rw [write_of_ge _ _ (by omega)]
    exact (List.getD_eq_default _ _ (by omega)).symm

theorem serializedString_eq {s : String} (hlen : (utf16 s).length < 2 ^ 16) :
    serializedString s =
      .ok (beBytes 2 (utf16 s).length ++ (utf16 s).map UInt16.toUInt8) := by
  generalize hdata : beBytes 2 (utf16 s).length ++ (utf16 s).map UInt16.toUInt8 = data
  have hlength : data.length = (utf16 s).length + 2 := by
    rw [← hdata, List.length_append, length_beBytes, List.length_map, Nat.add_comm]
  have hlayout : SameLayout (csPieces .string (utf16 s)) [bytes data] := by
    have hcounted := string_layout hlen
    rwa [counted, List.length_map, hdata] at hcounted
  have hplaces := serialize_places .string (utf16 s) trivial
    (List.replicate ((utf16 s).length + 2) 0) ⟨0⟩
  have hstop : stopAll (csPieces .string (utf16 s)) 0 = 8 * data.length := by
    rw [hlayout.stops]
    simp only [stopAll, stop, alignUp]
    omega
  obtain ⟨r, hr⟩ := hplaces.returns (by rw [hstop, List.length_replicate, hlength])
  have hstored := hplaces.stored r hr
  have hbytes : r.1 = data := by
    apply eq_of_ofList
    · rw [hstored.length_eq, List.length_replicate, hlength]
    · rw [hstored.memory, hlayout.writes, ofList_replicate]
      exact write_zero data
  have hsize : getObjectSize .string (utf16 s) =
      .ok (MemUnit.fromBytes ((utf16 s).length + 2)) := rfl
  rw [serializedString, hsize, except_ok_bind, fromBytes_bytes, hr]
  exact congrArg Except.ok hbytes

theorem copyBytes_read {src : List UInt8} {start n : ℕ} (h : start + n ≤ src.length) :
    copyBytes src start (List.replicate n 0) 0 n = .ok (((src.drop start).take n).reverse, n) := by
  have hdest : 0 + n ≤ (List.replicate n (0 : UInt8)).length := by
    rw [List.length_replicate, Nat.zero_add]
  obtain ⟨hcopy, hlength⟩ := copyLoop_writes h hdest
  have hbytes : copyLoop src (List.replicate n 0) start (0 + n - 1) n =
      ((src.drop start).take n).reverse := by
    apply eq_of_ofList
    · rw [hlength, List.length_replicate, List.length_reverse, List.length_take, List.length_drop]
      omega
    · rw [hcopy, ofList_replicate, write_zero]
  rw [copyBytes, if_neg (by rw [List.length_replicate]; omega), hbytes, Nat.zero_add]

theorem deserializePrimitive_num {n : Numeric} {v : BitVec n.size.bits} {buffer : List UInt8}
    {offset : BufferUnit}
    (hread : read (ofList buffer) offset.bytes n.size.bytes = beBytes n.size.bytes v.toNat)
    (hinside : offset.bytes + n.size.bytes ≤ buffer.length) :
    deserializePrimitive (.num n) buffer offset = .ok (v, offset + n.size) := by
  rw [read_ofList hinside] at hread
  simp only [deserializePrimitive, getTypeSize, except_ok_bind, copyBytes_read hinside,
    primitiveTypeDeser, List.reverse_reverse, hread, beNat_beBytes_toNat]
  rfl

theorem deserializePrimitive_char {buffer : List UInt8} {offset : BufferUnit}
    (h : offset.bytes < buffer.length) : deserializePrimitive .char buffer offset =
      .ok ((buffer.getD offset.bytes 0).toUInt16, offset + ⟨8⟩) := by
  have hread : (buffer.drop offset.bytes).take 1 = [buffer.getD offset.bytes 0] := by
    rw [List.drop_eq_getElem_cons h, List.take_succ_cons, List.take_zero,
      List.getD_eq_getElem _ _ h]
  have hcopy := copyBytes_read (show offset.bytes + 1 ≤ buffer.length from h)
  rw [hread] at hcopy
  simp only [deserializePrimitive, getTypeSize, except_ok_bind, fromBytes_bytes, hcopy,
    primitiveTypeDeser]
  rfl

theorem deserialize_chars {buffer : List UInt8} {count : ℕ} {offset : BufferUnit}
    (h : offset.bytes + count ≤ buffer.length) :
    deserializeEach (deserializePrimitive .char buffer) count offset =
      .ok (((buffer.drop offset.bytes).take count).map UInt8.toUInt16,
        ⟨offset.bits + 8 * count⟩) := by
  induction count generalizing offset with
  | zero => rfl
  | succ count ih =>
    have hlt : offset.bytes < buffer.length := by omega
    have hnext : (offset + ⟨8⟩).bytes = offset.bytes + 1 := by
      simp only [MemUnit.bytes_eq, MemUnit.add_bits]
      omega
    have hrest := ih (show (offset + ⟨8⟩).bytes + count ≤ buffer.length by omega)
    have hcons : (buffer.drop offset.bytes).take (count + 1) =
        buffer.getD offset.bytes 0 :: (buffer.drop (offset.bytes + 1)).take count := by
      rw [List.drop_eq_getElem_cons hlt, List.take_succ_cons, List.getD_eq_getElem _ _ hlt]
    have hstop : (offset + ⟨8⟩).bits + 8 * count = offset.bits + 8 * (count + 1) := by
      simp only [MemUnit.add_bits]
      omega
    rw [hnext, hstop] at hrest
    rw [deserializeEach, deserializePrimitive_char hlt, except_ok_bind]
    simp only [hrest, hcons]
    rfl

/-- `Deserialize` makes a code unit of every byte of a counted field. -/
theorem deserialize_string {data payload : List UInt8} (h : Held payload 0 [counted data]) :
    deserialize .string payload ⟨0⟩ =
      .ok (data.map UInt8.toUInt16, ⟨16 + 8 * data.length⟩) := by
  have hheld : Held payload (MemUnit.bits ⟨0⟩) [counted data] := h
  obtain ⟨hread, hinside, hshort⟩ := hheld.read
  simp only [List.length_append, length_beBytes] at hread hinside hshort
  rw [read_append] at hread
  obtain ⟨hcount, hdata⟩ := List.append_inj hread (by rw [length_read, length_beBytes])
  have hsmall : data.length < 2 ^ 16 := by omega
  have hroom : 2 + data.length ≤ payload.length := by
    change 0 + (2 + data.length) ≤ payload.length at hinside
    omega
  have hunits : (BitVec.ofNat 16 data.length).toNat = data.length := by
    rw [BitVec.toNat_ofNat, Nat.mod_eq_of_lt hsmall]
  have hlength : deserializePrimitive (.num .u16) payload ⟨0⟩ =
      .ok (BitVec.ofNat 16 data.length, ⟨16⟩) := by
    apply deserializePrimitive_num
    · change read _ _ 2 = beBytes 2 (BitVec.ofNat 16 data.length).toNat
      rw [hunits]
      exact hcount
    · change 0 + 2 ≤ payload.length
      omega
  have hinside' : MemUnit.bytes ⟨16⟩ + data.length ≤ payload.length := hroom
  have hchars := deserialize_chars hinside'
  have hcall : deserialize .string payload ⟨0⟩ =
      deserializeEach (deserializePrimitive .char payload)
        (BitVec.ofNat 16 data.length).toNat ⟨16⟩ := by
    simp only [deserialize, deserializeLength, hlength, except_ok_bind]
    rfl
  have hbytes : (payload.drop 2).take data.length = data := by
    rw [← read_ofList hroom]
    exact hdata
  rw [hcall, hunits, hchars]
  exact congrArg (fun bytes => Except.ok (bytes.map UInt8.toUInt16, _)) hbytes

theorem exists_packMembers_str {s : String} {buffer : List UInt8}
    (hlen : (utf8 s).length < 2 ^ 16) (hroom : 2 + (utf8 s).length ≤ buffer.length) :
    ∃ r, packMembers buffer ⟨0⟩ (.ofTypes [.str]) [.str s] = .ok r := by
  have hzero : (⟨0⟩ : MemUnit).bytes = 0 := rfl
  rw [← Nat.zero_add 2, ← hzero] at hroom
  obtain ⟨r, hr⟩ := exists_packCounted hlen hroom
  have hpack : pack buffer ⟨0⟩ .str (.str s) = .ok r := by
    rw [pack, strEncode, except_ok_bind]
    exact hr
  exact ⟨r, except_bind_eq_ok.mpr ⟨r, hpack, rfl⟩⟩

/-- There is room for the string in the buffer of `pack_payload`. -/
theorem exists_packPayload_str {s : String} (hlen : (utf8 s).length ≤ 1018) :
    ∃ payload, packPayload (.ofTypes [.str]) [.str s] = .ok payload := by
  have hroom : 2 + (utf8 s).length ≤ (List.replicate scratchSize (0 : UInt8)).length := by
    rw [List.length_replicate, scratchSize]
    omega
  obtain ⟨r, hr⟩ := exists_packMembers_str (by omega) hroom
  refine ⟨r.1.take r.2.bytes, ?_⟩
  simp only [packPayload]
  split_ifs with hcount
  · exact absurd rfl hcount
  · rw [hr]
    rfl

theorem held_counted {data : List UInt8} (hlen : data.length < 2 ^ 16) (trailing : List UInt8) :
    Held (beBytes 2 data.length ++ data ++ trailing) 0 [counted data] := by
  have hlength : (beBytes 2 data.length ++ data).length = 2 + data.length := by
    rw [List.length_append, length_beBytes]
  generalize hfield : beBytes 2 data.length ++ data = field at *
  have hread : read (ofList (field ++ trailing)) 0 field.length = field := by
    have hinside : 0 + field.length ≤ (field ++ trailing).length := by
      rw [List.length_append]
      omega
    rw [read_ofList hinside, List.drop_zero, List.take_left]
  refine ⟨⟨?_, trivial⟩, ?_, fun d hd => ?_⟩
  · rw [counted, hfield]
    exact hread
  · simp only [stopAll, counted, hfield, stop, alignUp, List.length_append]
    omega
  · rw [counted, hfield] at hd
    cases List.mem_singleton.mp hd
    omega

def ReadInPython (s : String) (trailing : List UInt8) : Prop :=
  ∃ written, serializedString s = .ok written ∧
    unpackPayload (.ofTypes [.str]) (written ++ trailing) = .ok [.str s]

def ReadInCSharp (s : String) (trailing : List UInt8) : Prop :=
  ∃ payload next, packPayload (.ofTypes [.str]) [.str s] = .ok payload ∧
    deserialize .string (payload ++ trailing) ⟨0⟩ = .ok (utf16 s, next)

theorem readInPython_iff_ascii {s : String} (hlen : (utf8 s).length ≤ 1018)
    (trailing : List UInt8) : ReadInPython s trailing ↔ ∀ c ∈ s.toList, c.toNat < 128 := by
  obtain ⟨hle, hiff⟩ := length_utf16_le s.toList
  rw [← utf8_eq_flatMap] at hle hiff
  change (utf16 s).length ≤ _ at hle
  change (utf16 s).length = _ ↔ _ at hiff
  have hsmall : (utf16 s).length < 2 ^ 16 := by omega
  generalize hdata : (utf16 s).map UInt16.toUInt8 = data
  have hlength : data.length = (utf16 s).length := by rw [← hdata, List.length_map]
  have hwritten := serializedString_eq hsmall
  rw [hdata, ← hlength] at hwritten
  have hheld := held_counted (hlength ▸ hsmall) trailing
  constructor
  · rintro ⟨written, hserialize, hread⟩
    cases hwritten.symm.trans hserialize
    obtain ⟨offset, hunpack⟩ := unpackPayload_one.mp hread
    obtain ⟨⟨d, o⟩, hcounted, hdecode⟩ := except_bind_eq_ok.mp hunpack
    cases (unpackCounted_held hheld).symm.trans hcounted
    obtain ⟨v, hv, heq⟩ := except_bind_eq_ok.mp hdecode
    cases heq
    have hself := utf8_of_decodeUtf8 hv
    exact hiff.mp (by rw [hself, hlength])
  · intro hascii
    have hself : data = utf8 s := hdata.symm.trans (utf16_ascii hascii).1
    rw [hself] at hwritten hheld
    exact ⟨_, hwritten, unpackPayload_one.mpr ⟨_, unpack_str_held hheld⟩⟩

theorem readInCSharp_iff_ascii {s : String} (hlen : (utf8 s).length ≤ 1018)
    (trailing : List UInt8) : ReadInCSharp s trailing ↔ ∀ c ∈ s.toList, c.toNat < 128 := by
  obtain ⟨-, hiff⟩ := length_utf16_le s.toList
  rw [← utf8_eq_flatMap] at hiff
  obtain ⟨payload, hpack⟩ := exists_packPayload_str hlen
  have hheld : Held (payload ++ trailing) 0 (piecesMembers (.ofTypes [.str]) (s, ())) :=
    packPayload_held trailing hpack
  have hread := deserialize_string hheld
  constructor
  · rintro ⟨payload', next, hpack', hdeserialize⟩
    cases hpack.symm.trans hpack'
    obtain ⟨hunits, -⟩ := Prod.mk.inj (Except.ok.inj (hread.symm.trans hdeserialize))
    have hlength := congrArg List.length hunits
    rw [List.length_map] at hlength
    exact hiff.mp hlength.symm
  · intro hascii
    rw [(utf16_ascii hascii).2] at hread
    exact ⟨payload, _, hpack, hread⟩

/-- A string passes both ways exactly if all of its characters are ASCII characters. -/
theorem survives_iff_ascii {s : String} (hlen : (utf8 s).length ≤ 1018) (trailing : List UInt8) :
    ReadInPython s trailing ∧ ReadInCSharp s trailing ↔ ∀ c ∈ s.toList, c.toNat < 128 := by
  rw [readInPython_iff_ascii hlen, readInCSharp_iff_ascii hlen, and_self]

theorem survives_secret : ReadInPython "secret" [0, 0] ∧ ReadInCSharp "secret" [0, 0] := by
  have hlen : (utf8 "secret").length ≤ 1018 := by decide +kernel
  have hascii : ∀ c ∈ "secret".toList, c.toNat < 128 := by simp
  exact (survives_iff_ascii hlen [0, 0]).mpr hascii

/-- The low bytes of the two surrogates are ASCII characters, and the bytes of the UTF-8 encoding
are read as characters of their own. -/
theorem not_survives_emoji :
    serializedString "😘" = .ok [0, 2, 0x3D, 0x18] ∧
      (∃ offset, unpack [0, 2, 0x3D, 0x18] ⟨0⟩ .str = .ok (.str "=\x18", offset)) ∧
      packPayload (.ofTypes [.str]) [.str "😘"] = .ok [0, 4, 0xF0, 0x9F, 0x98, 0x98] ∧
      deserialize .string [0, 4, 0xF0, 0x9F, 0x98, 0x98] ⟨0⟩ =
        .ok ([0xF0, 0x9F, 0x98, 0x98], ⟨48⟩) ∧
      ¬ (ReadInPython "😘" [] ∧ ReadInCSharp "😘" []) := by
  have hwritten : serializedString "😘" = .ok [0, 2, 0x3D, 0x18] := by decide +kernel
  have hpacked : packPayload (.ofTypes [.str]) [.str "😘"] = .ok [0, 4, 0xF0, 0x9F, 0x98, 0x98] := by
    decide +kernel
  have hread : deserialize .string [0, 4, 0xF0, 0x9F, 0x98, 0x98] ⟨0⟩ =
      .ok ([0xF0, 0x9F, 0x98, 0x98], ⟨48⟩) := by
    have hlen : [0xF0, 0x9F, 0x98, (0x98 : UInt8)].length < 2 ^ 16 := by decide
    exact deserialize_string (held_counted hlen [])
  have hheld : Held [0, 2, 0x3D, 0x18] (MemUnit.bits ⟨0⟩) [counted (utf8 "=\x18")] := by
    have hbytes : utf8 "=\x18" = [0x3D, 0x18] := by decide +kernel
    have hlen : [0x3D, (0x18 : UInt8)].length < 2 ^ 16 := by decide
    rw [hbytes]
    exact held_counted hlen []
  refine ⟨hwritten, ⟨_, unpack_str_held hheld⟩, hpacked, hread, ?_⟩
  rintro ⟨-, payload, next, hpack, hdeserialize⟩
  cases hpacked.symm.trans hpack
  obtain ⟨hunits, -⟩ := Prod.mk.inj (Except.ok.inj (hread.symm.trans hdeserialize))
  have hdiffers : ([0xF0, 0x9F, 0x98, 0x98] : List UInt16) ≠ utf16 "😘" := by decide
  exact hdiffers hunits

end CompostRpc
