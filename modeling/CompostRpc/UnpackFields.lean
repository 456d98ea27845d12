import CompostRpc.UnpackPayload
import CompostRpc.WireFormat

/-!
# Single fields of a payload

`Held` says that a payload holds the pieces of some values from a bit position on. Every reader of
a single field, run on such a payload, returns the value, whatever follows the pieces.
-/

namespace CompostRpc
open ByteMemory Piece

/-- The payload holds the pieces from bit `o` on, and its byte strings are short enough for their
length prefixes. -/
structure Held (payload : List UInt8) (o : ℕ) (ps : List Piece) : Prop where
  all : AllAt (ofList payload) o ps
  inside : stopAll ps o ≤ 8 * payload.length
  short : ∀ data, .bytes data ∈ ps → data.length < 2 ^ 16 + 2

theorem Held.append {payload : List UInt8} {o : ℕ} {ps qs : List Piece}
    (h : Held payload o (ps ++ qs)) :
    Held payload o ps ∧ Held payload (stopAll ps o) qs := by
  obtain ⟨hps, hqs⟩ := (allAt_append _ _ _ _).mp h.all
  have hinside := h.inside
  rw [stopAll_append] at hinside
  exact ⟨⟨hps, (le_stopAll qs _).trans hinside, fun data hmem =>
      h.short data (List.mem_append_left qs hmem)⟩,
    ⟨hqs, hinside, fun data hmem => h.short data (List.mem_append_right ps hmem)⟩⟩

theorem Held.read {payload : List UInt8} {offset : MemUnit} {data : List UInt8}
    (h : Held payload offset.bits [.bytes data]) :
    ByteMemory.read (ofList payload) offset.bytes data.length = data ∧
      offset.bytes + data.length ≤ payload.length ∧ data.length < 2 ^ 16 + 2 := by
  have hat := h.all.1
  have hinside := h.inside
  simp only [stopAll, stop, alignUp_bits] at hinside
  refine ⟨?_, by omega, h.short data (List.mem_singleton.mpr rfl)⟩
  rw [Piece.At, alignUp_bits_div] at hat
  exact hat

theorem held_bits {payload : List UInt8} {o width v : ℕ}
    (hat : (bits width v).At (ofList payload) o) (hroom : o + width ≤ 8 * payload.length) :
    Held payload o [.bits width v] := by
  refine ⟨⟨hat, trivial⟩, hroom, ?_⟩
  intro data hdata
  cases List.mem_singleton.mp hdata

theorem Stored.held {buffer buffer' : List UInt8} {offset offset' : MemUnit} {width v : ℕ}
    (h : Stored buffer offset [.bits width v] buffer' offset')
    (hroom : offset.bits + width ≤ 8 * buffer.length) :
    Held buffer' offset.bits [.bits width v] := by
  apply held_bits
  · rw [h.memory, writeAll, writeAll]
    exact at_write _ _ _
  · rw [h.length_eq]
    exact hroom

theorem beNat_beBytes_toNat (n : Numeric) (v : BitVec n.size.bits) :
    BitVec.ofNat n.size.bits (beNat (beBytes n.size.bytes v.toNat)) = v := by
  have hpow : 256 ^ n.size.bytes = 2 ^ n.size.bits := by
    rw [n.size_bits, pow_mul]
    norm_num
  rw [beNat_beBytes, hpow, Nat.mod_eq_of_lt v.isLt, BitVec.ofNat_toNat, BitVec.setWidth_eq]

theorem unpackFrom_read {n : Numeric} {v : BitVec n.size.bits} {payload : List UInt8} {o : ℕ}
    (hread : read (ofList payload) o n.size.bytes = beBytes n.size.bytes v.toNat)
    (hinside : o + n.size.bytes ≤ payload.length) :
    unpackFrom n payload o = .ok (n.toPy v) := by
  rw [unpackFrom, if_pos hinside, ← read_ofList hinside, hread, beNat_beBytes_toNat]

theorem unpackFrom_held {n : Numeric} {v : BitVec n.size.bits} {payload : List UInt8}
    {offset : MemUnit} (h : Held payload offset.bits [.bytes (beBytes n.size.bytes v.toNat)]) :
    unpackFrom n payload offset.bytes = .ok (n.toPy v) := by
  obtain ⟨hread, hinside, -⟩ := h.read
  rw [length_beBytes] at hread hinside
  exact unpackFrom_read hread hinside

theorem unpackLength_read {payload : List UInt8} {o len : ℕ}
    (hread : read (ofList payload) o 2 = beBytes 2 len) (hinside : o + 2 ≤ payload.length)
    (hlen : len < 2 ^ 16) : unpackLength payload o = .ok len := by
  rw [unpackLength, if_pos hinside, ← read_ofList hinside, hread, beNat_beBytes,
    Nat.mod_eq_of_lt (by omega)]

theorem unpackLoop_loads {fuel pos width byteIndex acc : ℕ} {payload : List UInt8}
    (hindex : 0 < width → byteIndex = pos / 8) (hinside : pos + width ≤ 8 * payload.length) :
    unpackLoop fuel payload byteIndex pos width acc =
      .ok (loadBits fuel (ofList payload) pos width acc) := by
  induction fuel generalizing byteIndex pos width acc with
  | zero => rfl
  | succ fuel ih =>
    by_cases hw : width = 0
    · rw [unpackLoop, if_neg (by omega), loadBits, if_pos hw]
    · have hbyte := hindex (by omega)
      rw [unpackLoop, if_pos (by omega), loadBits, if_neg hw, if_pos (by omega), hbyte]
      exact ih (by intro hrem; omega) (by omega)

theorem unpackBitU_held {width v : ℕ} {payload : List UInt8} {offset : MemUnit}
    (hv : v < 2 ^ width) (h : Held payload offset.bits [.bits width v]) :
    unpackBitU width payload offset = .ok (v, offset + ⟨width⟩) := by
  have hloop : unpackLoop width payload (offset.bits / 8) offset.bits width 0 = .ok v := by
    rw [unpackLoop_loads (fun _ => rfl) h.inside, loadBits_eq_of_bits le_rfl hv h.all.1]
  rw [unpackBitU]
  exact except_bind_eq_ok.mpr ⟨v, hloop, rfl⟩

theorem counted_read {data payload : List UInt8} {offset : MemUnit}
    (h : Held payload offset.bits [counted data]) :
    unpackLength payload offset.bytes = .ok data.length ∧
      read (ofList payload) (offset.bytes + 2) data.length = data ∧
      offset.bytes + 2 + data.length ≤ payload.length := by
  obtain ⟨hread, hinside, hshort⟩ := h.read
  simp only [List.length_append, length_beBytes] at hread hinside hshort
  rw [read_append] at hread
  obtain ⟨hlen, hdata⟩ := List.append_inj hread (by rw [length_read, length_beBytes])
  exact ⟨unpackLength_read hlen (by omega) (by omega), hdata, by omega⟩

theorem stopAll_counted (data : List UInt8) (offset : MemUnit) :
    stopAll [counted data] offset.bits = (offset.bytes + 2 + data.length) * 8 := by
  simp only [stopAll, counted, stop, List.length_append, length_beBytes, alignUp_bits]
  omega

theorem unpackCounted_held {data payload : List UInt8} {offset : MemUnit}
    (h : Held payload offset.bits [counted data]) :
    unpackCounted payload offset = .ok (data, ⟨stopAll [counted data] offset.bits⟩) := by
  obtain ⟨hlength, hdata, hinside⟩ := counted_read h
  rw [read_ofList hinside] at hdata
  rw [unpackCounted, hlength]
  simp only [except_ok_bind, setBytes_bytes, hdata, stopAll_counted]
  rfl

theorem unpackElements_read {inner : Numeric} {xs : List (BitVec inner.size.bits)}
    {payload : List UInt8} {o : ℕ}
    (hread : read (ofList payload) o (xs.length * inner.size.bytes) =
      xs.flatMap fun x => beBytes inner.size.bytes x.toNat)
    (hinside : o + xs.length * inner.size.bytes ≤ payload.length) :
    unpackElements inner payload o xs.length = .ok (xs.map inner.toPy) := by
  induction xs generalizing o with
  | nil => rfl
  | cons x xs ih =>
    have hmul : (x :: xs).length * inner.size.bytes =
        inner.size.bytes + xs.length * inner.size.bytes := by
      rw [List.length_cons, Nat.succ_mul, Nat.add_comm]
    rw [hmul, read_append, List.flatMap_cons] at hread
    rw [hmul] at hinside
    obtain ⟨hhead, htail⟩ := List.append_inj hread (by rw [length_read, length_beBytes])
    have hx := unpackFrom_read (v := x) hhead (by omega)
    have hxs := ih htail (by omega)
    rw [List.length_cons, unpackElements, hx, except_ok_bind, hxs]
    rfl

theorem unpackList_held {inner : Numeric} {xs : List (BitVec inner.size.bits)}
    {payload : List UInt8} {offset : MemUnit}
    (h : Held payload offset.bits
      [counted (xs.flatMap fun x => beBytes inner.size.bytes x.toNat)]) :
    unpackList inner payload offset =
      .ok (.list (xs.map inner.toPy), ⟨stopAll
        [counted (xs.flatMap fun x => beBytes inner.size.bytes x.toNat)] offset.bits⟩) := by
  obtain ⟨hlength, hdata, hinside⟩ := counted_read h
  rw [length_flatMap_beBytes] at hlength hdata hinside
  have hcount : xs.length * inner.size.bytes / inner.size.bytes = xs.length :=
    Nat.mul_div_cancel _ inner.size_bytes_pos
  rw [unpackList, hlength]
  simp only [except_ok_bind, hcount, setBytes_bytes, unpackElements_read hdata hinside,
    stopAll_counted, length_flatMap_beBytes]
  rfl

theorem decodeUtf8_utf8 (s : String) : decodeUtf8 (utf8 s) = .ok (.str s) := by
  simp only [decodeUtf8, ofUtf8?_utf8]

/-- Decoding is the inverse of the encoding on both sides. -/
theorem utf8_of_decodeUtf8 {bytes : List UInt8} {s : String}
    (h : decodeUtf8 bytes = .ok (.str s)) : utf8 s = bytes := by
  simp only [decodeUtf8, ofUtf8?, String.fromUTF8?] at h
  split at h
  next s' hdecoded =>
    cases h
    split at hdecoded
    · cases hdecoded
      exact List.toList_toArray
    · cases hdecoded
  next => cases h

theorem unpack_str_held {s : String} {payload : List UInt8} {offset : MemUnit}
    (h : Held payload offset.bits [counted (utf8 s)]) :
    unpack payload offset .str = .ok (.str s, ⟨stopAll [counted (utf8 s)] offset.bits⟩) := by
  simp only [unpack, unpackCounted_held h, except_ok_bind, decodeUtf8_utf8]
  rfl

theorem EnumType.ofValue_of_mem {e : EnumType} {v : ℤ} {value : PyVal} (hv : v ∈ e.values)
    (hvalue : value = .int v) : e.ofValue value = .ok (.enum v) := by
  subst hvalue
  simp only [EnumType.ofValue, asInt, except_ok_bind, if_pos hv]
  rfl

/-- The raw number of an enum value reads back as the value. -/
theorem toPy_rawValue {e : EnumType} {n : Numeric} (he : e.backing.repr = .inl n) {v : ℤ}
    (hv : v ∈ e.values) :
    e.rawValue v < 2 ^ n.size.bits ∧ n.toPy (BitVec.ofNat _ (e.rawValue v)) = .int v := by
  have hpos : 0 < n.size.bits := by cases n <;> decide
  rw [rawValue_of_numeric he, BitVec.ofNat_toNat, BitVec.setWidth_eq]
  refine ⟨BitVec.isLt _, ?_⟩
  obtain ⟨-, ⟨hk, hlo, hhi⟩ | ⟨hk, hlo, hhi⟩⟩ := (e.inRange_of_mem hv).numeric he
  · simp only [Numeric.toPy, hk, BitVec.toInt_ofInt_eq_self hpos hlo hhi]
  · have hsame : ((BitVec.ofInt n.size.bits v).toNat : ℤ) = v := by
      rw [BitVec.toNat_ofInt, Int.toNat_of_nonneg (Int.emod_nonneg _ (by positivity))]
      exact Int.emod_eq_of_lt hlo (by exact_mod_cast hhi)
    simp only [Numeric.toPy, hk, hsame]

end CompostRpc
