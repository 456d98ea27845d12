import CompostRpc.BitLayout
import CompostRpc.PackPayload

/-!
# The wire format and the Python writer

`pieces t v` is the format itself: the bit fields and byte strings that stand for the value `v` of
type `t`, with an alignment in front of every struct. The theorem `packMembers_writes` says that
the recursive writer, whenever it returns, stores exactly these pieces at its running offset and
ends where they end.
-/

namespace CompostRpc
open ByteMemory Piece

def EnumType.rawValue (e : EnumType) (v : ℤ) : ℕ :=
  match e.backing.repr with
  | .inl n => (v % 2 ^ n.size.bits).toNat
  | .inr _ => v.toNat

def counted (data : List UInt8) : Piece := .bytes (beBytes 2 data.length ++ data)

mutual

def pieces : (t : WireType) → Value t → List Piece
  | .num n, v => [.bytes (beBytes n.size.bytes (BitVec.toNat v))]
  | .str, s => [counted (utf8 s)]
  | .bytes, b => [counted b]
  | .list inner, xs => [counted (List.flatMap (fun x => beBytes inner.size.bytes x.toNat) xs)]
  | .bitU width, v => [.bits width (BitVec.toNat v)]
  | .enum e, v =>
    match e.backing.repr with
    | .inl n => [.bytes (beBytes n.size.bytes (e.rawValue v.val))]
    | .inr width => [.bits width (e.rawValue v.val)]
  | .struct _ members, vs => .bytes [] :: piecesMembers members vs

def piecesMembers : (ms : Members) → Values ms → List Piece
  | .nil, _ => []
  | .cons _ t rest, v => pieces t v.1 ++ piecesMembers rest v.2

end

theorem structPack_toPy (n : Numeric) (v : BitVec n.size.bits) :
    structPack n (n.toPy v) = .ok (beBytes n.size.bytes v.toNat) := by
  have hlt := v.isLt
  unfold Numeric.toPy
  cases hk : n.kind with
  | unsigned =>
    have hrange : (0 : ℤ) ≤ v.toNat ∧ (v.toNat : ℤ) < 2 ^ n.size.bits := by
      exact ⟨Int.natCast_nonneg _, by exact_mod_cast hlt⟩
    simp only [structPack, hk, if_pos hrange, Int.toNat_natCast]
  | signed =>
    have hrange : -(2 ^ (n.size.bits - 1)) ≤ v.toInt ∧ v.toInt < 2 ^ (n.size.bits - 1) :=
      ⟨BitVec.le_toInt v, BitVec.toInt_lt⟩
    have hraw : (v.toInt % 2 ^ n.size.bits).toNat = v.toNat := by
      have h := BitVec.toNat_ofInt (n := n.size.bits) v.toInt
      rw [BitVec.ofInt_toInt] at h
      rw [h]
      norm_cast
    simp only [structPack, hk, if_pos hrange, hraw]
  | float => simp only [structPack, hk, if_pos hlt]

theorem rawValue_of_numeric {e : EnumType} {n : Numeric} (he : e.backing.repr = .inl n) (v : ℤ) :
    e.rawValue v = (BitVec.ofInt n.size.bits v).toNat := by
  rw [BitVec.toNat_ofInt]
  simp only [EnumType.rawValue, he]
  norm_cast

theorem structPack_enum {e : EnumType} {n : Numeric} (he : e.backing.repr = .inl n) {v : ℤ}
    (hv : v ∈ e.values) :
    structPack n (.enum v) = .ok (beBytes n.size.bytes (e.rawValue v)) := by
  have hraw : e.rawValue v = (v % 2 ^ n.size.bits).toNat := by simp only [EnumType.rawValue, he]
  rw [hraw]
  obtain ⟨-, ⟨hk, hrange⟩ | ⟨hk, hrange⟩⟩ := (e.inRange_of_mem hv).numeric he
  · simp only [structPack, hk, if_pos hrange]
  · simp only [structPack, hk, if_pos hrange, Int.emod_eq_of_lt hrange.1 hrange.2]

theorem rawValue_of_bitU {e : EnumType} {width : Fin 33} (he : e.backing.repr = .inr width) {v : ℤ}
    (hv : v ∈ e.values) : (e.rawValue v : ℤ) = v ∧ e.rawValue v < 2 ^ (width : ℕ) := by
  have hrange := e.inRange_of_mem hv
  have hraw : e.rawValue v = v.toNat := by simp only [EnumType.rawValue, he]
  cases hb : e.backing with
  | bitU w =>
    rw [hb] at he hrange
    cases he
    have hcast : (v.toNat : ℤ) = v := Int.toNat_of_nonneg hrange.1
    refine ⟨by rw [hraw, hcast], ?_⟩
    have hlt : (v.toNat : ℤ) < 2 ^ (width : ℕ) := hcast ▸ hrange.2
    rw [hraw]
    exact_mod_cast hlt
  | _ => rw [hb] at he; cases he

theorem ofList_set {buffer : List UInt8} {i : ℕ} (hi : i < buffer.length) (b : UInt8) :
    ofList (buffer.set i b) = Function.update (ofList buffer) i b := by
  funext j
  by_cases hj : j = i
  · subst j
    simp [ofList, List.getD_eq_getElem?_getD, hi]
  · rw [Function.update_of_ne hj]
    simp [ofList, List.getD_eq_getElem?_getD, List.getElem?_set_ne (Ne.symm hj)]

/-- A slice assignment that does not raise writes exactly the data. -/
theorem assignSlice_writes {buffer buffer' data : List UInt8} {lo hi : ℕ}
    (hhi : hi = lo + data.length) (h : assignSlice buffer lo hi data = .ok buffer') :
    ofList buffer' = ByteMemory.write (ofList buffer) lo data ∧
      buffer'.length = buffer.length := by
  simp only [assignSlice] at h
  split_ifs at h with hlen
  cases h
  cases data with
  | nil =>
    have hcut : max (min lo buffer.length) (min hi buffer.length) = min lo buffer.length := by
      simp only [List.length_nil] at hhi
      omega
    simp only [hcut, List.append_nil, List.take_append_drop, ByteMemory.write_nil, and_self]
  | cons b rest =>
    have hfit : lo + (b :: rest).length ≤ buffer.length := by
      simp only [List.length_cons] at hhi hlen ⊢
      omega
    have hlo : min lo buffer.length = lo := by omega
    have hmax : max lo (min hi buffer.length) = hi := by omega
    rw [hlo, hmax, hhi]
    refine ⟨?_, by simp only [List.length_append, List.length_take, List.length_drop]; omega⟩
    funext i
    have htake : (buffer.take lo).length = lo := by rw [List.length_take]; omega
    by_cases hbefore : i < lo
    · rw [write_of_lt _ _ hbefore, ofList, ofList, List.append_assoc,
        List.getD_append _ _ _ _ (by omega), List.getD_eq_getElem?_getD,
        List.getD_eq_getElem?_getD, List.getElem?_take_of_lt hbefore]
    · by_cases hin : i < lo + (b :: rest).length
      · rw [write_of_mem _ (by omega) hin, ofList, List.append_assoc,
          List.getD_append_right _ _ _ _ (by omega), htake, List.getD_append _ _ _ _ (by omega)]
      · rw [write_of_ge _ _ (by omega), ofList, ofList,
          List.getD_append_right _ _ _ _ (by rw [List.length_append]; omega),
          List.getD_eq_getElem?_getD, List.getD_eq_getElem?_getD, List.getElem?_drop,
          List.length_append, htake]
        congr 2
        omega

theorem assignSlice_fits {buffer buffer' data : List UInt8} {lo hi : ℕ}
    (hhi : hi = lo + data.length) (hlo : lo ≤ buffer.length)
    (h : assignSlice buffer lo hi data = .ok buffer') : hi ≤ buffer.length := by
  simp only [assignSlice] at h
  split_ifs at h with hlen
  omega

theorem exists_assignSlice {buffer data : List UInt8} {lo : ℕ}
    (h : lo + data.length ≤ buffer.length) :
    ∃ buffer', assignSlice buffer lo (lo + data.length) data = .ok buffer' ∧
      buffer'.length = buffer.length := by
  have hlo : min lo buffer.length = lo := Nat.min_eq_left (by omega)
  have hhi : max lo (min (lo + data.length) buffer.length) = lo + data.length := by omega
  have hok : assignSlice buffer lo (lo + data.length) data =
      .ok (buffer.take lo ++ data ++ buffer.drop (lo + data.length)) := by
    simp only [assignSlice, hlo, hhi]
    exact if_pos (Nat.add_sub_cancel_left _ _)
  exact ⟨_, hok, (assignSlice_writes rfl hok).2⟩

/-- A round of the loop that has returned was inside the buffer. -/
theorem packLoop_succ {fuel pos width byteIndex : ℕ} {v : ℤ} {buffer buffer' : List UInt8}
    (hw : width ≠ 0) (h : packLoop (fuel + 1) buffer byteIndex pos width v = .ok buffer') :
    byteIndex < buffer.length ∧
      let place := min width (8 - pos % 8)
      let shift := 8 - pos % 8 - place
      packLoop fuel (buffer.set byteIndex
        (buffer.getD byteIndex 0 &&& ~~~ UInt8.ofNat (((1 <<< place) - 1) <<< shift) |||
          UInt8.ofNat (((v >>> (width - place)) % 2 ^ place).toNat <<< shift)))
        (byteIndex + 1) (pos + place) (width - place) v = .ok buffer' := by
  rw [packLoop, if_pos (by omega)] at h
  simp only [MemUnit.bitsPerByte] at h
  by_cases hlen : byteIndex < buffer.length
  · rw [if_pos hlen] at h
    exact ⟨hlen, h⟩
  · rw [if_neg hlen] at h
    cases h

/-- The loop of `BitU.pack` stores a bit field. -/
theorem packLoop_writes {fuel pos width byteIndex v : ℕ} {buffer buffer' : List UInt8}
    (hindex : 0 < width → byteIndex = pos / 8)
    (h : packLoop fuel buffer byteIndex pos width v = .ok buffer') :
    ofList buffer' = storeBits fuel (ofList buffer) pos width v ∧
      buffer'.length = buffer.length := by
  induction fuel generalizing buffer byteIndex pos width with
  | zero => cases h; exact ⟨rfl, rfl⟩
  | succ fuel ih =>
    by_cases hw : width = 0
    · rw [packLoop, if_neg (by omega)] at h
      cases h
      rw [storeBits, if_pos hw]
      exact ⟨rfl, rfl⟩
    · have hbyte := hindex (by omega)
      obtain ⟨hlen, hround⟩ := packLoop_succ hw h
      obtain ⟨hwrite, hlength⟩ := ih (by intro hrem; omega) hround
      refine ⟨?_, hlength.trans (List.length_set ..)⟩
      rw [hwrite, ofList_set hlen, storeBits, if_neg hw, hbyte]
      have hcast : ∀ k p : ℕ, (((v : ℤ) >>> k) % 2 ^ p).toNat = (v >>> k) % 2 ^ p := by
        intro k p
        have hshift : ((v : ℤ) >>> k) = ((v >>> k : ℕ) : ℤ) := rfl
        rw [hshift]
        norm_cast
      simp only [hcast]
      rfl

theorem packLoop_fits {fuel pos width byteIndex : ℕ} {v : ℤ} {buffer buffer' : List UInt8}
    (hf : width ≤ fuel) (hindex : 0 < width → byteIndex = pos / 8)
    (hpos : pos ≤ 8 * buffer.length)
    (h : packLoop fuel buffer byteIndex pos width v = .ok buffer') :
    pos + width ≤ 8 * buffer.length := by
  induction fuel generalizing buffer byteIndex pos width with
  | zero => omega
  | succ fuel ih =>
    by_cases hw : width = 0
    · omega
    · have hbyte := hindex (by omega)
      obtain ⟨hlen, hround⟩ := packLoop_succ hw h
      have hrest := ih (by omega) (by intro hrem; omega) (by rw [List.length_set]; omega) hround
      rw [List.length_set] at hrest
      omega

/-- What a call that returned `buffer'` and `offset'` has done: it stored the pieces at the offset,
inside the buffer, and it ends after them. -/
structure Stored (buffer : List UInt8) (offset : MemUnit) (ps : List Piece)
    (buffer' : List UInt8) (offset' : MemUnit) : Prop where
  memory : ofList buffer' = writeAll (ofList buffer) offset.bits ps
  length_eq : buffer'.length = buffer.length
  stop_eq : offset'.bits = stopAll ps offset.bits
  fits : offset.bits ≤ 8 * buffer.length → offset'.bits ≤ 8 * buffer.length

theorem Stored.append {buffer buffer₁ buffer₂ : List UInt8} {offset offset₁ offset₂ : MemUnit}
    {ps qs : List Piece} (h : Stored buffer offset ps buffer₁ offset₁)
    (h' : Stored buffer₁ offset₁ qs buffer₂ offset₂) :
    Stored buffer offset (ps ++ qs) buffer₂ offset₂ := by
  refine ⟨?_, h'.length_eq.trans h.length_eq, ?_, fun hpos => ?_⟩
  · rw [h'.memory, h.memory, h.stop_eq, writeAll_append]
  · rw [h'.stop_eq, h.stop_eq, stopAll_append]
  · have hfits := h'.fits
    rw [h.length_eq] at hfits
    exact hfits (h.fits hpos)

/-- An alignment stores no bytes. -/
theorem Stored.of_byteAlign {buffer buffer' : List UInt8} {offset offset' : MemUnit}
    {ps : List Piece} (h : Stored buffer offset.byteAlign ps buffer' offset') :
    Stored buffer offset (.bytes [] :: ps) buffer' offset' := by
  obtain ⟨hmemory, hlength, hstop, hfits⟩ := h
  have halign : offset.byteAlign.bits = alignUp offset.bits := MemUnit.byteAlign_bits offset
  rw [halign] at hmemory hstop hfits
  refine ⟨?_, hlength, ?_, fun hpos => hfits (by rw [alignUp]; omega)⟩
  · simpa only [writeAll, Piece.write, ByteMemory.write_nil, stop, List.length_nil,
      Nat.mul_zero, Nat.add_zero] using hmemory
  · simpa only [stopAll, stop, List.length_nil, Nat.mul_zero, Nat.add_zero] using hstop

def Writes (result : Except PyError (List UInt8 × MemUnit)) (buffer : List UInt8)
    (offset : MemUnit) (ps : List Piece) : Prop :=
  ∀ buffer' offset', result = .ok (buffer', offset') → Stored buffer offset ps buffer' offset'

theorem exists_packLoop {fuel pos width byteIndex : ℕ} {v : ℤ} {buffer : List UInt8}
    (hindex : 0 < width → byteIndex = pos / 8) (hfits : pos + width ≤ 8 * buffer.length) :
    ∃ buffer', packLoop fuel buffer byteIndex pos width v = .ok buffer' := by
  induction fuel generalizing buffer byteIndex pos width with
  | zero => exact ⟨buffer, rfl⟩
  | succ fuel ih =>
    by_cases hw : width > 0
    · have hbyte := hindex hw
      rw [packLoop, if_pos hw]
      simp only [← Nat.min_def]
      simp only [MemUnit.bitsPerByte]
      rw [if_pos (by omega)]
      exact ih (by intro hrem; omega) (by rw [List.length_set]; omega)
    · exact ⟨buffer, by rw [packLoop, if_neg hw]⟩

theorem exists_packBitU {width : ℕ} (v : ℤ) {buffer : List UInt8} {offset : MemUnit}
    (hfits : offset.bits + width ≤ 8 * buffer.length) :
    ∃ r, packBitU width buffer offset v = .ok r := by
  obtain ⟨buffer', hloop⟩ := exists_packLoop (v := v)
    (fun _ => rfl : 0 < width → offset.bits / 8 = offset.bits / 8) hfits
  exact ⟨_, except_bind_eq_ok.mpr ⟨buffer', hloop, rfl⟩⟩

theorem packBitU_writes (width : ℕ) (buffer : List UInt8) (offset : MemUnit) (v : ℕ) :
    Writes (packBitU width buffer offset v) buffer offset [.bits width v] := by
  intro buffer' offset' h
  obtain ⟨b, hb, heq⟩ := except_bind_eq_ok.mp h
  cases heq
  obtain ⟨hwrite, hlength⟩ := packLoop_writes (fun _ => rfl) hb
  exact ⟨hwrite, hlength, rfl, fun hpos => packLoop_fits le_rfl (fun _ => rfl) hpos hb⟩

theorem alignUp_bits (u : MemUnit) : alignUp u.bits = 8 * u.bytes := rfl

theorem alignUp_bits_div (u : MemUnit) : alignUp u.bits / 8 = u.bytes := by
  rw [alignUp_bits]
  omega

theorem structPack_length {len : ℕ} {data : List UInt8}
    (h : structPack .u16 (.int len) = .ok data) : data = beBytes 2 len ∧ len < 2 ^ 16 := by
  simp only [structPack, Numeric.kind, Int.toNat_natCast] at h
  split_ifs at h with hrange
  cases h
  exact ⟨rfl, by exact_mod_cast hrange.2⟩

theorem structPack_u16 {len : ℕ} (h : len < 2 ^ 16) :
    structPack .u16 (.int len) = .ok (beBytes 2 len) := by
  have hnat : (BitVec.ofNat 16 len).toNat = len := by
    rw [BitVec.toNat_ofNat, Nat.mod_eq_of_lt h]
  have hpack := structPack_toPy .u16 (BitVec.ofNat 16 len)
  have hpy : Numeric.toPy .u16 (BitVec.ofNat 16 len) = .int len :=
    congrArg (fun k : ℕ => PyVal.int k) hnat
  rw [hpy] at hpack
  exact hpack.trans (congrArg (fun k => Except.ok (beBytes 2 k)) hnat)

theorem packNumeric_writes {n : Numeric} {value : PyVal} {raw : ℕ} (buffer : List UInt8)
    (offset : MemUnit) (hpack : structPack n value = .ok (beBytes n.size.bytes raw)) :
    Writes (packNumeric n buffer offset value) buffer offset
      [.bytes (beBytes n.size.bytes raw)] := by
  intro buffer' offset' h
  obtain ⟨data, hdata, h⟩ := except_bind_eq_ok.mp h
  obtain ⟨b, hb, heq⟩ := except_bind_eq_ok.mp h
  cases heq
  cases hpack.symm.trans hdata
  rw [MemUnit.byteAlign_bytes] at hb
  obtain ⟨hwrite, hlength⟩ := assignSlice_writes (by rw [length_beBytes]) hb
  have hbits : (offset.byteAlign + n.size).bits = 8 * (offset.bytes + n.size.bytes) := by
    rw [MemUnit.add_bits, MemUnit.byteAlign_bits, n.size_bits, Nat.mul_add]
  refine ⟨?_, hlength, ?_, fun hpos => ?_⟩
  · simp only [writeAll, Piece.write, alignUp_bits_div, hwrite]
  · simp only [stopAll, stop, length_beBytes, hbits, alignUp_bits, Nat.mul_add]
  · have hlo : offset.bytes ≤ buffer.length := by rw [MemUnit.bytes_eq]; omega
    have hfit := assignSlice_fits (by rw [length_beBytes]) hlo hb
    rw [hbits]
    omega

theorem exists_packNumeric {n : Numeric} {value : PyVal} {data buffer : List UInt8}
    {offset : MemUnit} (hdata : structPack n value = .ok data)
    (hlength : data.length = n.size.bytes)
    (hroom : offset.bytes + n.size.bytes ≤ buffer.length) :
    ∃ r, packNumeric n buffer offset value = .ok r := by
  rw [← hlength] at hroom
  obtain ⟨buffer', hbuffer, -⟩ := exists_assignSlice hroom
  rw [hlength] at hbuffer
  refine ⟨(buffer', offset.byteAlign + n.size), ?_⟩
  rw [packNumeric, hdata, except_ok_bind, MemUnit.byteAlign_bytes, hbuffer]
  rfl

theorem packCounted_writes (buffer : List UInt8) (offset : MemUnit) (value : List UInt8) :
    Writes (packCounted buffer offset value) buffer offset [counted value] := by
  intro buffer' offset' h
  obtain ⟨len, hlen, h⟩ := except_bind_eq_ok.mp h
  obtain ⟨b₁, hb₁, h⟩ := except_bind_eq_ok.mp h
  obtain ⟨b₂, hb₂, heq⟩ := except_bind_eq_ok.mp h
  cases heq
  obtain ⟨rfl, -⟩ := structPack_length hlen
  obtain ⟨hwrite₁, hlength₁⟩ := assignSlice_writes (by rw [length_beBytes]) hb₁
  obtain ⟨hwrite₂, hlength₂⟩ := assignSlice_writes rfl hb₂
  have hnext : (offset.byteAlign.setBytes (offset.byteAlign.bytes + 2)).bytes =
      offset.bytes + 2 := by
    rw [MemUnit.bytes_eq, MemUnit.setBytes_bits, MemUnit.byteAlign_bytes]
    omega
  refine ⟨?_, hlength₂.trans hlength₁, ?_, fun hpos => ?_⟩
  · rw [hwrite₂, hwrite₁, hnext, MemUnit.byteAlign_bytes]
    simp only [writeAll, counted, Piece.write, alignUp_bits_div, write_append, length_beBytes]
  · rw [MemUnit.setBytes_bits, hnext]
    simp only [stopAll, counted, stop, List.length_append, length_beBytes, alignUp_bits]
    omega
  · have hlo : offset.byteAlign.bytes ≤ buffer.length := by
      rw [MemUnit.byteAlign_bytes, MemUnit.bytes_eq]; omega
    have hfit₁ := assignSlice_fits (by rw [length_beBytes]) hlo hb₁
    rw [MemUnit.byteAlign_bytes] at hfit₁
    have hfit₂ := assignSlice_fits rfl (by rw [hnext, hlength₁]; exact hfit₁) hb₂
    rw [hlength₁] at hfit₂
    rw [MemUnit.setBytes_bits]
    omega

theorem setBytes_bytes (offset : MemUnit) (n : ℕ) : (offset.setBytes n).bytes = n := by
  rw [MemUnit.bytes_eq, MemUnit.setBytes_bits]
  omega

theorem exists_packCounted {data buffer : List UInt8} {offset : MemUnit}
    (hlen : data.length < 2 ^ 16) (hroom : offset.bytes + 2 + data.length ≤ buffer.length) :
    ∃ r, packCounted buffer offset data = .ok r := by
  have hfirst : offset.bytes + (beBytes 2 data.length).length ≤ buffer.length := by
    rw [length_beBytes]
    omega
  obtain ⟨buffer₁, hcount, hlength⟩ := exists_assignSlice hfirst
  rw [length_beBytes] at hcount
  rw [← hlength] at hroom
  obtain ⟨buffer₂, hdata, -⟩ := exists_assignSlice hroom
  refine ⟨(buffer₂, offset.setBytes (offset.bytes + 2 + data.length)), ?_⟩
  simp only [packCounted, structPack_u16 hlen, except_ok_bind, MemUnit.byteAlign_bytes,
    setBytes_bytes, hcount, hdata]
  rfl

theorem packElements_writes {inner : Numeric} {xs : List (BitVec inner.size.bits)}
    {buffer buffer' : List UInt8} {offset offset' : MemUnit} (hmod : offset.bits % 8 = 0)
    (h : packElements inner buffer offset (xs.map inner.toPy) = .ok (buffer', offset')) :
    ofList buffer' = ByteMemory.write (ofList buffer) offset.bytes
        (xs.flatMap fun x => beBytes inner.size.bytes x.toNat) ∧
      buffer'.length = buffer.length ∧
      offset'.bits = offset.bits + 8 * (xs.length * inner.size.bytes) ∧
      (offset.bits ≤ 8 * buffer.length → offset'.bits ≤ 8 * buffer.length) := by
  induction xs generalizing buffer offset with
  | nil =>
    cases h
    simp only [List.flatMap_nil, ByteMemory.write_nil, List.length_nil, Nat.zero_mul,
      Nat.mul_zero, Nat.add_zero, imp_self, and_self]
  | cons x xs ih =>
    obtain ⟨data, hdata, hassign⟩ := except_bind_eq_ok.mp h
    obtain ⟨b, hb, hrest⟩ := except_bind_eq_ok.mp hassign
    cases (structPack_toPy inner x).symm.trans hdata
    obtain ⟨hwrite, hlength⟩ := assignSlice_writes (by rw [length_beBytes]) hb
    have hsize := inner.size_bits
    obtain ⟨hwrite', hlength', hoffset, hfit⟩ := ih (by rw [MemUnit.add_bits]; omega) hrest
    have hnext : (offset + inner.size).bytes = offset.bytes + inner.size.bytes := by
      rw [MemUnit.bytes_eq, MemUnit.add_bits, MemUnit.bytes_eq offset]
      omega
    refine ⟨?_, hlength'.trans hlength, ?_, fun hpos => ?_⟩
    · rw [hwrite', hwrite, hnext, List.flatMap_cons, write_append, length_beBytes]
    · have hmul : (x :: xs).length * inner.size.bytes =
          xs.length * inner.size.bytes + inner.size.bytes := Nat.succ_mul _ _
      rw [hoffset, MemUnit.add_bits, hmul]
      omega
    · have hlo : offset.bytes ≤ buffer.length := by rw [MemUnit.bytes_eq]; omega
      have hhead := assignSlice_fits (by rw [length_beBytes]) hlo hb
      rw [hlength] at hfit
      apply hfit
      rw [MemUnit.bytes_eq] at hhead
      rw [MemUnit.add_bits]
      omega

theorem length_flatMap_beBytes (inner : Numeric) (xs : List (BitVec inner.size.bits)) :
    (xs.flatMap fun x => beBytes inner.size.bytes x.toNat).length =
      xs.length * inner.size.bytes := by
  induction xs with
  | nil => simp only [List.flatMap_nil, List.length_nil, Nat.zero_mul]
  | cons x xs ih =>
    rw [List.flatMap_cons, List.length_append, length_beBytes, ih, List.length_cons, Nat.succ_mul,
      Nat.add_comm]

theorem packList_writes {inner : Numeric} (buffer : List UInt8) (offset : MemUnit)
    (xs : List (BitVec inner.size.bits)) :
    Writes (packList inner buffer offset (.list (xs.map inner.toPy))) buffer offset
      [counted (xs.flatMap fun x => beBytes inner.size.bytes x.toNat)] := by
  intro buffer' offset' h
  obtain ⟨len, hlen, hassign⟩ := except_bind_eq_ok.mp h
  obtain ⟨b, hb, hrest⟩ := except_bind_eq_ok.mp hassign
  rw [List.length_map] at hlen
  obtain ⟨rfl, -⟩ := structPack_length hlen
  obtain ⟨hwrite, hlength⟩ := assignSlice_writes (by rw [length_beBytes]) hb
  rw [MemUnit.byteAlign_bytes] at hrest hwrite
  obtain ⟨hwrite', hlength', hoffset, hfit⟩ :=
    packElements_writes (by rw [MemUnit.setBytes_bits]; omega) hrest
  have hnext : (offset.byteAlign.setBytes (offset.bytes + 2)).bytes = offset.bytes + 2 := by
    rw [MemUnit.bytes_eq, MemUnit.setBytes_bits]
    omega
  refine ⟨?_, hlength'.trans hlength, ?_, fun hpos => ?_⟩
  · rw [hwrite', hwrite, hnext]
    simp only [writeAll, counted, Piece.write, alignUp_bits_div, write_append, length_beBytes,
      length_flatMap_beBytes]
  · rw [hoffset, MemUnit.setBytes_bits]
    simp only [stopAll, counted, stop, List.length_append, length_beBytes, alignUp_bits,
      length_flatMap_beBytes]
    omega
  · have hlo : offset.byteAlign.bytes ≤ buffer.length := by
      rw [MemUnit.byteAlign_bytes, MemUnit.bytes_eq]; omega
    have hhead := assignSlice_fits (by rw [length_beBytes]) hlo hb
    rw [MemUnit.byteAlign_bytes] at hhead
    rw [hlength] at hfit
    apply hfit
    rw [MemUnit.setBytes_bits]
    omega

/-- Inside a struct the writer sees what `astuple` left of a member: the same object, except that
a nested instance has become a tuple, which the writer refuses. -/
theorem astupleInners_list (inner : Numeric) (xs : List (BitVec inner.size.bits)) :
    astupleInners (xs.map inner.toPy) = xs.map inner.toPy := by
  induction xs with
  | nil => rfl
  | cons x xs ih =>
    have hx : astupleInner (inner.toPy x) = inner.toPy x := by
      unfold Numeric.toPy
      cases inner.kind <;> rfl
    rw [List.map_cons, astupleInners, hx, ih]

theorem astupleInner_toPy {t : WireType} (hs : ∀ name members, t ≠ .struct name members)
    (v : Value t) : astupleInner (Value.toPy t v) = Value.toPy t v := by
  cases t with
  | num n =>
    simp only [Value.toPy, Numeric.toPy]
    cases n.kind <;> rfl
  | list inner => exact congrArg PyVal.list (astupleInners_list inner v)
  | struct name members => exact absurd rfl (hs name members)
  | _ => rfl

theorem pack_bytes_eq (buffer : List UInt8) (offset : MemUnit) (b : List UInt8) :
    pack buffer offset .bytes (.bytes b) = packCounted buffer offset b := by
  rw [pack]
  exact except_ok_bind b (packCounted buffer offset)

theorem pack_str_eq (buffer : List UInt8) (offset : MemUnit) (s : String) :
    pack buffer offset .str (.str s) = packCounted buffer offset (utf8 s) := by
  rw [pack]
  exact except_ok_bind (utf8 s) (packCounted buffer offset)

theorem pack_bytes_writes (buffer : List UInt8) (offset : MemUnit) (b : List UInt8) :
    Writes (pack buffer offset .bytes (.bytes b)) buffer offset [counted b] := by
  rw [pack_bytes_eq]
  exact packCounted_writes buffer offset b

theorem pack_str_writes (buffer : List UInt8) (offset : MemUnit) (s : String) :
    Writes (pack buffer offset .str (.str s)) buffer offset [counted (utf8 s)] := by
  rw [pack_str_eq]
  exact packCounted_writes buffer offset (utf8 s)

theorem pack_leaf_writes {t : WireType} (hs : ∀ name members, t ≠ .struct name members)
    (v : Value t) (buffer : List UInt8) (offset : MemUnit) :
    Writes (pack buffer offset t (Value.toPy t v)) buffer offset (pieces t v) := by
  cases t with
  | num n =>
    rw [pack]
    exact packNumeric_writes buffer offset (structPack_toPy n v)
  | str => exact pack_str_writes buffer offset v
  | bytes => exact pack_bytes_writes buffer offset v
  | list inner =>
    rw [pack]
    exact packList_writes buffer offset v
  | bitU width =>
    rw [pack]
    exact packBitU_writes _ buffer offset (BitVec.toNat v)
  | enum e =>
    simp only [Value.toPy, pack, pieces]
    cases he : e.backing.repr with
    | inl n => exact packNumeric_writes buffer offset (structPack_enum he v.property)
    | inr width =>
      have hraw := (rawValue_of_bitU he v.property).1
      have hpack := packBitU_writes width buffer offset (e.rawValue v.val)
      rw [hraw] at hpack
      exact hpack
  | struct name members => exact absurd rfl (hs name members)

theorem toPy_cons {name : String} {t : WireType} {rest : Members} {v : Value t} {vs : Values rest}
    {values : List PyVal}
    (h : values = Values.toPy (.cons name t rest) (v, vs) ∨
      values = astupleInners (Values.toPy (.cons name t rest) (v, vs))) :
    ∃ value tail, values = value :: tail ∧
      (value = Value.toPy t v ∨ value = astupleInner (Value.toPy t v)) ∧
      (tail = Values.toPy rest vs ∨ tail = astupleInners (Values.toPy rest vs)) := by
  rcases h with rfl | rfl
  · exact ⟨_, _, rfl, .inl rfl, .inl rfl⟩
  · exact ⟨_, _, rfl, .inr rfl, .inr rfl⟩

mutual

theorem pack_writes (t : WireType) (v : Value t) (value : PyVal)
    (hvalue : value = Value.toPy t v ∨ value = astupleInner (Value.toPy t v))
    (buffer : List UInt8) (offset : MemUnit) :
    Writes (pack buffer offset t value) buffer offset (pieces t v) := by
  match t, v with
  | .struct name members, vs =>
    intro buffer' offset' h
    rcases hvalue with rfl | rfl
    · have hmembers := packMembers_writes members vs _ (.inr rfl) buffer offset.byteAlign
        buffer' offset' h
      exact hmembers.of_byteAlign
    · -- `astuple` of a tuple raises
      cases h
  | .num n, v | .str, v | .bytes, v | .list inner, v | .bitU width, v | .enum e, v =>
    have hleaf : value = Value.toPy _ v :=
      hvalue.elim id fun h => h.trans (astupleInner_toPy (by intro _ _ h; cases h) v)
    rw [hleaf]
    exact pack_leaf_writes (by intro _ _ h; cases h) v buffer offset

/-- The writer stores the pieces of its arguments. -/
theorem packMembers_writes (ms : Members) (vs : Values ms) (values : List PyVal)
    (hvalues : values = Values.toPy ms vs ∨ values = astupleInners (Values.toPy ms vs))
    (buffer : List UInt8) (offset : MemUnit) :
    Writes (packMembers buffer offset ms values) buffer offset (piecesMembers ms vs) := by
  match ms, vs with
  | .nil, _ =>
    intro buffer' offset' h
    have hnil : values = [] := hvalues.elim id id
    subst hnil
    cases h
    exact ⟨rfl, rfl, rfl, id⟩
  | .cons name t rest, (v, vs) =>
    intro buffer' offset' h
    obtain ⟨value, tail, rfl, hhead, htail⟩ := toPy_cons hvalues
    obtain ⟨⟨b, o⟩, hfirst, hrest⟩ := except_bind_eq_ok.mp h
    have hstored := pack_writes t v value hhead buffer offset b o hfirst
    have hmore := packMembers_writes rest vs tail htail b o buffer' offset' hrest
    exact hstored.append hmore

end

end CompostRpc
