import CompostRpc.StructBoundaries
import CompostRpc.UnpackFields

/-!
# The C load functions undo the store functions

Run on a memory that holds the layout of a C value, the load code returns a value of the same
contents and ends where the layout ends. With what the store code writes this gives the round trip
inside the C library, for values whose enums hold constants of their type.
-/

namespace CompostRpc
open ByteMemory Piece Machine

theorem numericLoad_value {n : Numeric} {m : Machine} {src : ℕ} {v : BitVec n.size.bits}
    (h : read m.mem src n.size.bytes = beBytes n.size.bytes v.toNat) :
    (numericLoad n m src).1 = v := by
  have hload : (numericLoad n m src).1 = BitVec.ofNat _ (beNat (m.loadBytes src n.size.bytes).1) :=
    rfl
  rw [hload, (loadBytes_within m src n.size.bytes).1, h, beNat_beBytes_toNat]

theorem bituintLoadLoop_value {fuel src byteIndex pos width val : ℕ} (m : Machine)
    (hindex : 0 < width → byteIndex = pos / 8) :
    (bituintLoadLoop fuel m src byteIndex pos width val).1 =
      loadBits fuel m.mem (8 * src + pos) width val := by
  induction fuel generalizing m byteIndex pos width val with
  | zero => rfl
  | succ fuel ih =>
    by_cases hw : width = 0
    · rw [bituintLoadLoop, if_neg (by omega), loadBits, if_pos hw]
    · have hbyte := hindex (by omega)
      have haddr : (8 * src + pos) / 8 = src + pos / 8 := by omega
      have hfill : (8 * src + pos) % 8 = pos % 8 := by omega
      rw [bituintLoadLoop, if_pos (by omega), loadBits, if_neg hw]
      simp only [← Nat.min_def]
      rw [ih _ (by intro hrem; omega), hbyte, haddr, hfill, Nat.add_assoc]
      rfl

theorem bituintLoad_value {m : Machine} {src offset width v : ℕ} (hv : v < 2 ^ width)
    (h : (bits width v).At m.mem (8 * src + offset)) : (bituintLoad m src offset width).1 = v :=
  (bituintLoadLoop_value m fun _ => rfl).trans (loadBits_eq_of_bits le_rfl hv h)

/-- A slice that is loaded from a counted field points to the data of the field. -/
theorem sliceLoad_value {inner : Numeric} {m : Machine} {src : ℕ} {data : List UInt8}
    (hdvd : inner.size.bytes ∣ data.length) (hlen : data.length < 2 ^ 16)
    (h : (counted data).At m.mem (8 * src)) :
    sliceData m.mem inner (sliceLoad inner m src).1 = data ∧
      (sliceLoad inner m src).2.2 = src + 2 + data.length := by
  have halign : alignUp (8 * src) / 8 = src := by unfold alignUp; omega
  rw [counted, Piece.At, halign, List.length_append, length_beBytes, read_append] at h
  obtain ⟨hlength, hdata⟩ := List.append_inj h (by rw [length_read, length_beBytes])
  have hcount : lengthAt m.mem src = data.length := by
    rw [lengthAt, hlength, beNat_beBytes]
    exact Nat.mod_eq_of_lt hlen
  obtain ⟨-, hend, -⟩ := sliceLoad_within inner m src
  refine ⟨?_, by rw [hend, hcount]⟩
  have hslice : (sliceLoad inner m src).1 =
      ⟨src + 2, UInt16.ofNat ((numericLoad .u16 m src).1.toNat / inner.size.bytes)⟩ := rfl
  have hsmall : data.length / inner.size.bytes < 2 ^ 16 := (Nat.div_le_self _ _).trans_lt hlen
  rw [hslice, numericLoad_u16, hcount, sliceData, UInt16.toNat_ofNat', Nat.mod_eq_of_lt hsmall,
    Nat.div_mul_cancel hdvd, hdata]

/-- An enum constant comes back from the number it is stored as. -/
theorem enumOfNumeric_setWidth {e : EnumType} {n : Numeric} (he : e.backing.repr = .inl n) {v : ℤ}
    (hv : v ∈ e.values) :
    enumOfNumeric n (BitVec.setWidth n.size.bits (BitVec.ofInt 32 v)) = BitVec.ofInt 32 v := by
  have hpos : 0 < n.size.bits := by cases n <;> decide
  have hcut : BitVec.setWidth n.size.bits (BitVec.ofInt 32 v) = BitVec.ofInt n.size.bits v := by
    apply BitVec.eq_of_toNat_eq
    rw [setWidth_ofInt_toNat he, rawValue_of_numeric he]
  rw [hcut]
  obtain ⟨hbits, ⟨hk, hlo, hhi⟩ | ⟨hk, hlo, hhi⟩⟩ := (e.inRange_of_mem hv).numeric he
  · have hpow : (2 : ℤ) ^ (n.size.bits - 1) ≤ 2 ^ 31 :=
      pow_le_pow_right₀ (by norm_num) (by omega)
    have hvalue : (BitVec.ofInt 32 v).toInt = v :=
      BitVec.toInt_ofInt_eq_self (by norm_num) (by omega) (by omega)
    apply BitVec.eq_of_toInt_eq
    simp only [enumOfNumeric, hk]
    rw [BitVec.toInt_signExtend_of_le (by omega), BitVec.toInt_ofInt_eq_self hpos hlo hhi, hvalue]
  · obtain ⟨k, rfl⟩ := Int.eq_ofNat_of_zero_le hlo
    have hk' : k < 2 ^ n.size.bits := by exact_mod_cast hhi
    simp only [enumOfNumeric, hk, BitVec.ofInt_natCast]
    exact BitVec.setWidth_ofNat_of_le_of_lt (by omega) hk'

mutual

def CValue.InRange : (t : WireType) → CValue t → Prop
  | .enum e, c => ∃ v ∈ e.values, c = BitVec.ofInt 32 v
  | .struct _ members, cs => CValues.InRange members cs
  | .num _, _ | .str, _ | .bytes, _ | .list _, _ | .bitU _, _ => True

def CValues.InRange : (ms : Members) → CValues ms → Prop
  | .nil, _ => True
  | .cons _ t rest, c => CValue.InRange t c.1 ∧ CValues.InRange rest c.2

end

def Counted (inner : Numeric) (data : List UInt8) : Prop :=
  inner.size.bytes ∣ data.length ∧ data.length < 2 ^ 16

mutual

/-- Contents of a value in range, with as many bytes in its slices as a length field can count. -/
def Contents.Valid : (t : WireType) → Contents t → Prop
  | .str, data => Counted .u8 data
  | .bytes, data => Counted .u8 data
  | .list inner, data => Counted inner data
  | .enum e, c => ∃ v ∈ e.values, c = BitVec.ofInt 32 v
  | .struct _ members, ds => ContentsAll.Valid members ds
  | .num _, _ | .bitU _, _ => True

def ContentsAll.Valid : (ms : Members) → ContentsAll ms → Prop
  | .nil, _ => True
  | .cons _ t rest, d => Contents.Valid t d.1 ∧ ContentsAll.Valid rest d.2

end

theorem counted_sliceData (mem : ByteMemory) {inner : Numeric} {s : Slice}
    (hlen : (Slice.region inner s).2 < 2 ^ 16) : Counted inner (sliceData mem inner s) := by
  have hlength : (sliceData mem inner s).length = s.len.toNat * inner.size.bytes :=
    length_read _ _ _
  rw [Counted, hlength]
  exact ⟨Nat.dvd_mul_left _ _, hlen⟩

mutual

theorem contents_valid (mem : ByteMemory) (t : WireType) (c : CValue t) (hc : CValue.InRange t c)
    (hs : ∀ r ∈ slices t c, r.2 < 2 ^ 16) : Contents.Valid t (contents mem t c) := by
  match t, c with
  | .num n, _ | .bitU width, _ => trivial
  | .str, s => exact counted_sliceData mem (hs _ (List.mem_singleton.mpr rfl))
  | .bytes, s => exact counted_sliceData mem (hs _ (List.mem_singleton.mpr rfl))
  | .list inner, s => exact counted_sliceData mem (hs _ (List.mem_singleton.mpr rfl))
  | .enum e, v => exact hc
  | .struct name members, cs => exact contentsAll_valid mem members cs hc hs

theorem contentsAll_valid (mem : ByteMemory) (ms : Members) (cs : CValues ms)
    (hc : CValues.InRange ms cs) (hs : ∀ r ∈ slicesAll ms cs, r.2 < 2 ^ 16) :
    ContentsAll.Valid ms (contentsAll mem ms cs) := by
  match ms, cs with
  | .nil, _ => trivial
  | .cons name t rest, c =>
    exact ⟨contents_valid mem t c.1 hc.1 fun r hr => hs r (List.mem_append_left _ hr),
      contentsAll_valid mem rest c.2 hc.2 fun r hr => hs r (List.mem_append_right _ hr)⟩

end

theorem allAt_storedPieces_struct {m : ByteMemory} {o : ℕ} {name : String} {members : Members}
    {d : ContentsAll members} (h : AllAt m o (storedPieces (.struct name members) d)) :
    AllAt m (alignUp o) (storedPiecesAll members d) := by
  simp only [storedPieces, markedPieces, List.cons_append, honoured, honoured_append, allMarks,
    if_true] at h
  have hall := ((allAt_append _ _ _ _).mp h.2).1
  rwa [stop, List.length_nil, Nat.mul_zero, Nat.add_zero] at hall

/-- What the load code for a layout returns: the contents laid out, and the end of the layout. -/
structure Loaded {α β : Type} (r : α × Machine × ℕ × MemUnit) (contents : α → β) (d : β)
    (stop : ℕ) : Prop where
  contents_eq : contents r.1 = d
  stop_eq : 8 * r.2.2.1 + r.2.2.2.bits = stop

/-- A number, loaded behind an alignment. -/
theorem numericLoad_aligned {n : Numeric} {m : Machine} {src : ℕ} {offset : MemUnit}
    {v : BitVec n.size.bits}
    (h : AllAt m.mem (8 * src + offset.bits) [.bytes (beBytes n.size.bytes v.toNat)]) :
    (numericLoad n m (byteAlignPtr src offset).1).1 = v ∧
      8 * ((byteAlignPtr src offset).1 + n.size.bytes) + (byteAlignPtr src offset).2.bits =
        stopAll [.bytes (beBytes n.size.bytes v.toNat)] (8 * src + offset.bits) := by
  obtain ⟨hptr, hoffset, -⟩ := byteAlignPtr_pos src offset
  have hdiv : alignUp (8 * src + offset.bits) / 8 = (byteAlignPtr src offset).1 := by omega
  have hread := h.1
  rw [Piece.At, hdiv, length_beBytes] at hread
  refine ⟨numericLoad_value hread, ?_⟩
  simp only [stopAll, stop, length_beBytes]
  omega

/-- A slice, loaded behind an alignment. -/
theorem sliceLoad_aligned {inner : Numeric} {m : Machine} {src : ℕ} {offset : MemUnit}
    {data : List UInt8} (hdata : Counted inner data)
    (h : AllAt m.mem (8 * src + offset.bits) [counted data]) :
    sliceData m.mem inner (sliceLoad inner m (byteAlignPtr src offset).1).1 = data ∧
      8 * (sliceLoad inner m (byteAlignPtr src offset).1).2.2 + (byteAlignPtr src offset).2.bits =
        stopAll [counted data] (8 * src + offset.bits) := by
  obtain ⟨hptr, hoffset, -⟩ := byteAlignPtr_pos src offset
  have hat : (counted data).At m.mem (8 * (byteAlignPtr src offset).1) := by
    have hread := h.1
    rw [hptr]
    simpa only [counted, Piece.At, alignUp_alignUp] using hread
  obtain ⟨hloaded, hend⟩ := sliceLoad_value hdata.1 hdata.2 hat
  refine ⟨hloaded, ?_⟩
  simp only [hend, stopAll, counted, stop, List.length_append, length_beBytes]
  omega

mutual

theorem loadMember_contents {m : Machine} {src : ℕ} (offset : MemUnit) (t : WireType)
    (d : Contents t) (hd : Contents.Valid t d)
    (h : AllAt m.mem (8 * src + offset.bits) (storedPieces t d)) :
    Loaded (loadMember m src offset t) (contents m.mem t) d
      (stopAll (storedPieces t d) (8 * src + offset.bits)) := by
  match t, d with
  | .num n, v =>
    obtain ⟨hvalue, hstop⟩ := numericLoad_aligned (v := v) h
    exact ⟨hvalue, hstop⟩
  | .str, data =>
    obtain ⟨hdata, hstop⟩ := sliceLoad_aligned hd h
    exact ⟨hdata, hstop⟩
  | .bytes, data =>
    obtain ⟨hdata, hstop⟩ := sliceLoad_aligned hd h
    exact ⟨hdata, hstop⟩
  | .list inner, data =>
    obtain ⟨hdata, hstop⟩ := sliceLoad_aligned hd h
    exact ⟨hdata, hstop⟩
  | .bitU width, v =>
    refine ⟨?_, Nat.add_assoc _ _ _ ▸ rfl⟩
    have hload := bituintLoad_value (BitVec.isLt v) h.1
    simp only [contents, loadMember, hload]
    exact (BitVec.ofNat_toNat width (v : BitVec width)).trans (BitVec.setWidth_eq _)
  | .enum e, v =>
    obtain ⟨x, hx, rfl⟩ := hd
    simp only [storedPieces, markedPieces] at h ⊢
    cases he : e.backing.repr with
    | inl n =>
      simp only [he] at h
      obtain ⟨hvalue, hstop⟩ := numericLoad_aligned h
      constructor
      · simp only [contents, loadMember, he, hvalue]
        exact enumOfNumeric_setWidth he hx
      · simp only [loadMember, he]
        exact hstop
    | inr width =>
      simp only [he] at h
      have hraw : (BitVec.ofInt 32 x).toNat < 2 ^ (width : ℕ) := by
        rw [ofInt_toNat_of_bitU he hx]
        exact (rawValue_of_bitU he hx).2
      have hload := bituintLoad_value hraw h.1
      constructor
      · simp only [contents, loadMember, he, hload, BitVec.ofNat_toNat, BitVec.setWidth_eq]
        rfl
      · simp only [loadMember, he]
        exact (Nat.add_assoc _ _ _).symm
  | .struct name members, ds =>
    obtain ⟨hptr, hoffset, -⟩ := byteAlignPtr_pos src offset
    have hmembers := allAt_storedPieces_struct h
    rw [← hptr] at hmembers
    obtain ⟨hcontents, hstop⟩ := loadMembers_contents ⟨0⟩ members ds hd hmembers
    have hend := stopAll_storedPieces_struct (8 * src + offset.bits) name members ds
    rw [← hptr] at hend
    refine ⟨hcontents, ?_⟩
    simp only [loadMember, hoffset]
    exact hstop.trans hend.symm

theorem loadMembers_contents {m : Machine} {src : ℕ} (offset : MemUnit) (ms : Members)
    (ds : ContentsAll ms) (hd : ContentsAll.Valid ms ds)
    (h : AllAt m.mem (8 * src + offset.bits) (storedPiecesAll ms ds)) :
    contentsAll m.mem ms (loadMembers m src offset ms).1 = ds ∧
      8 * (loadMembers m src offset ms).2.2 =
        alignUp (stopAll (storedPiecesAll ms ds) (8 * src + offset.bits)) := by
  match ms, ds with
  | .nil, _ => exact ⟨rfl, (byteAlignPtr_pos src offset).1⟩
  | .cons name t rest, (d, ds) =>
    simp only [storedPiecesAll_cons, allAt_append, stopAll_append] at h ⊢
    obtain ⟨hcontents, hstop⟩ := loadMember_contents offset t d hd.1 h.1
    have hmem := (loadMember_extent m src offset t).within.mem_eq
    obtain ⟨hcontents', hstop'⟩ := loadMembers_contents (m := (loadMember m src offset t).2.1)
      (loadMember m src offset t).2.2.2 rest ds hd.2 (by rw [hstop, hmem]; exact h.2)
    rw [hmem] at hcontents'
    rw [hstop] at hstop'
    exact ⟨Prod.ext hcontents hcontents', hstop'⟩

end

theorem loadMember_loaded {m : Machine} {mem : ByteMemory} {src : ℕ} (offset : MemUnit)
    (t : WireType) (c : CValue t) (hc : CValue.InRange t c) (hs : ∀ r ∈ slices t c, r.2 < 2 ^ 16)
    (h : AllAt m.mem (8 * src + offset.bits) (storedPieces t (contents mem t c))) :
    Loaded (loadMember m src offset t) (contents m.mem t) (contents mem t c)
      (stopAll (storedPieces t (contents mem t c)) (8 * src + offset.bits)) :=
  loadMember_contents offset t _ (contents_valid mem t c hc hs) h

/-- What a load call from `src` has made of the bytes that a store call wrote from `dest` on. -/
structure LoadsBack (t : WireType) (m : Machine) (dest : ℕ) (c : CValue t) (stored : Machine × ℕ)
    (m' : Machine) (src : ℕ) (loaded : CValue t × Machine × ℕ) : Prop where
  same_contents : contents loaded.2.1.mem t loaded.1 = contents m.mem t c
  same_advance : loaded.2.2 = src + (stored.2 - dest) ∧ dest ≤ stored.2
  outside_unchanged : ∀ a, a < dest ∨ stored.2 ≤ a → stored.1.mem a = m.mem a
  memory_unchanged : loaded.2.1.mem = m'.mem

/-- The load call may run on any machine that holds the stored bytes. -/
theorem loadCall_storeCall {t : WireType} (ht : t.isParameter = true) {m : Machine} {dest : ℕ}
    {c : CValue t} (hc : CValue.InRange t c)
    (hs : Stable dest (storeCall m dest t c).2 (slices t c)) {m' : Machine} {src : ℕ}
    (hbytes : read m'.mem src ((storeCall m dest t c).2 - dest) =
      read (storeCall m dest t c).1.mem dest ((storeCall m dest t c).2 - dest)) :
    LoadsBack t m dest c (storeCall m dest t c) m' src (loadCall m' src t) := by
  obtain ⟨hend, hwithin⟩ := storeCall_extent ht m dest c
  obtain ⟨hmem, hstop, -⟩ := storeCall_layout (m := m) ht hs.kept le_rfl hend.ge
  have hshift := stopAll_shift (storedPieces t (contents m.mem t c)) dest 0
  have hshift' := stopAll_shift (storedPieces t (contents m.mem t c)) src 0
  rw [Nat.add_zero] at hshift hshift'
  have hsize : stopAll (storedPieces t (contents m.mem t c)) 0 ≤
      8 * ((storeCall m dest t c).2 - dest) := by omega
  have hall := allAt_writeAll m.mem (storedPieces t (contents m.mem t c)) (8 * dest)
  rw [← hmem, ← allAt_ofList_read hsize, ← hbytes, allAt_ofList_read hsize] at hall
  obtain ⟨hcontents, hend'⟩ := loadMember_loaded ⟨0⟩ t c hc hs.short hall
  have hloads := (loadMember_extent m' src ⟨0⟩ t).within.mem_eq
  rw [loadMember_offset ht, Nat.add_zero, Nat.add_zero] at hend'
  refine ⟨?_, ⟨?_, by omega⟩, hwithin.mem_eq, hloads⟩
  · exact (congrArg (fun mem => contents mem t (loadMember m' src ⟨0⟩ t).1) hloads).trans hcontents
  · change (loadMember m' src ⟨0⟩ t).2.2.1 = _
    omega

def sampleType : WireType :=
  .struct "Sample" (.cons "mode" (.enum ⟨"Mode", .bitU 5, [("OFF", 0), ("ON", 17)], by decide⟩)
    (.cons "inner" (.struct "Inner" (.cons "flags" (.bitU 3) (.cons "data" (.list .u16) .nil)))
      (.cons "level" (.num .i8) .nil)))

def sampleValue : CValue sampleType := (17#32, (5#3, ⟨2000, 2⟩, ()), 0xFE#8, ())

def sampleMachine : Machine := ⟨ByteMemory.write (fun _ => 0) 2000 [0xAB, 0xCD, 0, 1], [], [], []⟩

theorem loadCall_storeCall_sample :
    LoadsBack sampleType sampleMachine 100 sampleValue (storeCall sampleMachine 100 sampleType
      sampleValue) (storeCall sampleMachine 100 sampleType sampleValue).1 100
      (loadCall (storeCall sampleMachine 100 sampleType sampleValue).1 100 sampleType) := by
  have hc : CValue.InRange sampleType sampleValue :=
    ⟨⟨17, by decide, rfl⟩, ⟨trivial, trivial, trivial⟩, trivial, trivial⟩
  have hend : (storeCall sampleMachine 100 sampleType sampleValue).2 = 109 := by decide +kernel
  have hs : Stable 100 (storeCall sampleMachine 100 sampleType sampleValue).2
      (slices sampleType sampleValue) := by
    intro r hr
    rw [show slices sampleType sampleValue = [(2000, 4)] from rfl, List.mem_singleton] at hr
    rw [hend, hr]
    exact ⟨by decide, fun k _ => .inr (by omega)⟩
  exact loadCall_storeCall (by decide) hc hs rfl

end CompostRpc
