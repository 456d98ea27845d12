import CompostRpc.MarkedLayout
import CompostRpc.SlicePlaces

/-!
# The layout that the generated C store functions write

The contents of a C value are the value with the bytes of its slices in place of the slices.
`markedPieces` is the format of a value with a mark at the start and at the end of every struct. The
generated store code aligns at every mark: it stores `storedPieces` of the contents, as long as the
slices lie outside the destination, or already where they are stored, and are short enough for their
length prefixes.
-/

namespace CompostRpc
open ByteMemory Piece Machine

theorem bituintStoreLoop_mem {fuel dest value byteIndex pos width : ℕ} (m : Machine)
    (hindex : 0 < width → byteIndex = pos / 8) :
    (bituintStoreLoop fuel m dest value byteIndex pos width).mem =
      storeBits fuel m.mem (8 * dest + pos) width value := by
  induction fuel generalizing m byteIndex pos width with
  | zero => rfl
  | succ fuel ih =>
    by_cases hw : width = 0
    · rw [bituintStoreLoop, if_neg (by omega), storeBits, if_pos hw]
    · have hbyte := hindex (by omega)
      have haddr : (8 * dest + pos) / 8 = dest + pos / 8 := by omega
      have hfill : (8 * dest + pos) % 8 = pos % 8 := by omega
      rw [bituintStoreLoop, if_pos (by omega), storeBits, if_neg hw]
      simp only [← Nat.min_def]
      rw [ih _ (by intro hrem; omega)]
      simp only [storeByte, Function.update_self, Function.update_idem, hbyte, haddr, hfill,
        Nat.one_shiftLeft, Nat.and_two_pow_sub_one_eq_mod, insertBits, Nat.add_assoc]

theorem bituintStore_mem (m : Machine) (dest value offset width : ℕ) :
    (bituintStore m dest value offset width).mem =
      (Piece.bits width value).write m.mem (8 * dest + offset) :=
  bituintStoreLoop_mem m fun _ => rfl

def Separate (lo hi : ℕ) (r : ℕ × ℕ) : Prop := ∀ k < r.2, r.1 + k < lo ∨ hi ≤ r.1 + k

/-- The regions are outside the addresses from `lo` to `hi`, and short enough for a length
prefix. -/
def Stable (lo hi : ℕ) (regions : List (ℕ × ℕ)) : Prop :=
  ∀ r ∈ regions, r.2 < 2 ^ 16 ∧ Separate lo hi r

theorem Stable.left {lo hi : ℕ} {rs rs' : List (ℕ × ℕ)} (h : Stable lo hi (rs ++ rs')) :
    Stable lo hi rs := fun r hr => h r (List.mem_append_left _ hr)

theorem Stable.right {lo hi : ℕ} {rs rs' : List (ℕ × ℕ)} (h : Stable lo hi (rs ++ rs')) :
    Stable lo hi rs' := fun r hr => h r (List.mem_append_right _ hr)

/-- A slice that the store code from `lo` to `hi` does not change before it copies it. -/
structure StoredSlice.Kept (lo hi : ℕ) (s : StoredSlice) : Prop where
  short : s.bytes < 2 ^ 16
  place : Separate lo hi s.region ∨ s.ptr = s.dataAddr

theorem StoredSlice.Kept.same {lo hi stop : ℕ} {s : StoredSlice} (h : s.Kept lo hi)
    {mem mem' : ByteMemory} (hmem : ∀ a, a < lo ∨ stop ≤ a → mem' a = mem a) (hhi : stop ≤ hi)
    (hdest : stop ≤ s.dest) : ∀ k < s.bytes, mem' (s.ptr + k) = mem (s.ptr + k) := by
  intro k hk
  apply hmem
  rcases h.place with hseparate | hplace
  · have hout := hseparate k hk
    simp only [region] at hout
    omega
  · right
    rw [hplace, dataAddr]
    omega

def sliceData (mem : ByteMemory) (inner : Numeric) (s : Slice) : List UInt8 :=
  read mem s.ptr (s.len.toNat * inner.size.bytes)

theorem sliceBytes_eq (mem : ByteMemory) {inner : Numeric} {s : Slice}
    (hlen : (Slice.region inner s).2 < 2 ^ 16) :
    sliceBytes inner s = (sliceData mem inner s).length := by
  rw [sliceBytes, sliceData, length_read]
  exact Nat.mod_eq_of_lt hlen

/-- A slice is copied behind its length, wherever its elements are. -/
theorem sliceStore_copied {m : Machine} {dest : ℕ} {inner : Numeric} {s : Slice}
    (hlen : (Slice.region inner s).2 < 2 ^ 16) (hptr : s.ptr ≠ dest) :
    (sliceStore inner m dest s).1.mem = ByteMemory.write m.mem dest
      (beBytes 2 (Slice.region inner s).2 ++ sliceData m.mem inner s) := by
  simp only [Slice.region] at hlen ⊢
  have hcount : (BitVec.ofNat 16 (s.len.toNat * inner.size.bytes)).toNat =
      s.len.toNat * inner.size.bytes := by
    rw [BitVec.toNat_ofNat, Nat.mod_eq_of_lt hlen]
  rw [← write_append_swap, length_beBytes]
  simp only [sliceStore, Nat.mod_eq_of_lt hlen, if_pos hptr]
  rw [numericStore_mem, memcpy, storeBytes_eq]
  exact congrArg (fun len => ByteMemory.write _ dest (beBytes 2 len)) hcount

/-- A slice at the destination is taken to be in place already. -/
theorem sliceStore_uncopied {m : Machine} {dest : ℕ} {inner : Numeric} {s : Slice}
    (hlen : (Slice.region inner s).2 < 2 ^ 16) (hptr : s.ptr = dest) :
    (sliceStore inner m dest s).1.mem =
      ByteMemory.write m.mem dest (beBytes 2 (Slice.region inner s).2) := by
  simp only [Slice.region] at hlen ⊢
  have hcount : (BitVec.ofNat 16 (s.len.toNat * inner.size.bytes)).toNat =
      s.len.toNat * inner.size.bytes := by
    rw [BitVec.toNat_ofNat, Nat.mod_eq_of_lt hlen]
  simp only [sliceStore, Nat.mod_eq_of_lt hlen, if_neg (not_not.mpr hptr)]
  rw [numericStore_mem]
  exact congrArg (fun len => ByteMemory.write _ dest (beBytes 2 len)) hcount

theorem sliceStore_mem {m : Machine} {lo hi dest : ℕ} {inner : Numeric} {s : Slice}
    (hs : (s.storedAt inner dest).Kept lo hi) (hlo : lo ≤ dest) (hhi : dest < hi) :
    (sliceStore inner m dest s).1.mem =
      (counted (sliceData m.mem inner s)).write m.mem (8 * dest) := by
  have hlen : (Slice.region inner s).2 < 2 ^ 16 := hs.short
  have hdata : (sliceData m.mem inner s).length = (Slice.region inner s).2 := length_read _ _ _
  have halign : alignUp (8 * dest) / 8 = dest := by unfold alignUp; omega
  simp only [counted, Piece.write, halign, hdata]
  by_cases hptr : s.ptr = dest
  · -- a slice at the pointer itself has no byte outside the destination
    have hnil : (Slice.region inner s).2 = 0 := by
      rcases hs.place with hseparate | hplace
      · by_contra hne
        have hout := hseparate 0 (Nat.pos_of_ne_zero hne)
        change s.ptr + 0 < lo ∨ hi ≤ s.ptr + 0 at hout
        omega
      · change s.ptr = dest + 2 at hplace
        omega
    have hempty : sliceData m.mem inner s = [] := List.eq_nil_of_length_eq_zero (hdata.trans hnil)
    rw [sliceStore_uncopied hlen hptr, hempty, List.append_nil]
  · exact sliceStore_copied hlen hptr

mutual

def Contents : WireType → Type
  | .num n => BitVec n.size.bits
  | .str | .bytes | .list _ => List UInt8
  | .bitU width => BitVec width
  | .enum _ => BitVec 32
  | .struct _ members => ContentsAll members

def ContentsAll : Members → Type
  | .nil => Unit
  | .cons _ t rest => Contents t × ContentsAll rest

end

mutual

def contents (mem : ByteMemory) : (t : WireType) → CValue t → Contents t
  | .num _, c => c
  | .str, s => sliceData mem .u8 s
  | .bytes, s => sliceData mem .u8 s
  | .list inner, s => sliceData mem inner s
  | .bitU _, c => c
  | .enum _, c => c
  | .struct _ members, cs => contentsAll mem members cs

def contentsAll (mem : ByteMemory) : (ms : Members) → CValues ms → ContentsAll ms
  | .nil, _ => ()
  | .cons _ t rest, c => (contents mem t c.1, contentsAll mem rest c.2)

end

theorem sliceData_congr_region {mem mem' : ByteMemory} {inner : Numeric} {s : Slice}
    (h : ∀ r ∈ [Slice.region inner s], ∀ k < r.2, mem' (r.1 + k) = mem (r.1 + k)) :
    sliceData mem' inner s = sliceData mem inner s :=
  read_congr (h _ (List.mem_singleton.mpr rfl))

mutual

/-- The contents depend on the bytes of the slices alone. -/
theorem contents_congr_slices {mem mem' : ByteMemory} (t : WireType) (c : CValue t)
    (h : ∀ r ∈ slices t c, ∀ k < r.2, mem' (r.1 + k) = mem (r.1 + k)) :
    contents mem' t c = contents mem t c := by
  match t, c with
  | .num n, _ | .bitU width, _ | .enum e, _ => rfl
  | .str, s => exact sliceData_congr_region h
  | .bytes, s => exact sliceData_congr_region h
  | .list inner, s => exact sliceData_congr_region h
  | .struct name members, cs => exact contentsAll_congr_slices members cs h

theorem contentsAll_congr_slices {mem mem' : ByteMemory} (ms : Members) (cs : CValues ms)
    (h : ∀ r ∈ slicesAll ms cs, ∀ k < r.2, mem' (r.1 + k) = mem (r.1 + k)) :
    contentsAll mem' ms cs = contentsAll mem ms cs := by
  match ms, cs with
  | .nil, _ => rfl
  | .cons name t rest, c =>
    exact Prod.ext
      (contents_congr_slices t c.1 fun r hr => h r (List.mem_append_left _ hr))
      (contentsAll_congr_slices rest c.2 fun r hr => h r (List.mem_append_right _ hr))

end

theorem contentsAll_congr {mem mem' : ByteMemory} {lo hi : ℕ} (ms : Members) (cs : CValues ms)
    (hs : Stable lo hi (slicesAll ms cs)) (hmem : ∀ a, a < lo ∨ hi ≤ a → mem' a = mem a) :
    contentsAll mem' ms cs = contentsAll mem ms cs :=
  contentsAll_congr_slices ms cs fun r hr k hk => hmem _ ((hs r hr).2 k hk)

mutual

theorem le_dest_of_storedSlices (o : ℕ) (t : WireType) (c : CValue t) :
    ∀ s ∈ storedSlices o t c, alignUp o / 8 ≤ s.dest := by
  intro s hs
  match t, c with
  | .num n, _ | .bitU width, _ | .enum e, _ => cases hs
  | .str, r | .bytes, r | .list inner, r =>
    cases List.mem_singleton.mp hs
    exact le_rfl
  | .struct name members, cs =>
    have hmembers := le_dest_of_storedSlicesAll (alignUp o) members cs s hs
    rwa [alignUp_alignUp] at hmembers

theorem le_dest_of_storedSlicesAll (o : ℕ) (ms : Members) (cs : CValues ms) :
    ∀ s ∈ storedSlicesAll o ms cs, alignUp o / 8 ≤ s.dest := by
  intro s hs
  match ms, cs with
  | .nil, _ => cases hs
  | .cons name t rest, c =>
    rcases List.mem_append.mp hs with hs | hs
    · exact le_dest_of_storedSlices o t c.1 s hs
    · have hrest := le_dest_of_storedSlicesAll (storedEnd o t c.1) rest c.2 s hs
      have hle := le_storedEnd o t c.1
      unfold alignUp at *
      omega

end

/-- A change in front of the members leaves their contents as they are. -/
theorem contentsAll_kept {mem mem' : ByteMemory} {lo hi e o : ℕ} (ms : Members)
    (cs : CValues ms) (hs : ∀ s ∈ storedSlicesAll o ms cs, s.Kept lo hi)
    (hmem : ∀ a, a < lo ∨ e ≤ a → mem' a = mem a) (hhi : e ≤ hi)
    (hstop : e ≤ alignUp o / 8) : contentsAll mem' ms cs = contentsAll mem ms cs := by
  refine contentsAll_congr_slices ms cs fun r hr => ?_
  rw [← map_region_storedSlicesAll o] at hr
  obtain ⟨s, hmemS, rfl⟩ := List.mem_map.mp hr
  exact (hs s hmemS).same hmem hhi (hstop.trans (le_dest_of_storedSlicesAll o ms cs s hmemS))

mutual

def markedPieces : (t : WireType) → Contents t → List Token
  | .num n, v => [.piece (.bytes (beBytes n.size.bytes (BitVec.toNat v)))]
  | .str, d => [.piece (counted d)]
  | .bytes, d => [.piece (counted d)]
  | .list _, d => [.piece (counted d)]
  | .bitU width, v => [.piece (.bits width (BitVec.toNat v))]
  | .enum e, v =>
    match e.backing.repr with
    | .inl n =>
      [.piece (.bytes (beBytes n.size.bytes (BitVec.toNat (BitVec.setWidth n.size.bits v))))]
    | .inr width => [.piece (.bits width (BitVec.toNat v))]
  | .struct _ members, vs =>
    .mark .opening :: markedPiecesAll members vs ++ [.mark .closing]

def markedPiecesAll : (ms : Members) → ContentsAll ms → List Token
  | .nil, _ => []
  | .cons _ t rest, v => markedPieces t v.1 ++ markedPiecesAll rest v.2

end

def storedPieces (t : WireType) (d : Contents t) : List Piece :=
  honoured allMarks (markedPieces t d)

def storedPiecesAll (ms : Members) (d : ContentsAll ms) : List Piece :=
  honoured allMarks (markedPiecesAll ms d)

theorem storedPiecesAll_cons {name : String} {t : WireType} {rest : Members} (d : Contents t)
    (ds : ContentsAll rest) : storedPiecesAll (.cons name t rest) (d, ds) =
      storedPieces t d ++ storedPiecesAll rest ds := honoured_append _ _ _

theorem writeAll_storedPieces_struct (m : ByteMemory) (o : ℕ) (name : String) (members : Members)
    (d : ContentsAll members) : writeAll m o (storedPieces (.struct name members) d) =
      writeAll m (alignUp o) (storedPiecesAll members d) := by
  simp only [storedPieces, markedPieces, List.cons_append, honoured, honoured_append, allMarks,
    if_true, storedPiecesAll, writeAll_align, writeAll_append]
  rfl

theorem stopAll_storedPieces_struct (o : ℕ) (name : String) (members : Members)
    (d : ContentsAll members) : stopAll (storedPieces (.struct name members) d) o =
      alignUp (stopAll (storedPiecesAll members d) (alignUp o)) := by
  simp only [storedPieces, markedPieces, List.cons_append, honoured, honoured_append, allMarks,
    if_true, storedPiecesAll, stopAll_align, stopAll_append]
  rfl

mutual

theorem storedEnd_eq_stopAll (mem : ByteMemory) (o : ℕ) (t : WireType) (c : CValue t)
    (hs : ∀ r ∈ slices t c, r.2 < 2 ^ 16) :
    storedEnd o t c = stopAll (storedPieces t (contents mem t c)) o := by
  -- a counted field, for the three types that are stored from a slice
  have hslice : ∀ (inner : Numeric) (s : Slice), (Slice.region inner s).2 < 2 ^ 16 →
      alignUp o + 8 * (2 + sliceBytes inner s) = stopAll [counted (sliceData mem inner s)] o := by
    intro inner s hlen
    rw [sliceBytes_eq mem hlen]
    simp only [stopAll, counted, stop, List.length_append, length_beBytes]
  match t, c with
  | .num n, v =>
    simp only [storedEnd, storedPieces, markedPieces, contents, honoured, stopAll, stop,
      length_beBytes, n.size_bits]
  | .str, s => exact hslice .u8 s (hs _ (List.mem_singleton.mpr rfl))
  | .bytes, s => exact hslice .u8 s (hs _ (List.mem_singleton.mpr rfl))
  | .list inner, s => exact hslice inner s (hs _ (List.mem_singleton.mpr rfl))
  | .bitU width, v => rfl
  | .enum e, v =>
    simp only [storedEnd, storedPieces, markedPieces, contents]
    cases he : e.backing.repr with
    | inl n => simp only [honoured, stopAll, stop, length_beBytes, n.size_bits]
    | inr width => rfl
  | .struct name members, cs =>
    simp only [contents, stopAll_storedPieces_struct]
    exact storedEndMembers_eq_stopAll mem _ members cs hs

theorem storedEndMembers_eq_stopAll (mem : ByteMemory) (o : ℕ) (ms : Members) (cs : CValues ms)
    (hs : ∀ r ∈ slicesAll ms cs, r.2 < 2 ^ 16) :
    storedEndMembers o ms cs =
      alignUp (stopAll (storedPiecesAll ms (contentsAll mem ms cs)) o) := by
  match ms, cs with
  | .nil, _ => rfl
  | .cons name t rest, (c, cs) =>
    simp only [contentsAll, storedPiecesAll_cons, stopAll_append, storedEndMembers]
    rw [storedEnd_eq_stopAll mem o t c fun r hr => hs r (List.mem_append_left _ hr)]
    exact storedEndMembers_eq_stopAll mem _ rest cs fun r hr => hs r (List.mem_append_right _ hr)

end

theorem Stable.short {lo hi : ℕ} {rs : List (ℕ × ℕ)} (h : Stable lo hi rs) :
    ∀ r ∈ rs, r.2 < 2 ^ 16 := fun r hr => (h r hr).1

theorem short_of_kept {o lo hi : ℕ} {t : WireType} {c : CValue t}
    (hs : ∀ s ∈ storedSlices o t c, s.Kept lo hi) : ∀ r ∈ slices t c, r.2 < 2 ^ 16 := by
  intro r hr
  rw [← map_region_storedSlices o] at hr
  obtain ⟨s, hmem, rfl⟩ := List.mem_map.mp hr
  exact (hs s hmem).short

mutual

theorem storeMember_mem {m : Machine} {lo hi dest : ℕ} (offset : MemUnit) (t : WireType)
    (c : CValue t) (hs : ∀ s ∈ storedSlices (8 * dest + offset.bits) t c, s.Kept lo hi)
    (hlo : lo ≤ dest) (hstop : storedEnd (8 * dest + offset.bits) t c ≤ 8 * hi) :
    (storeMember m dest offset t c).1.mem =
      writeAll m.mem (8 * dest + offset.bits) (storedPieces t (contents m.mem t c)) := by
  obtain ⟨hptr, -, hle⟩ := byteAlignPtr_pos dest offset
  have hdiv : alignUp (8 * dest + offset.bits) / 8 = (byteAlignPtr dest offset).1 := by omega
  -- a counted field, for the three types that are stored from a slice
  have hslice : ∀ (inner : Numeric) (s : Slice),
      (∀ r ∈ [s.storedAt inner (alignUp (8 * dest + offset.bits) / 8)], r.Kept lo hi) →
      alignUp (8 * dest + offset.bits) + 8 * (2 + sliceBytes inner s) ≤ 8 * hi →
      (sliceStore inner m (byteAlignPtr dest offset).1 s).1.mem =
        writeAll m.mem (8 * dest + offset.bits) [counted (sliceData m.mem inner s)] := by
    intro inner s hs hend
    have hkept := hs _ (List.mem_singleton.mpr rfl)
    rw [hdiv] at hkept
    rw [sliceStore_mem hkept (by omega) (by omega), hptr]
    simp only [writeAll, counted, Piece.write, alignUp_alignUp]
  match t, c with
  | .num n, v =>
    simp only [storedPieces, markedPieces, contents, honoured, writeAll, Piece.write, hdiv]
    exact numericStore_mem n m _ v
  | .str, s => exact hslice .u8 s hs hstop
  | .bytes, s => exact hslice .u8 s hs hstop
  | .list inner, s => exact hslice inner s hs hstop
  | .bitU width, v => exact bituintStore_mem m dest _ offset.bits width
  | .enum e, v =>
    simp only [storeMember, storedPieces, markedPieces, contents]
    cases he : e.backing.repr with
    | inl n =>
      simp only [honoured, writeAll, Piece.write, hdiv]
      exact numericStore_mem n m _ _
    | inr width => exact bituintStore_mem m dest _ offset.bits width
  | .struct name members, cs =>
    simp only [storedEnd, storedSlices, contents, writeAll_storedPieces_struct, ← hptr]
      at hs hstop ⊢
    exact storeMembers_mem ⟨0⟩ members cs hs (hlo.trans hle) hstop

theorem storeMembers_mem {m : Machine} {lo hi dest : ℕ} (offset : MemUnit) (ms : Members)
    (cs : CValues ms) (hs : ∀ s ∈ storedSlicesAll (8 * dest + offset.bits) ms cs, s.Kept lo hi)
    (hlo : lo ≤ dest) (hstop : storedEndMembers (8 * dest + offset.bits) ms cs ≤ 8 * hi) :
    (storeMembers m dest offset ms cs).1.mem =
      writeAll m.mem (8 * dest + offset.bits) (storedPiecesAll ms (contentsAll m.mem ms cs)) := by
  match ms, cs with
  | .nil, _ => rfl
  | .cons name t rest, (c, cs) =>
    simp only [contentsAll, storedPiecesAll_cons, writeAll_append, storedEndMembers] at hstop ⊢
    have hfirst : ∀ s ∈ storedSlices (8 * dest + offset.bits) t c, s.Kept lo hi :=
      fun s hmem => hs s (List.mem_append_left _ hmem)
    have hothers : ∀ s ∈ storedSlicesAll (storedEnd (8 * dest + offset.bits) t c) rest cs,
        s.Kept lo hi := fun s hmem => hs s (List.mem_append_right _ hmem)
    have hmid := (le_storedEndMembers _ rest cs).trans hstop
    have hmem := storeMember_mem (m := m) offset t c hfirst hlo hmid
    obtain ⟨hpos, hle, hwithin⟩ := storeMember_extent m dest offset t c
    have hcontents : contentsAll (storeMember m dest offset t c).1.mem rest cs =
        contentsAll m.mem rest cs := by
      refine contentsAll_kept rest cs hothers (e := (storeMember m dest offset t c).2.1 +
        ((storeMember m dest offset t c).2.2.bits + 7) / 8)
        (fun a ha => hwithin.mem_eq a ?_) ?_ ?_
      all_goals unfold alignUp at *; omega
    have hrest := storeMembers_mem (m := (storeMember m dest offset t c).1)
      (storeMember m dest offset t c).2.2 rest cs (by rw [hpos]; exact hothers) (hlo.trans hle)
      (by rw [hpos]; exact hstop)
    rw [hpos, hcontents, hmem, storedEnd_eq_stopAll m.mem _ t c (short_of_kept hfirst)] at hrest
    exact hrest

end

/-- Slices outside the destination are not changed. -/
theorem Stable.kept {lo hi o : ℕ} {t : WireType} {c : CValue t} (h : Stable lo hi (slices t c)) :
    ∀ s ∈ storedSlices o t c, s.Kept lo hi := by
  intro s hs
  have hregion : s.region ∈ slices t c :=
    map_region_storedSlices o t c ▸ List.mem_map_of_mem hs
  exact ⟨(h _ hregion).1, .inl (h _ hregion).2⟩

/-- The layout of a parameter ends at a whole byte. -/
theorem stopAll_storedPieces_mod {t : WireType} (ht : t.isParameter = true) (d : Contents t)
    (o : ℕ) : stopAll (storedPieces t d) o % 8 = 0 := by
  have hup := alignUp_mod o
  cases t with
  | num n =>
    simp only [storedPieces, markedPieces, honoured, stopAll, stop]
    omega
  | bitU width => cases ht
  | enum e =>
    simp only [WireType.isParameter] at ht
    simp only [storedPieces, markedPieces]
    cases he : e.backing.repr with
    | inl n =>
      simp only [honoured, stopAll, stop]
      omega
    | inr width => rw [he] at ht; cases ht
  | struct name members =>
    have hstop := stopAll_storedPieces_struct o name members d
    exact hstop ▸ alignUp_mod _
  | _ =>
    simp only [storedPieces, markedPieces, honoured, counted, stopAll, stop]
    omega

theorem stopAll_storedPiecesAll_mod {ms : Members} (hms : ms.areParameters = true)
    (d : ContentsAll ms) {o : ℕ} (ho : o % 8 = 0) : stopAll (storedPiecesAll ms d) o % 8 = 0 := by
  induction ms using Members.induction generalizing o with
  | nil => exact ho
  | cons name t rest ih =>
    obtain ⟨d, ds⟩ := d
    simp only [Members.areParameters, Bool.and_eq_true] at hms
    rw [storedPiecesAll_cons, stopAll_append]
    exact ih hms.2 ds (stopAll_storedPieces_mod hms.1 d o)

/-- What a sequence of store calls from pointer `dest` has done: it stored the layout and ended
behind it. -/
structure StoredLayout (m : Machine) (dest : ℕ) (ps : List Piece) (r : Machine × ℕ) : Prop where
  mem_eq : r.1.mem = writeAll m.mem (8 * dest) ps
  stop_eq : 8 * r.2 = stopAll ps (8 * dest)
  within : StoresWithin m r.1 dest r.2

theorem storedSize_eq_stopAll {t : WireType} (ht : t.isParameter = true) (mem : ByteMemory)
    (dest : ℕ) {c : CValue t} (hs : ∀ r ∈ slices t c, r.2 < 2 ^ 16) :
    8 * (dest + storedSize t c) = stopAll (storedPieces t (contents mem t c)) (8 * dest) := by
  have hmod := stopAll_storedPieces_mod ht (contents mem t c) 0
  have hshift := stopAll_shift (storedPieces t (contents mem t c)) dest 0
  rw [Nat.add_zero] at hshift
  rw [hshift, storedSize, storedEnd_eq_stopAll mem 0 t c hs]
  omega

theorem storeCall_layout {m : Machine} {lo hi dest : ℕ} {t : WireType} {c : CValue t}
    (ht : t.isParameter = true) (hs : ∀ s ∈ storedSlices (8 * dest) t c, s.Kept lo hi)
    (hlo : lo ≤ dest) (hstop : dest + storedSize t c ≤ hi) :
    StoredLayout m dest (storedPieces t (contents m.mem t c)) (storeCall m dest t c) := by
  obtain ⟨hend, hwithin⟩ := storeCall_extent ht m dest c
  have hshort := short_of_kept hs
  have hsize := storedSize_eq_stopAll ht m.mem dest hshort
  refine ⟨storeMember_mem ⟨0⟩ t c hs hlo ?_, by rw [hend, hsize], hwithin⟩
  rw [Nat.add_zero, storedEnd_eq_stopAll m.mem _ t c hshort]
  omega

/-- Where the calls end does not depend on the memory. -/
theorem storeCalls_end {m : Machine} {dest : ℕ} {ms : Members} {cs : CValues ms}
    (hms : ms.areParameters = true) (mem : ByteMemory) (hs : ∀ r ∈ slicesAll ms cs, r.2 < 2 ^ 16) :
    8 * (storeCalls m dest ms cs).2 =
      stopAll (storedPiecesAll ms (contentsAll mem ms cs)) (8 * dest) := by
  induction ms using Members.induction generalizing m dest with
  | nil => rfl
  | cons name t rest ih =>
    obtain ⟨c, cs⟩ := cs
    simp only [Members.areParameters, Bool.and_eq_true] at hms
    have hhead : ∀ r ∈ slices t c, r.2 < 2 ^ 16 := fun r hr => hs r (List.mem_append_left _ hr)
    obtain ⟨hend, -⟩ := storeCall_extent hms.1 m dest c
    have hrest : 8 * (storeCalls (storeCall m dest t c).1 (storeCall m dest t c).2 rest cs).2 = _ :=
      ih hms.2 fun r hr => hs r (List.mem_append_right _ hr)
    rw [hend, storedSize_eq_stopAll hms.1 mem dest hhead] at hrest
    simp only [contentsAll, storedPiecesAll_cons, stopAll_append]
    rw [← hrest, ← hend]
    rfl

theorem storeCalls_layout {m : Machine} {lo hi dest : ℕ} {ms : Members} {cs : CValues ms}
    (hms : ms.areParameters = true) (hs : Stable lo hi (slicesAll ms cs)) (hlo : lo ≤ dest)
    (hstop : stopAll (storedPiecesAll ms (contentsAll m.mem ms cs)) (8 * dest) ≤ 8 * hi) :
    StoredLayout m dest (storedPiecesAll ms (contentsAll m.mem ms cs))
      (storeCalls m dest ms cs) := by
  induction ms using Members.induction generalizing m dest with
  | nil => exact ⟨rfl, rfl, .refl _ _ _⟩
  | cons name t rest ih =>
    obtain ⟨c, cs⟩ := cs
    replace hs : Stable lo hi (slices t c ++ slicesAll rest cs) := hs
    simp only [Members.areParameters, Bool.and_eq_true] at hms
    simp only [contentsAll, storedPiecesAll_cons, stopAll_append] at hstop ⊢
    have hmid := (le_stopAll (storedPiecesAll rest _) _).trans hstop
    have hsize := storedSize_eq_stopAll hms.1 m.mem dest hs.left.short
    obtain ⟨hmem, hpos, hwithin⟩ := storeCall_layout (m := m) hms.1 hs.left.kept hlo (by omega)
    have hgrow := le_stopAll (storedPieces t (contents m.mem t c)) (8 * dest)
    have hcontents : contentsAll (storeCall m dest t c).1.mem rest cs =
        contentsAll m.mem rest cs :=
      contentsAll_congr rest cs hs.right fun a ha => hwithin.mem_eq a (by omega)
    have hlo' : lo ≤ (storeCall m dest t c).2 := by omega
    obtain ⟨hmem', hpos', hwithin'⟩ := ih (m := (storeCall m dest t c).1) hms.2 hs.right hlo'
      (by rw [hpos, hcontents]; exact hstop)
    rw [hcontents, hpos] at hmem' hpos'
    have hgrow' := le_stopAll (storedPiecesAll rest (contentsAll m.mem rest cs))
      (stopAll (storedPieces t (contents m.mem t c)) (8 * dest))
    refine ⟨?_, hpos'.trans (stopAll_append _ _ _).symm, ?_⟩
    · rw [writeAll_append, ← hmem]
      exact hmem'
    · have hmono : (storeCall m dest t c).2 ≤
          (storeCalls (storeCall m dest t c).1 (storeCall m dest t c).2 rest cs).2 := by
        omega
      exact (hwithin.mono le_rfl hmono).trans (hwithin'.mono (by omega) le_rfl)

end CompostRpc
