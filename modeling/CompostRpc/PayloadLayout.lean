import CompostRpc.CsMessages

/-!
# The layout of C# objects and the layout in C

`csPieces` of an object is the format of the corresponding contents for one who aligns at no mark.
Objects that differ in packed properties only have the same sizes, and there is one with a given bit
in every packed property.
-/

namespace Piece
open ByteMemory

def noMarks : Mark → Bool := fun _ => false

/-- Two ways to cut a layout into pieces. -/
structure SameLayout (ps qs : List Piece) : Prop where
  writes : ∀ m o, writeAll m o ps = writeAll m o qs
  stops : ∀ o, stopAll ps o = stopAll qs o

theorem SameLayout.refl (ps : List Piece) : SameLayout ps ps := ⟨fun _ _ => rfl, fun _ => rfl⟩

theorem SameLayout.trans {ps qs rs : List Piece} (h : SameLayout ps qs) (h' : SameLayout qs rs) :
    SameLayout ps rs :=
  ⟨fun m o => (h.writes m o).trans (h'.writes m o), fun o => (h.stops o).trans (h'.stops o)⟩

theorem SameLayout.append {ps qs ps' qs' : List Piece} (h : SameLayout ps qs)
    (h' : SameLayout ps' qs') : SameLayout (ps ++ ps') (qs ++ qs') := by
  refine ⟨fun m o => ?_, fun o => ?_⟩
  · rw [writeAll_append, writeAll_append, h.writes, h.stops, h'.writes]
  · rw [stopAll_append, stopAll_append, h.stops, h'.stops]

/-- Byte strings one behind the other are one byte string. -/
theorem sameLayout_bytes (data data' : List UInt8) :
    SameLayout [bytes data, bytes data'] [bytes (data ++ data')] := by
  have hstop : ∀ o, alignUp (alignUp o + 8 * data.length) = alignUp o + 8 * data.length :=
    fun o => alignUp_of_mod (by have hmod := alignUp_mod o; omega)
  refine ⟨fun m o => ?_, fun o => ?_⟩
  · have hdiv : (alignUp o + 8 * data.length) / 8 = alignUp o / 8 + data.length := by omega
    simp only [writeAll, write, stop, hstop, hdiv, write_append]
  · simp only [stopAll, stop, hstop, List.length_append]
    omega

theorem sameLayout_flatMap {α : Type} (f : α → List UInt8) (data : List UInt8) (xs : List α) :
    SameLayout (bytes data :: xs.flatMap fun x => [bytes (f x)])
      [bytes (data ++ xs.flatMap f)] := by
  induction xs generalizing data with
  | nil =>
    simp only [List.flatMap_nil, List.append_nil]
    exact .refl _
  | cons x xs ih =>
    have hjoin := (sameLayout_bytes data (f x)).append (.refl (xs.flatMap fun x => [bytes (f x)]))
    have htail := ih (data ++ f x)
    rw [List.append_assoc, ← List.flatMap_cons] at htail
    exact hjoin.trans htail

/-- A layout without the alignments is the layout with them, if no field is shifted by one. -/
theorem SameLayout.unmarked {ps : List Piece} {tokens : List Token} {s : Stand}
    (h : SameLayout ps (honoured noMarks tokens)) (hwalk : walk noMarks .aligned tokens = some s)
    (m : ByteMemory) :
    (AllAt m 0 ps ↔ AllAt m 0 (honoured allMarks tokens)) ∧
      stopAll ps 0 ≤ stopAll (honoured allMarks tokens) 0 ∧
      stopAll (honoured allMarks tokens) 0 ≤ alignUp (stopAll ps 0) := by
  have haligned : Stand.aligned.At 0 0 := Stand.at_aligned rfl
  obtain ⟨-, hstop⟩ := walk_same hwalk haligned
  have hend := hstop.other_eq
  have hup := le_alignUp (stopAll ps 0)
  rw [← h.stops] at hend
  refine ⟨?_, ?_⟩
  · rw [allAt_walk_iff hwalk haligned, allAt_iff_writeAll_eq, allAt_iff_writeAll_eq, h.writes]
  · split at hend <;> omega

end Piece

namespace CompostRpc
open ByteMemory Piece Serialization

def csTokens (ps : CsProperties) (xs : CsValues ps) : List Token :=
  markedPiecesAll ps.wireAll (csContentsAll ps xs)

theorem length_flatMap_elementBytes {element : CsType} (h : element.scalar.isSome = true)
    (xs : List (CsValue element)) :
    (xs.flatMap (elementBytes element)).length = xs.length * element.numeric.size.bytes := by
  induction xs with
  | nil => exact (Nat.zero_mul _).symm
  | cons x xs ih =>
    rw [List.flatMap_cons, List.length_append, ih, length_elementBytes h, List.length_cons]
    ring

theorem csBits_list {element : CsType} (h : element.scalar.isSome = true)
    (xs : List (CsValue element)) :
    csBits (.list element) xs = 8 * (xs.flatMap (elementBytes element)).length + 16 := by
  rw [length_flatMap_elementBytes h]
  cases xs with
  | nil =>
    simp only [csBits, List.length_nil, Nat.zero_mul, Nat.mul_zero, Nat.zero_add]
  | cons x rest =>
    simp only [csBits, csBits_scalar h, Numeric.size_bits, List.length_cons]
    ring

theorem lengthPrefix_toNat {element : CsType} (h : element.scalar.isSome = true)
    {xs : List (CsValue element)}
    (hlen : (xs.flatMap (elementBytes element)).length < 2 ^ 16) :
    (lengthPrefix element xs).toNat = (xs.flatMap (elementBytes element)).length := by
  rw [length_flatMap_elementBytes h] at hlen ⊢
  cases xs with
  | nil => exact (Nat.zero_mul _).symm
  | cons x rest =>
    simp only [lengthPrefix, getObjectSize_scalar h, UInt16.toNat_mul, UInt16.toNat_ofNat']
    rw [← Nat.mul_mod, Nat.mod_eq_of_lt hlen]

theorem scalar_layout {t : CsType} (h : t.scalar.isSome = true) (x : CsValue t) :
    csPieces t x = honoured noMarks (markedPieces t.wire (csContents t x)) := by
  cases t with
  | bool =>
    cases x <;> rfl
  | char =>
    have hbyte : beBytes 1 (UInt16.toUInt8 x).toBitVec.toNat = [UInt16.toUInt8 x] := by
      simp only [beBytes, Nat.mul_zero, Nat.shiftRight_zero, UInt8.toNat_toBitVec,
        UInt8.ofNat_toNat]
    exact congrArg (fun data => [bytes data]) hbyte.symm
  | num n | enum n => rfl
  | string | list element | cls properties => cases h

theorem list_layout {element : CsType} (h : element.scalar.isSome = true)
    {xs : List (CsValue element)}
    (hlen : (xs.flatMap (elementBytes element)).length < 2 ^ 16) :
    SameLayout (csPieces (.list element) xs)
      [counted (xs.flatMap (elementBytes element))] := by
  have hpieces : csPieces element = fun x => [bytes (elementBytes element x)] :=
    funext (csPieces_scalar h)
  have hpos := element.numeric.size_bytes_pos
  have hcount : xs.length < 2 ^ 16 := by
    rw [length_flatMap_elementBytes h] at hlen
    exact (Nat.le_mul_of_pos_right _ hpos).trans_lt hlen
  change SameLayout (bytes (beBytes 2 (lengthPrefix element xs).toNat) ::
    (xs.take (UInt16.ofNat xs.length).toNat).flatMap (csPieces element)) _
  rw [take_ofNat_length hcount, hpieces, lengthPrefix_toNat h hlen]
  exact sameLayout_flatMap _ _ _

theorem packedNat_unsigned {n : Numeric} (hkind : n.kind = .unsigned) (hn : n ≠ .u64)
    {size : BufferUnit} (hsize : size.bits ≤ 32) {x : BitVec n.size.bits}
    (hfit : x.toNat < 2 ^ size.bits) :
    packedNat (.num n) x size = (BitVec.ofNat (Fin.ofNat 33 size.bits) x.toNat).toNat := by
  have hsmall : size.bits < 64 := by omega
  have hbits := integerToBits_unsigned hkind (size_bits_ne hkind hn) x hsmall
  have hwidth : ((Fin.ofNat 33 size.bits : Fin 33) : ℕ) = size.bits :=
    Nat.mod_eq_of_lt (by omega)
  rw [if_pos hfit] at hbits
  have hbytes : packedNat (.num n) x size = (x.setWidth 64).toNat % 2 ^ size.bits := by
    simp only [packedNat, hbits, toNat_emod_toInt _ (show size.bits ≤ 64 by omega)]
  rw [hbytes, toNat_setWidth_numeric, BitVec.toNat_ofNat, hwidth]

mutual

/-- What C# writes is the format without alignment at the classes. -/
theorem csPieces_layout (t : CsType) (x : CsValue t) (hw : t.hasWire = true)
    (hp : t.noPackedULong = true) (hfit : PacksFit t x) (hbits : csBits t x < 2 ^ 16) :
    SameLayout (csPieces t x) (honoured noMarks (markedPieces t.wire (csContents t x))) := by
  match t, x with
  | .bool, x | .char, x | .num n, x | .enum n, x =>
    rw [scalar_layout rfl]
    exact .refl _
  | .string, _ => cases hw
  | .list element, xs =>
    have hscalar : element.scalar.isSome = true := hw
    have hlen := csBits_list hscalar xs
    exact list_layout hscalar (by omega)
  | .cls properties, xs =>
    have hlayout := csPropertiesPieces_layout properties xs hw hp hfit hbits
    simp only [CsType.wire, markedPieces, List.cons_append, honoured, honoured_append, noMarks,
      Bool.false_eq_true, if_false, List.append_nil]
    exact hlayout

theorem csPropertiesPieces_layout (ps : CsProperties) (xs : CsValues ps) (hw : ps.haveWire = true)
    (hp : ps.noPackedULong = true) (hfit : AllPacksFit ps xs) (hbits : csBitsAll ps xs < 2 ^ 16) :
    SameLayout (csPropertiesPieces ps xs) (honoured noMarks (csTokens ps xs)) := by
  match ps, xs with
  | .nil, _ => exact .refl _
  | .cons t none rest, (x, xs) =>
    simp only [CsProperties.haveWire, CsProperties.noPackedULong, Bool.and_eq_true] at hw hp
    simp only [csBitsAll] at hbits
    have hhead := csPieces_layout t x hw.1 hp.1 hfit.1 (by omega)
    have htail := csPropertiesPieces_layout rest xs hw.2 hp.2 hfit.2 (by omega)
    simp only [csTokens, CsProperties.wireAll, csContentsAll, markedPiecesAll, honoured_append]
    exact hhead.append htail
  | .cons t (some size) rest, (x, xs) =>
    simp only [CsProperties.haveWire, CsProperties.noPackedULong, Bool.and_eq_true] at hw hp
    simp only [csBitsAll] at hbits
    have htail := csPropertiesPieces_layout rest xs hw.2 hp.2 hfit.2 (by omega)
    simp only [csTokens, CsProperties.wireAll, csContentsAll, markedPiecesAll, honoured_append]
    cases t with
    | num n =>
      simp only [Bool.and_eq_true, beq_iff_eq, bne_iff_ne, decide_eq_true_eq] at hw hp
      have hwidth : ((Fin.ofNat 33 size.bits : Fin 33) : ℕ) = size.bits :=
        Nat.mod_eq_of_lt (by omega)
      have hhead : SameLayout [.bits size.bits (packedNat (.num n) x size)]
          (honoured noMarks (markedPieces (.bitU (Fin.ofNat 33 size.bits))
            (BitVec.ofNat (Fin.ofNat 33 size.bits) (rawNat (.num n) x)))) := by
        simp only [markedPieces, honoured, hwidth, packedNat_unsigned hw.1.1 hp.1 hw.1.2 hfit.1]
        exact .refl _
      exact hhead.append htail
    | _ => cases hw.1

end

mutual

def SameUnpacked : (t : CsType) → CsValue t → CsValue t → Prop
  | .cls properties, xs, ys => SameUnpackedAll properties xs ys
  | .bool, x, y | .char, x, y | .num _, x, y | .enum _, x, y | .string, x, y | .list _, x, y =>
    x = y

def SameUnpackedAll : (ps : CsProperties) → CsValues ps → CsValues ps → Prop
  | .nil, _, _ => True
  | .cons t packedSize rest, x, y =>
    (match packedSize with
      | none => SameUnpacked t x.1 y.1
      | some _ => True) ∧ SameUnpackedAll rest x.2 y.2

end

mutual

theorem SameUnpacked.size_eq (t : CsType) (x y : CsValue t) (h : SameUnpacked t x y) :
    csBits t x = csBits t y ∧ withBits 0 (markedPieces t.wire (csContents t x)) =
      withBits 0 (markedPieces t.wire (csContents t y)) := by
  match t with
  | .bool | .char | .num n | .enum n | .string | .list element =>
    cases (show x = y from h)
    exact ⟨rfl, rfl⟩
  | .cls properties =>
    obtain ⟨hbits, htokens⟩ := SameUnpackedAll.size_eq properties x y h
    refine ⟨hbits, ?_⟩
    simp only [CsType.wire, markedPieces, List.cons_append, withBits, withBits_append]
    exact congrArg (fun ts => .mark .opening :: (ts ++ _)) htokens

theorem SameUnpackedAll.size_eq (ps : CsProperties) (xs ys : CsValues ps)
    (h : SameUnpackedAll ps xs ys) : csBitsAll ps xs = csBitsAll ps ys ∧
      withBits 0 (csTokens ps xs) = withBits 0 (csTokens ps ys) := by
  match ps, xs, ys with
  | .nil, _, _ => exact ⟨rfl, rfl⟩
  | .cons t none rest, (x, xs), (y, ys) =>
    obtain ⟨hbits, htokens⟩ := SameUnpacked.size_eq t x y h.1
    obtain ⟨hbits', htokens'⟩ := SameUnpackedAll.size_eq rest xs ys h.2
    refine ⟨congrArg₂ (· + ·) hbits hbits', ?_⟩
    simp only [csTokens, CsProperties.wireAll, csContentsAll, markedPiecesAll, withBits_append]
    exact congrArg₂ (· ++ ·) htokens htokens'
  | .cons t (some size) rest, (x, xs), (y, ys) =>
    obtain ⟨hbits, htokens⟩ := SameUnpackedAll.size_eq rest xs ys h.2
    refine ⟨congrArg (size.bits + ·) hbits, ?_⟩
    simp only [csTokens, CsProperties.wireAll, csContentsAll, markedPiecesAll, withBits_append]
    refine congrArg₂ (· ++ ·) ?_ htokens
    simp only [markedPieces, withBits, setBits, Nat.zero_mod]

end

theorem rawNat_ofNat_le_one (n : Numeric) {v : ℕ} (hv : v ≤ 1) :
    rawNat (.num n) (BitVec.ofNat n.size.bits v) = v := by
  have hpow : 2 ^ 1 ≤ 2 ^ n.size.bits := by
    apply Nat.pow_le_pow_right (by decide)
    rw [n.size_bits]
    have hpos := n.size_bytes_pos
    omega
  simp only [rawNat, BitVec.toNat_ofNat]
  exact Nat.mod_eq_of_lt (by omega)

mutual

/-- The same object with the bit `v` in every packed property. -/
theorem exists_withPacked {v : ℕ} (hv : v ≤ 1) (t : CsType) (x : CsValue t)
    (hw : t.hasWire = true) : ∃ y, SameUnpacked t x y ∧ PacksFit t y ∧
      markedPieces t.wire (csContents t y) = withBits v (markedPieces t.wire (csContents t x)) := by
  match t with
  | .bool | .char | .num n | .enum n | .list element => exact ⟨x, rfl, trivial, rfl⟩
  | .string => cases hw
  | .cls properties =>
    obtain ⟨ys, hsame, hfit, htokens⟩ := exists_withPackedAll hv properties x hw
    refine ⟨ys, hsame, hfit, ?_⟩
    simp only [CsType.wire, markedPieces, List.cons_append, withBits, withBits_append]
    exact congrArg (fun ts => .mark .opening :: (ts ++ _)) htokens

theorem exists_withPackedAll {v : ℕ} (hv : v ≤ 1) (ps : CsProperties) (xs : CsValues ps)
    (hw : ps.haveWire = true) : ∃ ys, SameUnpackedAll ps xs ys ∧ AllPacksFit ps ys ∧
      csTokens ps ys = withBits v (csTokens ps xs) := by
  match ps, xs with
  | .nil, _ => exact ⟨(), trivial, trivial, rfl⟩
  | .cons t none rest, (x, xs) =>
    simp only [CsProperties.haveWire, Bool.and_eq_true] at hw
    obtain ⟨y, hsame, hfit, htokens⟩ := exists_withPacked hv t x hw.1
    obtain ⟨ys, hsame', hfit', htokens'⟩ := exists_withPackedAll hv rest xs hw.2
    refine ⟨(y, ys), ⟨hsame, hsame'⟩, ⟨hfit, hfit'⟩, ?_⟩
    simp only [csTokens, CsProperties.wireAll, csContentsAll, markedPiecesAll, withBits_append]
    exact congrArg₂ (· ++ ·) htokens htokens'
  | .cons t (some size) rest, (x, xs) =>
    simp only [CsProperties.haveWire, Bool.and_eq_true] at hw
    obtain ⟨ys, hsame, hfit, htokens⟩ := exists_withPackedAll hv rest xs hw.2
    cases t with
    | num n =>
      simp only [Bool.and_eq_true, decide_eq_true_eq] at hw
      have hwidth : ((Fin.ofNat 33 size.bits : Fin 33) : ℕ) = size.bits :=
        Nat.mod_eq_of_lt (by omega)
      have hraw : rawNat (.num n) (BitVec.ofNat n.size.bits (v % 2 ^ size.bits)) =
          v % 2 ^ size.bits :=
        rawNat_ofNat_le_one n ((Nat.mod_le _ _).trans hv)
      refine ⟨(BitVec.ofNat n.size.bits (v % 2 ^ size.bits), ys), ⟨trivial, hsame⟩, ⟨?_, hfit⟩, ?_⟩
      · simp only [hraw]
        exact Nat.mod_lt _ (by positivity)
      · simp only [csTokens, CsProperties.wireAll, csContentsAll, markedPiecesAll, withBits_append]
        refine congrArg₂ (· ++ ·) ?_ htokens
        simp only [markedPieces, withBits, setBits, hraw, BitVec.toNat_ofNat, hwidth, Nat.mod_mod]
    | _ => cases hw.1

end

mutual

/-- There are C values for the other objects, with the same slices. -/
theorem exists_cvalue {mem : ByteMemory} (t : CsType) (x y : CsValue t)
    (hsame : SameUnpacked t x y) (c : CValue t.wire) (hc : contents mem t.wire c = csContents t x) :
    ∃ d, contents mem t.wire d = csContents t y ∧ slices t.wire d = slices t.wire c := by
  match t with
  | .bool | .char | .num n | .enum n | .string | .list element =>
    cases (show x = y from hsame)
    exact ⟨c, hc, rfl⟩
  | .cls properties => exact exists_cvalues properties x y hsame c hc

theorem exists_cvalues {mem : ByteMemory} (ps : CsProperties) (xs ys : CsValues ps)
    (hsame : SameUnpackedAll ps xs ys) (cs : CValues ps.wireAll)
    (hcs : contentsAll mem ps.wireAll cs = csContentsAll ps xs) :
    ∃ ds, contentsAll mem ps.wireAll ds = csContentsAll ps ys ∧
      slicesAll ps.wireAll ds = slicesAll ps.wireAll cs := by
  match ps, xs, ys with
  | .nil, _, _ => exact ⟨cs, hcs, rfl⟩
  | .cons t none rest, (x, xs), (y, ys) =>
    obtain ⟨hhead, htail⟩ := Prod.mk.inj hcs
    obtain ⟨d, hd, hslices⟩ := exists_cvalue t x y hsame.1 cs.1 hhead
    obtain ⟨ds, hds, hslices'⟩ := exists_cvalues rest xs ys hsame.2 cs.2 htail
    exact ⟨(d, ds), Prod.ext hd hds, congrArg₂ (· ++ ·) hslices hslices'⟩
  | .cons t (some size) rest, (x, xs), (y, ys) =>
    obtain ⟨-, htail⟩ := Prod.mk.inj hcs
    obtain ⟨ds, hds, hslices⟩ := exists_cvalues rest xs ys hsame.2 cs.2 htail
    exact ⟨(BitVec.ofNat _ (rawNat t y), ds), Prod.ext rfl hds, hslices⟩

end

mutual

/-- The slices of a small object are short. -/
theorem short_of_csBits {mem : ByteMemory} (t : CsType) (x : CsValue t) (hw : t.hasWire = true)
    (hbits : csBits t x < 2 ^ 16) (c : CValue t.wire)
    (hc : contents mem t.wire c = csContents t x) : ∀ r ∈ slices t.wire c, r.2 < 2 ^ 16 := by
  match t with
  | .bool | .char | .num n | .enum n =>
    intro r hr
    cases hr
  | .string => cases hw
  | .list element =>
    intro r hr
    cases List.mem_singleton.mp hr
    have hlen := csBits_list hw x
    have hregion : (Slice.region element.numeric c).2 =
        (List.flatMap (elementBytes element) x).length :=
      (length_read _ _ _).symm.trans (congrArg List.length hc)
    omega
  | .cls properties => exact short_of_csBitsAll properties x hw hbits c hc

theorem short_of_csBitsAll {mem : ByteMemory} (ps : CsProperties) (xs : CsValues ps)
    (hw : ps.haveWire = true) (hbits : csBitsAll ps xs < 2 ^ 16) (cs : CValues ps.wireAll)
    (hcs : contentsAll mem ps.wireAll cs = csContentsAll ps xs) :
    ∀ r ∈ slicesAll ps.wireAll cs, r.2 < 2 ^ 16 := by
  match ps, xs with
  | .nil, _ =>
    intro r hr
    cases hr
  | .cons t none rest, (x, xs) =>
    simp only [CsProperties.haveWire, Bool.and_eq_true] at hw
    simp only [csBitsAll] at hbits
    obtain ⟨hhead, htail⟩ := Prod.mk.inj hcs
    intro r hr
    rcases List.mem_append.mp hr with hr | hr
    · exact short_of_csBits t x hw.1 (by omega) cs.1 hhead r hr
    · exact short_of_csBitsAll rest xs hw.2 (by omega) cs.2 htail r hr
  | .cons t (some size) rest, (x, xs) =>
    simp only [CsProperties.haveWire, Bool.and_eq_true] at hw
    simp only [csBitsAll] at hbits
    obtain ⟨-, htail⟩ := Prod.mk.inj hcs
    exact short_of_csBitsAll rest xs hw.2 (by omega) cs.2 htail

end

end CompostRpc
