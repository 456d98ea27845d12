import CompostRpc.BitLayout
import CompostRpc.CSerialization

/-!
# How far the C load functions read

`announcedEnd` walks over the parameters in a buffer with the lengths that their own prefixes
announce. The theorem `loadCalls_extent` says, for every content of the buffer, that the generated
load code ends there, and that all it reads and every slice it makes lies in between. No bound but
the announced one holds, since no load function is given the size of the buffer.
-/

namespace CompostRpc
open ByteMemory Piece

namespace Machine

structure LoadsWithin (m m' : Machine) (lo hi : ℕ) : Prop where
  mem_eq : m'.mem = m.mem
  stores_eq : m'.stores = m.stores
  handed_eq : m'.handed = m.handed
  loads_eq : ∃ l, m'.loads = m.loads ++ l ∧ ∀ a ∈ l, lo ≤ a ∧ a < hi

theorem LoadsWithin.refl (m : Machine) (lo hi : ℕ) : LoadsWithin m m lo hi :=
  ⟨rfl, rfl, rfl, ⟨[], by simp⟩⟩

theorem LoadsWithin.mono {m m' : Machine} {lo hi lo' hi' : ℕ} (h : LoadsWithin m m' lo hi)
    (hlo : lo' ≤ lo) (hhi : hi ≤ hi') : LoadsWithin m m' lo' hi' := by
  obtain ⟨hmem, hstores, hhanded, l, hl, hwithin⟩ := h
  refine ⟨hmem, hstores, hhanded, l, hl, fun a ha => ?_⟩
  have hbounds := hwithin a ha
  omega

theorem LoadsWithin.trans {m m' m'' : Machine} {lo hi : ℕ} (h : LoadsWithin m m' lo hi)
    (h' : LoadsWithin m' m'' lo hi) : LoadsWithin m m'' lo hi := by
  obtain ⟨hmem, hstores, hhanded, l, hl, hwithin⟩ := h
  obtain ⟨hmem', hstores', hhanded', l', hl', hwithin'⟩ := h'
  refine ⟨hmem'.trans hmem, hstores'.trans hstores, hhanded'.trans hhanded, l ++ l',
    by rw [hl', hl, List.append_assoc], fun a ha => ?_⟩
  rcases List.mem_append.mp ha with ha | ha
  · exact hwithin a ha
  · exact hwithin' a ha

theorem loadByte_within (m : Machine) (a : ℕ) : LoadsWithin m (m.loadByte a).2 a (a + 1) := by
  refine ⟨rfl, rfl, rfl, [a], rfl, fun i hi => ?_⟩
  rw [List.mem_singleton] at hi
  omega

theorem loadBytes_within (m : Machine) (a n : ℕ) :
    (m.loadBytes a n).1 = read m.mem a n ∧ LoadsWithin m (m.loadBytes a n).2 a (a + n) := by
  induction n generalizing m a with
  | zero => exact ⟨rfl, .refl _ _ _⟩
  | succ n ih =>
    obtain ⟨hbytes, hwithin⟩ := ih (m.loadByte a).2 (a + 1)
    have hcons : read m.mem a (n + 1) = m.mem a :: read m.mem (a + 1) n := by
      rw [Nat.add_comm n 1]
      exact read_append m.mem a 1 n
    refine ⟨?_, ((loadByte_within m a).mono le_rfl (by omega)).trans
      (hwithin.mono (by omega) (by omega))⟩
    rw [hcons]
    exact congrArg (m.mem a :: ·) hbytes

end Machine

open Machine

theorem numericLoad_within (n : Numeric) (m : Machine) (src : ℕ) :
    LoadsWithin m (numericLoad n m src).2.1 src (src + n.size.bytes) :=
  (loadBytes_within m src n.size.bytes).2

def lengthAt (mem : ByteMemory) (a : ℕ) : ℕ := beNat (read mem a 2)

theorem lengthAt_lt (mem : ByteMemory) (a : ℕ) : lengthAt mem a < 2 ^ 16 := by
  have h0 := (mem a).toNat_lt
  have h1 := (mem (a + 1)).toNat_lt
  have hlen : lengthAt mem a = (mem a).toNat * 256 + (mem (a + 1)).toNat := by
    simp [lengthAt, ByteMemory.read, List.range_succ, beNat]
  omega

theorem numericLoad_u16 (m : Machine) (src : ℕ) :
    (numericLoad .u16 m src).1.toNat = lengthAt m.mem src := by
  have hbytes := (loadBytes_within m src 2).1
  have hload : (numericLoad .u16 m src).1.toNat = beNat (m.loadBytes src 2).1 % 2 ^ 16 := rfl
  rw [hload, hbytes]
  exact Nat.mod_eq_of_lt (lengthAt_lt m.mem src)

def Slice.region (inner : Numeric) (s : Slice) : ℕ × ℕ := (s.ptr, s.len.toNat * inner.size.bytes)

def RegionWithin (lo hi : ℕ) (r : ℕ × ℕ) : Prop := lo ≤ r.1 ∧ r.1 + r.2 ≤ hi

theorem RegionWithin.mono {lo hi lo' hi' : ℕ} {r : ℕ × ℕ} (h : RegionWithin lo hi r)
    (hlo : lo' ≤ lo) (hhi : hi ≤ hi') : RegionWithin lo' hi' r :=
  ⟨hlo.trans h.1, h.2.trans hhi⟩

/-- Two loads one after the other, with the slices that they make. -/
theorem Machine.LoadsWithin.append {m m₁ m₂ : Machine} {lo mid cut hi : ℕ} {rs rs' : List (ℕ × ℕ)}
    (h : LoadsWithin m m₁ lo cut) (hslices : ∀ region ∈ rs, RegionWithin lo cut region)
    (h' : LoadsWithin m₁ m₂ mid hi) (hslices' : ∀ region ∈ rs', RegionWithin mid hi region)
    (hlo : lo ≤ mid) (hhi : cut ≤ hi) :
    LoadsWithin m m₂ lo hi ∧ ∀ region ∈ rs ++ rs', RegionWithin lo hi region := by
  refine ⟨(h.mono le_rfl hhi).trans (h'.mono hlo le_rfl), fun region hregion => ?_⟩
  rcases List.mem_append.mp hregion with hhead | htail
  · exact (hslices region hhead).mono le_rfl hhi
  · exact (hslices' region htail).mono hlo le_rfl

theorem sliceLoad_within (inner : Numeric) (m : Machine) (src : ℕ) :
    LoadsWithin m (sliceLoad inner m src).2.1 src (src + 2 + lengthAt m.mem src) ∧
      (sliceLoad inner m src).2.2 = src + 2 + lengthAt m.mem src ∧
      RegionWithin src (src + 2 + lengthAt m.mem src)
        ((sliceLoad inner m src).1.region inner) := by
  have hlen := numericLoad_u16 m src
  refine ⟨(numericLoad_within .u16 m src).mono le_rfl (Nat.le_add_right _ _), ?_, ?_, ?_⟩
  · exact congrArg (src + 2 + ·) hlen
  · exact Nat.le_add_right src 2
  · have hcount : (UInt16.ofNat ((numericLoad .u16 m src).1.toNat / inner.size.bytes)).toNat *
        inner.size.bytes ≤ lengthAt m.mem src := by
      rw [hlen, UInt16.toNat_ofNat']
      exact (Nat.mul_le_mul_right _ (Nat.mod_le _ _)).trans (Nat.div_mul_le_self _ _)
    exact Nat.add_le_add_left hcount (src + 2)

theorem bituintLoadLoop_within {fuel src byteIndex pos width val : ℕ} (m : Machine)
    (hindex : 0 < width → byteIndex = pos / 8) :
    LoadsWithin m (bituintLoadLoop fuel m src byteIndex pos width val).2 src
      (src + (pos + width + 7) / 8) := by
  induction fuel generalizing m byteIndex pos width val with
  | zero => exact .refl _ _ _
  | succ fuel ih =>
    by_cases hw : width = 0
    · rw [bituintLoadLoop, if_neg (by omega)]
      exact .refl _ _ _
    · have hbyte := hindex (by omega)
      rw [bituintLoadLoop, if_pos (by omega)]
      simp only [← Nat.min_def]
      exact ((loadByte_within m (src + byteIndex)).mono (by omega) (by omega)).trans
        ((ih _ (by intro hrem; omega)).mono le_rfl (by omega))

theorem bituintLoad_within (m : Machine) (src offset width : ℕ) :
    LoadsWithin m (bituintLoad m src offset width).2 src (src + (offset + width + 7) / 8) :=
  bituintLoadLoop_within m fun _ => rfl

mutual

def announcedEnd (mem : ByteMemory) (o : ℕ) : WireType → ℕ
  | .bitU width => o + width
  | .enum e =>
    match e.backing.repr with
    | .inr width => o + width
    | .inl n => alignUp o + n.size.bits
  | .num n => alignUp o + n.size.bits
  | .str | .bytes | .list _ => alignUp o + 8 * (2 + lengthAt mem (alignUp o / 8))
  | .struct _ members => announcedEndMembers mem (alignUp o) members

def announcedEndMembers (mem : ByteMemory) (o : ℕ) : Members → ℕ
  | .nil => alignUp o
  | .cons _ t rest => announcedEndMembers mem (announcedEnd mem o t) rest

end

def announcedEndAll (mem : ByteMemory) (o : ℕ) : Members → ℕ
  | .nil => o
  | .cons _ t rest => announcedEndAll mem (announcedEnd mem o t) rest

mutual

theorem le_announcedEnd (mem : ByteMemory) (o : ℕ) (t : WireType) : o ≤ announcedEnd mem o t := by
  have hle := le_alignUp o
  match t with
  | .bitU width => exact Nat.le_add_right _ _
  | .num n | .str | .bytes | .list inner => exact hle.trans (Nat.le_add_right _ _)
  | .enum e =>
    simp only [announcedEnd]
    cases e.backing.repr with
    | inl n => exact hle.trans (Nat.le_add_right _ _)
    | inr width => exact Nat.le_add_right _ _
  | .struct name members => exact hle.trans (le_announcedEndMembers mem _ members)

theorem le_announcedEndMembers (mem : ByteMemory) (o : ℕ) (ms : Members) :
    o ≤ announcedEndMembers mem o ms := by
  match ms with
  | .nil => exact le_alignUp o
  | .cons name t rest => exact (le_announcedEnd mem o t).trans (le_announcedEndMembers mem _ rest)

end

theorem le_announcedEndAll (mem : ByteMemory) (o : ℕ) (ms : Members) :
    o ≤ announcedEndAll mem o ms := by
  induction ms using Members.induction generalizing o with
  | nil => exact le_rfl
  | cons name t rest ih => exact (le_announcedEnd mem o t).trans (ih _)

mutual

def slices : (t : WireType) → CValue t → List (ℕ × ℕ)
  | .str, s => [Slice.region .u8 s]
  | .bytes, s => [Slice.region .u8 s]
  | .list inner, s => [Slice.region inner s]
  | .struct _ members, vs => slicesAll members vs
  | .num _, _ | .bitU _, _ | .enum _, _ => []

def slicesAll : (ms : Members) → CValues ms → List (ℕ × ℕ)
  | .nil, _ => []
  | .cons _ t rest, v => slices t v.1 ++ slicesAll rest v.2

end

theorem byteAlignPtr_pos (ptr : ℕ) (offset : MemUnit) :
    8 * (byteAlignPtr ptr offset).1 = alignUp (8 * ptr + offset.bits) ∧
      (byteAlignPtr ptr offset).2.bits = 0 ∧ ptr ≤ (byteAlignPtr ptr offset).1 := by
  have hbytes : (byteAlignPtr ptr offset).1 = ptr + offset.bytes :=
    congrArg (ptr + ·) (MemUnit.byteAlign_bytes offset)
  rw [hbytes, MemUnit.bytes_eq, alignUp]
  refine ⟨by omega, ?_, Nat.le_add_right _ _⟩
  rw [byteAlignPtr, MemUnit.setBytes_bits]

/-- Load code that starts at pointer `src` ends at bit position `stop`, and reads and points in
between. -/
structure LoadExtent {α : Type} (m : Machine) (src stop : ℕ) (regions : α → List (ℕ × ℕ))
    (r : α × Machine × ℕ × MemUnit) : Prop where
  stop_eq : 8 * r.2.2.1 + r.2.2.2.bits = stop
  le_src : src ≤ r.2.2.1
  within : LoadsWithin m r.2.1 src ((stop + 7) / 8)
  slices_within : ∀ region ∈ regions r.1, RegionWithin src ((stop + 7) / 8) region

theorem LoadExtent.bitField {α : Type} {regions : α → List (ℕ × ℕ)} {v : α} (m : Machine)
    (src width : ℕ) (offset : MemUnit) (hv : regions v = []) :
    LoadExtent m src (8 * src + offset.bits + width) regions
      (v, (bituintLoad m src offset.bits width).2, src, offset + ⟨width⟩) := by
  refine ⟨by simp only [MemUnit.add_bits]; omega, le_rfl, ?_, by simp [hv]⟩
  exact (bituintLoad_within m src offset.bits width).mono le_rfl (by omega)

/-- Code for a byte-sized value, run behind an alignment. -/
theorem LoadExtent.aligned {α : Type} {regions : α → List (ℕ × ℕ)} {v : α} {m m' : Machine}
    {src src' len : ℕ} {offset : MemUnit}
    (h : LoadsWithin m m' (byteAlignPtr src offset).1 src')
    (hlen : src' = (byteAlignPtr src offset).1 + len)
    (hv : ∀ region ∈ regions v, RegionWithin (byteAlignPtr src offset).1 src' region) :
    LoadExtent m src (alignUp (8 * src + offset.bits) + 8 * len) regions
      (v, m', src', (byteAlignPtr src offset).2) := by
  obtain ⟨hptr, hoffset, hle⟩ := byteAlignPtr_pos src offset
  refine ⟨by simp only [hoffset]; omega, by simp only []; omega, h.mono hle (by omega), ?_⟩
  exact fun region hregion => (hv region hregion).mono hle (by omega)

theorem LoadExtent.slice {α : Type} {regions : α → List (ℕ × ℕ)} (m : Machine) (src : ℕ)
    (offset : MemUnit) (inner : Numeric) (v : Slice → α)
    (hv : ∀ s, regions (v s) = [Slice.region inner s]) :
    LoadExtent m src
      (alignUp (8 * src + offset.bits) +
        8 * (2 + lengthAt m.mem (alignUp (8 * src + offset.bits) / 8))) regions
      (v (sliceLoad inner m (byteAlignPtr src offset).1).1,
        (sliceLoad inner m (byteAlignPtr src offset).1).2.1,
        (sliceLoad inner m (byteAlignPtr src offset).1).2.2, (byteAlignPtr src offset).2) := by
  obtain ⟨hptr, -, -⟩ := byteAlignPtr_pos src offset
  have hdiv : alignUp (8 * src + offset.bits) / 8 = (byteAlignPtr src offset).1 := by omega
  obtain ⟨hwithin, hsrc, hregion⟩ := sliceLoad_within inner m (byteAlignPtr src offset).1
  rw [← hsrc] at hwithin hregion
  rw [hdiv]
  refine .aligned hwithin (by rw [hsrc, Nat.add_assoc]) fun region hmem => ?_
  rw [hv, List.mem_singleton] at hmem
  rw [hmem]
  exact hregion

mutual

theorem loadMember_extent (m : Machine) (src : ℕ) (offset : MemUnit) (t : WireType) :
    LoadExtent m src (announcedEnd m.mem (8 * src + offset.bits) t) (slices t)
      (loadMember m src offset t) := by
  match t with
  | .bitU width => exact .bitField m src width offset rfl
  | .num n =>
    simp only [announcedEnd, n.size_bits]
    exact .aligned (numericLoad_within n m _) rfl (fun region hregion => by cases hregion)
  | .enum e =>
    simp only [announcedEnd, loadMember]
    cases e.backing.repr with
    | inl n =>
      simp only [n.size_bits]
      exact .aligned (numericLoad_within n m _) rfl (fun region hregion => by cases hregion)
    | inr width => exact .bitField m src width offset rfl
  | .str => exact .slice m src offset .u8 id fun _ => rfl
  | .bytes => exact .slice m src offset .u8 id fun _ => rfl
  | .list inner => exact .slice m src offset inner id fun _ => rfl
  | .struct name members =>
    obtain ⟨hptr, hoffset, hle⟩ := byteAlignPtr_pos src offset
    obtain ⟨hstop, hle', hwithin, hslices⟩ :=
      loadMembers_extent m (byteAlignPtr src offset).1 ⟨0⟩ members
    rw [Nat.add_zero, hptr] at hstop hwithin hslices
    refine ⟨?_, hle.trans hle', hwithin.mono hle le_rfl, fun region hregion => ?_⟩
    · simp only [loadMember, announcedEnd, hoffset, Nat.add_zero]
      exact hstop
    · exact (hslices region hregion).mono hle le_rfl

theorem loadMembers_extent (m : Machine) (src : ℕ) (offset : MemUnit) (ms : Members) :
    8 * (loadMembers m src offset ms).2.2 =
        announcedEndMembers m.mem (8 * src + offset.bits) ms ∧
      src ≤ (loadMembers m src offset ms).2.2 ∧
      LoadsWithin m (loadMembers m src offset ms).2.1 src
        ((announcedEndMembers m.mem (8 * src + offset.bits) ms + 7) / 8) ∧
      ∀ region ∈ slicesAll ms (loadMembers m src offset ms).1, RegionWithin src
        ((announcedEndMembers m.mem (8 * src + offset.bits) ms + 7) / 8) region := by
  match ms with
  | .nil =>
    obtain ⟨hptr, -, hle⟩ := byteAlignPtr_pos src offset
    exact ⟨hptr, hle, .refl _ _ _, fun region hregion => by cases hregion⟩
  | .cons name t rest =>
    obtain ⟨hstop, hle, hwithin, hslices⟩ := loadMember_extent m src offset t
    obtain ⟨hstop', hle', hwithin', hslices'⟩ :=
      loadMembers_extent (loadMember m src offset t).2.1 (loadMember m src offset t).2.2.1
        (loadMember m src offset t).2.2.2 rest
    rw [hstop, hwithin.mem_eq] at hstop' hwithin' hslices'
    have hmono := le_announcedEndMembers m.mem
      (announcedEnd m.mem (8 * src + offset.bits) t) rest
    have hcut : (announcedEnd m.mem (8 * src + offset.bits) t + 7) / 8 ≤
        (announcedEndMembers m.mem (8 * src + offset.bits) (.cons name t rest) + 7) / 8 := by
      simp only [announcedEndMembers]
      omega
    exact ⟨hstop', hle.trans hle', hwithin.append hslices hwithin' hslices' hle hcut⟩

end

theorem loadMember_offset {t : WireType} (ht : t.isParameter = true) (m : Machine) (src : ℕ)
    (offset : MemUnit) : (loadMember m src offset t).2.2.2.bits = 0 := by
  have hoffset := (byteAlignPtr_pos src offset).2.1
  cases t with
  | bitU width => cases ht
  | enum e =>
    simp only [WireType.isParameter] at ht
    simp only [loadMember]
    cases he : e.backing.repr with
    | inl n => exact hoffset
    | inr width => rw [he] at ht; cases ht
  | _ => exact hoffset

theorem loadCalls_extent {ms : Members} (hms : ms.areParameters = true) (m : Machine) (src : ℕ) :
    8 * (loadCalls m src ms).2.2 = announcedEndAll m.mem (8 * src) ms ∧
      src ≤ (loadCalls m src ms).2.2 ∧
      LoadsWithin m (loadCalls m src ms).2.1 src (loadCalls m src ms).2.2 ∧
      ∀ region ∈ slicesAll ms (loadCalls m src ms).1,
        RegionWithin src (loadCalls m src ms).2.2 region := by
  induction ms using Members.induction generalizing m src with
  | nil => exact ⟨rfl, le_rfl, .refl _ _ _, fun region hregion => by cases hregion⟩
  | cons name t rest ih =>
    simp only [Members.areParameters, Bool.and_eq_true] at hms
    obtain ⟨hstop, hle, hwithin, hslices⟩ := loadMember_extent m src ⟨0⟩ t
    rw [loadMember_offset hms.1] at hstop
    simp only [Nat.add_zero] at hstop hwithin hslices
    obtain ⟨hstop', hle', hwithin', hslices'⟩ :=
      ih hms.2 (loadMember m src ⟨0⟩ t).2.1 (loadMember m src ⟨0⟩ t).2.2.1
    rw [hstop, hwithin.mem_eq] at hstop'
    have hcut : (announcedEnd m.mem (8 * src) t + 7) / 8 ≤
        (loadCalls (loadMember m src ⟨0⟩ t).2.1 (loadMember m src ⟨0⟩ t).2.2.1 rest).2.2 := by
      omega
    exact ⟨hstop', hle.trans hle', hwithin.append hslices hwithin' hslices' hle hcut⟩

end CompostRpc
