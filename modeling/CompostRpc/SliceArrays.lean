import CompostRpc.SliceAccess
import CompostRpc.MsgProcessBounds

/-!
# Slices as arrays

A slice should act as an array of numbers, whatever is between the numbers and the bytes. It does so
for `get`, `set` and the copy to another slice. Copies from and to a native array keep the bytes
as they are if the array starts where the slice does; then every element must read the same
backwards.
-/

namespace CompostRpc
open ByteMemory Machine

def sliceElement (debug : Bool) (inner : Numeric) (m : Machine) (s : Slice) (i : ℕ) :
    Option (BitVec inner.size.bits) :=
  (sliceGet debug inner m s (UInt16.ofNat i)).map Prod.fst

/-- The slice acts as an array of big-endian elements: towards the native array with `n` elements,
for `set`, and as the source of a copy to the slice `other`. -/
structure ActsAsArray (debug : Bool) (inner : Numeric) (m : Machine) (slice : Slice) (array : ℕ)
    (n : UInt16) (other : Slice) : Prop where
  copy_from : ∃ count m', sliceCopyFrom debug inner m slice array n = some (count, m') ∧
    count.toNat = min n.toNat slice.len.toNat ∧
    (∀ i < min n.toNat slice.len.toNat, sliceElement debug inner m' slice i =
      some (nativeLoad inner m (array + inner.size.bytes * i))) ∧
    ∀ a, a < slice.ptr ∨ slice.ptr + inner.size.bytes * min n.toNat slice.len.toNat ≤ a →
      m'.mem a = m.mem a
  ncopy_to : ∃ count m', sliceNcopyTo debug inner m slice array n = some (count, m') ∧
    count.toNat = min n.toNat slice.len.toNat ∧
    (∀ i < min n.toNat slice.len.toNat, sliceElement debug inner m slice i =
      some (nativeLoad inner m' (array + inner.size.bytes * i))) ∧
    ∀ a, a < array ∨ array + inner.size.bytes * min n.toNat slice.len.toNat ≤ a →
      m'.mem a = m.mem a
  restored : ∃ r s, sliceCopyFrom debug inner m slice array n = some r ∧
    sliceNcopyTo debug inner r.2 slice array n = some s ∧
    ∀ a, array ≤ a → a < array + inner.size.bytes * min n.toNat slice.len.toNat →
      s.2.mem a = m.mem a
  restored_slice : ∃ r s, sliceNcopyTo debug inner m slice array n = some r ∧
    sliceCopyFrom debug inner r.2 slice array n = some s ∧
    ∀ a, slice.ptr ≤ a → a < slice.ptr + inner.size.bytes * min n.toNat slice.len.toNat →
      s.2.mem a = m.mem a
  set : ∀ idx < slice.len, ∀ value, ∃ m', sliceSet debug inner m slice idx value = some m' ∧
    sliceElement debug inner m' slice idx.toNat = some value ∧
    ∀ a, a < slice.ptr + inner.size.bytes * idx.toNat ∨
      slice.ptr + inner.size.bytes * (idx.toNat + 1) ≤ a → m'.mem a = m.mem a
  copy : ∃ s m', sliceCopy debug inner m other slice = some (s, m') ∧ s.ptr = other.ptr ∧
    s.len.toNat = min slice.len.toNat other.len.toNat ∧
    (∀ i < min slice.len.toNat other.len.toNat,
      sliceElement debug inner m' s i = sliceElement debug inner m slice i) ∧
    ∀ a, a < other.ptr ∨
      other.ptr + inner.size.bytes * min slice.len.toNat other.len.toNat ≤ a →
        m'.mem a = m.mem a

/-- No pointer that is asserted is null; if slice and array are the same, every element that is
copied reads the same backwards; and the two slices of a copy do not overlap, unless they start at
the same address. -/
structure Unconverted (debug : Bool) (inner : Numeric) (m : Machine) (slice : Slice) (array : ℕ)
    (n : UInt16) (other : Slice) : Prop where
  nonnull : debug = true → slice.ptr ≠ 0 ∧ array ≠ 0 ∧ other.ptr ≠ 0
  symmetric : array = slice.ptr → ∀ i < min n.toNat slice.len.toNat,
    (read m.mem (slice.ptr + inner.size.bytes * i) inner.size.bytes).reverse =
      read m.mem (slice.ptr + inner.size.bytes * i) inner.size.bytes
  apart : ApartOrSame other.ptr slice.ptr
    (inner.size.bytes * min slice.len.toNat other.len.toNat)

section
variable {debug : Bool} {inner : Numeric} {m : Machine} {slice : Slice} {array : ℕ} {n : UInt16}

theorem sliceElement_eq {i : ℕ} (hi : i < slice.len.toNat) (hptr : debug = true → slice.ptr ≠ 0) :
    sliceElement debug inner m slice i = some (BitVec.ofNat _ (beNat
      (read m.mem (slice.ptr + inner.size.bytes * i) inner.size.bytes))) := by
  have hidx := toNat_index hi
  have hlt : UInt16.ofNat i < slice.len := by rwa [UInt16.lt_iff_toNat_lt, hidx]
  obtain ⟨m', hget, -⟩ := @sliceGet_value debug inner m slice (UInt16.ofNat i) (fun _ => hlt) hptr
  rw [sliceElement, hget, hidx]
  rfl

/-- Bytes are determined by the number that they are. -/
theorem ofNat_beNat_inj {xs ys : List UInt8} (hxs : xs.length = inner.size.bytes)
    (hys : ys.length = inner.size.bytes)
    (h : BitVec.ofNat inner.size.bits (beNat xs) = BitVec.ofNat inner.size.bits (beNat ys)) :
    xs = ys := by
  rw [← beBytes_ofNat_beNat hxs, h, beBytes_ofNat_beNat hys]

theorem sliceCopyFrom_apart (hslice : debug = true → slice.ptr ≠ 0)
    (harray : debug = true → array ≠ 0) (hne : array ≠ slice.ptr)
    (hapart : ApartOrSame array slice.ptr (inner.size.bytes * min n.toNat slice.len.toNat)) :
    ∃ count m', sliceCopyFrom debug inner m slice array n = some (count, m') ∧
      count.toNat = min n.toNat slice.len.toNat ∧
      Filled m m' slice.ptr inner.size.bytes 0 (min n.toNat slice.len.toNat) fun i =>
        (read m.mem (array + inner.size.bytes * i) inner.size.bytes).reverse := by
  have hdisjoint := (hapart.resolve_left hne).symm
  refine sliceCopyFrom_filled hslice harray hne
    (fun k => by rw [List.length_reverse, length_read]) fun k hk m' hfilled => ?_
  rw [hfilled.read_apart hk hdisjoint]

theorem sliceNcopyTo_apart (hslice : debug = true → slice.ptr ≠ 0)
    (harray : debug = true → array ≠ 0) (hne : array ≠ slice.ptr)
    (hapart : ApartOrSame array slice.ptr (inner.size.bytes * min n.toNat slice.len.toNat)) :
    ∃ count m', sliceNcopyTo debug inner m slice array n = some (count, m') ∧
      count.toNat = min n.toNat slice.len.toNat ∧
      Filled m m' array inner.size.bytes 0 (min n.toNat slice.len.toNat) fun i =>
        (read m.mem (slice.ptr + inner.size.bytes * i) inner.size.bytes).reverse := by
  have hdisjoint := hapart.resolve_left hne
  refine sliceNcopyTo_filled hslice harray hne.symm
    (fun k => by rw [List.length_reverse, length_read]) fun k hk m' hfilled => ?_
  rw [hfilled.read_apart hk hdisjoint]

/-- Bytes that are filled with what was there in another memory are those of that memory. -/
theorem Filled.mem_eq {m₀ m' : Machine} {base size n : ℕ} {bytes : ℕ → List UInt8}
    (h : Filled m m' base size 0 n bytes)
    (hbytes : ∀ i < n, bytes i = read m₀.mem (base + size * i) size) {a : ℕ} (hlow : base ≤ a)
    (hhigh : a < base + size * n) : m'.mem a = m₀.mem a := by
  have hpos : 0 < size := by
    rcases Nat.eq_zero_or_pos size with rfl | hpos
    · omega
    · exact hpos
  have hmod := Nat.mod_lt (a - base) hpos
  have hsplit := Nat.div_add_mod (a - base) size
  have hi : (a - base) / size < n := Nat.div_lt_of_lt_mul (by omega)
  have helement := h.elements _ (Nat.zero_le _) hi
  rw [hbytes _ hi] at helement
  have hbyte := congrArg (fun l => l.getD ((a - base) % size) 0) helement
  simp only [getD_read _ hmod] at hbyte
  rwa [show base + size * ((a - base) / size) + (a - base) % size = a by omega] at hbyte

/-- Elements in place are their native elements if they read the same backwards. -/
theorem sliceElement_symmetric {i : ℕ} (hi : i < slice.len.toNat)
    (hptr : debug = true → slice.ptr ≠ 0) :
    sliceElement debug inner m slice i =
        some (nativeLoad inner m (slice.ptr + inner.size.bytes * i)) ↔
      (read m.mem (slice.ptr + inner.size.bytes * i) inner.size.bytes).reverse =
        read m.mem (slice.ptr + inner.size.bytes * i) inner.size.bytes := by
  rw [sliceElement_eq hi hptr, nativeLoad, Option.some.injEq]
  constructor
  · intro h
    exact (ofNat_beNat_inj (length_read ..) (by rw [List.length_reverse, length_read]) h).symm
  · intro h
    rw [h]

theorem set_acts (hptr : debug = true → slice.ptr ≠ 0) {idx : UInt16} (hidx : idx < slice.len)
    (value : BitVec inner.size.bits) :
    ∃ m', sliceSet debug inner m slice idx value = some m' ∧
      sliceElement debug inner m' slice idx.toNat = some value ∧
      ∀ a, a < slice.ptr + inner.size.bytes * idx.toNat ∨
        slice.ptr + inner.size.bytes * (idx.toNat + 1) ≤ a → m'.mem a = m.mem a := by
  obtain ⟨m', hset, hmem⟩ := @sliceSet_mem debug inner m slice idx value (fun _ => hidx) hptr
  have hread := read_write_self m.mem (slice.ptr + inner.size.bytes * idx.toNat)
    (beBytes inner.size.bytes value.toNat)
  rw [length_beBytes] at hread
  refine ⟨m', hset, ?_, fun a ha => ?_⟩
  · rw [sliceElement_eq (UInt16.lt_iff_toNat_lt.mp hidx) hptr, hmem, hread, beNat_beBytes_toNat]
  · rw [hmem]
    rcases ha with hlt | hge
    · exact write_of_lt _ _ hlt
    · rw [Nat.mul_succ] at hge
      exact write_of_ge _ _ (by rw [length_beBytes]; omega)

theorem copy_acts {other : Slice} (hptr : debug = true → slice.ptr ≠ 0)
    (hother : debug = true → other.ptr ≠ 0) (hapart : ApartOrSame other.ptr slice.ptr
      (inner.size.bytes * min slice.len.toNat other.len.toNat)) :
    ∃ s m', sliceCopy debug inner m other slice = some (s, m') ∧ s.ptr = other.ptr ∧
      s.len.toNat = min slice.len.toNat other.len.toNat ∧
      (∀ i < min slice.len.toNat other.len.toNat,
        sliceElement debug inner m' s i = sliceElement debug inner m slice i) ∧
      ∀ a, a < other.ptr ∨
        other.ptr + inner.size.bytes * min slice.len.toNat other.len.toNat ≤ a →
          m'.mem a = m.mem a := by
  obtain ⟨m', hcopy, hmem⟩ := @sliceCopy_mem debug inner m other slice hptr hother hapart
  have hlen := toNat_compostMin slice.len other.len
  refine ⟨⟨other.ptr, compostMin slice.len other.len⟩, m', hcopy, rfl, hlen, fun i hi => ?_,
    fun a ha => ?_⟩
  · have hbefore : inner.size.bytes * i + inner.size.bytes ≤
        inner.size.bytes * min slice.len.toNat other.len.toNat := Nat.mul_le_mul_left _ hi
    have hread : read m'.mem (other.ptr + inner.size.bytes * i) inner.size.bytes =
        read m.mem (slice.ptr + inner.size.bytes * i) inner.size.bytes := by
      refine read_congr fun j hj => ?_
      rw [hmem, write_of_mem _ (by omega) (by rw [length_read]; omega), Nat.add_assoc,
        Nat.add_sub_cancel_left, getD_read _ (by omega), Nat.add_assoc]
    have hcopied := @sliceElement_eq debug inner m' ⟨other.ptr, compostMin slice.len other.len⟩ i
      (by rw [hlen]; exact hi) hother
    rw [hcopied, sliceElement_eq (by omega) hptr, hread]
  · rw [hmem]
    rcases ha with hlt | hge
    · exact write_of_lt _ _ hlt
    · exact write_of_ge _ _ (by rw [length_read]; exact hge)

theorem nonnull_of_copy {other : Slice} {r : Slice × Machine}
    (h : sliceCopy debug inner m other slice = some r) : debug = true → other.ptr ≠ 0 := by
  obtain ⟨_, -, hrest⟩ := Option.bind_eq_some_iff.mp h
  obtain ⟨_, hsecond, -⟩ := Option.bind_eq_some_iff.mp hrest
  exact compostAssert_eq_some.mp hsecond

/-- `memcpy` is defined. -/
theorem apart_of_copy {other : Slice} {r : Slice × Machine}
    (h : sliceCopy debug inner m other slice = some r) : ApartOrSame other.ptr slice.ptr
      (inner.size.bytes * min slice.len.toNat other.len.toNat) := by
  obtain ⟨_, -, hrest⟩ := Option.bind_eq_some_iff.mp h
  obtain ⟨_, -, hcopy⟩ := Option.bind_eq_some_iff.mp hrest
  dsimp only at hcopy
  by_cases hne : slice.ptr ≠ other.ptr
  · rw [if_pos hne] at hcopy
    obtain ⟨m', hmemcpy, -⟩ := Option.bind_eq_some_iff.mp hcopy
    obtain ⟨hdefined, -⟩ := Option.ite_none_right_eq_some.mp hmemcpy
    rw [toNat_compostMin, Nat.mul_comm] at hdefined
    exact .inr hdefined
  · exact .inl (not_not.mp hne).symm

/-- Where slice and array lie apart, the two directions of copying undo each other. -/
theorem restored_apart (hslice : debug = true → slice.ptr ≠ 0) (harray : debug = true → array ≠ 0)
    (hne : array ≠ slice.ptr)
    (hapart : ApartOrSame array slice.ptr (inner.size.bytes * min n.toNat slice.len.toNat)) :
    (∃ r s, sliceCopyFrom debug inner m slice array n = some r ∧
      sliceNcopyTo debug inner r.2 slice array n = some s ∧
      ∀ a, array ≤ a → a < array + inner.size.bytes * min n.toNat slice.len.toNat →
        s.2.mem a = m.mem a) ∧
    ∃ r s, sliceNcopyTo debug inner m slice array n = some r ∧
      sliceCopyFrom debug inner r.2 slice array n = some s ∧
      ∀ a, slice.ptr ≤ a → a < slice.ptr + inner.size.bytes * min n.toNat slice.len.toNat →
        s.2.mem a = m.mem a := by
  constructor
  · obtain ⟨count, m', hto, -, hfilled⟩ := @sliceCopyFrom_apart debug inner m slice array n hslice
      harray hne hapart
    obtain ⟨count', m'', hback, -, hfilled'⟩ := @sliceNcopyTo_apart debug inner m' slice array n
      hslice harray hne hapart
    refine ⟨_, _, hto, hback, fun a hlow hhigh => hfilled'.mem_eq (fun i hi => ?_) hlow hhigh⟩
    rw [hfilled.elements i (Nat.zero_le _) hi, List.reverse_reverse]
  · obtain ⟨count, m', hto, -, hfilled⟩ := @sliceNcopyTo_apart debug inner m slice array n hslice
      harray hne hapart
    obtain ⟨count', m'', hback, -, hfilled'⟩ := @sliceCopyFrom_apart debug inner m' slice array n
      hslice harray hne hapart
    refine ⟨_, _, hto, hback, fun a hlow hhigh => hfilled'.mem_eq (fun i hi => ?_) hlow hhigh⟩
    rw [hfilled.elements i (Nat.zero_le _) hi, List.reverse_reverse]

end

/-- A slice acts as an array exactly if it does not start where the native array starts, or all
elements that are copied read the same backwards, and if it does not overlap the slice that it is
copied to. -/
theorem actsAsArray_iff (debug : Bool) (inner : Numeric) (m : Machine) {slice : Slice} {array : ℕ}
    {n : UInt16} {other : Slice}
    (harray : ApartOrSame array slice.ptr (inner.size.bytes * min n.toNat slice.len.toNat)) :
    ActsAsArray debug inner m slice array n other ↔
      Unconverted debug inner m slice array n other := by
  constructor
  · intro h
    obtain ⟨count, m', hfrom, -, helements, -⟩ := h.copy_from
    obtain ⟨s, m'', hcopy, -⟩ := h.copy
    have hptrs := nonnull_of_copyFrom hfrom
    refine ⟨fun hdebug => ⟨(hptrs hdebug).1, (hptrs hdebug).2, nonnull_of_copy hcopy hdebug⟩, ?_,
      apart_of_copy hcopy⟩
    rintro rfl i hi
    obtain ⟨count', hsame, -⟩ := @sliceCopyFrom_same debug inner m slice n
      fun hdebug => (hptrs hdebug).1
    obtain rfl : m = m' := congrArg Prod.snd (Option.some.inj (hsame.symm.trans hfrom))
    exact (sliceElement_symmetric (by omega) fun hdebug => (hptrs hdebug).1).mp (helements i hi)
  · intro h
    have hslice : debug = true → slice.ptr ≠ 0 := fun hdebug => (h.nonnull hdebug).1
    have hsrc : debug = true → array ≠ 0 := fun hdebug => (h.nonnull hdebug).2.1
    have hcopy := @copy_acts debug inner m slice other hslice
      (fun hdebug => (h.nonnull hdebug).2.2) h.apart
    by_cases hne : array = slice.ptr
    · subst hne
      obtain ⟨count, hfrom, hcount⟩ := @sliceCopyFrom_same debug inner m slice n hslice
      obtain ⟨count', hto, hcount'⟩ := @sliceNcopyTo_same debug inner m slice n hslice
      have helements : ∀ i < min n.toNat slice.len.toNat, sliceElement debug inner m slice i =
          some (nativeLoad inner m (slice.ptr + inner.size.bytes * i)) := fun i hi =>
        (sliceElement_symmetric (by omega) hslice).mpr (h.symmetric rfl i hi)
      exact ⟨⟨count, m, hfrom, hcount, helements, fun _ _ => rfl⟩,
        ⟨count', m, hto, hcount', helements, fun _ _ => rfl⟩,
        ⟨_, _, hfrom, hto, fun _ _ _ => rfl⟩, ⟨_, _, hto, hfrom, fun _ _ _ => rfl⟩,
        fun idx hidx value => set_acts hslice hidx value, hcopy⟩
    · obtain ⟨hback, hback'⟩ := @restored_apart debug inner m slice array n hslice hsrc hne harray
      refine ⟨?_, ?_, hback, hback', fun idx hidx value => set_acts hslice hidx value, hcopy⟩
      · obtain ⟨count, m', hfrom, hcount, hfilled⟩ := @sliceCopyFrom_apart debug inner m slice array
          n hslice hsrc hne harray
        refine ⟨count, m', hfrom, hcount, fun i hi => ?_, hfilled.frame⟩
        rw [sliceElement_eq (by omega) hslice, hfilled.elements i (Nat.zero_le _) hi]
        rfl
      · obtain ⟨count, m', hto, hcount, hfilled⟩ := @sliceNcopyTo_apart debug inner m slice array n
          hslice hsrc hne harray
        refine ⟨count, m', hto, hcount, fun i hi => ?_, hfilled.frame⟩
        rw [sliceElement_eq (by omega) hslice, nativeLoad, hfilled.elements i (Nat.zero_le _) hi,
          List.reverse_reverse]

/-- Numbers of two bytes and an array behind them, and the same four bytes as numbers of one. -/
theorem actsAsArray_apart :
    ActsAsArray true .u16 (.start fun a => UInt8.ofNat a) ⟨10, 2⟩ 14 2 ⟨20, 1⟩ ∧
      ActsAsArray true .u8 (.start fun a => UInt8.ofNat a) ⟨10, 4⟩ 10 4 ⟨10, 4⟩ := by
  constructor
  · exact (actsAsArray_iff true .u16 (.start fun a => UInt8.ofNat a)
      (by decide)).mpr ⟨fun _ => by decide, fun h => absurd h (by decide), by decide⟩
  · exact (actsAsArray_iff true .u8 (.start fun a => UInt8.ofNat a)
      (by decide)).mpr ⟨fun _ => by decide, fun _ => by decide, by decide⟩

/-- The bytes 0 and 1 are the native number 256. In place they remain the element 1. -/
theorem not_actsAsArray_in_place :
    sliceCopyFrom true .u16 (.start fun a => UInt8.ofNat a) ⟨256, 1⟩ 256 1 =
        some (1, .start fun a => UInt8.ofNat a) ∧
      nativeLoad .u16 (.start fun a => UInt8.ofNat a) 256 = 256#16 ∧
      sliceElement true .u16 (.start fun a => UInt8.ofNat a) ⟨256, 1⟩ 0 = some 1#16 ∧
      ¬ ActsAsArray true .u16 (.start fun a => UInt8.ofNat a) ⟨256, 1⟩ 256 1 ⟨300, 1⟩ := by
  have hfrom : sliceCopyFrom true .u16 (.start fun a => UInt8.ofNat a) ⟨256, 1⟩ 256 1 =
      some (1, .start fun a => UInt8.ofNat a) := rfl
  refine ⟨hfrom, rfl, rfl, fun h => ?_⟩
  obtain ⟨count, m', hsome, -, helements, -⟩ := h.copy_from
  obtain rfl : .start (fun a => UInt8.ofNat a) = m' :=
    congrArg Prod.snd (Option.some.inj (hfrom.symm.trans hsome))
  exact absurd (helements 0 (by decide)) (by decide)

end CompostRpc
