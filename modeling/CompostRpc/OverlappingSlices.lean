import CompostRpc.StoreLayout
import CompostRpc.MsgProcessBounds

/-!
# Slices that overlap their destination

`compost_slice_store` takes a slice whose pointer is the destination to be in place already, and
then writes the length over its first two bytes. The elements of a slice in place would start behind
the length. A slice at any other address, inside the destination or not, is stored as it was.
-/

namespace CompostRpc
open ByteMemory

/-- The memory behind the destination holds the length of the slice and the elements that it had,
and nothing else has changed. -/
structure StoresSlice (inner : Numeric) (m : Machine) (dest : ℕ) (src : Slice) : Prop where
  length_eq : read (sliceStore inner m dest src).1.mem dest 2 =
    beBytes 2 (Slice.region inner src).2
  data_eq : read (sliceStore inner m dest src).1.mem (dest + 2) (Slice.region inner src).2 =
    sliceData m.mem inner src
  ptr_eq : (sliceStore inner m dest src).2 = dest + 2 + (Slice.region inner src).2
  frame : ∀ a, a < dest ∨ dest + 2 + (Slice.region inner src).2 ≤ a →
    (sliceStore inner m dest src).1.mem a = m.mem a

theorem sliceStore_ptr {inner : Numeric} {src : Slice} (hlen : (Slice.region inner src).2 < 2 ^ 16)
    (m : Machine) (dest : ℕ) :
    (sliceStore inner m dest src).2 = dest + 2 + (Slice.region inner src).2 :=
  congrArg (dest + 2 + ·) (Nat.mod_eq_of_lt hlen)

theorem length_sliceData (mem : ByteMemory) (inner : Numeric) (src : Slice) :
    (sliceData mem inner src).length = (Slice.region inner src).2 := length_read ..

theorem storesSlice_copied {inner : Numeric} {m : Machine} {dest : ℕ} {src : Slice}
    (hlen : (Slice.region inner src).2 < 2 ^ 16) (hptr : src.ptr ≠ dest) :
    StoresSlice inner m dest src := by
  have hmem := @sliceStore_copied m dest inner src hlen hptr
  have hdata := length_sliceData m.mem inner src
  have hcount : (beBytes 2 (Slice.region inner src).2).length = 2 := length_beBytes ..
  have hall := read_write_self m.mem dest
    (beBytes 2 (Slice.region inner src).2 ++ sliceData m.mem inner src)
  rw [List.length_append, hcount, hdata, read_append] at hall
  obtain ⟨hfirst, hsecond⟩ := List.append_inj hall (by rw [length_read, hcount])
  refine ⟨?_, ?_, sliceStore_ptr hlen m dest, fun a ha => ?_⟩
  · rw [hmem]
    exact hfirst
  · rw [hmem]
    exact hsecond
  · rw [hmem]
    rcases ha with hlt | hge
    · exact write_of_lt _ _ hlt
    · exact write_of_ge _ _ (by rw [List.length_append, hcount, hdata]; omega)

/-- What is found behind the length of a slice at the destination had been there before. -/
theorem storesSlice_uncopied_iff {inner : Numeric} {m : Machine} {dest : ℕ} {src : Slice}
    (hlen : (Slice.region inner src).2 < 2 ^ 16) (hptr : src.ptr = dest) :
    StoresSlice inner m dest src ↔
      ∀ i < (Slice.region inner src).2, m.mem (dest + 2 + i) = m.mem (dest + i) := by
  have hmem := @sliceStore_uncopied m dest inner src hlen hptr
  have hdata := length_sliceData m.mem inner src
  have hcount : (beBytes 2 (Slice.region inner src).2).length = 2 := length_beBytes ..
  have hbehind : ∀ i, (sliceStore inner m dest src).1.mem (dest + 2 + i) =
      m.mem (dest + 2 + i) := fun i => by
    rw [hmem, write_of_ge _ _ (by rw [hcount]; omega)]
  have helement : ∀ i < (Slice.region inner src).2,
      (sliceData m.mem inner src).getD i 0 = m.mem (dest + i) := fun i hi => by
    rw [sliceData, ← hptr]
    exact getD_read _ hi
  have hread := @read_eq_iff (sliceStore inner m dest src).1.mem (dest + 2)
    (sliceData m.mem inner src)
  rw [hdata] at hread
  constructor
  · rintro ⟨-, hdata_eq, -, -⟩ i hi
    rw [← hbehind, hread.mp hdata_eq i hi, helement i hi]
  · intro hsame
    refine ⟨?_, hread.mpr fun i hi => ?_, sliceStore_ptr hlen m dest, fun a ha => ?_⟩
    · have hself := read_write_self m.mem dest (beBytes 2 (Slice.region inner src).2)
      rw [hcount] at hself
      rw [hmem]
      exact hself
    · rw [hbehind, hsame i hi, helement i hi]
    · rw [hmem]
      rcases ha with hlt | hge
      · exact write_of_lt _ _ hlt
      · exact write_of_ge _ _ (by rw [hcount]; omega)

/-- A slice is stored as it was if it is not at the destination, or its elements repeat every two
bytes. -/
theorem storesSlice_iff {inner : Numeric} {m : Machine} {dest : ℕ} {src : Slice}
    (hlen : (Slice.region inner src).2 < 2 ^ 16) :
    StoresSlice inner m dest src ↔ src.ptr = dest →
      ∀ i < (Slice.region inner src).2, m.mem (dest + 2 + i) = m.mem (dest + i) := by
  by_cases hptr : src.ptr = dest
  · rw [storesSlice_uncopied_iff hlen hptr]
    exact ⟨fun h _ => h, fun h => h hptr⟩
  · exact iff_of_true (storesSlice_copied hlen hptr) fun h => absurd h hptr

/-- Four bytes in place, and the same bytes three bytes in front of the destination. -/
theorem storesSlice_nearby :
    StoresSlice .u8 (.start fun a => UInt8.ofNat a) 10 ⟨12, 4⟩ ∧
      StoresSlice .u8 (.start fun a => UInt8.ofNat a) 10 ⟨7, 4⟩ :=
  ⟨(@storesSlice_iff .u8 _ 10 ⟨12, 4⟩ (by decide)).mpr (fun h => absurd h (by decide)),
    (@storesSlice_iff .u8 _ 10 ⟨7, 4⟩ (by decide)).mpr (fun h => absurd h (by decide))⟩

/-- A slice at the destination loses its first two bytes. -/
theorem not_storesSlice_at_destination :
    ByteMemory.read (sliceStore .u8 (.start fun a => UInt8.ofNat a) 10 ⟨10, 4⟩).1.mem 10 6 =
        [0, 4, 12, 13, 14, 15] ∧
      ¬ StoresSlice .u8 (.start fun a => UInt8.ofNat a) 10 ⟨10, 4⟩ := by
  refine ⟨by decide, fun h => ?_⟩
  exact absurd h.data_eq (by decide)

end CompostRpc
