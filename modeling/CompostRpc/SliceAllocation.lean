import CompostRpc.AllocatorRuns

/-!
# Slices and the bytes allocated for them

`compost_slice_new` multiplies the length by the size of an element, and `compost_alloc_next` takes
the product in 16 bits. The slice keeps its length, so it has more bytes than were allocated for it
exactly if the product does not fit and the rest of it is granted.
-/

namespace CompostRpc
open TransitionRun

/-- The slice is the empty one without memory, or all its bytes lie inside the buffer and in front
of the new pointer of the allocator. -/
def Slice.WithinAllocated (inner : Numeric) (alloc : CompostAlloc) (r : Slice × CompostAlloc) :
    Prop :=
  (r.1.ptr = 0 ∧ r.1.len = 0) ∨
    (alloc.buffer.ptr ≤ r.1.ptr ∧
      r.1.ptr + r.1.len.toNat * inner.size.bytes ≤ alloc.buffer.ptr + alloc.buffer.len.toNat ∧
      r.1.ptr + r.1.len.toNat * inner.size.bytes ≤ r.2.ptr)

theorem sliceNew_eq (inner : Numeric) (alloc : CompostAlloc) (len : UInt16) :
    sliceNew inner alloc len =
      if alloc.Refuses (inner.size.bytes * len.toNat) then (⟨0, 0⟩, alloc)
      else (⟨alloc.ptr, if alloc.ptr = 0 then 0 else len⟩,
        (compostAllocNext alloc (inner.size.bytes * len.toNat)).2) := by
  rw [sliceNew, compostAllocNext_eq]
  by_cases hrefused : alloc.Refuses (inner.size.bytes * len.toNat)
  · simp only [if_pos hrefused, if_true]
  · simp only [if_neg hrefused]

/-- A slice lies inside what was allocated if it has no memory, or its bytes fit 16 bits and the
pointer is not in front of the buffer. -/
theorem withinAllocated_iff (inner : Numeric) (alloc : CompostAlloc) (len : UInt16) :
    Slice.WithinAllocated inner alloc (sliceNew inner alloc len) ↔
      alloc.Refuses (inner.size.bytes * len.toNat) ∨ alloc.ptr = 0 ∨
        (alloc.buffer.ptr ≤ alloc.ptr ∧ inner.size.bytes * len.toNat < 2 ^ 16) := by
  have hbuffer : alloc.buffer.len.toNat < 2 ^ 16 := alloc.buffer.len.toNat_lt
  rw [sliceNew_eq, Slice.WithinAllocated]
  by_cases hrefused : alloc.Refuses (inner.size.bytes * len.toNat)
  · rw [if_pos hrefused]
    exact iff_of_true (.inl ⟨rfl, rfl⟩) (.inl hrefused)
  rw [if_neg hrefused, or_iff_right hrefused]
  by_cases hnull : alloc.ptr = 0
  · exact iff_of_true (.inl ⟨hnull, if_pos hnull⟩) (.inl hnull)
  · have hnext : (compostAllocNext alloc (inner.size.bytes * len.toNat)).2.ptr =
        alloc.ptr + inner.size.bytes * len.toNat % 2 ^ 16 + AllocHistory.skipped alloc := by
      rw [compostAllocNext_eq, if_neg hrefused]
    have hroom := (not_or.mp hrefused).1
    simp only [if_neg hnull, hnext]
    rw [or_iff_right fun h => hnull h.1, or_iff_right hnull, Nat.mul_comm len.toNat]
    constructor
    · rintro ⟨hlow, hhigh, -⟩
      exact ⟨hlow, by omega⟩
    · rintro ⟨hlow, hsmall⟩
      rw [Nat.mod_eq_of_lt hsmall] at hroom ⊢
      exact ⟨hlow, by omega, by omega⟩

/-- In a run of the allocator it depends on the length alone. -/
theorem withinAllocated_iff_of_run {buffer : ℕ} (hbuffer : 0 < buffer) {size : UInt16}
    {es : List AllocEvent} {h : AllocHistory}
    (hrun : run AllocHistory.step (AllocHistory.init buffer size) es = some h) (inner : Numeric)
    (len : UInt16) :
    Slice.WithinAllocated inner h.alloc (sliceNew inner h.alloc len) ↔
      h.alloc.Refuses (inner.size.bytes * len.toNat) ∨ inner.size.bytes * len.toNat < 2 ^ 16 := by
  obtain ⟨blocks, hlaid⟩ := AllocHistory.laid_of_run hbuffer hrun
  have hptr := hlaid.ptr_eq
  have hbase : h.alloc.buffer.ptr = buffer := congrArg Slice.ptr hlaid.buffer_eq
  rw [withinAllocated_iff]
  apply or_congr Iff.rfl
  constructor
  · rintro (hnull | ⟨-, hsmall⟩)
    · omega
    · exact hsmall
  · intro hsmall
    exact .inr ⟨by omega, hsmall⟩

/-- A slice of 32768 numbers of two bytes from a buffer of four bytes. -/
theorem not_withinAllocated_wrapped :
    (sliceNew .u16 (compostAllocInit 100 4) 32768).1.ptr = 100 ∧
      (sliceNew .u16 (compostAllocInit 100 4) 32768).1.len = 32768 ∧
      (sliceNew .u16 (compostAllocInit 100 4) 32768).2.ptr = 100 ∧
      ¬ Slice.WithinAllocated .u16 (compostAllocInit 100 4)
        (sliceNew .u16 (compostAllocInit 100 4) 32768) := by
  refine ⟨by decide, by decide, by decide, ?_⟩
  rintro (⟨hnull, -⟩ | ⟨-, hinside, -⟩)
  · exact absurd hnull (by decide)
  · exact absurd hinside (by decide)

end CompostRpc
