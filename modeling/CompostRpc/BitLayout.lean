import CompostRpc.ByteMemory

/-!
# Sequences of bit fields and byte strings

A layout is a list of pieces laid out one after the other at a running bit position. A bit field
starts where the position stands; a byte string starts at the next whole byte, so the empty byte
string aligns the position. `writeAll` stores a layout in a memory and `AllAt` says that a memory
holds it. Storing establishes `AllAt`, changes nothing before the start, takes no notice of an
alignment in front of a byte string, and commutes with moving everything by whole bytes.
-/

inductive Piece
  | bits (width value : ℕ)
  | bytes (data : List UInt8)

namespace Piece
open ByteMemory

def alignUp (o : ℕ) : ℕ := 8 * ((o + 7) / 8)

theorem le_alignUp (o : ℕ) : o ≤ alignUp o := by unfold alignUp; omega

theorem alignUp_mod (o : ℕ) : alignUp o % 8 = 0 := by unfold alignUp; omega

theorem alignUp_of_mod {o : ℕ} (h : o % 8 = 0) : alignUp o = o := by unfold alignUp; omega

@[simp] theorem alignUp_alignUp (o : ℕ) : alignUp (alignUp o) = alignUp o :=
  alignUp_of_mod (alignUp_mod o)

def stop : Piece → ℕ → ℕ
  | bits width _, o => o + width
  | bytes data, o => alignUp o + 8 * data.length

def write (m : ByteMemory) (o : ℕ) : Piece → ByteMemory
  | bits width value => storeBits width m o width value
  | bytes data => ByteMemory.write m (alignUp o / 8) data

def At (m : ByteMemory) (o : ℕ) : Piece → Prop
  | bits width value => ∀ k < width, bitAt m (o + k) = value.testBit (width - 1 - k)
  | bytes data => read m (alignUp o / 8) data.length = data

def stopAll : List Piece → ℕ → ℕ
  | [], o => o
  | p :: ps, o => stopAll ps (p.stop o)

def writeAll (m : ByteMemory) (o : ℕ) : List Piece → ByteMemory
  | [] => m
  | p :: ps => writeAll (p.write m o) (p.stop o) ps

def AllAt (m : ByteMemory) (o : ℕ) : List Piece → Prop
  | [] => True
  | p :: ps => p.At m o ∧ AllAt m (p.stop o) ps

theorem le_stop (p : Piece) (o : ℕ) : o ≤ p.stop o := by
  cases p with
  | bits width value => exact Nat.le_add_right _ _
  | bytes data => exact (le_alignUp o).trans (Nat.le_add_right _ _)

theorem le_stopAll (ps : List Piece) (o : ℕ) : o ≤ stopAll ps o := by
  induction ps generalizing o with
  | nil => exact le_rfl
  | cons p ps ih => exact (p.le_stop o).trans (ih _)

theorem length_le_stopAll {data : List UInt8} {ps : List Piece} (h : bytes data ∈ ps) (o : ℕ) :
    o + 8 * data.length ≤ stopAll ps o := by
  induction ps generalizing o with
  | nil => cases h
  | cons p ps ih =>
    rcases List.mem_cons.mp h with rfl | htail
    · calc
        o + 8 * data.length ≤ alignUp o + 8 * data.length := Nat.add_le_add_right (le_alignUp o) _
        _ ≤ stopAll (bytes data :: ps) o := le_stopAll ps _
    · exact (Nat.add_le_add_right (p.le_stop o) _).trans (ih htail _)

theorem stopAll_append (ps qs : List Piece) (o : ℕ) :
    stopAll (ps ++ qs) o = stopAll qs (stopAll ps o) := by
  induction ps generalizing o with
  | nil => rfl
  | cons p ps ih => exact ih _

theorem writeAll_append (m : ByteMemory) (ps qs : List Piece) (o : ℕ) :
    writeAll m o (ps ++ qs) = writeAll (writeAll m o ps) (stopAll ps o) qs := by
  induction ps generalizing m o with
  | nil => rfl
  | cons p ps ih => exact ih _ _

theorem allAt_append (m : ByteMemory) (ps qs : List Piece) (o : ℕ) :
    AllAt m o (ps ++ qs) ↔ AllAt m o ps ∧ AllAt m (stopAll ps o) qs := by
  induction ps generalizing o with
  | nil => simp only [List.nil_append, AllAt, stopAll, true_and]
  | cons p ps ih => simp only [List.cons_append, AllAt, stopAll, ih, and_assoc]

def width : Piece → ℕ
  | bits width _ => width
  | bytes data => 8 * data.length

def widths (ps : List Piece) : ℕ := (ps.map width).sum

def padding : List Piece → ℕ → ℕ
  | [], _ => 0
  | bits width _ :: ps, o => padding ps (o + width)
  | bytes data :: ps, o => alignUp o - o + padding ps (alignUp o + 8 * data.length)

theorem widths_append (ps qs : List Piece) : widths (ps ++ qs) = widths ps + widths qs := by
  rw [widths, List.map_append, List.sum_append]
  rfl

/-- A layout takes the widths of its pieces and what it skips. -/
theorem stopAll_eq_add (ps : List Piece) (o : ℕ) :
    stopAll ps o = o + widths ps + padding ps o := by
  induction ps generalizing o with
  | nil => rfl
  | cons p ps ih =>
    rw [stopAll, ih]
    cases p with
    | bits width value =>
      have hcons : widths (bits width value :: ps) = width + widths ps := List.sum_cons
      rw [hcons, stop, padding]
      omega
    | bytes data =>
      have hcons : widths (bytes data :: ps) = 8 * data.length + widths ps := List.sum_cons
      have halign := le_alignUp o
      rw [hcons, stop, padding]
      omega

def Covers : Piece → ℕ → ℕ → Prop
  | bits width _, o, i => o ≤ i ∧ i < o + width
  | bytes data, o, i => alignUp o ≤ i ∧ i < alignUp o + 8 * data.length

def Covered : List Piece → ℕ → ℕ → Prop
  | [], _, _ => False
  | p :: ps, o, i => p.Covers o i ∨ Covered ps (p.stop o) i

theorem Covers.bounds {p : Piece} {o i : ℕ} (h : p.Covers o i) : o ≤ i ∧ i < p.stop o := by
  cases p with
  | bits width value => exact h
  | bytes data => exact ⟨(le_alignUp o).trans h.1, h.2⟩

theorem Covered.bounds {ps : List Piece} {o i : ℕ} (h : Covered ps o i) :
    o ≤ i ∧ i < stopAll ps o := by
  induction ps generalizing o with
  | nil => cases h
  | cons p ps ih =>
    rcases h with hhead | htail
    · exact ⟨hhead.bounds.1, hhead.bounds.2.trans_le (le_stopAll ps _)⟩
    · exact ⟨(p.le_stop o).trans (ih htail).1, (ih htail).2⟩

theorem bitAt_write_of_not_covers (m : ByteMemory) {p : Piece} {o i : ℕ} (h : ¬ p.Covers o i) :
    bitAt (p.write m o) i = bitAt m i := by
  cases p with
  | bits width value =>
    rw [write, bitAt_storeBits _ _ _ _ _ _ le_rfl]
    exact if_neg h
  | bytes data =>
    have hmod := alignUp_mod o
    simp only [Covers] at h
    exact bitAt_congr (if_neg (by omega))

theorem bitAt_write_of_covers (m m' : ByteMemory) {p : Piece} {o i : ℕ} (h : p.Covers o i) :
    bitAt (p.write m o) i = bitAt (p.write m' o) i := by
  cases p with
  | bits width value =>
    rw [write, write, bitAt_storeBits _ _ _ _ _ _ le_rfl, bitAt_storeBits _ _ _ _ _ _ le_rfl]
    exact (if_pos h).trans (if_pos h).symm
  | bytes data =>
    have hmod := alignUp_mod o
    simp only [Covers] at h
    apply bitAt_congr
    rw [write, write, write_of_mem _ (by omega) (by omega), write_of_mem _ (by omega) (by omega)]

theorem bitAt_writeAll_of_not_covered (m : ByteMemory) {ps : List Piece} {o i : ℕ}
    (h : ¬ Covered ps o i) : bitAt (writeAll m o ps) i = bitAt m i := by
  induction ps generalizing m o with
  | nil => rfl
  | cons p ps ih =>
    rw [writeAll, ih _ fun htail => h (.inr htail),
      bitAt_write_of_not_covers m fun hhead => h (.inl hhead)]

theorem bitAt_writeAll_of_lt (m : ByteMemory) (ps : List Piece) {o i : ℕ} (h : i < o) :
    bitAt (writeAll m o ps) i = bitAt m i :=
  bitAt_writeAll_of_not_covered m fun hcovered => by
    have hle := hcovered.bounds.1
    omega

/-- A layout determines the bits it covers. -/
theorem bitAt_writeAll_of_covered (m m' : ByteMemory) {ps : List Piece} {o i : ℕ}
    (h : Covered ps o i) : bitAt (writeAll m o ps) i = bitAt (writeAll m' o ps) i := by
  induction ps generalizing m m' o with
  | nil => cases h
  | cons p ps ih =>
    by_cases htail : Covered ps (p.stop o) i
    · exact ih _ _ htail
    · rw [writeAll, writeAll, bitAt_writeAll_of_not_covered _ htail,
        bitAt_writeAll_of_not_covered _ htail]
      exact bitAt_write_of_covers m m' (h.resolve_right htail)

/-- Two memories are the same after storing a layout if they differ inside it only. -/
theorem writeAll_eq_iff {m m' : ByteMemory} {ps : List Piece} {o : ℕ} :
    writeAll m o ps = writeAll m' o ps ↔ ∀ i, ¬ Covered ps o i → bitAt m i = bitAt m' i := by
  constructor
  · intro h i hi
    rw [← bitAt_writeAll_of_not_covered m hi, h, bitAt_writeAll_of_not_covered m' hi]
  · intro h
    apply eq_of_bits
    intro i
    by_cases hi : Covered ps o i
    · exact bitAt_writeAll_of_covered m m' hi
    · rw [bitAt_writeAll_of_not_covered m hi, bitAt_writeAll_of_not_covered m' hi, h i hi]

theorem alignUp_add (d o : ℕ) : alignUp (8 * d + o) = 8 * d + alignUp o := by unfold alignUp; omega

theorem stop_shift (p : Piece) (d o : ℕ) : p.stop (8 * d + o) = 8 * d + p.stop o := by
  cases p with
  | bits width value => exact Nat.add_assoc _ _ _
  | bytes data => simp only [stop, alignUp_add, Nat.add_assoc]

theorem stopAll_shift (ps : List Piece) (d o : ℕ) :
    stopAll ps (8 * d + o) = 8 * d + stopAll ps o := by
  induction ps generalizing o with
  | nil => rfl
  | cons p ps ih => rw [stopAll, stop_shift, ih, stopAll]

theorem at_shift {m m' : ByteMemory} {d o : ℕ} (p : Piece)
    (hbits : ∀ i, o ≤ i → i < p.stop o → bitAt m (8 * d + i) = bitAt m' i) :
    p.At m (8 * d + o) ↔ p.At m' o := by
  cases p with
  | bits width value =>
    have hsame : ∀ k < width, bitAt m (8 * d + o + k) = bitAt m' (o + k) := fun k hk => by
      rw [Nat.add_assoc]
      exact hbits _ (Nat.le_add_right _ _) (Nat.add_lt_add_left hk o)
    constructor
    · exact fun h k hk => (hsame k hk).symm.trans (h k hk)
    · exact fun h k hk => (hsame k hk).trans (h k hk)
  | bytes data =>
    have hle := le_alignUp o
    have hmod := alignUp_mod o
    have hsame : read m (alignUp (8 * d + o) / 8) data.length =
        read m' (alignUp o / 8) data.length := by
      apply read_congr
      intro k hk
      apply byte_eq_of_bits
      intro j hj
      have hpos : 8 * (alignUp (8 * d + o) / 8 + k) + j =
          8 * d + (8 * (alignUp o / 8 + k) + j) := by
        rw [alignUp_add]
        omega
      rw [hpos]
      refine hbits _ (by omega) ?_
      simp only [stop]
      omega
    rw [At, At, hsame]

/-- Whether a memory holds a layout depends on the bits of the layout only. -/
theorem allAt_shift {m m' : ByteMemory} {d o : ℕ} (ps : List Piece)
    (hbits : ∀ i, o ≤ i → i < stopAll ps o → bitAt m (8 * d + i) = bitAt m' i) :
    AllAt m (8 * d + o) ps ↔ AllAt m' o ps := by
  induction ps generalizing o with
  | nil => exact Iff.rfl
  | cons p ps ih =>
    have hhead := p.at_shift fun i hi hlt => hbits i hi (hlt.trans_le (le_stopAll ps _))
    have htail := ih fun i hi hlt => hbits i ((p.le_stop o).trans hi) hlt
    rw [AllAt, AllAt, hhead, stop_shift, htail]

/-- A layout held from a whole byte on is held by the bytes read from there. -/
theorem allAt_ofList_read {m : ByteMemory} {a n : ℕ} {ps : List Piece} (h : stopAll ps 0 ≤ 8 * n) :
    AllAt (ofList (read m a n)) 0 ps ↔ AllAt m (8 * a) ps := by
  refine (allAt_shift (d := a) (o := 0) ps fun i _ hlt => ?_).symm
  rw [bitAt_ofList_read, if_pos (by omega)]

theorem At.congr {m m' : ByteMemory} {o : ℕ} {p : Piece} (h : p.At m o)
    (hbits : ∀ i, o ≤ i → i < p.stop o → bitAt m' i = bitAt m i) : p.At m' o := by
  have hshift : p.At m' (8 * 0 + o) ↔ p.At m o := p.at_shift (by simpa using hbits)
  rw [Nat.mul_zero, Nat.zero_add] at hshift
  exact hshift.mpr h

theorem AllAt.congr {m m' : ByteMemory} {o : ℕ} {ps : List Piece} (h : AllAt m o ps)
    (hbits : ∀ i, o ≤ i → i < stopAll ps o → bitAt m' i = bitAt m i) : AllAt m' o ps := by
  have hshift : AllAt m' (8 * 0 + o) ps ↔ AllAt m o ps := allAt_shift ps (by simpa using hbits)
  rw [Nat.mul_zero, Nat.zero_add] at hshift
  exact hshift.mpr h

theorem at_write (m : ByteMemory) (p : Piece) (o : ℕ) : p.At (p.write m o) o := by
  cases p with
  | bits width value =>
    intro k hk
    rw [write, bitAt_storeBits _ _ _ _ _ _ le_rfl, if_pos (by omega)]
    congr 1
    omega
  | bytes data => exact read_write_self m _ data

/-- A stored layout is held by the memory. -/
theorem allAt_writeAll (m : ByteMemory) (ps : List Piece) (o : ℕ) :
    AllAt (writeAll m o ps) o ps := by
  induction ps generalizing m o with
  | nil => trivial
  | cons p ps ih =>
    refine ⟨(p.at_write m o).congr ?_, ih _ _⟩
    intro i _ hlt
    exact bitAt_writeAll_of_lt _ ps hlt

theorem write_eq_of_at {m : ByteMemory} {p : Piece} {o : ℕ} (h : p.At m o) : p.write m o = m := by
  cases p with
  | bits width value =>
    apply eq_of_bits
    intro i
    rw [write, bitAt_storeBits _ _ _ _ _ _ le_rfl]
    split_ifs with hi
    · have hbit := h (i - o) (by omega)
      rw [show o + (i - o) = i by omega, show width - 1 - (i - o) = o + width - 1 - i by omega]
        at hbit
      exact hbit.symm
    · rfl
  | bytes data =>
    have hself := write_read_self m (alignUp o / 8) data.length
    rw [At] at h
    rwa [h] at hself

/-- A memory holds a layout if storing it changes nothing. -/
theorem allAt_iff_writeAll_eq {m : ByteMemory} {ps : List Piece} {o : ℕ} :
    AllAt m o ps ↔ writeAll m o ps = m := by
  constructor
  · intro h
    induction ps generalizing o with
    | nil => rfl
    | cons p ps ih => rw [writeAll, write_eq_of_at h.1, ih h.2]
  · intro h
    exact h ▸ allAt_writeAll m ps o

theorem bitAt_write_shift {m m' : ByteMemory} {d i : ℕ} (p : Piece) (o : ℕ)
    (h : bitAt m (8 * d + i) = bitAt m' i) :
    bitAt (p.write m (8 * d + o)) (8 * d + i) = bitAt (p.write m' o) i := by
  cases p with
  | bits width value =>
    rw [write, write, bitAt_storeBits _ _ _ _ _ _ le_rfl, bitAt_storeBits _ _ _ _ _ _ le_rfl, h]
    by_cases hin : o ≤ i ∧ i < o + width
    · rw [if_pos hin, if_pos (by omega)]
      congr 1
      omega
    · rw [if_neg hin, if_neg (by omega)]
  | bytes data =>
    have hmod := alignUp_mod o
    rw [write, write, alignUp_add]
    by_cases hin : alignUp o / 8 ≤ i / 8 ∧ i / 8 < alignUp o / 8 + data.length
    · rw [bitAt, bitAt, write_of_mem _ (by omega) (by omega), write_of_mem _ hin.1 hin.2]
      have hbyte : (8 * d + i) / 8 - (8 * d + alignUp o) / 8 = i / 8 - alignUp o / 8 := by omega
      have hbit : (8 * d + i) % 8 = i % 8 := by omega
      rw [hbyte, hbit]
    · have hleft : bitAt (ByteMemory.write m ((8 * d + alignUp o) / 8) data) (8 * d + i) =
          bitAt m (8 * d + i) := bitAt_congr (if_neg (by omega))
      have hright : bitAt (ByteMemory.write m' (alignUp o / 8) data) i = bitAt m' i :=
        bitAt_congr (if_neg hin)
      rw [hleft, hright, h]

/-- A layout stored `d` bytes further on writes the same bits `d` bytes further on. -/
theorem bitAt_writeAll_shift {m m' : ByteMemory} {d i : ℕ} (ps : List Piece) (o : ℕ)
    (h : bitAt m (8 * d + i) = bitAt m' i) :
    bitAt (writeAll m (8 * d + o) ps) (8 * d + i) = bitAt (writeAll m' o ps) i := by
  induction ps generalizing m m' o with
  | nil => exact h
  | cons p ps ih =>
    rw [writeAll, writeAll, stop_shift]
    exact ih _ (bitAt_write_shift p o h)

/-- The bytes read back from a layout are the layout in the bytes read before. -/
theorem ofList_read_writeAll (m : ByteMemory) (a n : ℕ) {ps : List Piece}
    (h : stopAll ps 0 ≤ 8 * n) :
    ofList (read (writeAll m (8 * a) ps) a n) = writeAll (ofList (read m a n)) 0 ps := by
  apply eq_of_bits
  intro i
  rw [bitAt_ofList_read]
  by_cases hi : i < 8 * n
  · have hold : bitAt m (8 * a + i) = bitAt (ofList (read m a n)) i := by
      rw [bitAt_ofList_read, if_pos hi]
    rw [if_pos hi]
    exact bitAt_writeAll_shift ps 0 hold
  · have hcovered : ¬ Covered ps 0 i := fun hcovered => by
      have hlt := hcovered.bounds.2
      omega
    rw [if_neg hi, bitAt_writeAll_of_not_covered _ hcovered, bitAt_ofList_read, if_neg hi]

end Piece
