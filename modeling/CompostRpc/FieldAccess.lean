import CompostRpc.ByteMemory

/-!
# Access to a bit field of a word in C

The setter of a bit field keeps the bits inside the field and clears those outside, and it returns
32 bits for a word of 64 as well. What it returns is the disjunction of the old and the new value in
the field alone. So the laws of a getter and a setter hold only where there was nothing to keep
outside the field and nothing to clear inside.
-/

namespace CompostRpc
open ByteMemory

inductive CLong
  | bits32 | bits64
  deriving DecidableEq

def CLong.width : CLong → ℕ
  | bits32 => 32
  | bits64 => 64

/-- `compost_u32_field_set`. A shift by the width of its operand or more is undefined. -/
def u32FieldSet (long : CLong) (backing bitfieldValue : BitVec 32) (offsetBits sizeBits : ℕ) :
    Option (BitVec 32) :=
  if sizeBits < long.width ∧ offsetBits < 32 then
    let mask : BitVec 32 :=
      (((BitVec.ofNat long.width 1 <<< sizeBits) - BitVec.ofNat long.width 1) <<<
        offsetBits).setWidth 32
    some ((backing &&& mask) ||| ((bitfieldValue <<< offsetBits) &&& mask))
  else none

def u32FieldGet (long : CLong) (backing : BitVec 32) (offsetBits sizeBits : ℕ) :
    Option (BitVec 32) :=
  if offsetBits < 32 ∧ sizeBits < long.width then
    some (((backing >>> offsetBits).setWidth long.width &&&
      ((BitVec.ofNat long.width 1 <<< sizeBits) - BitVec.ofNat long.width 1)).setWidth 32)
  else none

/-- `compost_u64_field_set`; the value is shifted in its own 32 bits. -/
def u64FieldSet (backing : BitVec 64) (bitfieldValue : BitVec 32) (offsetBits sizeBits : ℕ) :
    Option (BitVec 32) :=
  if sizeBits < 64 ∧ offsetBits < 32 then
    let mask : BitVec 64 := ((1#64 <<< sizeBits) - 1#64) <<< offsetBits
    some (((backing &&& mask) |||
      ((bitfieldValue <<< offsetBits).setWidth 64 &&& mask)).setWidth 32)
  else none

def u64FieldGet (backing : BitVec 64) (offsetBits sizeBits : ℕ) : Option (BitVec 32) :=
  if offsetBits < 64 ∧ sizeBits < 64 then
    some (((backing >>> offsetBits) &&& ((1#64 <<< sizeBits) - 1#64)).setWidth 32)
  else none

/-- The mask of a setter. -/
theorem getLsbD_fieldMask {w s o i : ℕ} (hs : s < w) (hi : i < w) :
    (((1#w <<< s) - 1#w) <<< o).getLsbD i = decide (o ≤ i ∧ i < o + s) := by
  rw [BitVec.getLsbD_shiftLeft, getLsbD_lowMask hs, decide_eq_true hi, Bool.true_and]
  by_cases hlow : i < o
  · rw [decide_eq_true hlow, Bool.not_true, Bool.false_and, decide_eq_false (by omega)]
  · rw [decide_eq_false hlow, Bool.not_false, Bool.true_and]
    apply decide_eq_decide.mpr
    omega

/-- The value in its place under the mask. -/
theorem getLsbD_placed {w s o i : ℕ} (hi : i < w) (x : BitVec w) :
    ((x <<< o).getLsbD i && decide (o ≤ i ∧ i < o + s)) =
      (decide (o ≤ i ∧ i < o + s) && x.getLsbD (i - o)) := by
  rw [BitVec.getLsbD_shiftLeft, decide_eq_true hi, Bool.true_and, Bool.and_comm]
  by_cases hin : o ≤ i ∧ i < o + s
  · rw [decide_eq_false (by omega : ¬ i < o), Bool.not_false, Bool.true_and]
  · rw [decide_eq_false hin, Bool.false_and, Bool.false_and]

def Sets {w : ℕ} (offsetBits sizeBits : ℕ) (set : BitVec w → BitVec 32 → Option (BitVec 32)) :
    Prop :=
  ∀ backing value, ∃ r, set backing value = some r ∧ ∀ i < 32, r.getLsbD i =
    (decide (offsetBits ≤ i ∧ i < offsetBits + sizeBits) &&
      (backing.getLsbD i || value.getLsbD (i - offsetBits)))

def Gets {w : ℕ} (offsetBits sizeBits : ℕ) (get : BitVec w → Option (BitVec 32)) : Prop :=
  ∀ backing, ∃ r, get backing = some r ∧ ∀ i < 32, r.getLsbD i =
    (decide (i < sizeBits) && backing.getLsbD (offsetBits + i))

theorem sets_u32 (long : CLong) {o s : ℕ} (hs : s ≤ 31) (ho : o < 32) :
    Sets o s fun backing value => u32FieldSet long backing value o s := by
  intro backing value
  have hwidth : 32 ≤ long.width := by cases long <;> decide
  refine ⟨_, if_pos ⟨by omega, ho⟩, fun i hi => ?_⟩
  have hmask := @getLsbD_fieldMask long.width s o i (by omega) (by omega)
  simp only [BitVec.getLsbD_or, BitVec.getLsbD_and, BitVec.getLsbD_setWidth, hmask,
    decide_eq_true hi, Bool.true_and, getLsbD_placed hi]
  rw [Bool.and_comm, Bool.and_or_distrib_left]

theorem gets_u32 (long : CLong) {o s : ℕ} (hs : s ≤ 31) (ho : o < 32) :
    Gets o s fun backing => u32FieldGet long backing o s := by
  intro backing
  have hwidth : 32 ≤ long.width := by cases long <;> decide
  refine ⟨_, if_pos ⟨ho, by omega⟩, fun i hi => ?_⟩
  simp only [BitVec.getLsbD_and, BitVec.getLsbD_setWidth, BitVec.getLsbD_ushiftRight,
    getLsbD_lowMask (show s < long.width by omega), hi,
    show i < long.width by omega, decide_true, Bool.true_and, Bool.and_comm]

theorem sets_u64 {o s : ℕ} (hs : s ≤ 31) (ho : o < 32) :
    Sets o s fun backing value => u64FieldSet backing value o s := by
  intro backing value
  refine ⟨_, if_pos ⟨by omega, ho⟩, fun i hi => ?_⟩
  have hmask := @getLsbD_fieldMask 64 s o i (by omega) (by omega)
  simp only [BitVec.getLsbD_or, BitVec.getLsbD_and, BitVec.getLsbD_setWidth, hmask,
    decide_eq_true hi, decide_eq_true (show i < 64 by omega), Bool.true_and, getLsbD_placed hi]
  rw [Bool.and_comm, Bool.and_or_distrib_left]

theorem gets_u64 {o s : ℕ} (hs : s ≤ 31) (ho : o < 64) :
    Gets o s fun backing => u64FieldGet backing o s := by
  intro backing
  refine ⟨_, if_pos ⟨ho, by omega⟩, fun i hi => ?_⟩
  simp only [BitVec.getLsbD_and, BitVec.getLsbD_setWidth, BitVec.getLsbD_ushiftRight,
    getLsbD_lowMask (show s < 64 by omega), hi, decide_true, Bool.true_and,
    Bool.and_comm]

/-- A getter returns what was set, the setter leaves the bits outside the field, and it changes
nothing if the value is there already. -/
structure LensLaws {w : ℕ} (set : BitVec w → BitVec 32 → Option (BitVec 32))
    (get : BitVec w → Option (BitVec 32)) (offsetBits sizeBits : ℕ) (backing : BitVec w)
    (value : BitVec 32) : Prop where
  get_set : ∃ r, set backing value = some r ∧ get (r.setWidth w) = some value
  outside : ∃ r, set backing value = some r ∧ ∀ i < w,
    i < offsetBits ∨ offsetBits + sizeBits ≤ i →
      (r.setWidth w).getLsbD i = backing.getLsbD i
  set_get : ∃ value' r, get backing = some value' ∧ set backing value' = some r ∧
    r.setWidth w = backing

/-- The word has no bit outside the field, nor inside where the value has none, and word and value
keep to the lower 32 bits. -/
structure Mergeable {w : ℕ} (offsetBits sizeBits : ℕ) (backing : BitVec w) (value : BitVec 32) :
    Prop where
  offset_lt : offsetBits < 32
  inside : ∀ i < w, backing.getLsbD i = true → offsetBits ≤ i ∧ i < offsetBits + sizeBits
  covered : ∀ i < sizeBits, backing.getLsbD (offsetBits + i) = true → value.getLsbD i = true
  backing_lt : backing.toNat < 2 ^ 32
  value_lt : value.toNat < 2 ^ (32 - offsetBits)

section
variable {w o s : ℕ} {set : BitVec w → BitVec 32 → Option (BitVec 32)}
  {get : BitVec w → Option (BitVec 32)} {backing : BitVec w} {value : BitVec 32}

theorem getLsbD_of_toNat_lt {k : ℕ} (h : backing.toNat < 2 ^ k) {i : ℕ} (hi : k ≤ i) :
    backing.getLsbD i = false :=
  Nat.testBit_lt_two_pow (h.trans_le (Nat.pow_le_pow_right (by decide) hi))

theorem toNat_lt_of_getLsbD {k : ℕ} (h : ∀ i, k ≤ i → backing.getLsbD i = false) :
    backing.toNat < 2 ^ k := Nat.lt_pow_two_of_testBit _ h

theorem LensLaws.mergeable (hset : Sets o s set) (hget : Gets o s get) (ho : o < 32)
    (h : LensLaws set get o s backing value) : Mergeable o s backing value := by
  obtain ⟨⟨r, hr, hback⟩, -, value', r', -, hr', hsame⟩ := h
  obtain ⟨r₁, hr₁, hbits⟩ := hset backing value
  obtain rfl := Option.some.inj (hr.symm.trans hr₁)
  obtain ⟨r₂, hr₂, hbits'⟩ := hset backing value'
  obtain rfl := Option.some.inj (hr'.symm.trans hr₂)
  obtain ⟨x, hx, hread⟩ := hget (r.setWidth w)
  obtain rfl := Option.some.inj (hback.symm.trans hx)
  -- the word is what was set, so it has 32 bits and none outside the field
  have hshort : ∀ i, 32 ≤ i → backing.getLsbD i = false := fun i hi => by
    rw [← hsame, BitVec.getLsbD_setWidth, BitVec.getLsbD_of_ge r' i hi, Bool.and_false]
  refine ⟨ho, fun i hi hbit => ?_, fun i hi hbit => ?_, toNat_lt_of_getLsbD hshort,
    toNat_lt_of_getLsbD fun i hi => ?_⟩
  · have hlt : i < 32 := by
      by_contra hge
      rw [hshort i (by omega)] at hbit
      cases hbit
    rw [← hsame, BitVec.getLsbD_setWidth, hbits' i hlt] at hbit
    simp only [Bool.and_eq_true, decide_eq_true_eq] at hbit
    exact hbit.2.1
  · have hlt : o + i < 32 := by
      by_contra hge
      rw [hshort (o + i) (by omega)] at hbit
      cases hbit
    have hw : o + i < w := BitVec.lt_of_getLsbD hbit
    rw [hread i (by omega), BitVec.getLsbD_setWidth, hbits (o + i) hlt, hbit]
    simp [hi, hw]
  · by_cases hi' : i < 32
    · rw [hread i hi', BitVec.getLsbD_setWidth, BitVec.getLsbD_of_ge r (o + i) (by omega),
        Bool.and_false, Bool.and_false]
    · exact BitVec.getLsbD_of_ge value i (by omega)

theorem Mergeable.lensLaws (hset : Sets o s set) (hget : Gets o s get) (hw : o + s ≤ w)
    (hvalue : value.toNat < 2 ^ s) (h : Mergeable o s backing value) :
    LensLaws set get o s backing value := by
  obtain ⟨r, hr, hbits⟩ := hset backing value
  have houtside : ∀ i < w, i < o ∨ o + s ≤ i → backing.getLsbD i = false := fun i hi hout => by
    by_contra hbit
    have hin := h.inside i hi (Bool.of_not_eq_false hbit)
    omega
  refine ⟨⟨r, hr, ?_⟩, ⟨r, hr, fun i hi hout => ?_⟩, ?_⟩
  · obtain ⟨x, hx, hread⟩ := hget (r.setWidth w)
    rw [hx]
    congr 1
    apply BitVec.eq_of_getLsbD_eq
    intro i hi
    rw [hread i hi, BitVec.getLsbD_setWidth]
    by_cases hs : i < s
    · rw [decide_eq_true hs, Bool.true_and, decide_eq_true (show o + i < w by omega), Bool.true_and]
      by_cases hlt : o + i < 32
      · rw [hbits (o + i) hlt, Nat.add_sub_cancel_left, decide_eq_true (by omega), Bool.true_and]
        cases hbit : backing.getLsbD (o + i) with
        | false => exact Bool.false_or _
        | true => rw [h.covered i hs hbit, Bool.or_self]
      · rw [BitVec.getLsbD_of_ge r (o + i) (by omega), getLsbD_of_toNat_lt h.value_lt (by omega)]
    · rw [decide_eq_false hs, Bool.false_and, getLsbD_of_toNat_lt hvalue (by omega)]
  · rw [houtside i hi hout, BitVec.getLsbD_setWidth]
    by_cases hlt : i < 32
    · rw [hbits i hlt, decide_eq_false (show ¬ (o ≤ i ∧ i < o + s) by omega), Bool.false_and,
        Bool.and_false]
    · rw [BitVec.getLsbD_of_ge r i (by omega), Bool.and_false]
  · obtain ⟨x, hx, hread⟩ := hget backing
    obtain ⟨r', hr', hbits'⟩ := hset backing x
    refine ⟨x, r', hx, hr', ?_⟩
    apply BitVec.eq_of_getLsbD_eq
    intro i hi
    rw [BitVec.getLsbD_setWidth, decide_eq_true hi, Bool.true_and]
    by_cases hlt : i < 32
    · rw [hbits' i hlt]
      by_cases hin : o ≤ i ∧ i < o + s
      · rw [decide_eq_true hin, Bool.true_and, hread (i - o) (by omega), Nat.add_sub_cancel' hin.1,
          decide_eq_true (by omega), Bool.true_and, Bool.or_self]
      · rw [decide_eq_false hin, Bool.false_and, houtside i hi (by omega)]
    · rw [BitVec.getLsbD_of_ge r' i (by omega), getLsbD_of_toNat_lt h.backing_lt (by omega)]

end

/-- The getter and the setter of a word obey the laws exactly if the word has bits only where the
value has them, and neither reaches beyond 32 bits. -/
theorem lensLaws_iff_mergeable (long : CLong) :
    (∀ (backing value : BitVec 32) (offsetBits sizeBits : ℕ), 1 ≤ sizeBits → sizeBits ≤ 31 →
      offsetBits + sizeBits ≤ 32 → value.toNat < 2 ^ sizeBits →
      (LensLaws (fun b v => u32FieldSet long b v offsetBits sizeBits)
          (fun b => u32FieldGet long b offsetBits sizeBits) offsetBits sizeBits backing value ↔
        Mergeable offsetBits sizeBits backing value)) ∧
    ∀ (backing : BitVec 64) (value : BitVec 32) (offsetBits sizeBits : ℕ), 1 ≤ sizeBits →
      sizeBits ≤ 31 → offsetBits + sizeBits ≤ 64 → value.toNat < 2 ^ sizeBits →
      (LensLaws (fun b v => u64FieldSet b v offsetBits sizeBits)
          (fun b => u64FieldGet b offsetBits sizeBits) offsetBits sizeBits backing value ↔
        Mergeable offsetBits sizeBits backing value) := by
  constructor
  · intro backing value o s hpos hs hin hvalue
    have ho : o < 32 := by omega
    exact ⟨fun h => h.mergeable (sets_u32 long hs ho) (gets_u32 long hs ho) ho,
      fun h => h.lensLaws (sets_u32 long hs ho) (gets_u32 long hs ho) hin hvalue⟩
  · intro backing value o s hpos hs hin hvalue
    by_cases ho : o < 32
    · have hget := @gets_u64 o s hs (by omega)
      exact ⟨fun h => h.mergeable (sets_u64 hs ho) hget ho,
        fun h => h.lensLaws (sets_u64 hs ho) hget hin hvalue⟩
    · constructor
      · intro h
        -- the shift of the value is undefined
        obtain ⟨r, hr, -⟩ := h.get_set
        rw [u64FieldSet, if_neg (by omega)] at hr
        cases hr
      · intro h
        exact absurd h.offset_lt ho

/-- A field of four bits in a word of zeros, and in one that has two of the bits already. -/
theorem lensLaws_fresh :
    LensLaws (fun b v => u32FieldSet .bits64 b v 3 4) (fun b => u32FieldGet .bits64 b 3 4) 3 4
        0#32 5#32 ∧
      LensLaws (fun b v => u64FieldSet b v 28 4) (fun b => u64FieldGet b 28 4) 28 4
        0x50000000#64 7#32 := by
  constructor
  · exact ((lensLaws_iff_mergeable .bits64).1 0#32 5#32 3 4 (by decide) (by decide) (by decide)
      (by decide)).mpr ⟨by decide, by decide, by decide, by decide, by decide⟩
  · exact ((lensLaws_iff_mergeable .bits64).2 0x50000000#64 7#32 28 4 (by decide) (by decide)
      (by decide) (by decide)).mpr ⟨by decide, by decide, by decide, by decide, by decide⟩

/-- Zero is set in a field that holds 15, and 15 is read; three is set at the end of the lower half
of a word of zeros, and one is read. -/
theorem not_lensLaws_clear :
    (u32FieldSet .bits64 0xF#32 0#32 0 4 = some 0xF#32 ∧
      u32FieldGet .bits64 0xF#32 0 4 = some 0xF#32 ∧
      ¬ LensLaws (fun b v => u32FieldSet .bits64 b v 0 4) (fun b => u32FieldGet .bits64 b 0 4) 0 4
        0xF#32 0#32) ∧
    u64FieldSet 0#64 3#32 31 2 = some 0x80000000#32 ∧
      u64FieldGet 0x80000000#64 31 2 = some 1#32 ∧
      ¬ LensLaws (fun b v => u64FieldSet b v 31 2) (fun b => u64FieldGet b 31 2) 31 2 0#64
        3#32 := by
  have hset : u32FieldSet .bits64 0xF#32 0#32 0 4 = some 0xF#32 := by decide
  have hset' : u64FieldSet 0#64 3#32 31 2 = some 0x80000000#32 := by decide
  refine ⟨⟨hset, by decide, fun h => ?_⟩, hset', by decide, fun h => ?_⟩
  · obtain ⟨r, hr, hget⟩ := h.get_set
    obtain rfl := Option.some.inj (hset.symm.trans hr)
    exact absurd hget (by decide)
  · obtain ⟨r, hr, hget⟩ := h.get_set
    obtain rfl := Option.some.inj (hset'.symm.trans hr)
    exact absurd hget (by decide)

end CompostRpc
