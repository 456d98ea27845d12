import CompostRpc.LoadStored
import CompostRpc.TransitionRun

/-!
# Access to the elements of slices in C

The elements of a slice are big-endian in memory and those of a native array little-endian, on a
little-endian machine. The functions that copy between the two reverse the bytes of every element,
except that they do nothing at all if the slice and the array start at the same address.
-/

namespace CompostRpc
open ByteMemory Machine TransitionRun

/-- `COMPOST_ASSERT`: with `COMPOST_DEBUG` it does not return if the expression is false. -/
def compostAssert (debug : Bool) (expr : Prop) [Decidable expr] : Option Unit :=
  if debug = true ∧ ¬ expr then none else some ()

def compostMin (len1 len2 : UInt16) : UInt16 := if len1 < len2 then len1 else len2

/-- `memcpy` is undefined for regions that overlap. -/
def memcpyApart (m : Machine) (dest src len : ℕ) : Option Machine :=
  if dest + len ≤ src ∨ src + len ≤ dest then some (m.memcpy dest src len) else none

/-- An element of a native array on a little-endian machine. -/
def nativeLoad (inner : Numeric) (m : Machine) (a : ℕ) : BitVec inner.size.bits :=
  BitVec.ofNat _ (beNat (read m.mem a inner.size.bytes).reverse)

def nativeStore (inner : Numeric) (m : Machine) (a : ℕ) (v : BitVec inner.size.bits) : Machine :=
  m.storeBytes a (beBytes inner.size.bytes v.toNat).reverse

section
variable (debug : Bool) (inner : Numeric)

def sliceGet (m : Machine) (target : Slice) (idx : UInt16) :
    Option (BitVec inner.size.bits × Machine) := do
  compostAssert debug (idx < target.len)
  compostAssert debug (target.ptr ≠ 0)
  let (v, m, _) := numericLoad inner m (target.ptr + inner.size.bytes * idx.toNat)
  return (v, m)

def sliceSet (m : Machine) (target : Slice) (idx : UInt16) (value : BitVec inner.size.bits) :
    Option Machine := do
  compostAssert debug (idx < target.len)
  compostAssert debug (target.ptr ≠ 0)
  return (numericStore inner m (target.ptr + inner.size.bytes * idx.toNat) value).1

def sliceCopyFrom (m : Machine) (dest : Slice) (src : ℕ) (len : UInt16) :
    Option (UInt16 × Machine) := do
  compostAssert debug (dest.ptr ≠ 0)
  compostAssert debug (src ≠ 0)
  let lenLimit := if len ≤ dest.len then len else dest.len
  let m ←
    if src ≠ dest.ptr then
      run (fun m i => sliceSet debug inner m dest (UInt16.ofNat i)
        (nativeLoad inner m (src + inner.size.bytes * i))) m (List.range' 0 lenLimit.toNat)
    else some m
  return (lenLimit, m)

def sliceNcopyTo (m : Machine) (src : Slice) (dest : ℕ) (len : UInt16) :
    Option (UInt16 × Machine) := do
  compostAssert debug (src.ptr ≠ 0)
  compostAssert debug (dest ≠ 0)
  let lenLimit := if len ≤ src.len then len else src.len
  let m ←
    if src.ptr ≠ dest then
      run (fun m i => do
        let (v, m) ← sliceGet debug inner m src (UInt16.ofNat i)
        return nativeStore inner m (dest + inner.size.bytes * i) v) m
        (List.range' 0 lenLimit.toNat)
    else some m
  return (lenLimit, m)

def sliceCopyTo (m : Machine) (src : Slice) (dest : ℕ) : Option Machine := do
  compostAssert debug (src.ptr ≠ 0)
  compostAssert debug (dest ≠ 0)
  let (_, m) ← sliceNcopyTo debug inner m src dest src.len
  return m

def sliceCopy (m : Machine) (dest src : Slice) : Option (Slice × Machine) := do
  compostAssert debug (src.ptr ≠ 0)
  compostAssert debug (dest.ptr ≠ 0)
  let lenLimit := compostMin src.len dest.len
  let dest := { dest with len := lenLimit }
  let m ←
    if src.ptr ≠ dest.ptr then memcpyApart m dest.ptr src.ptr (lenLimit.toNat * inner.size.bytes)
    else some m
  return (dest, m)

end

theorem compostAssert_eq_some {debug : Bool} {expr : Prop} [Decidable expr] {u : Unit} :
    compostAssert debug expr = some u ↔ (debug = true → expr) := by
  rw [compostAssert]
  by_cases h : debug = true ∧ ¬ expr
  · rw [if_pos h]
    exact iff_of_false (fun hsome => by cases hsome) fun himp => h.2 (himp h.1)
  · rw [if_neg h]
    exact iff_of_true rfl fun hdebug => by_contra fun hexpr => h ⟨hdebug, hexpr⟩

theorem compostAssert_bind {debug : Bool} {expr : Prop} [Decidable expr] {α : Type}
    (h : debug = true → expr) (next : Unit → Option α) :
    (compostAssert debug expr).bind next = next () := by
  rw [(compostAssert_eq_some (u := ())).mpr h, Option.bind_some]

/-- The bytes of a number and back. -/
theorem beBytes_ofNat_beNat {inner : Numeric} {bytes : List UInt8}
    (h : bytes.length = inner.size.bytes) :
    beBytes inner.size.bytes (BitVec.ofNat inner.size.bits (beNat bytes)).toNat = bytes := by
  have hlt := beNat_lt bytes
  have hpow : 2 ^ inner.size.bits = 256 ^ inner.size.bytes := by
    rw [Numeric.size_bits, pow_mul]
    norm_num
  rw [BitVec.toNat_ofNat, hpow, Nat.mod_eq_of_lt (h ▸ hlt), ← h, beBytes_beNat]

section
variable {debug : Bool} {inner : Numeric} {m : Machine}

theorem sliceSet_mem {target : Slice} {idx : UInt16} {value : BitVec inner.size.bits}
    (hidx : debug = true → idx < target.len) (hptr : debug = true → target.ptr ≠ 0) :
    ∃ m', sliceSet debug inner m target idx value = some m' ∧
      m'.mem = ByteMemory.write m.mem (target.ptr + inner.size.bytes * idx.toNat)
        (beBytes inner.size.bytes value.toNat) := by
  refine ⟨_, ?_, numericStore_mem inner m _ value⟩
  rw [sliceSet]
  exact (compostAssert_bind hidx _).trans (compostAssert_bind hptr _)

theorem sliceGet_value {target : Slice} {idx : UInt16} (hidx : debug = true → idx < target.len)
    (hptr : debug = true → target.ptr ≠ 0) :
    ∃ m', sliceGet debug inner m target idx = some (BitVec.ofNat _ (beNat
        (read m.mem (target.ptr + inner.size.bytes * idx.toNat) inner.size.bytes)), m') ∧
      m'.mem = m.mem := by
  have hload : (numericLoad inner m (target.ptr + inner.size.bytes * idx.toNat)).1 =
      BitVec.ofNat _ (beNat (read m.mem (target.ptr + inner.size.bytes * idx.toNat)
        inner.size.bytes)) :=
    congrArg (fun bs => BitVec.ofNat _ (beNat bs)) (loadBytes_within m _ inner.size.bytes).1
  refine ⟨(numericLoad inner m (target.ptr + inner.size.bytes * idx.toNat)).2.1, ?_,
    (numericLoad_within inner m _).mem_eq⟩
  rw [sliceGet, ← hload]
  exact (compostAssert_bind hidx _).trans (compostAssert_bind hptr _)

theorem nativeStore_mem (inner : Numeric) (m : Machine) (a : ℕ) (v : BitVec inner.size.bits) :
    (nativeStore inner m a v).mem =
      ByteMemory.write m.mem a (beBytes inner.size.bytes v.toNat).reverse := by
  rw [nativeStore, storeBytes_eq]

end

/-- The elements from number `i` to number `k` behind `base` have the bytes, and the rest of the
memory is as it was. -/
structure Filled (m m' : Machine) (base size i k : ℕ) (bytes : ℕ → List UInt8) : Prop where
  elements : ∀ j, i ≤ j → j < k → read m'.mem (base + size * j) size = bytes j
  frame : ∀ a, a < base + size * i ∨ base + size * k ≤ a → m'.mem a = m.mem a

theorem Filled.refl (m : Machine) (base size i : ℕ) (bytes : ℕ → List UInt8) :
    Filled m m base size i i bytes :=
  ⟨fun _ hlow hhigh => absurd hlow (Nat.not_le.mpr hhigh), fun _ _ => rfl⟩

theorem Filled.next {m m' m'' : Machine} {base size i k : ℕ} {bytes : ℕ → List UInt8}
    (h : Filled m m' base size i k bytes) (hik : i ≤ k) (hlen : (bytes k).length = size)
    (hmem : m''.mem = ByteMemory.write m'.mem (base + size * k) (bytes k)) :
    Filled m m'' base size i (k + 1) bytes := by
  have hstart : size * i ≤ size * k := Nat.mul_le_mul_left size hik
  have hnext : size * (k + 1) = size * k + size := Nat.mul_succ size k
  refine ⟨fun j hlow hhigh => ?_, fun a ha => ?_⟩
  · rw [hmem]
    rcases Nat.lt_or_ge j k with hlt | hge
    · have hbefore : size * j + size ≤ size * k := Nat.mul_le_mul_left size hlt
      rw [← h.elements j hlow hlt]
      exact read_congr fun a ha => write_of_lt _ _ (by omega)
    · obtain rfl : j = k := by omega
      have hread := read_write_self m'.mem (base + size * j) (bytes j)
      rwa [hlen] at hread
  · rw [hmem, ← h.frame a (by omega)]
    rcases ha with hlt | hge
    · exact write_of_lt _ _ (by omega)
    · exact write_of_ge _ _ (by rw [hlen]; omega)

/-- A loop that fills one element in each round. -/
theorem exists_run_filled {step : Machine → ℕ → Option Machine} {m : Machine}
    {base size i n : ℕ} {bytes : ℕ → List UInt8} (hlen : ∀ k, (bytes k).length = size)
    (hstep : ∀ k, i ≤ k → k < i + n → ∀ m', Filled m m' base size i k bytes → ∃ m'',
      step m' k = some m'' ∧ m''.mem = ByteMemory.write m'.mem (base + size * k) (bytes k)) :
    ∃ m', run step m (List.range' i n) = some m' ∧ Filled m m' base size i (i + n) bytes := by
  have hround : ∀ k, i ≤ k → k < i + n → ∀ m', i ≤ k ∧ Filled m m' base size i k bytes →
      ∃ m'', step m' k = some m'' ∧ i ≤ k + 1 ∧ Filled m m'' base size i (k + 1) bytes := by
    intro k hlow hhigh m' h
    obtain ⟨m'', hm'', hmem⟩ := hstep k hlow hhigh m' h.2
    exact ⟨m'', hm'', by omega, h.2.next hlow (hlen k) hmem⟩
  obtain ⟨m', hrun, -, hfilled⟩ := exists_run_range' hround ⟨le_rfl, .refl m base size i bytes⟩
  exact ⟨m', hrun, hfilled⟩

def ApartOrSame (a b bytes : ℕ) : Prop := a = b ∨ a + bytes ≤ b ∨ b + bytes ≤ a

instance (a b bytes : ℕ) : Decidable (ApartOrSame a b bytes) :=
  inferInstanceAs (Decidable (_ ∨ _))

theorem toNat_limit (len len' : UInt16) :
    (if len ≤ len' then len else len').toNat = min len.toNat len'.toNat := by
  by_cases h : len ≤ len'
  · rw [if_pos h, Nat.min_eq_left (UInt16.le_iff_toNat_le.mp h)]
  · have hle := UInt16.le_iff_toNat_le.mp (UInt16.le_of_lt (UInt16.not_le.mp h))
    rw [if_neg h, Nat.min_eq_right hle]

theorem toNat_compostMin (len1 len2 : UInt16) :
    (compostMin len1 len2).toNat = min len1.toNat len2.toNat := by
  rw [compostMin]
  by_cases h : len1 < len2
  · rw [if_pos h, Nat.min_eq_left (UInt16.lt_iff_toNat_lt.mp h).le]
  · rw [if_neg h, Nat.min_eq_right (UInt16.le_iff_toNat_le.mp (UInt16.not_lt.mp h))]

theorem toNat_index {k : ℕ} {len : UInt16} (hk : k < len.toNat) : (UInt16.ofNat k).toNat = k := by
  rw [UInt16.toNat_ofNat']
  exact Nat.mod_eq_of_lt (hk.trans len.toNat_lt)

section
variable {debug : Bool} {inner : Numeric} {m : Machine}

/-- `copy_from` fills the slice with what it finds in the array, element by element. -/
theorem sliceCopyFrom_filled {dest : Slice} {src : ℕ} {len : UInt16} {bytes : ℕ → List UInt8}
    (hdest : debug = true → dest.ptr ≠ 0) (hsrc : debug = true → src ≠ 0) (hne : src ≠ dest.ptr)
    (hlen : ∀ k, (bytes k).length = inner.size.bytes)
    (hread : ∀ k < min len.toNat dest.len.toNat, ∀ m',
      Filled m m' dest.ptr inner.size.bytes 0 k bytes →
        (read m'.mem (src + inner.size.bytes * k) inner.size.bytes).reverse = bytes k) :
    ∃ count m', sliceCopyFrom debug inner m dest src len = some (count, m') ∧
      count.toNat = min len.toNat dest.len.toNat ∧
      Filled m m' dest.ptr inner.size.bytes 0 (min len.toNat dest.len.toNat) bytes := by
  have hlimit := toNat_limit len dest.len
  have hround : ∀ k, 0 ≤ k → k < 0 + min len.toNat dest.len.toNat → ∀ m',
      Filled m m' dest.ptr inner.size.bytes 0 k bytes → ∃ m'',
        sliceSet debug inner m' dest (UInt16.ofNat k)
            (nativeLoad inner m' (src + inner.size.bytes * k)) = some m'' ∧
          m''.mem = ByteMemory.write m'.mem (dest.ptr + inner.size.bytes * k) (bytes k) := by
    intro k _ hk m' hfilled
    have hidx := toNat_index (show k < dest.len.toNat by omega)
    have hlt : UInt16.ofNat k < dest.len := by
      rw [UInt16.lt_iff_toNat_lt, hidx]
      omega
    obtain ⟨m'', hset, hmem⟩ := @sliceSet_mem debug inner m' dest (UInt16.ofNat k)
      (nativeLoad inner m' (src + inner.size.bytes * k)) (fun _ => hlt) hdest
    rw [hidx, nativeLoad, beBytes_ofNat_beNat (by rw [List.length_reverse, length_read]),
      hread k (by omega) m' hfilled] at hmem
    exact ⟨m'', hset, hmem⟩
  obtain ⟨m', hrun, hfilled⟩ := exists_run_filled hlen hround
  rw [Nat.zero_add] at hfilled
  refine ⟨_, m', ?_, hlimit, hfilled⟩
  rw [sliceCopyFrom]
  refine (compostAssert_bind hdest _).trans ((compostAssert_bind hsrc _).trans ?_)
  rw [if_pos hne, hlimit, hrun]
  rfl

theorem sliceCopyFrom_same {dest : Slice} {len : UInt16} (hdest : debug = true → dest.ptr ≠ 0) :
    ∃ count, sliceCopyFrom debug inner m dest dest.ptr len = some (count, m) ∧
      count.toNat = min len.toNat dest.len.toNat := by
  refine ⟨_, ?_, toNat_limit len dest.len⟩
  rw [sliceCopyFrom]
  refine (compostAssert_bind hdest _).trans ((compostAssert_bind hdest _).trans ?_)
  rw [if_neg (not_not.mpr rfl)]
  rfl

/-- What is asserted. -/
theorem nonnull_of_copyFrom {slice : Slice} {array : ℕ} {n : UInt16} {r : UInt16 × Machine}
    (h : sliceCopyFrom debug inner m slice array n = some r) :
    debug = true → slice.ptr ≠ 0 ∧ array ≠ 0 := by
  obtain ⟨_, hfirst, hrest⟩ := Option.bind_eq_some_iff.mp h
  obtain ⟨_, hsecond, -⟩ := Option.bind_eq_some_iff.mp hrest
  intro hdebug
  exact ⟨compostAssert_eq_some.mp hfirst hdebug, compostAssert_eq_some.mp hsecond hdebug⟩

/-- `ncopy_to` fills the array with what it finds in the slice. -/
theorem sliceNcopyTo_filled {src : Slice} {dest : ℕ} {len : UInt16} {bytes : ℕ → List UInt8}
    (hsrc : debug = true → src.ptr ≠ 0) (hdest : debug = true → dest ≠ 0) (hne : src.ptr ≠ dest)
    (hlen : ∀ k, (bytes k).length = inner.size.bytes)
    (hread : ∀ k < min len.toNat src.len.toNat, ∀ m',
      Filled m m' dest inner.size.bytes 0 k bytes →
        (read m'.mem (src.ptr + inner.size.bytes * k) inner.size.bytes).reverse = bytes k) :
    ∃ count m', sliceNcopyTo debug inner m src dest len = some (count, m') ∧
      count.toNat = min len.toNat src.len.toNat ∧
      Filled m m' dest inner.size.bytes 0 (min len.toNat src.len.toNat) bytes := by
  have hlimit := toNat_limit len src.len
  have hround : ∀ k, 0 ≤ k → k < 0 + min len.toNat src.len.toNat → ∀ m',
      Filled m m' dest inner.size.bytes 0 k bytes → ∃ m'',
        (do
          let (v, m) ← sliceGet debug inner m' src (UInt16.ofNat k)
          return nativeStore inner m (dest + inner.size.bytes * k) v : Option Machine) =
            some m'' ∧
          m''.mem = ByteMemory.write m'.mem (dest + inner.size.bytes * k) (bytes k) := by
    intro k _ hk m' hfilled
    have hidx := toNat_index (show k < src.len.toNat by omega)
    have hlt : UInt16.ofNat k < src.len := by
      rw [UInt16.lt_iff_toNat_lt, hidx]
      omega
    obtain ⟨m₁, hget, hmem⟩ := @sliceGet_value debug inner m' src (UInt16.ofNat k) (fun _ => hlt)
      hsrc
    rw [hidx] at hget
    refine ⟨_, by rw [hget]; rfl, ?_⟩
    rw [nativeStore_mem, hmem, beBytes_ofNat_beNat (length_read ..), hread k (by omega) m' hfilled]
  obtain ⟨m', hrun, hfilled⟩ := exists_run_filled hlen hround
  rw [Nat.zero_add] at hfilled
  refine ⟨_, m', ?_, hlimit, hfilled⟩
  rw [sliceNcopyTo]
  refine (compostAssert_bind hsrc _).trans ((compostAssert_bind hdest _).trans ?_)
  rw [if_pos hne, hlimit, hrun]
  rfl

theorem sliceNcopyTo_same {src : Slice} {len : UInt16} (hsrc : debug = true → src.ptr ≠ 0) :
    ∃ count, sliceNcopyTo debug inner m src src.ptr len = some (count, m) ∧
      count.toNat = min len.toNat src.len.toNat := by
  refine ⟨_, ?_, toNat_limit len src.len⟩
  rw [sliceNcopyTo]
  refine (compostAssert_bind hsrc _).trans ((compostAssert_bind hsrc _).trans ?_)
  rw [if_neg (not_not.mpr rfl)]
  rfl

theorem sliceCopy_mem {dest src : Slice} (hsrc : debug = true → src.ptr ≠ 0)
    (hdest : debug = true → dest.ptr ≠ 0)
    (hapart : ApartOrSame dest.ptr src.ptr (inner.size.bytes * min src.len.toNat dest.len.toNat)) :
    ∃ m', sliceCopy debug inner m dest src =
        some ({ dest with len := compostMin src.len dest.len }, m') ∧
      m'.mem = ByteMemory.write m.mem dest.ptr
        (read m.mem src.ptr (inner.size.bytes * min src.len.toNat dest.len.toNat)) := by
  rw [sliceCopy, ← toNat_compostMin, Nat.mul_comm] at *
  by_cases hne : src.ptr ≠ dest.ptr
  · refine ⟨m.memcpy dest.ptr src.ptr ((compostMin src.len dest.len).toNat * inner.size.bytes),
      (compostAssert_bind hsrc _).trans ((compostAssert_bind hdest _).trans ?_), ?_⟩
    · rw [if_pos hne, memcpyApart, if_pos (hapart.resolve_left (Ne.symm hne))]
      rfl
    · rw [memcpy, storeBytes_eq]
  · refine ⟨m, (compostAssert_bind hsrc _).trans ((compostAssert_bind hdest _).trans ?_), ?_⟩
    · rw [if_neg hne]
      rfl
    · rw [not_not.mp hne, write_read_self]

/-- `compost_slice_copy_to` copies the whole slice; its own assertions are those of
`compost_slice_ncopy_to`. -/
theorem sliceCopyTo_eq (src : Slice) (dest : ℕ) :
    sliceCopyTo debug inner m src dest =
      (sliceNcopyTo debug inner m src dest src.len).map Prod.snd := by
  rw [sliceCopyTo, sliceNcopyTo]
  cases compostAssert debug (src.ptr ≠ 0) with
  | none => rfl
  | some _ =>
    cases compostAssert debug (dest ≠ 0) with
    | none => rfl
    | some _ => exact Option.map_eq_bind.symm

/-- An element that lies apart from what is filled is still as it was. -/
theorem Filled.read_apart {m' : Machine} {base src size n k : ℕ} {bytes : ℕ → List UInt8}
    (h : Filled m m' base size 0 k bytes) (hk : k < n)
    (hapart : base + size * n ≤ src ∨ src + size * n ≤ base) :
    read m'.mem (src + size * k) size = read m.mem (src + size * k) size := by
  have hbefore : size * k + size ≤ size * n := Nat.mul_le_mul_left size hk
  exact read_congr fun a ha => h.frame _ (by omega)

end

end CompostRpc
