import Mathlib.Data.Nat.Bitwise
import Mathlib.Tactic.Ring
import Mathlib.Tactic.NormNum
import Mathlib.Logic.Function.Basic

/-!
# Byte memories and the bit fields inside them

A byte memory is a total map from addresses to bytes; its bits are numbered from the most
significant bit of byte zero. A bit field of `width` bits at bit position `pos` is stored and
loaded by a loop that touches one byte per round. The main results are the bit-level meaning of
that loop, for every position, width, value and old content: `bitAt_storeBits` and
`loadBits_eq_of_bits`. Byte strings and big-endian numbers are the second half of the interface:
`read_write_self`, `write_append` and `beNat_beBytes`.
-/

abbrev ByteMemory := ℕ → UInt8

namespace ByteMemory

def bitAt (m : ByteMemory) (i : ℕ) : Bool := (m (i / 8)).toBitVec.getLsbD (7 - i % 8)

theorem bitAt_zero (i : ℕ) : bitAt (fun _ => 0) i = false := by
  simp only [bitAt, UInt8.toBitVec_ofNat, BitVec.getLsbD_zero]

theorem bitAt_congr {m m' : ByteMemory} {i : ℕ} (h : m (i / 8) = m' (i / 8)) :
    bitAt m i = bitAt m' i := by
  simp only [bitAt, h]

theorem byte_eq_of_bits {m m' : ByteMemory} {a b : ℕ}
    (h : ∀ k < 8, bitAt m (8 * a + k) = bitAt m' (8 * b + k)) : m a = m' b := by
  apply UInt8.eq_of_toBitVec_eq
  apply BitVec.eq_of_getLsbD_eq
  intro j hj
  have hk := h (7 - j) (by omega)
  have hdiv : ∀ c, (8 * c + (7 - j)) / 8 = c := fun c => by omega
  have hmod : ∀ c, 7 - (8 * c + (7 - j)) % 8 = j := fun c => by omega
  simpa only [bitAt, hdiv, hmod] using hk

theorem eq_of_bits {m m' : ByteMemory} (h : ∀ i, bitAt m i = bitAt m' i) : m = m' := by
  funext a
  exact byte_eq_of_bits fun k _ => h (8 * a + k)

theorem toNat_lowMask {w s : ℕ} (hs : s < w) : ((1#w <<< s) - 1#w).toNat = 2 ^ s - 1 := by
  have hlt : 2 ^ s < 2 ^ w := Nat.pow_lt_pow_right (by decide) hs
  have hpos := Nat.two_pow_pos s
  have hone : (1#w).toNat = 1 := by
    rw [BitVec.toNat_ofNat]
    exact Nat.mod_eq_of_lt (by omega)
  have hshift : (1#w <<< s).toNat = 2 ^ s := by
    rw [BitVec.toNat_shiftLeft, hone, Nat.shiftLeft_eq, Nat.one_mul, Nat.mod_eq_of_lt hlt]
  rw [BitVec.toNat_sub_of_le, hshift, hone]
  rw [BitVec.le_def, hshift, hone]
  exact hpos

theorem getLsbD_lowMask {w s : ℕ} (hs : s < w) (i : ℕ) :
    ((1#w <<< s) - 1#w).getLsbD i = decide (i < s) := by
  rw [BitVec.getLsbD, toNat_lowMask hs, Nat.testBit_two_pow_sub_one]

/-- Replace `count` bits of a byte, `shift` bits above its least significant one. -/
def insertBits (b : UInt8) (shift count v : ℕ) : UInt8 :=
  (b &&& ~~~ UInt8.ofNat (((1 <<< count) - 1) <<< shift)) ||| UInt8.ofNat (v <<< shift)

def extractBits (b : UInt8) (shift count : ℕ) : ℕ := (b.toNat >>> shift) &&& ((1 <<< count) - 1)

theorem getLsbD_insertBits (b : UInt8) {shift count v j : ℕ} (hj : j < 8) (hv : v < 2 ^ count) :
    (insertBits b shift count v).toBitVec.getLsbD j =
      if shift ≤ j ∧ j < shift + count then v.testBit (j - shift) else b.toBitVec.getLsbD j := by
  simp only [insertBits, UInt8.toBitVec_or, UInt8.toBitVec_and, UInt8.toBitVec_not,
    UInt8.toBitVec_ofNat', BitVec.getLsbD_or, BitVec.getLsbD_and, BitVec.getLsbD_not,
    BitVec.getLsbD_ofNat, hj, Nat.testBit_shiftLeft, Nat.one_shiftLeft,
    Nat.testBit_two_pow_sub_one, decide_true, Bool.true_and]
  by_cases hlo : shift ≤ j
  · by_cases hhi : j < shift + count
    · have hlt : j - shift < count := by omega
      simp [hlo, hhi, hlt]
    · have hge : ¬ j - shift < count := by omega
      have hzero : v.testBit (j - shift) = false :=
        Nat.testBit_lt_two_pow (hv.trans_le (Nat.pow_le_pow_right (by norm_num) (by omega)))
      simp [hhi, hge, hzero]
  · simp [hlo]

theorem testBit_extractBits (b : UInt8) (shift count j : ℕ) :
    (extractBits b shift count).testBit j =
      (decide (j < count) && b.toBitVec.getLsbD (shift + j)) := by
  simp only [extractBits, Nat.testBit_and, Nat.testBit_shiftRight, Nat.one_shiftLeft,
    Nat.testBit_two_pow_sub_one, BitVec.getLsbD, UInt8.toNat_toBitVec, Bool.and_comm]

/-- Store the low `width` bits of `v` at bit position `pos`, at most one byte per round of
`fuel`. -/
def storeBits : ℕ → ByteMemory → ℕ → ℕ → ℕ → ByteMemory
  | 0, m, _, _, _ => m
  | fuel + 1, m, pos, width, v =>
    if width = 0 then m else
      let fill := 8 - pos % 8
      let place := min width fill
      storeBits fuel
        (Function.update m (pos / 8)
          (insertBits (m (pos / 8)) (fill - place) place ((v >>> (width - place)) % 2 ^ place)))
        (pos + place) (width - place) v

/-- Load `width` bits at bit position `pos` below the bits already collected in `acc`. -/
def loadBits : ℕ → ByteMemory → ℕ → ℕ → ℕ → ℕ
  | 0, _, _, _, acc => acc
  | fuel + 1, m, pos, width, acc =>
    if width = 0 then acc else
      let fill := 8 - pos % 8
      let place := min width fill
      loadBits fuel m (pos + place) (width - place)
        (acc ||| extractBits (m (pos / 8)) (fill - place) place <<< (width - place))

theorem bitAt_update_insertBits (m : ByteMemory) {pos place v i : ℕ}
    (hplace : place ≤ 8 - pos % 8) (hv : v < 2 ^ place) :
    bitAt (Function.update m (pos / 8)
        (insertBits (m (pos / 8)) (8 - pos % 8 - place) place v)) i =
      if pos ≤ i ∧ i < pos + place then v.testBit (pos + place - 1 - i) else bitAt m i := by
  by_cases hb : i / 8 = pos / 8
  · have hj : 7 - i % 8 < 8 := by omega
    simp only [bitAt, hb, Function.update_self, getLsbD_insertBits _ hj hv]
    by_cases hin : pos ≤ i ∧ i < pos + place
    · have hs : 8 - pos % 8 - place ≤ 7 - i % 8 ∧
          7 - i % 8 < 8 - pos % 8 - place + place := by omega
      rw [if_pos hs, if_pos hin]
      congr 1
      omega
    · rw [if_neg hin, if_neg (by omega)]
  · have hout : ¬ (pos ≤ i ∧ i < pos + place) := by omega
    rw [if_neg hout]
    exact bitAt_congr (Function.update_of_ne hb _ _)

/-- A stored field reads back most significant bit first, and no other bit changes. -/
theorem bitAt_storeBits (fuel : ℕ) (m : ByteMemory) (pos width v i : ℕ) (hf : width ≤ fuel) :
    bitAt (storeBits fuel m pos width v) i =
      if pos ≤ i ∧ i < pos + width then v.testBit (pos + width - 1 - i) else bitAt m i := by
  induction fuel generalizing m pos width with
  | zero =>
    have hw : width = 0 := by omega
    rw [storeBits, if_neg (by omega)]
  | succ fuel ih =>
    by_cases hw : width = 0
    · rw [storeBits, if_pos hw, if_neg (by omega)]
    · rw [storeBits, if_neg hw]
      have hle : min width (8 - pos % 8) ≤ 8 - pos % 8 := Nat.min_le_right _ _
      have hpos : 0 < min width (8 - pos % 8) := by omega
      generalize hp : min width (8 - pos % 8) = place at *
      have hpw : place ≤ width := hp ▸ Nat.min_le_left _ _
      simp only [hp]
      rw [ih _ _ _ (by omega), bitAt_update_insertBits m hle (Nat.mod_lt _ (by positivity))]
      by_cases hlate : pos + place ≤ i ∧ i < pos + place + (width - place)
      · rw [if_pos hlate, if_pos (by omega)]
        congr 1
        omega
      · rw [if_neg hlate]
        by_cases hfirst : pos ≤ i ∧ i < pos + place
        · rw [if_pos hfirst, if_pos (by omega), Nat.testBit_mod_two_pow, Nat.testBit_shiftRight,
            decide_eq_true (by omega : pos + place - 1 - i < place), Bool.true_and]
          congr 1
          omega
        · rw [if_neg hfirst, if_neg (by omega)]

theorem testBit_loadBits (fuel : ℕ) (m : ByteMemory) (pos width acc j : ℕ) (hf : width ≤ fuel) :
    (loadBits fuel m pos width acc).testBit j =
      (acc.testBit j || (decide (j < width) && bitAt m (pos + width - 1 - j))) := by
  induction fuel generalizing pos width acc with
  | zero =>
    have hw : width = 0 := by omega
    simp [loadBits, hw]
  | succ fuel ih =>
    by_cases hw : width = 0
    · simp [loadBits, hw]
    · rw [loadBits, if_neg hw]
      have hle : min width (8 - pos % 8) ≤ 8 - pos % 8 := Nat.min_le_right _ _
      have hpos : 0 < min width (8 - pos % 8) := by omega
      generalize hp : min width (8 - pos % 8) = place at *
      have hpw : place ≤ width := hp ▸ Nat.min_le_left _ _
      simp only [hp]
      rw [ih _ _ _ (by omega), Nat.testBit_or, Nat.testBit_shiftLeft, testBit_extractBits,
        Bool.or_assoc]
      congr 1
      by_cases hlow : j < width - place
      · have hnot : ¬ j ≥ width - place := by omega
        rw [decide_eq_true hlow, decide_eq_true (by omega : j < width), decide_eq_false hnot,
          Bool.false_and, Bool.false_or, Bool.true_and, Bool.true_and]
        congr 1
        omega
      · rw [decide_eq_false hlow, Bool.false_and, Bool.or_false,
          decide_eq_true (by omega : j ≥ width - place), Bool.true_and]
        by_cases hmid : j < width
        · have hbyte : (pos + width - 1 - j) / 8 = pos / 8 := by omega
          have hbit : 8 - pos % 8 - place + (j - (width - place)) =
              7 - (pos + width - 1 - j) % 8 := by omega
          rw [decide_eq_true hmid, decide_eq_true (by omega), Bool.true_and, Bool.true_and, bitAt,
            hbyte, hbit]
        · rw [decide_eq_false hmid, decide_eq_false (by omega), Bool.false_and, Bool.false_and]

/-- The loop returns the number whose bits, most significant first, are the field's. -/
theorem loadBits_eq_of_bits {fuel : ℕ} {m : ByteMemory} {pos width v : ℕ} (hf : width ≤ fuel)
    (hv : v < 2 ^ width)
    (hbits : ∀ k < width, bitAt m (pos + k) = v.testBit (width - 1 - k)) :
    loadBits fuel m pos width 0 = v := by
  apply Nat.eq_of_testBit_eq
  intro j
  rw [testBit_loadBits fuel m pos width 0 j hf, Nat.zero_testBit, Bool.false_or]
  by_cases hj : j < width
  · have h := hbits (width - 1 - j) (by omega)
    rw [decide_eq_true hj, Bool.true_and]
    rw [show pos + (width - 1 - j) = pos + width - 1 - j by omega,
      show width - 1 - (width - 1 - j) = j by omega] at h
    exact h
  · rw [decide_eq_false hj, Bool.false_and]
    exact (Nat.testBit_lt_two_pow
      (hv.trans_le (Nat.pow_le_pow_right (by norm_num) (by omega)))).symm

def ofList (bytes : List UInt8) : ByteMemory := fun i => bytes.getD i 0

def read (m : ByteMemory) (a n : ℕ) : List UInt8 := (List.range n).map fun k => m (a + k)

def write (m : ByteMemory) (a : ℕ) (bytes : List UInt8) : ByteMemory :=
  fun i => if a ≤ i ∧ i < a + bytes.length then bytes.getD (i - a) 0 else m i

@[simp] theorem length_read (m : ByteMemory) (a n : ℕ) : (read m a n).length = n := by
  simp [read]

theorem getD_read (m : ByteMemory) {a n k : ℕ} (hk : k < n) :
    (read m a n).getD k 0 = m (a + k) := by
  simp [read, List.getD_eq_getElem?_getD, hk]

theorem read_congr {m m' : ByteMemory} {a b n : ℕ} (h : ∀ k < n, m (a + k) = m' (b + k)) :
    read m a n = read m' b n := by
  apply List.map_congr_left
  intro k hk
  exact h k (List.mem_range.mp hk)

theorem read_eq_iff {m : ByteMemory} {a : ℕ} {bytes : List UInt8} :
    read m a bytes.length = bytes ↔ ∀ k < bytes.length, m (a + k) = bytes.getD k 0 := by
  constructor
  · intro h k hk
    rw [← getD_read m hk, h]
  · intro h
    apply List.ext_getElem (length_read _ _ _)
    intro k hk hk'
    rw [← List.getD_eq_getElem _ 0 hk, ← List.getD_eq_getElem _ 0 hk', getD_read m hk', h k hk']

theorem read_append (m : ByteMemory) (a n k : ℕ) :
    read m a (n + k) = read m a n ++ read m (a + n) k := by
  simp only [read, List.range_add, List.map_append, List.map_map, Function.comp_def, Nat.add_assoc]

theorem write_of_mem (m : ByteMemory) {a i : ℕ} {bytes : List UInt8} (h : a ≤ i)
    (h' : i < a + bytes.length) : write m a bytes i = bytes.getD (i - a) 0 := if_pos ⟨h, h'⟩

theorem write_of_lt (m : ByteMemory) {a i : ℕ} (bytes : List UInt8) (h : i < a) :
    write m a bytes i = m i := if_neg (by omega)

theorem write_of_ge (m : ByteMemory) {a i : ℕ} (bytes : List UInt8) (h : a + bytes.length ≤ i) :
    write m a bytes i = m i := if_neg (by omega)

@[simp] theorem write_nil (m : ByteMemory) (a : ℕ) : write m a [] = m :=
  funext fun i => if_neg (by simp only [List.length_nil]; omega)

theorem read_write_self (m : ByteMemory) (a : ℕ) (bytes : List UInt8) :
    read (write m a bytes) a bytes.length = bytes := by
  rw [read_eq_iff]
  intro k hk
  rw [write_of_mem m (by omega) (by omega), Nat.add_sub_cancel_left]

theorem write_read_self (m : ByteMemory) (a n : ℕ) : write m a (read m a n) = m := by
  funext i
  rw [write, length_read]
  by_cases hi : a ≤ i ∧ i < a + n
  · rw [if_pos hi, getD_read m (by omega), Nat.add_sub_cancel' hi.1]
  · rw [if_neg hi]

theorem write_append (m : ByteMemory) (a : ℕ) (xs ys : List UInt8) :
    write m a (xs ++ ys) = write (write m a xs) (a + xs.length) ys := by
  funext i
  by_cases hx : a ≤ i ∧ i < a + xs.length
  · rw [write_of_mem m hx.1 (by rw [List.length_append]; omega), write_of_lt _ _ hx.2,
      write_of_mem m hx.1 hx.2, List.getD_append _ _ _ _ (by omega)]
  · by_cases hy : a + xs.length ≤ i ∧ i < a + xs.length + ys.length
    · rw [write_of_mem m (by omega) (by rw [List.length_append]; omega),
        write_of_mem _ hy.1 hy.2, List.getD_append_right _ _ _ _ (by omega)]
      congr 1
      omega
    · rw [write, if_neg (by rw [List.length_append]; omega), write, if_neg hy, write, if_neg hx]

theorem read_write_append (m : ByteMemory) (a : ℕ) (xs ys : List UInt8) :
    read (write m a (xs ++ ys)) a xs.length = xs := by
  rw [read_eq_iff]
  intro k hk
  rw [write_of_mem m (by omega) (by rw [List.length_append]; omega), Nat.add_sub_cancel_left,
    List.getD_append _ _ _ _ hk]

/-- A byte string may be stored in two parts, the second part first. -/
theorem write_append_swap (m : ByteMemory) (a : ℕ) (xs ys : List UInt8) :
    write (write m (a + xs.length) ys) a xs = write m a (xs ++ ys) := by
  rw [write_append]
  funext i
  by_cases hx : a ≤ i ∧ i < a + xs.length
  · rw [write_of_mem _ hx.1 hx.2, write_of_lt _ _ hx.2, write_of_mem _ hx.1 hx.2]
  · rw [write, if_neg hx]
    by_cases hy : a + xs.length ≤ i ∧ i < a + xs.length + ys.length
    · rw [write_of_mem _ hy.1 hy.2, write_of_mem _ hy.1 hy.2]
    · rw [write, if_neg hy, write, if_neg hy, write, if_neg hx]

theorem ofList_replicate (n : ℕ) : ofList (List.replicate n 0) = fun _ => 0 := by
  funext i
  rw [ofList, List.getD_eq_getElem?_getD, List.getElem?_replicate]
  split <;> rfl

theorem ofList_append_of_lt {xs ys : List UInt8} {i : ℕ} (h : i < xs.length) :
    ofList (xs ++ ys) i = ofList xs i := List.getD_append _ _ _ _ h

theorem eq_of_ofList {bytes bytes' : List UInt8} (hlength : bytes.length = bytes'.length)
    (h : ofList bytes = ofList bytes') : bytes = bytes' := by
  apply List.ext_getElem hlength
  intro i hi hi'
  have hbyte := congrFun h i
  rwa [ofList, ofList, List.getD_eq_getElem _ _ hi, List.getD_eq_getElem _ _ hi'] at hbyte

theorem read_ofList {bytes : List UInt8} {a n : ℕ} (h : a + n ≤ bytes.length) :
    read (ofList bytes) a n = (bytes.drop a).take n := by
  apply List.ext_getElem (by rw [length_read, List.length_take, List.length_drop]; omega)
  intro k hk hk'
  rw [length_read] at hk
  rw [← List.getD_eq_getElem _ 0 (by rwa [length_read]), getD_read _ hk, ofList,
    List.getElem_take, List.getElem_drop, List.getD_eq_getElem _ _ (by omega)]

/-- The bytes read from a memory are its bits from there on, and zeros behind them. -/
theorem bitAt_ofList_read (m : ByteMemory) (a n i : ℕ) :
    bitAt (ofList (read m a n)) i = if i < 8 * n then bitAt m (8 * a + i) else false := by
  by_cases hi : i < 8 * n
  · have hbyte : ofList (read m a n) (i / 8) = m (a + i / 8) := getD_read m (by omega)
    have hdiv : (8 * a + i) / 8 = a + i / 8 := by omega
    have hmod : (8 * a + i) % 8 = i % 8 := by omega
    simp only [bitAt, if_pos hi, hbyte, hdiv, hmod]
  · have hdefault : ofList (read m a n) (i / 8) = 0 :=
      List.getD_eq_default _ _ (by rw [length_read]; omega)
    simp only [bitAt, if_neg hi, hdefault, UInt8.toBitVec_ofNat, BitVec.getLsbD_zero]

def beBytes : ℕ → ℕ → List UInt8
  | 0, _ => []
  | count + 1, n => UInt8.ofNat (n >>> (8 * count)) :: beBytes count n

def beNat (bytes : List UInt8) : ℕ := bytes.foldl (fun acc b => acc * 256 + b.toNat) 0

@[simp] theorem length_beBytes (count n : ℕ) : (beBytes count n).length = count := by
  induction count with
  | zero => rfl
  | succ count ih => rw [beBytes, List.length_cons, ih]

theorem foldl_beBytes (count n acc : ℕ) :
    (beBytes count n).foldl (fun acc b => acc * 256 + b.toNat) acc =
      acc * 256 ^ count + n % 256 ^ count := by
  induction count generalizing acc with
  | zero => simp [beBytes, Nat.mod_one]
  | succ count ih =>
    have hpow : (2 : ℕ) ^ (8 * count) = 256 ^ count := by rw [pow_mul]; norm_num
    have hsplit : n % 256 ^ (count + 1) =
        n / 256 ^ count % 256 * 256 ^ count + n % 256 ^ count := by
      rw [pow_succ, Nat.mod_mul, Nat.mul_comm (256 ^ count), Nat.add_comm]
    rw [beBytes, List.foldl_cons, ih, UInt8.toNat_ofNat', Nat.shiftRight_eq_div_pow, hpow, hsplit]
    ring

theorem beNat_beBytes (count n : ℕ) : beNat (beBytes count n) = n % 256 ^ count := by
  rw [beNat, foldl_beBytes, Nat.zero_mul, Nat.zero_add]

theorem foldl_beNat (bytes : List UInt8) (acc : ℕ) :
    bytes.foldl (fun acc b => acc * 256 + b.toNat) acc =
      acc * 256 ^ bytes.length + beNat bytes := by
  induction bytes generalizing acc with
  | nil => simp [beNat]
  | cons b bytes ih =>
    rw [beNat, List.foldl_cons, List.foldl_cons, ih, ih, List.length_cons, pow_succ]
    ring

theorem beNat_cons (b : UInt8) (bytes : List UInt8) :
    beNat (b :: bytes) = b.toNat * 256 ^ bytes.length + beNat bytes := by
  rw [beNat, List.foldl_cons, foldl_beNat, Nat.zero_mul, Nat.zero_add]

theorem beNat_lt (bytes : List UInt8) : beNat bytes < 256 ^ bytes.length := by
  induction bytes with
  | nil => exact Nat.one_pos
  | cons b bytes ih =>
    have hb : b.toNat < 256 := b.toNat_lt
    have hmul : (b.toNat + 1) * 256 ^ bytes.length ≤ 256 * 256 ^ bytes.length :=
      Nat.mul_le_mul_right _ hb
    rw [beNat_cons, List.length_cons, pow_succ, Nat.mul_comm _ 256]
    rw [Nat.add_mul, Nat.one_mul] at hmul
    omega

theorem eq_of_beNat_eq {xs ys : List UInt8} (hlength : xs.length = ys.length)
    (h : beNat xs = beNat ys) : xs = ys := by
  induction xs generalizing ys with
  | nil => exact (List.length_eq_zero_iff.mp hlength.symm).symm
  | cons x xs ih =>
    cases ys with
    | nil => cases hlength
    | cons y ys =>
      have hrest : xs.length = ys.length := Nat.succ.inj hlength
      rw [beNat_cons, beNat_cons, hrest] at h
      have hx := beNat_lt xs
      have hy := beNat_lt ys
      rw [hrest] at hx
      have hpos : 0 < 256 ^ ys.length := Nat.pow_pos (Nat.succ_pos 255)
      have hdiv : x.toNat = y.toNat := by
        have hdivs := congrArg (· / 256 ^ ys.length) h
        simpa only [Nat.mul_comm _ (256 ^ ys.length), Nat.mul_add_div hpos,
          Nat.div_eq_of_lt hx, Nat.div_eq_of_lt hy, Nat.add_zero] using hdivs
      rw [hdiv] at h
      rw [UInt8.toNat_inj.mp hdiv, ih hrest (Nat.add_left_cancel h)]

theorem beBytes_beNat (bytes : List UInt8) : beBytes bytes.length (beNat bytes) = bytes :=
  eq_of_beNat_eq (length_beBytes _ _) (by rw [beNat_beBytes, Nat.mod_eq_of_lt (beNat_lt bytes)])

end ByteMemory
