import CompostRpc.CsReadBack

/-!
# Objects that come back

`Serialize` aligns in front of everything that is not packed, `Deserialize` aligns nowhere, and the
length prefix of a list holds a number of bytes that the reader divides by the size of the type.
Hence an object comes back exactly if nothing has to be skipped, no length is too long for its
prefix, and the elements of the lists have a size.
-/

namespace CompostRpc
open ByteMemory Piece Serialization

/-- A predicate of the elements of a list and of their positions, which are `step` bits apart. -/
def AtSteps {α : Type} (P : α → ℕ → Prop) (step : ℕ) : List α → ℕ → Prop
  | [], _ => True
  | x :: xs, o => P x o ∧ AtSteps P step xs (o + step)

/-- Where two reads end at the end of two writes, and no read ends too late, the first read ends at
the end of the first write. -/
theorem read_through {α β : Type} {first : Except CsError (α × BufferUnit)}
    {second : BufferUnit → Except CsError (β × BufferUnit)} {x : α} {y : β} {stop : BufferUnit}
    (mid : BufferUnit) (hfirst : ∀ next, first = .ok (x, next) → next.bits ≤ mid.bits)
    (hsecond : ∀ next, second next = .ok (y, stop) → mid.bits ≤ next.bits) :
    (∃ next, first = .ok (x, next) ∧ second next = .ok (y, stop)) ↔
      first = .ok (x, mid) ∧ second mid = .ok (y, stop) := by
  constructor
  · rintro ⟨next, hx, hy⟩
    have hmid : next = mid := MemUnit.ext (le_antisymm (hfirst next hx) (hsecond next hy))
    rw [hmid] at hx hy
    exact ⟨hx, hy⟩
  · rintro ⟨hx, hy⟩
    exact ⟨mid, hx, hy⟩

section Each

variable {α : Type} {read : BufferUnit → Except CsError (α × BufferUnit)}
  {write : α → List UInt8 → BufferUnit → Except CsError CsBuffer} {pieces : α → List Piece}
  {step : ℕ}

/-- A read takes `step` bits, and the pieces of what it returns take at least as many. -/
def Takes (result : BufferUnit → Except CsError (α × BufferUnit)) (pieces : α → List Piece)
    (step : ℕ) : Prop :=
  ∀ offset x next, result offset = .ok (x, next) →
    next.bits = offset.bits + step ∧ ∀ o, o + step ≤ stopAll (pieces x) o

theorem deserializeEach_cons_iff {count : ℕ} {offset stop : BufferUnit} {x : α} {xs : List α} :
    deserializeEach read (count + 1) offset = .ok (x :: xs, stop) ↔
      ∃ next, read offset = .ok (x, next) ∧
        deserializeEach read count next = .ok (xs, stop) := by
  rw [deserializeEach]
  constructor
  · intro h
    obtain ⟨⟨y, next⟩, hread, h⟩ := except_bind_eq_ok.mp h
    obtain ⟨⟨ys, stop'⟩, hrest, h⟩ := except_bind_eq_ok.mp h
    cases h
    exact ⟨next, hread, hrest⟩
  · rintro ⟨next, hread, hrest⟩
    rw [hread, except_ok_bind]
    dsimp only
    rw [hrest]
    rfl

theorem deserializeEach_next (htakes : Takes read pieces step) {count : ℕ}
    {offset next : BufferUnit} {xs : List α}
    (h : deserializeEach read count offset = .ok (xs, next)) :
    xs.length = count ∧ next.bits = offset.bits + xs.length * step ∧
      ∀ o, o + xs.length * step ≤ stopAll (xs.flatMap pieces) o := by
  induction count generalizing offset xs with
  | zero =>
    cases h
    simp [stopAll]
  | succ count ih =>
    cases xs with
    | nil =>
      obtain ⟨⟨y, next⟩, hread, h⟩ := except_bind_eq_ok.mp h
      obtain ⟨⟨ys, stop⟩, hrest, h⟩ := except_bind_eq_ok.mp h
      cases h
    | cons x xs =>
      obtain ⟨mid, hread, hrest⟩ := deserializeEach_cons_iff.mp h
      obtain ⟨hmid, hx⟩ := htakes offset x mid hread
      obtain ⟨hlength, hnext, hxs⟩ := ih hrest
      have hmul : (x :: xs).length * step = step + xs.length * step := by
        rw [List.length_cons, Nat.succ_mul, Nat.add_comm]
      rw [hmul]
      refine ⟨congrArg (· + 1) hlength, by omega, fun o => ?_⟩
      rw [List.flatMap_cons, stopAll_append]
      have hfirst := hx o
      have hrest := hxs (stopAll (pieces x) o)
      omega

/-- The elements come back if each does from its position. -/
theorem deserializeEach_iff {buffer' : List UInt8} {P : α → ℕ → Prop}
    (htakes : Takes read pieces step) {xs : List α}
    (hreaches : ∀ x ∈ xs, ∀ buffer offset, Reaches (write x buffer offset) buffer offset (pieces x))
    (helement : ∀ x ∈ xs, ∀ buffer offset r, write x buffer offset = .ok r →
      Agrees r offset.bits buffer' → (read offset = .ok (x, r.2) ↔ P x offset.bits))
    {buffer : List UInt8} {offset : BufferUnit} {r : CsBuffer}
    (h : serializeEach write xs buffer offset = .ok r) (hagrees : Agrees r offset.bits buffer') :
    deserializeEach read xs.length offset = .ok (xs, r.2) ↔ AtSteps P step xs offset.bits := by
  induction xs generalizing buffer offset with
  | nil =>
    cases h
    exact iff_of_true rfl trivial
  | cons x xs ih =>
    obtain ⟨r₁, hfirst, hrest⟩ := except_bind_eq_ok.mp h
    have hends := (hreaches x List.mem_cons_self buffer offset).extended r₁ hfirst
    have hreaches' := fun y hy => hreaches y (List.mem_cons_of_mem x hy)
    have hrestEnds := (serializeEach_reaches hreaches' r₁.1 r₁.2).extended r hrest
    obtain ⟨hagrees₁, hagrees₂⟩ := hagrees.split hrestEnds hends.le
    have hx := helement x List.mem_cons_self buffer offset r₁ hfirst hagrees₁
    have hxs := ih hreaches' (fun y hy => helement y (List.mem_cons_of_mem x hy)) hrest hagrees₂
    rw [List.length_cons, deserializeEach_cons_iff, read_through r₁.2, hx, hxs, AtSteps]
    · apply and_congr_right
      intro hP
      rw [(htakes offset x r₁.2 (hx.mpr hP)).1]
    · intro next hread
      obtain ⟨hnext, hle⟩ := htakes offset x next hread
      rw [hends.stop_eq, hnext]
      exact hle offset.bits
    · intro next hread
      obtain ⟨-, hnext, hle⟩ := deserializeEach_next htakes hread
      have hstop := hle r₁.2.bits
      rw [← hrestEnds.stop_eq] at hstop
      omega

end Each

namespace Serialization

theorem deserializeLength_eq_ok {buffer : List UInt8} {offset next : BufferUnit} {len : UInt16}
    (h : deserializeLength buffer offset = .ok (len, next)) :
    deserializePrimitive (.num .u16) buffer offset = .ok (len.toBitVec, next) := by
  obtain ⟨⟨x, next'⟩, hread, h⟩ := except_bind_eq_ok.mp h
  cases h
  exact hread

theorem deserializeLength_iff {len elemSize len' : UInt16} {buffer buffer' : List UInt8}
    {offset : BufferUnit} {r : CsBuffer} (h : serializeLength len elemSize buffer offset = .ok r)
    (hagrees : Agrees r offset.bits buffer') :
    deserializeLength buffer' offset = .ok (len', r.2) ↔
      offset.bits % 8 = 0 ∧ len' = len * elemSize := by
  have hread := deserializePrimitive_num_iff (n := .u16) (y := len'.toBitVec) h hagrees
  rw [← UInt16.toBitVec_inj]
  refine Iff.trans ?_ hread
  constructor
  · exact deserializeLength_eq_ok
  · intro hlen
    exact except_bind_eq_ok.mpr ⟨_, hlen, rfl⟩

theorem deserializeLength_next {buffer : List UInt8} {offset next : BufferUnit} {len : UInt16}
    (h : deserializeLength buffer offset = .ok (len, next)) : next.bits = offset.bits + 16 := by
  rw [deserializePrimitive_next rfl (deserializeLength_eq_ok h)]
  rfl

theorem stopAll_length (n o : ℕ) : stopAll [.bytes (beBytes 2 n)] o = alignUp o + 16 := by
  simp only [stopAll, stop, length_beBytes]

/-- The elements behind a length prefix. -/
theorem deserializeEach_counted {α : Type} {read : BufferUnit → Except CsError (α × BufferUnit)}
    {pieces : α → List Piece} {step : ℕ} (htakes : Takes read pieces step) {count : UInt16}
    {offset mid next : BufferUnit} {xs : List α} (hmid : mid.bits = offset.bits + 16)
    (h : deserializeEach read count.toNat mid = .ok (xs, next)) :
    next.bits = offset.bits + (16 + xs.length * step) ∧ ∀ n o, o + (16 + xs.length * step) ≤
      stopAll (.bytes (beBytes 2 n) :: (xs.take (UInt16.ofNat xs.length).toNat).flatMap pieces)
        o := by
  obtain ⟨hlength, hnext, hle⟩ := deserializeEach_next htakes h
  have hcount := count.toNat_lt
  refine ⟨by omega, fun n o => ?_⟩
  have hstop := hle (alignUp o + 16)
  have halign := le_alignUp o
  rw [take_ofNat_length (by omega), ← List.singleton_append, stopAll_append,
    stopAll_length]
  omega

/-- What comes back behind a length prefix, for a reader that makes a count of the prefix. -/
theorem counted_iff {α : Type} {read : BufferUnit → Except CsError (α × BufferUnit)}
    {write : α → List UInt8 → BufferUnit → Except CsError CsBuffer} {pieces : α → List Piece}
    {step : ℕ} {P : α → ℕ → Prop} {buffer buffer' : List UInt8} {offset : BufferUnit}
    {r₁ r : CsBuffer} {xs : List α} {elemSize : UInt16} (htakes : Takes read pieces step)
    (hreaches : ∀ x ∈ xs.take (UInt16.ofNat xs.length).toNat, ∀ buffer offset,
      Reaches (write x buffer offset) buffer offset (pieces x))
    (helement : ∀ x ∈ xs.take (UInt16.ofNat xs.length).toNat, ∀ buffer offset r,
      write x buffer offset = .ok r → Agrees r offset.bits buffer' →
        (read offset = .ok (x, r.2) ↔ P x offset.bits))
    (hlength : serializeLength (UInt16.ofNat xs.length) elemSize buffer offset = .ok r₁)
    (heach : serializeEach write (xs.take (UInt16.ofNat xs.length).toNat) r₁.1 r₁.2 = .ok r)
    (hagrees : Agrees r offset.bits buffer') (count : UInt16 → UInt16) :
    (∃ len mid, deserializeLength buffer' offset = .ok (len, mid) ∧
        deserializeEach read (count len).toNat mid = .ok (xs, r.2)) ↔
      offset.bits % 8 = 0 ∧ (count (UInt16.ofNat xs.length * elemSize)).toNat = xs.length ∧
        AtSteps P step xs (offset.bits + 16) := by
  have hlengthStored := (serializeLength_places _ _ _ _).stored r₁ hlength
  have hmid : r₁.2.bits = alignUp offset.bits + 16 := by rw [hlengthStored.stop_eq, stopAll_length]
  have hrest := (serializeEach_reaches hreaches r₁.1 r₁.2).extended r heach
  obtain ⟨hagrees₁, hagrees₂⟩ := hagrees.split hrest hlengthStored.extended.le
  have halign := le_alignUp offset.bits
  constructor
  · rintro ⟨len, mid, hlen, hxs⟩
    have hstart := deserializeLength_next hlen
    obtain ⟨hcount, hnext, hle⟩ := deserializeEach_next htakes hxs
    have hstop := hle r₁.2.bits
    rw [take_ofNat_length (hcount ▸ (count len).toNat_lt)] at hrest heach hreaches helement
    rw [← hrest.stop_eq] at hstop
    obtain rfl : mid = r₁.2 := MemUnit.ext (by omega)
    obtain ⟨haligned, rfl⟩ := (deserializeLength_iff hlength hagrees₁).mp hlen
    rw [← hcount] at hxs
    rw [← hstart]
    exact ⟨haligned, hcount.symm,
      (deserializeEach_iff htakes hreaches helement heach hagrees₂).mp hxs⟩
  · rintro ⟨haligned, hcount, hsteps⟩
    rw [take_ofNat_length (hcount ▸ UInt16.toNat_lt _)] at heach hreaches helement
    rw [← alignUp_of_mod haligned, ← hmid] at hsteps
    refine ⟨_, r₁.2, (deserializeLength_iff hlength hagrees₁).mpr ⟨haligned, rfl⟩, ?_⟩
    rw [hcount]
    exact (deserializeEach_iff htakes hreaches helement heach hagrees₂).mpr hsteps

/-- The count that is read from the length prefix of a list. -/
theorem count_eq_length_iff {α : Type} {objectSize : α → Except CsError BufferUnit}
    {size : BufferUnit} {xs : List α} {elemSize : UInt16}
    (hsize : ∀ x ∈ xs, objectSize x = .ok size)
    (helem : elementSize objectSize (UInt16.ofNat xs.length) xs = .ok elemSize)
    (hpos : size.bytes % 2 ^ 16 ≠ 0) :
    (UInt16.ofNat xs.length * elemSize / UInt16.ofNat size.bytes).toNat = xs.length ↔
      xs.length * (size.bytes % 2 ^ 16) < 2 ^ 16 := by
  cases xs with
  | nil =>
    rw [UInt16.toNat_div, UInt16.toNat_mul]
    simp
  | cons x rest =>
    simp only [elementSize, hsize x List.mem_cons_self] at helem
    rw [UInt16.toNat_div, UInt16.toNat_mul, UInt16.toNat_ofNat', UInt16.toNat_ofNat']
    generalize hn : (x :: rest).length = n at helem ⊢
    have hlength : 0 < n := by rw [← hn]; exact Nat.succ_pos _
    generalize hk : size.bytes % 2 ^ 16 = k at hpos ⊢
    split_ifs at helem with hlen
    · cases helem
      rw [UInt16.toNat_ofNat', hk]
      constructor
      · intro hcount
        calc
          n * k = n % 2 ^ 16 * k % 2 ^ 16 / k * k := by rw [hcount]
          _ ≤ n % 2 ^ 16 * k % 2 ^ 16 := Nat.div_mul_le_self _ _
          _ < 2 ^ 16 := Nat.mod_lt _ (by decide)
      · intro hfits
        have hle : n * 1 ≤ n * k := Nat.mul_le_mul_left n (by omega)
        rw [Nat.mod_eq_of_lt (show n < 2 ^ 16 by omega), Nat.mod_eq_of_lt hfits]
        exact Nat.mul_div_cancel n (by omega)
    · cases helem
      have hzero : n % 2 ^ 16 = 0 := by
        by_contra hne
        apply hlen
        rw [gt_iff_lt, UInt16.lt_iff_toNat_lt, UInt16.toNat_ofNat']
        exact Nat.pos_of_ne_zero hne
      have hle : n * 1 ≤ n * k := Nat.mul_le_mul_left n (by omega)
      rw [hzero, Nat.zero_mul, Nat.zero_mod, Nat.zero_div]
      omega

end Serialization

def CsType.isInteger : CsType → Bool
  | .num n => n.kind != .float
  | _ => false

mutual

def CsType.packsIntegers : CsType → Bool
  | .list element => element.packsIntegers
  | .cls properties => properties.packIntegers
  | _ => true

def CsProperties.packIntegers : CsProperties → Bool
  | .nil => true
  | .cons t none rest => t.packsIntegers && rest.packIntegers
  | .cons t (some _) rest => t.isInteger && rest.packIntegers

end

mutual

/-- What it takes for an object that is written from the bit `o` to come back: what is not packed
starts at a whole byte, characters have a byte, lengths fit their prefixes, the elements of a list
have a size to divide by, and a property without bits is zero. -/
def ComesBack : (t : CsType) → CsValue t → ℕ → Prop
  | .bool, _, o | .num _, _, o | .enum _, _, o => o % 8 = 0
  | .char, c, o => o % 8 = 0 ∧ UInt16.toNat c < 2 ^ 8
  | .string, s, o => o % 8 = 0 ∧ List.length s < 2 ^ 16 ∧
    AtSteps (fun (c : UInt16) o => o % 8 = 0 ∧ c.toNat < 2 ^ 8) 8 s (o + 16)
  | .list element, xs, o => o % 8 = 0 ∧
    match getTypeSize element with
    | .error _ => False
    | .ok size => size.bytes % 2 ^ 16 ≠ 0 ∧ List.length xs * (size.bytes % 2 ^ 16) < 2 ^ 16 ∧
      AtSteps (ComesBack element) size.bits xs (o + 16)
  | .cls properties, xs, o => AllComeBack properties xs o

def AllComeBack : (ps : CsProperties) → CsValues ps → ℕ → Prop
  | .nil, _, _ => True
  | .cons t none rest, x, o => ComesBack t x.1 o ∧ AllComeBack rest x.2 (o + csBits t x.1)
  | .cons t (some size) rest, x, o =>
    (size.bits = 0 → integerRep t x.1 = .ok 0) ∧ AllComeBack rest x.2 (o + size.bits)

end

namespace Serialization

theorem deserialize_list_ok_iff {element : CsType} {buffer : List UInt8} {offset next : BufferUnit}
    {xs : List (CsValue element)} : deserialize (.list element) buffer offset = .ok (xs, next) ↔
      ∃ len mid size, deserializeLength buffer offset = .ok (len, mid) ∧
        getTypeSize element = .ok size ∧ size.bytes % 2 ^ 16 ≠ 0 ∧
        deserializeEach (deserialize element buffer) (len / UInt16.ofNat size.bytes).toNat mid =
          .ok (xs, next) := by
  have hzero : ∀ n, UInt16.ofNat n = 0 ↔ n % 2 ^ 16 = 0 := fun n => by
    rw [← UInt16.toNat_inj, UInt16.toNat_ofNat']
    rfl
  simp only [deserialize]
  constructor
  · intro h
    obtain ⟨⟨len, mid⟩, hlength, h⟩ := except_bind_eq_ok.mp h
    obtain ⟨size, hsize, h⟩ := except_bind_eq_ok.mp h
    by_cases hnone : UInt16.ofNat size.bytes = 0
    · cases (if_pos hnone).symm.trans h
    · have hne : size.bytes % 2 ^ 16 ≠ 0 := fun hmod => hnone ((hzero _).mpr hmod)
      exact ⟨len, mid, size, hlength, hsize, hne, (if_neg hnone).symm.trans h⟩
  · rintro ⟨len, mid, size, hlength, hsize, hne, h⟩
    have hsome : UInt16.ofNat size.bytes ≠ 0 := fun hnone => hne ((hzero _).mp hnone)
    apply except_bind_eq_ok.mpr
    exact ⟨_, hlength, except_bind_eq_ok.mpr ⟨size, hsize, (if_neg hsome).trans h⟩⟩

theorem stopAll_scalar {t : CsType} (h : t.scalar.isSome = true) (x : CsValue t) (o : ℕ) :
    stopAll (csPieces t x) o = alignUp o + csBits t x := by
  rw [csPieces_scalar h, csBits_scalar h, Numeric.size_bits, ← length_elementBytes h x]
  rfl

theorem takes_scalar {t : CsType} (h : t.scalar.isSome = true) {buffer : List UInt8}
    (hread : ∀ offset x next, deserialize t buffer offset = .ok (x, next) →
      next.bits = offset.bits + t.numeric.size.bits) :
    ∀ offset x next, deserialize t buffer offset = .ok (x, next) →
      next.bits = offset.bits + csBits t x ∧ ∀ o, o + csBits t x ≤ stopAll (csPieces t x) o := by
  intro offset x next hx
  refine ⟨?_, fun o => ?_⟩
  · rw [csBits_scalar h]
    exact hread offset x next hx
  · rw [stopAll_scalar h]
    exact Nat.add_le_add_right (le_alignUp o) _

theorem takes_char (buffer : List UInt8) :
    Takes (deserializePrimitive .char buffer) (fun c => [.bytes [UInt16.toUInt8 c]]) 8 := by
  intro offset x next h
  refine ⟨by rw [deserializePrimitive_next rfl h]; rfl, fun o => ?_⟩
  exact Nat.add_le_add_right (le_alignUp o) 8

mutual

/-- `Deserialize` skips nothing, and what it returns takes at least that room when written. -/
theorem deserialize_takes (t : CsType) (buffer : List UInt8) :
    ∀ offset x next, deserialize t buffer offset = .ok (x, next) →
      next.bits = offset.bits + csBits t x ∧ ∀ o, o + csBits t x ≤ stopAll (csPieces t x) o := by
  match t with
  | .bool | .char | .num n | .enum n =>
    apply takes_scalar rfl
    intro offset x next h
    rw [deserializePrimitive_next rfl h]
    rfl
  | .string =>
    intro offset s next h
    rw [deserialize] at h
    obtain ⟨⟨count, mid⟩, hlength, h⟩ := except_bind_eq_ok.mp h
    obtain ⟨hnext, hle⟩ :=
      deserializeEach_counted (takes_char buffer) (deserializeLength_next hlength) h
    have hbits : csBits .string s = 16 + List.length s * 8 := by
      rw [csBits]
      omega
    rw [hbits]
    exact ⟨hnext, hle _⟩
  | .list element =>
    intro offset xs next h
    obtain ⟨len, mid, size, hlength, hsize, -, h⟩ := deserialize_list_ok_iff.mp h
    have hbits := csBits_of_getTypeSize element hsize
    have htakes : Takes (deserialize element buffer) (csPieces element) size.bits := by
      intro offset x next hx
      rw [← hbits x]
      exact deserialize_takes element buffer offset x next hx
    obtain ⟨hnext, hle⟩ := deserializeEach_counted htakes (deserializeLength_next hlength) h
    have hlist : csBits (.list element) xs = 16 + List.length xs * size.bits :=
      csBits_list_of_forall fun x _ => hbits x
    rw [hlist]
    exact ⟨hnext, hle _⟩
  | .cls properties =>
    intro offset xs next h
    rw [deserialize] at h
    obtain ⟨_, -, h⟩ := except_bind_eq_ok.mp h
    exact deserializeProperties_takes properties buffer offset xs next h

theorem deserializeProperties_takes (ps : CsProperties) (buffer : List UInt8) :
    ∀ offset xs next, deserializeProperties ps buffer offset = .ok (xs, next) →
      next.bits = offset.bits + csBitsAll ps xs ∧
        ∀ o, o + csBitsAll ps xs ≤ stopAll (csPropertiesPieces ps xs) o := by
  match ps with
  | .nil =>
    intro offset xs next h
    cases h
    exact ⟨rfl, fun o => le_rfl⟩
  | .cons t none rest =>
    intro offset xs next h
    obtain ⟨⟨x, mid⟩, hfirst, h⟩ := except_bind_eq_ok.mp h
    obtain ⟨⟨xs', next'⟩, hrest, h⟩ := except_bind_eq_ok.mp h
    cases h
    obtain ⟨hmid, hx⟩ := deserialize_takes t buffer offset x mid hfirst
    obtain ⟨hnext, hxs⟩ := deserializeProperties_takes rest buffer mid xs' _ hrest
    simp only [csBitsAll, csPropertiesPieces, stopAll_append]
    refine ⟨by omega, fun o => ?_⟩
    have hle := hx o
    have hle' := hxs (stopAll (csPieces t x) o)
    omega
  | .cons t (some size) rest =>
    intro offset xs next h
    obtain ⟨⟨x, mid⟩, hfirst, h⟩ := except_bind_eq_ok.mp h
    obtain ⟨⟨xs', next'⟩, hrest, h⟩ := except_bind_eq_ok.mp h
    cases h
    obtain ⟨hnext, hxs⟩ := deserializeProperties_takes rest buffer mid xs' _ hrest
    have hmid : mid.bits = offset.bits + size.bits := by
      rw [deserializePackedPrimitive_next hfirst]
      rfl
    simp only [csBitsAll, csPropertiesPieces, stopAll_append, stopAll, stop]
    refine ⟨by omega, fun o => ?_⟩
    have hle := hxs (o + size.bits)
    omega

end

theorem deserialize_char_iff {c : UInt16} {buffer buffer' : List UInt8} {offset : BufferUnit}
    {r : CsBuffer} (h : serializePrimitive .char c buffer offset = .ok r)
    (hagrees : Agrees r offset.bits buffer') :
    deserializePrimitive .char buffer' offset = .ok (c, r.2) ↔
      offset.bits % 8 = 0 ∧ c.toNat < 2 ^ 8 := by
  have hlt := c.toNat_lt
  have hsame : c = c.toUInt8.toUInt16 ↔ c.toNat < 2 ^ 8 := by
    rw [← UInt16.toNat_inj, UInt8.toNat_toUInt16, UInt16.toNat_toUInt8]
    omega
  have hread := @deserializePrimitive_char_iff c c _ _ _ _ h hagrees
  exact hread.trans (and_congr_right fun _ => hsame)

theorem string_count_iff {s : List UInt16} :
    (UInt16.ofNat s.length * 1).toNat = s.length ↔ s.length < 2 ^ 16 := by
  rw [UInt16.mul_one, UInt16.toNat_ofNat']
  exact ⟨fun h => h ▸ Nat.mod_lt _ (Nat.two_pow_pos 16), Nat.mod_eq_of_lt⟩

theorem deserialize_string_iff {s : List UInt16} {buffer buffer' : List UInt8} {offset : BufferUnit}
    {r : CsBuffer} (h : serialize .string s buffer offset = .ok r)
    (hagrees : Agrees r offset.bits buffer') :
    deserialize .string buffer' offset = .ok (s, r.2) ↔ ComesBack .string s offset.bits := by
  simp only [serialize] at h
  obtain ⟨r₁, hlength, heach⟩ := except_bind_eq_ok.mp h
  have hcounted := counted_iff (P := fun (c : UInt16) o => o % 8 = 0 ∧ c.toNat < 2 ^ 8)
    (takes_char buffer')
    (fun c _ buffer offset => (serializePrimitive_char_places c buffer offset).reaches)
    (fun c _ buffer offset r => deserialize_char_iff) hlength heach hagrees id
  rw [id_eq, string_count_iff] at hcounted
  refine Iff.trans ?_ hcounted
  simp only [deserialize]
  constructor
  · intro h
    obtain ⟨⟨len, mid⟩, hlen, h⟩ := except_bind_eq_ok.mp h
    exact ⟨len, mid, hlen, h⟩
  · rintro ⟨len, mid, hlen, h⟩
    exact except_bind_eq_ok.mpr ⟨_, hlen, h⟩

theorem deserialize_list_iff {element : CsType} {xs : List (CsValue element)}
    {buffer buffer' : List UInt8} {offset : BufferUnit} {r : CsBuffer}
    (helement : ∀ x buffer offset r, serialize element x buffer offset = .ok r →
      Agrees r offset.bits buffer' →
        (deserialize element buffer' offset = .ok (x, r.2) ↔ ComesBack element x offset.bits))
    (h : serialize (.list element) xs buffer offset = .ok r)
    (hagrees : Agrees r offset.bits buffer') :
    deserialize (.list element) buffer' offset = .ok (xs, r.2) ↔
      ComesBack (.list element) xs offset.bits := by
  obtain ⟨elemSize, hfirst, r₁, hlength, heach⟩ := serialize_list_calls h
  have hreaches : ∀ x ∈ xs.take (UInt16.ofNat xs.length).toNat, ∀ buffer offset,
      Reaches (serialize element x buffer offset) buffer offset (csPieces element x) := by
    intro x hx
    obtain ⟨b, o, r, hcall⟩ := serializeEach_calls heach x hx
    exact serialize_reaches element x hcall
  rw [deserialize_list_ok_iff]
  simp only [ComesBack]
  cases hsize : getTypeSize element with
  | error e => simp
  | ok size =>
    have htakes : Takes (deserialize element buffer') (csPieces element) size.bits := by
      intro offset x next hx
      rw [← csBits_of_getTypeSize element hsize x]
      exact deserialize_takes element buffer' offset x next hx
    have hcounted := counted_iff htakes hreaches
      (fun x _ buffer offset r => helement x buffer offset r) hlength heach hagrees
      (· / UInt16.ofNat size.bytes)
    have hobjects : ∀ x ∈ xs, getObjectSize element x = .ok size := fun x _ =>
      getObjectSize_of_getTypeSize hsize x
    constructor
    · rintro ⟨len, mid, size', hlen, hsize', hne, hxs⟩
      cases hsize'
      obtain ⟨haligned, hcount, hsteps⟩ := hcounted.mp ⟨len, mid, hlen, hxs⟩
      exact ⟨haligned, hne, (count_eq_length_iff hobjects hfirst hne).mp hcount, hsteps⟩
    · rintro ⟨haligned, hne, hfits, hsteps⟩
      have hcount := (count_eq_length_iff hobjects hfirst hne).mpr hfits
      obtain ⟨len, mid, hlen, hxs⟩ := hcounted.mpr ⟨haligned, hcount, hsteps⟩
      exact ⟨len, mid, size, hlen, rfl, hne, hxs⟩

theorem isInteger_eq_true {t : CsType} (h : t.isInteger = true) :
    ∃ n : Numeric, t = .num n ∧ n.kind ≠ .float := by
  cases t with
  | num n => exact ⟨n, rfl, bne_iff_ne.mp h⟩
  | _ => cases h

theorem deserializeProperties_cons_iff {t : CsType} {packedSize : Option BufferUnit}
    {rest : CsProperties} {buffer : List UInt8} {offset stop : BufferUnit} {x : CsValue t}
    {xs : CsValues rest} :
    deserializeProperties (.cons t packedSize rest) buffer offset = .ok ((x, xs), stop) ↔
      ∃ next, (match packedSize with
        | none => deserialize t buffer offset
        | some size => deserializePackedPrimitive t buffer offset size) = .ok (x, next) ∧
          deserializeProperties rest buffer next = .ok (xs, stop) := by
  cases packedSize with
  | none | some =>
    constructor
    · intro h
      obtain ⟨⟨y, next⟩, hfirst, h⟩ := except_bind_eq_ok.mp h
      obtain ⟨⟨ys, stop'⟩, hrest, h⟩ := except_bind_eq_ok.mp h
      cases h
      exact ⟨next, hfirst, hrest⟩
    · rintro ⟨next, hfirst, hrest⟩
      exact except_bind_eq_ok.mpr ⟨_, hfirst, except_bind_eq_ok.mpr ⟨_, hrest, rfl⟩⟩

/-- Properties that are read up to the end of what was written are not read from before it. -/
theorem le_of_deserializeProperties {ps : CsProperties} {xs : CsValues ps} {buffer : List UInt8}
    {r₁ r : CsBuffer} {next : BufferUnit}
    (hends : Extended r₁.1 r₁.2 (csPropertiesPieces ps xs) r.1 r.2)
    (h : deserializeProperties ps buffer next = .ok (xs, r.2)) : r₁.2.bits ≤ next.bits := by
  obtain ⟨hnext, hle⟩ := deserializeProperties_takes ps buffer next xs r.2 h
  have hstop := hle r₁.2.bits
  rw [← hends.stop_eq] at hstop
  omega

mutual

/-- An object comes back from a buffer that keeps what was written under the conditions of
`ComesBack`. -/
theorem deserialize_iff (t : CsType) (x : CsValue t) (hp : t.packsIntegers = true)
    {buffer buffer' : List UInt8} {offset : BufferUnit} {r : CsBuffer}
    (h : serialize t x buffer offset = .ok r) (hagrees : Agrees r offset.bits buffer') :
    deserialize t buffer' offset = .ok (x, r.2) ↔ ComesBack t x offset.bits := by
  match t, x with
  | .bool, x => exact (deserializePrimitive_bool_iff h hagrees).trans (and_iff_left rfl)
  | .char, c => exact deserialize_char_iff h hagrees
  | .num n, x | .enum n, x =>
    have hnum := @deserializePrimitive_num_iff n x x _ _ _ _ h hagrees
    exact hnum.trans (and_iff_left rfl)
  | .string, s => exact deserialize_string_iff h hagrees
  | .list element, xs =>
    apply deserialize_list_iff _ h hagrees
    intro x buffer offset r
    exact deserialize_iff element x hp
  | .cls properties, xs =>
    rw [serialize] at h
    obtain ⟨_, hproperties, h⟩ := except_bind_eq_ok.mp h
    rw [deserialize, hproperties, except_ok_bind]
    exact deserializeProperties_iff properties xs hp h hagrees

theorem deserializeProperties_iff (ps : CsProperties) (xs : CsValues ps)
    (hp : ps.packIntegers = true) {buffer buffer' : List UInt8} {offset : BufferUnit} {r : CsBuffer}
    (h : serializeProperties ps xs buffer offset = .ok r) (hagrees : Agrees r offset.bits buffer') :
    deserializeProperties ps buffer' offset = .ok (xs, r.2) ↔ AllComeBack ps xs offset.bits := by
  match ps, xs with
  | .nil, _ =>
    cases h
    exact iff_of_true rfl trivial
  | .cons t none rest, (x, xs) =>
    rw [CsProperties.packIntegers, Bool.and_eq_true] at hp
    obtain ⟨r₁, hfirst, hrest⟩ := except_bind_eq_ok.mp h
    have hends := (serialize_reaches t x hfirst buffer offset).extended r₁ hfirst
    have hrestEnds := (serializeProperties_reaches rest xs hrest r₁.1 r₁.2).extended r hrest
    obtain ⟨hagrees₁, hagrees₂⟩ := hagrees.split hrestEnds hends.le
    have hx := deserialize_iff t x hp.1 hfirst hagrees₁
    have hxs := deserializeProperties_iff rest xs hp.2 hrest hagrees₂
    rw [deserializeProperties_cons_iff]
    dsimp only
    rw [read_through r₁.2, hx, hxs]
    · apply and_congr_right
      intro hback
      rw [(deserialize_takes t buffer' offset x r₁.2 (hx.mpr hback)).1]
    · intro next hread
      obtain ⟨hnext, hle⟩ := deserialize_takes t buffer' offset x next hread
      rw [hends.stop_eq, hnext]
      exact hle offset.bits
    · exact fun next hread => le_of_deserializeProperties hrestEnds hread
  | .cons t (some size) rest, (x, xs) =>
    rw [CsProperties.packIntegers, Bool.and_eq_true] at hp
    obtain ⟨n, rfl, hkind⟩ := isInteger_eq_true hp.1
    obtain ⟨r₁, hfirst, hrest⟩ := except_bind_eq_ok.mp h
    have hstop : r₁.2 = offset + size := serializePackedPrimitive_next hfirst
    have hle : offset.bits ≤ r₁.2.bits := by
      rw [hstop]
      exact Nat.le_add_right _ _
    have hrestEnds := (serializeProperties_reaches rest xs hrest r₁.1 r₁.2).extended r hrest
    obtain ⟨hagrees₁, hagrees₂⟩ := hagrees.split hrestEnds hle
    have hx := deserializePackedPrimitive_iff hkind hfirst hagrees₁
    have hxs := deserializeProperties_iff rest xs hp.2 hrest hagrees₂
    rw [deserializeProperties_cons_iff]
    dsimp only
    rw [read_through r₁.2, hx, hxs, hstop]
    · rfl
    · intro next hread
      rw [deserializePackedPrimitive_next hread, hstop]
    · exact fun next hread => le_of_deserializeProperties hrestEnds hread

end

/-- What `Serialize` has written comes back from its buffer, with the same end, exactly under the
conditions of `ComesBack`. -/
theorem deserialize_serialize_iff {t : CsType} (hp : t.packsIntegers = true) {x : CsValue t}
    {buffer : List UInt8} {offset : BufferUnit} {r : CsBuffer}
    (h : serialize t x buffer offset = .ok r) :
    deserialize t r.1 offset = .ok (x, r.2) ↔ ComesBack t x offset.bits :=
  deserialize_iff t x hp h (Agrees.refl r offset.bits)

def halvesAndList : CsProperties :=
  .cons (.num .i16) (some ⟨4⟩) (.cons (.num .u8) (some ⟨4⟩) (.cons (.list (.num .u16)) none
    (.cons (.cls (.cons .bool none .nil)) none .nil)))

/-- An object of the class behind the first byte. -/
theorem deserialize_serialize_halvesAndList :
    deserialize (.cls halvesAndList) [0, 0xEB, 0, 4, 1, 2, 3, 4, 1] ⟨8⟩ =
      .ok ((BitVec.ofInt 16 (-2), 11#8, [0x0102#16, 0x0304#16], (true, ()), ()), ⟨72⟩) := by
  have hwritten : serialize (.cls halvesAndList)
      (BitVec.ofInt 16 (-2), 11#8, [0x0102#16, 0x0304#16], (true, ()), ()) (List.replicate 9 0)
      ⟨8⟩ = .ok ([0, 0xEB, 0, 4, 1, 2, 3, 4, 1], ⟨72⟩) := rfl
  apply (@deserialize_serialize_iff (.cls halvesAndList) rfl _ _ _ _ hwritten).mpr
  have hlist : ComesBack (.list (.num .u16)) [0x0102#16, 0x0304#16] 16 :=
    ⟨rfl, by decide, by decide, rfl, rfl, trivial⟩
  exact ⟨(nomatch ·), (nomatch ·), hlist, ⟨rfl, trivial⟩, trivial⟩

def byteBetweenHalves : CsProperties :=
  .cons (.num .u8) (some ⟨4⟩) (.cons (.num .u8) none (.cons (.num .u8) (some ⟨4⟩) .nil))

/-- The last half is read from the byte between the halves, and the end is four bits early. -/
theorem deserialize_byteBetweenHalves :
    serialize (.cls byteBetweenHalves) (1#8, 2#8, 3#8, ()) [0, 0, 0] ⟨0⟩ =
        .ok ([0x10, 2, 0x30], ⟨20⟩) ∧
      deserialize (.cls byteBetweenHalves) [0x10, 2, 0x30] ⟨0⟩ =
        .ok ((1#8, 2#8, 2#8, ()), ⟨16⟩) ∧
      deserialize (.cls byteBetweenHalves) [0x10, 2, 0x30] ⟨0⟩ ≠
        .ok ((1#8, 2#8, 3#8, ()), ⟨20⟩) := by
  have hread : deserialize (.cls byteBetweenHalves) [0x10, 2, 0x30] ⟨0⟩ =
      .ok ((1#8, 2#8, 2#8, ()), ⟨16⟩) := rfl
  refine ⟨rfl, hread, fun h => ?_⟩
  have hnext : (⟨16⟩ : BufferUnit) = ⟨20⟩ := congrArg Prod.snd (Except.ok.inj (hread.symm.trans h))
  cases hnext

end Serialization

end CompostRpc
