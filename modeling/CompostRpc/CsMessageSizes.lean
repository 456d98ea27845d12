import CompostRpc.CsExtent
import CompostRpc.CsMessages

/-!
# The size of a message in C#

The constructor of a message takes a buffer of as many words as it counts for the arguments, and
then serializes them. What it counts has no bits that are skipped in front of a whole byte, and a
list counts as if all of its elements were like the first. Hence the buffer has the size of what is
written exactly if the difference stays within the last word.
-/

namespace CompostRpc
open ByteMemory Piece Serialization

def constructMessage (txn : UInt8) (rpcId : UInt16) (resp : Bool) (args : List CsObject) :
    Except CsError (List UInt8) := do
  let shape ← MessageShape.fromArguments args
  serializeMessage txn rpcId resp args shape

def chosenSize (args : List CsObject) : Except CsError BufferUnit := do
  let shape ← MessageShape.fromArguments args
  if shape.isFixedSize then pure shape.size else getCollectionSize args

mutual

theorem csBits_of_getObjectSize (t : CsType) (x : CsValue t) {size : BufferUnit}
    (h : getObjectSize t x = .ok size) : csBits t x = size.bits := by
  match t, x with
  | .bool, x | .char, x | .num n, x | .enum n, x =>
    cases h
    rfl
  | .string, s =>
    cases h
    rw [csBits, MemUnit.fromBytes, Nat.mul_comm]
    rfl
  | .list element, xs =>
    match xs with
    | [] =>
      cases h
      rfl
    | x :: rest =>
      obtain ⟨first, hfirst, h⟩ := except_bind_eq_ok.mp h
      cases h
      have hshare := csBits_of_getObjectSize element x hfirst
      change csBits element x * (rest.length + 1) + 16 = first.bits * (rest.length + 1) + 16
      rw [hshare]
  | .cls properties, xs =>
    rw [getObjectSize] at h
    obtain ⟨static, -, h⟩ := except_bind_eq_ok.mp h
    cases static with
    | true => exact csBits_of_getTypeSize (.cls properties) h xs
    | false => exact csBitsAll_of_propertiesSize properties xs h

theorem csBitsAll_of_propertiesSize (ps : CsProperties) (xs : CsValues ps) {size : BufferUnit}
    (h : propertiesSize ps xs = .ok size) : csBitsAll ps xs = size.bits := by
  match ps, xs with
  | .nil, _ =>
    cases h
    rfl
  | .cons t none rest, (x, xs) =>
    obtain ⟨first, hfirst, h⟩ := except_bind_eq_ok.mp h
    obtain ⟨others, hothers, h⟩ := except_bind_eq_ok.mp h
    cases h
    change csBits t x + csBitsAll rest xs = first.bits + others.bits
    rw [csBits_of_getObjectSize t x hfirst, csBitsAll_of_propertiesSize rest xs hothers]
  | .cons t (some packedSize) rest, (x, xs) =>
    obtain ⟨first, hfirst, h⟩ := except_bind_eq_ok.mp h
    obtain ⟨others, hothers, h⟩ := except_bind_eq_ok.mp h
    cases hfirst
    cases h
    change packedSize.bits + csBitsAll rest xs = packedSize.bits + others.bits
    rw [csBitsAll_of_propertiesSize rest xs hothers]

end

def countedBits (args : List CsObject) : ℕ := (args.map fun arg => csBits arg.1 arg.2).sum

theorem countedBits_of_getCollectionSize {args : List CsObject} {size : BufferUnit}
    (h : getCollectionSize args = .ok size) : countedBits args = size.bits := by
  induction args generalizing size with
  | nil =>
    cases h
    rfl
  | cons arg args ih =>
    obtain ⟨first, hfirst, h⟩ := except_bind_eq_ok.mp h
    obtain ⟨others, hothers, h⟩ := except_bind_eq_ok.mp h
    cases h
    have hcons : countedBits (arg :: args) = csBits arg.1 arg.2 + countedBits args := List.sum_cons
    rw [hcons, ih hothers, csBits_of_getObjectSize arg.1 arg.2 hfirst]
    rfl

/-- Arguments of static types have the size of their shape. -/
theorem getCollectionSize_of_ofTypes {args : List CsObject} {size : BufferUnit}
    {shape : MessageShape} (h : MessageShape.ofTypes size (args.map Sigma.fst) = .ok shape)
    (hfixed : shape.isFixedSize = true) :
    ∃ total, getCollectionSize args = .ok total ∧ shape.size = size + total := by
  induction args generalizing size with
  | nil =>
    cases h
    exact ⟨⟨0⟩, rfl, rfl⟩
  | cons arg args ih =>
    obtain ⟨static, hstatic, h⟩ := except_bind_eq_ok.mp h
    cases static with
    | false =>
      cases h
      cases hfixed
    | true =>
      obtain ⟨first, hfirst, h⟩ := except_bind_eq_ok.mp h
      obtain ⟨total, htotal, hsum⟩ := ih h
      refine ⟨first + total, ?_, ?_⟩
      · rw [getCollectionSize, getObjectSize_of_getTypeSize hfirst, except_ok_bind, htotal]
        rfl
      · rw [hsum]
        exact MemUnit.ext (Nat.add_assoc _ _ _)

theorem getCollectionSize_of_fixed {args : List CsObject} {shape : MessageShape}
    (h : MessageShape.fromArguments args = .ok shape) (hfixed : shape.isFixedSize = true) :
    getCollectionSize args = .ok shape.size := by
  obtain ⟨total, htotal, hsum⟩ := getCollectionSize_of_ofTypes h hfixed
  rw [htotal, hsum]
  exact congrArg Except.ok (MemUnit.ext (Nat.zero_add _).symm)

theorem countedBits_of_chosenSize {args : List CsObject} {size : BufferUnit}
    (h : chosenSize args = .ok size) : countedBits args = size.bits := by
  obtain ⟨shape, hshape, h⟩ := except_bind_eq_ok.mp h
  cases hfixed : shape.isFixedSize with
  | true =>
    rw [hfixed, if_pos rfl] at h
    cases h
    exact countedBits_of_getCollectionSize (getCollectionSize_of_fixed hshape hfixed)
  | false =>
    rw [hfixed, if_neg Bool.false_ne_true] at h
    exact countedBits_of_getCollectionSize h

/-- The bits that every element of a list is taken to have. -/
def share {α : Type} (bits : α → ℕ) : List α → ℕ
  | [] => 0
  | x :: _ => bits x

mutual

/-- The bits that are written for an object without the skipped ones, beyond those that are counted
for it. An element of a list need not have its share, and of 2^16 or more elements only the rest
modulo 2^16 is written. -/
def surplus : (t : CsType) → CsValue t → ℤ
  | .string, s => 8 * ((UInt16.ofNat (List.length s)).toNat - List.length s)
  | .list element, xs =>
    ((List.take (UInt16.ofNat (List.length xs)).toNat xs).map fun x =>
      csBits element x + surplus element x).sum - List.length xs * share (csBits element) xs
  | .cls properties, xs => surplusAll properties xs
  | _, _ => 0

def surplusAll : (ps : CsProperties) → CsValues ps → ℤ
  | .nil, _ => 0
  | .cons t none rest, x => surplus t x.1 + surplusAll rest x.2
  | .cons _ (some _) rest, x => surplusAll rest x.2

end

theorem widths_length (n : ℕ) : widths [.bytes (beBytes 2 n)] = 16 := by
  simp only [widths, List.map_singleton, List.sum_singleton, width, length_beBytes]

theorem widths_flatMap {α : Type} {pieces : α → List Piece} {bits : α → ℤ} {xs : List α}
    (h : ∀ x ∈ xs, (widths (pieces x) : ℤ) = bits x) :
    (widths (xs.flatMap pieces) : ℤ) = (xs.map bits).sum := by
  induction xs with
  | nil => rfl
  | cons x xs ih =>
    have hx := h x List.mem_cons_self
    have hxs := ih fun y hy => h y (List.mem_cons_of_mem x hy)
    rw [List.flatMap_cons, widths_append, List.map_cons, List.sum_cons, Nat.cast_add, hx, hxs]

theorem widths_counted {α : Type} {pieces : α → List Piece} {bits : α → ℤ} {xs : List α} (n : ℕ)
    (h : ∀ x ∈ xs, (widths (pieces x) : ℤ) = bits x) :
    (widths (.bytes (beBytes 2 n) :: xs.flatMap pieces) : ℤ) = 16 + (xs.map bits).sum := by
  rw [← List.singleton_append, widths_append, widths_length, Nat.cast_add, widths_flatMap h]
  rfl

theorem csBits_list_share (element : CsType) (xs : List (CsValue element)) :
    csBits (.list element) xs = xs.length * share (csBits element) xs + 16 := by
  cases xs with
  | nil => rfl
  | cons x rest =>
    change csBits element x * (rest.length + 1) + 16 = (rest.length + 1) * csBits element x + 16
    rw [Nat.mul_comm]

theorem widths_scalar {t : CsType} (h : t.scalar.isSome = true) (x : CsValue t) :
    widths (csPieces t x) = csBits t x := by
  rw [csPieces_scalar h, csBits_scalar h, Numeric.size_bits, ← length_elementBytes h x]
  rfl

theorem widths_string (s : List UInt16) :
    (widths (csPieces .string s) : ℤ) = csBits .string s + surplus .string s := by
  have hlen : (UInt16.ofNat s.length).toNat ≤ s.length := by
    rw [UInt16.toNat_ofNat']
    exact Nat.mod_le _ _
  have hwidths := @widths_counted UInt16 (fun c => [.bytes [c.toUInt8]]) (fun _ => 8)
    (s.take (UInt16.ofNat s.length).toNat) (UInt16.ofNat s.length).toNat fun c _ => rfl
  rw [List.map_const', List.sum_replicate_int, List.length_take, Nat.min_eq_left hlen] at hwidths
  simp only [csPieces, hwidths, csBits, surplus]
  push_cast
  ring

mutual

theorem widths_csPieces (t : CsType) (x : CsValue t) :
    (widths (csPieces t x) : ℤ) = csBits t x + surplus t x := by
  match t, x with
  | .bool, x | .char, x | .num n, x | .enum n, x =>
    rw [widths_scalar rfl]
    exact (Int.add_zero _).symm
  | .string, s => exact widths_string s
  | .list element, xs =>
    have hwidths := @widths_counted (CsValue element) (csPieces element)
      (fun x => csBits element x + surplus element x)
      (List.take (UInt16.ofNat (List.length xs)).toNat xs) (lengthPrefix element xs).toNat
      fun x _ => widths_csPieces element x
    have hcounted : csBits (.list element) xs =
        List.length xs * share (csBits element) xs + 16 := csBits_list_share element xs
    simp only [csPieces, hwidths, hcounted, surplus]
    push_cast
    ring
  | .cls properties, xs => exact widths_csPropertiesPieces properties xs

theorem widths_csPropertiesPieces (ps : CsProperties) (xs : CsValues ps) :
    (widths (csPropertiesPieces ps xs) : ℤ) = csBitsAll ps xs + surplusAll ps xs := by
  match ps, xs with
  | .nil, _ => rfl
  | .cons t none rest, (x, xs) =>
    simp only [csPropertiesPieces, csBitsAll, surplusAll, widths_append, Nat.cast_add,
      widths_csPieces t x, widths_csPropertiesPieces rest xs]
    ring
  | .cons t (some size) rest, (x, xs) =>
    have hfirst : widths [.bits size.bits (packedNat t x size)] = size.bits := Nat.add_zero _
    simp only [csPropertiesPieces, csBitsAll, surplusAll, widths_append, Nat.cast_add, hfirst,
      widths_csPropertiesPieces rest xs]
    ring

end

def serializeArguments (args : List CsObject) (buffer : List UInt8) (offset : BufferUnit) :
    Except CsError CsBuffer :=
  serializeEach (fun arg : CsObject => serialize arg.1 arg.2) args buffer offset

def argumentPieces (args : List CsObject) : List Piece :=
  args.flatMap fun arg => csPieces arg.1 arg.2

def argumentsSurplus (args : List CsObject) : ℤ := (args.map fun arg => surplus arg.1 arg.2).sum

theorem stopAll_argumentPieces (args : List CsObject) :
    (stopAll (argumentPieces args) 0 : ℤ) =
      countedBits args + argumentsSurplus args + padding (argumentPieces args) 0 := by
  have hwidths : (widths (argumentPieces args) : ℤ) = countedBits args + argumentsSurplus args := by
    induction args with
    | nil => rfl
    | cons arg args ih =>
      simp only [argumentPieces, countedBits, argumentsSurplus, List.flatMap_cons, List.map_cons,
        List.sum_cons, widths_append, Nat.cast_add, widths_csPieces] at ih ⊢
      rw [ih]
      ring
  rw [stopAll_eq_add, Nat.zero_add, Nat.cast_add, hwidths]

theorem serializeArguments_reaches {args : List CsObject} {b : List UInt8} {o : BufferUnit}
    {r : CsBuffer} (h : serializeArguments args b o = .ok r) (buffer : List UInt8)
    (offset : BufferUnit) :
    Reaches (serializeArguments args buffer offset) buffer offset (argumentPieces args) := by
  apply serializeEach_reaches
  intro arg harg
  obtain ⟨b, o, r, hcall⟩ := serializeEach_calls h arg harg
  exact serialize_reaches arg.1 arg.2 hcall

theorem constructMessage_ok_iff {args : List CsObject} {size : BufferUnit}
    (hsize : chosenSize args = .ok size) (txn : UInt8) (rpcId : UInt16) (resp : Bool)
    (message : List UInt8) :
    constructMessage txn rpcId resp args = .ok message ↔
      size.bits ≤ messageBodyLimit.bits ∧ ∃ next, serializeArguments args
        (MessageHeader.write ⟨size, txn, rpcId, resp⟩ (List.replicate (4 + size.words * 4) 0) 0)
        MessageHeader.headerSize = .ok (message, next) := by
  obtain ⟨shape, hshape, hchosen⟩ := except_bind_eq_ok.mp hsize
  rw [constructMessage, hshape, except_ok_bind, serializeMessage_eq, hchosen, except_ok_bind]
  exact fillMessage_ok_iff _ args message

theorem getD_write_zero (header : MessageHeader) {buffer : List UInt8} (hroom : 4 ≤ buffer.length) :
    (header.write buffer 0).getD 0 0 = UInt8.ofNat header.len.words := by
  have hsize : MessageHeader.headerSize.bytes = 4 := rfl
  rw [MessageHeader.write, if_neg (by omega)]
  simp only [List.getD_eq_getElem?_getD]
  rw [List.getElem?_set_ne (by decide), List.getElem?_set_ne (by decide),
    List.getElem?_set_ne (by decide), List.getElem?_set_self (by omega)]
  rfl

/-- The buffer of a message has the size of what is written to it: its words are those that the
arguments occupy, so that the constructor of a message within the limit finds room for them and its
header has their number, and the size of a shape is the size of the objects. -/
structure SizeMatches (args : List CsObject) (size : BufferUnit) (occupied : ℕ) : Prop where
  words_eq : size.words = occupied
  constructs : size.bits ≤ messageBodyLimit.bits → ∀ txn rpcId resp,
    ∃ message, constructMessage txn rpcId resp args = .ok message
  length_exact : ∀ txn rpcId resp message, constructMessage txn rpcId resp args = .ok message →
    (message.getD 0 0).toNat = occupied ∧ message.length = 4 + 4 * occupied
  same_fixed : ∀ shape, MessageShape.fromArguments args = .ok shape → shape.isFixedSize = true →
    getCollectionSize args = .ok shape.size

/-- The bits that are skipped, and those that the lists take beyond their shares, are less than what
the layout uses of its last word, and the shares that the lists leave are not more than it leaves of
that word. -/
def WithinLastWord (args : List CsObject) : Prop :=
  let used := (stopAll (argumentPieces args) 0 + 31) % 32 + 1
  let difference : ℤ := padding (argumentPieces args) 0 + argumentsSurplus args
  (used : ℤ) - 32 ≤ difference ∧ difference < used

instance (args : List CsObject) : Decidable (WithinLastWord args) := by
  unfold WithinLastWord
  exact inferInstance

theorem words_eq_iff {args : List CsObject} {size : BufferUnit}
    (hsize : chosenSize args = .ok size) :
    size.words = BufferUnit.words ⟨stopAll (argumentPieces args) 0⟩ ↔ WithinLastWord args := by
  have hcounted := countedBits_of_chosenSize hsize
  have hstop := stopAll_argumentPieces args
  simp only [BufferUnit.words, WithinLastWord]
  omega

theorem sizeMatches_iff {args : List CsObject} {size : BufferUnit} {buffer : List UInt8}
    {r : CsBuffer} (hsize : chosenSize args = .ok size)
    (h : serializeArguments args buffer MessageHeader.headerSize = .ok r) :
    SizeMatches args size (BufferUnit.words ⟨r.2.bits - MessageHeader.headerSize.bits⟩) ↔
      WithinLastWord args := by
  have hreaches := serializeArguments_reaches h
  have hshift : stopAll (argumentPieces args) MessageHeader.headerSize.bits =
      MessageHeader.headerSize.bits + stopAll (argumentPieces args) 0 := stopAll_shift _ 4 0
  have hend := ((hreaches buffer MessageHeader.headerSize).extended r h).stop_eq
  rw [hend, hshift, Nat.add_sub_cancel_left, ← words_eq_iff hsize]
  constructor
  · exact fun hmatches => hmatches.words_eq
  · intro hwords
    have hstart : MessageHeader.headerSize.bits = 32 := rfl
    have hroom : stopAll (argumentPieces args) 0 ≤ 32 * size.words := by
      rw [hwords, BufferUnit.words]
      dsimp only
      omega
    refine ⟨hwords, fun hlimit txn rpcId resp => ?_, fun txn rpcId resp message hmessage => ?_,
      fun shape hshape hfixed => getCollectionSize_of_fixed hshape hfixed⟩
    · generalize hraw : MessageHeader.write ⟨size, txn, rpcId, resp⟩
        (List.replicate (4 + size.words * 4) 0) 0 = raw
      have hlength : raw.length = 4 + size.words * 4 := by
        rw [← hraw, length_write, List.length_replicate]
      obtain ⟨⟨message, next⟩, hcall⟩ := (hreaches raw MessageHeader.headerSize).returns (by omega)
      rw [← hraw] at hcall
      exact ⟨message, (constructMessage_ok_iff hsize txn rpcId resp message).mpr
        ⟨hlimit, next, hcall⟩⟩
    · obtain ⟨hlimit, next, hcall⟩ := (constructMessage_ok_iff hsize txn rpcId resp message).mp
        hmessage
      have hextended := (hreaches _ _).extended _ hcall
      have hlength : message.length = _ := hextended.length_eq
      rw [length_write, List.length_replicate] at hlength
      have hbyte : message.getD 0 0 = UInt8.ofNat size.words := by
        rw [← getD_write_zero ⟨size, txn, rpcId, resp⟩
          (show 4 ≤ (List.replicate (4 + size.words * 4) (0 : UInt8)).length by
            rw [List.length_replicate]; omega)]
        apply @byte_eq_of_bits (ofList message) (ofList _) 0 0
        intro k hk
        exact hextended.before _ (by rw [hstart]; omega)
      have hsmall : size.words < 256 := by
        have hbits : messageBodyLimit.bits = 255 * 32 := rfl
        rw [BufferUnit.words]
        omega
      rw [hbyte, UInt8.toNat_ofNat', Nat.mod_eq_of_lt hsmall, ← hwords]
      exact ⟨rfl, by omega⟩

/-- Half a byte and a number, and a list behind them: four bits are skipped in the first word. -/
def halfAndList : List CsObject :=
  [⟨.cls (.cons (.num .u8) (some ⟨4⟩) (.cons (.num .u8) none .nil)), (5#8, 6#8, ())⟩,
    ⟨.list (.num .u16), [7#16, 8#16]⟩]

theorem sizeMatches_halfAndList : SizeMatches halfAndList ⟨60⟩ 2 :=
  (@sizeMatches_iff halfAndList ⟨60⟩ (List.replicate 12 0)
    ([0, 0, 0, 0, 0x50, 6, 0, 4, 0, 7, 0, 8], ⟨96⟩) rfl rfl).mpr (by decide)

/-- Halves of bytes between whole ones, and a byte behind them: eight bits are skipped, and 32 are
counted. -/
def halvesAndByte : List CsObject :=
  [⟨.cls (.cons (.num .u8) (some ⟨4⟩) (.cons (.num .u8) none (.cons (.num .u8) (some ⟨4⟩)
      (.cons (.num .u8) none .nil)))), (1#8, 2#8, 3#8, 4#8, ())⟩,
    ⟨.num .u8, 5#8⟩]

theorem not_sizeMatches_halvesAndByte :
    chosenSize halvesAndByte = .ok ⟨32⟩ ∧
      serializeArguments halvesAndByte (List.replicate 12 0) MessageHeader.headerSize =
        .ok ([0, 0, 0, 0, 0x10, 2, 0x30, 4, 5, 0, 0, 0], ⟨72⟩) ∧
      constructMessage 1 2 false halvesAndByte = .error .indexOutOfRange ∧
      ¬ SizeMatches halvesAndByte ⟨32⟩ 2 := by
  refine ⟨rfl, rfl, rfl, fun h => ?_⟩
  exact absurd h.words_eq (by decide)

end CompostRpc
