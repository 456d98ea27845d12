import CompostRpc.UnpackFields

/-!
# The offsets of the Python reader

The reader finds every field in the right place as long as its offset is the writer's. It leaves
that offset at a byte-sized number which does not begin on a byte: `numbersAligned` says that a
type has no such number. The theorem `unpackMembers_reads` says that on a payload that holds the
pieces of some values, the reader returns them at the writer's offsets if the types are aligned,
and departs from the writer's offsets if they are not.
-/

namespace CompostRpc
open ByteMemory Piece

mutual

/-- The bit within its byte at which a field ends that begins at bit `phase` of a byte. -/
def phaseAfter (phase : ℕ) : WireType → ℕ
  | .bitU width => (phase + width) % 8
  | .enum e =>
    match e.backing.repr with
    | .inl _ => 0
    | .inr width => (phase + width) % 8
  | .struct _ members => phaseAfterMembers 0 members
  | .num _ | .str | .bytes | .list _ => 0

def phaseAfterMembers (phase : ℕ) : Members → ℕ
  | .nil => phase
  | .cons _ t rest => phaseAfterMembers (phaseAfter phase t) rest

end

mutual

def numbersAligned (phase : ℕ) : WireType → Bool
  | .num _ => phase == 0
  | .enum e =>
    match e.backing.repr with
    | .inl _ => phase == 0
    | .inr _ => true
  | .struct _ members => numbersAlignedMembers 0 members
  | .str | .bytes | .list _ | .bitU _ => true

def numbersAlignedMembers (phase : ℕ) : Members → Bool
  | .nil => true
  | .cons _ t rest => numbersAligned phase t && numbersAlignedMembers (phaseAfter phase t) rest

end

mutual

theorem stopAll_pieces_mod (t : WireType) (v : Value t) (o : ℕ) :
    stopAll (pieces t v) o % 8 = phaseAfter (o % 8) t := by
  match t, v with
  | .struct name members, vs =>
    have hmembers := stopAll_piecesMembers_mod members vs (alignUp o)
    rw [alignUp_mod] at hmembers
    simpa only [pieces, stopAll, stop, List.length_nil, Nat.mul_zero, Nat.add_zero, phaseAfter]
      using hmembers
  | .num n, v | .str, v | .bytes, v | .list inner, v =>
    simp only [pieces, stopAll, counted, stop, phaseAfter]
    have hmod := alignUp_mod o
    omega
  | .bitU width, v =>
    simp only [pieces, stopAll, stop, phaseAfter]
    omega
  | .enum e, v =>
    simp only [pieces, phaseAfter]
    have hmod := alignUp_mod o
    cases e.backing.repr with
    | inl n => simp only [stopAll, stop]; omega
    | inr width => simp only [stopAll, stop]; omega

theorem stopAll_piecesMembers_mod (ms : Members) (vs : Values ms) (o : ℕ) :
    stopAll (piecesMembers ms vs) o % 8 = phaseAfterMembers (o % 8) ms := by
  match ms, vs with
  | .nil, _ => rfl
  | .cons name t rest, (v, vs) =>
    simp only [piecesMembers, phaseAfterMembers, stopAll_append]
    rw [stopAll_piecesMembers_mod rest vs, stopAll_pieces_mod t v o]

end

mutual

/-- The offsets of a writer that starts a value at bit `o`, one for each field. -/
def ends : (t : WireType) → Value t → ℕ → List MemUnit
  | .struct _ members, vs, o => endsMembers members vs (alignUp o)
  | t, v, o => [⟨stopAll (pieces t v) o⟩]

def endsMembers : (ms : Members) → Values ms → ℕ → List MemUnit
  | .nil, _, _ => []
  | .cons _ t rest, v, o => ends t v.1 o ++ endsMembers rest v.2 (stopAll (pieces t v.1) o)

end

/-- The result of the reader and its offsets, against a value and the writer's offsets. -/
structure Reads {α : Type} (result : Except PyError (α × MemUnit)) (trace : List MemUnit)
    (value : α) (stop : ℕ) (ends : List MemUnit) (aligned : Bool) : Prop where
  read : aligned = true → result = .ok (value, ⟨stop⟩) ∧ trace = ends
  leave : aligned = false → ∀ later later' : List MemUnit, trace ++ later ≠ ends ++ later'

theorem Reads.field {result : Except PyError (PyVal × MemUnit)} {value : PyVal} {stop : ℕ}
    (h : result = .ok (value, ⟨stop⟩)) :
    Reads result (traceOf result) value stop [⟨stop⟩] true := by
  refine ⟨fun _ => ⟨h, by rw [h]; rfl⟩, ?_⟩
  intro hfalse
  cases hfalse

/-- A byte-sized number is read from the right place, but the offset is only right after an aligned
one. -/
theorem Reads.number {result : Except PyError (PyVal × MemUnit)} {value : PyVal} {n : Numeric}
    {offset : MemUnit} (raw : ℕ) (h : result = .ok (value, offset + n.size)) :
    Reads result (traceOf result) value
      (stopAll [.bytes (beBytes n.size.bytes raw)] offset.bits)
      [⟨stopAll [.bytes (beBytes n.size.bytes raw)] offset.bits⟩] (offset.bits % 8 == 0) := by
  have hstop : stopAll [.bytes (beBytes n.size.bytes raw)] offset.bits =
      alignUp offset.bits + n.size.bits := by
    simp only [stopAll, stop, length_beBytes, n.size_bits]
  rw [hstop, h]
  constructor
  · intro haligned
    have hoffset : offset + n.size = ⟨alignUp offset.bits + n.size.bits⟩ := by
      rw [alignUp_of_mod (beq_iff_eq.mp haligned)]
      rfl
    exact ⟨by rw [hoffset], by rw [hoffset]; rfl⟩
  · intro hunaligned later later' heq
    have hmod : offset.bits % 8 ≠ 0 := by simpa using hunaligned
    have hbits := congrArg MemUnit.bits (List.cons.inj heq).1
    have halign := alignUp_mod offset.bits
    simp only [MemUnit.add_bits] at hbits
    omega

mutual

theorem unpack_reads (t : WireType) (v : Value t) {payload : List UInt8} {offset : MemUnit}
    (h : Held payload offset.bits (pieces t v)) :
    Reads (unpack payload offset t) (unpackTrace payload offset t) (Value.toPy t v)
      (stopAll (pieces t v) offset.bits) (ends t v offset.bits)
      (numbersAligned (offset.bits % 8) t) := by
  match t, v with
  | .num n, v =>
    apply Reads.number
    rw [unpack, unpackFrom_held h]
    rfl
  | .str, s =>
    exact Reads.field (unpack_str_held h)
  | .bytes, b =>
    apply Reads.field
    rw [unpack, unpackCounted_held h]
    rfl
  | .list inner, xs =>
    apply Reads.field
    rw [unpack, unpackList_held h]
    rfl
  | .bitU width, v =>
    apply Reads.field
    rw [unpack, unpackBitU_held (BitVec.isLt v) h]
    rfl
  | .enum e, ⟨v, hmem⟩ =>
    simp only [pieces, numbersAligned, ends, unpackTrace, Value.toPy] at h ⊢
    cases he : e.backing.repr with
    | inl n =>
      simp only [he] at h ⊢
      obtain ⟨hraw, hvalue⟩ := toPy_rawValue he hmem
      apply Reads.number
      have hfrom := unpackFrom_held (v := BitVec.ofNat n.size.bits (e.rawValue v))
        (by rwa [BitVec.toNat_ofNat, Nat.mod_eq_of_lt hraw])
      simp only [unpack, he, hfrom, except_ok_bind, EnumType.ofValue_of_mem hmem hvalue]
      rfl
    | inr width =>
      simp only [he] at h ⊢
      obtain ⟨hcast, hraw⟩ := rawValue_of_bitU he hmem
      apply Reads.field
      simp only [unpack, he, unpackBitU_held hraw h, except_ok_bind,
        EnumType.ofValue_of_mem hmem (congrArg PyVal.int hcast)]
      rfl
  | .struct name members, vs =>
    have halign : offset.byteAlign.bits = alignUp offset.bits := MemUnit.byteAlign_bits offset
    have hmembers : Held payload offset.byteAlign.bits (piecesMembers members vs) := by
      rw [halign]
      simp only [pieces] at h
      exact (@Held.append payload offset.bits [.bytes []] _ h).2
    obtain ⟨hread, hleave⟩ := unpackMembers_reads members vs hmembers
    rw [halign, alignUp_mod] at hread hleave
    refine ⟨fun haligned => ?_, hleave⟩
    obtain ⟨hok, htrace⟩ := hread haligned
    refine ⟨?_, htrace⟩
    rw [unpack, hok]
    rfl

theorem unpackMembers_reads (ms : Members) (vs : Values ms) {payload : List UInt8}
    {offset : MemUnit} (h : Held payload offset.bits (piecesMembers ms vs)) :
    Reads (unpackMembers payload offset ms) (unpackTraceMembers payload offset ms)
      (Values.toPy ms vs) (stopAll (piecesMembers ms vs) offset.bits)
      (endsMembers ms vs offset.bits) (numbersAlignedMembers (offset.bits % 8) ms) := by
  match ms, vs with
  | .nil, _ =>
    refine ⟨fun _ => ⟨rfl, rfl⟩, ?_⟩
    intro hfalse
    cases hfalse
  | .cons name t rest, (v, vs) =>
    obtain ⟨hhead, htail⟩ := Held.append h
    obtain ⟨hread, hleave⟩ := unpack_reads t v hhead
    obtain ⟨hread', hleave'⟩ :=
      @unpackMembers_reads rest vs payload ⟨stopAll (pieces t v) offset.bits⟩ htail
    rw [stopAll_pieces_mod] at hread' hleave'
    simp only [unpackTraceMembers, endsMembers, numbersAlignedMembers]
    cases haligned : numbersAligned (offset.bits % 8) t with
    | true =>
      obtain ⟨hok, htrace⟩ := hread haligned
      rw [hok, htrace, Bool.true_and]
      constructor
      · intro hrest
        obtain ⟨hok', htrace'⟩ := hread' hrest
        refine ⟨?_, congrArg (ends t v offset.bits ++ ·) htrace'⟩
        simp only [unpackMembers, hok, except_ok_bind, hok', piecesMembers, stopAll_append]
        rfl
      · intro hrest later later' heq
        rw [List.append_assoc, List.append_assoc] at heq
        exact hleave' hrest _ _ (List.append_cancel_left heq)
    | false =>
      rw [Bool.false_and]
      refine ⟨fun hfalse => absurd hfalse Bool.false_ne_true, fun _ later later' heq => ?_⟩
      rw [List.append_assoc, List.append_assoc] at heq
      exact hleave haligned _ _ heq

end

end CompostRpc
