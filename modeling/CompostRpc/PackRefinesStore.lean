import CompostRpc.StoreRepresentation

/-!
# The Python writer refines the generated C store

Both programs store a layout of the same contents, the C code with an alignment at the end of every
struct as well. The Python writer raises on a struct inside a struct, so on the values it accepts
the next field behind the end of a struct is aligned in both programs, and both store the same
bytes from the same start.
-/

namespace CompostRpc
open ByteMemory Piece Machine

/-- Without a struct among them the members give the parties no boundary to disagree on. -/
theorem settleAll_of_flat {ms : Members} (hflat : ms.flat = true) {s : Stand}
    (hs : s.apart = false) : ∃ s', settleAll pythonMarks s ms = some s' ∧ s'.apart = false := by
  induction ms using Members.induction generalizing s with
  | nil => exact ⟨s, rfl, hs⟩
  | cons name t rest ih =>
    simp only [Members.flat, Bool.and_eq_true, Bool.not_eq_true'] at hflat
    have hbits : ∀ width, ∃ s', s.piece (.bits width 0) = some s' ∧ s'.apart = false := by
      intro width
      simp only [Stand.piece, hs, Bool.false_eq_true, if_false]
      split_ifs with hw
      · exact ⟨s, rfl, hs⟩
      · exact ⟨_, rfl, rfl⟩
    have hmember : ∃ s', settle pythonMarks s t = some s' ∧ s'.apart = false := by
      cases t with
      | struct name members => cases hflat.1
      | bitU width => exact hbits width
      | enum e =>
        simp only [settle]
        cases e.backing.repr with
        | inl n => exact ⟨_, rfl, rfl⟩
        | inr width => exact hbits width
      | _ => exact ⟨_, rfl, rfl⟩
    obtain ⟨s₁, hsettle, hs₁⟩ := hmember
    simp only [settleAll, hsettle, Option.bind_some]
    exact ih hflat.2 hs₁

theorem settleAll_parameters {ms : Members} (hms : ms.areParameters = true)
    (hflat : ms.structsFlat = true) (s : Stand) :
    ∃ s', settleAll pythonMarks s ms = some s' := by
  induction ms using Members.induction generalizing s with
  | nil => exact ⟨s, rfl⟩
  | cons name t rest ih =>
    simp only [Members.areParameters, Bool.and_eq_true] at hms
    have hparameter : (∃ s', settle pythonMarks s t = some s') ∧ rest.structsFlat = true := by
      cases t with
      | bitU width => cases hms.1
      | struct name members =>
        simp only [Members.structsFlat, Bool.and_eq_true] at hflat
        obtain ⟨s', hs', -⟩ := settleAll_of_flat hflat.1 (s := s.mark pythonMarks .opening) rfl
        exact ⟨⟨s'.mark pythonMarks .closing, by simp only [settle, hs', Option.map_some]⟩,
          hflat.2⟩
      | enum e =>
        have hleft := hms.1
        simp only [WireType.isParameter] at hleft
        simp only [settle]
        cases he : e.backing.repr with
        | inl n => exact ⟨⟨_, rfl⟩, hflat⟩
        | inr width => rw [he] at hleft; cases hleft
      | _ => exact ⟨⟨_, rfl⟩, hflat⟩
    obtain ⟨⟨s₁, hs₁⟩, hrest⟩ := hparameter
    obtain ⟨s₂, hs₂⟩ := ih hms.2 hrest s₁
    exact ⟨s₂, by simp only [settleAll, hs₁, Option.bind_some, hs₂]⟩

/-- On parameters that the Python writer accepts, the two programs have one layout. -/
theorem storedPiecesAll_parameters {ms : Members} (hms : ms.areParameters = true)
    (hflat : ms.structsFlat = true) (vs : Values ms) (dest : ℕ) :
    (∀ m, writeAll m (8 * dest) (storedPiecesAll ms (Values.contents ms vs)) =
        writeAll m (8 * dest) (piecesMembers ms vs)) ∧
      stopAll (storedPiecesAll ms (Values.contents ms vs)) (8 * dest) =
        alignUp (stopAll (piecesMembers ms vs) (8 * dest)) := by
  obtain ⟨s, hs⟩ := settleAll_parameters hms hflat .aligned
  have haligned : Stand.aligned.At (8 * dest) (8 * dest) := Stand.at_aligned (by omega)
  rw [← walk_markedPiecesAll _ _ ms (Values.contents ms vs)] at hs
  obtain ⟨hwrite, hstop⟩ := walk_same hs haligned
  rw [← piecesMembers_eq_honoured] at hwrite hstop
  refine ⟨hwrite, ?_⟩
  have hmod := stopAll_storedPiecesAll_mod hms (Values.contents ms vs) (o := 8 * dest) (by omega)
  rw [← hstop.alignUp_eq]
  exact (alignUp_of_mod hmod).symm

/-- A Python payload is the layout in zeros. -/
theorem ofList_packPayload {types : Members} {vs : Values types} {payload : List UInt8}
    (h : packPayload types (Values.toPy types vs) = .ok payload) :
    ofList payload = writeAll (fun _ => 0) 0 (piecesMembers types vs) := by
  obtain ⟨buffer, offset, hpack, rfl⟩ := packPayload_eq_ok h
  obtain ⟨hmemory, -, hstop, -⟩ := packMembers_writes types vs _ (.inl rfl) _ _ _ _ hpack
  rw [ofList_replicate] at hmemory
  change offset.bits = stopAll _ 0 at hstop
  funext i
  by_cases hi : i < offset.bytes
  · have hbyte : ofList (buffer.take offset.bytes) i = ofList buffer i := by
      rw [ofList, ofList, List.getD_eq_getElem?_getD, List.getD_eq_getElem?_getD,
        List.getElem?_take_of_lt hi]
    rw [hbyte, hmemory]
  · have hzero : ofList (buffer.take offset.bytes) i = 0 := by
      apply List.getD_eq_default
      rw [List.length_take]
      omega
    rw [hzero]
    refine @byte_eq_of_bits (fun _ => 0) _ i i fun k _ => ?_
    have hbytes := MemUnit.bytes_eq offset
    refine (bitAt_writeAll_of_not_covered _ fun hcovered => ?_).symm
    have hlt := hcovered.bounds.2
    omega

theorem stopAll_packPayload {types : Members} {vs : Values types} {payload : List UInt8}
    (h : packPayload types (Values.toPy types vs) = .ok payload) :
    8 * payload.length = alignUp (stopAll (piecesMembers types vs) 0) := by
  obtain ⟨buffer, offset, hpack, rfl⟩ := packPayload_eq_ok h
  obtain ⟨-, hlength, hstop, hfits⟩ := packMembers_writes types vs _ (.inl rfl) _ _ _ _ hpack
  change offset.bits = stopAll _ 0 at hstop
  have hfit := hfits (Nat.zero_le _)
  have hbytes := MemUnit.bytes_eq offset
  rw [List.length_take, ← hstop, alignUp]
  omega

/-- Run on the same contents, the generated store calls leave the layout of the Python writer in
what was at the destination. -/
theorem storeCalls_packed {types : Members} {vs : Values types} {payload : List UInt8}
    (htypes : types.areParameters = true)
    (hpack : packPayload types (Values.toPy types vs) = .ok payload)
    (hshort : payload.length ≤ 2 ^ 16) {m : Machine} {dest : ℕ} {cs : CValues types}
    (hcs : RepresentsAll m.mem dest (dest + payload.length) types vs cs) :
    (storeCalls m dest types cs).2 = dest + payload.length ∧
      (storeCalls m dest types cs).1.mem = writeAll m.mem (8 * dest) (piecesMembers types vs) ∧
      StoresWithin m (storeCalls m dest types cs).1 dest (dest + payload.length) := by
  obtain ⟨buffer, offset, hmembers, -⟩ := packPayload_eq_ok hpack
  have hshift := stopAll_shift (piecesMembers types vs) dest 0
  have hlength := stopAll_packPayload hpack
  obtain ⟨hsame, hend⟩ :=
    storedPiecesAll_parameters htypes (structsFlat_of_packMembers hmembers) vs dest
  have hstored : stopAll (storedPiecesAll types (Values.contents types vs)) (8 * dest) =
      8 * (dest + payload.length) := by
    rw [hend, Nat.mul_add, hlength, ← alignUp_add, ← hshift, Nat.add_zero]
  have hstable := RepresentsAll.stable types vs cs hcs le_rfl (by omega) hstored.le
  obtain ⟨hmem, hpos, hwithin⟩ := storeCalls_layout htypes hstable le_rfl
    (by rw [hcs.contents_eq]; exact hstored.le)
  rw [hcs.contents_eq, hsame] at hmem
  rw [hcs.contents_eq, hstored] at hpos
  have hdest : (storeCalls m dest types cs).2 = dest + payload.length := by omega
  exact ⟨hdest, hmem, hdest ▸ hwithin⟩

def StoresPayload (m : Machine) (dest : ℕ) (types : Members) (cs : CValues types)
    (payload : List UInt8) : Prop :=
  (storeCalls m dest types cs).2 = dest + payload.length ∧
    (storeCalls m dest types cs).1.mem = ByteMemory.write m.mem dest payload

/-- The bytes that a program left behind are a payload if it stored nothing elsewhere. -/
theorem mem_eq_write_iff {m m' : Machine} {dest : ℕ} {payload : List UInt8}
    (hwithin : StoresWithin m m' dest (dest + payload.length)) :
    m'.mem = ByteMemory.write m.mem dest payload ↔
      read m'.mem dest payload.length = payload := by
  constructor
  · intro hmem
    rw [hmem, read_write_self]
  · intro hread
    rw [← hread]
    funext a
    by_cases ha : dest ≤ a ∧ a < dest + payload.length
    · have hbyte : (read m'.mem dest payload.length).getD (a - dest) 0 = m'.mem a := by
        rw [getD_read _ (by omega), Nat.add_sub_cancel' ha.1]
      rw [write_of_mem _ ha.1 (by rw [length_read]; exact ha.2), hbyte]
    · rw [hwithin.mem_eq a (by omega), ByteMemory.write, if_neg (by rw [length_read]; omega)]

/-- The bit field functions keep the bits around a field, so the two payloads are the same exactly
if the bits of the destination that belong to no field are zero. -/
theorem storeCalls_refine_packPayload_iff {types : Members} {vs : Values types}
    {payload : List UInt8} (htypes : types.areParameters = true)
    (hpack : packPayload types (Values.toPy types vs) = .ok payload) (hlen : payload.length ≤ 1020)
    {m : Machine} {dest : ℕ} {cs : CValues types}
    (hcs : RepresentsAll m.mem dest (dest + payload.length) types vs cs) :
    StoresPayload m dest types cs payload ↔
      ∀ i < 8 * payload.length, ¬ Covered (piecesMembers types vs) 0 i →
        bitAt m.mem (8 * dest + i) = false := by
  obtain ⟨hend, hmem, hwithin⟩ := storeCalls_packed htypes hpack (by omega) hcs
  have hinside := (le_alignUp _).trans (stopAll_packPayload hpack).ge
  have hbytes : StoresPayload m dest types cs payload ↔
      writeAll (ofList (read m.mem dest payload.length)) 0 (piecesMembers types vs) =
        writeAll (fun _ => 0) 0 (piecesMembers types vs) := by
    rw [StoresPayload, and_iff_right hend, mem_eq_write_iff hwithin, hmem,
      ← ofList_read_writeAll _ _ _ hinside, ← ofList_packPayload hpack]
    exact ⟨congrArg ofList, eq_of_ofList (length_read _ _ _)⟩
  rw [hbytes, writeAll_eq_iff]
  apply forall_congr'
  intro i
  rw [bitAt_ofList_read, bitAt_zero]
  by_cases hi : i < 8 * payload.length
  · simp only [hi, if_true, true_imp_iff]
  · simp only [hi, if_false, false_imp_iff, implies_true]

def reading : Members :=
  .ofTypes [.num .u16, .struct "Reading"
    (.cons "flags" (.bitU 3) (.cons "samples" (.list .u16) .nil))]

def readingValues : Values reading := (0x1234#16, (5#3, [0xABCD#16, 1#16], ()), ())

def readingMachine : Machine := ⟨ByteMemory.write (fun _ => 0) 2000 [0xAB, 0xCD, 0, 1], [], [], []⟩

def readingCValues : CValues reading := (0x1234#16, (5#3, ⟨2000, 2⟩, ()), ())

theorem represents_reading :
    RepresentsAll readingMachine.mem 100 109 reading readingValues readingCValues :=
  ⟨rfl, ⟨rfl, ⟨by decide, by decide, by decide⟩, trivial⟩, trivial⟩

theorem storeCalls_refine_packPayload_reading :
    StoresPayload readingMachine 100 reading readingCValues
      [0x12, 0x34, 0xA0, 0, 4, 0xAB, 0xCD, 0, 1] := by
  have hpack : packPayload reading (Values.toPy reading readingValues) =
      .ok [0x12, 0x34, 0xA0, 0, 4, 0xAB, 0xCD, 0, 1] := by decide +kernel
  have hzero : ∀ i < 8 * 9, bitAt readingMachine.mem (8 * 100 + i) = false := by decide +kernel
  exact (storeCalls_refine_packPayload_iff (by decide) hpack (by decide) represents_reading).mpr
    fun i hi _ => hzero i hi

def reusedMachine : Machine :=
  ⟨ByteMemory.write readingMachine.mem 100 (List.replicate 9 255), [], [], []⟩

/-- The five bits behind the bit field stay. -/
theorem not_storesPayload_reused :
    packPayload reading (Values.toPy reading readingValues) =
        .ok [0x12, 0x34, 0xA0, 0, 4, 0xAB, 0xCD, 0, 1] ∧
      RepresentsAll reusedMachine.mem 100 109 reading readingValues readingCValues ∧
      read (storeCalls reusedMachine 100 reading readingCValues).1.mem 100 9 =
        [0x12, 0x34, 0xBF, 0, 4, 0xAB, 0xCD, 0, 1] ∧
      ¬ StoresPayload reusedMachine 100 reading readingCValues
        [0x12, 0x34, 0xA0, 0, 4, 0xAB, 0xCD, 0, 1] := by
  have hread : read (storeCalls reusedMachine 100 reading readingCValues).1.mem 100 9 =
      [0x12, 0x34, 0xBF, 0, 4, 0xAB, 0xCD, 0, 1] := by decide +kernel
  refine ⟨by decide +kernel, ⟨rfl, ⟨rfl, ⟨by decide, by decide, by decide⟩, trivial⟩, trivial⟩,
    hread, fun hstores => ?_⟩
  have hpayload := read_write_self reusedMachine.mem 100 [0x12, 0x34, 0xA0, 0, 4, 0xAB, 0xCD, 0, 1]
  rw [hstores.2] at hread
  cases hread.symm.trans hpayload

end CompostRpc
