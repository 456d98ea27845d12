import CompostRpc.StoreRepresentation

/-!
# Bit fields behind a nested struct

A struct of bit fields may contain structs of bit fields, to any depth. The reader returns the value
that the generated C code has stored exactly when it reads the layout of the value at the boundaries
of the Python format. So it returns every value if and only if `settle` finds no bit field that the
two programs place differently.
-/

namespace CompostRpc
open ByteMemory Piece

mutual

def WireType.bitFieldsOnly : WireType → Bool
  | .bitU _ => true
  | .struct _ members => members.bitFieldsOnly
  | _ => false

def Members.bitFieldsOnly : Members → Bool
  | .nil => true
  | .cons _ t rest => t.bitFieldsOnly && rest.bitFieldsOnly

end

theorem loads_of_unpackLoop {fuel pos width byteIndex acc val : ℕ} {payload : List UInt8}
    (hindex : 0 < width → byteIndex = pos / 8)
    (h : unpackLoop fuel payload byteIndex pos width acc = .ok val) :
    val = loadBits fuel (ofList payload) pos width acc := by
  induction fuel generalizing byteIndex pos width acc with
  | zero =>
    cases h
    rfl
  | succ fuel ih =>
    by_cases hw : width = 0
    · rw [unpackLoop, if_neg (by omega)] at h
      cases h
      rw [loadBits, if_pos hw]
    · have hbyte := hindex (by omega)
      rw [unpackLoop, if_pos (by omega)] at h
      split_ifs at h with hlen
      rw [loadBits, if_neg hw, ih (by intro hrem; omega) h, hbyte]
      rfl

/-- A bit field that was read as `v` holds `v`. -/
theorem at_of_unpackBitU {width v : ℕ} {payload : List UInt8} {offset offset' : MemUnit}
    (h : unpackBitU width payload offset = .ok (v, offset')) :
    (bits width v).At (ofList payload) offset.bits ∧ offset'.bits = offset.bits + width := by
  obtain ⟨val, hloop, heq⟩ := except_bind_eq_ok.mp h
  cases heq
  refine ⟨fun k hk => ?_, rfl⟩
  rw [loads_of_unpackLoop (fun _ => rfl) hloop, testBit_loadBits _ _ _ _ _ _ le_rfl,
    Nat.zero_testBit, Bool.false_or, decide_eq_true (by omega), Bool.true_and]
  congr 1
  omega

mutual

/-- A value of bit fields that the reader returns is laid out in the payload. -/
theorem allAt_of_unpack (t : WireType) (v : Value t) (ht : t.bitFieldsOnly = true)
    {payload : List UInt8} {offset offset' : MemUnit}
    (h : unpack payload offset t = .ok (Value.toPy t v, offset')) :
    AllAt (ofList payload) offset.bits (pieces t v) ∧
      offset'.bits = stopAll (pieces t v) offset.bits := by
  match t, v with
  | .bitU width, v =>
    obtain ⟨⟨val, o⟩, hread, heq⟩ := except_bind_eq_ok.mp h
    obtain ⟨hval, rfl⟩ := Prod.mk.inj (Except.ok.inj heq)
    obtain ⟨hat, hstop⟩ := at_of_unpackBitU hread
    rw [Int.ofNat_inj.mp (PyVal.int.inj hval)] at hat
    exact ⟨⟨hat, trivial⟩, hstop⟩
  | .struct name members, vs =>
    obtain ⟨⟨fields, o⟩, hread, heq⟩ := except_bind_eq_ok.mp h
    obtain ⟨hfields, rfl⟩ := Prod.mk.inj (Except.ok.inj heq)
    rw [PyVal.struct.inj hfields] at hread
    obtain ⟨hall, hstop⟩ := allAt_of_unpackMembers members vs ht hread
    have halign : offset.byteAlign.bits = alignUp offset.bits := MemUnit.byteAlign_bits offset
    rw [halign] at hall hstop
    refine ⟨⟨rfl, ?_⟩, ?_⟩
    · simpa only [stop, List.length_nil, Nat.mul_zero, Nat.add_zero] using hall
    · rw [hstop, pieces, stopAll_align]

theorem allAt_of_unpackMembers (ms : Members) (vs : Values ms) (hms : ms.bitFieldsOnly = true)
    {payload : List UInt8} {offset offset' : MemUnit}
    (h : unpackMembers payload offset ms = .ok (Values.toPy ms vs, offset')) :
    AllAt (ofList payload) offset.bits (piecesMembers ms vs) ∧
      offset'.bits = stopAll (piecesMembers ms vs) offset.bits := by
  match ms, vs with
  | .nil, _ =>
    cases h
    exact ⟨trivial, rfl⟩
  | .cons name t rest, (v, vs) =>
    simp only [Members.bitFieldsOnly, Bool.and_eq_true] at hms
    obtain ⟨⟨head, o⟩, hhead, htail⟩ := except_bind_eq_ok.mp h
    obtain ⟨⟨tail, o'⟩, htail, heq⟩ := except_bind_eq_ok.mp htail
    obtain ⟨hvalues, rfl⟩ := Prod.mk.inj (Except.ok.inj heq)
    obtain ⟨rfl, rfl⟩ := List.cons.inj hvalues
    obtain ⟨hall, hstop⟩ := allAt_of_unpack t v hms.1 hhead
    obtain ⟨hall', hstop'⟩ := allAt_of_unpackMembers rest vs hms.2 htail
    rw [hstop] at hall' hstop'
    exact ⟨(allAt_append _ _ _ _).mpr ⟨hall, hall'⟩, hstop'.trans (stopAll_append _ _ _).symm⟩

end

structure OnlyBits (t : WireType) : Prop where
  aligned : ∀ phase, numbersAligned phase t = true
  no_slices : ∀ c, slices t c = []
  no_bytes : ∀ v data, .bytes data ∈ pieces t v → data = []

mutual

theorem onlyBits (t : WireType) (ht : t.bitFieldsOnly = true) : OnlyBits t := by
  match t with
  | .bitU width =>
    refine ⟨fun _ => rfl, fun _ => rfl, fun v data hmem => ?_⟩
    cases List.mem_singleton.mp hmem
  | .struct name members =>
    obtain ⟨haligned, hslices, hbytes⟩ := onlyBitsAll members ht
    refine ⟨fun _ => haligned 0, hslices, fun vs data hmem => ?_⟩
    rcases List.mem_cons.mp hmem with heq | hmem
    · exact Piece.bytes.inj heq
    · exact hbytes vs data hmem

theorem onlyBitsAll (ms : Members) (hms : ms.bitFieldsOnly = true) :
    (∀ phase, numbersAlignedMembers phase ms = true) ∧ (∀ cs, slicesAll ms cs = []) ∧
      ∀ vs data, .bytes data ∈ piecesMembers ms vs → data = [] := by
  match ms with
  | .nil => exact ⟨fun _ => rfl, fun _ => rfl, fun vs data hmem => by cases hmem⟩
  | .cons name t rest =>
    simp only [Members.bitFieldsOnly, Bool.and_eq_true] at hms
    obtain ⟨haligned, hslices, hbytes⟩ := onlyBits t hms.1
    obtain ⟨haligned', hslices', hbytes'⟩ := onlyBitsAll rest hms.2
    refine ⟨fun phase => ?_, fun cs => ?_, fun vs data hmem => ?_⟩
    · rw [numbersAlignedMembers, haligned, haligned', Bool.and_true]
    · rw [slicesAll, hslices, hslices', List.append_nil]
    · rcases List.mem_append.mp hmem with hmem | hmem
      · exact hbytes _ data hmem
      · exact hbytes' _ data hmem

end

mutual

/-- There is a value with a given number in every bit field. -/
theorem exists_withBits (x : ℕ) (t : WireType) (ht : t.bitFieldsOnly = true) :
    ∃ v c, (∀ mem lo hi, Represents mem lo hi t v c) ∧
      ∀ d, markedPieces t (Value.contents t v) = withBits x (markedPieces t d) := by
  match t with
  | .bitU width =>
    refine ⟨BitVec.ofNat width x, BitVec.ofNat width x, fun mem lo hi => rfl, fun d => ?_⟩
    simp only [markedPieces, Value.contents, withBits, setBits, BitVec.toNat_ofNat]
  | .struct name members =>
    obtain ⟨vs, cs, hrepresents, hpieces⟩ := exists_withBitsAll x members ht
    refine ⟨vs, cs, hrepresents, fun ds => ?_⟩
    simp only [markedPieces, Value.contents, hpieces ds, List.cons_append, withBits,
      withBits_append]

theorem exists_withBitsAll (x : ℕ) (ms : Members) (hms : ms.bitFieldsOnly = true) :
    ∃ vs cs, (∀ mem lo hi, RepresentsAll mem lo hi ms vs cs) ∧
      ∀ ds, markedPiecesAll ms (Values.contents ms vs) = withBits x (markedPiecesAll ms ds) := by
  match ms with
  | .nil => exact ⟨(), (), fun mem lo hi => trivial, fun ds => rfl⟩
  | .cons name t rest =>
    simp only [Members.bitFieldsOnly, Bool.and_eq_true] at hms
    obtain ⟨v, c, hrepresents, hpieces⟩ := exists_withBits x t hms.1
    obtain ⟨vs, cs, hrepresents', hpieces'⟩ := exists_withBitsAll x rest hms.2
    refine ⟨(v, vs), (c, cs), fun mem lo hi => ⟨hrepresents mem lo hi, hrepresents' mem lo hi⟩,
      fun ds => ?_⟩
    simp only [markedPiecesAll, Values.contents, hpieces ds.1, hpieces' ds.2, withBits_append]

end

/-- The reader returns the value from the bytes that the store call has written for it. -/
def ReadsBack (m : Machine) (dest : ℕ) (t : WireType) (v : Value t) (c : CValue t) : Prop :=
  unpackPayload (.ofTypes [t]) (read (storeCall m dest t c).1.mem dest
    ((storeCall m dest t c).2 - dest)) = .ok [Value.toPy t v]

theorem unpackPayload_one {t : WireType} {payload : List UInt8} {value : PyVal} :
    unpackPayload (.ofTypes [t]) payload = .ok [value] ↔
      ∃ offset, unpack payload ⟨0⟩ t = .ok (value, offset) := by
  constructor
  · intro h
    obtain ⟨⟨values, o⟩, hmembers, heq⟩ := except_bind_eq_ok.mp h
    obtain ⟨⟨head, o'⟩, hhead, htail⟩ := except_bind_eq_ok.mp hmembers
    cases htail
    cases heq
    exact ⟨_, hhead⟩
  · rintro ⟨offset, h⟩
    simp only [unpackPayload, Members.ofTypes, unpackMembers, h, except_ok_bind]
    rfl

/-- Stored by the C code, a value of bit fields is laid out with an alignment at every mark. -/
theorem storeCall_bitFields {t : WireType} (ht : t.isParameter = true)
    (hbits : t.bitFieldsOnly = true) {m : Machine} {dest hi : ℕ} {v : Value t} {c : CValue t}
    (h : Represents m.mem dest hi t v c) :
    StoredLayout m dest (storedPieces t (Value.contents t v)) (storeCall m dest t c) := by
  rw [← h.contents_eq]
  have hstable : Stable dest (dest + storedSize t c) (slices t c) := by
    rw [(onlyBits t hbits).no_slices]
    intro r hr
    cases hr
  exact storeCall_layout ht hstable.kept le_rfl le_rfl

/-- The reader returns the value exactly if the memory holds the value's layout with the boundaries
of the Python format. -/
theorem readsBack_iff_allAt {t : WireType} (ht : t.isParameter = true)
    (hbits : t.bitFieldsOnly = true) {m : Machine} {dest hi : ℕ} {v : Value t} {c : CValue t}
    (h : Represents m.mem dest hi t v c) :
    ReadsBack m dest t v c ↔ AllAt (writeAll m.mem (8 * dest)
      (storedPieces t (Value.contents t v))) (8 * dest) (pieces t v) := by
  obtain ⟨hmem, hstop, -⟩ := storeCall_bitFields ht hbits h
  have hshift := stopAll_shift (pieces t v) dest 0
  rw [Nat.add_zero] at hshift
  have hlonger := stopAll_honoured_le pythonMarks (markedPieces t (Value.contents t v))
    (le_refl (8 * dest))
  rw [← pieces_eq_honoured] at hlonger
  change _ ≤ stopAll (storedPieces t _) _ at hlonger
  have hinside : stopAll (pieces t v) 0 ≤ 8 * ((storeCall m dest t c).2 - dest) := by omega
  rw [ReadsBack, unpackPayload_one, ← hmem, ← allAt_ofList_read hinside]
  constructor
  · rintro ⟨offset, hread⟩
    exact (allAt_of_unpack t v hbits hread).1
  · intro hall
    obtain ⟨haligned, -, hbytes⟩ := onlyBits t hbits
    have hheld : Held (read (storeCall m dest t c).1.mem dest ((storeCall m dest t c).2 - dest)) 0
        (pieces t v) := by
      refine ⟨hall, by rwa [length_read], fun data hmem => ?_⟩
      rw [hbytes v data hmem]
      decide
    exact ⟨_, ((unpack_reads t v hheld).read (haligned _)).1⟩

theorem readsBack_iff_settles {name : String} {members : Members}
    (hbits : members.bitFieldsOnly = true) (m : Machine) (dest : ℕ) :
    (∀ v c, Represents m.mem dest (storeCall m dest (.struct name members) c).2
        (.struct name members) v c → ReadsBack m dest (.struct name members) v c) ↔
      (settle pythonMarks .aligned (.struct name members)).isSome = true := by
  have haligned : Stand.aligned.At (8 * dest) (8 * dest) := Stand.at_aligned (by omega)
  generalize ht : WireType.struct name members = t
  replace hbits : t.bitFieldsOnly = true := ht ▸ hbits
  have hparameter : t.isParameter = true := ht ▸ rfl
  constructor
  · intro hback
    by_contra hnone
    rw [Bool.not_eq_true, Option.isSome_eq_false_iff, Option.isNone_iff_eq_none] at hnone
    obtain ⟨v₀, -⟩ := exists_withBits 0 t hbits
    rw [← walk_markedPieces _ _ t (Value.contents t v₀)] at hnone
    obtain ⟨x, -, hdiffers⟩ := exists_not_allAt hnone haligned m.mem
    obtain ⟨v, c, hc, hpieces⟩ := exists_withBits x t hbits
    rw [← hpieces, ← pieces_eq_honoured] at hdiffers
    exact hdiffers ((readsBack_iff_allAt hparameter hbits (hc _ _ 0)).mp (hback v c (hc _ _ _)))
  · intro hsome v c hc
    obtain ⟨s, hs⟩ := Option.isSome_iff_exists.mp hsome
    rw [← walk_markedPieces _ _ t (Value.contents t v)] at hs
    obtain ⟨hsame, -⟩ := walk_same hs haligned
    rw [readsBack_iff_allAt hparameter hbits hc, storedPieces, hsame, ← pieces_eq_honoured]
    exact allAt_writeAll _ _ _

def zeroMachine : Machine := ⟨fun _ => 0, [], [], []⟩

def joined : WireType :=
  .struct "Joined" (.cons "inner" (.struct "Inner" (.cons "a" (.bitU 3) (.cons "b" (.bitU 5) .nil)))
    (.cons "c" (.bitU 5) .nil))

def joinedValue : Value joined := ((5#3, 17#5, ()), 9#5, ())

def joinedCValue : CValue joined := ((5#3, 17#5, ()), 9#5, ())

theorem readsBack_joined : ReadsBack zeroMachine 100 joined joinedValue joinedCValue := by
  have hsettles : (settle pythonMarks .aligned joined).isSome = true := by decide
  have hc : Represents zeroMachine.mem 100 (storeCall zeroMachine 100 joined joinedCValue).2 joined
      joinedValue joinedCValue := ⟨⟨rfl, rfl, trivial⟩, rfl, trivial⟩
  exact (readsBack_iff_settles (by decide) zeroMachine 100).mpr hsettles _ _ hc

def parted : WireType :=
  .struct "Parted" (.cons "inner" (.struct "Inner" (.cons "a" (.bitU 3) .nil))
    (.cons "b" (.bitU 5) .nil))

def partedValue : Value parted := ((5#3, ()), 17#5, ())

def partedCValue : CValue parted := ((5#3, ()), 17#5, ())

theorem not_readsBack_parted :
    read (storeCall zeroMachine 100 parted partedCValue).1.mem 100 2 = [0xA0, 0x88] ∧
      unpackPayload (.ofTypes [parted]) [0xA0, 0x88] = .ok [.struct [.struct [.int 5], .int 0]] ∧
      ¬ ReadsBack zeroMachine 100 parted partedValue partedCValue := by
  have hbytes : read (storeCall zeroMachine 100 parted partedCValue).1.mem 100 2 =
      [0xA0, 0x88] := by decide +kernel
  have hlength : (storeCall zeroMachine 100 parted partedCValue).2 - 100 = 2 := by decide +kernel
  have hread : unpackPayload (.ofTypes [parted]) [0xA0, 0x88] =
      .ok [.struct [.struct [.int 5], .int 0]] := by rfl
  refine ⟨hbytes, hread, fun hback => ?_⟩
  simp only [ReadsBack, hlength, hbytes, hread] at hback
  have heq : [PyVal.struct [.struct [.int 5], .int 0]] = [.struct [.struct [.int 5], .int 17]] :=
    Except.ok.inj hback
  simp at heq

end CompostRpc
