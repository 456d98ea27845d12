import CompostRpc.NestedBitFields
import CompostRpc.PayloadLayout

/-!
# The payloads of C# and C

The store calls of the C code align at the start and at the end of every struct and write whole
bytes. The constructor of a C# message does not align at a class, and takes a buffer for the bits of
the arguments alone. The two payloads agree for all values of the packed properties exactly if no
packed property is placed differently, the C# message can be made and the bits between the fields
are zero in C.
-/

namespace CompostRpc
open ByteMemory Piece Serialization

theorem ofList_append_replicate (bytes : List UInt8) (n : ℕ) :
    ofList (bytes ++ List.replicate n 0) = ofList bytes := by
  funext i
  by_cases hi : i < bytes.length
  · exact ofList_append_of_lt hi
  · have hzeros := congrFun (ofList_replicate n) (i - bytes.length)
    have hdefault : ofList bytes i = 0 := List.getD_eq_default _ _ (by omega)
    rw [hdefault]
    exact (List.getD_append_right _ _ _ _ (by omega)).trans hzeros

/-- C values for the arguments of a call, with their slices outside the destination. -/
structure StandsFor (m : Machine) (dest : ℕ) (ps : CsProperties) (xs : CsValues ps)
    (cs : CValues ps.wireAll) : Prop where
  contents_eq : contentsAll m.mem ps.wireAll cs = csContentsAll ps xs
  outside : ∀ r ∈ slicesAll ps.wireAll cs, Separate dest (storeCalls m dest ps.wireAll cs).2 r

def storedBytes (m : Machine) (dest : ℕ) (ms : Members) (cs : CValues ms) : List UInt8 :=
  read (storeCalls m dest ms cs).1.mem dest ((storeCalls m dest ms cs).2 - dest)

/-- For these arguments and all that differ from them in packed properties only, the payload of the
C# message is what the store calls write, up to zeros behind it. -/
def PayloadsAgree (txn : UInt8) (rpcId : UInt16) (resp : Bool) (m : Machine) (dest : ℕ)
    (ts : List CsType) (xs : CsValues (.ofTypes ts)) : Prop :=
  ∀ ys cs, SameUnpackedAll (.ofTypes ts) xs ys → AllPacksFit (.ofTypes ts) ys →
    StandsFor m dest (.ofTypes ts) ys cs →
    ∃ k, messagePayload txn rpcId resp (arguments ts ys) =
      .ok (storedBytes m dest (CsProperties.ofTypes ts).wireAll cs ++ List.replicate k 0)

theorem wire_isParameter (t : CsType) : t.wire.isParameter = true := by
  cases t <;> rfl

theorem wireAll_areParameters (ts : List CsType) :
    (CsProperties.ofTypes ts).wireAll.areParameters = true := by
  induction ts with
  | nil => rfl
  | cons t ts ih =>
    simp only [CsProperties.ofTypes, CsProperties.wireAll, Members.areParameters,
      wire_isParameter, ih, Bool.and_self]

/-- The bytes written in C are the layout with all alignments in the bytes that were there. -/
theorem storedBytes_layout {m : Machine} {dest : ℕ} {ts : List CsType} {xs : CsValues (.ofTypes ts)}
    {cs : CValues (CsProperties.ofTypes ts).wireAll}
    (hw : (CsProperties.ofTypes ts).haveWire = true)
    (hbits : csBitsAll (.ofTypes ts) xs < 2 ^ 16) (hc : StandsFor m dest (.ofTypes ts) xs cs) :
    8 * (storedBytes m dest (CsProperties.ofTypes ts).wireAll cs).length =
        stopAll (honoured allMarks (csTokens (.ofTypes ts) xs)) 0 ∧
      ofList (storedBytes m dest (CsProperties.ofTypes ts).wireAll cs) =
        writeAll (ofList (read m.mem dest
            (storedBytes m dest (CsProperties.ofTypes ts).wireAll cs).length)) 0
          (honoured allMarks (csTokens (.ofTypes ts) xs)) := by
  have hms := wireAll_areParameters ts
  have hshort := short_of_csBitsAll _ xs hw hbits cs hc.contents_eq
  generalize hpieces : honoured allMarks (csTokens (.ofTypes ts) xs) = ps
  have hstored : storedPiecesAll _ (contentsAll m.mem _ cs) = ps := by
    rw [hc.contents_eq, ← hpieces]
    rfl
  have hend : 8 * (storeCalls m dest _ cs).2 = stopAll ps (8 * dest) := by
    rw [← hstored]
    exact storeCalls_end hms m.mem hshort
  have hlayout : StoredLayout m dest ps (storeCalls m dest _ cs) := by
    rw [← hstored] at hend ⊢
    exact storeCalls_layout hms (fun r hr => ⟨hshort r hr, hc.outside r hr⟩) le_rfl hend.ge
  have hshift := stopAll_shift ps dest 0
  rw [Nat.add_zero] at hshift
  have hsize : stopAll ps 0 ≤ 8 * ((storeCalls m dest _ cs).2 - dest) := by omega
  rw [storedBytes, length_read, hlayout.mem_eq]
  exact ⟨by omega, ofList_read_writeAll m.mem dest _ hsize⟩

/-- The other arguments have C values as well. -/
theorem StandsFor.other {m : Machine} {dest : ℕ} {ts : List CsType} {xs ys : CsValues (.ofTypes ts)}
    {cs : CValues (CsProperties.ofTypes ts).wireAll}
    (hw : (CsProperties.ofTypes ts).haveWire = true)
    (hbits : csBitsAll (.ofTypes ts) xs < 2 ^ 16) (hc : StandsFor m dest (.ofTypes ts) xs cs)
    (hsame : SameUnpackedAll (.ofTypes ts) xs ys) : ∃ ds, StandsFor m dest (.ofTypes ts) ys ds := by
  obtain ⟨ds, hds, hslices⟩ := exists_cvalues _ xs ys hsame cs hc.contents_eq
  obtain ⟨hsize, htokens⟩ := SameUnpackedAll.size_eq _ xs ys hsame
  have hms := wireAll_areParameters ts
  have hshort := short_of_csBitsAll _ xs hw hbits cs hc.contents_eq
  have hshort' := short_of_csBitsAll _ ys hw (hsize ▸ hbits) ds hds
  have hstop : 8 * (storeCalls m dest _ ds).2 = 8 * (storeCalls m dest _ cs).2 := by
    rw [storeCalls_end hms m.mem hshort, storeCalls_end hms m.mem hshort', hds, hc.contents_eq]
    change stopAll (honoured allMarks (csTokens _ ys)) _ =
      stopAll (honoured allMarks (csTokens _ xs)) _
    rw [← stopAll_withBits _ 0, ← htokens, stopAll_withBits]
  refine ⟨ds, hds, fun r hr => ?_⟩
  rw [show (storeCalls m dest _ ds).2 = (storeCalls m dest _ cs).2 by omega]
  exact hc.outside r (hslices ▸ hr)

/-- The two payloads are the same if the C# message is made and the two layouts make the same of
the zeros in the one buffer and of the old bytes in the other. -/
theorem payloads_eq_iff {m : Machine} {dest : ℕ} {ts : List CsType} {xs : CsValues (.ofTypes ts)}
    {cs : CValues (CsProperties.ofTypes ts).wireAll}
    (hw : (CsProperties.ofTypes ts).haveWire = true) (hfit : AllPacksFit (.ofTypes ts) xs)
    (hbits : csBitsAll (.ofTypes ts) xs < 2 ^ 16) (hc : StandsFor m dest (.ofTypes ts) xs cs)
    (txn : UInt8) (rpcId : UInt16) (resp : Bool) :
    (∃ k, messagePayload txn rpcId resp (arguments ts xs) =
        .ok (storedBytes m dest _ cs ++ List.replicate k 0)) ↔
      HasMessage (.ofTypes ts) xs ∧
        stopAll (honoured allMarks (csTokens (.ofTypes ts) xs)) 0 ≤
          32 * BufferUnit.words ⟨csBitsAll (.ofTypes ts) xs⟩ ∧
        writeAll (ofList (read m.mem dest (storedBytes m dest _ cs).length)) 0
            (honoured allMarks (csTokens (.ofTypes ts) xs)) =
          writeAll (fun _ => 0) 0 (honoured noMarks (csTokens (.ofTypes ts) xs)) := by
  obtain ⟨hlength, hbytes⟩ := storedBytes_layout hw hbits hc
  have hpieces : (CsProperties.ofTypes ts).noPackedULong = true → _ := fun hp =>
    csPropertiesPieces_layout _ xs hw hp hfit hbits
  rw [← hbytes, ← hlength]
  constructor
  · rintro ⟨k, hpayload⟩
    obtain ⟨hmessage, hwords, hmemory⟩ :=
      (messagePayload_ok_iff hw hfit txn rpcId resp _).mp hpayload
    rw [List.length_append] at hwords
    rw [ofList_append_replicate, (hpieces hmessage.supported).writes] at hmemory
    exact ⟨hmessage, by omega, hmemory⟩
  · rintro ⟨hmessage, hroom, hmemory⟩
    refine ⟨4 * BufferUnit.words ⟨csBitsAll (.ofTypes ts) xs⟩ - (storedBytes m dest _ cs).length,
      (messagePayload_ok_iff hw hfit txn rpcId resp _).mpr ⟨hmessage, ?_, ?_⟩⟩
    · rw [List.length_append, List.length_replicate]
      omega
    · rw [ofList_append_replicate, (hpieces hmessage.supported).writes]
      exact hmemory

mutual

theorem SameUnpacked.refl (t : CsType) (x : CsValue t) : SameUnpacked t x x := by
  match t with
  | .bool | .char | .num n | .enum n | .string | .list element => rfl
  | .cls properties => exact SameUnpackedAll.refl properties x

theorem SameUnpackedAll.refl (ps : CsProperties) (xs : CsValues ps) : SameUnpackedAll ps xs xs := by
  match ps, xs with
  | .nil, _ => trivial
  | .cons t none rest, (x, xs) => exact ⟨SameUnpacked.refl t x, SameUnpackedAll.refl rest xs⟩
  | .cons t (some size) rest, (x, xs) => exact ⟨trivial, SameUnpackedAll.refl rest xs⟩

end

/-- The other arguments have a message of the same size. -/
theorem HasMessage.other {ts : List CsType} {xs ys : CsValues (.ofTypes ts)}
    (hw : (CsProperties.ofTypes ts).haveWire = true) (h : HasMessage (.ofTypes ts) xs)
    (hbits : csBitsAll (.ofTypes ts) xs < 2 ^ 16) (hsame : SameUnpackedAll (.ofTypes ts) xs ys)
    (hfit : AllPacksFit (.ofTypes ts) xs) (hfit' : AllPacksFit (.ofTypes ts) ys) :
    HasMessage (.ofTypes ts) ys := by
  obtain ⟨hsize, htokens⟩ := SameUnpackedAll.size_eq _ xs ys hsame
  have hlayout := csPropertiesPieces_layout _ xs hw h.supported hfit hbits
  have hlayout' := csPropertiesPieces_layout _ ys hw h.supported hfit' (hsize ▸ hbits)
  refine ⟨h.supported, hsize ▸ h.limit, ?_⟩
  rw [hlayout'.stops, ← stopAll_withBits _ 0, ← htokens, stopAll_withBits, ← hlayout.stops, ← hsize]
  exact h.inside

/-- If a packed property is placed differently, a bit in every packed property shows it. -/
theorem settles_of_payloadsAgree {ts : List CsType}
    (hw : (CsProperties.ofTypes ts).haveWire = true) {xs : CsValues (.ofTypes ts)} {m : Machine}
    {dest : ℕ} {cs : CValues (CsProperties.ofTypes ts).wireAll}
    (hbits : csBitsAll (.ofTypes ts) xs < 2 ^ 16) (hc : StandsFor m dest (.ofTypes ts) xs cs)
    {txn : UInt8} {rpcId : UInt16} {resp : Bool}
    (h : PayloadsAgree txn rpcId resp m dest ts xs) :
    (settleAll noMarks .aligned (CsProperties.ofTypes ts).wireAll).isSome = true := by
  by_contra hnone
  rw [Bool.not_eq_true, Option.isSome_eq_false_iff, Option.isNone_iff_eq_none,
    ← walk_markedPiecesAll _ _ _ (csContentsAll _ xs)] at hnone
  obtain ⟨hlength, -⟩ := storedBytes_layout hw hbits hc
  have haligned : Stand.aligned.At 0 0 := Stand.at_aligned rfl
  obtain ⟨x, hx, hdiffers⟩ :=
    exists_not_allAt hnone haligned (ofList (read m.mem dest (storedBytes m dest _ cs).length))
  obtain ⟨ys, hsame, hfit, htokens⟩ := exists_withPackedAll hx _ xs hw
  have hbits' : csBitsAll (.ofTypes ts) ys < 2 ^ 16 :=
    (SameUnpackedAll.size_eq _ xs ys hsame).1 ▸ hbits
  obtain ⟨ds, hds⟩ := hc.other hw hbits hsame
  obtain ⟨hlength', -⟩ := storedBytes_layout hw hbits' hds
  rw [htokens, stopAll_withBits, ← hlength] at hlength'
  have hsize : (storedBytes m dest _ ds).length = (storedBytes m dest _ cs).length := by omega
  obtain ⟨-, -, hwritten⟩ :=
    (payloads_eq_iff hw hfit hbits' hds txn rpcId resp).mp (h ys ds hsame hfit hds)
  rw [hsize, htokens] at hwritten
  apply hdiffers
  change AllAt (writeAll _ _ (honoured _ (withBits x (csTokens _ xs)))) _ _
  rw [hwritten]
  exact allAt_writeAll _ _ _

/-- The payloads agree for all values of the packed properties exactly if no packed property is
placed differently, the C# message is made, and the bits that C leaves between the fields are
zero. -/
theorem payloadsAgree_iff {ts : List CsType} (hw : (CsProperties.ofTypes ts).haveWire = true)
    {xs : CsValues (.ofTypes ts)} (hfit : AllPacksFit (.ofTypes ts) xs) {m : Machine} {dest : ℕ}
    {cs : CValues (CsProperties.ofTypes ts).wireAll} (hc : StandsFor m dest (.ofTypes ts) xs cs)
    (txn : UInt8) (rpcId : UInt16) (resp : Bool) :
    PayloadsAgree txn rpcId resp m dest ts xs ↔
      (settleAll noMarks .aligned (CsProperties.ofTypes ts).wireAll).isSome = true ∧
        HasMessage (.ofTypes ts) xs ∧
        ∀ i < 8 * (storedBytes m dest _ cs).length,
          ¬ Covered (storedPiecesAll _ (csContentsAll (.ofTypes ts) xs)) 0 i →
            bitAt m.mem (8 * dest + i) = false := by
  have hlimit : messageBodyLimit.bits < 2 ^ 16 := by decide
  have haligned : Stand.aligned.At 0 0 := Stand.at_aligned rfl
  have hwalk := walk_markedPiecesAll noMarks .aligned _ (csContentsAll (.ofTypes ts) xs)
  constructor
  · intro h
    obtain ⟨k, hpayload⟩ := h xs cs (SameUnpackedAll.refl _ xs) hfit hc
    have hmessage := ((messagePayload_ok_iff hw hfit txn rpcId resp _).mp hpayload).hasMessage
    have hbits := hmessage.limit.trans_lt hlimit
    have hsettles := settles_of_payloadsAgree hw hbits hc h
    obtain ⟨s, hs⟩ := Option.isSome_iff_exists.mp hsettles
    obtain ⟨hsame, -⟩ := walk_same (hwalk.trans hs) haligned
    obtain ⟨-, -, hwritten⟩ := (payloads_eq_iff hw hfit hbits hc txn rpcId resp).mp ⟨k, hpayload⟩
    have hzeros := writeAll_eq_iff.mp (hwritten.trans (hsame _).symm)
    refine ⟨hsettles, hmessage, fun i hi hcovered => ?_⟩
    have hbit := hzeros i hcovered
    rw [bitAt_ofList_read, if_pos hi] at hbit
    exact hbit.trans (bitAt_zero i)
  · rintro ⟨hsettles, hmessage, hzero⟩ ys ds hother hfit' hds
    obtain ⟨hsize, htokens⟩ := SameUnpackedAll.size_eq _ xs ys hother
    have hbits := hmessage.limit.trans_lt hlimit
    have hbits' : csBitsAll (.ofTypes ts) ys < 2 ^ 16 := hsize ▸ hbits
    have hmessage' := hmessage.other hw hbits hother hfit hfit'
    have hlayout := csPropertiesPieces_layout _ ys hw hmessage'.supported hfit' hbits'
    obtain ⟨hlength, -⟩ := storedBytes_layout hw hbits hc
    obtain ⟨hlength', -⟩ := storedBytes_layout hw hbits' hds
    rw [← stopAll_withBits _ 0, ← htokens, stopAll_withBits, ← hlength] at hlength'
    obtain ⟨s, hs⟩ := Option.isSome_iff_exists.mp hsettles
    have hwalk' := walk_markedPiecesAll noMarks .aligned _ (csContentsAll (.ofTypes ts) ys)
    obtain ⟨hsame, hstop⟩ := walk_same (hwalk'.trans hs) haligned
    refine (payloads_eq_iff hw hfit' hbits' hds txn rpcId resp).mpr ⟨hmessage', ?_, ?_⟩
    · have hinside := hmessage'.inside
      have hend := hstop.other_eq
      rw [hlayout.stops] at hinside
      change stopAll (honoured allMarks (csTokens _ ys)) 0 = if s.apart = true then
        alignUp (stopAll (honoured noMarks (csTokens _ ys)) 0)
        else stopAll (honoured noMarks (csTokens _ ys)) 0 at hend
      rw [hend]
      split
      · unfold alignUp
        omega
      · exact hinside
    · have hcount : (storedBytes m dest _ ds).length = (storedBytes m dest _ cs).length := by omega
      rw [hcount]
      refine (writeAll_eq_iff.mpr fun i hi => ?_).trans (hsame _)
      change ¬ Covered (honoured allMarks (csTokens _ ys)) 0 i at hi
      rw [← covered_withBits _ 0, ← htokens, covered_withBits] at hi
      rw [bitAt_ofList_read, bitAt_zero]
      by_cases hlt : i < 8 * (storedBytes m dest _ cs).length
      · rw [if_pos hlt]
        exact hzero i hlt hi
      · exact if_neg hlt

/-- A class with two packed properties in one byte and a list, and a number behind it. -/
def sensorArguments : List CsType :=
  [.cls (.cons (.num .u8) (some ⟨3⟩) (.cons (.num .u16) (some ⟨5⟩) (.cons (.list (.num .u16)) none
    .nil))), .num .u32]

def sensorValues : CsValues (.ofTypes sensorArguments) :=
  ((5#8, 17#16, [0xABCD#16, 1#16], ()), 7#32, ())

def sensorCValues : CValues (CsProperties.ofTypes sensorArguments).wireAll :=
  ((5#3, 17#5, ⟨2000, 2⟩, ()), 7#32, ())

def sensorMachine : Machine := ⟨ByteMemory.write (fun _ => 0) 2000 [0xAB, 0xCD, 0, 1], [], [], []⟩

theorem payloadsAgree_sensor :
    PayloadsAgree 1 9 false sensorMachine 100 sensorArguments sensorValues := by
  have hend : (storeCalls sensorMachine 100 _ sensorCValues).2 = 111 := by decide +kernel
  have hlength : (storedBytes sensorMachine 100 _ sensorCValues).length = 11 := by decide +kernel
  have hc : StandsFor sensorMachine 100 _ sensorValues sensorCValues := by
    have hslice : sliceData sensorMachine.mem .u16 ⟨2000, 2⟩ = [0xAB, 0xCD, 0, 1] := by
      decide +kernel
    have hdata : [0xABCD#16, 1#16].flatMap (elementBytes (.num .u16)) = [0xAB, 0xCD, 0, 1] := by
      decide +kernel
    refine ⟨Prod.ext (Prod.ext rfl (Prod.ext rfl (Prod.ext (hslice.trans hdata.symm) rfl))) rfl,
      fun r hr k _ => ?_⟩
    rw [show slicesAll _ sensorCValues = [(2000, 4)] from rfl, List.mem_singleton] at hr
    rw [hend, hr]
    exact .inr (by simp only; omega)
  have hfit : AllPacksFit _ sensorValues :=
    ⟨⟨by decide, by decide, trivial, trivial⟩, trivial, trivial⟩
  have hmessage : HasMessage _ sensorValues :=
    ⟨by decide +kernel, by decide +kernel, by decide +kernel⟩
  have hsettles : (settleAll noMarks .aligned
      (CsProperties.ofTypes sensorArguments).wireAll).isSome = true := by decide +kernel
  refine (payloadsAgree_iff (by decide) hfit hc 1 9 false).mpr
    ⟨hsettles, hmessage, fun i hi _ => ?_⟩
  rw [hlength] at hi
  have hzero : sensorMachine.mem ((8 * 100 + i) / 8) = 0 := by
    change ByteMemory.write (fun _ => 0) 2000 [0xAB, 0xCD, 0, 1] _ = 0
    rw [write_of_lt _ _ (by omega)]
  exact (bitAt_congr hzero).trans (bitAt_zero _)

def partedArguments : List CsType :=
  [.cls (.cons (.cls (.cons (.num .u8) (some ⟨3⟩) .nil)) none (.cons (.num .u8) (some ⟨5⟩) .nil))]

def partedValues : CsValues (.ofTypes partedArguments) := (((5#8, ()), 17#8, ()), ())

def partedCValues : CValues (CsProperties.ofTypes partedArguments).wireAll :=
  (((5#3, ()), 17#5, ()), ())

theorem not_payloadsAgree_parted :
    messagePayload 1 9 false (arguments partedArguments partedValues) = .ok [0xB1, 0, 0, 0] ∧
      storedBytes zeroMachine 100 _ partedCValues = [0xA0, 0x88] ∧
      ¬ PayloadsAgree 1 9 false zeroMachine 100 partedArguments partedValues := by
  have hpayload : messagePayload 1 9 false (arguments partedArguments partedValues) =
      .ok [0xB1, 0, 0, 0] := by decide +kernel
  have hstored : storedBytes zeroMachine 100 _ partedCValues = [0xA0, 0x88] := by decide +kernel
  have hc : StandsFor zeroMachine 100 _ partedValues partedCValues :=
    ⟨rfl, fun r hr => by cases hr⟩
  have hfit : AllPacksFit _ partedValues := ⟨⟨⟨by decide, trivial⟩, by decide, trivial⟩, trivial⟩
  refine ⟨hpayload, hstored, fun h => ?_⟩
  obtain ⟨k, hk⟩ := h partedValues partedCValues (SameUnpackedAll.refl _ _) hfit hc
  rw [hpayload, hstored] at hk
  cases Except.ok.inj hk

end CompostRpc
