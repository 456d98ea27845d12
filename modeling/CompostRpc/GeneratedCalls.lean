import CompostRpc.CsMessageSizes
import CompostRpc.GeneratedObjects
import CompostRpc.PackRefinesStore

/-!
# Calls of generated methods

A generated method makes a message of the objects of its arguments, and Python one of the values
that they stand for. The two are the same bytes, if no field is shifted by an alignment at a struct
and the C# message has room for the other alignments, which are not counted for it.
-/

namespace CompostRpc
open ByteMemory Piece Serialization CSharpCodeGenerator

def AllSized (ts : List CsType) : Prop :=
  ∀ t ∈ ts, Sized (isTypeStatic t) (getTypeSize t) (getObjectSize t) (csBits t)

theorem AllSized.exists_ofTypes {ts : List CsType} (h : AllSized ts) (size : BufferUnit) :
    ∃ shape, MessageShape.ofTypes size ts = .ok shape := by
  induction ts generalizing size with
  | nil => exact ⟨_, rfl⟩
  | cons t ts ih =>
    rw [MessageShape.ofTypes]
    rcases (h t List.mem_cons_self).type with hdynamic | ⟨hfixed, n, hsize, -⟩
    · rw [hdynamic]
      exact ⟨_, rfl⟩
    · rw [hfixed, hsize]
      exact ih (fun t ht => h t (List.mem_cons_of_mem _ ht)) _

theorem AllSized.getCollectionSize_eq {ts : List CsType} (h : AllSized ts)
    (xs : CsValues (.ofTypes ts)) :
    getCollectionSize (arguments ts xs) = .ok ⟨csBitsAll (.ofTypes ts) xs⟩ := by
  induction ts with
  | nil => rfl
  | cons t ts ih =>
    have hfirst := (h t List.mem_cons_self).object (Prod.fst xs)
    have hothers := ih (fun t ht => h t (List.mem_cons_of_mem _ ht)) (Prod.snd xs)
    rw [arguments, getCollectionSize, hfirst, hothers]
    rfl

theorem AllSized.chosenSize_eq {ts : List CsType} (h : AllSized ts) (xs : CsValues (.ofTypes ts)) :
    chosenSize (arguments ts xs) = .ok ⟨csBitsAll (.ofTypes ts) xs⟩ := by
  obtain ⟨shape, hshape⟩ := h.exists_ofTypes ⟨0⟩
  have hfrom : MessageShape.fromArguments (arguments ts xs) = .ok shape := by
    rw [MessageShape.fromArguments, map_fst_arguments]
    exact hshape
  rw [chosenSize, hfrom, except_ok_bind]
  cases hfixed : shape.isFixedSize with
  | true =>
    rw [if_pos rfl, ← h.getCollectionSize_eq xs]
    exact (getCollectionSize_of_fixed hfrom hfixed).symm
  | false => exact h.getCollectionSize_eq xs

theorem allSized_parameterTypes {ms : Members}
    (husable : (CsProperties.ofTypes (parameterTypes ms)).noPackedULong = true) :
    AllSized (parameterTypes ms) := by
  induction ms using Members.induction with
  | nil => exact fun t ht => absurd ht List.not_mem_nil
  | cons name t rest ih =>
    obtain ⟨hfirst, hrest⟩ := Bool.and_eq_true_iff.mp husable
    intro s hs
    rcases List.mem_cons.mp hs with rfl | hs
    · exact type_sized t hfirst
    · exact ih hrest s hs

theorem constructMessage_eq {args : List CsObject} {size : BufferUnit}
    (hsize : chosenSize args = .ok size) (txn : UInt8) (rpcId : UInt16) (resp : Bool) :
    constructMessage txn rpcId resp args = fillMessage ⟨size, txn, rpcId, resp⟩ args := by
  obtain ⟨shape, hshape, hchosen⟩ := except_bind_eq_ok.mp hsize
  rw [constructMessage, hshape, except_ok_bind, serializeMessage_eq, hchosen, except_ok_bind]

/-- If the layout of the objects is that of a payload, then their message is made where their
counted words have room for the payload, and is the message with this payload. -/
theorem fillMessage_iff_payload {ts : List CsType} {xs : CsValues (.ofTypes ts)}
    (hpackable : PropertiesPackable (.ofTypes ts) xs) {payload : List UInt8}
    (hmemory : ofList payload = writeAll (fun _ => 0) 0 (csPropertiesPieces (.ofTypes ts) xs))
    (hstop : alignUp (stopAll (csPropertiesPieces (.ofTypes ts) xs) 0) = 8 * payload.length)
    (hlimit : payload.length ≤ payloadLimit) {size : BufferUnit}
    (hsize : size.bits ≤ stopAll (csPropertiesPieces (.ofTypes ts) xs) 0) {rpcId : ℕ}
    (hid : rpcId < 4096) (txn : UInt8) (resp : Bool) (request : List UInt8) :
    fillMessage ⟨size, txn, UInt16.ofNat rpcId, resp⟩ (arguments ts xs) = .ok request ↔
      payload.length ≤ 4 * size.words ∧ request = payloadMessage txn resp rpcId payload := by
  have hup := le_alignUp (stopAll (csPropertiesPieces (.ofTypes ts) xs) 0)
  have hcounted : size.words ≤ (payload.length + 3) / 4 := by
    rw [BufferUnit.words]
    omega
  have hmade : ∀ r, fillMessage ⟨size, txn, UInt16.ofNat rpcId, resp⟩ (arguments ts xs) = .ok r →
      payload.length ≤ 4 * size.words ∧ r = payloadMessage txn resp rpcId payload := by
    intro r hr
    obtain ⟨-, hinside, hheader, hlength, hbody⟩ := isObjectMessage_of_fillMessage hpackable hid hr
    have hroom : payload.length ≤ 4 * size.words := by
      unfold alignUp at hstop
      omega
    have hwords : size.words = (payload.length + 3) / 4 := by omega
    refine ⟨hroom, ?_⟩
    rw [hheader, payloadMessage, hwords]
    refine congrArg _ (eq_of_ofList ?_ ?_)
    · rw [hlength, List.length_append, List.length_replicate]
      omega
    · rw [ofList_append_replicate, hbody, hmemory]
  constructor
  · exact hmade request
  · rintro ⟨hroom, rfl⟩
    have hbits : size.bits ≤ messageBodyLimit.bits := by
      change size.bits ≤ 255 * 32
      rw [payloadLimit] at hlimit
      omega
    obtain ⟨r, hr⟩ := exists_fillMessage hpackable hbits (by omega) txn rpcId resp
    rw [hr, (hmade r hr).2]

/-- Where no field is shifted, the format without alignments is that of Python. -/
theorem formats_agree {ms : Members} (hms : ms.areParameters = true) (hflat : ms.structsFlat = true)
    (hsettles : (settleAll noMarks .aligned ms).isSome = true) (vs : Values ms) (m : ByteMemory) :
    writeAll m 0 (honoured noMarks (markedPiecesAll ms (Values.contents ms vs))) =
        writeAll m 0 (piecesMembers ms vs) ∧
      alignUp (stopAll (honoured noMarks (markedPiecesAll ms (Values.contents ms vs))) 0) =
        alignUp (stopAll (piecesMembers ms vs) 0) := by
  obtain ⟨s, hs⟩ := Option.isSome_iff_exists.mp hsettles
  have hwalk := (walk_markedPiecesAll noMarks .aligned ms (Values.contents ms vs)).trans hs
  have haligned : Stand.aligned.At 0 0 := Stand.at_aligned rfl
  obtain ⟨hwrite, hstop⟩ := walk_same hwalk haligned
  obtain ⟨hstored, hend⟩ := storedPiecesAll_parameters hms hflat vs 0
  refine ⟨(hwrite m).symm.trans (hstored m), ?_⟩
  rw [← hstop.alignUp_eq]
  exact (congrArg alignUp hend).trans (alignUp_alignUp _)

theorem encodedSize_eq (types : Members) (vs : Values types) :
    8 * encodedSize types vs = alignUp (stopAll (piecesMembers types vs) 0) := rfl

def gain : EnumType where
  name := "Gain"
  backing := .bitU 5
  variants := [("LOW", 1), ("HIGH", 17)]
  inRange := by decide

def reportRpc : Rpc where
  rpcId := 12
  params := .ofTypes [.str, .struct "Sample" (.cons "flags" (.bitU 3) (.cons "gain" (.enum gain)
    (.cons "values" (.list .u16) .nil)))]
  ret := some (.num .i16)
  isNotification := false
  direction := .toRemote
  rpcId_le := by decide
  params_areParameters := by decide
  ret_isParameter := by decide
  notification_ret := by decide

def reportValues : Values reportRpc.params :=
  ("AB", (2#3, ⟨17, by decide⟩, [0xABCD#16, 1#16], ()), ())

end CompostRpc
