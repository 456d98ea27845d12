import CompostRpc.CsOwnReplies
import CompostRpc.CsRoundTrip
import CompostRpc.PayloadAgreement
import CompostRpc.Service
import CompostRpc.UnsupportedCall

/-!
# The values of C# calls

A call serializes the objects of its arguments into the request, and deserializes what it returns
from the response. If the objects have the layout of some contents without alignment at the structs,
and no field is shifted by that alignment, then the server gets these contents. The call returns an
object if the result of the service has its layout, and the object comes back from behind the
header.
-/

namespace CompostRpc
open ByteMemory Piece Serialization TransitionRun

structure ArgumentsFor (d : Rpc) (ts : List CsType) (xs : CsValues (.ofTypes ts))
    (ds : ContentsAll d.params) : Prop where
  valid : ContentsAll.Valid d.params ds
  packable : PropertiesPackable (.ofTypes ts) xs
  layout : SameLayout (csPropertiesPieces (.ofTypes ts) xs)
    (honoured noMarks (markedPiecesAll d.params ds))

/-- The result of a method; `none` stands for a method without one. -/
def CsResult : Option CsType → Type
  | none => Unit
  | some t => CsValue t

/-- The object has the layout of the result and comes back from behind the header. -/
def ResultFor : (ret : Option WireType) → ResultContents ret → (t : Option CsType) → CsResult t →
    Prop
  | none, _, none, _ => True
  | some ret, v, some t, x => Packable t x ∧ t.packsIntegers = true ∧
    ComesBack t x MessageHeader.headerSize.bits ∧
      SameLayout (csPieces t x) (honoured noMarks (markedPieces ret v))
  | none, _, some _, _ | some _, _, none, _ => False

/-- No field of the arguments or of the result is shifted by an alignment at a struct. -/
def Rpc.isUnshifted (d : Rpc) : Bool :=
  (settleAll noMarks .aligned d.params).isSome &&
    (d.ret.all fun t => (settle noMarks .aligned t).isSome)

def headed (size : BufferUnit) (txn : UInt8) (rpcId : ℕ) (resp : Bool) : List UInt8 :=
  MessageHeader.write ⟨size, txn, UInt16.ofNat rpcId, resp⟩
    (List.replicate (4 + size.words * 4) 0) 0

theorem length_headed (size : BufferUnit) (txn : UInt8) (rpcId : ℕ) (resp : Bool) :
    (headed size txn rpcId resp).length = 4 + size.words * 4 := by
  rw [headed, length_write, List.length_replicate]

theorem take_headed {rpcId : ℕ} (hid : rpcId < 4096) (size : BufferUnit) (txn : UInt8)
    (resp : Bool) : (headed size txn rpcId resp).take 4 =
      headerBytes (UInt8.ofNat size.words) txn resp rpcId := by
  rw [headed, MessageHeader.write_headerBytes hid (by rw [List.length_replicate]; omega)]
  rfl

theorem ofList_headed (size : BufferUnit) (txn : UInt8) (rpcId : ℕ) (resp : Bool) (i : ℕ) :
    ofList (headed size txn rpcId resp) (4 + i) = 0 := by
  rw [headed, ofList_write_header, ofList_replicate]

structure IsObjectMessage (pieces : List Piece) (size : BufferUnit) (header msg : List UInt8) :
    Prop where
  limit : size.bits ≤ messageBodyLimit.bits
  inside : stopAll pieces 0 ≤ 32 * size.words
  header_append : msg = header ++ msg.drop 4
  length_eq : (msg.drop 4).length = 4 * size.words
  memory : ofList (msg.drop 4) = writeAll (fun _ => 0) 0 pieces

theorem isObjectMessage_of_fillMessage {ts : List CsType} {xs : CsValues (.ofTypes ts)}
    (hpackable : PropertiesPackable (.ofTypes ts) xs) {size : BufferUnit} {txn : UInt8} {rpcId : ℕ}
    (hid : rpcId < 4096) {resp : Bool} {msg : List UInt8}
    (h : fillMessage ⟨size, txn, UInt16.ofNat rpcId, resp⟩ (arguments ts xs) = .ok msg) :
    IsObjectMessage (csPropertiesPieces (.ofTypes ts) xs) size
      (headerBytes (UInt8.ofNat size.words) txn resp rpcId) msg := by
  obtain ⟨hlimit, next, hserialize⟩ := (fillMessage_ok_iff _ _ _).mp h
  rw [serializeEach_arguments] at hserialize
  have hplaces := serializeProperties_places (.ofTypes ts) xs hpackable
    (headed size txn rpcId resp) MessageHeader.headerSize
  have hstored : Stored (headed size txn rpcId resp) MessageHeader.headerSize _ msg next :=
    hplaces.stored _ hserialize
  have hlength := hstored.length_eq
  have hend := hstored.stop_eq
  have hfits := hstored.fits
  have hshift := stopAll_shift (csPropertiesPieces (.ofTypes ts) xs) 4 0
  have hbits : MessageHeader.headerSize.bits = 8 * 4 + 0 := rfl
  rw [hbits, hshift] at hend
  rw [length_headed] at hlength hfits
  rw [hbits] at hfits
  have hinside := hfits (by omega)
  refine ⟨hlimit, by omega, ?_, ?_, ?_⟩
  · rw [← take_headed hid, ← hstored.extended.take_eq]
    exact (List.take_append_drop 4 msg).symm
  · rw [List.length_drop]
    omega
  · exact ofList_drop_stored (ofList_headed size txn rpcId resp) hstored

/-- Objects whose layout ends inside the body have a message. -/
theorem exists_fillMessage {ts : List CsType} {xs : CsValues (.ofTypes ts)}
    (hpackable : PropertiesPackable (.ofTypes ts) xs) {size : BufferUnit}
    (hlimit : size.bits ≤ messageBodyLimit.bits)
    (hinside : stopAll (csPropertiesPieces (.ofTypes ts) xs) 0 ≤ 32 * size.words) (txn : UInt8)
    (rpcId : ℕ) (resp : Bool) :
    ∃ msg, fillMessage ⟨size, txn, UInt16.ofNat rpcId, resp⟩ (arguments ts xs) = .ok msg := by
  have hplaces := serializeProperties_places (.ofTypes ts) xs hpackable
    (headed size txn rpcId resp) MessageHeader.headerSize
  have hshift := stopAll_shift (csPropertiesPieces (.ofTypes ts) xs) 4 0
  have hbits : MessageHeader.headerSize.bits = 8 * 4 + 0 := rfl
  obtain ⟨r, hr⟩ := hplaces.returns (by rw [hbits, hshift, length_headed]; omega)
  refine ⟨r.1, (fillMessage_ok_iff _ _ _).mpr ⟨hlimit, r.2, ?_⟩⟩
  rw [serializeEach_arguments]
  exact hr

/-- The request for objects of the arguments. -/
theorem message_objects {ts : List CsType} {xs : CsValues (.ofTypes ts)}
    (hpackable : PropertiesPackable (.ofTypes ts) xs) {shape : MessageShape} {txn : UInt8}
    {rpcId : ℕ} (hid : rpcId < 4096) {request : List UInt8}
    (h : RequestArguments.message txn (UInt16.ofNat rpcId) (.objects (arguments ts xs) shape) =
      .ok request) :
    ∃ wlen body, request = headerBytes wlen txn false rpcId ++ body ∧ body.length % 4 = 0 ∧
      AllAt (ofList body) 0 (csPropertiesPieces (.ofTypes ts) xs) ∧
        stopAll (csPropertiesPieces (.ofTypes ts) xs) 0 ≤ 8 * body.length := by
  rw [RequestArguments.message, serializeMessage_eq] at h
  obtain ⟨size, -, h⟩ := except_bind_eq_ok.mp h
  obtain ⟨-, hinside, hrequest, hlength, hmemory⟩ := isObjectMessage_of_fillMessage hpackable hid h
  refine ⟨_, _, hrequest, ?_, ?_, ?_⟩
  · rw [hlength, Nat.mul_mod_right]
  · rw [hmemory]
    exact allAt_writeAll _ _ _
  · omega

/-- The server finds the arguments in the request. -/
theorem ArgumentsFor.holds {d : Rpc} {ts : List CsType} {xs : CsValues (.ofTypes ts)}
    {ds : ContentsAll d.params} (h : ArgumentsFor d ts xs ds) (hsettles : d.isUnshifted = true)
    {shape : MessageShape} {txn : UInt8} {request : List UInt8}
    (hmessage : RequestArguments.message txn (UInt16.ofNat d.rpcId)
      (.objects (arguments ts xs) shape) = .ok request) :
    ∃ wlen body, request = headerBytes wlen txn false d.rpcId ++ body ∧
      HoldsArguments d.params ds body := by
  obtain ⟨wlen, body, hrequest, hmod, hall, hinside⟩ :=
    message_objects h.packable d.rpcId_lt hmessage
  obtain ⟨s, hs⟩ := Option.isSome_iff_exists.mp (Bool.and_eq_true_iff.mp hsettles).1
  have hwalk := (walk_markedPiecesAll noMarks .aligned d.params ds).trans hs
  obtain ⟨hiff, -, hend⟩ := h.layout.unmarked hwalk (ofList body)
  refine ⟨wlen, body, hrequest, h.valid, hiff.mp hall, hend.trans ?_⟩
  unfold alignUp
  omega

/-- `Serialization.Deserialize` of the response, or nothing for a method without a result. -/
def deserializeResult : (t : Option CsType) → List UInt8 → Except CsError (CsResult t)
  | none, _ => .ok ()
  | some t, buffer => (deserialize t buffer MessageHeader.headerSize).map Prod.fst

def invokeRpcResult (identifier : UInt16) (t : Option CsType) (buffer : List UInt8) :
    Except ProtocolException (CsResult t) :=
  match MessageHeader.parse buffer 0 with
  | .error e => .error (.csError e)
  | .ok header => invokeRpcAsync identifier header (deserializeResult t buffer)

/-- An object comes back from a buffer that holds its layout. -/
theorem deserialize_of_allAt {t : CsType} {x : CsValue t} (hpackable : Packable t x)
    (hp : t.packsIntegers = true) {buffer : List UInt8} {offset : BufferUnit}
    (hback : ComesBack t x offset.bits) (hall : AllAt (ofList buffer) offset.bits (csPieces t x))
    (hinside : stopAll (csPieces t x) offset.bits ≤ 8 * buffer.length) :
    (deserialize t buffer offset).map Prod.fst = .ok x := by
  have hplaces := serialize_places t x hpackable buffer offset
  obtain ⟨r, hr⟩ := hplaces.returns hinside
  have hstored := hplaces.stored r hr
  have hbuffer : r.1 = buffer :=
    eq_of_ofList hstored.length_eq (hstored.memory.trans (allAt_iff_writeAll_eq.mp hall))
  have hread := (deserialize_iff t x hp hr (Agrees.refl r offset.bits)).mpr hback
  rw [hbuffer] at hread
  rw [hread]
  rfl

/-- Objects come back from a buffer that holds their layout. -/
theorem deserializeProperties_of_allAt {ps : CsProperties} {xs : CsValues ps}
    (hpackable : PropertiesPackable ps xs) (hp : ps.packIntegers = true) {buffer : List UInt8}
    {offset : BufferUnit} (hback : AllComeBack ps xs offset.bits)
    (hall : AllAt (ofList buffer) offset.bits (csPropertiesPieces ps xs))
    (hinside : stopAll (csPropertiesPieces ps xs) offset.bits ≤ 8 * buffer.length) :
    (deserializeProperties ps buffer offset).map Prod.fst = .ok xs := by
  have hplaces := serializeProperties_places ps xs hpackable buffer offset
  obtain ⟨r, hr⟩ := hplaces.returns hinside
  have hstored := hplaces.stored r hr
  have hbuffer : r.1 = buffer :=
    eq_of_ofList hstored.length_eq (hstored.memory.trans (allAt_iff_writeAll_eq.mp hall))
  have hread := (deserializeProperties_iff ps xs hp hr (Agrees.refl r offset.bits)).mpr hback
  rw [hbuffer] at hread
  rw [hread]
  rfl

/-- A layout at the start of the payload is found behind the header. -/
theorem allAt_behind_header {header payload : List UInt8} (hheader : header.length = payloadOffset)
    {ps : List Piece} (hall : AllAt (ofList payload) 0 ps)
    (hinside : stopAll ps 0 ≤ 8 * payload.length) :
    AllAt (ofList (header ++ payload)) MessageHeader.headerSize.bits ps ∧
      stopAll ps MessageHeader.headerSize.bits ≤ 8 * (header ++ payload).length := by
  have hpayload : read (ofList (header ++ payload)) payloadOffset payload.length = payload := by
    rw [read_ofList (by rw [List.length_append]; omega), List.drop_left' hheader, List.take_length]
  have hshift := stopAll_shift ps payloadOffset 0
  have hbits : MessageHeader.headerSize.bits = 8 * payloadOffset + 0 := rfl
  constructor
  · change AllAt _ (8 * payloadOffset) ps
    rw [← allAt_ofList_read hinside, hpayload]
    exact hall
  · rw [hbits, hshift, List.length_append]
    omega

theorem deserializeResult_of_allAt {ret : Option WireType} {v : ResultContents ret}
    {t : Option CsType} {x : CsResult t} (h : ResultFor ret v t x)
    (hsettles : (ret.all fun t => (settle noMarks .aligned t).isSome) = true)
    {header payload : List UInt8} (hheader : header.length = payloadOffset)
    (hall : AllAt (ofList payload) 0 (resultPieces ret v))
    (hinside : stopAll (resultPieces ret v) 0 ≤ 8 * payload.length) :
    deserializeResult t (header ++ payload) = .ok x := by
  match ret, t with
  | none, none => rfl
  | some ret, some t =>
    obtain ⟨hpackable, hp, hback, hlayout⟩ := h
    obtain ⟨s, hs⟩ := Option.isSome_iff_exists.mp hsettles
    have hwalk := (walk_markedPieces noMarks .aligned ret v).trans hs
    obtain ⟨hiff, hend, -⟩ := hlayout.unmarked hwalk (ofList payload)
    obtain ⟨hplace, hwithin⟩ := allAt_behind_header hheader (hiff.mpr hall) (hend.trans hinside)
    exact deserialize_of_allAt hpackable hp hback hplace hwithin

/-- The call returns the object for the result. -/
theorem Service.Answers.invokeRpcResult_eq {f : Service} {d : Rpc} {ds : ContentsAll d.params}
    {v : ResultContents d.ret} {txn : UInt8} {reply : List UInt8} (h : f.Answers d ds v txn reply)
    (hsettles : d.isUnshifted = true) {t : Option CsType} {x : CsResult t}
    (hx : ResultFor d.ret v t x) : invokeRpcResult (UInt16.ofNat d.rpcId) t reply = .ok x := by
  obtain ⟨wlen, payload, rfl, -, hall, hinside⟩ := h.message
  have hid := d.rpcId_le
  have hne : ∀ n, 0xF00 < n → n < 65536 → (UInt16.ofNat d.rpcId == UInt16.ofNat n) = false := by
    intro n hlt hn
    rw [beq_eq_false_iff_ne, Ne, ← UInt16.toNat_inj, UInt16.toNat_ofNat', UInt16.toNat_ofNat']
    omega
  have hheader : (headerBytes wlen txn true d.rpcId).length = payloadOffset := rfl
  have hresult := deserializeResult_of_allAt hx (Bool.and_eq_true_iff.mp hsettles).2 hheader hall
    hinside
  have herror : MessageHeader.isErrorResponse ⟨BufferUnit.fromWords wlen.toNat, txn,
      UInt16.ofNat d.rpcId, true⟩ = false := hne 0xFEE (by decide) (by decide)
  have hunsupported : MessageHeader.isUnsupportedResponse ⟨BufferUnit.fromWords wlen.toNat, txn,
      UInt16.ofNat d.rpcId, true⟩ = false := hne 0xFEF (by decide) (by decide)
  rw [invokeRpcResult, MessageHeader.parse_headerBytes d.rpcId_lt, hresult]
  simp only [invokeRpcAsync, herror, hunsupported, Bool.false_eq_true, if_false, ne_eq,
    not_true_eq_false]
  rfl

structure InvokedCall where
  rpcId : UInt16
  args : RequestArguments

namespace CsSystem

def invoked : CsSystemEvent → List InvokedCall
  | .invoke rpcId args => [⟨rpcId, args⟩]
  | .client _ | .serve _ | .emit _ _ _ | .deliver => []

def Made (calls : List InvokedCall) (s : CsSystem) : Prop :=
  List.Forall₂ (fun call message => ∃ txn, message = call.args.message txn call.rpcId) calls
    s.messages

variable {srv : Server}

theorem Made.step {s s' : CsSystem} {calls : List InvokedCall} (e : CsSystemEvent)
    (h : Made calls s) (hstep : CsSystem.step srv s e = some s') :
    Made (calls ++ invoked e) s' := by
  cases e with
  | invoke rpcId args =>
    obtain rfl := Option.some.inj hstep
    exact List.rel_append h (.cons ⟨_, rfl⟩ .nil)
  | client e =>
    rw [CsSystem.step] at hstep
    split_ifs at hstep with hallowed
    obtain ⟨session, -, rfl⟩ := Option.map_eq_some_iff.mp hstep
    rwa [invoked, List.append_nil]
  | serve mem =>
    obtain ⟨k, rest, request, -, -, rfl⟩ := serve_of_step hstep
    rwa [invoked, List.append_nil]
  | emit position args mem =>
    obtain ⟨bytes, -, rfl⟩ := emit_of_step hstep
    rwa [invoked, List.append_nil]
  | deliver =>
    obtain ⟨sent, rest, msg, -, -, -, rfl⟩ := deliver_of_step hstep
    rwa [invoked, List.append_nil]

theorem made_of_run {s : CsSystem} {es : List CsSystemEvent}
    (hrun : run (CsSystem.step srv) init es = some s) : Made (es.flatMap invoked) s := by
  have hinit : Made [] init := .nil
  exact run_invariant_record (fun calls s e s' h hstep => Made.step e h hstep) hinit hrun

/-- The request of a call. -/
theorem Made.message_eq {calls : List InvokedCall} {s : CsSystem} (h : Made calls s) {k : ℕ}
    {call : InvokedCall} (hcall : calls[k]? = some call) {request : List UInt8}
    (hrequest : s.message k = some request) :
    ∃ txn, call.args.message txn call.rpcId = .ok request := by
  obtain ⟨hlt, hget⟩ := List.getElem?_eq_some_iff.mp hcall
  have hlt' : k < s.messages.length := h.length_eq ▸ hlt
  obtain ⟨txn, hmessage⟩ := h.get hlt hlt'
  simp only [List.get_eq_getElem, hget] at hmessage
  rw [message, List.getElem?_eq_getElem hlt', Option.bind_some, hmessage] at hrequest
  refine ⟨txn, ?_⟩
  cases hmade : call.args.message txn call.rpcId with
  | error e =>
    rw [hmade] at hrequest
    cases hrequest
  | ok bytes =>
    rw [hmade] at hrequest
    exact congrArg Except.ok (Option.some.inj hrequest)

def putText : Rpc := textProtocol.rpcs.head (List.cons_ne_nil _ _)

def textUnits : CsValues (.ofTypes [.string]) := (([65, 66] : List UInt16), ())

def textInvocation : List CsSystemEvent :=
  [.invoke 3 (.objects (arguments [.string] textUnits) ⟨⟨0⟩, false⟩),
    .client (.session (.addTransaction 0)), .client (.session (.writeMessage 0 false)),
    .serve fun _ => 0, .deliver, .client (.session .setResponse)]

theorem textUnits_argumentsFor :
    ArgumentsFor putText [.string] textUnits (([65, 66] : List UInt8), ()) := by
  have hlayout := @string_layout [65, 66] (by decide)
  exact ⟨⟨⟨one_dvd _, by decide⟩, trivial⟩, ⟨trivial, trivial⟩, hlayout.append (.refl [])⟩

end CsSystem

end CompostRpc
