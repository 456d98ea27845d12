import CompostRpc.EndToEndAgreement
import CompostRpc.PackRefinesStore
import CompostRpc.SendValues
import CompostRpc.Service
import Mathlib.Data.List.Forall2

/-!
# The values of Python calls

A call packs its arguments, and returns what it unpacks from the response. If the handlers of the
server provide a service, then the server gets the values of the arguments, and the call returns the
value of the result that the service allows for them.
-/

namespace CompostRpc
open ByteMemory Piece TransitionRun

theorem Counted.of_short {inner : Numeric} {data : List UInt8}
    (hdvd : inner.size.bytes ∣ data.length)
    (h : ∀ bytes, .bytes bytes ∈ [counted data] → bytes.length < 2 ^ 16 + 2) :
    Counted inner data := by
  have hshort := h _ (List.mem_singleton.mpr rfl)
  rw [List.length_append, length_beBytes] at hshort
  exact ⟨hdvd, by omega⟩

mutual

/-- The contents of a value that has an encoding. -/
theorem Value.contents_valid (t : WireType) (v : Value t)
    (h : ∀ data, .bytes data ∈ pieces t v → data.length < 2 ^ 16 + 2) :
    Contents.Valid t (Value.contents t v) := by
  match t, v with
  | .num n, _ | .bitU width, _ => trivial
  | .str, s => exact .of_short (one_dvd _) h
  | .bytes, b => exact .of_short (one_dvd _) h
  | .list inner, xs =>
    have hlength := length_flatMap_beBytes inner xs
    exact .of_short (hlength ▸ Nat.dvd_mul_left _ _) h
  | .enum e, v => exact ⟨v.val, v.property, rfl⟩
  | .struct name members, vs =>
    exact Values.contents_valid members vs fun data hdata => h data (List.mem_cons_of_mem _ hdata)

theorem Values.contents_valid (ms : Members) (vs : Values ms)
    (h : ∀ data, .bytes data ∈ piecesMembers ms vs → data.length < 2 ^ 16 + 2) :
    ContentsAll.Valid ms (Values.contents ms vs) := by
  match ms, vs with
  | .nil, _ => trivial
  | .cons name t rest, (v, vs) =>
    exact ⟨Value.contents_valid t v fun data hdata => h data (List.mem_append_left _ hdata),
      Values.contents_valid rest vs fun data hdata => h data (List.mem_append_right _ hdata)⟩

end

theorem holdsArguments_of_packPayload {ms : Members} (hms : ms.areParameters = true)
    {vs : Values ms} {payload : List UInt8} (trailing : List UInt8)
    (h : packPayload ms (Values.toPy ms vs) = .ok payload) :
    HoldsArguments ms (Values.contents ms vs) (payload ++ trailing) := by
  obtain ⟨hall, hinside, hshort⟩ := packPayload_held trailing h
  obtain ⟨buffer, offset, hpack, -⟩ := packPayload_eq_ok h
  obtain ⟨hwrite, hstop⟩ := storedPiecesAll_parameters hms (structsFlat_of_packMembers hpack) vs 0
  refine ⟨Values.contents_valid ms vs hshort, ?_, ?_⟩
  · rw [allAt_iff_writeAll_eq]
    exact (hwrite _).trans (allAt_iff_writeAll_eq.mp hall)
  · rw [Nat.mul_zero] at hstop
    rw [hstop, alignUp]
    omega

def respTypes : Option WireType → Members
  | none => .nil
  | some t => .ofTypes [t]

/-- What `Rpc.__call__` makes of the response; `none` stands for `None`. -/
def returned (ret : Option WireType) (response : List UInt8) : Except PyError (Option PyVal) := do
  let retTuple ← unpackPayload (respTypes ret) response
  return retTuple.head?

def ResultValue : Option WireType → Type
  | none => Unit
  | some t => Value t

def ResultValue.contents : (ret : Option WireType) → ResultValue ret → ResultContents ret
  | none, _ => ()
  | some t, v => Value.contents t v

def ResultValue.toPy : (ret : Option WireType) → ResultValue ret → Option PyVal
  | none, _ => none
  | some t, v => some (Value.toPy t v)

def ReadableAll (ms : Members) : Bool :=
  numbersAlignedMembers 0 ms && (settleAll pythonMarks .aligned ms).isSome

def Readable : Option WireType → Bool
  | none => true
  | some t => numbersAligned 0 t && (settle pythonMarks .aligned t).isSome

/-- A payload with the layout of values is unpacked to them. -/
theorem unpackPayload_storedAll {ms : Members} (hread : ReadableAll ms = true) {vs : Values ms}
    {payload : List UInt8} (hlen : payload.length ≤ 1020)
    (hall : AllAt (ofList payload) 0 (storedPiecesAll ms (Values.contents ms vs)))
    (hinside : stopAll (storedPiecesAll ms (Values.contents ms vs)) 0 ≤ 8 * payload.length) :
    unpackPayload ms payload = .ok (Values.toPy ms vs) := by
  rw [ReadableAll, Bool.and_eq_true] at hread
  obtain ⟨s, hs⟩ := Option.isSome_iff_exists.mp hread.2
  have haligned : Stand.aligned.At 0 0 := Stand.at_aligned rfl
  rw [← walk_markedPiecesAll _ _ ms (Values.contents ms vs)] at hs
  have hpieces := (allAt_walk_iff hs haligned _).mp hall
  obtain ⟨-, hstop⟩ := walk_same hs haligned
  rw [← piecesMembers_eq_honoured] at hpieces hstop
  have hle : stopAll (piecesMembers ms vs) 0 ≤
      stopAll (storedPiecesAll ms (Values.contents ms vs)) 0 := by
    have hend := hstop.other_eq
    change stopAll (storedPiecesAll ms (Values.contents ms vs)) 0 = _ at hend
    have hup := le_alignUp (stopAll (piecesMembers ms vs) 0)
    split at hend <;> omega
  have hheld : Held payload 0 (piecesMembers ms vs) := by
    refine ⟨hpieces, hle.trans hinside, fun data hmem => ?_⟩
    have hshort := length_le_stopAll hmem 0
    omega
  obtain ⟨hreads, -⟩ := @unpackMembers_reads ms vs payload ⟨0⟩ hheld
  obtain ⟨hok, -⟩ := hreads hread.1
  rw [unpackPayload, hok]
  rfl

theorem Readable.readableAll {t : WireType} (hread : Readable (some t) = true) :
    ReadableAll (.ofTypes [t]) = true := by
  rw [Readable, Bool.and_eq_true] at hread
  obtain ⟨s, hs⟩ := Option.isSome_iff_exists.mp hread.2
  simp only [ReadableAll, Members.ofTypes, numbersAlignedMembers, settleAll, hread.1, hs,
    Bool.and_self, Option.bind_some, Option.isSome_some]

theorem unpackPayload_stored {t : WireType} (hread : Readable (some t) = true) {v : Value t}
    {payload : List UInt8} (hlen : payload.length ≤ 1020)
    (hall : AllAt (ofList payload) 0 (storedPieces t (Value.contents t v)))
    (hinside : stopAll (storedPieces t (Value.contents t v)) 0 ≤ 8 * payload.length) :
    unpackPayload (.ofTypes [t]) payload = .ok [Value.toPy t v] := by
  have hone : storedPiecesAll (.ofTypes [t]) (Values.contents (.ofTypes [t]) (v, ())) =
      storedPieces t (Value.contents t v) :=
    (storedPiecesAll_cons ..).trans (List.append_nil _)
  rw [← hone] at hall hinside
  exact unpackPayload_storedAll (Readable.readableAll hread) hlen hall hinside

theorem returned_stored {ret : Option WireType} (hread : Readable ret = true)
    {w : ResultValue ret} {payload : List UInt8} (hlen : payload.length ≤ 1020)
    (hall : AllAt (ofList payload) 0 (resultPieces ret (ResultValue.contents ret w)))
    (hinside : stopAll (resultPieces ret (ResultValue.contents ret w)) 0 ≤ 8 * payload.length) :
    returned ret payload = .ok (ResultValue.toPy ret w) := by
  cases ret with
  | none => rfl
  | some t =>
    have hunpack := unpackPayload_stored hread hlen hall hinside
    simp only [returned, respTypes, hunpack]
    rfl

/-- The call returns the value of the result. -/
theorem Service.Answers.returned_eq {f : Service} {d : Rpc} {ds : ContentsAll d.params}
    {v : ResultContents d.ret} {txn : UInt8} {reply : List UInt8} (h : f.Answers d ds v txn reply)
    (hread : Readable d.ret = true) {w : ResultValue d.ret}
    (hw : ResultValue.contents d.ret w = v) :
    returned d.ret (reply.drop 4) = .ok (ResultValue.toPy d.ret w) := by
  obtain ⟨wlen, payload, rfl, hlength, hall, hinside⟩ := h.message
  have hdrop : (headerBytes wlen txn true d.rpcId ++ payload).drop 4 = payload := rfl
  have hwlen := wlen.toNat_lt
  rw [← hw] at hall hinside
  rw [hdrop]
  exact returned_stored hread (by omega) hall hinside

structure MadeCall where
  rpc : Rpc
  data : List UInt8

namespace System

variable (srv : Server)

/-- The calls of the event that wait for a response; too many arguments are refused. -/
def made : SystemEvent → List MadeCall
  | .call position data =>
    match srv.protocol.rpcs[position]? with
    | some d => if d.isNotification || payloadLimit < data.length then [] else [⟨d, data⟩]
    | none => []
  | .checkListener | .get | .serve _ | .emit _ _ _ | .deliver _ => []

def isCallRequest (request : List UInt8) : Bool := request.getD 1 0 != 0

def callRequests (s : System) : List (List UInt8) :=
  (s.served.map Served.request ++ s.requests).filter isCallRequest

def SentAs (c : MadeCall) (request : List UInt8) : Prop :=
  ∃ len txn trailing, txn ≠ 0 ∧
    request = headerBytes len txn false c.rpc.rpcId ++ (c.data ++ trailing)

structure Recorded (calls : List MadeCall) (s : System) : Prop where
  known : ∀ c ∈ calls, c.rpc ∈ srv.protocol.rpcs ∧ c.rpc.isNotification = false
  sent : List.Forall₂ SentAs calls s.callRequests
  served : ∀ v ∈ s.served, ∃ mem, v.reply = srv.serve mem v.request

variable {srv}

theorem packed_eq_nil {txn : ℕ} (hlt : txn < 256) (d : Rpc) {data : List UInt8}
    (hlen : payloadLimit < data.length) : packed txn d data = [] := by
  cases hpack : (Msg.fromData txn false d.rpcId data).pack with
  | error e => rw [packed, hpack]; rfl
  | ok msg =>
    have htxn : (UInt8.ofNat txn).toNat = txn := by rw [UInt8.toNat_ofNat', Nat.mod_eq_of_lt hlt]
    rw [← htxn] at hpack
    exact absurd ((exists_pack_fromData_iff _ _ _ _).mp ⟨msg, hpack⟩) (Nat.not_le.mpr hlen)

theorem packed_sentAs {txn : ℕ} (hpos : 0 < txn) (hlt : txn < 256) (d : Rpc) {data : List UInt8}
    (hlen : data.length ≤ payloadLimit) :
    ∃ request, packed txn d data = [request] ∧ SentAs ⟨d, data⟩ request := by
  have htxn : (UInt8.ofNat txn).toNat = txn := by rw [UInt8.toNat_ofNat', Nat.mod_eq_of_lt hlt]
  obtain ⟨msg, hpack⟩ := (exists_pack_fromData_iff (UInt8.ofNat txn) false d.rpcId data).mpr hlen
  have hmessage := isMessage_of_pack hpack
  rw [htxn] at hpack
  obtain ⟨-, len, body, rfl⟩ := Msg.pack_fromData d.rpcId_lt hpack
  obtain rfl : body = _ := hmessage.padding
  exact ⟨_, by rw [packed, hpack]; rfl, len, UInt8.ofNat txn, _, Server.ofNat_ne_zero hpos hlt, rfl⟩

theorem isCallRequest_of_sentAs {c : MadeCall} {request : List UInt8} (h : SentAs c request) :
    isCallRequest request = true := by
  obtain ⟨len, txn, trailing, htxn, rfl⟩ := h
  exact bne_iff_ne.mpr htxn

theorem isCallRequest_notification {d : Rpc} {data request : List UInt8}
    (h : request ∈ packed 0 d data) : isCallRequest request = false := by
  rcases packed_cases 0 d data with ⟨hnone, -⟩ | ⟨len, body, hone, -⟩
  · rw [hnone] at h
    cases h
  · rw [hone, List.mem_singleton] at h
    subst h
    rfl

theorem callRequests_call {s s' : System} {c : Client} {requests : List (List UInt8)}
    (hs' : s' = { s with client := c, requests := s.requests ++ requests }) :
    s'.callRequests = s.callRequests ++ requests.filter isCallRequest := by
  subst hs'
  simp only [callRequests, List.filter_append, List.append_assoc]

theorem Recorded.call {s s' : System} {calls : List MadeCall} (h : Recorded srv calls s) {d : Rpc}
    (hd : d ∈ srv.protocol.rpcs) {data : List UInt8} (hstep : s.call srv d data = some s') :
    Recorded srv (calls ++
      if d.isNotification || payloadLimit < data.length then [] else [⟨d, data⟩]) s' := by
  rw [System.call] at hstep
  cases hnotification : d.isNotification with
  | true =>
    rw [hnotification, if_pos rfl] at hstep
    obtain ⟨c, -, hs'⟩ := Option.map_eq_some_iff.mp hstep
    have hnone : (packed 0 d data).filter isCallRequest = [] :=
      List.filter_eq_nil_iff.mpr fun request hrequest => by
        rw [isCallRequest_notification hrequest]
        exact Bool.false_ne_true
    simp only [Bool.true_or, if_true, List.append_nil]
    refine ⟨h.known, ?_, hs' ▸ h.served⟩
    rw [callRequests_call hs'.symm, hnone, List.append_nil]
    exact h.sent
  | false =>
    rw [hnotification, if_neg Bool.false_ne_true] at hstep
    obtain ⟨c, -, hs'⟩ := Option.map_eq_some_iff.mp hstep
    obtain ⟨hpos, hlt⟩ := nextTxn_bounds s.client.lastTxn
    by_cases hlen : payloadLimit < data.length
    · simp only [hlen, decide_true, Bool.or_true, if_true, List.append_nil]
      refine ⟨h.known, ?_, hs' ▸ h.served⟩
      rw [callRequests_call hs'.symm, packed_eq_nil hlt d hlen, List.filter_nil, List.append_nil]
      exact h.sent
    · simp only [hlen, decide_false, Bool.or_self, Bool.false_eq_true, if_false]
      obtain ⟨request, hone, hsent⟩ := packed_sentAs hpos hlt d (Nat.not_lt.mp hlen)
      refine ⟨?_, ?_, hs' ▸ h.served⟩
      · intro call hcall
        rcases List.mem_append.mp hcall with hold | hnew
        · exact h.known call hold
        · obtain rfl := List.mem_singleton.mp hnew
          exact ⟨hd, hnotification⟩
      · rw [callRequests_call hs'.symm, hone,
          List.filter_cons_of_pos (isCallRequest_of_sentAs hsent), List.filter_nil]
        exact List.rel_append h.sent (.cons hsent .nil)

/-- A step that makes no call leaves the requests as they are. -/
theorem Recorded.other {s s' : System} {calls : List MadeCall} (h : Recorded srv calls s)
    (hrequests : s'.served.map Served.request ++ s'.requests =
      s.served.map Served.request ++ s.requests)
    (hserved : ∀ v ∈ s'.served, v ∈ s.served ∨ ∃ mem, v.reply = srv.serve mem v.request) :
    Recorded srv calls s' := by
  refine ⟨h.known, ?_, fun v hv => (hserved v hv).elim (h.served v) id⟩
  rw [callRequests, hrequests]
  exact h.sent

theorem Recorded.step {s s' : System} {calls : List MadeCall} (e : SystemEvent)
    (h : Recorded srv calls s) (hstep : System.step srv s e = some s') :
    Recorded srv (calls ++ made srv e) s' := by
  cases e with
  | call position data =>
    obtain ⟨d, hd, hcall⟩ := Option.bind_eq_some_iff.mp hstep
    simp only [made, hd]
    exact h.call (List.mem_of_getElem? hd) hcall
  | checkListener =>
    obtain ⟨c, -, -, rfl⟩ := step_checkListener hstep
    rw [made, List.append_nil]
    exact h.other rfl fun v hv => .inl hv
  | get =>
    obtain ⟨c, d, queue, -, -, -, rfl⟩ := step_get hstep
    rw [made, List.append_nil]
    exact h.other rfl fun v hv => .inl hv
  | serve mem =>
    obtain ⟨request, requests, hrequests, rfl⟩ := step_serve hstep
    rw [made, List.append_nil]
    refine h.other (by simp [hrequests]) fun v hv => ?_
    rcases List.mem_append.mp hv with hold | hnew
    · exact .inl hold
    · obtain rfl := List.mem_singleton.mp hnew
      exact .inr ⟨mem, rfl⟩
  | emit position args mem =>
    obtain ⟨d, -, hemit⟩ := Option.bind_eq_some_iff.mp hstep
    obtain ⟨-, hs'⟩ := Option.ite_none_right_eq_some.mp hemit
    obtain rfl := Option.some.inj hs'
    rw [made, List.append_nil]
    exact h.other rfl fun v hv => .inl hv
  | deliver subscribed =>
    obtain ⟨msgBytes, replies, -, rfl⟩ := step_deliver hstep
    rw [made, List.append_nil]
    exact h.other rfl fun v hv => .inl hv

theorem recorded_of_run {s : System} {es : List SystemEvent}
    (hrun : run (System.step srv) init es = some s) : Recorded srv (es.flatMap (made srv)) s := by
  have hinit : Recorded srv [] init := ⟨by simp, .nil, by simp [init]⟩
  exact run_invariant_record (fun calls s e s' h hstep => h.step e hstep) hinit hrun

/-- The request of a finished call, and the reply whose payload it returned. -/
theorem exists_reply_of_finished {s : System} {calls : List MadeCall} (h : Recorded srv calls s)
    (hagrees : s.Agrees) {k : ℕ} {r : FinishedCall} (hr : s.client.finished[k]? = some r) :
    ∃ c request reply mem, calls[k]? = some c ∧ SentAs c request ∧
      srv.serve mem request = some reply ∧ r.result = .ok (reply.drop 4) := by
  obtain ⟨payload, hresult, hproduced⟩ := hagrees.results k r hr
  rw [produced, List.getElem?_map] at hproduced
  obtain ⟨v, hv, hpayload⟩ := Option.map_eq_some_iff.mp hproduced
  obtain ⟨reply, hreply, rfl⟩ := Option.map_eq_some_iff.mp hpayload
  obtain ⟨mem, hserve⟩ := h.served v (List.mem_of_mem_filter (List.mem_of_getElem? hv))
  have hrequest : s.callRequests[k]? = some v.request := by
    have hlt := (List.getElem?_eq_some_iff.mp hv).1
    have hfilter : (s.served.map Served.request).filter isCallRequest =
        (s.served.filter fun v => !v.isNotification).map Served.request := by
      rw [List.filter_map]
      rfl
    rw [callRequests, List.filter_append, hfilter, List.getElem?_append_left (by simpa using hlt),
      List.getElem?_map, hv, Option.map_some]
  obtain ⟨hlt, hget⟩ := List.getElem?_eq_some_iff.mp hrequest
  have hlt' : k < calls.length := h.sent.length_eq ▸ hlt
  have hsent := h.sent.get hlt' hlt
  refine ⟨calls[k], v.request, reply, mem, List.getElem?_eq_getElem hlt', ?_,
    hserve.symm.trans hreply, hresult⟩
  rw [← hget]
  exact hsent

structure ReturnsAllowed (f : Service) (c : MadeCall) (response : List UInt8)
    (vs : Values c.rpc.params) : Prop where
  result : ∃ v, f c.rpc (Values.contents c.rpc.params vs) v ∧
    ∀ w, ResultValue.contents c.rpc.ret w = v → Readable c.rpc.ret = true →
      returned c.rpc.ret response = .ok (ResultValue.toPy c.rpc.ret w)

def textCall : List SystemEvent :=
  [.call 0 [0, 2, 65, 66], .checkListener, .serve fun _ => 0, .deliver false, .get]

end System

end CompostRpc
