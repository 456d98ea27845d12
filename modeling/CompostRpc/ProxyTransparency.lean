import Mathlib.Data.List.Forall2
import CompostRpc.TcpProxy
import CompostRpc.TransactionTable

/-!
# Transparency of the TCP proxy

The proxy is transparent in a state if each message has reached the device as it was sent, with a
number that is zero exactly for a one-way message, and the client has got the replies to its
requests, but for one that is on its way. The proxy numbers the messages itself and awaits a reply
to each of them; so it is transparent throughout a run exactly if the numbers that are zero meet the
one-way messages, these are not replied to, the transport takes the messages, and no reply comes
when the call for its request has timed out.
-/

namespace CompostRpc
open TransitionRun CsSession

namespace TcpProxy

def Stopped (s : TcpProxy) : Prop := s.handler = .ended ∨ ∃ k, s.handler = .timedOut k

def firstReply (s : TcpProxy) (i : ℕ) : Option CsMessage :=
  (s.replies.find? (·.1 == i)).map Prod.snd

def handled (s : TcpProxy) : List CsMessage :=
  match s.handler with
  | .invoking k _ => s.requests.take k
  | _ => s.requests

/-- A request with its reply, if the device has sent one. -/
def dueFor (reply : ℕ → Option CsMessage) (i : ℕ) (req : CsMessage) :
    Option (CsMessage × CsMessage) :=
  if req.txn = 0 then none else (reply i).map fun msg => (req, msg)

def dueAmong (reply : ℕ → Option CsMessage) (reqs : List CsMessage) :
    List (CsMessage × CsMessage) :=
  reqs.zipIdx.filterMap fun (req, i) => dueFor reply i req

def due (s : TcpProxy) : List (CsMessage × CsMessage) := dueAmong s.firstReply s.handled

/-- The message of the device is the message of the client under another number. -/
structure Forwards (req m : CsMessage) : Prop where
  rpcId_eq : m.rpcId = req.rpcId
  payload_eq : m.payload = req.payload
  resp_eq : m.resp = req.resp
  txn_zero_iff : m.txn = 0 ↔ req.txn = 0

/-- The message to the client is the reply of the device under the number of the request. -/
structure Answers (due : CsMessage × CsMessage) (answer : CsMessage) : Prop where
  txn_eq : answer.txn = due.1.txn
  rpcId_eq : answer.rpcId = due.2.rpcId
  payload_eq : answer.payload = due.2.payload
  resp_eq : answer.resp = true

structure Transparent (s : TcpProxy) : Prop where
  forwards : ∀ (i : ℕ) (m : CsMessage), s.toDevice[i]? = some m →
    ∃ req, s.requests[i]? = some req ∧ Forwards req m
  reached : s.handled.length ≤ s.toDevice.length
  answered : List.Forall₂ Answers s.due s.toClient
  delivers : ∀ k req, s.handler = .invoking k req → req.txn ≠ 0 → s.session.fetched = none →
    s.firstReply k ≠ none → (s.step .complete).isSome

/-- A step that keeps the proxy transparent. The number of a call is zero after 255 others. -/
def Ok (s : TcpProxy) : ProxyEvent → Prop
  | .writeMessage throws =>
    throws = false ∧ ∀ k req, s.handler = .invoking k req → ((k + 1) % 256 = 0 ↔ req.txn = 0)
  | .complete => ∀ k req, s.handler = .invoking k req → req.txn ≠ 0
  | .timeout => ∀ k req, s.handler = .invoking k req → req.txn ≠ 0 → s.firstReply k = none
  | .reply i _ _ => s.Stopped → ∀ req, s.requests[i]? = some req → req.txn ≠ 0 →
    s.firstReply i ≠ none
  | _ => True

/-- Where the message number `k` is: what its call has done, and where its reply is. -/
inductive Stage (s : TcpProxy) (k : ℕ) : Prop
  | aquired (hcall : s.session.calls[k]? = some ⟨txnIDOf k, .aquired, .pending⟩)
      (hdevice : s.toDevice.length = k) (htable : s.session.txnDict = fun _ => none)
      (hfetched : s.session.fetched = none)
  | added (hcall : s.session.calls[k]? = some ⟨txnIDOf k, .added, .pending⟩)
      (hdevice : s.toDevice.length = k)
      (htable : s.session.txnDict =
        Function.update (fun _ => none) (txnIDOf k) (some ⟨k, txnIDOf k⟩))
      (hfetched : s.session.fetched = none)
  | waiting (hcall : s.session.calls[k]? = some ⟨txnIDOf k, .written, .pending⟩)
      (hdevice : s.toDevice.length = k + 1)
      (htable : s.session.txnDict =
        Function.update (fun _ => none) (txnIDOf k) (some ⟨k, txnIDOf k⟩))
      (hfetched : s.session.fetched = none) (hreply : s.firstReply k = none)
  | fetched (msg : CsMessage)
      (hcall : s.session.calls[k]? = some ⟨txnIDOf k, .written, .pending⟩)
      (hdevice : s.toDevice.length = k + 1) (htable : s.session.txnDict = fun _ => none)
      (hfetched : s.session.fetched = some (⟨k, txnIDOf k⟩, msg))
      (hreply : s.firstReply k = some msg)
  | set (msg : CsMessage)
      (hcall : s.session.calls[k]? = some ⟨txnIDOf k, .written, .set msg⟩)
      (hdevice : s.toDevice.length = k + 1) (htable : s.session.txnDict = fun _ => none)
      (hfetched : s.session.fetched = none) (hreply : s.firstReply k = some msg)

structure Done (s : TcpProxy) (reqs : List CsMessage) : Prop where
  isRequest : ∀ req ∈ reqs, req.txn ≠ 0
  replied : ∀ i < reqs.length, s.firstReply i ≠ none

inductive Place (s : TcpProxy) : Prop
  | reading (hhandler : s.handler = .reading) (hdone : Done s s.requests)
      (hdevice : s.toDevice.length = s.requests.length)
      (htable : s.session.txnDict = fun _ => none) (hfetched : s.session.fetched = none)
  | invoking (before : List CsMessage) (req : CsMessage)
      (hhandler : s.handler = .invoking before.length req)
      (hrequests : s.requests = before ++ [req]) (hdone : Done s before)
      (hstage : Stage s before.length)
  | stopped (before : List CsMessage) (req : CsMessage) (hstopped : s.Stopped)
      (hrequests : s.requests = before ++ [req]) (hdone : Done s before)
      (hdevice : s.toDevice.length = before.length + 1)

structure Good (s : TcpProxy) : Prop where
  numbered : s.session.Numbered
  calls_length : s.session.calls.length = s.requests.length
  resp_eq : ∀ req ∈ s.requests, req.resp = false
  device_eq : ∀ (i : ℕ) (m : CsMessage), s.toDevice[i]? = some m →
    ∃ req, s.requests[i]? = some req ∧ m = forwarded (txnIDOf i) req ∧
      (txnIDOf i = 0 ↔ req.txn = 0)
  replies_lt : ∀ r ∈ s.replies, r.1 < s.toDevice.length
  answered : List.Forall₂ Answers s.due s.toClient
  place : Place s

theorem handled_reading {s : TcpProxy} (h : s.handler = .reading) : s.handled = s.requests := by
  rw [handled, h]

theorem handled_invoking {s : TcpProxy} {before : List CsMessage} {req : CsMessage}
    (h : s.handler = .invoking before.length req) (hrequests : s.requests = before ++ [req]) :
    s.handled = before := by
  rw [handled, h, hrequests]
  exact List.take_left

theorem handled_stopped {s : TcpProxy} (h : s.Stopped) : s.handled = s.requests := by
  rcases h with hended | ⟨k, htimedOut⟩
  · rw [handled, hended]
  · rw [handled, htimedOut]

theorem not_stopped_reading {s : TcpProxy} (h : s.handler = .reading) : ¬ s.Stopped := by
  rintro (hended | ⟨k, htimedOut⟩)
  · cases h.symm.trans hended
  · cases h.symm.trans htimedOut

theorem not_stopped_invoking {s : TcpProxy} {k : ℕ} {req : CsMessage}
    (h : s.handler = .invoking k req) : ¬ s.Stopped := by
  rintro (hended | ⟨k, htimedOut⟩)
  · cases h.symm.trans hended
  · cases h.symm.trans htimedOut

theorem dueAmong_concat (reply : ℕ → Option CsMessage) (before : List CsMessage)
    (req : CsMessage) : dueAmong reply (before ++ [req]) =
      dueAmong reply before ++ (dueFor reply before.length req).toList := by
  rw [dueAmong, List.zipIdx_append, List.filterMap_append]
  congr 1
  simp only [List.zipIdx_singleton, Nat.zero_add, List.filterMap_cons, List.filterMap_nil]
  cases dueFor reply before.length req <;> rfl

theorem dueAmong_congr {reply reply' : ℕ → Option CsMessage} {reqs : List CsMessage}
    (h : ∀ i < reqs.length, reply i = reply' i) : dueAmong reply reqs = dueAmong reply' reqs := by
  refine List.filterMap_congr fun ⟨req, i⟩ hmem => ?_
  have hget := List.mem_zipIdx_iff_getElem?.mp hmem
  simp only [dueFor, h i (List.getElem?_eq_some_iff.mp hget).1]

theorem dueFor_oneWay {reply : ℕ → Option CsMessage} {i : ℕ} {req : CsMessage}
    (h : req.txn = 0) : dueFor reply i req = none :=
  if_pos h

theorem dueFor_none {reply : ℕ → Option CsMessage} {i : ℕ} {req : CsMessage}
    (h : reply i = none) : dueFor reply i req = none := by
  rw [dueFor, h]
  exact ite_self _

theorem dueFor_some {reply : ℕ → Option CsMessage} {i : ℕ} {req msg : CsMessage}
    (hreq : req.txn ≠ 0) (h : reply i = some msg) : dueFor reply i req = some (req, msg) := by
  rw [dueFor, if_neg hreq, h]
  rfl

theorem due_stopped {s : TcpProxy} (h : s.Stopped) {before : List CsMessage} {req : CsMessage}
    (hrequests : s.requests = before ++ [req]) :
    s.due = dueAmong s.firstReply before ++ (dueFor s.firstReply before.length req).toList := by
  rw [due, handled_stopped h, hrequests, dueAmong_concat]

theorem good_init : Good init where
  numbered := numbered_init
  calls_length := rfl
  resp_eq := by simp [init]
  device_eq := by simp [init]
  replies_lt := by simp [init]
  answered := .nil
  place := .reading rfl ⟨by simp [init], by simp [init]⟩ rfl rfl rfl

/-- The response is set in the last stage, and then the call can return. -/
theorem Stage.isSome_complete {s : TcpProxy} {k : ℕ} {req : CsMessage} (h : Stage s k)
    (hhandler : s.handler = .invoking k req) (hfetched : s.session.fetched = none)
    (hreply : s.firstReply k ≠ none) (hearly : s.toDevice.length ≤ k → s.firstReply k = none) :
    (s.step .complete).isSome := by
  cases h with
  | aquired _ hdevice => exact absurd (hearly hdevice.le) hreply
  | added _ hdevice => exact absurd (hearly hdevice.le) hreply
  | waiting _ _ _ _ hnone => exact absurd hnone hreply
  | fetched msg _ _ _ hsome =>
    rw [hsome] at hfetched
    cases hfetched
  | set msg hcall =>
    have hin : s.session.callIn k .written = some ⟨txnIDOf k, .written, .set msg⟩ := by
      rw [callIn, hcall]
      rfl
    simp only [TcpProxy.step, callStep, hhandler, CsSession.step, hin, Option.bind_some]
    simp [updateCall, hcall]

theorem Good.firstReply_eq_none {s : TcpProxy} (h : Good s) {i : ℕ} (hi : s.toDevice.length ≤ i) :
    s.firstReply i = none := by
  rw [firstReply, List.find?_eq_none.mpr, Option.map_none]
  intro r hr heq
  have hlt := h.replies_lt r hr
  rw [beq_iff_eq.mp heq] at hlt
  omega

/-- A number that is zero comes with a one-way message, so it has not come among the requests. -/
theorem Good.length_le {s : TcpProxy} (h : Good s) {reqs later : List CsMessage}
    (hdone : Done s reqs) (hrequests : s.requests = reqs ++ later)
    (hdevice : reqs.length ≤ s.toDevice.length) : reqs.length ≤ 255 := by
  by_contra hlong
  have hlt : 255 < reqs.length := by omega
  obtain ⟨req, hreq, -, hzero⟩ := h.device_eq 255 _
    (List.getElem?_eq_getElem (hlt.trans_le hdevice))
  rw [hrequests, List.getElem?_append_left hlt] at hreq
  exact hdone.isRequest req (List.mem_of_getElem? hreq) (hzero.mp rfl)

theorem Stage.device_le {s : TcpProxy} {k : ℕ} (h : Stage s k) : k ≤ s.toDevice.length := by
  cases h <;> omega

theorem Stage.device_lt {s : TcpProxy} {k : ℕ} (h : Stage s k) : s.toDevice.length ≤ k + 1 := by
  cases h <;> omega

/-- The message in hand of a good state. -/
theorem Good.in_hand {s : TcpProxy} (h : Good s) {k : ℕ} {req : CsMessage}
    (hhandler : s.handler = .invoking k req) :
    ∃ before, before.length = k ∧ s.requests = before ++ [req] ∧ Done s before ∧
      Stage s before.length := by
  cases h.place with
  | reading hreading => cases hreading.symm.trans hhandler
  | invoking before req' hinvoking hrequests hdone hstage =>
    cases hinvoking.symm.trans hhandler
    exact ⟨before, rfl, hrequests, hdone, hstage⟩
  | stopped before req' hstopped => exact absurd hstopped (not_stopped_invoking hhandler)

theorem Good.transparent {s : TcpProxy} (h : Good s) : Transparent s where
  forwards := fun i m hm => by
    obtain ⟨req, hreq, rfl, hzero⟩ := h.device_eq i m hm
    exact ⟨req, hreq, rfl, rfl, (h.resp_eq req (List.mem_of_getElem? hreq)).symm, hzero⟩
  reached := by
    cases h.place with
    | reading hhandler _ hdevice =>
      rw [handled_reading hhandler]
      exact hdevice.ge
    | invoking before req hhandler hrequests _ hstage =>
      rw [handled_invoking hhandler hrequests]
      exact hstage.device_le
    | stopped before req hstopped hrequests _ hdevice =>
      rw [handled_stopped hstopped, hrequests, List.length_append]
      exact hdevice.ge
  answered := h.answered
  delivers := fun k req hhandler _ hfetched hreply => by
    obtain ⟨before, rfl, -, -, hstage⟩ := h.in_hand hhandler
    exact hstage.isSome_complete hhandler hfetched hreply fun hle => h.firstReply_eq_none hle

/-- What `callStep` does, if it is enabled. -/
theorem callStep_eq_some {s s' : TcpProxy} {event : ℕ → CsEvent}
    {after : CsCall → CsMessage → TcpProxy → TcpProxy} (h : s.callStep event after = some s') :
    ∃ k req session call, s.handler = .invoking k req ∧ s.session.step (event k) = some session ∧
      session.calls[k]? = some call ∧ s' = after call req { s with session := session } := by
  unfold callStep at h
  split at h
  · rename_i k req hhandler
    obtain ⟨session, hsession, hrest⟩ := Option.bind_eq_some_iff.mp h
    obtain ⟨call, hcall, rfl⟩ := Option.map_eq_some_iff.mp hrest
    exact ⟨k, req, session, call, hhandler, hsession, hcall, rfl⟩
  · cases h

/-- A step of the session alone leads to another stage of the message in hand. -/
theorem Good.withSession {s : TcpProxy} (h : Good s) {session : CsSession} {k : ℕ}
    {req : CsMessage} (hhandler : s.handler = .invoking k req) (hnumbered : session.Numbered)
    (hlength : session.calls.length = s.session.calls.length)
    (hstage : Stage { s with session := session } k) : Good { s with session := session } where
  numbered := hnumbered
  calls_length := hlength.trans h.calls_length
  resp_eq := h.resp_eq
  device_eq := h.device_eq
  replies_lt := h.replies_lt
  answered := h.answered
  place := by
    obtain ⟨before, rfl, hrequests, hdone, -⟩ := h.in_hand hhandler
    exact .invoking before req hhandler hrequests ⟨hdone.isRequest, hdone.replied⟩ hstage

theorem Good.request {s s' : TcpProxy} (h : Good s) {req : CsMessage}
    (hstep : s.step (.request req) = some s') : Good s' := by
  simp only [TcpProxy.step] at hstep
  split at hstep
  case h_2 => cases hstep
  rename_i hreading
  split at hstep
  case isTrue => cases hstep
  rename_i hresp
  obtain rfl := Option.some.inj hstep
  cases h.place with
  | invoking before req' hhandler => cases hreading.symm.trans hhandler
  | stopped before req' hstopped => exact absurd hstopped (not_stopped_reading hreading)
  | reading _ hdone hdevice htable hfetched =>
    refine ⟨h.numbered.aquire, ?_, ?_, ?_, h.replies_lt, ?_, ?_⟩
    · rw [aquireNextTxnId, List.length_append, List.length_append, h.calls_length]
      rfl
    · intro req' hreq'
      rcases List.mem_append.mp hreq' with hold | hnew
      · exact h.resp_eq req' hold
      · rw [List.mem_singleton.mp hnew]
        exact Bool.eq_false_of_not_eq_true hresp
    · intro i m hm
      obtain ⟨req', hreq', heq, hzero⟩ := h.device_eq i m hm
      have hlt : i < s.requests.length := (List.getElem?_eq_some_iff.mp hreq').1
      exact ⟨req', (List.getElem?_append_left hlt).trans hreq', heq, hzero⟩
    · have hanswered := h.answered
      rw [due, handled_reading hreading] at hanswered
      rw [due, @handled_invoking _ s.requests req (congrArg (Handler.invoking · req) h.calls_length)
        rfl]
      exact hanswered
    · refine .invoking s.requests req (congrArg (Handler.invoking · req) h.calls_length) rfl
        ⟨hdone.isRequest, hdone.replied⟩ (.aquired ?_ hdevice htable hfetched)
      rw [aquireNextTxnId, ← h.calls_length, List.getElem?_concat_length, h.numbered.counter_eq]

theorem Good.addTransaction {s s' : TcpProxy} (h : Good s)
    (hstep : s.step .addTransaction = some s') : Good s' := by
  obtain ⟨k, req, session, call, hhandler, hsession, hcall, rfl⟩ := callStep_eq_some hstep
  have hnumbered := h.numbered.step hsession
  have hlength := calls_length_step hsession
  cases stepped_of_step hsession with
  | addTransaction hcaller hphase =>
    obtain ⟨before, rfl, -, -, hstage⟩ := h.in_hand hhandler
    cases hstage with
    | aquired hcall' hdevice htable hfetched =>
      obtain rfl := Option.some.inj (hcall'.symm.trans hcaller)
      have hadd : s.session.addTransaction before.length
            ⟨txnIDOf before.length, .aquired, .pending⟩ =
          (s.session.updateCall before.length (·.enter .added)).setSlot (txnIDOf before.length)
            (some ⟨before.length, txnIDOf before.length⟩) := by
        rw [CsSession.addTransaction, htable]
      rw [hadd] at hcall hnumbered hlength ⊢
      have hentered := getElem?_updateCall hcall' (·.enter .added)
      obtain rfl := Option.some.inj (hcall.symm.trans hentered)
      exact h.withSession hhandler hnumbered hlength
        (.added hentered hdevice (congrArg (Function.update · _ _) htable) hfetched)
    | added hcall' => cases hcaller.symm.trans hcall'; cases hphase
    | waiting hcall' => cases hcaller.symm.trans hcall'; cases hphase
    | fetched _ hcall' => cases hcaller.symm.trans hcall'; cases hphase
    | set _ hcall' => cases hcaller.symm.trans hcall'; cases hphase

/-- The message in hand is written behind the others that reached the device. -/
theorem Good.writeMessage_cases {s s' : TcpProxy} (h : Good s) {throws : Bool}
    (hstep : s.step (.writeMessage throws) = some s') :
    ∃ before req session, s.handler = .invoking before.length req ∧
      s.requests = before ++ [req] ∧ Done s before ∧ s.toDevice.length = before.length ∧
      s' = written throws ⟨txnIDOf before.length, if throws then .finished else .written, .pending⟩
        req { s with session := session } ∧
      session.Numbered ∧ session.calls.length = s.session.calls.length ∧
      session.calls[before.length]? =
        some ⟨txnIDOf before.length, if throws then .finished else .written, .pending⟩ ∧
      session.txnDict = Function.update (fun _ => none) (txnIDOf before.length)
        (some ⟨before.length, txnIDOf before.length⟩) ∧ session.fetched = none := by
  obtain ⟨k, req, session, call, hhandler, hsession, hcall, rfl⟩ := callStep_eq_some hstep
  have hnumbered := h.numbered.step hsession
  have hlength := calls_length_step hsession
  cases stepped_of_step hsession with
  | writeMessage hcaller hphase _ hnext =>
    subst hnext
    obtain ⟨before, rfl, hrequests, hdone, hstage⟩ := h.in_hand hhandler
    cases hstage with
    | aquired hcall' => cases hcaller.symm.trans hcall'; cases hphase
    | added hcall' hdevice htable hfetched =>
      have hentered := getElem?_updateCall hcall' (·.enter (if throws then .finished else .written))
      obtain rfl := Option.some.inj (hcall.symm.trans hentered)
      exact ⟨before, req, _, hhandler, hrequests, hdone, hdevice, rfl, hnumbered, hlength, hcall,
        htable, hfetched⟩
    | waiting hcall' => cases hcaller.symm.trans hcall'; cases hphase
    | fetched _ hcall' => cases hcaller.symm.trans hcall'; cases hphase
    | set _ hcall' => cases hcaller.symm.trans hcall'; cases hphase

theorem getElem?_concat_some {α : Type} {l : List α} {x y : α} {i : ℕ}
    (h : (l ++ [x])[i]? = some y) : l[i]? = some y ∨ i = l.length ∧ y = x := by
  rcases Nat.lt_trichotomy i l.length with hlt | rfl | hgt
  · exact .inl ((List.getElem?_append_left hlt).symm.trans h)
  · exact .inr ⟨rfl, (Option.some.inj (List.getElem?_concat_length.symm.trans h)).symm⟩
  · rw [List.getElem?_eq_none (by rw [List.length_append, List.length_singleton]; omega)] at h
    cases h

theorem Good.writeMessage {s s' : TcpProxy} (h : Good s) {throws : Bool}
    (hstep : s.step (.writeMessage throws) = some s') (hok : Ok s (.writeMessage throws)) :
    Good s' := by
  obtain ⟨before, req, session, hhandler, hrequests, hdone, hdevice, rfl, hnumbered, hlength,
    hcall, htable, hfetched⟩ := h.writeMessage_cases hstep
  obtain ⟨rfl, hzero⟩ := hok
  have hnone := h.firstReply_eq_none hdevice.le
  refine ⟨hnumbered, hlength.trans h.calls_length, h.resp_eq, ?_, ?_, h.answered,
    .invoking before req hhandler hrequests ⟨hdone.isRequest, hdone.replied⟩
      (.waiting hcall ?_ htable hfetched hnone)⟩
  · intro i m hm
    rcases getElem?_concat_some hm with hold | ⟨rfl, rfl⟩
    · exact h.device_eq i m hold
    · refine ⟨req, ?_, by rw [hdevice], ?_⟩
      · rw [hdevice, hrequests]
        exact List.getElem?_concat_length
      · rw [hdevice, txnIDOf_eq_zero_iff]
        exact hzero _ _ hhandler
  · intro r hr
    exact (h.replies_lt r hr).trans_le (List.length_append ▸ Nat.le_add_right _ _)
  · change (s.toDevice ++ [_]).length = _
    rw [List.length_append, hdevice]
    rfl

/-- A call that can return has the first reply of the device. -/
theorem Good.complete_cases {s s' : TcpProxy} (h : Good s) (hstep : s.step .complete = some s') :
    ∃ before req session msg, s.handler = .invoking before.length req ∧
      s.requests = before ++ [req] ∧ Done s before ∧ s.toDevice.length = before.length + 1 ∧
      s.firstReply before.length = some msg ∧
      s' = { s with
        session := session
        handler := .reading
        toClient := s.toClient ++ [paired req msg] } ∧
      session.Numbered ∧ session.calls.length = s.session.calls.length ∧
      session.txnDict = (fun _ => none) ∧ session.fetched = none := by
  obtain ⟨k, req, session, call, hhandler, hsession, hcall, rfl⟩ := callStep_eq_some hstep
  have hnumbered := h.numbered.step hsession
  have hlength := calls_length_step hsession
  cases stepped_of_step hsession with
  | complete hcaller hphase hresponse =>
    obtain ⟨before, rfl, hrequests, hdone, hstage⟩ := h.in_hand hhandler
    cases hstage with
    | aquired hcall' => cases hcaller.symm.trans hcall'; cases hphase
    | added hcall' => cases hcaller.symm.trans hcall'; cases hphase
    | waiting hcall' => cases hcaller.symm.trans hcall'; exact absurd rfl hresponse
    | fetched _ hcall' => cases hcaller.symm.trans hcall'; exact absurd rfl hresponse
    | set msg hcall' hdevice htable hfetched hreply =>
      have hentered := getElem?_updateCall hcall' (·.enter .finished)
      obtain rfl := Option.some.inj (hcall.symm.trans hentered)
      exact ⟨before, req, _, msg, hhandler, hrequests, hdone, hdevice, hreply, rfl, hnumbered,
        hlength, htable, hfetched⟩

theorem Done.concat {s : TcpProxy} {before : List CsMessage} {req : CsMessage}
    (h : Done s before) (htxn : req.txn ≠ 0) (hreply : s.firstReply before.length ≠ none) :
    Done s (before ++ [req]) where
  isRequest := fun req' hreq' => by
    rcases List.mem_append.mp hreq' with hold | hnew
    · exact h.isRequest req' hold
    · rw [List.mem_singleton.mp hnew]
      exact htxn
  replied := fun i hi => by
    rw [List.length_append, List.length_singleton] at hi
    rcases Nat.lt_or_eq_of_le (Nat.le_of_lt_succ hi) with hlt | rfl
    · exact h.replied i hlt
    · exact hreply

/-- What is due for the messages in front of the one in hand. -/
theorem Good.answered_before {s : TcpProxy} (h : Good s) {before : List CsMessage} {req : CsMessage}
    (hhandler : s.handler = .invoking before.length req)
    (hrequests : s.requests = before ++ [req]) :
    List.Forall₂ Answers (dueAmong s.firstReply before) s.toClient := by
  have hanswered := h.answered
  rwa [due, handled_invoking hhandler hrequests] at hanswered

theorem Good.complete {s s' : TcpProxy} (h : Good s) (hstep : s.step .complete = some s')
    (hok : Ok s .complete) : Good s' := by
  obtain ⟨before, req, session, msg, hhandler, hrequests, hdone, hdevice, hreply, rfl, hnumbered,
    hlength, htable, hfetched⟩ := h.complete_cases hstep
  have htxn : req.txn ≠ 0 := hok _ _ hhandler
  have hall := hdone.concat htxn (hreply ▸ Option.some_ne_none msg)
  rw [← hrequests] at hall
  refine ⟨hnumbered, hlength.trans h.calls_length, h.resp_eq, h.device_eq, h.replies_lt, ?_,
    .reading rfl ⟨hall.isRequest, hall.replied⟩ ?_ htable hfetched⟩
  · change List.Forall₂ Answers (dueAmong s.firstReply s.requests) (s.toClient ++ [paired req msg])
    rw [hrequests, dueAmong_concat, dueFor_some htxn hreply]
    exact List.rel_append (h.answered_before hhandler hrequests)
      (.cons ⟨rfl, rfl, rfl, rfl⟩ .nil)
  · change s.toDevice.length = s.requests.length
    rw [hdevice, hrequests, List.length_append]
    rfl

/-- A call that times out has been written, and its response is still pending. -/
theorem Good.timeout_cases {s s' : TcpProxy} (h : Good s) (hstep : s.step .timeout = some s') :
    ∃ before req session, s.handler = .invoking before.length req ∧
      s.requests = before ++ [req] ∧ Done s before ∧ s.toDevice.length = before.length + 1 ∧
      s' = { s with
        session := session
        handler := .timedOut before.length } ∧
      session.Numbered ∧ session.calls.length = s.session.calls.length := by
  simp only [TcpProxy.step] at hstep
  split at hstep
  case h_2 => cases hstep
  rename_i k req hhandler
  obtain ⟨session, hsession, rfl⟩ := Option.map_eq_some_iff.mp hstep
  have hnumbered := h.numbered.step hsession
  have hlength := calls_length_step hsession
  obtain ⟨before, rfl, hrequests, hdone, hstage⟩ := h.in_hand hhandler
  refine ⟨before, req, session, hhandler, hrequests, hdone, ?_, rfl, hnumbered, hlength⟩
  cases stepped_of_step hsession with
  | timeout hcaller hphase =>
    cases hstage with
    | aquired hcall' => cases hcaller.symm.trans hcall'; cases hphase
    | added hcall' => cases hcaller.symm.trans hcall'; cases hphase
    | waiting _ hdevice => exact hdevice
    | fetched _ _ hdevice => exact hdevice
    | set _ _ hdevice => exact hdevice

theorem Good.timeout {s s' : TcpProxy} (h : Good s) (hstep : s.step .timeout = some s')
    (hok : Ok s .timeout) : Good s' := by
  obtain ⟨before, req, session, hhandler, hrequests, hdone, hdevice, rfl, hnumbered, hlength⟩ :=
    h.timeout_cases hstep
  have hnone : dueFor s.firstReply before.length req = none := by
    by_cases htxn : req.txn = 0
    · exact dueFor_oneWay htxn
    · exact dueFor_none (hok _ _ hhandler htxn)
  refine ⟨hnumbered, hlength.trans h.calls_length, h.resp_eq, h.device_eq, h.replies_lt, ?_,
    .stopped before req (.inr ⟨_, rfl⟩) hrequests ⟨hdone.isRequest, hdone.replied⟩ hdevice⟩
  change List.Forall₂ Answers (dueAmong s.firstReply s.requests) s.toClient
  rw [hrequests, dueAmong_concat, hnone, Option.toList_none, List.append_nil]
  exact h.answered_before hhandler hrequests

/-- A step of the session alone, or the removal of its transaction, changes nothing for a handler
that has stopped. -/
theorem Good.whileStopped {s : TcpProxy} (h : Good s) (hstopped : s.Stopped) {session : CsSession}
    {handler : Handler} (hhandler : Stopped { s with session := session, handler := handler })
    (hnumbered : session.Numbered) (hlength : session.calls.length = s.session.calls.length) :
    Good { s with session := session, handler := handler } := by
  have hanswered := h.answered
  rw [due, handled_stopped hstopped] at hanswered
  refine ⟨hnumbered, hlength.trans h.calls_length, h.resp_eq, h.device_eq, h.replies_lt, ?_, ?_⟩
  · rw [due, handled_stopped hhandler]
    exact hanswered
  · cases h.place with
    | reading hreading => exact absurd hstopped (not_stopped_reading hreading)
    | invoking before req hinvoking => exact absurd hstopped (not_stopped_invoking hinvoking)
    | stopped before req _ hrequests hdone hdevice =>
      exact .stopped before req hhandler hrequests ⟨hdone.isRequest, hdone.replied⟩ hdevice

theorem Good.timeoutRemove {s s' : TcpProxy} (h : Good s)
    (hstep : s.step .timeoutRemove = some s') : Good s' := by
  simp only [TcpProxy.step] at hstep
  split at hstep
  case h_2 => cases hstep
  rename_i k htimedOut
  obtain ⟨session, hsession, rfl⟩ := Option.map_eq_some_iff.mp hstep
  exact h.whileStopped (.inr ⟨k, htimedOut⟩) (.inl rfl) (h.numbered.step hsession)
    (calls_length_step hsession)

theorem Good.setResponse {s s' : TcpProxy} (h : Good s) (hstep : s.step .setResponse = some s') :
    Good s' := by
  obtain ⟨session, hsession, rfl⟩ := Option.map_eq_some_iff.mp hstep
  have hnumbered := h.numbered.step hsession
  have hlength := calls_length_step hsession
  cases stepped_of_step hsession with
  | @setResponse t msg hfetched' =>
    cases h.place with
    | reading _ _ _ _ hfetched => cases hfetched.symm.trans hfetched'
    | stopped before req hstopped => exact h.whileStopped hstopped hstopped hnumbered hlength
    | invoking before req hhandler _ _ hstage =>
      cases hstage with
      | aquired _ _ _ hfetched => cases hfetched.symm.trans hfetched'
      | added _ _ _ hfetched => cases hfetched.symm.trans hfetched'
      | waiting _ _ _ hfetched => cases hfetched.symm.trans hfetched'
      | set _ _ _ _ hfetched => cases hfetched.symm.trans hfetched'
      | fetched msg' hcall hdevice htable hfetched hreply =>
        cases hfetched.symm.trans hfetched'
        exact h.withSession hhandler hnumbered hlength
          (.set msg (getElem?_updateCall hcall _) hdevice htable rfl hreply)

theorem firstReply_concat {s s' : TcpProxy} {i : ℕ} {msg : CsMessage}
    (h : s'.replies = s.replies ++ [(i, msg)]) (j : ℕ) :
    s'.firstReply j = (s.firstReply j).or (if i = j then some msg else none) := by
  rw [firstReply, firstReply, h, List.find?_append]
  by_cases hij : i = j
  · cases s.replies.find? (·.1 == j) <;> simp [hij]
  · cases s.replies.find? (·.1 == j) <;> simp [hij]

theorem firstReply_concat_of_ne_none {s s' : TcpProxy} {i j : ℕ} {msg : CsMessage}
    (h : s'.replies = s.replies ++ [(i, msg)]) (hj : s.firstReply j ≠ none) :
    s'.firstReply j = s.firstReply j := by
  rw [firstReply_concat h]
  cases hreply : s.firstReply j with
  | none => exact absurd hreply hj
  | some msg' => rfl

/-- A reply to an earlier message finds no transaction, and the table stays. -/
theorem readMessage_of_none {s : CsSession} {msg : CsMessage} (hresp : msg.resp = true)
    (hslot : s.txnDict msg.txn = none) :
    (s.readMessage msg).calls = s.calls ∧ (s.readMessage msg).txnDict = s.txnDict ∧
      (s.readMessage msg).fetched = none := by
  refine ⟨CsSession.readMessage_calls s msg, ?_, ?_⟩
  · rw [CsSession.readMessage, if_pos hresp]
    exact (congrArg (Function.update s.txnDict msg.txn) hslot.symm).trans
      (Function.update_eq_self _ _)
  · rw [CsSession.readMessage, if_pos hresp, hslot]
    rfl

/-- A reply to a message that is waited for takes its transaction out of the table. -/
theorem readMessage_of_some {s : CsSession} {msg : CsMessage} {t : Transaction}
    (hresp : msg.resp = true) (hslot : s.txnDict msg.txn = some t) :
    (s.readMessage msg).calls = s.calls ∧
      (s.readMessage msg).txnDict = Function.update s.txnDict msg.txn none ∧
      (s.readMessage msg).fetched = some (t, msg) := by
  refine ⟨CsSession.readMessage_calls s msg, ?_, ?_⟩
  · rw [CsSession.readMessage, if_pos hresp]
    rfl
  · rw [CsSession.readMessage, if_pos hresp, hslot]
    rfl

/-- Replies that only extend the log, in a session that stays in its stage. -/
theorem Good.withReply {s : TcpProxy} (h : Good s) {session : CsSession} {i : ℕ} {msg : CsMessage}
    (hi : i < s.toDevice.length) (hnumbered : session.Numbered)
    (hlength : session.calls.length = s.session.calls.length)
    (hdue : due { s with session := session, replies := s.replies ++ [(i, msg)] } = s.due)
    (hplace : Place { s with session := session, replies := s.replies ++ [(i, msg)] }) :
    Good { s with session := session, replies := s.replies ++ [(i, msg)] } where
  numbered := hnumbered
  calls_length := hlength.trans h.calls_length
  resp_eq := h.resp_eq
  device_eq := h.device_eq
  replies_lt := fun r hr => by
    rcases List.mem_append.mp hr with hold | hnew
    · exact h.replies_lt r hold
    · rw [List.mem_singleton.mp hnew]
      exact hi
  answered := hdue ▸ h.answered
  place := hplace

/-- Later replies to the messages that were replied to are not looked at. -/
theorem Done.withReply {s : TcpProxy} {reqs : List CsMessage} (h : Done s reqs)
    (session : CsSession) (i : ℕ) (msg : CsMessage) :
    Done { s with session := session, replies := s.replies ++ [(i, msg)] } reqs ∧
      dueAmong (firstReply { s with session := session, replies := s.replies ++ [(i, msg)] }) reqs =
        dueAmong s.firstReply reqs := by
  have hsame : ∀ j < reqs.length,
      firstReply { s with session := session, replies := s.replies ++ [(i, msg)] } j =
        s.firstReply j :=
    fun j hj => firstReply_concat_of_ne_none rfl (h.replied j hj)
  exact ⟨⟨h.isRequest, fun j hj => hsame j hj ▸ h.replied j hj⟩, dueAmong_congr hsame⟩

/-- A reply while the call for the last message is in progress. -/
theorem Stage.reply {s : TcpProxy} {k : ℕ} (h : Stage s k) (hk : k < 256) {i : ℕ} {m : CsMessage}
    (hm : m.txn = txnIDOf i) (hi : i < s.toDevice.length) (hfetched : s.session.fetched = none)
    {msg : CsMessage} (hmsg : msg.txn = m.txn) (hresp : msg.resp = true) :
    Stage { s with
      session := s.session.readMessage msg
      replies := s.replies ++ [(i, msg)] } k := by
  have hkept := @readMessage_of_none s.session msg hresp
  have htxn : msg.txn = txnIDOf i := hmsg.trans hm
  have hother : i ≠ k → (Function.update (fun _ => none) (txnIDOf k)
      (some (⟨k, txnIDOf k⟩ : Transaction)) : UInt8 → Option Transaction) msg.txn = none := by
    intro hne
    refine Function.update_of_ne (fun heq => hne ?_) _ _
    exact txnIDOf_injective (by have := h.device_lt; omega) hk (htxn.symm.trans heq)
  cases h with
  | aquired hcall hdevice htable _ =>
    obtain ⟨hcalls, htable', hfetched'⟩ := hkept (by rw [htable])
    exact .aquired (hcalls ▸ hcall) hdevice (htable'.trans htable) hfetched'
  | added hcall hdevice htable _ =>
    obtain ⟨hcalls, htable', hfetched'⟩ := hkept (by rw [htable]; exact hother (by omega))
    exact .added (hcalls ▸ hcall) hdevice (htable'.trans htable) hfetched'
  | waiting hcall hdevice htable _ hreply =>
    by_cases hik : i = k
    · subst hik
      have hslot : s.session.txnDict msg.txn = some ⟨i, txnIDOf i⟩ := by
        rw [htable, htxn]
        exact Function.update_self ..
      obtain ⟨hcalls, htable', hfetched'⟩ := readMessage_of_some hresp hslot
      refine .fetched msg (hcalls ▸ hcall) hdevice (htable'.trans ?_) hfetched' ?_
      · rw [htable, htxn]
        exact (Function.update_idem ..).trans (Function.update_eq_self _ _)
      · rw [firstReply_concat (s := s) rfl, hreply, if_pos rfl]
        rfl
    · obtain ⟨hcalls, htable', hfetched'⟩ := hkept (by rw [htable]; exact hother hik)
      refine .waiting (hcalls ▸ hcall) hdevice (htable'.trans htable) hfetched' ?_
      rw [firstReply_concat (s := s) rfl, hreply, if_neg hik]
      rfl
  | fetched msg' _ _ _ hsome => cases hsome.symm.trans hfetched
  | set msg' hcall hdevice htable _ hreply =>
    obtain ⟨hcalls, htable', hfetched'⟩ := hkept (by rw [htable])
    refine .set msg' (hcalls ▸ hcall) hdevice (htable'.trans htable) hfetched' ?_
    rw [firstReply_concat (s := s) rfl, hreply]
    rfl

/-- A reply is logged and read by the session. -/
theorem Good.reply_cases {s s' : TcpProxy} (h : Good s) {i : ℕ} {rpcId : UInt16}
    {payload : List UInt8} (hstep : s.step (.reply i rpcId payload) = some s') :
    ∃ msg, msg.txn = txnIDOf i ∧ msg.resp = true ∧ i < s.toDevice.length ∧
      s.session.fetched = none ∧ (s.session.readMessage msg).Numbered ∧
      (s.session.readMessage msg).calls.length = s.session.calls.length ∧
      s' = { s with
        session := s.session.readMessage msg
        replies := s.replies ++ [(i, msg)] } := by
  obtain ⟨m, hm, hrest⟩ := Option.bind_eq_some_iff.mp hstep
  obtain ⟨session, hsession, rfl⟩ := Option.map_eq_some_iff.mp hrest
  have hnumbered := h.numbered.step hsession
  have hlength := calls_length_step hsession
  obtain ⟨req, -, rfl, -⟩ := h.device_eq i m hm
  cases stepped_of_step hsession with
  | readMessage _ hfetched =>
    exact ⟨_, rfl, rfl, (List.getElem?_eq_some_iff.mp hm).1, hfetched, hnumbered, hlength, rfl⟩

theorem Good.reply {s s' : TcpProxy} (h : Good s) {i : ℕ} {rpcId : UInt16} {payload : List UInt8}
    (hstep : s.step (.reply i rpcId payload) = some s') (hok : Ok s (.reply i rpcId payload)) :
    Good s' := by
  obtain ⟨msg, htxn, hresp, hi, hfetched, hnumbered, hlength, rfl⟩ := h.reply_cases hstep
  cases h.place with
  | reading hhandler hdone hdevice htable _ =>
    obtain ⟨hdone', hsame⟩ := hdone.withReply (s.session.readMessage msg) i msg
    obtain ⟨-, htable', hfetched'⟩ := @readMessage_of_none s.session msg hresp (by rw [htable])
    refine h.withReply hi hnumbered hlength ?_
      (.reading hhandler hdone' hdevice (htable'.trans htable) hfetched')
    change dueAmong _ s.handled = dueAmong _ s.handled
    rw [handled_reading hhandler]
    exact hsame
  | invoking before req hhandler hrequests hdone hstage =>
    obtain ⟨hdone', hsame⟩ := hdone.withReply (s.session.readMessage msg) i msg
    have hk := h.length_le hdone hrequests hstage.device_le
    have hstage' := hstage.reply (by omega) (m := msg) htxn hi hfetched rfl hresp
    refine h.withReply hi hnumbered hlength ?_
      (.invoking before req hhandler hrequests hdone' hstage')
    change dueAmong _ s.handled = dueAmong _ s.handled
    rw [handled_invoking hhandler hrequests]
    exact hsame
  | stopped before req hstopped hrequests hdone hdevice =>
    obtain ⟨hdone', hsame⟩ := hdone.withReply (s.session.readMessage msg) i msg
    refine h.withReply hi hnumbered hlength ?_
      (.stopped before req hstopped hrequests hdone' hdevice)
    have hdue := @due_stopped { s with
      session := s.session.readMessage msg
      replies := s.replies ++ [(i, msg)] } hstopped before req hrequests
    rw [hdue, due_stopped hstopped hrequests, hsame]
    congr 2
    by_cases hreq : req.txn = 0
    · rw [dueFor_oneWay hreq, dueFor_oneWay hreq]
    rw [dueFor, dueFor, firstReply_concat (s := s) rfl]
    by_cases hlast : i = before.length
    · subst hlast
      have hreply := hok hstopped req (hrequests ▸ List.getElem?_concat_length) hreq
      cases hfirst : s.firstReply before.length with
      | none => exact absurd hfirst hreply
      | some first => rfl
    · rw [if_neg hlast, Option.or_none]

theorem Good.step {s s' : TcpProxy} {e : ProxyEvent} (h : Good s) (hstep : s.step e = some s')
    (hok : Ok s e) : Good s' := by
  cases e with
  | request req => exact h.request hstep
  | addTransaction => exact h.addTransaction hstep
  | writeMessage throws => exact h.writeMessage hstep hok
  | timeout => exact h.timeout hstep hok
  | timeoutRemove => exact h.timeoutRemove hstep
  | complete => exact h.complete hstep hok
  | reply i rpcId payload => exact h.reply hstep hok
  | setResponse => exact h.setResponse hstep

/-- More is due than was written to the client. -/
theorem not_transparent_of_due {s : TcpProxy} (h : s.toClient.length ≠ s.due.length) :
    ¬ Transparent s := fun htransparent => h htransparent.answered.length_eq.symm

/-- A message is lost, or it does not reach the device as the kind of message it is. -/
theorem Good.not_transparent_writeMessage {s s' : TcpProxy} (h : Good s) {throws : Bool}
    (hstep : s.step (.writeMessage throws) = some s') (hok : ¬ Ok s (.writeMessage throws)) :
    ¬ Transparent s' := by
  intro htransparent
  obtain ⟨before, req, session, hhandler, hrequests, -, hdevice, rfl, -⟩ :=
    h.writeMessage_cases hstep
  cases throws with
  | true =>
    have hreached := htransparent.reached
    rw [handled_stopped (.inl rfl)] at hreached
    change s.requests.length ≤ s.toDevice.length at hreached
    rw [hrequests, List.length_append, List.length_singleton] at hreached
    omega
  | false =>
    apply hok
    refine ⟨rfl, fun k req' hinvoking => ?_⟩
    cases hhandler.symm.trans hinvoking
    have hlast : (s.toDevice ++ [forwarded (txnIDOf before.length) req])[before.length]? =
        some (forwarded (txnIDOf before.length) req) := hdevice ▸ List.getElem?_concat_length
    obtain ⟨req', hreq', hforwards⟩ := htransparent.forwards before.length _ hlast
    change s.requests[before.length]? = some req' at hreq'
    rw [hrequests, List.getElem?_concat_length] at hreq'
    obtain rfl := Option.some.inj hreq'
    rw [← txnIDOf_eq_zero_iff]
    exact hforwards.txn_zero_iff

/-- The client gets an answer to a one-way message. -/
theorem Good.not_transparent_complete {s s' : TcpProxy} (h : Good s)
    (hstep : s.step .complete = some s') (hok : ¬ Ok s .complete) : ¬ Transparent s' := by
  obtain ⟨before, req, session, msg, hhandler, hrequests, -, -, -, rfl, -⟩ :=
    h.complete_cases hstep
  have htxn : req.txn = 0 := by
    by_contra hreq
    refine hok fun k req' hinvoking => ?_
    cases hhandler.symm.trans hinvoking
    exact hreq
  have hlength := (h.answered_before hhandler hrequests).length_eq
  apply not_transparent_of_due
  change (s.toClient ++ [paired req msg]).length ≠ (dueAmong s.firstReply s.requests).length
  rw [hrequests, dueAmong_concat, dueFor_oneWay htxn, Option.toList_none, List.append_nil,
    List.length_append, List.length_singleton]
  omega

/-- The reply of a call that times out is not written to the client. -/
theorem Good.not_transparent_timeout {s s' : TcpProxy} (h : Good s)
    (hstep : s.step .timeout = some s') (hok : ¬ Ok s .timeout) : ¬ Transparent s' := by
  obtain ⟨before, req, session, hhandler, hrequests, -, -, rfl, -⟩ := h.timeout_cases hstep
  have hreplied : req.txn ≠ 0 ∧ s.firstReply before.length ≠ none := by
    by_contra hnot
    refine hok fun k req' hinvoking htxn => ?_
    cases hhandler.symm.trans hinvoking
    by_contra hreply
    exact hnot ⟨htxn, hreply⟩
  obtain ⟨msg, hmsg⟩ := Option.ne_none_iff_exists'.mp hreplied.2
  have hlength := (h.answered_before hhandler hrequests).length_eq
  apply not_transparent_of_due
  change s.toClient.length ≠ (dueAmong s.firstReply s.requests).length
  rw [hrequests, dueAmong_concat, dueFor_some hreplied.1 hmsg, List.length_append,
    Option.toList_some, List.length_singleton]
  omega

/-- Nor is a reply that comes after the timeout. -/
theorem Good.not_transparent_reply {s s' : TcpProxy} (h : Good s) {i : ℕ} {rpcId : UInt16}
    {payload : List UInt8} (hstep : s.step (.reply i rpcId payload) = some s')
    (hok : ¬ Ok s (.reply i rpcId payload)) : ¬ Transparent s' := by
  obtain ⟨msg, -, -, -, -, -, -, rfl⟩ := h.reply_cases hstep
  have hlate : s.Stopped ∧ ∃ req, s.requests[i]? = some req ∧ req.txn ≠ 0 ∧
      s.firstReply i = none := by
    by_contra hnot
    refine hok fun hstopped req hreq htxn hreply => hnot ⟨hstopped, req, hreq, htxn, hreply⟩
  obtain ⟨hstopped, req, hreq, htxn, hnone⟩ := hlate
  cases h.place with
  | reading hreading => exact absurd hstopped (not_stopped_reading hreading)
  | invoking before req' hinvoking => exact absurd hstopped (not_stopped_invoking hinvoking)
  | stopped before req' _ hrequests hdone _ =>
    -- all others were replied to before
    have hlast : i = before.length := by
      have hlt := (List.getElem?_eq_some_iff.mp hreq).1
      rw [hrequests, List.length_append, List.length_singleton] at hlt
      rcases Nat.lt_or_eq_of_le (Nat.le_of_lt_succ hlt) with hearly | heq
      · exact absurd hnone (hdone.replied i hearly)
      · exact heq
    subst hlast
    rw [hrequests, List.getElem?_concat_length] at hreq
    obtain rfl := Option.some.inj hreq
    have hsame := (hdone.withReply (s.session.readMessage msg) before.length msg).2
    have hlength := h.answered.length_eq
    rw [due_stopped hstopped hrequests, dueFor_none hnone, Option.toList_none,
      List.append_nil] at hlength
    have hfirst := @firstReply_concat s { s with
      session := s.session.readMessage msg
      replies := s.replies ++ [(before.length, msg)] } before.length msg rfl before.length
    rw [hnone, if_pos rfl, Option.none_or] at hfirst
    have hmore := @due_stopped { s with
      session := s.session.readMessage msg
      replies := s.replies ++ [(before.length, msg)] } hstopped before _ hrequests
    apply not_transparent_of_due
    rw [hmore, hsame, dueFor_some htxn hfirst, List.length_append, Option.toList_some,
      List.length_singleton]
    change s.toClient.length ≠ _
    omega

theorem Good.not_transparent {s s' : TcpProxy} {e : ProxyEvent} (h : Good s)
    (hstep : s.step e = some s') (hok : ¬ Ok s e) : ¬ Transparent s' := by
  cases e with
  | writeMessage throws => exact h.not_transparent_writeMessage hstep hok
  | timeout => exact h.not_transparent_timeout hstep hok
  | complete => exact h.not_transparent_complete hstep hok
  | reply i rpcId payload => exact h.not_transparent_reply hstep hok
  | request req => exact absurd trivial hok
  | addTransaction => exact absurd trivial hok
  | timeoutRemove => exact absurd trivial hok
  | setResponse => exact absurd trivial hok

def twoRequests : List ProxyEvent :=
  [.request ⟨9, 7, false, [1, 2, 3, 4]⟩, .addTransaction, .writeMessage false,
    .reply 0 7 [5, 6, 7, 8], .setResponse, .complete, .request ⟨9, 8, false, []⟩, .addTransaction,
    .writeMessage false, .timeout, .timeoutRemove]

/-- One message without a number. -/
def oneWay : List ProxyEvent := [.request ⟨0, 7, false, []⟩, .addTransaction, .writeMessage false]

end TcpProxy

end CompostRpc
