import CompostRpc.ProxyClients
import Mathlib.Data.List.Forall2

/-!
# What reaches the clients of the proxy

However clients come and go, a client gets the responses to its own requests, in their order, each
under its own number, and at most one request of a client is not answered.
-/

namespace CompostRpc
open TransitionRun

namespace CsSession

/-- What the steps of other calls leave of a call: its phase, and a response that is set. -/
def KeepsCalls (moved : Option ℕ) (s s' : CsSession) : Prop :=
  ∀ (k : ℕ) (c : CsCall), s.calls[k]? = some c → ∃ c', s'.calls[k]? = some c' ∧
    (∀ msg, c.response = .set msg → c'.response = .set msg) ∧ (moved ≠ some k → c'.phase = c.phase)

theorem KeepsCalls.refl (moved : Option ℕ) (s : CsSession) : KeepsCalls moved s s :=
  fun _ c hc => ⟨c, hc, fun _ => id, fun _ => rfl⟩

theorem KeepsCalls.trans {moved : Option ℕ} {s s' s'' : CsSession} (h : KeepsCalls moved s s')
    (h' : KeepsCalls moved s' s'') : KeepsCalls moved s s'' := by
  intro k c hc
  obtain ⟨c', hc', hset, hphase⟩ := h k c hc
  obtain ⟨c'', hc'', hset', hphase'⟩ := h' k c' hc'
  exact ⟨c'', hc'', fun msg hmsg => hset' msg (hset msg hmsg),
    fun hk => (hphase' hk).trans (hphase hk)⟩

theorem keepsCalls_of_calls_eq {s s' : CsSession} (moved : Option ℕ) (h : s'.calls = s.calls) :
    KeepsCalls moved s s' := fun _ c hc => ⟨c, h ▸ hc, fun _ => id, fun _ => rfl⟩

theorem keepsCalls_updateCall (s : CsSession) {moved : Option ℕ} {k : ℕ} {f : CsCall → CsCall}
    (hset : ∀ c msg, c.response = .set msg → (f c).response = .set msg)
    (hphase : moved = some k ∨ ∀ c, (f c).phase = c.phase) :
    KeepsCalls moved s (s.updateCall k f) := by
  intro j c hj
  by_cases hjk : j = k
  · subst hjk
    refine ⟨f c, getElem?_updateCall hj f, hset c, fun hmoved => ?_⟩
    rcases hphase with rfl | hsame
    · exact absurd rfl hmoved
    · exact hsame c
  · exact ⟨c, (getElem?_updateCall_of_ne s hjk f).trans hj, fun _ => id, fun _ => rfl⟩

theorem keepsCalls_enter (s : CsSession) (k : ℕ) (phase : CallPhase) :
    KeepsCalls (some k) s (s.updateCall k (·.enter phase)) :=
  s.keepsCalls_updateCall (fun _ _ => id) (.inl rfl)

theorem trySet_of_set {c : CsCall} {msg : CsMessage} (h : c.response = .set msg)
    (response : Response) : (c.trySet response).response = .set msg := by
  rw [CsCall.trySet, h]
  exact h

theorem keepsCalls_trySet (s : CsSession) (moved : Option ℕ) (k : ℕ) (response : Response) :
    KeepsCalls moved s (s.updateCall k (·.trySet response)) :=
  s.keepsCalls_updateCall (fun _ _ h => trySet_of_set h response)
    (.inr fun c => phase_trySet c response)

theorem keepsCalls_clearSlot (s : CsSession) (moved : Option ℕ) (i : UInt8) :
    KeepsCalls moved s (s.clearSlot i) := by
  rw [clearSlot]
  split
  · exact (s.keepsCalls_trySet moved _ _).trans (keepsCalls_of_calls_eq moved rfl)
  · exact .refl moved s

theorem keepsCalls_of_step {s s' : CsSession} {e : CsEvent} (h : s.step e = some s') :
    KeepsCalls e.call? s s' := by
  cases stepped_of_step h with
  | aquire =>
    intro k c hc
    have hlt := (List.getElem?_eq_some_iff.mp hc).1
    refine ⟨c, ?_, fun _ => id, fun _ => rfl⟩
    rwa [aquireNextTxnId, List.getElem?_append_left hlt]
  | @addTransaction k c hcall hphase =>
    rw [addTransaction]
    split
    · exact s.keepsCalls_enter k _
    · exact (s.keepsCalls_enter k _).trans (keepsCalls_of_calls_eq _ rfl)
  | writeMessage => exact s.keepsCalls_enter _ _
  | timeout => exact s.keepsCalls_enter _ _
  | timeoutRemove => exact (s.keepsCalls_enter _ _).trans (keepsCalls_of_calls_eq _ rfl)
  | complete => exact s.keepsCalls_enter _ _
  | readMessage msg => exact keepsCalls_of_calls_eq _ (readMessage_calls s msg)
  | @setResponse t msg =>
    exact (s.keepsCalls_trySet none t.call (.set msg)).trans (keepsCalls_of_calls_eq _ rfl)
  | clearTransactions =>
    exact List.foldlRecOn (motive := KeepsCalls none s) _ _ (.refl none s)
      fun s' h i _ => h.trans (s'.keepsCalls_clearSlot none i)

theorem length_le_of_keepsCalls {moved : Option ℕ} {s s' : CsSession} (h : KeepsCalls moved s s') :
    s.calls.length ≤ s'.calls.length := by
  by_contra hlt
  obtain ⟨c', hc', -⟩ := h s'.calls.length _ (List.getElem?_eq_getElem (by omega))
  exact absurd (List.getElem?_eq_some_iff.mp hc').1 (lt_irrefl _)

end CsSession

def ClientTask.client? : ClientTask → Option ℕ
  | .reading client | .invoking client _ _ | .timedOut client _ | .responding client _ _ _ =>
    some client
  | .checking | .ended _ => none

namespace ProxyClients
open CsSession

def requestsOf (s : ProxyClients) (client : ℕ) : List ProxyRequest :=
  s.requests.filter (·.client = client)

def responsesTo (s : ProxyClients) (client : ℕ) : List (ℕ × CsMessage) :=
  s.written.filterMap fun w => match w with
    | (c, .response k msg) => if c = client then some (k, msg) else none
    | (_, .notification _) => none

/-- What was written is the response to the call of the request, under the number of the request. -/
structure Answers (session : CsSession) (r : ProxyRequest) (response : ℕ × CsMessage) :
    Prop where
  call_eq : response.1 = r.call
  txn_eq : response.2.txn = r.req.txn
  resp_eq : response.2.resp = true
  device : ∃ c resp, session.calls[r.call]? = some c ∧ c.response = .set resp ∧
    response.2.rpcId = resp.rpcId ∧ response.2.payload = resp.payload

def Idle (s : ProxyClients) (client : ℕ) : Prop :=
  s.handleClientTask = some (.reading client) ∨
    s.handleClientTask = some .checking ∧ s.connectedStream = some client

def Busy (s : ProxyClients) (r : ProxyRequest) : Prop :=
  s.handleClientTask = some (.invoking r.client r.call r.req) ∨
    ∃ resp, s.handleClientTask = some (.responding r.client r.call r.req resp)

/-- The first requests of the client are answered, and at most one more is there. -/
structure Conversation (s : ProxyClients) (client : ℕ) (answered pending : List ProxyRequest) :
    Prop where
  requests_eq : s.requestsOf client = answered ++ pending
  answers : List.Forall₂ (Answers s.session) answered (s.responsesTo client)
  pending_le : pending.length ≤ 1
  idle : s.Idle client → pending = []
  busy : ∀ r, s.Busy r → r.client = client → pending = [r]

/-- The client that waits for the connection of the one before to be closed. -/
def waiting (s : ProxyClients) : Option ℕ :=
  match s.listenerTask with
  | .closing _ next => next
  | .opening client => some client
  | .checking | .accepting | .accepted | .stopped | .faulted _ => none

def Known (s : ProxyClients) (client : ℕ) : Prop :=
  (∃ r ∈ s.requests, r.client = client) ∨ (∃ w ∈ s.written, w.1 = client) ∨
    s.connectedStream = some client ∨ s.handleClientTask.bind ClientTask.client? = some client

structure Routed (s : ProxyClients) : Prop where
  known : ∀ client, s.Known client → client < s.accepted ∧ s.waiting ≠ some client
  waiting_lt : ∀ client, s.waiting = some client → client < s.accepted
  alone : ∀ client, s.listenerTask = .opening client → s.handleClientTask = none
  same : ∀ client client', s.connectedStream = some client →
    s.handleClientTask.bind ClientTask.client? = some client' → client' = client
  responding : ∀ client k req resp, s.handleClientTask = some (.responding client k req resp) →
    ∃ c, s.session.calls[k]? = some c ∧ c.response = .set resp
  calls_lt : ∀ r ∈ s.requests, r.call < s.session.calls.length
  nodup : (s.requests.map ProxyRequest.call).Nodup
  conversation : ∀ client, ∃ answered pending, s.Conversation client answered pending

theorem routed_init : Routed init where
  known := by simp [Known, init]
  waiting_lt := by simp [waiting, init]
  alone := by simp [init]
  same := by simp [init]
  responding := by simp [init]
  calls_lt := by simp [init]
  nodup := List.nodup_nil
  conversation := fun client =>
    ⟨[], [], rfl, .nil, Nat.zero_le 1, fun _ => rfl, fun r hr _ => by simp [Busy, init] at hr⟩

theorem Answers.keep {session session' : CsSession} {moved : Option ℕ}
    (h : KeepsCalls moved session session') {r : ProxyRequest} {response : ℕ × CsMessage}
    (hanswers : Answers session r response) : Answers session' r response := by
  obtain ⟨c, resp, hc, hset, hrpcId, hpayload⟩ := hanswers.device
  obtain ⟨c', hc', hset', -⟩ := h _ c hc
  exact ⟨hanswers.call_eq, hanswers.txn_eq, hanswers.resp_eq,
    c', resp, hc', hset' resp hset, hrpcId, hpayload⟩

/-- What a step without a request, a response or a new client leaves. -/
structure Passes (s s' : ProxyClients) : Prop where
  session : ∃ moved, KeepsCalls moved s.session s'.session
  requests_eq : s'.requests = s.requests
  responses_eq : ∀ client, s'.responsesTo client = s.responsesTo client
  written : ∀ w ∈ s'.written, w ∈ s.written ∨ s.connectedStream = some w.1
  accepted_eq : s'.accepted = s.accepted
  waiting : s'.waiting = s.waiting ∨ s'.waiting = none
  alone : ∀ client, s'.listenerTask = .opening client →
    s'.handleClientTask = none ∨
      s.listenerTask = .opening client ∧ s'.handleClientTask = s.handleClientTask
  stream : s'.connectedStream = s.connectedStream ∨ s'.connectedStream = none
  task : ∀ client, s'.handleClientTask.bind ClientTask.client? = some client →
    s.handleClientTask.bind ClientTask.client? = some client ∨ s.connectedStream = some client
  idle : ∀ client, s'.Idle client → s.Idle client
  busy : ∀ r, s'.Busy r → s.Busy r
  responding : ∀ client k req resp, s'.handleClientTask = some (.responding client k req resp) →
    s.handleClientTask = some (.responding client k req resp) ∨
      ∃ c, s'.session.calls[k]? = some c ∧ c.response = .set resp

theorem Routed.pass {s s' : ProxyClients} (h : s.Routed) (hpass : s.Passes s') : s'.Routed := by
  obtain ⟨moved, hsession⟩ := hpass.session
  refine ⟨fun client hknown => ?_, fun client hwaiting => ?_, fun client hopening => ?_,
    fun client client' hstream htask => ?_, fun client k req resp htask => ?_, fun r hr => ?_, ?_,
    fun client => ?_⟩
  · have hold : s.Known client := by
      rcases hknown with ⟨r, hr, hclient⟩ | ⟨w, hw, rfl⟩ | hstream | htask
      · exact .inl ⟨r, hpass.requests_eq ▸ hr, hclient⟩
      · rcases hpass.written w hw with hw | hstream
        · exact .inr (.inl ⟨w, hw, rfl⟩)
        · exact .inr (.inr (.inl hstream))
      · rcases hpass.stream with hsame | hnone
        · exact .inr (.inr (.inl (hsame ▸ hstream)))
        · rw [hnone] at hstream
          cases hstream
      · rcases hpass.task client htask with htask | hstream
        · exact .inr (.inr (.inr htask))
        · exact .inr (.inr (.inl hstream))
    obtain ⟨hlt, hne⟩ := h.known client hold
    refine ⟨hpass.accepted_eq ▸ hlt, ?_⟩
    rcases hpass.waiting with hsame | hnone
    · rwa [hsame]
    · rw [hnone]
      exact Option.some_ne_none client |>.symm
  · rcases hpass.waiting with hsame | hnone
    · exact hpass.accepted_eq ▸ h.waiting_lt client (hsame ▸ hwaiting)
    · rw [hnone] at hwaiting
      cases hwaiting
  · rcases hpass.alone client hopening with hnone | ⟨hold, hsame⟩
    · exact hnone
    · exact hsame.trans (h.alone client hold)
  · rcases hpass.stream with hsame | hnone
    · rw [hsame] at hstream
      rcases hpass.task client' htask with htask | hstream'
      · exact h.same client client' hstream htask
      · exact Option.some.inj (hstream'.symm.trans hstream)
    · rw [hnone] at hstream
      cases hstream
  · rcases hpass.responding client k req resp htask with htask | hset
    · obtain ⟨c, hc, hset⟩ := h.responding client k req resp htask
      obtain ⟨c', hc', hset', -⟩ := hsession k c hc
      exact ⟨c', hc', hset' resp hset⟩
    · exact hset
  · exact (h.calls_lt r (hpass.requests_eq ▸ hr)).trans_le (length_le_of_keepsCalls hsession)
  · rw [hpass.requests_eq]
    exact h.nodup
  · obtain ⟨answered, pending, hconversation⟩ := h.conversation client
    refine ⟨answered, pending, ?_, ?_, hconversation.pending_le,
      fun hidle => hconversation.idle (hpass.idle client hidle),
      fun r hr => hconversation.busy r (hpass.busy r hr)⟩
    · rw [requestsOf, hpass.requests_eq]
      exact hconversation.requests_eq
    · rw [hpass.responses_eq]
      exact hconversation.answers.imp fun _ _ => Answers.keep hsession

/-- A step of the listener, of the token or of the read task. -/
theorem passes_listener {s s' : ProxyClients} (hsession : s'.session = s.session)
    (hrequests : s'.requests = s.requests) (hwritten : s'.written = s.written)
    (haccepted : s'.accepted = s.accepted)
    (hstream : s'.connectedStream = s.connectedStream ∨ s'.connectedStream = none)
    (htask : s'.handleClientTask = s.handleClientTask ∨ s'.handleClientTask = none)
    (hwaiting : s'.waiting = s.waiting ∨ s'.waiting = none)
    (halone : ∀ client, s'.listenerTask = .opening client → s'.handleClientTask = none ∨
      s.listenerTask = .opening client ∧ s'.handleClientTask = s.handleClientTask) :
    s.Passes s' := by
  have hsame : ∀ task, s'.handleClientTask = some task → s.handleClientTask = some task := by
    intro task h
    rcases htask with hsame | hnone
    · exact hsame ▸ h
    · rw [hnone] at h
      cases h
  have hstream' : ∀ client, s'.connectedStream = some client → s.connectedStream = some client := by
    intro client h
    rcases hstream with hsame | hnone
    · exact hsame ▸ h
    · rw [hnone] at h
      cases h
  refine ⟨⟨none, hsession ▸ .refl none _⟩, hrequests, fun client => ?_, fun w hw => ?_, haccepted,
    hwaiting, halone, hstream, fun client h => ?_, fun client h => ?_, fun r h => ?_,
    fun client k req resp h => .inl (hsame _ h)⟩
  · rw [responsesTo, hwritten]
    rfl
  · exact .inl (hwritten ▸ hw)
  · obtain ⟨task, htask', hclient⟩ := Option.bind_eq_some_iff.mp h
    exact .inl (Option.bind_eq_some_iff.mpr ⟨task, hsame task htask', hclient⟩)
  · rcases h with hreading | ⟨hchecking, hconnected⟩
    · exact .inl (hsame _ hreading)
    · exact .inr ⟨hsame _ hchecking, hstream' client hconnected⟩
  · rcases h with hinvoking | ⟨resp, hresponding⟩
    · exact .inl (hsame _ hinvoking)
    · exact .inr ⟨resp, hsame _ hresponding⟩

/-- A step of the task that handles the client. -/
theorem passes_task {s : ProxyClients} {moved : Option ℕ} {session : CsSession} {task : ClientTask}
    (hsession : KeepsCalls moved s.session session) (hrunning : s.handleClientTask ≠ none)
    (hclient : ∀ client, task.client? = some client →
      s.handleClientTask.bind ClientTask.client? = some client ∨ s.connectedStream = some client)
    (hchecking : task ≠ .checking) (hreading : ∀ client, task = .reading client → s.Idle client)
    (hinvoking : ∀ client k req, task = .invoking client k req →
      s.handleClientTask = some (.invoking client k req))
    (hresponding : ∀ client k req resp, task = .responding client k req resp →
      s.handleClientTask = some (.invoking client k req) ∧
        ∃ c, session.calls[k]? = some c ∧ c.response = .set resp)
    (halone : ∀ client, s.listenerTask = .opening client → s.handleClientTask = none) :
    s.Passes { s with session := session, handleClientTask := some task } := by
  refine ⟨⟨moved, hsession⟩, rfl, fun _ => rfl, fun w hw => .inl hw, rfl, .inl rfl,
    fun client h => absurd (halone client h) hrunning, .inl rfl, hclient, fun client h => ?_,
    fun r h => ?_, fun client k req resp h => ?_⟩
  · rcases h with h | ⟨h, -⟩
    · exact hreading client (Option.some.inj h)
    · exact absurd (Option.some.inj h) hchecking
  · rcases h with h | ⟨resp, h⟩
    · exact .inl (hinvoking _ _ _ (Option.some.inj h))
    · exact .inl (hresponding _ _ _ _ (Option.some.inj h)).1
  · exact .inr (hresponding _ _ _ _ (Option.some.inj h)).2

/-- The task has ended. -/
theorem passes_ended {s : ProxyClients} {moved : Option ℕ} {session : CsSession}
    (fault : Option ProxyFault) (hsession : KeepsCalls moved s.session session)
    (hrunning : s.handleClientTask ≠ none)
    (halone : ∀ client, s.listenerTask = .opening client → s.handleClientTask = none) :
    s.Passes { s with session := session, handleClientTask := some (.ended fault) } := by
  refine passes_task hsession hrunning ?_ ?_ ?_ ?_ ?_ halone
  all_goals simp [ClientTask.client?]

theorem listenerTask_of_waiting {s : ProxyClients} {client : ℕ}
    (h : s.listenerTask = .opening client) : s.waiting = some client := by
  rw [waiting, h]

theorem passes_close {s s' : ProxyClients} {stage : CloseStage} {next : Option ℕ}
    (htask : s.listenerTask = .closing stage next)
    (h : s.closeClientConnection stage next = some s') : s.Passes s' := by
  have hwaiting : s.waiting = next := by rw [waiting, htask]
  have hafter : ∀ t : ProxyClients, t.listenerTask = afterClose next →
      t.waiting = s.waiting ∨ t.waiting = none := by
    intro t ht
    rw [hwaiting, waiting, ht]
    cases next with
    | none => exact .inr rfl
    | some client => exact .inl rfl
  cases stage with
  | stream =>
    obtain rfl := Option.some.inj h
    exact passes_listener rfl rfl rfl rfl (.inr rfl) (.inl rfl) (.inl hwaiting.symm)
      fun client hopening => (by cases hopening)
  | token | client =>
    obtain rfl := Option.some.inj h
    exact passes_listener rfl rfl rfl rfl (.inl rfl) (.inl rfl) (.inl hwaiting.symm)
      fun client hopening => (by cases hopening)
  | awaiting =>
    simp only [closeClientConnection] at h
    split at h
    · rename_i hnone
      obtain rfl := Option.some.inj h
      exact passes_listener rfl rfl rfl rfl (.inl rfl) (.inl rfl) (hafter _ rfl)
        fun _ _ => .inl hnone
    · obtain rfl := Option.some.inj h
      exact passes_listener rfl rfl rfl rfl (.inl rfl) (.inr rfl) (hafter _ rfl)
        fun _ _ => .inl rfl
    · split at h
      · obtain rfl := Option.some.inj h
        exact passes_listener rfl rfl rfl rfl (.inl rfl) (.inr rfl) (hafter _ rfl)
          fun _ _ => .inl rfl
      · obtain rfl := Option.some.inj h
        exact passes_listener rfl rfl rfl rfl (.inl rfl) (.inl rfl) (.inr rfl)
          fun client hopening => (by cases hopening)
    · cases h

theorem Routed.accept {s : ProxyClients} (h : s.Routed) : Routed { s with
      accepted := s.accepted + 1
      listenerTask := if s.handleClientTask.isSome then .closing .stream (some s.accepted)
        else .opening s.accepted } := by
  generalize hlistener : (if s.handleClientTask.isSome then
    ListenerTask.closing .stream (some s.accepted) else .opening s.accepted) = listener
  have hwaiting : waiting { s with accepted := s.accepted + 1, listenerTask := listener } =
      some s.accepted := by
    rw [waiting, ← hlistener]
    cases s.handleClientTask.isSome <;> rfl
  refine { h with
    known := fun client hknown => ?_
    waiting_lt := fun client hclient => ?_
    alone := fun client hopening => ?_
    conversation := fun client => ?_ }
  · obtain ⟨hlt, -⟩ := h.known client hknown
    refine ⟨Nat.lt_succ_of_lt hlt, ?_⟩
    rw [hwaiting, Ne, Option.some.injEq]
    exact hlt.ne'
  · rw [hwaiting, Option.some.injEq] at hclient
    exact hclient ▸ Nat.lt_succ_self _
  · simp only at hopening
    rw [← hlistener] at hopening
    split at hopening
    · cases hopening
    · rename_i hnone
      simpa using hnone
  · obtain ⟨answered, pending, hconversation⟩ := h.conversation client
    exact ⟨answered, pending, { hconversation with }⟩

/-- The conversation with a client that is not known is empty. -/
theorem requestsOf_eq_nil {s : ProxyClients} {client : ℕ} (h : ¬ s.Known client) :
    s.requestsOf client = [] ∧ s.responsesTo client = [] := by
  constructor
  · refine List.filter_eq_nil_iff.mpr fun r hr hclient => h (.inl ⟨r, hr, ?_⟩)
    exact of_decide_eq_true hclient
  · refine List.filterMap_eq_nil_iff.mpr fun w hw => ?_
    match w with
    | (_, .notification msg) => rfl
    | (c, .response k msg) =>
      refine if_neg ?_
      rintro rfl
      exact h (.inr (.inl ⟨_, hw, rfl⟩))

/-- The task for a new client reads from its stream, or has ended. -/
theorem checkLoop_cases (s : ProxyClients) (connected : Bool) :
    (∃ client, s.connectedStream = some client ∧ s.checkLoop connected = .reading client) ∨
      ∃ fault, s.checkLoop connected = .ended fault := by
  rw [checkLoop]
  split_ifs
  · exact .inr ⟨_, rfl⟩
  · exact .inr ⟨_, rfl⟩
  · split
    · exact .inr ⟨_, rfl⟩
    · rename_i client hstream
      exact .inl ⟨client, hstream, rfl⟩
  · exact .inr ⟨_, rfl⟩

theorem Routed.openClient {s : ProxyClients} (h : s.Routed) {client : ℕ}
    (htask : s.listenerTask = .opening client) (connected : Bool) :
    Routed (s.openClientConnection client connected) := by
  have hwaiting := listenerTask_of_waiting htask
  have hnone : (s.openClientConnection client connected).waiting = none := rfl
  have hnew : ¬ s.Known client := fun hknown => (h.known client hknown).2 hwaiting
  have hstream : (s.openClientConnection client connected).connectedStream = some client := rfl
  -- the new task is one for the new client
  have hclient : ∀ client', (s.openClientConnection client connected).handleClientTask.bind
      ClientTask.client? = some client' → client' = client := by
    intro client' hclient'
    rw [openClientConnection, Option.bind_some] at hclient'
    rcases checkLoop_cases _ connected with ⟨c, hc, hreading⟩ | ⟨fault, hended⟩
    · rw [hreading] at hclient'
      obtain rfl := Option.some.inj hclient'
      exact (Option.some.inj hc).symm
    · rw [hended] at hclient'
      cases hclient'
  have hbusy : ∀ r, ¬ (s.openClientConnection client connected).Busy r := by
    intro r hr
    simp only [Busy, openClientConnection, Option.some.injEq] at hr
    rcases checkLoop_cases { s with
        connectedClient := some client
        connectedStream := some client
        clientCanceled := false } connected with ⟨c, -, hreading⟩ | ⟨fault, hended⟩
    · simp [hreading] at hr
    · simp [hended] at hr
  refine ⟨fun c hknown => ?_, fun c hc => ?_, fun c hopening => (by cases hopening),
    fun c c' hc hc' => ?_, fun c k req resp hresponding => ?_, h.calls_lt, h.nodup, fun c => ?_⟩
  · rw [hnone]
    refine ⟨?_, (Option.some_ne_none c).symm⟩
    rcases hknown with ⟨r, hr, rfl⟩ | ⟨w, hw, rfl⟩ | hc | hc
    · exact (h.known _ (.inl ⟨r, hr, rfl⟩)).1
    · exact (h.known _ (.inr (.inl ⟨w, hw, rfl⟩))).1
    · obtain rfl := Option.some.inj (hstream.symm.trans hc)
      exact h.waiting_lt _ hwaiting
    · obtain rfl := hclient c hc
      exact h.waiting_lt _ hwaiting
  · rw [hnone] at hc
    cases hc
  · obtain rfl := Option.some.inj (hstream.symm.trans hc)
    exact hclient c' hc'
  · exact absurd (.inr ⟨resp, hresponding⟩) (hbusy ⟨c, k, req⟩)
  · by_cases hc : c = client
    · subst hc
      obtain ⟨hrequests, hresponses⟩ := requestsOf_eq_nil hnew
      refine ⟨[], [], hrequests, ?_, Nat.zero_le 1, fun _ => rfl, fun r hr => absurd hr (hbusy r)⟩
      rw [show (s.openClientConnection c connected).responsesTo c = [] from hresponses]
      exact .nil
    · obtain ⟨answered, pending, hconversation⟩ := h.conversation c
      refine ⟨answered, pending, hconversation.requests_eq, hconversation.answers,
        hconversation.pending_le, fun hidle => absurd ?_ hc, fun r hr => absurd hr (hbusy r)⟩
      rcases hidle with hreading | ⟨-, hconnected⟩
      · exact hclient c (by rw [hreading]; rfl)
      · exact (Option.some.inj (hstream.symm.trans hconnected)).symm

theorem Routed.request {s : ProxyClients} (h : s.Routed) {client : ℕ}
    (htask : s.handleClientTask = some (.reading client)) (req : CsMessage) :
    (s.readRequest client req).Routed := by
  have hclient : s.handleClientTask.bind ClientTask.client? = some client := by
    rw [htask]
    rfl
  have hsession : KeepsCalls none s.session (s.readRequest client req).session :=
    keepsCalls_of_step (e := .aquire) rfl
  have hlength : (s.readRequest client req).session.calls.length = s.session.calls.length + 1 := by
    rw [readRequest, aquireNextTxnId, List.length_append, List.length_singleton]
  have hidle : ∀ c, ¬ (s.readRequest client req).Idle c := by
    rintro c (hreading | ⟨hchecking, -⟩)
    · cases hreading
    · cases hchecking
  have hbusy : ∀ r, (s.readRequest client req).Busy r →
      r = ⟨client, s.session.calls.length, req⟩ := by
    rintro ⟨c, k, req'⟩ (hinvoking | ⟨resp, hresponding⟩)
    · cases hinvoking
      rfl
    · cases hresponding
  have hrequests : ∀ c, (s.readRequest client req).requestsOf c =
      s.requestsOf c ++ if client = c then [⟨client, s.session.calls.length, req⟩] else [] := by
    intro c
    rw [requestsOf, readRequest, List.filter_append, List.filter_singleton]
    by_cases hc : client = c
    · rw [if_pos hc, decide_eq_true hc]
      rfl
    · rw [if_neg hc, decide_eq_false hc]
      rfl
  refine ⟨fun c hknown => ?_, h.waiting_lt, fun c hopening => ?_, fun c c' hc hc' => ?_,
    fun c k req resp hresponding => (by cases hresponding), fun r hr => ?_, ?_, fun c => ?_⟩
  · apply h.known c
    rcases hknown with ⟨r, hr, rfl⟩ | hwritten | hstream | htask'
    · rcases List.mem_append.mp hr with hold | hnew
      · exact .inl ⟨r, hold, rfl⟩
      · obtain rfl := List.mem_singleton.mp hnew
        exact .inr (.inr (.inr hclient))
    · exact .inr (.inl hwritten)
    · exact .inr (.inr (.inl hstream))
    · exact .inr (.inr (.inr (hclient.trans htask')))
  · have hnone := h.alone c hopening
    rw [htask] at hnone
    cases hnone
  · exact h.same c c' hc (hclient.trans hc')
  · rw [hlength]
    rcases List.mem_append.mp hr with hold | hnew
    · exact Nat.lt_succ_of_lt (h.calls_lt r hold)
    · obtain rfl := List.mem_singleton.mp hnew
      exact Nat.lt_succ_self _
  · rw [readRequest, List.map_append]
    refine List.nodup_append.mpr ⟨h.nodup, List.nodup_singleton _, fun k hk k' hk' => ?_⟩
    obtain ⟨r, hr, rfl⟩ := List.mem_map.mp hk
    obtain rfl := List.mem_singleton.mp hk'
    exact (h.calls_lt r hr).ne
  · obtain ⟨answered, pending, hconversation⟩ := h.conversation c
    have hanswers := hconversation.answers.imp fun _ _ => Answers.keep hsession
    by_cases hc : client = c
    · subst hc
      obtain rfl := hconversation.idle (.inl htask)
      refine ⟨answered, [⟨client, s.session.calls.length, req⟩], ?_, hanswers, le_rfl,
        fun hreads => absurd hreads (hidle client), fun r hr _ => by rw [hbusy r hr]⟩
      rw [hrequests, if_pos rfl, hconversation.requests_eq, List.append_nil]
    · refine ⟨answered, pending, ?_, hanswers, hconversation.pending_le,
        fun hreads => absurd hreads (hidle c), fun r hr hrc => absurd ?_ hc⟩
      · rw [hrequests, if_neg hc, List.append_nil, hconversation.requests_eq]
      · rw [hbusy r hr] at hrc
        exact hrc

theorem Routed.respond {s : ProxyClients} (h : s.Routed) {c₀ k client : ℕ} {req resp : CsMessage}
    (htask : s.handleClientTask = some (.responding c₀ k req resp))
    (hstream : s.connectedStream = some client) : (s.writeResponse client k req resp).Routed := by
  -- the stream is still that of the client whose request it is
  have hclient : c₀ = client := h.same client c₀ hstream (by rw [htask]; rfl)
  subst hclient
  obtain ⟨call, hcall, hset⟩ := h.responding _ _ _ _ htask
  have hidle : ∀ c, (s.writeResponse c₀ k req resp).Idle c → c = c₀ := by
    rintro c (hreading | ⟨-, hconnected⟩)
    · cases hreading
    · exact Option.some.inj (hconnected.symm.trans hstream)
  have hbusy : ∀ r, ¬ (s.writeResponse c₀ k req resp).Busy r := by
    rintro r (hinvoking | ⟨resp', hresponding⟩)
    · cases hinvoking
    · cases hresponding
  have hresponses : ∀ c, (s.writeResponse c₀ k req resp).responsesTo c =
      s.responsesTo c ++ if c₀ = c then [(k, paired req resp)] else [] := by
    intro c
    rw [responsesTo, writeResponse, List.filterMap_append]
    by_cases hc : c₀ = c
    · simp only [hc, if_true, List.filterMap_cons, List.filterMap_nil]
      rfl
    · simp only [hc, if_false, List.filterMap_cons, List.filterMap_nil]
      rfl
  refine ⟨fun c hknown => h.known c ?_, h.waiting_lt, fun c hopening => ?_,
    fun c c' _ hc' => (by cases hc'), fun c k req resp hresponding => (by cases hresponding),
    h.calls_lt, h.nodup, fun c => ?_⟩
  · rcases hknown with hrequest | ⟨w, hw, rfl⟩ | hconnected | hc
    · exact .inl hrequest
    · rcases List.mem_append.mp hw with hold | hnew
      · exact .inr (.inl ⟨w, hold, rfl⟩)
      · obtain rfl := List.mem_singleton.mp hnew
        exact .inr (.inr (.inl hstream))
    · exact .inr (.inr (.inl hconnected))
    · cases hc
  · have hnone := h.alone c hopening
    rw [htask] at hnone
    cases hnone
  · obtain ⟨answered, pending, hconversation⟩ := h.conversation c
    by_cases hc : c₀ = c
    · subst hc
      obtain rfl := hconversation.busy ⟨c₀, k, req⟩ (.inr ⟨resp, htask⟩) rfl
      refine ⟨answered ++ [⟨c₀, k, req⟩], [], ?_, ?_, Nat.zero_le 1, fun _ => rfl,
        fun r hr => absurd hr (hbusy r)⟩
      · rw [List.append_nil]
        exact hconversation.requests_eq
      · rw [hresponses, if_pos rfl]
        have hanswer : Answers s.session ⟨c₀, k, req⟩ (k, paired req resp) :=
          ⟨rfl, rfl, rfl, call, resp, hcall, hset, rfl, rfl⟩
        exact List.rel_append hconversation.answers (.cons hanswer .nil)
    · refine ⟨answered, pending, hconversation.requests_eq, ?_, hconversation.pending_le,
        fun hreads => absurd (hidle c hreads).symm hc, fun r hr => absurd hr (hbusy r)⟩
      rw [hresponses, if_neg hc, List.append_nil]
      exact hconversation.answers

theorem callStep_eq_some {s s' : ProxyClients} {event : ℕ → CsEvent}
    {after : ℕ → ℕ → CsMessage → CsCall → ClientTask} (h : s.callStep event after = some s') :
    ∃ client k req session c, s.handleClientTask = some (.invoking client k req) ∧
      s.session.step (event k) = some session ∧ session.calls[k]? = some c ∧
        s' = { s with session := session, handleClientTask := some (after client k req c) } := by
  rw [callStep] at h
  split at h
  · rename_i client k req htask
    obtain ⟨session, hsession, h⟩ := Option.bind_eq_some_iff.mp h
    obtain ⟨c, hc, rfl⟩ := Option.map_eq_some_iff.mp h
    exact ⟨client, k, req, session, c, htask, hsession, hc, rfl⟩
  · cases h

/-- A step of the call leaves the task with the request, with its response, or at an end. -/
inductive Follows (client k : ℕ) (req : CsMessage) (c : CsCall) : ClientTask → Prop
  | invoking : Follows client k req c (.invoking client k req)
  | timedOut : Follows client k req c (.timedOut client k)
  | responding {resp : CsMessage} (hset : c.response = .set resp) :
    Follows client k req c (.responding client k req resp)
  | ended (fault : Option ProxyFault) : Follows client k req c (.ended fault)

theorem follows_added (client k : ℕ) (req : CsMessage) (c : CsCall) :
    Follows client k req c (added client k req c) := by
  rw [added]
  split
  · exact .ended _
  · exact .invoking

theorem follows_sent (fault : Option ProxyFault) (client k : ℕ) (req : CsMessage) (c : CsCall) :
    Follows client k req c (sent fault client k req c) := by
  cases fault with
  | none => exact .invoking
  | some fault => exact .ended _

theorem follows_completed (client k : ℕ) (req : CsMessage) (c : CsCall) :
    Follows client k req c (completed client k req c) := by
  rw [completed]
  split
  · exact .responding ‹_›
  · exact .ended _
  · exact .ended _

theorem Routed.callStep {s s' : ProxyClients} (h : s.Routed) {event : ℕ → CsEvent}
    {after : ℕ → ℕ → CsMessage → CsCall → ClientTask}
    (hafter : ∀ client k req c, Follows client k req c (after client k req c))
    (hstep : s.callStep event after = some s') : s'.Routed := by
  obtain ⟨client, k, req, session, c, htask, hsession, hc, rfl⟩ := callStep_eq_some hstep
  have hrunning : s.handleClientTask ≠ none := by
    rw [htask]
    exact Option.some_ne_none _
  apply h.pass
  have hfollows := hafter client k req c
  generalize after client k req c = task at hfollows
  cases hfollows with
  | invoking | timedOut | ended =>
    refine passes_task (keepsCalls_of_step hsession) hrunning ?_ ?_ ?_ ?_ ?_ h.alone
    all_goals simp [ClientTask.client?, htask]
  | responding hset =>
    refine passes_task (keepsCalls_of_step hsession) hrunning ?_ ?_ ?_ ?_ ?_ h.alone
    · simp [ClientTask.client?, htask]
    · simp
    · simp
    · simp
    · rintro _ _ _ _ ⟨⟩
      exact ⟨htask, c, hc, hset⟩

theorem Routed.ended {s : ProxyClients} (h : s.Routed) {task : ClientTask}
    (htask : s.handleClientTask = some task) {moved : Option ℕ} {session : CsSession}
    (hsession : KeepsCalls moved s.session session) (fault : Option ProxyFault) :
    Routed { s with session := session, handleClientTask := some (.ended fault) } := by
  have hrunning : s.handleClientTask ≠ none := by
    rw [htask]
    exact Option.some_ne_none _
  exact h.pass (passes_ended fault hsession hrunning h.alone)

theorem Routed.checkCancellation {s s' : ProxyClients} (h : s.Routed)
    (hstep : s.step .checkCancellation = some s') : s'.Routed := by
  simp only [ProxyClients.step] at hstep
  split at hstep
  · obtain rfl := Option.some.inj hstep
    refine h.pass (passes_listener rfl rfl rfl rfl (.inl rfl) (.inl rfl) (.inr ?_) ?_)
    · cases hcanceled : s.listenerCanceled <;> simp [waiting]
    · cases hcanceled : s.listenerCanceled <;> simp
  · obtain rfl := Option.some.inj hstep
    refine h.pass (passes_listener rfl rfl rfl rfl (.inl rfl) (.inl rfl) (.inr ?_) ?_)
    · cases hcanceled : s.listenerCanceled <;> simp [waiting]
    · cases hcanceled : s.listenerCanceled <;> simp
  · cases hstep

theorem Routed.loop {s s' : ProxyClients} (h : s.Routed) {connected : Bool}
    (hstep : s.step (.loop connected) = some s') : s'.Routed := by
  simp only [ProxyClients.step] at hstep
  split at hstep
  case h_2 => cases hstep
  rename_i htask
  obtain rfl := Option.some.inj hstep
  rcases s.checkLoop_cases connected with ⟨client, hstream, hreading⟩ | ⟨fault, hended⟩
  · have hrunning : s.handleClientTask ≠ none := by
      rw [htask]
      exact Option.some_ne_none _
    rw [hreading]
    apply h.pass
    refine passes_task (.refl none _) hrunning ?_ ?_ ?_ ?_ ?_ h.alone
    · simp [ClientTask.client?, hstream]
    · simp
    · rintro c hc
      cases hc
      exact .inr ⟨htask, hstream⟩
    · simp
    · simp
  · rw [hended]
    exact h.ended htask (.refl none _) fault

theorem Routed.respondEvent {s s' : ProxyClients} (h : s.Routed) {fault : Option ProxyFault}
    (hstep : s.step (.respond fault) = some s') : s'.Routed := by
  simp only [ProxyClients.step] at hstep
  split at hstep
  · split at hstep
    · obtain rfl := Option.some.inj hstep
      exact h.ended ‹_› (.refl none _) _
    · obtain rfl := Option.some.inj hstep
      exact h.ended ‹_› (.refl none _) _
    · obtain rfl := Option.some.inj hstep
      exact h.respond ‹_› ‹_›
  · cases hstep

/-- A notification is written to the open stream and is no response. -/
theorem Routed.notification {s s' : ProxyClients} (h : s.Routed) {msg : CsMessage} {fails : Bool}
    (hstep : s.step (.notification msg fails) = some s') : s'.Routed := by
  simp only [ProxyClients.step] at hstep
  split_ifs at hstep
  split at hstep
  · obtain rfl := Option.some.inj hstep
    exact h
  · obtain rfl := Option.some.inj hstep
    exact h.pass (passes_listener rfl rfl rfl rfl (.inl rfl) (.inl rfl) (.inl rfl)
      fun _ hopening => .inr ⟨hopening, rfl⟩)
  · rename_i client hstream
    obtain rfl := Option.some.inj hstep
    refine h.pass ⟨⟨none, .refl none _⟩, rfl, fun c => ?_, fun w hw => ?_, rfl, .inl rfl,
      fun _ hopening => .inr ⟨hopening, rfl⟩, .inl rfl, fun _ => .inl, fun _ => id, fun _ => id,
      fun _ _ _ _ => .inl⟩
    · rw [responsesTo, List.filterMap_append]
      exact List.append_nil _
    · rcases List.mem_append.mp hw with hold | hnew
      · exact .inl hold
      · obtain rfl := List.mem_singleton.mp hnew
        exact .inr hstream

theorem Routed.sessionStep {s s' : ProxyClients} (h : s.Routed) {e : CsEvent}
    (hstep : s.step (.session e) = some s') : s'.Routed := by
  simp only [ProxyClients.step] at hstep
  split_ifs at hstep
  obtain ⟨session, hsession, rfl⟩ := Option.map_eq_some_iff.mp hstep
  exact h.pass ⟨⟨_, keepsCalls_of_step hsession⟩, rfl, fun _ => rfl, fun _ => .inl, rfl, .inl rfl,
    fun _ hopening => .inr ⟨hopening, rfl⟩, .inl rfl, fun _ => .inl, fun _ => id, fun _ => id,
    fun _ _ _ _ => .inl⟩

/-- The steps of the listener that start no task and open no client. -/
theorem Routed.listener {s s' : ProxyClients} (h : s.Routed) {e : ProxyClientEvent}
    (he : e = .dispose ∨ e = .acceptThrows ∨ e = .tick ∨ e = .openThrows)
    (hstep : s.step e = some s') : s'.Routed := by
  rcases he with rfl | rfl | rfl | rfl
  · obtain rfl := Option.some.inj hstep
    exact h.pass (passes_listener rfl rfl rfl rfl (.inl rfl) (.inl rfl) (.inl rfl)
      fun _ hopening => .inr ⟨hopening, rfl⟩)
  all_goals
    simp only [ProxyClients.step] at hstep
    split at hstep
    · obtain rfl := Option.some.inj hstep
      exact h.pass (passes_listener rfl rfl rfl rfl (.inl rfl) (.inl rfl) (.inr rfl)
        fun _ hopening => (by cases hopening))
    · cases hstep

theorem Routed.step {s s' : ProxyClients} {e : ProxyClientEvent} (h : s.Routed)
    (hstep : s.step e = some s') : s'.Routed := by
  cases e with
  | dispose | acceptThrows | tick | openThrows => exact h.listener (by simp) hstep
  | checkCancellation => exact h.checkCancellation hstep
  | accept =>
    simp only [ProxyClients.step] at hstep
    split at hstep
    · obtain rfl := Option.some.inj hstep
      exact h.accept
    · cases hstep
  | close =>
    simp only [ProxyClients.step] at hstep
    split at hstep
    · exact h.pass (passes_close ‹_› hstep)
    · cases hstep
  | openClient connected =>
    simp only [ProxyClients.step] at hstep
    split at hstep
    · obtain rfl := Option.some.inj hstep
      exact h.openClient ‹_› connected
    · cases hstep
  | loop connected => exact h.loop hstep
  | request req =>
    simp only [ProxyClients.step] at hstep
    split at hstep
    · obtain rfl := Option.some.inj hstep
      exact h.request ‹_› req
    · cases hstep
  | readThrows fault =>
    simp only [ProxyClients.step] at hstep
    split at hstep
    · obtain rfl := Option.some.inj hstep
      exact h.ended ‹_› (.refl none _) _
    · cases hstep
  | addTransaction => exact h.callStep follows_added hstep
  | writeMessage fault => exact h.callStep (follows_sent fault) hstep
  | timeout => exact h.callStep (fun _ _ _ _ => .timedOut) hstep
  | timeoutRemove =>
    simp only [ProxyClients.step] at hstep
    split at hstep
    · obtain ⟨session, hsession, rfl⟩ := Option.map_eq_some_iff.mp hstep
      exact h.ended ‹_› (keepsCalls_of_step hsession) _
    · cases hstep
  | complete => exact h.callStep follows_completed hstep
  | respond fault => exact h.respondEvent hstep
  | notification msg fails => exact h.notification hstep
  | session e => exact h.sessionStep hstep

theorem routed_of_run {s : ProxyClients} {es : List ProxyClientEvent}
    (hrun : run ProxyClients.step init es = some s) : s.Routed :=
  run_invariant (fun _ _ _ h hstep => h.step hstep) routed_init hrun

def firstClient : List ProxyClientEvent :=
  [.checkCancellation, .accept, .openClient true, .request ⟨9, 3, false, [1]⟩, .addTransaction,
    .writeMessage none]

def firstResponse : List ProxyClientEvent :=
  [.session (.readMessage ⟨1, 3, true, [7]⟩), .session .setResponse, .complete, .respond none]

/-- Another client, until the connection of the one before is closed. -/
def secondClient : List ProxyClientEvent :=
  [.checkCancellation, .checkCancellation, .accept, .close]

def twoClients : List ProxyClientEvent :=
  firstClient ++ firstResponse ++ [.loop true] ++ secondClient ++
    [.close, .readThrows .operationCanceled, .close, .close, .openClient true,
      .request ⟨9, 4, false, [2]⟩, .addTransaction, .writeMessage none,
      .session (.readMessage ⟨2, 4, true, [8]⟩), .session .setResponse, .complete, .respond none]

end ProxyClients

end CompostRpc
