import CompostRpc.CsLinkMessages

/-!
# Replies and calls of a C# session

The server answers the requests under their numbers, and the session gives a response to the
transaction in the slot of its number. So a call can only get the reply to a call with the same
number. As long as no transaction is taken out of the table except by a response, the slot belongs
to the call whose request or reply is on the way, and every call gets the reply to its own request.
-/

namespace CompostRpc
open TransitionRun

def CsCall.IsUnsent (c : CsCall) : Prop := c.phase = .aquired ∨ c.phase = .added

namespace CsSession

/-- No call is new, none goes back before its write, and a new response is that of the transaction
that the read task holds. -/
structure Follows (s s' : CsSession) : Prop where
  calls : ∀ (k : ℕ) (c' : CsCall), s'.calls[k]? = some c' →
    ∃ c, s.calls[k]? = some c ∧ (c'.IsUnsent → c.IsUnsent) ∧
      ∀ msg, c'.response = .set msg →
        c.response = .set msg ∨ ∃ t, s.fetched = some (t, msg) ∧ t.call = k
  fetched : ∀ p, s'.fetched = some p → s.fetched = some p
  length_eq : s'.calls.length = s.calls.length

theorem Follows.refl (s : CsSession) : Follows s s :=
  ⟨fun _ c' hc' => ⟨c', hc', id, fun _ => .inl⟩, fun _ => id, rfl⟩

theorem Follows.trans {s s' s'' : CsSession} (h : Follows s s') (h' : Follows s' s'') :
    Follows s s'' := by
  refine ⟨fun k c'' hc'' => ?_, fun p hp => h.fetched p (h'.fetched p hp),
    h'.length_eq.trans h.length_eq⟩
  obtain ⟨c', hc', hunsent', hresponse'⟩ := h'.calls k c'' hc''
  obtain ⟨c, hc, hunsent, hresponse⟩ := h.calls k c' hc'
  refine ⟨c, hc, hunsent ∘ hunsent', fun msg hmsg => ?_⟩
  rcases hresponse' msg hmsg with hset | ⟨t, ht, hk⟩
  · exact hresponse msg hset
  · exact .inr ⟨t, h.fetched _ ht, hk⟩

/-- A change of one call. -/
theorem follows_updateCall (s : CsSession) (k : ℕ) {f : CsCall → CsCall}
    (hunsent : ∀ c, s.calls[k]? = some c → (f c).IsUnsent → c.IsUnsent)
    (hresponse : ∀ c msg, (f c).response = .set msg →
      c.response = .set msg ∨ ∃ t, s.fetched = some (t, msg) ∧ t.call = k) :
    Follows s (s.updateCall k f) := by
  refine ⟨fun j c' hj => ?_, fun _ => id, updateCall_calls_length ..⟩
  simp only [updateCall, List.getElem?_modify] at hj
  obtain ⟨c, hc, rfl⟩ := Option.map_eq_some_iff.mp hj
  refine ⟨c, hc, ?_⟩
  by_cases hkj : k = j
  · subst hkj
    rw [if_pos rfl]
    exact ⟨hunsent c hc, hresponse c⟩
  · rw [if_neg hkj]
    exact ⟨id, fun _ => .inl⟩

theorem follows_enter (s : CsSession) (k : ℕ) {phase : CallPhase}
    (h : ∀ c, s.calls[k]? = some c → (c.enter phase).IsUnsent → c.IsUnsent) :
    Follows s (s.updateCall k (·.enter phase)) := follows_updateCall s k h fun _ _ => .inl

theorem not_isUnsent_enter {phase : CallPhase} (h : phase ≠ .aquired ∧ phase ≠ .added)
    (c : CsCall) : ¬ (c.enter phase).IsUnsent := by
  rintro (haquired | hadded)
  · exact h.1 haquired
  · exact h.2 hadded

theorem response_trySet {c : CsCall} {response : Response} {msg : CsMessage}
    (h : (c.trySet response).response = .set msg) :
    c.response = .set msg ∨ response = .set msg := by
  rw [CsCall.trySet] at h
  split at h
  · exact .inr h
  · exact .inl h

theorem isUnsent_trySet {c : CsCall} {response : Response} (h : (c.trySet response).IsUnsent) :
    c.IsUnsent := by
  rw [CsCall.IsUnsent, phase_trySet] at h
  exact h

/-- A call that ends, or waits for its response. -/
theorem follows_enter_later (s : CsSession) (k : ℕ) {phase : CallPhase}
    (h : phase ≠ .aquired ∧ phase ≠ .added) : Follows s (s.updateCall k (·.enter phase)) :=
  s.follows_enter k fun c _ hunsent => absurd hunsent (not_isUnsent_enter h c)

theorem follows_of_calls_eq {s s' : CsSession} (hcalls : s'.calls = s.calls)
    (hfetched : ∀ p, s'.fetched = some p → s.fetched = some p) : Follows s s' :=
  ⟨fun _ c' hc' => ⟨c', hcalls ▸ hc', id, fun _ => .inl⟩, hfetched, congrArg _ hcalls⟩

theorem follows_addTransaction (s : CsSession) {k : ℕ} {c : CsCall} (hcall : s.calls[k]? = some c)
    (hphase : c.phase = .aquired) : Follows s (s.addTransaction k c) := by
  rw [addTransaction]
  split
  · exact s.follows_enter_later k (by decide)
  · refine (s.follows_enter k fun c' hc' _ => ?_).trans (follows_of_calls_eq rfl fun _ => id)
    obtain rfl := Option.some.inj (hcall.symm.trans hc')
    exact .inl hphase

theorem follows_clearSlot (s : CsSession) (i : UInt8) : Follows s (s.clearSlot i) := by
  rw [clearSlot]
  split
  · rename_i t _
    apply (s.follows_updateCall t.call (fun _ _ => isUnsent_trySet) fun c msg h => ?_).trans
    · exact follows_of_calls_eq rfl fun _ => id
    · rcases response_trySet h with hset | hcanceled
      · exact .inl hset
      · cases hcanceled
  · exact .refl s

theorem follows_clearTransactions (s : CsSession) : Follows s s.clearTransactions :=
  List.foldlRecOn (motive := Follows s) _ _ (.refl s) fun s' h i _ =>
    h.trans (follows_clearSlot s' i)

def isLater : InvokeEvent → Bool
  | .session .aquire | .session (.readMessage _) => false
  | _ => true

theorem follows_of_invokeStep {s s' : CsSession} {e : InvokeEvent} (hlater : isLater e = true)
    (h : s.invokeStep e = some s') : Follows s s' := by
  match e with
  | .serializationError k =>
    obtain ⟨c, hc, rfl⟩ := Option.map_eq_some_iff.mp h
    exact s.follows_enter_later k (by decide)
  | .session e =>
    cases stepped_of_step h with
    | aquire => cases hlater
    | readMessage => cases hlater
    | addTransaction hcall hphase => exact s.follows_addTransaction hcall hphase
    | @writeMessage k c phase hcall hphase throws hnext =>
      apply s.follows_enter_later k
      rw [hnext]
      split <;> decide
    | timeout | complete => exact s.follows_enter_later _ (by decide)
    | @timeoutRemove k =>
      have hfinished : Follows s (s.updateCall k (·.enter .finished)) :=
        s.follows_enter_later k (by decide)
      exact hfinished.trans (follows_of_calls_eq rfl fun _ => id)
    | @setResponse t msg hfetched =>
      refine ((s.follows_updateCall t.call (fun _ _ => isUnsent_trySet) fun c msg' h => ?_).trans
        (follows_of_calls_eq rfl fun p hp => by cases hp))
      rcases response_trySet h with hset | hnew
      · exact .inl hset
      · obtain rfl := Response.set.inj hnew
        exact .inr ⟨t, hfetched, rfl⟩
    | clearTransactions => exact follows_clearTransactions s

theorem Numbered.invokeStep {s s' : CsSession} {e : InvokeEvent} (h : s.Numbered)
    (hstep : s.invokeStep e = some s') : s'.Numbered := by
  match e with
  | .session e => exact h.step hstep
  | .serializationError k =>
    obtain ⟨c, hc, rfl⟩ := Option.map_eq_some_iff.mp hstep
    exact h.enter k .finished

/-- A call that writes its message has just added its transaction. -/
theorem added_of_puts {s s' : CsSession} {e : InvokeEvent} {k : ℕ} (h : s.invokeStep e = some s')
    (hputs : CsSystem.puts e = some k) : ∃ c, s.calls[k]? = some c ∧ c.phase = .added ∧
      s' = s.updateCall k (·.enter .written) := by
  match e with
  | .serializationError j => cases hputs
  | .session e =>
    cases stepped_of_step h with
    | @writeMessage j c phase hcall hphase throws hnext =>
      cases throws with
      | true => cases hputs
      | false =>
        obtain rfl := Option.some.inj hputs
        exact ⟨c, hcall, hphase, congrArg (fun phase => s.updateCall j (·.enter phase)) hnext⟩
    | _ => cases hputs

end CsSession

namespace CsSystem
open CsSession

def servedCalls (s : CsSystem) : List ℕ := s.served.map Exchange.call

def answered (s : CsSystem) : List ℕ := s.replies.filterMap Sent.origin

/-- The message is what the server has sent in reply to the request of the call. -/
def IsReplyTo (s : CsSystem) (k : ℕ) (msg : CsMessage) : Prop :=
  ∃ bytes, ⟨k, some bytes⟩ ∈ s.served ∧ CsMessage.ofBytes bytes = .ok msg

def IsReplyUnder (s : CsSystem) (k : ℕ) (msg : CsMessage) : Prop :=
  ∃ j, s.IsReplyTo j msg ∧ txnIDOf j = txnIDOf k

variable (srv : Server)

/-- What is on the way was written by a call or sent by the server, and every response is one to a
request with the number of its call. -/
structure Linked (s : CsSystem) : Prop where
  numbered : s.session.Numbered
  length_eq : s.messages.length = s.session.calls.length
  messages : ∀ k bytes, s.message k = some bytes → IsCall (txnIDOf k) bytes
  written : ∀ k ∈ s.requests ++ s.servedCalls, k < s.session.calls.length
  unsent : ∀ (k : ℕ) (c : CsCall), s.session.calls[k]? = some c → c.IsUnsent →
    k ∉ s.requests ++ s.servedCalls
  nodup : (s.requests ++ s.servedCalls).Nodup
  answered_nodup : s.answered.Nodup
  replies : ∀ r ∈ s.replies, ∀ k, r.origin = some k → ⟨k, some r.bytes⟩ ∈ s.served
  emitted : ∀ r ∈ s.replies, r.origin = none →
    ∃ msg, CsMessage.ofBytes r.bytes = .ok msg ∧ msg.resp = false
  served : ∀ v ∈ s.served,
    ∃ mem request, s.message v.call = some request ∧ v.reply = srv.serve mem request
  fetched : ∀ t msg, s.session.fetched = some (t, msg) →
    t.call < s.session.calls.length ∧ s.IsReplyUnder t.call msg
  responses : ∀ (k : ℕ) (c : CsCall) msg, s.session.calls[k]? = some c → c.response = .set msg →
    s.IsReplyUnder k msg

theorem linked_init : Linked srv init where
  numbered := numbered_init
  length_eq := rfl
  messages := by simp [message, init]
  written := by simp [servedCalls, init]
  unsent := by simp [servedCalls, init]
  nodup := by simp [servedCalls, init]
  answered_nodup := by simp [answered, init]
  replies := by simp [init]
  emitted := by simp [init]
  served := by simp [init]
  fetched := by simp [init, CsSession.init]
  responses := by simp [init, CsSession.init]

variable {srv}

theorem IsReplyTo.mono {s s' : CsSystem} {k : ℕ} {msg : CsMessage} (h : s.IsReplyTo k msg)
    (hserved : s.served ⊆ s'.served) : s'.IsReplyTo k msg := by
  obtain ⟨bytes, hmem, hbytes⟩ := h
  exact ⟨bytes, hserved hmem, hbytes⟩

theorem IsReplyUnder.mono {s s' : CsSystem} {k : ℕ} {msg : CsMessage} (h : s.IsReplyUnder k msg)
    (hserved : s.served ⊆ s'.served) : s'.IsReplyUnder k msg := by
  obtain ⟨j, hj, htxn⟩ := h
  exact ⟨j, hj.mono hserved, htxn⟩

/-- What the server has sent in reply to a call is a response under its number. -/
theorem Linked.isResponse {s : CsSystem} (h : Linked srv s) {k : ℕ} {bytes : List UInt8}
    (hmem : ⟨k, some bytes⟩ ∈ s.served) : IsResponse (txnIDOf k) bytes := by
  obtain ⟨mem, request, hmessage, hreply⟩ := h.served _ hmem
  have hserve := srv.serve_isCall (h.messages k request hmessage) mem
  rw [← hreply] at hserve
  exact hserve

theorem message_append {s : CsSystem} {r : Except CsError (List UInt8)} {k : ℕ}
    {session : CsSession} :
    message { s with session := session, messages := s.messages ++ [r] } k =
      if k = s.messages.length then r.toOption else s.message k := by
  simp only [message]
  rcases Nat.lt_trichotomy k s.messages.length with hlt | rfl | hgt
  · rw [List.getElem?_append_left hlt, if_neg hlt.ne]
  · rw [List.getElem?_concat_length, if_pos rfl]
    rfl
  · rw [List.getElem?_eq_none (by simp; omega), List.getElem?_eq_none hgt.le, if_neg hgt.ne']

theorem message_append_of_some {s : CsSystem} {r : Except CsError (List UInt8)} {k : ℕ}
    {session : CsSession} {bytes : List UInt8} (h : s.message k = some bytes) :
    message { s with session := session, messages := s.messages ++ [r] } k = some bytes := by
  have hne : k ≠ s.messages.length := by
    rintro rfl
    simp [message] at h
  rw [message_append, if_neg hne, h]

/-- The calls after a new one. -/
theorem getElem?_aquire {s : CsSession} {k : ℕ} {c : CsCall}
    (h : s.aquireNextTxnId.calls[k]? = some c) :
    s.calls[k]? = some c ∨ k = s.calls.length ∧ c = ⟨s.txnCounter, .aquired, .pending⟩ := by
  rcases Nat.lt_trichotomy k s.calls.length with hlt | rfl | hgt
  · rw [aquireNextTxnId, List.getElem?_append_left hlt] at h
    exact .inl h
  · rw [aquireNextTxnId, List.getElem?_concat_length] at h
    exact .inr ⟨rfl, (Option.some.inj h).symm⟩
  · rw [aquireNextTxnId, List.getElem?_eq_none (by simp; omega)] at h
    cases h

theorem Linked.invoke {s : CsSystem} (h : Linked srv s) (rpcId : UInt16)
    (args : RequestArguments) : Linked srv { s with
      session := s.session.aquireNextTxnId
      messages := s.messages ++ [args.message s.session.txnCounter rpcId] } where
  numbered := h.numbered.aquire
  length_eq := by simp [aquireNextTxnId, h.length_eq]
  messages := fun k bytes hk => by
    rw [message_append] at hk
    split at hk
    · rename_i hlast
      have htxn : s.session.txnCounter = txnIDOf k := by
        rw [h.numbered.counter_eq, hlast, h.length_eq]
      cases hmessage : args.message s.session.txnCounter rpcId with
      | error e =>
        rw [hmessage] at hk
        cases hk
      | ok message =>
        rw [hmessage] at hk
        obtain rfl := Option.some.inj hk
        exact htxn ▸ args.isCall_message hmessage
    · exact h.messages k bytes hk
  written := fun k hk => by
    have hlt := h.written k hk
    simp only [aquireNextTxnId, List.length_append, List.length_singleton]
    omega
  unsent := fun k c hk hc => by
    rcases getElem?_aquire hk with hold | ⟨rfl, -⟩
    · exact h.unsent k c hold hc
    · exact fun hmem => (h.written _ hmem).ne rfl
  nodup := h.nodup
  answered_nodup := h.answered_nodup
  replies := h.replies
  emitted := h.emitted
  served := fun v hv => by
    obtain ⟨mem, request, hmessage, hreply⟩ := h.served v hv
    exact ⟨mem, request, message_append_of_some hmessage, hreply⟩
  fetched := fun t msg ht => by
    obtain ⟨hlt, hreply⟩ := h.fetched t msg ht
    refine ⟨?_, hreply⟩
    simp only [aquireNextTxnId, List.length_append, List.length_singleton]
    omega
  responses := fun k c msg hk hc => by
    rcases getElem?_aquire hk with hold | ⟨-, rfl⟩
    · exact h.responses k c msg hold hc
    · cases hc

/-- A step of a call that puts nothing on the link. -/
theorem Linked.follows {s : CsSystem} (h : Linked srv s) {session : CsSession}
    (hfollows : Follows s.session session) (hnumbered : session.Numbered) :
    Linked srv { s with session := session } where
  numbered := hnumbered
  length_eq := h.length_eq.trans hfollows.length_eq.symm
  messages := h.messages
  written := fun k hk => (h.written k hk).trans_eq hfollows.length_eq.symm
  unsent := fun k c' hk hc' => by
    obtain ⟨c, hc, hunsent, -⟩ := hfollows.calls k c' hk
    exact h.unsent k c hc (hunsent hc')
  nodup := h.nodup
  answered_nodup := h.answered_nodup
  replies := h.replies
  emitted := h.emitted
  served := h.served
  fetched := fun t msg ht => by
    obtain ⟨hlt, hreply⟩ := h.fetched t msg (hfollows.fetched _ ht)
    exact ⟨hlt.trans_eq hfollows.length_eq.symm, hreply⟩
  responses := fun k c' msg hk hc' => by
    obtain ⟨c, hc, -, hresponse⟩ := hfollows.calls k c' hk
    rcases hresponse msg hc' with hset | ⟨t, ht, rfl⟩
    · exact h.responses k c msg hc hset
    · exact (h.fetched t msg ht).2

/-- A call that is not waiting to write any more and whose message is not on the way yet. -/
theorem Linked.put {s : CsSystem} (h : Linked srv s) {k : ℕ} (hlt : k < s.session.calls.length)
    (hnew : k ∉ s.requests ++ s.servedCalls)
    (hsent : ∀ c, s.session.calls[k]? = some c → ¬ c.IsUnsent) :
    Linked srv { s with requests := s.requests ++ [k] } := by
  have hperm : (s.requests ++ [k] ++ s.servedCalls).Perm (k :: (s.requests ++ s.servedCalls)) := by
    rw [List.append_assoc]
    exact List.perm_middle
  refine { h with written := fun j hj => ?_, unsent := fun j c hj hc hmem => ?_, nodup := ?_ }
  · rcases List.mem_cons.mp (hperm.mem_iff.mp hj) with rfl | hold
    · exact hlt
    · exact h.written j hold
  · rcases List.mem_cons.mp (hperm.mem_iff.mp hmem) with rfl | hold
    · exact hsent c hj hc
    · exact h.unsent j c hj hc hold
  · exact hperm.nodup_iff.mpr (List.nodup_cons.mpr ⟨hnew, h.nodup⟩)

theorem isLater_of_allowed {s : CsSystem} {e : InvokeEvent} (h : s.allowed e = true) :
    isLater e = true := by
  match e with
  | .serializationError k => rfl
  | .session .aquire | .session (.readMessage msg) => cases h
  | .session (.addTransaction k) | .session (.writeMessage k throws) | .session (.timeout k)
  | .session (.timeoutRemove k) | .session (.complete k) | .session .setResponse
  | .session .clearTransactions => rfl

theorem Linked.client {s s' : CsSystem} (h : Linked srv s) {e : InvokeEvent}
    (hstep : step srv s (.client e) = some s') : Linked srv s' := by
  rw [step] at hstep
  split_ifs at hstep with hallowed
  obtain ⟨session, hsession, rfl⟩ := Option.map_eq_some_iff.mp hstep
  have hlater := isLater_of_allowed hallowed
  have hfollows := follows_of_invokeStep hlater hsession
  have hnext := h.follows hfollows (h.numbered.invokeStep hsession)
  cases hputs : puts e with
  | none => simpa only [Option.toList_none, List.append_nil] using hnext
  | some k =>
    obtain ⟨c, hcall, hphase, rfl⟩ := added_of_puts hsession hputs
    have hlt := (List.getElem?_eq_some_iff.mp hcall).1
    refine hnext.put (hlt.trans_eq hfollows.length_eq.symm) (h.unsent k c hcall (.inr hphase)) ?_
    intro c' hc' hunsent
    rw [getElem?_updateCall hcall] at hc'
    obtain rfl := Option.some.inj hc'
    exact not_isUnsent_enter (by decide) c hunsent

theorem mem_answered {s : CsSystem} {k : ℕ} :
    k ∈ s.answered ↔ ∃ r ∈ s.replies, r.origin = some k := List.mem_filterMap

theorem Linked.answered_subset {s : CsSystem} (h : Linked srv s) : s.answered ⊆ s.servedCalls := by
  intro k hk
  obtain ⟨r, hr, horigin⟩ := mem_answered.mp hk
  exact List.mem_map.mpr ⟨_, h.replies r hr k horigin, rfl⟩

theorem Linked.serve {s : CsSystem} (h : Linked srv s) {k : ℕ} {rest : List ℕ}
    (hrequests : s.requests = k :: rest) {request : List UInt8}
    (hmessage : s.message k = some request) (mem : ByteMemory) :
    Linked srv (s.serve srv mem k request) := by
  have hnodup := h.nodup
  rw [hrequests] at hnodup
  have hcalls : (s.serve srv mem k request).requests ++ (s.serve srv mem k request).servedCalls =
      rest ++ (s.servedCalls ++ [k]) := by
    simp [CsSystem.serve, servedCalls, hrequests]
  have hperm : (rest ++ (s.servedCalls ++ [k])).Perm (s.requests ++ s.servedCalls) := by
    rw [hrequests, ← List.append_assoc]
    exact List.perm_append_singleton k _
  have hsubset : s.served ⊆ (s.serve srv mem k request).served := List.subset_append_left _ _
  have hk : k ∉ s.answered := fun hmem => by
    have hnot := (List.nodup_cons.mp hnodup).1
    exact hnot (List.mem_append_right rest (h.answered_subset hmem))
  refine ⟨h.numbered, h.length_eq, h.messages, fun j hj => ?_, fun j c hj hc hmem => ?_, ?_, ?_,
    fun r hr j horigin => ?_, fun r hr horigin => ?_, fun v hv => ?_, fun t msg ht => ?_,
    fun j c msg hj hc => (h.responses j c msg hj hc).mono hsubset⟩
  · rw [hcalls, hperm.mem_iff] at hj
    exact h.written j hj
  · rw [hcalls, hperm.mem_iff] at hmem
    exact h.unsent j c hj hc hmem
  · rw [hcalls]
    exact hperm.nodup_iff.mpr h.nodup
  · have hanswered : (s.serve srv mem k request).answered =
        s.answered ++ (srv.serve mem request).toList.map fun _ => k := by
      simp only [answered, CsSystem.serve, List.filterMap_append, List.filterMap_map]
      cases srv.serve mem request <;> rfl
    rw [hanswered]
    cases srv.serve mem request with
    | none => simpa using h.answered_nodup
    | some reply => exact List.nodup_append_comm.mp (List.nodup_cons.mpr ⟨hk, h.answered_nodup⟩)
  · rcases List.mem_append.mp hr with hold | hnew
    · exact hsubset (h.replies r hold j horigin)
    · obtain ⟨bytes, hbytes, rfl⟩ := List.mem_map.mp hnew
      obtain rfl := Option.some.inj horigin
      have hreply : srv.serve mem request = some bytes := Option.mem_toList.mp hbytes
      simp only [CsSystem.serve, hreply, List.mem_append, List.mem_singleton, or_true]
  · rcases List.mem_append.mp hr with hold | hnew
    · exact h.emitted r hold horigin
    · obtain ⟨bytes, -, rfl⟩ := List.mem_map.mp hnew
      cases horigin
  · rcases List.mem_append.mp hv with hold | hnew
    · exact h.served v hold
    · obtain rfl := List.mem_singleton.mp hnew
      exact ⟨mem, request, hmessage, rfl⟩
  · obtain ⟨hlt, hreply⟩ := h.fetched t msg ht
    exact ⟨hlt, hreply.mono hsubset⟩

theorem Linked.emit {s : CsSystem} (h : Linked srv s) {bytes : List UInt8}
    (hbytes : ∃ msg, CsMessage.ofBytes bytes = .ok msg ∧ msg.resp = false) :
    Linked srv { s with replies := s.replies ++ [⟨none, bytes⟩] } := by
  refine { h with
    answered_nodup := ?_
    replies := fun r hr j horigin => ?_
    emitted := fun r hr horigin => ?_ }
  · simpa [answered] using h.answered_nodup
  · rcases List.mem_append.mp hr with hold | hnew
    · exact h.replies r hold j horigin
    · obtain rfl := List.mem_singleton.mp hnew
      cases horigin
  · rcases List.mem_append.mp hr with hold | hnew
    · exact h.emitted r hold horigin
    · obtain rfl := List.mem_singleton.mp hnew
      exact hbytes

/-- The session reads a message only between two responses. -/
theorem readMessage_of_step {s s' : CsSession} {msg : CsMessage}
    (h : s.step (.readMessage msg) = some s') : s.fetched = none ∧ s' = s.readMessage msg := by
  cases stepped_of_step h with
  | readMessage _ hfetched => exact ⟨hfetched, rfl⟩

/-- A response that is read is one for the transaction in the slot of its number. -/
theorem fetched_readMessage {s : CsSession} {msg msg' : CsMessage} {t : Transaction}
    (hnone : s.fetched = none) (h : (s.readMessage msg).fetched = some (t, msg')) :
    msg' = msg ∧ msg.resp = true ∧ s.txnDict msg.txn = some t := by
  rw [CsSession.readMessage] at h
  split at h
  · rename_i hresp
    obtain ⟨t', ht', heq⟩ := Option.map_eq_some_iff.mp h
    obtain ⟨rfl, rfl⟩ := Prod.mk.inj heq
    exact ⟨rfl, hresp, ht'⟩
  · rw [hnone] at h
    cases h

theorem Linked.deliver {s : CsSystem} (h : Linked srv s) {sent : Sent} {rest : List Sent}
    (hreplies : s.replies = sent :: rest) {msg : CsMessage}
    (hmsg : CsMessage.ofBytes sent.bytes = .ok msg) (hnone : s.session.fetched = none) :
    Linked srv { s with session := s.session.readMessage msg, replies := rest } := by
  have hcalls := readMessage_calls s.session msg
  have hmem : ∀ r ∈ rest, r ∈ s.replies := fun r hr => hreplies ▸ List.mem_cons_of_mem _ hr
  have hsublist : rest.Sublist s.replies := hreplies ▸ List.sublist_cons_self sent rest
  refine ⟨h.numbered.readMessage msg, ?_, h.messages, fun k hk => ?_, fun k c hk hc => ?_,
    h.nodup, h.answered_nodup.sublist (hsublist.filterMap _), fun r hr => h.replies r (hmem r hr),
    fun r hr => h.emitted r (hmem r hr), h.served, fun t msg' ht => ?_, fun k c msg' hk hc => ?_⟩
  · exact h.length_eq.trans (congrArg List.length hcalls).symm
  · rw [hcalls]
    exact h.written k hk
  · rw [hcalls] at hk
    exact h.unsent k c hk hc
  · obtain ⟨rfl, hresp, hslot⟩ := fetched_readMessage hnone ht
    obtain ⟨htxn, hnumbers⟩ := h.numbered.slots _ _ hslot
    rw [hcalls]
    refine ⟨hnumbers.call_lt, ?_⟩
    cases horigin : sent.origin with
    | none =>
      obtain ⟨msg, hmsg', hfalse⟩ := h.emitted sent (hreplies ▸ List.mem_cons_self) horigin
      rw [hmsg] at hmsg'
      obtain rfl := Except.ok.inj hmsg'
      rw [hresp] at hfalse
      cases hfalse
    | some j =>
      have hserved := h.replies sent (hreplies ▸ List.mem_cons_self) j horigin
      obtain ⟨msg, hmsg', htxn', -⟩ := h.isResponse hserved
      rw [hmsg] at hmsg'
      obtain rfl := Except.ok.inj hmsg'
      exact ⟨j, ⟨_, hserved, hmsg⟩, htxn'.symm.trans (htxn.symm.trans hnumbers.txnID_eq)⟩
  · rw [hcalls] at hk
    exact h.responses k c msg' hk hc

theorem serve_of_step {s s' : CsSystem} {mem : ByteMemory}
    (h : step srv s (.serve mem) = some s') : ∃ k rest request, s.requests = k :: rest ∧
      s.message k = some request ∧ s' = s.serve srv mem k request := by
  simp only [step] at h
  split at h
  · cases h
  · rename_i k rest hrequests
    obtain ⟨request, hmessage, rfl⟩ := Option.map_eq_some_iff.mp h
    exact ⟨k, rest, request, hrequests, hmessage, rfl⟩

theorem emit_of_step {s s' : CsSystem} {position : ℕ} {args : (d : Rpc) → CValues d.params}
    {mem : ByteMemory} (h : step srv s (.emit position args mem) = some s') :
    ∃ bytes, (∃ msg, CsMessage.ofBytes bytes = .ok msg ∧ msg.resp = false) ∧
      s' = { s with replies := s.replies ++ [⟨none, bytes⟩] } := by
  obtain ⟨d, -, hemit⟩ := Option.bind_eq_some_iff.mp h
  split_ifs at hemit
  obtain rfl := Option.some.inj hemit
  exact ⟨_, Server.ofBytes_emit d mem _, rfl⟩

theorem deliver_of_step {s s' : CsSystem} (h : step srv s .deliver = some s') :
    ∃ sent rest msg, s.replies = sent :: rest ∧ CsMessage.ofBytes sent.bytes = .ok msg ∧
      s.session.fetched = none ∧
        s' = { s with session := s.session.readMessage msg, replies := rest } := by
  simp only [step] at h
  split at h
  · cases h
  · rename_i sent rest hreplies
    split at h
    · cases h
    · rename_i msg hmsg
      obtain ⟨session, hread, rfl⟩ := Option.map_eq_some_iff.mp h
      obtain ⟨hnone, rfl⟩ := readMessage_of_step hread
      exact ⟨sent, rest, msg, hreplies, hmsg, hnone, rfl⟩

theorem Linked.step {s s' : CsSystem} {e : CsSystemEvent} (h : Linked srv s)
    (hstep : step srv s e = some s') : Linked srv s' := by
  cases e with
  | invoke rpcId args =>
    obtain rfl := Option.some.inj hstep
    exact h.invoke rpcId args
  | client e => exact h.client hstep
  | serve mem =>
    obtain ⟨k, rest, request, hrequests, hmessage, rfl⟩ := serve_of_step hstep
    exact h.serve hrequests hmessage mem
  | emit position args mem =>
    obtain ⟨bytes, hbytes, rfl⟩ := emit_of_step hstep
    exact h.emit hbytes
  | deliver =>
    obtain ⟨sent, rest, msg, hreplies, hmsg, hnone, rfl⟩ := deliver_of_step hstep
    exact h.deliver hreplies hmsg hnone

theorem linked_of_run {s : CsSystem} {es : List CsSystemEvent}
    (hrun : run (CsSystem.step srv) init es = some s) : Linked srv s :=
  run_invariant (fun _ _ _ h hstep => h.step hstep) (linked_init srv) hrun

end CsSystem

end CompostRpc
