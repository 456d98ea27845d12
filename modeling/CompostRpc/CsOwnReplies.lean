import CompostRpc.CsPairing

/-!
# Calls that get their own replies

In a run in which no call times out and the table is never cleared, a transaction leaves the table
only for a response, and the slot of a number belongs to the call whose request or reply is on the
way. Then every response is the reply to the request of its call, and when nothing is on the way any
more every call that has written its message has its reply, unless the server had none to send.
-/

namespace CompostRpc
open TransitionRun

namespace CsSession

def HasResponse (s : CsSession) (k : ℕ) : Prop :=
  ∃ c, s.calls[k]? = some c ∧ c.response ≠ .pending

/-- What an event of a call leaves, if it is neither a timeout nor the removal after one. -/
structure Keeps (s : CsSession) (e : InvokeEvent) (s' : CsSession) : Prop where
  slots : ∀ i t, s.txnDict i = some t → s'.txnDict i = some t
  added : ∀ (k : ℕ) (c' : CsCall), s'.calls[k]? = some c' → c'.phase = .added →
    (∃ c, s.calls[k]? = some c ∧ c.phase = .added) ∨
      e = .session (.addTransaction k) ∧ s'.txnDict c'.txnID = some ⟨k, c'.txnID⟩
  written : ∀ (k : ℕ) (c' : CsCall), s'.calls[k]? = some c' → c'.phase = .written →
    (∃ c, s.calls[k]? = some c ∧ c.phase = .written) ∨ CsSystem.puts e = some k
  responses : ∀ k, s.HasResponse k → s'.HasResponse k
  fetched : ∀ t msg, s.fetched = some (t, msg) → t.call < s.calls.length →
    s'.fetched = some (t, msg) ∨ s'.HasResponse t.call
  canceled : ∀ (k : ℕ) (c' : CsCall), s'.calls[k]? = some c' → c'.response = .canceled →
    ∃ c, s.calls[k]? = some c ∧ c.response = .canceled

/-- A call is changed otherwise than by a cancellation. -/
theorem canceled_updateCall {s : CsSession} {j k : ℕ} {f : CsCall → CsCall}
    (hf : ∀ c, (f c).response = .canceled → c.response = .canceled) {c' : CsCall}
    (hj : (s.updateCall k f).calls[j]? = some c') (hc' : c'.response = .canceled) :
    ∃ c, s.calls[j]? = some c ∧ c.response = .canceled := by
  simp only [updateCall, List.getElem?_modify] at hj
  obtain ⟨c, hc, rfl⟩ := Option.map_eq_some_iff.mp hj
  split at hc'
  · exact ⟨c, hc, hf c hc'⟩
  · exact ⟨c, hc, hc'⟩

theorem hasResponse_updateCall {s : CsSession} {j k : ℕ} {f : CsCall → CsCall}
    (hf : ∀ c, c.response ≠ .pending → (f c).response ≠ .pending) (h : s.HasResponse j) :
    (s.updateCall k f).HasResponse j := by
  obtain ⟨c, hc, hresponse⟩ := h
  by_cases hjk : j = k
  · subst hjk
    exact ⟨f c, getElem?_updateCall hc f, hf c hresponse⟩
  · exact ⟨c, (getElem?_updateCall_of_ne s hjk f).trans hc, hresponse⟩

/-- A call that goes on to a phase, other than one in which it waits to write. -/
theorem keeps_enter (s : CsSession) (e : InvokeEvent) (k : ℕ) {phase : CallPhase}
    (hadded : phase ≠ .added) (hwritten : phase = .written → CsSystem.puts e = some k) :
    Keeps s e (s.updateCall k (·.enter phase)) := by
  have hcalls : ∀ (j : ℕ) (c' : CsCall),
      (s.updateCall k (·.enter phase)).calls[j]? = some c' →
      s.calls[j]? = some c' ∨ j = k ∧ c'.phase = phase := by
    intro j c' hj
    simp only [updateCall, List.getElem?_modify] at hj
    obtain ⟨c, hc, rfl⟩ := Option.map_eq_some_iff.mp hj
    split
    · rename_i hkj
      exact .inr ⟨hkj.symm, rfl⟩
    · exact .inl hc
  refine ⟨fun _ _ => id, fun j c' hj hc' => ?_, fun j c' hj hc' => ?_,
    fun j => hasResponse_updateCall fun _ => id, fun _ _ h _ => .inl h,
    fun _ _ => canceled_updateCall (f := (·.enter phase)) fun _ => id⟩
  · rcases hcalls j c' hj with hold | ⟨-, hphase⟩
    · exact .inl ⟨c', hold, hc'⟩
    · exact absurd (hphase.symm.trans hc') hadded
  · rcases hcalls j c' hj with hold | ⟨rfl, hphase⟩
    · exact .inl ⟨c', hold, hc'⟩
    · exact .inr (hwritten (hphase.symm.trans hc'))

/-- A call that adds its transaction. -/
theorem keeps_add {s : CsSession} {k : ℕ} {c : CsCall} (hcall : s.calls[k]? = some c)
    (hfree : s.txnDict c.txnID = none) : Keeps s (.session (.addTransaction k))
      ((s.updateCall k (·.enter .added)).setSlot c.txnID (some ⟨k, c.txnID⟩)) := by
  have hself : ((s.updateCall k (·.enter .added)).setSlot c.txnID
      (some ⟨k, c.txnID⟩)).calls[k]? = some (c.enter .added) := getElem?_updateCall hcall _
  have hother : ∀ j, j ≠ k → ((s.updateCall k (·.enter .added)).setSlot c.txnID
      (some ⟨k, c.txnID⟩)).calls[j]? = s.calls[j]? :=
    fun j hj => getElem?_updateCall_of_ne s hj _
  refine ⟨fun i t hi => ?_, fun j c' hj hc' => ?_, fun j c' hj hc' => ?_,
    fun j => hasResponse_updateCall fun _ => id, fun _ _ h _ => .inl h,
    fun _ _ => canceled_updateCall (f := (·.enter .added)) fun _ => id⟩
  · have hne : i ≠ c.txnID := by
      rintro rfl
      rw [hfree] at hi
      cases hi
    exact (setSlot_txnDict_of_ne _ _ hne).trans hi
  · by_cases hjk : j = k
    · subst hjk
      obtain rfl := Option.some.inj (hself.symm.trans hj)
      exact .inr ⟨rfl, setSlot_txnDict_self ..⟩
    · exact .inl ⟨c', (hother j hjk).symm.trans hj, hc'⟩
  · by_cases hjk : j = k
    · subst hjk
      obtain rfl := Option.some.inj (hself.symm.trans hj)
      cases hc'
    · exact .inl ⟨c', (hother j hjk).symm.trans hj, hc'⟩

theorem trySet_ne_pending {c : CsCall} {response : Response} (h : c.response ≠ .pending) :
    (c.trySet response).response ≠ .pending := by
  rw [CsCall.trySet]
  split
  · rename_i hpending
    exact absurd hpending h
  · exact h

theorem trySet_set_ne_pending (c : CsCall) (msg : CsMessage) :
    (c.trySet (.set msg)).response ≠ .pending := by
  rw [CsCall.trySet]
  split
  · intro h
    cases h
  · assumption

theorem canceled_of_trySet_set {c : CsCall} {msg : CsMessage}
    (h : (c.trySet (.set msg)).response = .canceled) : c.response = .canceled := by
  rw [CsCall.trySet] at h
  split at h
  · cases h
  · exact h

/-- The read task completes the transaction that it holds. -/
theorem keeps_setResponse {s : CsSession} {t : Transaction} {msg : CsMessage}
    (hfetched : s.fetched = some (t, msg)) : Keeps s (.session .setResponse)
      { s.updateCall t.call (·.trySet (.set msg)) with fetched := none } := by
  have hcalls : ∀ (j : ℕ) (c' : CsCall),
      (s.updateCall t.call (·.trySet (.set msg))).calls[j]? = some c' →
      ∃ c, s.calls[j]? = some c ∧ c.phase = c'.phase := by
    intro j c' hj
    simp only [updateCall, List.getElem?_modify] at hj
    obtain ⟨c, hc, rfl⟩ := Option.map_eq_some_iff.mp hj
    refine ⟨c, hc, ?_⟩
    split
    · exact (phase_trySet c _).symm
    · rfl
  refine ⟨fun _ _ => id, fun j c' hj hc' => ?_, fun j c' hj hc' => ?_,
    fun j => hasResponse_updateCall fun _ => trySet_ne_pending, fun t' msg' ht' hlt => .inr ?_,
    fun _ _ => canceled_updateCall fun _ => canceled_of_trySet_set⟩
  · obtain ⟨c, hc, hphase⟩ := hcalls j c' hj
    exact .inl ⟨c, hc, hphase.trans hc'⟩
  · obtain ⟨c, hc, hphase⟩ := hcalls j c' hj
    exact .inl ⟨c, hc, hphase.trans hc'⟩
  · obtain ⟨rfl, rfl⟩ := Prod.mk.inj (Option.some.inj (hfetched.symm.trans ht'))
    exact ⟨_, getElem?_updateCall (List.getElem?_eq_getElem hlt) _, trySet_set_ne_pending _ _⟩

/-- The events that take no transaction out of the table, except for a response. -/
def isQuiet : InvokeEvent → Bool
  | .session (.timeout _) | .session (.timeoutRemove _) | .session .clearTransactions => false
  | _ => true

theorem keeps_of_invokeStep {s s' : CsSession} {e : InvokeEvent} (hlater : isLater e = true)
    (hquiet : isQuiet e = true) (h : s.invokeStep e = some s') : Keeps s e s' := by
  match e with
  | .serializationError k =>
    obtain ⟨c, hc, rfl⟩ := Option.map_eq_some_iff.mp h
    exact s.keeps_enter _ k (by decide) fun hphase => by cases hphase
  | .session e =>
    cases stepped_of_step h with
    | aquire => cases hlater
    | readMessage => cases hlater
    | timeout => cases hquiet
    | timeoutRemove => cases hquiet
    | clearTransactions => cases hquiet
    | @addTransaction k c hcall hphase =>
      rw [addTransaction]
      split
      · exact s.keeps_enter _ k (by decide) fun hphase => by cases hphase
      · exact keeps_add hcall ‹_›
    | @writeMessage k c phase hcall hphase throws hnext =>
      subst hnext
      cases throws with
      | true => exact s.keeps_enter _ k (by decide) fun hphase => by cases hphase
      | false => exact s.keeps_enter _ k (by decide) fun _ => rfl
    | complete => exact s.keeps_enter _ _ (by decide) fun hphase => by cases hphase
    | setResponse hfetched => exact keeps_setResponse hfetched

theorem txnDict_readMessage_of_ne (s : CsSession) {msg : CsMessage} {i : UInt8} (h : i ≠ msg.txn) :
    (s.readMessage msg).txnDict i = s.txnDict i := by
  rw [readMessage]
  split
  · exact setSlot_txnDict_of_ne s none h
  · rfl

end CsSession

namespace CsSystem
open CsSession

/-- The events of a run without timeouts in which the table is never cleared. -/
def isQuiet : CsSystemEvent → Bool
  | .client e => CsSession.isQuiet e
  | _ => true

def Holds (s : CsSystem) (k : ℕ) : Prop :=
  s.session.txnDict (txnIDOf k) = some ⟨k, txnIDOf k⟩

variable (srv : Server)

/-- The slots of the calls whose transactions are added and whose responses are not read yet, and
where the replies of the server are. -/
structure Paired (s : CsSystem) : Prop where
  linked : Linked srv s
  added : ∀ (k : ℕ) (c : CsCall), s.session.calls[k]? = some c → c.phase = .added →
    s.Holds k ∧ (s.message k).isSome
  requests : ∀ k ∈ s.requests, s.Holds k ∧ (s.message k).isSome
  answered : ∀ k ∈ s.answered, s.Holds k
  fetched : ∀ t msg, s.session.fetched = some (t, msg) → s.IsReplyTo t.call msg
  responses : ∀ (k : ℕ) (c : CsCall) msg, s.session.calls[k]? = some c → c.response = .set msg →
    s.IsReplyTo k msg
  not_canceled : ∀ (k : ℕ) (c : CsCall), s.session.calls[k]? = some c → c.response ≠ .canceled
  written : ∀ (k : ℕ) (c : CsCall), s.session.calls[k]? = some c → c.phase = .written →
    k ∈ s.requests ++ s.servedCalls
  delivered : ∀ k bytes, ⟨k, some bytes⟩ ∈ s.served → k ∈ s.answered ∨
    (∃ t msg, s.session.fetched = some (t, msg) ∧ t.call = k) ∨ s.session.HasResponse k

theorem paired_init : Paired srv init where
  linked := linked_init srv
  added := by simp [init, CsSession.init]
  requests := by simp [init]
  answered := by simp [CsSystem.answered, init]
  fetched := by simp [init, CsSession.init]
  responses := by simp [init, CsSession.init]
  not_canceled := by simp [init, CsSession.init]
  written := by simp [init, CsSession.init]
  delivered := by simp [init]

variable {srv}

theorem Holds.unique {s : CsSystem} {j k : ℕ} (hj : s.Holds j) (hk : s.Holds k)
    (h : txnIDOf j = txnIDOf k) : j = k := by
  rw [Holds, h] at hj
  exact congrArg Transaction.call (Option.some.inj (hj.symm.trans hk))

theorem Paired.invoke {s : CsSystem} (h : Paired srv s) (rpcId : UInt16)
    (args : RequestArguments) : Paired srv { s with
      session := s.session.aquireNextTxnId
      messages := s.messages ++ [args.message s.session.txnCounter rpcId] } := by
  have hmessage : ∀ {k : ℕ} {session : CsSession}, (s.message k).isSome →
      (message { s with
        session := session
        messages := s.messages ++ [args.message s.session.txnCounter rpcId] } k).isSome := by
    intro k session hk
    obtain ⟨bytes, hbytes⟩ := Option.isSome_iff_exists.mp hk
    rw [message_append_of_some hbytes]
    rfl
  refine ⟨h.linked.invoke rpcId args, fun k c hk hc => ?_, fun k hk => ?_, h.answered, h.fetched,
    fun k c msg hk hc => ?_, fun k c hk hc => ?_, fun k c hk hc => ?_, fun k bytes hk => ?_⟩
  · rcases getElem?_aquire hk with hold | ⟨-, rfl⟩
    · exact ⟨(h.added k c hold hc).1, hmessage (h.added k c hold hc).2⟩
    · cases hc
  · exact ⟨(h.requests k hk).1, hmessage (h.requests k hk).2⟩
  · rcases getElem?_aquire hk with hold | ⟨-, rfl⟩
    · exact h.responses k c msg hold hc
    · cases hc
  · rcases getElem?_aquire hk with hold | ⟨-, rfl⟩
    · exact h.not_canceled k c hold hc
    · cases hc
  · rcases getElem?_aquire hk with hold | ⟨-, rfl⟩
    · exact h.written k c hold hc
    · cases hc
  · rcases h.delivered k bytes hk with hway | hfetched | ⟨c, hc, hresponse⟩
    · exact .inl hway
    · exact .inr (.inl hfetched)
    · have hlt := (List.getElem?_eq_some_iff.mp hc).1
      refine .inr (.inr ⟨c, ?_, hresponse⟩)
      rwa [aquireNextTxnId, List.getElem?_append_left hlt]

theorem Paired.client {s s' : CsSystem} (h : Paired srv s) {e : InvokeEvent}
    (hquiet : CsSession.isQuiet e = true) (hstep : step srv s (.client e) = some s') :
    Paired srv s' := by
  have hlinked := h.linked.step hstep
  rw [step] at hstep
  split_ifs at hstep with hallowed
  obtain ⟨session, hsession, rfl⟩ := Option.map_eq_some_iff.mp hstep
  have hlater := isLater_of_allowed hallowed
  have hfollows := follows_of_invokeStep hlater hsession
  have hkeeps := keeps_of_invokeStep hlater hquiet hsession
  have hputs : ∀ {k : ℕ}, puts e = some k → s.Holds k ∧ (s.message k).isSome := by
    intro k hk
    obtain ⟨c, hcall, hphase, -⟩ := added_of_puts hsession hk
    exact h.added k c hcall hphase
  have hholds : ∀ {k : ℕ}, s.Holds k → session.txnDict (txnIDOf k) = some ⟨k, txnIDOf k⟩ :=
    hkeeps.slots _ _
  refine ⟨hlinked, fun k c' hk hc' => ?_, fun k hk => ?_, fun k hk => hholds (h.answered k hk),
    fun t msg ht => h.fetched t msg (hfollows.fetched _ ht), fun k c' msg hk hc' => ?_,
    fun k c' hk hc' => ?_, fun k c' hk hc' => ?_, fun k bytes hk => ?_⟩
  · rcases hkeeps.added k c' hk hc' with ⟨c, hc, hphase⟩ | ⟨rfl, hslot⟩
    · exact ⟨hholds (h.added k c hc hphase).1, (h.added k c hc hphase).2⟩
    · refine ⟨?_, hallowed⟩
      rwa [hlinked.numbered.txnID_eq k c' hk] at hslot
  · rcases List.mem_append.mp hk with hold | hnew
    · exact ⟨hholds (h.requests k hold).1, (h.requests k hold).2⟩
    · have hnew' := hputs (Option.mem_toList.mp hnew)
      exact ⟨hholds hnew'.1, hnew'.2⟩
  · obtain ⟨c, hc, -, hresponse⟩ := hfollows.calls k c' hk
    rcases hresponse msg hc' with hset | ⟨t, ht, rfl⟩
    · exact h.responses k c msg hc hset
    · exact h.fetched t msg ht
  · obtain ⟨c, hc, hcanceled⟩ := hkeeps.canceled k c' hk hc'
    exact h.not_canceled k c hc hcanceled
  · simp only [List.append_assoc]
    rcases hkeeps.written k c' hk hc' with ⟨c, hc, hphase⟩ | hnew
    · rcases List.mem_append.mp (h.written k c hc hphase) with hrequest | hserved
      · exact List.mem_append_left _ hrequest
      · exact List.mem_append_right _ (List.mem_append_right _ hserved)
    · rw [hnew]
      exact List.mem_append_right _ (List.mem_append_left _ List.mem_cons_self)
  · rcases h.delivered k bytes hk with hway | ⟨t, msg, ht, rfl⟩ | hresponse
    · exact .inl hway
    · rcases hkeeps.fetched t msg ht (h.linked.fetched t msg ht).1 with hsame | hset
      · exact .inr (.inl ⟨t, msg, hsame, rfl⟩)
      · exact .inr (.inr hset)
    · exact .inr (.inr (hkeeps.responses k hresponse))

theorem Paired.serve {s : CsSystem} (h : Paired srv s) {k : ℕ} {rest : List ℕ}
    (hrequests : s.requests = k :: rest) {request : List UInt8}
    (hmessage : s.message k = some request) (mem : ByteMemory) :
    Paired srv (s.serve srv mem k request) := by
  have hsubset : s.served ⊆ (s.serve srv mem k request).served := List.subset_append_left _ _
  have hholds : s.Holds k :=
    (h.requests k (by rw [hrequests]; exact List.mem_cons_self)).1
  have hanswered : ∀ {j}, j ∈ s.answered → j ∈ (s.serve srv mem k request).answered := by
    intro j hj
    obtain ⟨r, hr, horigin⟩ := mem_answered.mp hj
    exact mem_answered.mpr ⟨r, List.mem_append_left _ hr, horigin⟩
  refine ⟨h.linked.serve hrequests hmessage mem, h.added, fun j hj => ?_, fun j hj => ?_,
    fun t msg ht => (h.fetched t msg ht).mono hsubset,
    fun j c msg hj hc => (h.responses j c msg hj hc).mono hsubset, h.not_canceled,
    fun j c hj hc => ?_, fun j bytes hj => ?_⟩
  · exact h.requests j (List.mem_of_mem_tail hj)
  · obtain ⟨r, hr, horigin⟩ := mem_answered.mp hj
    rcases List.mem_append.mp hr with hold | hnew
    · exact h.answered j (mem_answered.mpr ⟨r, hold, horigin⟩)
    · obtain ⟨bytes, -, rfl⟩ := List.mem_map.mp hnew
      obtain rfl := Option.some.inj horigin
      exact hholds
  · have hmem := h.written j c hj hc
    simp only [CsSystem.serve, servedCalls, hrequests, List.tail_cons, List.map_append,
      List.map_cons, List.map_nil, List.mem_append, List.mem_cons] at hmem ⊢
    tauto
  · rcases List.mem_append.mp hj with hold | hnew
    · rcases h.delivered j bytes hold with hway | hlater
      · exact .inl (hanswered hway)
      · exact .inr hlater
    · obtain ⟨rfl, hreply⟩ := Exchange.mk.inj (List.mem_singleton.mp hnew)
      refine .inl (mem_answered.mpr ⟨⟨some j, bytes⟩, List.mem_append_right _ ?_, rfl⟩)
      exact List.mem_map.mpr ⟨bytes, Option.mem_toList.mpr hreply.symm, rfl⟩

theorem Paired.emit {s : CsSystem} (h : Paired srv s) {bytes : List UInt8}
    (hbytes : ∃ msg, CsMessage.ofBytes bytes = .ok msg ∧ msg.resp = false) :
    Paired srv { s with replies := s.replies ++ [⟨none, bytes⟩] } := by
  have hanswered : (CsSystem.answered { s with replies := s.replies ++ [⟨none, bytes⟩] }) =
      s.answered := by
    simp [CsSystem.answered]
  exact ⟨h.linked.emit hbytes, h.added, h.requests, fun k hk => h.answered k (hanswered ▸ hk),
    h.fetched, h.responses, h.not_canceled, h.written,
    fun k bytes hk => hanswered ▸ h.delivered k bytes hk⟩

/-- A call is on the way at most once. -/
theorem Linked.nodup_onTheWay {s : CsSystem} (h : Linked srv s) :
    (s.requests ++ s.answered).Nodup := by
  have hnodup := List.nodup_append.mp h.nodup
  refine List.nodup_append.mpr ⟨hnodup.1, h.answered_nodup, fun j hj k hk => ?_⟩
  exact hnodup.2.2 j hj k (h.answered_subset hk)

/-- A notification leaves the session as it is. -/
theorem readMessage_of_notification (s : CsSession) {msg : CsMessage} (h : msg.resp = false) :
    s.readMessage msg = s := by
  rw [CsSession.readMessage, if_neg (by simp [h])]

theorem Paired.deliver {s : CsSystem} (h : Paired srv s) {sent : Sent} {rest : List Sent}
    (hreplies : s.replies = sent :: rest) {msg : CsMessage}
    (hmsg : CsMessage.ofBytes sent.bytes = .ok msg) (hnone : s.session.fetched = none) :
    Paired srv { s with session := s.session.readMessage msg, replies := rest } := by
  have hlinked := h.linked.deliver hreplies hmsg hnone
  cases horigin : sent.origin with
  | none =>
    obtain ⟨msg', hmsg', hresp⟩ := h.linked.emitted sent (hreplies ▸ List.mem_cons_self) horigin
    rw [hmsg] at hmsg'
    obtain rfl := Except.ok.inj hmsg'
    have hanswered : s.answered = rest.filterMap Sent.origin := by
      rw [CsSystem.answered, hreplies, List.filterMap_cons, horigin]
    rw [readMessage_of_notification _ hresp] at hlinked ⊢
    exact ⟨hlinked, h.added, h.requests, fun k hk => h.answered k (hanswered ▸ hk), h.fetched,
      h.responses, h.not_canceled, h.written, fun k bytes hk => by
        have hdelivered := h.delivered k bytes hk
        rw [hanswered] at hdelivered
        exact hdelivered⟩
  | some j =>
    have hserved := h.linked.replies sent (hreplies ▸ List.mem_cons_self) j horigin
    obtain ⟨msg', hmsg', htxn, hresp⟩ := h.linked.isResponse hserved
    rw [hmsg] at hmsg'
    obtain rfl := Except.ok.inj hmsg'
    have hanswered : s.answered = j :: rest.filterMap Sent.origin := by
      rw [CsSystem.answered, hreplies, List.filterMap_cons, horigin]
    have hj : s.Holds j := h.answered j (hanswered ▸ List.mem_cons_self)
    have hfetched : (s.session.readMessage msg).fetched = some (⟨j, txnIDOf j⟩, msg) := by
      have hslot : s.session.txnDict msg.txn = some ⟨j, txnIDOf j⟩ := by
        rw [htxn]
        exact hj
      rw [CsSession.readMessage, if_pos hresp]
      simp only [hslot, Option.map_some]
    -- the slots of other calls are those of other numbers
    have hother : ∀ k, k ≠ j → s.Holds k →
        (s.session.readMessage msg).txnDict (txnIDOf k) = some ⟨k, txnIDOf k⟩ := by
      intro k hkj hk
      have hne : txnIDOf k ≠ msg.txn := fun heq => hkj (hk.unique hj (heq.trans htxn))
      exact (txnDict_readMessage_of_ne _ hne).trans hk
    have hcalls := readMessage_calls s.session msg
    have hnodup := h.linked.nodup_onTheWay
    rw [hanswered] at hnodup
    have hfresh := (List.nodup_cons.mp (List.perm_middle.nodup_iff.mp hnodup)).1
    refine ⟨hlinked, fun k c hk hc => ?_, fun k hk => ?_, fun k hk => ?_, fun t msg' ht => ?_,
      fun k c msg' hk hc => ?_, fun k c hk hc => ?_, fun k c hk hc => ?_, fun k bytes hk => ?_⟩
    · rw [hcalls] at hk
      have hkj : k ≠ j := by
        rintro rfl
        apply h.linked.unsent k c hk (.inr hc)
        exact List.mem_append_right _ (List.mem_map.mpr ⟨_, hserved, rfl⟩)
      exact ⟨hother k hkj (h.added k c hk hc).1, (h.added k c hk hc).2⟩
    · refine ⟨hother k ?_ (h.requests k hk).1, (h.requests k hk).2⟩
      rintro rfl
      exact hfresh (List.mem_append_left _ hk)
    · refine hother k ?_ (h.answered k (hanswered ▸ List.mem_cons_of_mem j hk))
      rintro rfl
      exact hfresh (List.mem_append_right _ hk)
    · obtain ⟨rfl, rfl⟩ := Prod.mk.inj (Option.some.inj (hfetched.symm.trans ht))
      exact ⟨_, hserved, hmsg⟩
    · rw [hcalls] at hk
      exact h.responses k c msg' hk hc
    · rw [hcalls] at hk
      exact h.not_canceled k c hk hc
    · rw [hcalls] at hk
      exact h.written k c hk hc
    · rcases h.delivered k bytes hk with hway | ⟨t, msg', ht, -⟩ | ⟨c, hc, hresponse⟩
      · rw [hanswered] at hway
        rcases List.mem_cons.mp hway with rfl | hrest
        · exact .inr (.inl ⟨_, msg, hfetched, rfl⟩)
        · exact .inl hrest
      · rw [hnone] at ht
        cases ht
      · exact .inr (.inr ⟨c, hcalls ▸ hc, hresponse⟩)

theorem Paired.step {s s' : CsSystem} {e : CsSystemEvent} (h : Paired srv s)
    (hquiet : isQuiet e = true) (hstep : CsSystem.step srv s e = some s') : Paired srv s' := by
  cases e with
  | invoke rpcId args =>
    obtain rfl := Option.some.inj hstep
    exact h.invoke rpcId args
  | client e => exact h.client hquiet hstep
  | serve mem =>
    obtain ⟨k, rest, request, hrequests, hmessage, rfl⟩ := serve_of_step hstep
    exact h.serve hrequests hmessage mem
  | emit position args mem =>
    obtain ⟨bytes, hbytes, rfl⟩ := emit_of_step hstep
    exact h.emit hbytes
  | deliver =>
    obtain ⟨sent, rest, msg, hreplies, hmsg, hnone, rfl⟩ := deliver_of_step hstep
    exact h.deliver hreplies hmsg hnone

theorem paired_of_run {s : CsSystem} {es : List CsSystemEvent}
    (hquiet : ∀ e ∈ es, isQuiet e = true) (hrun : run (CsSystem.step srv) init es = some s) :
    Paired srv s :=
  run_invariant_along (fun _ _ _ h hok hstep => h.step hok hstep) (paired_init srv)
    (along_of_forall fun _ => hquiet) hrun

def IsOwnReply (srv : Server) (s : CsSystem) (k : ℕ) (msg : CsMessage) : Prop :=
  ∃ mem request reply, s.message k = some request ∧ srv.serve mem request = some reply ∧
    ⟨k, some reply⟩ ∈ s.served ∧ CsMessage.ofBytes reply = .ok msg

theorem Linked.isOwnReply {s : CsSystem} (h : Linked srv s) {k : ℕ} {msg : CsMessage}
    (hreply : s.IsReplyTo k msg) : IsOwnReply srv s k msg := by
  obtain ⟨bytes, hmem, hbytes⟩ := hreply
  obtain ⟨mem, request, hmessage, hserve⟩ := h.served _ hmem
  exact ⟨mem, request, bytes, hmessage, hserve.symm, hmem, hbytes⟩

/-- The response of a call is a reply to it, if no call times out and the table is never cleared, or
if there are at most 256 calls. -/
theorem isReplyTo_of_run {s : CsSystem} {es : List CsSystemEvent}
    (hrun : run (CsSystem.step srv) init es = some s)
    (h : (∀ e ∈ es, isQuiet e = true) ∨ s.session.calls.length ≤ 256) {k : ℕ} {c : CsCall}
    {msg : CsMessage} (hk : s.session.calls[k]? = some c) (hset : c.response = .set msg) :
    s.IsReplyTo k msg := by
  rcases h with hquiet | hlap
  · exact (paired_of_run hquiet hrun).responses k c msg hk hset
  · have hlinked := linked_of_run hrun
    obtain ⟨j, hj, htxn⟩ := hlinked.responses k c msg hk hset
    obtain ⟨bytes, hmem, -⟩ := id hj
    have hlt : j < s.session.calls.length :=
      hlinked.written j (List.mem_append_right _ (List.mem_map.mpr ⟨_, hmem, rfl⟩))
    have hlt' := (List.getElem?_eq_some_iff.mp hk).1
    rwa [← txnIDOf_injective (by omega) (by omega) htxn]

/-- However the calls and the read task take turns, a call gets the reply to its own request, if no
call times out and the table is never cleared, or if there are at most 256 calls. -/
theorem response_isOwnReply {s : CsSystem} {es : List CsSystemEvent}
    (hrun : run (CsSystem.step srv) init es = some s)
    (h : (∀ e ∈ es, isQuiet e = true) ∨ s.session.calls.length ≤ 256) {k : ℕ} {c : CsCall}
    {msg : CsMessage} (hk : s.session.calls[k]? = some c) (hset : c.response = .set msg) :
    IsOwnReply srv s k msg := by
  have hreply := isReplyTo_of_run hrun h hk hset
  exact (linked_of_run hrun).isOwnReply hreply

def textServer : Server where
  protocol := textProtocol
  endpoint := .remote
  handlers := zeroHandlers
  txBuf := 1000
  txBufSize := 64
  rxBuf := 2000
  txBuf_ne_zero := Nat.succ_ne_zero 999
  rxBuf_ne_zero := Nat.succ_ne_zero 1999
  header_fits := Nat.le_add_right 4 60

def crossedCalls : List CsSystemEvent :=
  [.invoke 3 (.serialized [0, 1, 65]), .invoke 3 (.serialized [0, 1, 66]),
    .client (.session (.addTransaction 0)), .client (.session (.addTransaction 1)),
    .client (.session (.writeMessage 1 false)), .client (.session (.writeMessage 0 false)),
    .serve fun _ => 0, .deliver, .client (.session .setResponse), .serve fun _ => 0, .deliver]

theorem response_isOwnReply_crossedCalls :
    ∃ s c msg, run (CsSystem.step textServer) init crossedCalls = some s ∧
      s.session.calls[1]? = some c ∧ c.response = .set msg ∧ IsOwnReply textServer s 1 msg := by
  have hanswered : ((run (CsSystem.step textServer) init crossedCalls).bind fun s =>
      s.session.calls[1]?.bind fun c => c.response.casesOn none (fun msg => some msg.txn) none) =
        some 2 := by decide +kernel
  obtain ⟨s, hrun, hcall⟩ := Option.bind_eq_some_iff.mp hanswered
  obtain ⟨c, hc, hresponse⟩ := Option.bind_eq_some_iff.mp hcall
  cases hset : c.response with
  | pending | canceled =>
    rw [hset] at hresponse
    cases hresponse
  | set msg =>
    exact ⟨s, c, msg, hrun, hc, hset, response_isOwnReply hrun (.inl (by decide)) hc hset⟩

def goesOn : CsSystemEvent → Bool
  | .serve _ | .deliver | .client (.session .setResponse) => true
  | _ => false

def work (s : CsSystem) : ℕ :=
  3 * s.requests.length + 2 * s.replies.length + if s.session.fetched.isSome then 1 else 0

theorem work_step {s s' : CsSystem} {e : CsSystemEvent} (hgoes : goesOn e = true)
    (hstep : CsSystem.step srv s e = some s') : s'.work < s.work := by
  match e with
  | .invoke _ _ | .emit _ _ _ => cases hgoes
  | .serve mem =>
    obtain ⟨k, rest, request, hrequests, -, rfl⟩ := serve_of_step hstep
    have hreply : (srv.serve mem request).toList.length ≤ 1 := by
      cases srv.serve mem request <;> simp
    simp only [work, CsSystem.serve, hrequests, List.tail_cons, List.length_cons,
      List.length_append, List.length_map]
    omega
  | .deliver =>
    obtain ⟨sent, rest, msg, hreplies, -, hnone, rfl⟩ := deliver_of_step hstep
    simp only [work, hreplies, hnone, List.length_cons, Option.isSome_none, Bool.false_eq_true,
      if_false]
    split <;> omega
  | .client (.session .setResponse) =>
    have hallowed : s.allowed (.session .setResponse) = true := rfl
    rw [CsSystem.step, if_pos hallowed] at hstep
    obtain ⟨session, hsession, rfl⟩ := Option.map_eq_some_iff.mp hstep
    have hread : s.session.step .setResponse = some session := hsession
    cases stepped_of_step hread with
    | setResponse hfetched =>
      simp only [work, hfetched, puts, Option.toList_none, List.append_nil, Option.isSome_some,
        Option.isSome_none, Bool.false_eq_true, if_true, if_false]
      omega

/-- As long as something is on the way, one of the steps can be taken. -/
theorem Paired.exists_goesOn {s : CsSystem} (h : Paired srv s) (hwork : s.work ≠ 0) :
    ∃ e, goesOn e = true ∧ (CsSystem.step srv s e).isSome = true := by
  cases hfetched : s.session.fetched with
  | some p =>
    have hallowed : s.allowed (.session .setResponse) = true := rfl
    refine ⟨.client (.session .setResponse), rfl, ?_⟩
    rw [CsSystem.step, if_pos hallowed]
    simp [invokeStep, CsSession.step, hfetched]
  | none =>
    cases hreplies : s.replies with
    | cons sent rest =>
      have hbytes : ∃ msg, CsMessage.ofBytes sent.bytes = .ok msg := by
        have hmem : sent ∈ s.replies := hreplies ▸ List.mem_cons_self
        cases horigin : sent.origin with
        | none =>
          obtain ⟨msg, hmsg, -⟩ := h.linked.emitted sent hmem horigin
          exact ⟨msg, hmsg⟩
        | some j =>
          obtain ⟨msg, hmsg, -⟩ := h.linked.isResponse (h.linked.replies sent hmem j horigin)
          exact ⟨msg, hmsg⟩
      obtain ⟨msg, hmsg⟩ := hbytes
      exact ⟨.deliver, rfl, by simp [CsSystem.step, hreplies, hmsg, CsSession.step, hfetched]⟩
    | nil =>
      cases hrequests : s.requests with
      | nil => exact absurd (by simp [work, hfetched, hreplies, hrequests]) hwork
      | cons k rest =>
        obtain ⟨-, hmessage⟩ := h.requests k (hrequests ▸ List.mem_cons_self)
        refine ⟨.serve fun _ => 0, rfl, ?_⟩
        simp only [CsSystem.step, hrequests, Option.isSome_map, hmessage]

/-- Every call that has written its message has the reply to it, or has the number zero and gets
none. -/
def AllAnswered (srv : Server) (s : CsSystem) : Prop :=
  ∀ (k : ℕ) (c : CsCall), s.session.calls[k]? = some c → c.phase = .written →
    (∃ msg, c.response = .set msg ∧ IsOwnReply srv s k msg) ∨
      c.response = .pending ∧ c.txnID = 0 ∧ ⟨k, none⟩ ∈ s.served

theorem Paired.allAnswered {s : CsSystem} (h : Paired srv s) (hwork : s.work = 0) :
    AllAnswered srv s := by
  intro k c hk hphase
  have hlengths : s.requests.length = 0 ∧ s.replies.length = 0 := by
    simp only [work] at hwork
    omega
  have hrequests : s.requests = [] := List.length_eq_zero_iff.mp hlengths.1
  have hreplies : s.replies = [] := List.length_eq_zero_iff.mp hlengths.2
  have hfetched : s.session.fetched = none := by
    cases hsome : s.session.fetched with
    | none => rfl
    | some p => simp [work, hsome] at hwork
  have hserved := h.written k c hk hphase
  rw [hrequests, List.nil_append] at hserved
  obtain ⟨⟨j, reply⟩, hmem, rfl⟩ := List.mem_map.mp hserved
  cases hresponse : c.response with
  | set msg => exact .inl ⟨msg, rfl, h.linked.isOwnReply (h.responses _ c msg hk hresponse)⟩
  | canceled => exact absurd hresponse (h.not_canceled _ c hk)
  | pending =>
    cases reply with
    | none =>
      obtain ⟨mem, request, hmessage, hserve⟩ := h.linked.served _ hmem
      have hcall := srv.serve_isCall (h.linked.messages _ request hmessage) mem
      rw [← hserve] at hcall
      exact .inr ⟨rfl, (h.linked.numbered.txnID_eq _ c hk).trans hcall, hmem⟩
    | some bytes =>
      rcases h.delivered _ bytes hmem with hway | ⟨t, msg, ht, -⟩ | ⟨c', hc', hset⟩
      · rw [CsSystem.answered, hreplies] at hway
        cases hway
      · rw [hfetched] at ht
        cases ht
      · obtain rfl := Option.some.inj (hk.symm.trans hc')
        exact absurd hresponse hset

/-- From every state of a run without timeouts, the steps of the server, of the link and of the
read task end in any order, and they do not end before every call is answered. -/
theorem answered_at_end {s : CsSystem} {es : List CsSystemEvent}
    (hrun : run (CsSystem.step srv) init es = some s) (hquiet : ∀ e ∈ es, isQuiet e = true)
    {s' : CsSystem} {es' : List CsSystemEvent} (hgoes : ∀ e ∈ es', goesOn e = true)
    (hrun' : run (CsSystem.step srv) s es' = some s') :
    es'.length ≤ s.work ∧ (AllAnswered srv s' ∨
      ∃ e, goesOn e = true ∧ (CsSystem.step srv s' e).isSome = true) := by
  have hquiet' : ∀ e, goesOn e = true → isQuiet e = true := by
    intro e he
    match e with
    | .serve _ | .deliver | .client (.session .setResponse) => rfl
    | .invoke _ _ | .emit _ _ _ => rfl
  have hpaired : Paired srv s' := run_invariant_along
    (fun _ _ _ h hok hstep => h.step (hquiet' _ hok) hstep) (paired_of_run hquiet hrun)
    (along_of_forall fun _ => hgoes) hrun'
  refine ⟨length_le_of_measure work (fun _ _ _ => work_step) hgoes hrun', ?_⟩
  by_cases hwork : s'.work = 0
  · exact .inl (hpaired.allAnswered hwork)
  · exact .inr (hpaired.exists_goesOn hwork)

theorem answered_at_end_crossedCalls :
    ∃ s s', run (CsSystem.step textServer) init crossedCalls = some s ∧
      run (CsSystem.step textServer) s [.client (.session .setResponse)] = some s' ∧
        1 ≤ s.work ∧ AllAnswered textServer s' := by
  have hends : ((run (CsSystem.step textServer) init crossedCalls).bind fun s =>
      (run (CsSystem.step textServer) s [.client (.session .setResponse)]).map work) = some 0 := by
    decide +kernel
  obtain ⟨s, hrun, hrest⟩ := Option.bind_eq_some_iff.mp hends
  obtain ⟨s', hrun', hwork⟩ := Option.map_eq_some_iff.mp hrest
  obtain ⟨hbound, hanswered⟩ := answered_at_end hrun (by decide) (by decide) hrun'
  refine ⟨s, s', hrun, hrun', hbound, hanswered.resolve_right ?_⟩
  rintro ⟨e, hgoes, hstep⟩
  obtain ⟨s'', hstep'⟩ := Option.isSome_iff_exists.mp hstep
  have hless := work_step hgoes hstep'
  omega

end CsSystem

end CompostRpc
