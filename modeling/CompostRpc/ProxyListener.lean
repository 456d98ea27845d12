import CompostRpc.ProxyRouting

/-!
# The end of the listener of the proxy

`CloseClientConnection` awaits the task that handles the client, and catches two exceptions only. A
task that has a call in progress finds no stream any more when the response comes, and so ends with
an exception that is not caught: the listener ends with it and serves no client any more. A
notification that cannot be written to the client ends the read task of the session, and with it all
responses.
-/

namespace CompostRpc
open TransitionRun

namespace ProxyClients
open CsSession

/-- The task waits for a response, or has ended with an exception that is not caught. -/
inductive Uncaught (s : ProxyClients) : Prop
  | invoking {client k : ℕ} {req : CsMessage} {c : CsCall}
    (htask : s.handleClientTask = some (.invoking client k req))
    (hcall : s.session.calls[k]? = some c) (hphase : c.phase = .written)
  | timedOut {client k : ℕ} (htask : s.handleClientTask = some (.timedOut client k))
  | responding {client k : ℕ} {req resp : CsMessage}
    (htask : s.handleClientTask = some (.responding client k req resp))
  | ended {fault : ProxyFault} (htask : s.handleClientTask = some (.ended (some fault)))
    (hfault : fault.isCaught = false)

structure Lost (s : ProxyClients) : Prop where
  stream : s.connectedStream = none
  listener : (∃ stage next, s.listenerTask = .closing stage next) ∨
    ∃ fault, s.listenerTask = .faulted fault
  task : s.Uncaught

/-- A step that leaves the task and the calls. -/
theorem Uncaught.same {s s' : ProxyClients} (h : s.Uncaught)
    (htask : s'.handleClientTask = s.handleClientTask) (hsession : s'.session = s.session) :
    s'.Uncaught := by
  cases h with
  | invoking htask' hcall hphase =>
    exact .invoking (htask.trans htask') (hsession ▸ hcall) hphase
  | timedOut htask' => exact .timedOut (htask.trans htask')
  | responding htask' => exact .responding (htask.trans htask')
  | ended htask' hfault => exact .ended (htask.trans htask') hfault

/-- A step of another call, or of the read task. -/
theorem Uncaught.session {s : ProxyClients} (h : s.Uncaught) {e : CsEvent} {session : CsSession}
    (hother : ∀ k, s.handleClientTask.bind ClientTask.call? = some k → e.call? ≠ some k)
    (hsession : s.session.step e = some session) : Uncaught { s with session := session } := by
  cases h with
  | @invoking client k req c htask hcall hphase =>
    obtain ⟨c', hcall', -, hsame⟩ := keepsCalls_of_step hsession k c hcall
    exact .invoking htask hcall' ((hsame (hother k (by rw [htask]; rfl))).trans hphase)
  | timedOut htask => exact .timedOut htask
  | responding htask => exact .responding htask
  | ended htask hfault => exact .ended htask hfault

/-- A step of the call of the task. -/
theorem Uncaught.callStep {s s' : ProxyClients} (h : s.Uncaught) {event : ℕ → CsEvent}
    {after : ℕ → ℕ → CsMessage → CsCall → ClientTask} {phase : CallPhase}
    (hbefore : ∀ k, phaseBefore (event k) = some (k, phase))
    (hafter : phase = .written → ∀ client k req c session,
      Uncaught { s with session := session, handleClientTask := some (after client k req c) })
    (hstep : s.callStep event after = some s') : s'.Uncaught := by
  obtain ⟨client, k, req, session, c, htask, hsession, -, rfl⟩ := callStep_eq_some hstep
  obtain ⟨c₀, hc₀, hphase₀⟩ := phase_of_step hsession (hbefore k)
  cases h with
  | invoking htask' hcall hwritten =>
    obtain ⟨rfl, rfl, rfl⟩ := ClientTask.invoking.inj (Option.some.inj (htask'.symm.trans htask))
    obtain rfl := Option.some.inj (hc₀.symm.trans hcall)
    exact hafter (hphase₀.symm.trans hwritten) ..
  | timedOut htask' =>
    rw [htask'] at htask
    cases htask
  | responding htask' =>
    rw [htask'] at htask
    cases htask
  | ended htask' =>
    rw [htask'] at htask
    cases htask

theorem uncaught_completed (s : ProxyClients) (client k : ℕ) (req : CsMessage) (c : CsCall)
    (session : CsSession) :
    Uncaught { s with
      session := session
      handleClientTask := some (completed client k req c) } := by
  rw [completed]
  cases hresponse : c.response with
  | set resp => exact .responding rfl
  | pending | canceled => exact .ended rfl rfl

/-- A step of the task or of the session. -/
theorem Lost.task_step {s s' : ProxyClients} (h : s.Lost) (htask : s'.Uncaught)
    (hstream : s'.connectedStream = s.connectedStream)
    (hlistener : s'.listenerTask = s.listenerTask) (hwritten : s'.written = s.written)
    (haccepted : s'.accepted = s.accepted) :
    s'.Lost ∧ s'.written = s.written ∧ s'.accepted = s.accepted :=
  ⟨⟨hstream.trans h.stream, hlistener ▸ h.listener, htask⟩, hwritten, haccepted⟩

theorem Lost.callStep {s s' : ProxyClients} (h : s.Lost) {event : ℕ → CsEvent}
    {after : ℕ → ℕ → CsMessage → CsCall → ClientTask} (htask : s'.Uncaught)
    (hstep : s.callStep event after = some s') :
    s'.Lost ∧ s'.written = s.written ∧ s'.accepted = s.accepted := by
  obtain ⟨client, k, req, session, c, -, -, -, rfl⟩ := callStep_eq_some hstep
  exact h.task_step htask rfl rfl rfl rfl

/-- The listener waits for the task, or ends with its exception. -/
theorem Lost.close {s s' : ProxyClients} (h : s.Lost) {stage : CloseStage} {next : Option ℕ}
    (hstep : s.closeClientConnection stage next = some s') :
    s'.Lost ∧ s'.written = s.written ∧ s'.accepted = s.accepted := by
  cases stage with
  | stream =>
    obtain rfl := Option.some.inj hstep
    exact ⟨⟨rfl, .inl ⟨_, _, rfl⟩, h.task.same rfl rfl⟩, rfl, rfl⟩
  | token | client =>
    obtain rfl := Option.some.inj hstep
    exact ⟨⟨h.stream, .inl ⟨_, _, rfl⟩, h.task.same rfl rfl⟩, rfl, rfl⟩
  | awaiting =>
    cases h.task with
    | invoking htask | timedOut htask | responding htask =>
      simp only [closeClientConnection, htask, reduceCtorEq] at hstep
    | ended htask hfault =>
      simp only [closeClientConnection, htask, hfault, Bool.false_eq_true, if_false,
        Option.some.injEq] at hstep
      subst hstep
      exact ⟨⟨h.stream, .inr ⟨_, rfl⟩, .ended rfl hfault⟩, rfl, rfl⟩

theorem Lost.step {s s' : ProxyClients} {e : ProxyClientEvent} (h : s.Lost)
    (hstep : s.step e = some s') :
    s'.Lost ∧ s'.written = s.written ∧ s'.accepted = s.accepted := by
  have htask : ∀ task, s.handleClientTask = some task → task ≠ .checking ∧
      ∀ client, task ≠ .reading client := by
    intro task htask
    cases h.task with
    | invoking h | timedOut h | responding h | ended h =>
      obtain rfl := Option.some.inj (h.symm.trans htask)
      simp
  cases e with
  | dispose =>
    obtain rfl := Option.some.inj hstep
    exact h.task_step (h.task.same rfl rfl) rfl rfl rfl rfl
  | checkCancellation | accept | acceptThrows | tick | openClient | openThrows =>
    rcases h.listener with ⟨stage, next, hlistener⟩ | ⟨fault, hlistener⟩
    all_goals simp only [ProxyClients.step, hlistener, reduceCtorEq] at hstep
  | close =>
    simp only [ProxyClients.step] at hstep
    split at hstep
    · exact h.close hstep
    · cases hstep
  | loop connected =>
    simp only [ProxyClients.step] at hstep
    split at hstep
    · exact absurd rfl (htask _ ‹_›).1
    · cases hstep
  | request | readThrows =>
    simp only [ProxyClients.step] at hstep
    split at hstep
    · exact absurd rfl ((htask _ ‹_›).2 _)
    · cases hstep
  | addTransaction =>
    exact h.callStep (h.task.callStep (fun _ => rfl) (by simp) hstep) hstep
  | writeMessage fault =>
    exact h.callStep (h.task.callStep (fun _ => rfl) (by simp) hstep) hstep
  | timeout =>
    have htimedOut := h.task.callStep (fun _ => rfl) (fun _ _ _ _ _ _ => .timedOut rfl) hstep
    exact h.callStep htimedOut hstep
  | timeoutRemove =>
    simp only [ProxyClients.step] at hstep
    split at hstep
    · obtain ⟨session, -, rfl⟩ := Option.map_eq_some_iff.mp hstep
      exact h.task_step (.ended rfl rfl) rfl rfl rfl rfl
    · cases hstep
  | complete =>
    have hcompleted := h.task.callStep (fun _ => rfl) (fun _ => s.uncaught_completed) hstep
    exact h.callStep hcompleted hstep
  | respond fault =>
    simp only [ProxyClients.step, h.stream] at hstep
    split at hstep
    · obtain rfl := Option.some.inj hstep
      exact h.task_step (.ended rfl rfl) h.stream.symm rfl rfl rfl
    · cases hstep
  | notification msg fails =>
    simp only [ProxyClients.step, h.stream] at hstep
    split_ifs at hstep
    obtain rfl := Option.some.inj hstep
    exact ⟨h, rfl, rfl⟩
  | session e =>
    simp only [ProxyClients.step] at hstep
    split_ifs at hstep with hblocked
    obtain ⟨session, hsession, rfl⟩ := Option.map_eq_some_iff.mp hstep
    refine h.task_step (h.task.session (fun k hk he => hblocked ?_) hsession) rfl rfl rfl rfl
    simp [hk, he]

def isListener : ProxyClientEvent → Bool
  | .dispose | .checkCancellation | .accept | .acceptThrows | .tick | .close | .openClient _
  | .openThrows => true
  | .loop _ | .request _ | .readThrows _ | .addTransaction | .writeMessage _ | .timeout
  | .timeoutRemove | .complete | .respond _ | .notification _ _ | .session _ => false

structure Leaves (s s' : ProxyClients) : Prop where
  listenerTask_eq : s'.listenerTask = s.listenerTask
  listenerCanceled_eq : s'.listenerCanceled = s.listenerCanceled
  connectedStream_eq : s'.connectedStream = s.connectedStream
  connectedClient_eq : s'.connectedClient = s.connectedClient
  task_none : s.handleClientTask = none → s'.handleClientTask = none

/-- A step of a task that is there. -/
theorem leaves_task {s : ProxyClients} {task : ClientTask} (h : s.handleClientTask = some task)
    (session : CsSession) (task' : ClientTask) :
    s.Leaves { s with session := session, handleClientTask := some task' } := by
  refine ⟨rfl, rfl, rfl, rfl, fun hnone => ?_⟩
  rw [h] at hnone
  cases hnone

theorem leaves_callStep {s s' : ProxyClients} {event : ℕ → CsEvent}
    {after : ℕ → ℕ → CsMessage → CsCall → ClientTask} (h : s.callStep event after = some s') :
    s.Leaves s' := by
  obtain ⟨client, k, req, session, c, htask, -, -, rfl⟩ := callStep_eq_some h
  exact leaves_task htask _ _

theorem leaves_of_step {s s' : ProxyClients} {e : ProxyClientEvent} (he : isListener e = false)
    (hstep : s.step e = some s') : s.Leaves s' := by
  cases e with
  | dispose | checkCancellation | accept | acceptThrows | tick | close | openClient
  | openThrows => cases he
  | addTransaction | writeMessage | timeout | complete => exact leaves_callStep hstep
  | loop | readThrows =>
    simp only [ProxyClients.step] at hstep
    split at hstep
    · obtain rfl := Option.some.inj hstep
      exact leaves_task ‹_› _ _
    · cases hstep
  | request req =>
    simp only [ProxyClients.step] at hstep
    split at hstep
    · rename_i htask
      obtain rfl := Option.some.inj hstep
      exact ⟨rfl, rfl, rfl, rfl, fun hnone => by rw [htask] at hnone; cases hnone⟩
    · cases hstep
  | timeoutRemove =>
    simp only [ProxyClients.step] at hstep
    split at hstep
    · obtain ⟨session, -, rfl⟩ := Option.map_eq_some_iff.mp hstep
      exact leaves_task ‹_› _ _
    · cases hstep
  | respond fault =>
    simp only [ProxyClients.step] at hstep
    split at hstep
    · rename_i htask
      split at hstep
      · obtain rfl := Option.some.inj hstep
        exact leaves_task htask _ _
      · obtain rfl := Option.some.inj hstep
        exact leaves_task htask _ _
      · obtain rfl := Option.some.inj hstep
        exact ⟨rfl, rfl, rfl, rfl, fun hnone => by rw [htask] at hnone; cases hnone⟩
    · cases hstep
  | notification msg fails =>
    simp only [ProxyClients.step] at hstep
    split_ifs at hstep
    split at hstep
    all_goals
      obtain rfl := Option.some.inj hstep
      exact ⟨rfl, rfl, rfl, rfl, id⟩
  | session e =>
    simp only [ProxyClients.step] at hstep
    split_ifs at hstep
    obtain ⟨session, -, rfl⟩ := Option.map_eq_some_iff.mp hstep
    exact ⟨rfl, rfl, rfl, rfl, id⟩

structure ClosedUpTo (s : ProxyClients) : Prop where
  stream : ∀ stage next, s.listenerTask = .closing stage next → stage ≠ .stream →
    s.connectedStream = none
  client : ∀ next, s.listenerTask = .closing .awaiting next → s.connectedClient = none

structure ClosedAtEnd (s : ProxyClients) : Prop where
  upTo : s.ClosedUpTo
  not_checking : s.listenerTask = .checking → s.listenerCanceled = false
  stopped : s.listenerTask = .stopped →
    s.connectedStream = none ∧ s.connectedClient = none ∧ s.handleClientTask = none

theorem closedUpTo_init : ClosedUpTo init := ⟨by simp [init], by simp [init]⟩

theorem closedAtEnd_init : ClosedAtEnd init := ⟨closedUpTo_init, fun _ => rfl, by simp [init]⟩

/-- The listener is not in `CloseClientConnection`. -/
theorem closedUpTo_other {s : ProxyClients}
    (h : ∀ stage next, s.listenerTask ≠ .closing stage next) : s.ClosedUpTo :=
  ⟨fun stage next htask => absurd htask (h stage next),
    fun next htask => absurd htask (h .awaiting next)⟩

/-- `CloseClientConnection` has just begun. -/
theorem closedUpTo_stream {s : ProxyClients} {next : Option ℕ}
    (htask : s.listenerTask = .closing .stream next) : s.ClosedUpTo := by
  refine ⟨fun stage next' h hne => ?_, fun next' h => ?_⟩
  · cases htask.symm.trans h
    exact absurd rfl hne
  · cases htask.symm.trans h

/-- The listener neither looks at its condition nor has ended. -/
theorem closedAtEnd_other {s : ProxyClients} (h : s.ClosedUpTo)
    (hchecking : s.listenerTask ≠ .checking) (hstopped : s.listenerTask ≠ .stopped) :
    s.ClosedAtEnd :=
  ⟨h, fun htask => absurd htask hchecking, fun htask => absurd htask hstopped⟩

theorem afterClose_ne_closing (next : Option ℕ) (stage : CloseStage) (next' : Option ℕ) :
    afterClose next ≠ .closing stage next' := by
  cases next <;> simp [afterClose]

theorem ClosedUpTo.close {s s' : ProxyClients} (h : s.ClosedUpTo) {stage : CloseStage}
    {next : Option ℕ} (htask : s.listenerTask = .closing stage next)
    (hstep : s.closeClientConnection stage next = some s') : s'.ClosedUpTo := by
  cases stage with
  | stream =>
    obtain rfl := Option.some.inj hstep
    exact ⟨fun _ _ _ _ => rfl, by simp⟩
  | token =>
    obtain rfl := Option.some.inj hstep
    exact ⟨fun _ _ _ _ => h.stream _ _ htask (by simp), by simp⟩
  | client =>
    obtain rfl := Option.some.inj hstep
    exact ⟨fun _ _ _ _ => h.stream _ _ htask (by simp), fun _ _ => rfl⟩
  | awaiting =>
    apply closedUpTo_other
    intro stage next'
    simp only [closeClientConnection] at hstep
    split at hstep
    · obtain rfl := Option.some.inj hstep
      exact afterClose_ne_closing next stage next'
    · obtain rfl := Option.some.inj hstep
      exact afterClose_ne_closing next stage next'
    · split at hstep
      · obtain rfl := Option.some.inj hstep
        exact afterClose_ne_closing next stage next'
      · obtain rfl := Option.some.inj hstep
        simp
    · cases hstep

theorem ClosedUpTo.step {s s' : ProxyClients} {e : ProxyClientEvent} (h : s.ClosedUpTo)
    (hstep : s.step e = some s') : s'.ClosedUpTo := by
  by_cases he : isListener e = true
  · cases e with
    | loop | request | readThrows | addTransaction | writeMessage | timeout | timeoutRemove
    | complete | respond | notification | session => cases he
    | dispose =>
      obtain rfl := Option.some.inj hstep
      exact ⟨h.stream, h.client⟩
    | checkCancellation =>
      simp only [ProxyClients.step] at hstep
      split at hstep
      · obtain rfl := Option.some.inj hstep
        apply closedUpTo_other
        cases hcanceled : s.listenerCanceled <;> simp
      · obtain rfl := Option.some.inj hstep
        cases hcanceled : s.listenerCanceled with
        | true => exact closedUpTo_stream rfl
        | false => exact closedUpTo_other (by simp)
      · cases hstep
    | accept =>
      simp only [ProxyClients.step] at hstep
      split at hstep
      · obtain rfl := Option.some.inj hstep
        cases s.handleClientTask.isSome with
        | true => exact closedUpTo_stream rfl
        | false => exact closedUpTo_other (by simp)
      · cases hstep
    | close =>
      simp only [ProxyClients.step] at hstep
      split at hstep
      · exact h.close ‹_› hstep
      · cases hstep
    | acceptThrows | tick | openClient | openThrows =>
      simp only [ProxyClients.step] at hstep
      split at hstep
      · obtain rfl := Option.some.inj hstep
        exact closedUpTo_other (by simp [openClientConnection])
      · cases hstep
  · have hleaves := leaves_of_step (Bool.not_eq_true _ ▸ he) hstep
    refine ⟨fun stage next htask hne => ?_, fun next htask => ?_⟩
    · exact hleaves.connectedStream_eq.trans
        (h.stream stage next (hleaves.listenerTask_eq ▸ htask) hne)
    · exact hleaves.connectedClient_eq.trans (h.client next (hleaves.listenerTask_eq ▸ htask))

/-- If a client is disconnected while the device owes the response to its request, then the proxy
connects no client and writes nothing any more, whatever happens. -/
theorem lost_of_call_in_progress {s : ProxyClients} {es : List ProxyClientEvent}
    (hrun : run ProxyClients.step init es = some s) {next : Option ℕ}
    (hlistener : s.listenerTask = .closing .token next) {client k : ℕ} {req : CsMessage}
    (htask : s.handleClientTask = some (.invoking client k req)) {c : CsCall}
    (hcall : s.session.calls[k]? = some c) (hphase : c.phase = .written) {s' : ProxyClients}
    {es' : List ProxyClientEvent} (hrun' : run ProxyClients.step s es' = some s') :
    s'.connectedStream = none ∧ s'.written = s.written ∧ s'.accepted = s.accepted := by
  have hclosed : s.ClosedUpTo :=
    run_invariant (fun _ _ _ h hstep => h.step hstep) closedUpTo_init hrun
  have hlost : s.Lost := ⟨hclosed.stream _ _ hlistener (by simp), .inl ⟨_, _, hlistener⟩,
    .invoking htask hcall hphase⟩
  have hkeep : ∀ t e t', (Lost t ∧ t.written = s.written ∧ t.accepted = s.accepted) →
      t.step e = some t' → Lost t' ∧ t'.written = s.written ∧ t'.accepted = s.accepted := by
    rintro t e t' ⟨h, hwritten, haccepted⟩ hstep
    obtain ⟨h', hwritten', haccepted'⟩ := h.step hstep
    exact ⟨h', hwritten'.trans hwritten, haccepted'.trans haccepted⟩
  obtain ⟨h', hwritten, haccepted⟩ := run_invariant hkeep ⟨hlost, rfl, rfl⟩ hrun'
  exact ⟨h'.stream, hwritten, haccepted⟩

/-- The first client is replaced before the response to its request comes. -/
theorem lost_of_call_in_progress_secondClient :
    ∃ s s', run ProxyClients.step init (firstClient ++ secondClient) = some s ∧
      run ProxyClients.step s (firstResponse ++ [.close, .close, .close]) = some s' ∧
        s'.connectedStream = none ∧ s'.written = s.written ∧ s'.accepted = s.accepted := by
  have hstates : (run ProxyClients.step init (firstClient ++ secondClient)).map (fun s =>
      (s.listenerTask, s.handleClientTask, s.session.calls[0]?,
        (run ProxyClients.step s (firstResponse ++ [.close, .close, .close])).isSome)) =
      some (.closing .token (some 1), some (.invoking 0 0 ⟨9, 3, false, [1]⟩),
        some ⟨1, .written, .pending⟩, true) := rfl
  obtain ⟨s, hrun, hstate⟩ := Option.map_eq_some_iff.mp hstates
  simp only [Prod.mk.injEq] at hstate
  obtain ⟨hlistener, htask, hcall, hgoes⟩ := hstate
  obtain ⟨s', hrun'⟩ := Option.isSome_iff_exists.mp hgoes
  exact ⟨s, s', hrun, hrun', lost_of_call_in_progress hrun hlistener htask hcall rfl hrun'⟩

def CancelsInside (s : ProxyClients) : ProxyClientEvent → Prop
  | .dispose => s.listenerTask ≠ .checking
  | _ => True

theorem ClosedAtEnd.close {s s' : ProxyClients} (h : s.ClosedAtEnd) {stage : CloseStage}
    {next : Option ℕ} (htask : s.listenerTask = .closing stage next)
    (hstep : s.closeClientConnection stage next = some s') : s'.ClosedAtEnd := by
  have hupTo := h.upTo.close htask hstep
  cases stage with
  | stream | token | client =>
    obtain rfl := Option.some.inj hstep
    exact closedAtEnd_other hupTo (by simp) (by simp)
  | awaiting =>
    have hstream := h.upTo.stream _ _ htask (by simp)
    have hclient := h.upTo.client _ htask
    have hafter : afterClose next ≠ .checking := by cases next <;> simp [afterClose]
    simp only [closeClientConnection] at hstep
    split at hstep
    · rename_i hnone
      obtain rfl := Option.some.inj hstep
      exact ⟨hupTo, fun h => absurd h hafter, fun _ => ⟨hstream, hclient, hnone⟩⟩
    · obtain rfl := Option.some.inj hstep
      exact ⟨hupTo, fun h => absurd h hafter, fun _ => ⟨hstream, hclient, rfl⟩⟩
    · split at hstep
      · obtain rfl := Option.some.inj hstep
        exact ⟨hupTo, fun h => absurd h hafter, fun _ => ⟨hstream, hclient, rfl⟩⟩
      · obtain rfl := Option.some.inj hstep
        exact closedAtEnd_other hupTo (by simp) (by simp)
    · cases hstep

theorem ClosedAtEnd.step {s s' : ProxyClients} {e : ProxyClientEvent} (h : s.ClosedAtEnd)
    (hok : s.CancelsInside e) (hstep : s.step e = some s') : s'.ClosedAtEnd := by
  have hupTo := h.upTo.step hstep
  by_cases he : isListener e = true
  · cases e with
    | loop | request | readThrows | addTransaction | writeMessage | timeout | timeoutRemove
    | complete | respond | notification | session => cases he
    | dispose =>
      obtain rfl := Option.some.inj hstep
      exact ⟨hupTo, fun htask => absurd htask hok, h.stopped⟩
    | checkCancellation =>
      simp only [ProxyClients.step] at hstep
      split at hstep
      · rename_i htask
        obtain rfl := Option.some.inj hstep
        simp only [h.not_checking htask, Bool.false_eq_true, if_false] at hupTo ⊢
        exact closedAtEnd_other hupTo (by simp) (by simp)
      · obtain rfl := Option.some.inj hstep
        cases hcanceled : s.listenerCanceled with
        | true =>
          simp only [hcanceled, if_true] at hupTo
          exact closedAtEnd_other hupTo (by simp) (by simp)
        | false =>
          simp only [hcanceled, Bool.false_eq_true, if_false] at hupTo
          exact ⟨hupTo, fun _ => rfl, by simp⟩
      · cases hstep
    | accept =>
      simp only [ProxyClients.step] at hstep
      split at hstep
      · obtain rfl := Option.some.inj hstep
        refine ⟨hupTo, fun htask => ?_, fun htask => ?_⟩
        all_goals
          simp only at htask
          split at htask <;> cases htask
      · cases hstep
    | close =>
      simp only [ProxyClients.step] at hstep
      split at hstep
      · exact h.close ‹_› hstep
      · cases hstep
    | acceptThrows | tick | openClient | openThrows =>
      simp only [ProxyClients.step] at hstep
      split at hstep
      · obtain rfl := Option.some.inj hstep
        exact closedAtEnd_other hupTo (by simp [openClientConnection])
          (by simp [openClientConnection])
      · cases hstep
  · have hleaves := leaves_of_step (Bool.not_eq_true _ ▸ he) hstep
    refine ⟨hupTo, fun htask => ?_, fun htask => ?_⟩
    · rw [hleaves.listenerCanceled_eq]
      exact h.not_checking (hleaves.listenerTask_eq ▸ htask)
    · obtain ⟨hstream, hclient, hnone⟩ := h.stopped (hleaves.listenerTask_eq ▸ htask)
      exact ⟨hleaves.connectedStream_eq.trans hstream, hleaves.connectedClient_eq.trans hclient,
        hleaves.task_none hnone⟩

/-- When the listener has stopped, no client is connected and no task handles one, unless the
cancellation fell between the two conditions of its loop. -/
theorem closed_when_stopped {s : ProxyClients} {es : List ProxyClientEvent}
    (hrun : run ProxyClients.step init es = some s)
    (hok : Along ProxyClients.step CancelsInside init es) (hstopped : s.listenerTask = .stopped) :
    s.connectedStream = none ∧ s.connectedClient = none ∧ s.handleClientTask = none := by
  have hclosed : s.ClosedAtEnd := run_invariant_along
    (fun _ _ _ h hok hstep => h.step hok hstep) closedAtEnd_init hok hrun
  exact hclosed.stopped hstopped

def disposedProxy : List ProxyClientEvent :=
  firstClient ++ firstResponse ++ [.dispose, .checkCancellation, .close, .close, .close,
    .loop true, .close]

theorem closed_when_stopped_disposedProxy :
    ∃ s, run ProxyClients.step init disposedProxy = some s ∧ s.listenerTask = .stopped ∧
      s.connectedStream = none ∧ s.connectedClient = none ∧ s.handleClientTask = none := by
  have hstates : (run ProxyClients.step init disposedProxy).map (·.listenerTask) =
      some .stopped := rfl
  obtain ⟨s, hrun, hstopped⟩ := Option.map_eq_some_iff.mp hstates
  have hserved : Along ProxyClients.step CancelsInside init (firstClient ++ firstResponse) :=
    along_of_forall fun s e he => by
      simp only [firstClient, firstResponse, List.cons_append, List.nil_append, List.mem_cons,
        List.not_mem_nil, or_false] at he
      rcases he with rfl | rfl | rfl | rfl | rfl | rfl | rfl | rfl | rfl | rfl <;> trivial
  refine ⟨s, hrun, hstopped, closed_when_stopped hrun (along_append hserved ?_) hstopped⟩
  intro m hm
  have haccepted : (run ProxyClients.step init (firstClient ++ firstResponse)).map
      (·.listenerTask) = some .accepted := rfl
  rw [hm, Option.map_some, Option.some.injEq] at haccepted
  refine ⟨by simp [CancelsInside, haccepted], fun m _ => ?_⟩
  exact ⟨trivial, fun _ _ => ⟨trivial, fun _ _ => ⟨trivial, fun _ _ => ⟨trivial, fun _ _ =>
    ⟨trivial, fun _ _ => ⟨trivial, fun _ _ => trivial⟩⟩⟩⟩⟩⟩

/-- What a step does with the session: nothing, or one step, which is not one of the read task if
that has failed. -/
structure SessionStep (s s' : ProxyClients) : Prop where
  failed : s.readTaskFailed = true → s'.readTaskFailed = true
  session : s'.session = s.session ∨
    ∃ e, s.session.step e = some s'.session ∧ (s.readTaskFailed = true → e.isRead = false)

theorem sessionStep_callStep {s s' : ProxyClients} {event : ℕ → CsEvent}
    {after : ℕ → ℕ → CsMessage → CsCall → ClientTask} (hevent : ∀ k, (event k).isRead = false)
    (h : s.callStep event after = some s') : s.SessionStep s' := by
  obtain ⟨client, k, req, session, c, -, hsession, -, rfl⟩ := callStep_eq_some h
  exact ⟨id, .inr ⟨event k, hsession, fun _ => hevent k⟩⟩

theorem sessionStep_close {s s' : ProxyClients} {stage : CloseStage} {next : Option ℕ}
    (h : s.closeClientConnection stage next = some s') : s.SessionStep s' := by
  simp only [closeClientConnection] at h
  split at h
  · obtain rfl := Option.some.inj h
    exact ⟨id, .inl rfl⟩
  · obtain rfl := Option.some.inj h
    exact ⟨id, .inl rfl⟩
  · obtain rfl := Option.some.inj h
    exact ⟨id, .inl rfl⟩
  · split at h
    · obtain rfl := Option.some.inj h
      exact ⟨id, .inl rfl⟩
    · obtain rfl := Option.some.inj h
      exact ⟨id, .inl rfl⟩
    · split at h
      all_goals
        obtain rfl := Option.some.inj h
        exact ⟨id, .inl rfl⟩
    · cases h

theorem sessionStep_of_step {s s' : ProxyClients} {e : ProxyClientEvent}
    (hstep : s.step e = some s') : s.SessionStep s' := by
  cases e with
  | dispose =>
    obtain rfl := Option.some.inj hstep
    exact ⟨id, .inl rfl⟩
  | checkCancellation | accept | acceptThrows | tick | openClient | openThrows | loop
  | readThrows =>
    simp only [ProxyClients.step] at hstep
    split at hstep
    all_goals first
      | obtain rfl := Option.some.inj hstep
        exact ⟨id, .inl rfl⟩
      | cases hstep
  | close =>
    simp only [ProxyClients.step] at hstep
    split at hstep
    · exact sessionStep_close hstep
    · cases hstep
  | request req =>
    simp only [ProxyClients.step] at hstep
    split at hstep
    · obtain rfl := Option.some.inj hstep
      exact ⟨id, .inr ⟨.aquire, rfl, fun _ => rfl⟩⟩
    · cases hstep
  | addTransaction | writeMessage | timeout | complete =>
    exact sessionStep_callStep (fun _ => rfl) hstep
  | timeoutRemove =>
    simp only [ProxyClients.step] at hstep
    split at hstep
    · obtain ⟨session, hsession, rfl⟩ := Option.map_eq_some_iff.mp hstep
      exact ⟨id, .inr ⟨_, hsession, fun _ => rfl⟩⟩
    · cases hstep
  | respond fault =>
    simp only [ProxyClients.step] at hstep
    split at hstep
    · split at hstep
      all_goals
        obtain rfl := Option.some.inj hstep
        exact ⟨id, .inl rfl⟩
    · cases hstep
  | notification msg fails =>
    simp only [ProxyClients.step] at hstep
    split_ifs at hstep
    split at hstep
    · obtain rfl := Option.some.inj hstep
      exact ⟨id, .inl rfl⟩
    · obtain rfl := Option.some.inj hstep
      exact ⟨fun _ => rfl, .inl rfl⟩
    · obtain rfl := Option.some.inj hstep
      exact ⟨id, .inl rfl⟩
  | session e =>
    simp only [ProxyClients.step] at hstep
    split_ifs at hstep with hblocked
    obtain ⟨session, hsession, rfl⟩ := Option.map_eq_some_iff.mp hstep
    refine ⟨id, .inr ⟨e, hsession, fun hfailed => ?_⟩⟩
    by_contra hread
    simp [hfailed, hread] at hblocked

/-- A step other than those of the read task sets no response. -/
theorem set_of_step {s s' : CsSession} {e : CsEvent} (hstep : s.step e = some s')
    (hread : e.isRead = false) (hfetched : s.fetched = none) :
    s'.fetched = none ∧ ∀ (k : ℕ) (c' : CsCall) msg, s'.calls[k]? = some c' →
      c'.response = .set msg → ∃ c, s.calls[k]? = some c ∧ c.response = .set msg := by
  by_cases hlater : isLater (.session e) = true
  · have hfollows := follows_of_invokeStep hlater hstep
    constructor
    · cases hsome : s'.fetched with
      | none => rfl
      | some p =>
        rw [hfollows.fetched p hsome] at hfetched
        cases hfetched
    · intro k c' msg hc' hset
      obtain ⟨c, hc, -, hresponse⟩ := hfollows.calls k c' hc'
      rcases hresponse msg hset with hold | ⟨t, ht, -⟩
      · exact ⟨c, hc, hold⟩
      · rw [hfetched] at ht
        cases ht
  · cases e with
    | aquire =>
      obtain rfl := Option.some.inj hstep
      refine ⟨hfetched, fun k c' msg hc' hset => ?_⟩
      rcases CsSystem.getElem?_aquire hc' with hold | ⟨-, rfl⟩
      · exact ⟨c', hold, hset⟩
      · cases hset
    | readMessage => cases hread
    | addTransaction | writeMessage | timeout | timeoutRemove | complete | setResponse
    | clearTransactions => exact absurd rfl hlater

structure Silent (s t : ProxyClients) : Prop where
  failed : t.readTaskFailed = true
  fetched : t.session.fetched = none
  responses : ∀ (k : ℕ) (c' : CsCall) resp, t.session.calls[k]? = some c' →
    c'.response = .set resp → ∃ c, s.session.calls[k]? = some c ∧ c.response = .set resp

theorem Silent.step {s t t' : ProxyClients} {e : ProxyClientEvent} (h : s.Silent t)
    (hstep : t.step e = some t') : s.Silent t' := by
  obtain ⟨hfailed, hsame | ⟨e', hsession, hread⟩⟩ := sessionStep_of_step hstep
  · exact ⟨hfailed h.failed, hsame ▸ h.fetched, hsame ▸ h.responses⟩
  · obtain ⟨hfetched, hold⟩ := set_of_step hsession (hread h.failed) h.fetched
    refine ⟨hfailed h.failed, hfetched, fun k c' resp hc' hset => ?_⟩
    obtain ⟨c, hc, hset'⟩ := hold k c' resp hc' hset
    exact h.responses k c resp hc hset'

theorem silent_of_notification {s s' : ProxyClients} {msg : CsMessage} {client : ℕ}
    (hstream : s.connectedStream = some client)
    (hstep : s.step (.notification msg true) = some s') : s.Silent s' := by
  simp only [ProxyClients.step, hstream] at hstep
  split_ifs at hstep with hguard
  obtain rfl := Option.some.inj hstep
  simp only [Bool.and_eq_true, Option.isNone_iff_eq_none] at hguard
  exact ⟨rfl, hguard.1.2, fun k c' resp hc' hset => ⟨c', hc', hset⟩⟩

/-- If a notification cannot be written to the client of the proxy, then no call of the session gets
a response any more, whatever happens: every response of a later state is there already. -/
theorem no_response_after_failed_notification {s s₁ s' : ProxyClients} {msg : CsMessage}
    {client : ℕ} (hstream : s.connectedStream = some client)
    (hfails : s.step (.notification msg true) = some s₁) {es : List ProxyClientEvent}
    (hrun : run ProxyClients.step s₁ es = some s') {k : ℕ} {c' : CsCall} {resp : CsMessage}
    (hcall : s'.session.calls[k]? = some c') (hset : c'.response = .set resp) :
    ∃ c, s.session.calls[k]? = some c ∧ c.response = .set resp := by
  have hsilent : s.Silent s' := run_invariant (fun _ _ _ h hstep => h.step hstep)
    (silent_of_notification hstream hfails) hrun
  exact hsilent.responses k c' resp hcall hset

theorem no_response_after_failed_notification_firstClient :
    ∃ s s₁ s' c', run ProxyClients.step init (firstClient ++ firstResponse) = some s ∧
      s.step (.notification ⟨0, 5, false, []⟩ true) = some s₁ ∧
        run ProxyClients.step s₁ [.loop true] = some s' ∧ s'.session.calls[0]? = some c' ∧
          ∃ c, s.session.calls[0]? = some c ∧ c.response = .set ⟨1, 3, true, [7]⟩ := by
  have hstates : (run ProxyClients.step init (firstClient ++ firstResponse)).bind (fun s =>
      (s.step (.notification ⟨0, 5, false, []⟩ true)).bind fun s₁ =>
        (run ProxyClients.step s₁ [.loop true]).map fun s' =>
          (s.connectedStream, s'.session.calls[0]?)) =
      some (some 0, some ⟨1, .finished, .set ⟨1, 3, true, [7]⟩⟩) := rfl
  obtain ⟨s, hrun, hstates⟩ := Option.bind_eq_some_iff.mp hstates
  obtain ⟨s₁, hfails, hstates⟩ := Option.bind_eq_some_iff.mp hstates
  obtain ⟨s', hrun', hstate⟩ := Option.map_eq_some_iff.mp hstates
  obtain ⟨hstream, hcall⟩ := Prod.mk.inj hstate
  exact ⟨s, s₁, s', _, hrun, hfails, hrun', hcall,
    no_response_after_failed_notification hstream hfails hrun' hcall rfl⟩

end ProxyClients

end CompostRpc
