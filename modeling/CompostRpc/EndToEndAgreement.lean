import CompostRpc.CallStages

/-!
# Agreement of a client and a server

In every run in which no notification kills the listener, each call returns the payload that the
server produced for it, and does so however the parts of the system go on.
-/

namespace CompostRpc
open TransitionRun

namespace System

variable {srv : Server}

theorem step_checkListener {s s' : System} (hstep : step srv s .checkListener = some s') :
    ∃ c, s.client.call = some c ∧ c.waiting = false ∧
      s' = { s with client := s.client.checkListener c } := by
  obtain ⟨c', hclient, rfl⟩ := Option.map_eq_some_iff.mp hstep
  obtain ⟨c, hcall, hwaiting, rfl⟩ := Client.step_checkListener.mp hclient
  exact ⟨c, hcall, hwaiting, rfl⟩

theorem step_get {s s' : System} (hstep : step srv s .get = some s') :
    ∃ c d queue, s.client.call = some c ∧ s.client.queue = d :: queue ∧ c.waiting = true ∧
      s' = { s with
        client := { s.client with queue := queue }.finish c true (some d)
          (recvItem srv.protocol.pyRpcs c.txn d.item) } := by
  obtain ⟨c', hclient, rfl⟩ := Option.map_eq_some_iff.mp hstep
  obtain ⟨c, d, queue, hcall, hqueue, hwaiting, rfl⟩ := Client.step_get.mp hclient
  exact ⟨c, d, queue, hcall, hqueue, hwaiting, rfl⟩

theorem step_serve {s s' : System} {mem : ByteMemory}
    (hstep : step srv s (.serve mem) = some s') :
    ∃ request requests, s.requests = request :: requests ∧
      s' = { s with
        requests := requests
        replies := s.replies ++ (srv.serve mem request).toList
        served := s.served ++ [⟨request, srv.serve mem request⟩] } := by
  simp only [step] at hstep
  split at hstep
  · cases hstep
  · rename_i request requests hrequests
    exact ⟨request, requests, hrequests, (Option.some.inj hstep).symm⟩

theorem step_deliver {s s' : System} {subscribed : Bool}
    (hstep : step srv s (.deliver subscribed) = some s') :
    ∃ msgBytes replies, s.replies = msgBytes :: replies ∧
      s' = { s with
        client := s.client.receive srv.protocol.pyRpcs (.ok msgBytes) subscribed false
        replies := replies } := by
  simp only [step] at hstep
  split at hstep
  · cases hstep
  · rename_i msgBytes replies hreplies
    obtain ⟨c, hclient, rfl⟩ := Option.map_eq_some_iff.mp hstep
    obtain ⟨-, rfl⟩ := Client.step_receive.mp hclient
    exact ⟨msgBytes, replies, hreplies, rfl⟩

theorem Agreeing.step {s s' : System} {e : SystemEvent} (h : Agreeing srv s)
    (hok : Decodes srv s e) (hstep : step srv s e = some s') : Agreeing srv s' := by
  cases e with
  | call position data =>
    obtain ⟨d, hd, hcall⟩ := Option.bind_eq_some_iff.mp hstep
    exact h.call (List.mem_of_getElem? hd) hcall
  | checkListener =>
    obtain ⟨c, hcall, -, rfl⟩ := step_checkListener hstep
    exact h.checkListener hcall
  | get =>
    obtain ⟨c, d, queue, hcall, hqueue, -, rfl⟩ := step_get hstep
    exact h.get hcall hqueue
  | serve mem =>
    obtain ⟨request, requests, hrequests, rfl⟩ := step_serve hstep
    exact h.serve hrequests mem
  | emit position args mem =>
    obtain ⟨d, hd, hemit⟩ := Option.bind_eq_some_iff.mp hstep
    obtain ⟨-, hs'⟩ := Option.ite_none_right_eq_some.mp hemit
    obtain rfl := Option.some.inj hs'
    exact h.emit ⟨d, List.mem_of_getElem? hd, Server.emit_eq d mem (args d)⟩
  | deliver subscribed =>
    obtain ⟨msgBytes, replies, hreplies, rfl⟩ := step_deliver hstep
    exact h.deliver hreplies hok

/-- The results of the finished calls are the first payloads that the server produced. -/
theorem Agreeing.agrees {s : System} (h : Agreeing srv s) : s.Agrees := by
  obtain ⟨payloads, hfinished, hstage⟩ := h.stage
  have hproduced : ∃ later, s.produced = payloads.map some ++ later := by
    cases hstage with
    | idle _ _ _ _ hproduced => exact ⟨[], by rw [hproduced, List.append_nil]⟩
    | requested _ _ _ _ _ _ _ _ _ hproduced => exact ⟨[], by rw [hproduced, List.append_nil]⟩
    | replied _ _ _ _ _ _ _ _ _ _ _ _ hproduced => exact ⟨_, hproduced⟩
    | queued _ _ _ _ _ _ _ _ hproduced => exact ⟨_, hproduced⟩
  refine ⟨fun k r hr => ?_, h.unanswered, fun hcall => (hstage.idle_of_call hcall).1⟩
  obtain ⟨later, hlater⟩ := hproduced
  have hresult : (payloads.map (.ok : List UInt8 → Except SessionError _))[k]? = some r.result := by
    rw [← hfinished, List.getElem?_map, hr, Option.map_some]
  obtain ⟨payload, hpayload, hok⟩ := List.getElem?_map .. ▸ hresult |> Option.map_eq_some_iff.mp
  refine ⟨payload, hok.symm, ?_⟩
  have hlt : k < (payloads.map some).length := by
    rw [List.length_map]
    exact (List.getElem?_eq_some_iff.mp hpayload).1
  rw [hlater, List.getElem?_append_left hlt, List.getElem?_map, hpayload, Option.map_some]

theorem callWork_receive (rpcs : Rpcs) (c : Client) (outcome : Except PyError (List UInt8))
    (subscribed callbackRaises : Bool) :
    callWork (c.receive rpcs outcome subscribed callbackRaises).call = callWork c.call := by
  unfold Client.receive
  split
  · cases hcall : c.call with
    | none => simp [Client.put, hcall]
    | some call => simp [Client.put, hcall, callWork, PendingCall.note]
  · rfl
  · rfl

/-- A step that goes on leaves less to do. -/
theorem work_step {s s' : System} {e : SystemEvent} (hgoes : goesOn e = true)
    (hstep : step srv s e = some s') : s'.work < s.work := by
  cases e with
  | call position data => cases hgoes
  | checkListener =>
    obtain ⟨c, hcall, hwaiting, rfl⟩ := step_checkListener hstep
    have hless : callWork (s.client.checkListener c).call < callWork s.client.call := by
      rw [Client.checkListener, hcall]
      split <;> simp [callWork, hwaiting, Client.finish]
    simp only [work]
    omega
  | get =>
    obtain ⟨c, d, queue, hcall, -, hwaiting, rfl⟩ := step_get hstep
    simp only [work, hcall, Client.finish, callWork, hwaiting, if_true]
    omega
  | serve mem =>
    obtain ⟨request, requests, hrequests, rfl⟩ := step_serve hstep
    have hreply : (srv.serve mem request).toList.length ≤ 1 := by
      cases srv.serve mem request <;> simp
    simp only [work, hrequests, List.length_cons, List.length_append]
    omega
  | emit position args mem => cases hgoes
  | deliver subscribed =>
    obtain ⟨msgBytes, replies, hreplies, rfl⟩ := step_deliver hstep
    simp only [work, hreplies, List.length_cons, callWork_receive]
    omega

/-- As long as a call is in progress, there is a way to go on. -/
theorem Agreeing.exists_goesOn {s : System} (h : Agreeing srv s) {c : PendingCall}
    (hcall : s.client.call = some c) :
    ∃ e, goesOn e = true ∧ (System.step srv s e).isSome = true := by
  cases hwaiting : c.waiting with
  | false => exact ⟨.checkListener, rfl, by simp [System.step, Client.step, hcall, hwaiting]⟩
  | true =>
    obtain ⟨payloads, -, hstage⟩ := h.stage
    cases hstage with
    | idle hnone => cases hnone.symm.trans hcall
    | requested _ before request _ _ hrequests =>
      refine ⟨.serve fun _ => 0, rfl, ?_⟩
      cases before <;> simp [System.step, hrequests]
    | replied _ _ before _ reply _ _ _ hreplies =>
      refine ⟨.deliver false, rfl, ?_⟩
      cases before <;> simp [System.step, hreplies, Client.step, h.alive]
    | queued _ _ d _ hqueue =>
      exact ⟨.get, rfl, by simp [System.step, Client.step, hcall, hqueue, hwaiting]⟩

/-- In every run in which the notifications with a subscriber can be unpacked, the client and the
server agree in the state reached, and the call in progress returns. -/
theorem agrees_and_returns {s : System} {es : List SystemEvent}
    (hrun : run (System.step srv) init es = some s)
    (hdecodes : Along (System.step srv) (Decodes srv) init es) : s.Agrees ∧ Returns srv s := by
  have hkeep : ∀ s e s', Agreeing srv s → Decodes srv s e → System.step srv s e = some s' →
      Agreeing srv s' := fun s e s' h hok hstep => h.step hok hstep
  have hagreeing := run_invariant_along hkeep agreeing_init hdecodes hrun
  refine ⟨hagreeing.agrees, fun es' s' hgoes hdecodes' hrun' => ⟨?_, ?_⟩⟩
  · exact length_le_of_measure work (fun _ _ _ => work_step) hgoes hrun'
  · have hagreeing' := run_invariant_along hkeep hagreeing hdecodes' hrun'
    cases hcall : s'.client.call with
    | none => exact .inl rfl
    | some c => exact .inr (hagreeing'.exists_goesOn hcall)

def mode : EnumType where
  name := "Mode"
  backing := .bitU 5
  variants := [("IDLE", 0), ("ACTIVE", 17)]
  inRange := by decide

/-- A server with one call and one notification, which has a number between two bit fields. -/
def statusServer : Server where
  protocol :=
    { rpcs := [
        { rpcId := 1
          params := .nil
          ret := none
          isNotification := false
          direction := .toRemote
          rpcId_le := by decide
          params_areParameters := by decide
          ret_isParameter := by decide
          notification_ret := by decide },
        { rpcId := 2
          params := .ofTypes [.struct "Status" (.cons "flags" (.bitU 3) (.cons "level" (.num .u8)
            (.cons "mode" (.enum mode) .nil)))]
          ret := none
          isNotification := true
          direction := .toLocal
          rpcId_le := by decide
          params_areParameters := by decide
          ret_isParameter := by decide
          notification_ret := by decide }]
      ids_nodup := by decide }
  endpoint := .remote
  handlers := zeroHandlers
  txBuf := 1000
  txBufSize := 64
  rxBuf := 2000
  txBuf_ne_zero := by decide
  rxBuf_ne_zero := by decide
  header_fits := by decide

/-- The argument of the notification: the flags 5, the level 200 and the mode `ACTIVE`. -/
def activeStatus : (ms : Members) → CValues ms
  | .cons _ (.struct _ (.cons _ (.bitU _) (.cons _ (.num _) (.cons _ (.enum _) .nil)))) .nil =>
    ((BitVec.ofNat _ 5, BitVec.ofNat _ 200, (17 : BitVec 32), ()), ())
  | ms => zeroValues ms

def askedPing : List SystemEvent :=
  [.call 0 [], .checkListener, .emit 1 (fun d => zeroValues d.params) fun _ => 0, .serve fun _ => 0]

/-- The notification is dispatched to a subscriber, and then the reply arrives. -/
def answeredPing : List SystemEvent := askedPing ++ [.deliver true, .deliver false, .get]

theorem decodes_askedPing {s : System}
    (hrun : run (System.step statusServer) init askedPing = some s) :
    Decodes statusServer s (.deliver true) := by
  have hreplies : (run (System.step statusServer) init askedPing).bind (·.replies.head?) =
      some [1, 0, 0, 2, 0, 0, 0, 0] := by decide +kernel
  intro msgBytes msg reqTypes hhead hunpack htxn hreqTypes
  rw [hrun, Option.bind_some, hhead] at hreplies
  obtain rfl := Option.some.inj hreplies
  obtain rfl := Except.ok.inj hunpack
  obtain rfl := Option.some.inj hreqTypes
  decide +kernel

theorem agrees_and_returns_answeredPing :
    ∃ s, run (System.step statusServer) init answeredPing = some s ∧
      s.client.finished.map FinishedCall.result = [.ok []] ∧
        s.Agrees ∧ Returns statusServer s := by
  have hresults : (run (System.step statusServer) init answeredPing).map
      (fun s => s.client.finished.map FinishedCall.result) = some [.ok []] := by decide +kernel
  obtain ⟨s, hrun, hresult⟩ := Option.map_eq_some_iff.mp hresults
  refine ⟨s, hrun, hresult, agrees_and_returns hrun (along_append ?_ fun s' hrun' => ?_)⟩
  · exact ⟨trivial, fun _ _ => ⟨trivial, fun _ _ => ⟨trivial, fun _ _ => ⟨trivial, fun _ _ =>
      trivial⟩⟩⟩⟩
  · exact ⟨decodes_askedPing hrun', fun _ _ => ⟨trivial, fun _ _ => ⟨trivial, fun _ _ => trivial⟩⟩⟩

/-- The notification with the status above, which has a subscriber, and then a call. -/
def statusThenPing : List SystemEvent :=
  [.emit 1 (fun d => activeStatus d.params) fun _ => 0, .deliver true, .call 0 [], .checkListener]

/-- The mode is read from the wrong bits, which are no mode. That ends the listener, and the call
that follows fails. -/
theorem not_agrees_statusThenPing :
    ¬ ∀ (srv : Server) (es : List SystemEvent) (s : System),
        run (System.step srv) init es = some s → s.Agrees ∧ Returns srv s := by
  intro h
  have hresults : (run (System.step statusServer) init statusThenPing).map
      (fun s => s.client.finished.map FinishedCall.result) =
        some [.error .listenerNotRunning] := by decide +kernel
  obtain ⟨s, hrun, hresult⟩ := Option.map_eq_some_iff.mp hresults
  obtain ⟨r, hr, hfails⟩ : ∃ r, s.client.finished[0]? = some r ∧
      r.result = .error .listenerNotRunning := by
    have hfirst := congrArg (fun results => results[0]?) hresult
    rw [List.getElem?_map] at hfirst
    exact Option.map_eq_some_iff.mp hfirst
  obtain ⟨payload, hok, -⟩ := (h statusServer statusThenPing s hrun).1.results 0 r hr
  cases hfails.symm.trans hok

end System

end CompostRpc
