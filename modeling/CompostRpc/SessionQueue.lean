import CompostRpc.PySession

/-!
# The queue of a Python client

The first item in the queue since a request was sent is the item that the call takes, and every
item comes from an outcome of `receive`. This holds in every state that a run reaches, and it
settles how each finished call ended.
-/

namespace CompostRpc
open TransitionRun

variable {rpcs : Rpcs}

theorem unpack_of_classify_put {outcome : Except PyError (List UInt8)} {msg : Msg}
    (h : classify rpcs outcome = .put (.ok msg)) :
    ∃ msgBytes, outcome = .ok msgBytes ∧ Msg.unpack msgBytes = .ok msg ∧
      rpcs msg.header.rpcId ≠ none ∧ msg.header.txn ≠ 0 := by
  unfold classify at h
  split at h
  · cases h
  · rename_i msgBytes
    split at h
    · cases h
    · split at h
      · cases h
      · rename_i unpacked hunpack
        split at h
        · cases h
        · rename_i reqTypes hknown
          split at h
          · cases h
          · rename_i htxn
            cases h
            exact ⟨msgBytes, rfl, hunpack, by simp [hknown], htxn⟩

theorem recvItem_eq_ok {txn : ℕ} {item : Except SessionError Msg} {p : List UInt8} :
    recvItem rpcs txn item = .ok p ↔
      ∃ msg, item = .ok msg ∧ rpcs msg.header.rpcId ≠ none ∧ msg.header.txn = txn ∧
        msg.payload = p := by
  cases item with
  | error e => simp [recvItem]
  | ok msg =>
    by_cases hknown : rpcs msg.header.rpcId = none
    · simp [recvItem, hknown]
    · by_cases htxn : msg.header.txn = txn
      · simp [recvItem, hknown, htxn]
      · simp [recvItem, hknown, htxn]

namespace Client

def Comes (rpcs : Rpcs) (received : List (Except PyError (List UInt8))) (d : Delivered) : Prop :=
  ∃ outcome, received[d.stamp]? = some outcome ∧ classify rpcs outcome = .put d.item

theorem Comes.append {received : List (Except PyError (List UInt8))} {d : Delivered}
    (h : Comes rpcs received d) (outcome : Except PyError (List UInt8)) :
    Comes rpcs (received ++ [outcome]) d := by
  obtain ⟨o, ho, hput⟩ := h
  have hlt : d.stamp < received.length := (List.getElem?_eq_some_iff.mp ho).1
  exact ⟨o, by rw [List.getElem?_append_left hlt, ho], hput⟩

def outcomeOf (rpcs : Rpcs) (c : PendingCall) (alive : Bool) :
    Except SessionError (List UInt8) :=
  if alive then
    match c.front with
    | some d => recvItem rpcs c.txn d.item
    | none => .error .requestTimeout
  else .error .listenerNotRunning

structure Settled (rpcs : Rpcs) (received : List (Except PyError (List UInt8)))
    (r : FinishedCall) : Prop where
  taken_eq : r.taken = if r.alive then r.call.front else none
  result_eq : r.result = outcomeOf rpcs r.call r.alive
  reply_front : r.call.reply ≠ none → r.call.front ≠ none
  front_comes : ∀ d ∈ r.call.front, Comes rpcs received d

structure Consistent (rpcs : Rpcs) (s : Client) : Prop where
  queue_comes : ∀ d ∈ s.queue, Comes rpcs s.received d
  call_front : ∀ c ∈ s.call, c.front = s.queue.head?
  call_reply : ∀ c ∈ s.call, c.reply ≠ none → c.front ≠ none
  settled : ∀ r ∈ s.finished, Settled rpcs s.received r

theorem consistent_init : Consistent rpcs init where
  queue_comes := by simp [init]
  call_front := by simp [init]
  call_reply := by simp [init]
  settled := by simp [init]

theorem Settled.append {received : List (Except PyError (List UInt8))} {r : FinishedCall}
    (h : Settled rpcs received r) (outcome : Except PyError (List UInt8)) :
    Settled rpcs (received ++ [outcome]) r :=
  ⟨h.taken_eq, h.result_eq, h.reply_front, fun d hd => (h.front_comes d hd).append outcome⟩

theorem Consistent.sendRequest {s : Client} (h : Consistent rpcs s) (rpcId : ℕ)
    (data : List UInt8) (sendRaises : Bool) :
    Consistent rpcs (s.sendRequest rpcId data sendRaises) := by
  unfold Client.sendRequest
  dsimp only
  split
  · exact ⟨h.queue_comes, h.call_front, h.call_reply, h.settled⟩
  · refine ⟨h.queue_comes, fun c hc => ?_, fun c hc hreply => ?_, h.settled⟩
    · obtain rfl := Option.some.inj hc
      rfl
    · obtain rfl := Option.some.inj hc
      exact absurd rfl hreply

/-- Finishing the call in progress with the item at the front of the queue, if it takes one. -/
theorem Consistent.finish {s : Client} (h : Consistent rpcs s) {c : PendingCall}
    (hc : s.call = some c) {queue : List Delivered} (hsub : queue ⊆ s.queue) {alive : Bool}
    {taken : Option Delivered} (htaken : taken = if alive then c.front else none)
    {result : Except SessionError (List UInt8)} (hresult : result = outcomeOf rpcs c alive) :
    Consistent rpcs ({ s with queue := queue }.finish c alive taken result) := by
  refine ⟨fun d hd => h.queue_comes d (hsub hd), by simp [Client.finish],
    by simp [Client.finish], fun r hr => ?_⟩
  rcases List.mem_append.mp hr with hold | hnew
  · exact h.settled r hold
  · obtain rfl := List.mem_singleton.mp hnew
    refine ⟨htaken, hresult, h.call_reply c hc, fun d hd => ?_⟩
    have hfront : s.queue.head? = some d := (h.call_front c hc).symm.trans hd
    exact h.queue_comes d (List.mem_of_head? hfront)

theorem Consistent.checkListener {s : Client} (h : Consistent rpcs s) {c : PendingCall}
    (hc : s.call = some c) : Consistent rpcs (s.checkListener c) := by
  unfold Client.checkListener
  split
  · refine ⟨h.queue_comes, fun c' hc' => ?_, fun c' hc' => ?_, h.settled⟩
    · obtain rfl := Option.some.inj hc'
      exact h.call_front c hc
    · obtain rfl := Option.some.inj hc'
      exact h.call_reply c hc
  · exact h.finish hc (List.Subset.refl _) rfl rfl

theorem Consistent.receive {s : Client} (h : Consistent rpcs s)
    (outcome : Except PyError (List UInt8)) (subscribed callbackRaises : Bool) :
    Consistent rpcs (s.receive rpcs outcome subscribed callbackRaises) := by
  unfold Client.receive
  cases hclass : classify rpcs outcome with
  | put item =>
    refine ⟨fun d hd => ?_, fun c hc => ?_, fun c hc _ => ?_,
      fun r hr => (h.settled r hr).append outcome⟩
    · rcases List.mem_append.mp hd with hold | hnew
      · exact (h.queue_comes d hold).append outcome
      · obtain rfl := List.mem_singleton.mp hnew
        exact ⟨outcome, List.getElem?_concat_length, hclass⟩
    · obtain ⟨c', hc', rfl⟩ := Option.map_eq_some_iff.mp hc
      simp only [put, PendingCall.note, h.call_front c' hc', List.head?_append, List.head?_cons]
    · obtain ⟨c', hc', rfl⟩ := Option.map_eq_some_iff.mp hc
      simp [PendingCall.note]
  | notification reqTypes msg =>
    exact ⟨fun d hd => (h.queue_comes d hd).append outcome, h.call_front, h.call_reply,
      fun r hr => (h.settled r hr).append outcome⟩
  | raised e =>
    exact ⟨fun d hd => (h.queue_comes d hd).append outcome, h.call_front, h.call_reply,
      fun r hr => (h.settled r hr).append outcome⟩

theorem Consistent.step {s s' : Client} {e : SessionEvent} (h : Consistent rpcs s)
    (hstep : step rpcs s e = some s') : Consistent rpcs s' := by
  cases e with
  | rpc rpcId data sendRaises =>
    obtain ⟨-, rfl⟩ := step_rpc.mp hstep
    exact h.sendRequest rpcId data sendRaises
  | sendNotif rpcId data =>
    obtain ⟨-, rfl⟩ := step_sendNotif.mp hstep
    exact h
  | checkListener =>
    obtain ⟨c, hc, -, rfl⟩ := step_checkListener.mp hstep
    exact h.checkListener hc
  | get =>
    obtain ⟨c, d, queue, hc, hqueue, -, rfl⟩ := step_get.mp hstep
    have hfront : c.front = some d := by rw [h.call_front c hc, hqueue, List.head?_cons]
    refine h.finish hc ?_ hfront.symm (by simp only [outcomeOf, if_true, hfront])
    rw [hqueue]
    exact List.subset_cons_self d queue
  | timeout =>
    obtain ⟨c, hc, hqueue, -, rfl⟩ := step_timeout.mp hstep
    have hfront : c.front = none := by rw [h.call_front c hc, hqueue, List.head?_nil]
    exact h.finish hc (List.Subset.refl _) hfront.symm
      (by simp only [outcomeOf, if_true, hfront])
  | receive outcome subscribed callbackRaises =>
    obtain ⟨-, rfl⟩ := step_receive.mp hstep
    exact h.receive outcome subscribed callbackRaises

theorem consistent_of_run {s : Client} {es : List SessionEvent}
    (hrun : run (Client.step rpcs) init es = some s) : Consistent rpcs s :=
  run_invariant (fun _ _ _ h hstep => h.step hstep) consistent_init hrun

end Client

end CompostRpc
