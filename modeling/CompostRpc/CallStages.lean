import CompostRpc.LinkMessages

/-!
# The stages of a call between a client and a server

A call in progress is in one of three stages: its request is on the way and is the last one there,
its reply is on the way, or its reply is the only item in the queue. All other messages on the
links are notifications. Every step keeps this, as long as no notification kills the listener.
-/

namespace CompostRpc
namespace System

variable (srv : Server)

/-- Where the call in progress is, when the earlier calls have returned the payloads. -/
inductive Stage (s : System) (payloads : List (List UInt8)) : Prop
  | idle (hcall : s.client.call = none) (hqueue : s.client.queue = [])
      (hrequests : ∀ m ∈ s.requests, srv.IsNotificationRequest m)
      (hreplies : ∀ m ∈ s.replies, srv.IsNotification m)
      (hproduced : s.produced = payloads.map some)
  | requested (c : PendingCall) (before : List (List UInt8)) (request : List UInt8)
      (hcall : s.client.call = some c) (hqueue : s.client.queue = [])
      (hrequests : s.requests = before ++ [request])
      (hbefore : ∀ m ∈ before, srv.IsNotificationRequest m)
      (hrequest : srv.IsRequest c.txn request)
      (hreplies : ∀ m ∈ s.replies, srv.IsNotification m)
      (hproduced : s.produced = payloads.map some)
  | replied (c : PendingCall) (payload : List UInt8) (before after : List (List UInt8))
      (reply : List UInt8) (hcall : s.client.call = some c) (hqueue : s.client.queue = [])
      (hrequests : s.requests = []) (hreplies : s.replies = before ++ reply :: after)
      (hbefore : ∀ m ∈ before, srv.IsNotification m) (hafter : ∀ m ∈ after, srv.IsNotification m)
      (hreply : srv.IsReply c.txn payload reply)
      (hproduced : s.produced = payloads.map some ++ [some payload])
  | queued (c : PendingCall) (payload : List UInt8) (d : Delivered)
      (hcall : s.client.call = some c) (hqueue : s.client.queue = [d]) (hrequests : s.requests = [])
      (hreplies : ∀ m ∈ s.replies, srv.IsNotification m)
      (hitem : recvItem srv.protocol.pyRpcs c.txn d.item = .ok payload)
      (hproduced : s.produced = payloads.map some ++ [some payload])

structure Agreeing (s : System) : Prop where
  alive : s.client.listenerAlive = true
  unanswered : ∀ v ∈ s.served, v.isNotification = true → v.reply = none
  stage : ∃ payloads, s.client.finished.map FinishedCall.result = payloads.map .ok ∧
    Stage srv s payloads

variable {srv}

theorem agreeing_init : Agreeing srv init where
  alive := rfl
  unanswered := by simp [init]
  stage := ⟨[], rfl, .idle rfl rfl (by simp [init]) (by simp [init]) rfl⟩

theorem nextTxn_bounds (lastTxn : ℕ) : 0 < nextTxn lastTxn ∧ nextTxn lastTxn < 256 := by
  rw [nextTxn, txnMax]
  split <;> omega

/-- A request that cannot be packed is not sent. -/
theorem packed_cases (txn : ℕ) (d : Rpc) (data : List UInt8) :
    packed txn d data = [] ∧ (Msg.fromData txn false d.rpcId data).pack.toBool = false ∨
      ∃ len body, packed txn d data = [headerBytes len (UInt8.ofNat txn) false d.rpcId ++ body] ∧
        (Msg.fromData txn false d.rpcId data).pack.toBool = true := by
  rw [packed]
  cases hpack : (Msg.fromData txn false d.rpcId data).pack with
  | error e => exact .inl ⟨rfl, rfl⟩
  | ok bytes =>
    obtain ⟨-, len, body, rfl⟩ := Msg.pack_fromData d.rpcId_lt hpack
    exact .inr ⟨len, body, rfl, rfl⟩

/-- Nothing is on the way for a call if none is in progress. -/
theorem Stage.idle_of_call {s : System} {payloads : List (List UInt8)} (h : Stage srv s payloads)
    (hcall : s.client.call = none) :
    s.client.queue = [] ∧ (∀ m ∈ s.requests, srv.IsNotificationRequest m) ∧
      (∀ m ∈ s.replies, srv.IsNotification m) ∧ s.produced = payloads.map some := by
  cases h with
  | idle _ hqueue hrequests hreplies hproduced =>
    exact ⟨hqueue, hrequests, hreplies, hproduced⟩
  | requested c _ _ hc => cases hcall.symm.trans hc
  | replied c _ _ _ _ hc => cases hcall.symm.trans hc
  | queued c _ _ hc => cases hcall.symm.trans hc

theorem Agreeing.call {s s' : System} {d : Rpc} (h : Agreeing srv s) (hd : d ∈ srv.protocol.rpcs)
    {data : List UInt8} (hstep : s.call srv d data = some s') : Agreeing srv s' := by
  obtain ⟨payloads, hfinished, hstage⟩ := h.stage
  rw [System.call] at hstep
  cases hnotification : d.isNotification with
  | true =>
    rw [hnotification, if_pos rfl] at hstep
    obtain ⟨c, hclient, rfl⟩ := Option.map_eq_some_iff.mp hstep
    obtain ⟨hcall, rfl⟩ := Client.step_sendNotif.mp hclient
    obtain ⟨hqueue, hrequests, hreplies, hproduced⟩ := hstage.idle_of_call hcall
    refine ⟨h.alive, h.unanswered, payloads, hfinished, .idle hcall hqueue ?_ hreplies hproduced⟩
    intro m hm
    rcases List.mem_append.mp hm with hold | hnew
    · exact hrequests m hold
    · rcases packed_cases 0 d data with ⟨hnone, -⟩ | ⟨len, body, hone, -⟩
      · rw [hnone] at hnew
        cases hnew
      · rw [hone, List.mem_singleton] at hnew
        exact ⟨d, hd, hnotification, len, body, hnew⟩
  | false =>
    rw [hnotification, if_neg Bool.false_ne_true] at hstep
    obtain ⟨c, hclient, rfl⟩ := Option.map_eq_some_iff.mp hstep
    obtain ⟨hcall, rfl⟩ := Client.step_rpc.mp hclient
    obtain ⟨hqueue, hrequests, hreplies, hproduced⟩ := hstage.idle_of_call hcall
    obtain ⟨hpos, hlt⟩ := nextTxn_bounds s.client.lastTxn
    rcases packed_cases (nextTxn s.client.lastTxn) d data with
      ⟨hnone, hpack⟩ | ⟨len, body, hone, hpack⟩
    · rw [hnone, List.append_nil, Client.sendRequest_of_not_packed _ _ hpack]
      exact ⟨h.alive, h.unanswered, payloads, hfinished,
        .idle hcall hqueue hrequests hreplies hproduced⟩
    · rw [hone, Client.sendRequest_of_packed _ hpack]
      exact ⟨h.alive, h.unanswered, payloads, hfinished, .requested _ s.requests _ rfl hqueue rfl
        hrequests ⟨d, hd, hnotification, hpos, hlt, len, body, rfl⟩ hreplies hproduced⟩

theorem Agreeing.checkListener {s : System} (h : Agreeing srv s) {c : PendingCall}
    (hcall : s.client.call = some c) :
    Agreeing srv { s with client := s.client.checkListener c } := by
  obtain ⟨payloads, hfinished, hstage⟩ := h.stage
  rw [Client.checkListener, if_pos h.alive]
  refine ⟨h.alive, h.unanswered, payloads, hfinished, ?_⟩
  cases hstage with
  | idle hnone => cases hnone.symm.trans hcall
  | requested c' before request hc hqueue hrequests hbefore hrequest hreplies hproduced =>
    obtain rfl := Option.some.inj (hcall.symm.trans hc)
    exact .requested _ before request rfl hqueue hrequests hbefore hrequest hreplies hproduced
  | replied c' payload before after reply hc hqueue hrequests hreplies hbefore hafter hreply
      hproduced =>
    obtain rfl := Option.some.inj (hcall.symm.trans hc)
    exact .replied _ payload before after reply rfl hqueue hrequests hreplies hbefore hafter hreply
      hproduced
  | queued c' payload d hc hqueue hrequests hreplies hitem hproduced =>
    obtain rfl := Option.some.inj (hcall.symm.trans hc)
    exact .queued _ payload d rfl hqueue hrequests hreplies hitem hproduced

/-- The only item that a call can take is its reply. -/
theorem Agreeing.get {s : System} (h : Agreeing srv s) {c : PendingCall} {d : Delivered}
    {queue : List Delivered} (hcall : s.client.call = some c) (hq : s.client.queue = d :: queue) :
    Agreeing srv { s with
      client := { s.client with queue := queue }.finish c true (some d)
        (recvItem srv.protocol.pyRpcs c.txn d.item) } := by
  obtain ⟨payloads, hfinished, hstage⟩ := h.stage
  cases hstage with
  | idle _ hqueue => cases hq.symm.trans hqueue
  | requested _ _ _ _ hqueue => cases hq.symm.trans hqueue
  | replied _ _ _ _ _ _ hqueue => cases hq.symm.trans hqueue
  | queued c' payload d' hc hqueue hrequests hreplies hitem hproduced =>
    obtain rfl := Option.some.inj (hcall.symm.trans hc)
    obtain ⟨rfl, rfl⟩ := List.cons.inj (hq.symm.trans hqueue)
    refine ⟨h.alive, h.unanswered, payloads ++ [payload], ?_, .idle rfl rfl ?_ hreplies ?_⟩
    · simp [Client.finish, hfinished, hitem]
    · simp [hrequests]
    · rw [List.map_append, List.map_singleton]
      exact hproduced

def serveNext (s : System) (request : List UInt8) (requests : List (List UInt8))
    (reply : Option (List UInt8)) : System :=
  { s with
    requests := requests
    replies := s.replies ++ reply.toList
    served := s.served ++ [⟨request, reply⟩] }

theorem serveNext_produced (s : System) (request : List UInt8) (requests : List (List UInt8))
    (reply : Option (List UInt8)) :
    (s.serveNext request requests reply).produced =
      s.produced ++ if Served.isNotification ⟨request, reply⟩ then []
        else [reply.map (List.drop 4)] := by
  cases hv : Served.isNotification ⟨request, reply⟩ with
  | false => simp [produced, serveNext, List.filter_append, hv]
  | true => simp [produced, serveNext, List.filter_append, hv]

theorem serveNext_unanswered {s : System} {request : List UInt8} {requests : List (List UInt8)}
    {reply : Option (List UInt8)} (h : ∀ v ∈ s.served, v.isNotification = true → v.reply = none)
    (hreply : Served.isNotification ⟨request, reply⟩ = true → reply = none) :
    ∀ v ∈ (s.serveNext request requests reply).served, v.isNotification = true →
      v.reply = none := by
  intro v hv
  rcases List.mem_append.mp hv with hold | hnew
  · exact h v hold
  · obtain rfl := List.mem_singleton.mp hnew
    exact hreply

theorem Agreeing.serve {s : System} (h : Agreeing srv s) {request : List UInt8}
    {requests : List (List UInt8)} (hrequests : s.requests = request :: requests)
    (mem : ByteMemory) : Agreeing srv (s.serveNext request requests (srv.serve mem request)) := by
  obtain ⟨payloads, hfinished, hstage⟩ := h.stage
  have hsilent : srv.IsNotificationRequest request →
      srv.serve mem request = none ∧
        (s.serveNext request requests none).produced = s.produced ∧
          (s.serveNext request requests none).replies = s.replies := fun hreq =>
    ⟨hreq.serve_eq mem,
      by rw [serveNext_produced, hreq.isNotification, if_pos rfl, List.append_nil],
      List.append_nil s.replies⟩
  cases hstage with
  | idle hcall hqueue hall hreplies hproduced =>
    rw [hrequests] at hall
    obtain ⟨hnone, hprod, hrep⟩ := hsilent (hall request List.mem_cons_self)
    rw [hnone]
    exact ⟨h.alive, serveNext_unanswered h.unanswered fun _ => rfl, payloads, hfinished,
      .idle hcall hqueue (fun m hm => hall m (List.mem_cons_of_mem _ hm)) (hrep ▸ hreplies)
        (hprod.trans hproduced)⟩
  | requested c before request' hcall hqueue hreqs hbefore hrequest hreplies hproduced =>
    rw [hrequests] at hreqs
    cases before with
    | nil =>
      obtain ⟨rfl, rfl⟩ := List.cons.inj hreqs
      obtain ⟨payload, reply, hserve, hreply⟩ := hrequest.serve_eq mem
      have hrpc := hrequest.isNotification (some reply)
      rw [hserve]
      refine ⟨h.alive, serveNext_unanswered h.unanswered (by simp [hrpc]), payloads, hfinished,
        .replied c payload s.replies [] reply hcall hqueue rfl rfl hreplies (by simp) hreply ?_⟩
      rw [serveNext_produced, hrpc, hproduced, Option.map_some, hreply.drop_eq]
      rfl
    | cons first before =>
      obtain ⟨rfl, rfl⟩ := List.cons.inj hreqs
      obtain ⟨hnone, hprod, hrep⟩ := hsilent (hbefore request List.mem_cons_self)
      rw [hnone]
      exact ⟨h.alive, serveNext_unanswered h.unanswered fun _ => rfl, payloads, hfinished,
        .requested c before request' hcall hqueue rfl
          (fun m hm => hbefore m (List.mem_cons_of_mem _ hm)) hrequest (hrep ▸ hreplies)
          (hprod.trans hproduced)⟩
  | replied _ _ _ _ _ _ _ hreqs => cases hrequests.symm.trans hreqs
  | queued _ _ _ _ _ hreqs => cases hrequests.symm.trans hreqs

/-- A notification of the server can come between any two messages. -/
theorem Agreeing.emit {s : System} (h : Agreeing srv s) {msgBytes : List UInt8}
    (hmsg : srv.IsNotification msgBytes) :
    Agreeing srv { s with replies := s.replies ++ [msgBytes] } := by
  obtain ⟨payloads, hfinished, hstage⟩ := h.stage
  have hlast : ∀ {ms : List (List UInt8)}, (∀ m ∈ ms, srv.IsNotification m) →
      ∀ m ∈ ms ++ [msgBytes], srv.IsNotification m := by
    intro ms hms m hm
    rcases List.mem_append.mp hm with hold | hnew
    · exact hms m hold
    · obtain rfl := List.mem_singleton.mp hnew
      exact hmsg
  refine ⟨h.alive, h.unanswered, payloads, hfinished, ?_⟩
  cases hstage with
  | idle hcall hqueue hrequests hreplies hproduced =>
    exact .idle hcall hqueue hrequests (hlast hreplies) hproduced
  | requested c before request hcall hqueue hrequests hbefore hrequest hreplies hproduced =>
    exact .requested c before request hcall hqueue hrequests hbefore hrequest (hlast hreplies)
      hproduced
  | replied c payload before after reply hcall hqueue hrequests hreplies hbefore hafter hreply
      hproduced =>
    refine .replied c payload before (after ++ [msgBytes]) reply hcall hqueue hrequests ?_ hbefore
      (hlast hafter) hreply hproduced
    simp [hreplies]
  | queued c payload d hcall hqueue hrequests hreplies hitem hproduced =>
    exact .queued c payload d hcall hqueue hrequests (hlast hreplies) hitem hproduced

/-- A notification that can be unpacked leaves the client as it was. -/
theorem receive_notification {s : System} {msgBytes : List UInt8} {replies : List (List UInt8)}
    {subscribed : Bool} (hmsg : srv.IsNotification msgBytes)
    (hreplies : s.replies = msgBytes :: replies) (hok : Decodes srv s (.deliver subscribed)) :
    s.client.receive srv.protocol.pyRpcs (.ok msgBytes) subscribed false =
      { s.client with
        listenerAlive := true
        received := s.client.received ++ [.ok msgBytes] } := by
  obtain ⟨msg, reqTypes, hunpack, htxn, hknown, hclass⟩ := hmsg.classify_eq
  have hquiet : dispatchRaises reqTypes msg.payload subscribed false = false := by
    cases subscribed with
    | false => rfl
    | true =>
      have hdecodes := hok msgBytes msg reqTypes (by rw [hreplies, List.head?_cons]) hunpack htxn
        hknown
      simp [dispatchRaises, hdecodes]
  simp only [Client.receive, hclass, hquiet, Bool.not_false]

theorem receive_reply (c : Client) (subscribed : Bool) {txn : ℕ} {payload msgBytes : List UInt8}
    (hmsg : srv.IsReply txn payload msgBytes) :
    ∃ msg, recvItem srv.protocol.pyRpcs txn (.ok msg) = .ok payload ∧
      c.receive srv.protocol.pyRpcs (.ok msgBytes) subscribed false =
        { c.put (.ok msg) with received := c.received ++ [.ok msgBytes] } := by
  obtain ⟨msg, hclass, hitem⟩ := hmsg.classify_eq
  exact ⟨msg, hitem, by simp only [Client.receive, hclass]⟩

theorem Agreeing.deliver {s : System} (h : Agreeing srv s) {msgBytes : List UInt8}
    {replies : List (List UInt8)} {subscribed : Bool} (hrep : s.replies = msgBytes :: replies)
    (hok : Decodes srv s (.deliver subscribed)) :
    Agreeing srv { s with
      client := s.client.receive srv.protocol.pyRpcs (.ok msgBytes) subscribed false
      replies := replies } := by
  obtain ⟨payloads, hfinished, hstage⟩ := h.stage
  cases hstage with
  | idle hcall hqueue hrequests hreplies hproduced =>
    rw [hrep] at hreplies
    rw [receive_notification (hreplies _ List.mem_cons_self) hrep hok]
    exact ⟨rfl, h.unanswered, payloads, hfinished, .idle hcall hqueue hrequests
      (fun m hm => hreplies m (List.mem_cons_of_mem _ hm)) hproduced⟩
  | requested c before request hcall hqueue hrequests hbefore hrequest hreplies hproduced =>
    rw [hrep] at hreplies
    rw [receive_notification (hreplies _ List.mem_cons_self) hrep hok]
    exact ⟨rfl, h.unanswered, payloads, hfinished, .requested c before request hcall hqueue
      hrequests hbefore hrequest (fun m hm => hreplies m (List.mem_cons_of_mem _ hm)) hproduced⟩
  | replied c payload before after reply hcall hqueue hrequests hreplies hbefore hafter hreply
      hproduced =>
    rw [hrep] at hreplies
    cases before with
    | nil =>
      obtain ⟨rfl, rfl⟩ := List.cons.inj hreplies
      obtain ⟨msg, hitem, hreceive⟩ := receive_reply s.client subscribed hreply
      let d : Delivered := ⟨.ok msg, s.client.received.length⟩
      rw [hreceive]
      refine ⟨h.alive, h.unanswered, payloads, hfinished, .queued (c.note d) payload d ?_ ?_
        hrequests hafter hitem hproduced⟩
      · simp [Client.put, hcall, d]
      · simp [Client.put, hqueue, d]
    | cons first before =>
      obtain ⟨rfl, rfl⟩ := List.cons.inj hreplies
      rw [receive_notification (hbefore _ List.mem_cons_self) hrep hok]
      exact ⟨rfl, h.unanswered, payloads, hfinished, .replied c payload before after reply hcall
        hqueue hrequests rfl (fun m hm => hbefore m (List.mem_cons_of_mem _ hm)) hafter hreply
        hproduced⟩
  | queued c payload d hcall hqueue hrequests hreplies hitem hproduced =>
    rw [hrep] at hreplies
    rw [receive_notification (hreplies _ List.mem_cons_self) hrep hok]
    exact ⟨rfl, h.unanswered, payloads, hfinished, .queued c payload d hcall hqueue hrequests
      (fun m hm => hreplies m (List.mem_cons_of_mem _ hm)) hitem hproduced⟩

end System

end CompostRpc
