import CompostRpc.CsEvents

/-!
# What the subscribers of an event receive

For one notification a subscriber is called at most once, in the order of the subscriptions and with
the arguments of the notification, whatever is subscribed, unsubscribed or disposed meanwhile. A
loop that comes to its end has called all that are subscribed then. As long as nothing is disposed
and no handler throws, each notification of an event gets its callback, in the order of arrival.
-/

namespace CompostRpc
open TransitionRun

/-- The changes that a step can make to an event: a list that changes counts it. -/
structure NotificationInfo.Follows (info info' : NotificationInfo) : Prop where
  id : info'.id = info.id
  shape : info'.shape = info.shape
  type : info'.eventHandlerType = info.eventHandlerType
  nodup : info.eventHandlers.Nodup → info'.eventHandlers.Nodup
  version : info.version < info'.version ∨
    info'.version = info.version ∧ info'.eventHandlers = info.eventHandlers

namespace NotificationInfo

theorem Follows.refl (info : NotificationInfo) : info.Follows info :=
  ⟨rfl, rfl, rfl, fun hnodup => hnodup, .inr ⟨rfl, rfl⟩⟩

theorem follows_addNotificationHandler {info info' : NotificationInfo} {handler : EventHandler}
    (h : info.addNotificationHandler handler = some info') : info.Follows info' := by
  rw [addNotificationHandler] at h
  split_ifs at h with hmem htype
  · obtain rfl := Option.some.inj h
    exact .refl info
  · obtain rfl := Option.some.inj h
    refine ⟨rfl, rfl, rfl, fun hnodup => ?_, .inl (Nat.lt_succ_self _)⟩
    have happly := Subscriptions.nodup_apply hnodup (.add handler)
    rwa [Subscriptions.apply, if_neg hmem] at happly

theorem follows_removeNotificationHandler (info : NotificationInfo) (handler : EventHandler) :
    info.Follows (info.removeNotificationHandler handler) := by
  rw [removeNotificationHandler]
  split_ifs with hmem
  · exact ⟨rfl, rfl, rfl, fun hnodup => hnodup.erase handler, .inl (Nat.lt_succ_self _)⟩
  · exact .refl info

end NotificationInfo

structure Follow (infos infos' : List NotificationInfo) : Prop where
  length : infos'.length = infos.length
  follows : ∀ (i : ℕ) (info : NotificationInfo), infos[i]? = some info →
    ∃ info', infos'[i]? = some info' ∧ info.Follows info'

theorem Follow.refl (infos : List NotificationInfo) : Follow infos infos :=
  ⟨rfl, fun _ info h => ⟨info, h, .refl info⟩⟩

theorem follow_set {infos : List NotificationInfo} {event : ℕ} {info info' : NotificationInfo}
    (h : infos[event]? = some info) (hfollows : info.Follows info') :
    Follow infos (infos.set event info') := by
  refine ⟨List.length_set, fun i x hx => ?_⟩
  by_cases hi : event = i
  · subst hi
    obtain rfl := Option.some.inj (h.symm.trans hx)
    refine ⟨info', ?_, hfollows⟩
    rw [List.getElem?_set_self (List.getElem?_eq_some_iff.mp h).1]
  · exact ⟨x, by rw [List.getElem?_set_ne hi, hx], .refl x⟩

theorem Follow.back {infos infos' : List NotificationInfo} (h : Follow infos infos') {i : ℕ}
    {info' : NotificationInfo} (hi : infos'[i]? = some info') :
    ∃ info, infos[i]? = some info ∧ info.Follows info' := by
  have hlt : i < infos.length := h.length ▸ (List.getElem?_eq_some_iff.mp hi).1
  obtain ⟨info'', hi', hfollows⟩ := h.follows i _ (List.getElem?_eq_getElem hlt)
  obtain rfl := Option.some.inj (hi.symm.trans hi')
  exact ⟨_, List.getElem?_eq_getElem hlt, hfollows⟩

structure Subscribed (events : List (UInt16 × List CsType × ℕ)) (infos : List NotificationInfo) :
    Prop where
  length : infos.length = events.length
  event : ∀ (i : ℕ) (info : NotificationInfo), infos[i]? = some info →
    events[i]? = some (info.id, info.shape, info.eventHandlerType)
  nodup : ∀ (i : ℕ) (info : NotificationInfo), infos[i]? = some info → info.eventHandlers.Nodup

theorem Subscribed.follow {events : List (UInt16 × List CsType × ℕ)}
    {infos infos' : List NotificationInfo} (h : Subscribed events infos)
    (hfollow : Follow infos infos') : Subscribed events infos' where
  length := hfollow.length.trans h.length
  event i info' hi := by
    obtain ⟨info, hinfo, hfollows⟩ := hfollow.back hi
    rw [hfollows.id, hfollows.shape, hfollows.type]
    exact h.event i info hinfo
  nodup i info' hi := by
    obtain ⟨info, hinfo, hfollows⟩ := hfollow.back hi
    exact hfollows.nodup (h.nodup i info hinfo)

/-- A delivery calls subscribers in their order, with the arguments of the notification. -/
structure Delivery.Sound (infos : List NotificationInfo) (msg : Message) (d : Delivery) : Prop where
  nodup : d.subscribers.Nodup
  called : d.called <+: d.subscribers
  args : ∃ info, infos[d.event]? = some info ∧ info.id = msg.header.rpcId ∧
    receivedArguments info.shape msg.buffer = .ok d.args

/-- The loop has called those before its place, but for the one it holds. As long as the list has
the version at which the loop began, it is the list with which the loop began. -/
structure Enumeration.Sound (infos : List NotificationInfo) (e : Enumeration) : Prop where
  called : e.delivery.called ++ e.current.toList = e.delivery.subscribers.take e.index
  subscribers : ∃ info, infos[e.delivery.event]? = some info ∧ e.version ≤ info.version ∧
    (info.version = e.version → info.eventHandlers = e.delivery.subscribers)

def EndedDelivery.Sound (d : EndedDelivery) : Prop :=
  ∀ subscribers, d.completed = some subscribers →
    d.delivery.called = subscribers ∧ d.delivery.subscribers = subscribers

namespace Callback

def deliveries (c : Callback) : List Delivery :=
  c.delivered.map (·.delivery) ++ c.enumeration.toList.map (·.delivery)

/-- The events of the deliveries, and then of the handlers that are left, are among those whose
handlers the callback took, which are there once. -/
structure Sound (infos : List NotificationInfo) (c : Callback) : Prop where
  isNotification : c.notification.header.resp = false
  deliveries : ∀ d ∈ c.deliveries, d.Sound infos c.notification
  delivered : ∀ d ∈ c.delivered, d.Sound
  enumeration : ∀ e, c.enumeration = some e → e.Sound infos
  once : (eventsOf c.captured).Nodup
  events : (c.deliveries.map (·.event) ++ eventsOf c.handlers).Sublist (eventsOf c.captured)
  handlers : ∀ event ∈ eventsOf c.handlers,
    ∃ info, infos[event]? = some info ∧ info.id = c.notification.header.rpcId

variable {infos infos' : List NotificationInfo} {c c' : Callback}

theorem Sound.follow (h : c.Sound infos) (hfollow : Follow infos infos') : c.Sound infos' where
  isNotification := h.isNotification
  deliveries d hd := by
    obtain ⟨hnodup, hcalled, info, hinfo, hid, hargs⟩ := h.deliveries d hd
    obtain ⟨info', hinfo', hfollows⟩ := hfollow.follows _ _ hinfo
    exact ⟨hnodup, hcalled, info', hinfo', hfollows.id.trans hid, hfollows.shape ▸ hargs⟩
  delivered := h.delivered
  enumeration e he := by
    obtain ⟨hcalled, info, hinfo, hversion, hsame⟩ := h.enumeration e he
    obtain ⟨info', hinfo', hfollows⟩ := hfollow.follows _ _ hinfo
    refine ⟨hcalled, info', hinfo', ?_, fun heq => ?_⟩
    · rcases hfollows.version with hlt | ⟨heq, -⟩ <;> omega
    · rcases hfollows.version with hlt | ⟨hver, hlist⟩
      · omega
      · exact hlist.trans (hsame (hver ▸ heq))
  once := h.once
  events := h.events
  handlers event hevent := by
    obtain ⟨info, hinfo, hid⟩ := h.handlers event hevent
    obtain ⟨info', hinfo', hfollows⟩ := hfollow.follows _ _ hinfo
    exact ⟨info', hinfo', hfollows.id.trans hid⟩

theorem Sound.deliveries_sublist (h : c.Sound infos) :
    (c.deliveries.map (·.event)).Sublist (eventsOf c.captured) :=
  (List.sublist_append_left _ _).trans h.events

theorem deliveries_fail (c : Callback) : c.fail.deliveries = c.deliveries := by
  rw [deliveries, deliveries, fail]
  simp only [List.map_append, List.map_map, Option.toList_none, List.map_nil, List.append_nil]
  rfl

theorem Sound.fail (h : c.Sound infos) : c.fail.Sound infos where
  isNotification := h.isNotification
  deliveries := by
    rw [deliveries_fail]
    exact h.deliveries
  delivered d hd := by
    rcases List.mem_append.mp hd with hd | hd
    · exact h.delivered d hd
    · obtain ⟨e, -, rfl⟩ := List.mem_map.mp hd
      nofun
  enumeration := nofun
  once := h.once
  events := by
    rw [deliveries_fail]
    change (_ ++ []).Sublist _
    rw [List.append_nil]
    exact h.deliveries_sublist
  handlers := nofun

def NodupSubscribers (infos : List NotificationInfo) : Prop :=
  ∀ (i : ℕ) (info : NotificationInfo), infos[i]? = some info → info.eventHandlers.Nodup

/-- The next handler is `ReceivedHandler` of an event. -/
theorem Sound.receive (h : c.Sound infos) (hnodup : NodupSubscribers infos)
    {rest : List SessionHandler} {event : ℕ} {info : NotificationInfo}
    (henumeration : c.enumeration = none) (hhandlers : c.handlers = .received event :: rest)
    (hinfo : infos[event]? = some info) : (c.receive rest event info).Sound infos := by
  have hevents : eventsOf c.handlers = event :: eventsOf rest := by rw [hhandlers]; rfl
  rw [Callback.receive]
  cases hargs : receivedArguments info.shape c.notification.buffer with
  | error e => exact h.fail
  | ok args =>
    have hbefore : c.deliveries = c.delivered.map (·.delivery) := by
      rw [Callback.deliveries, henumeration]
      exact List.append_nil _
    refine ⟨h.isNotification, ?_, h.delivered, ?_, h.once, ?_, ?_⟩
    · intro d hd
      rcases List.mem_append.mp hd with hd | hd
      · exact h.deliveries d (hbefore ▸ hd)
      · obtain rfl := List.mem_singleton.mp hd
        obtain ⟨info', hinfo', hid⟩ := h.handlers event (hevents ▸ List.mem_cons_self)
        obtain rfl := Option.some.inj (hinfo.symm.trans hinfo')
        exact ⟨hnodup event info hinfo, List.nil_prefix, info, hinfo, hid, hargs⟩
    · rintro e he
      obtain rfl := Option.some.inj he
      exact ⟨rfl, info, hinfo, le_refl _, fun _ => rfl⟩
    · have hsub := h.events
      rw [hbefore, hevents] at hsub
      rw [Callback.deliveries, List.map_append, List.append_assoc]
      exact hsub
    · exact fun e he => h.handlers e (hevents ▸ List.mem_cons_of_mem event he)

theorem Sound.startHandler (h : c.Sound infos) (hnodup : NodupSubscribers infos) {throws : Bool}
    (hstep : c.startHandler infos throws = some c') : c'.Sound infos := by
  rw [Callback.startHandler] at hstep
  split at hstep
  next n rest henumeration hhandlers =>
    obtain rfl := Option.some.inj hstep
    cases throws with
    | true => exact h.fail
    | false =>
      have hevents : eventsOf c.handlers = eventsOf rest := by rw [hhandlers]; rfl
      refine ⟨h.isNotification, h.deliveries, h.delivered, h.enumeration, h.once, ?_, ?_⟩
      · have hsub := h.events
        rwa [hevents] at hsub
      · exact fun e he => h.handlers e (hevents ▸ he)
  next event rest henumeration hhandlers =>
    obtain ⟨info, hinfo, rfl⟩ := Option.map_eq_some_iff.mp hstep
    exact h.receive hnodup henumeration hhandlers hinfo
  next => cases hstep

/-- A step of the loop that leaves what it delivers, up to the handlers called. -/
theorem Sound.loop (h : c.Sound infos) {e e' : Enumeration} (he : c.enumeration = some e)
    (hevent : e'.delivery.event = e.delivery.event)
    (hdelivery : e.delivery.Sound infos c.notification → e'.delivery.Sound infos c.notification)
    (hloop : e.Sound infos → e'.Sound infos) :
    Sound infos { c with enumeration := some e' } := by
  have hmem : e.delivery ∈ c.deliveries := by
    rw [Callback.deliveries, he]
    exact List.mem_append_right _ (List.mem_singleton.mpr rfl)
  refine ⟨h.isNotification, ?_, h.delivered, ?_, h.once, ?_, h.handlers⟩
  · intro d hd
    rcases List.mem_append.mp hd with hd | hd
    · exact h.deliveries d (List.mem_append_left _ hd)
    · obtain rfl := List.mem_singleton.mp hd
      exact hdelivery (h.deliveries _ hmem)
  · intro e'' he''
    obtain rfl := Option.some.inj he''
    exact hloop (h.enumeration e he)
  · have hsub := h.events
    rw [Callback.deliveries, he] at hsub
    rw [Callback.deliveries]
    simpa [hevent] using hsub

theorem Sound.complete (h : c.Sound infos) {e : Enumeration} {info : NotificationInfo}
    (he : c.enumeration = some e) (hcurrent : e.current = none)
    (hinfo : infos[e.delivery.event]? = some info) (hversion : info.version = e.version)
    (hend : info.eventHandlers[e.index]? = none) :
    (c.complete e info.eventHandlers).Sound infos := by
  obtain ⟨hcalled, info', hinfo', -, hsame⟩ := h.enumeration e he
  obtain rfl := Option.some.inj (hinfo.symm.trans hinfo')
  have hsubscribers := hsame hversion
  have hdeliveries : (c.complete e info.eventHandlers).deliveries = c.deliveries := by
    rw [Callback.deliveries, Callback.deliveries, he, Callback.complete]
    simp
  refine ⟨h.isNotification, ?_, ?_, nofun, h.once, ?_, h.handlers⟩
  · rw [hdeliveries]
    exact h.deliveries
  · intro d hd
    rcases List.mem_append.mp hd with hd | hd
    · exact h.delivered d hd
    · obtain rfl := List.mem_singleton.mp hd
      rintro subscribers hsubs
      obtain rfl := Option.some.inj hsubs
      refine ⟨?_, hsubscribers.symm⟩
      rw [hcurrent, Option.toList_none, List.append_nil] at hcalled
      rw [hcalled, ← hsubscribers]
      exact List.take_of_length_le (List.getElem?_eq_none_iff.mp hend)
  · rw [hdeliveries]
    exact h.events

theorem Sound.moveNext (h : c.Sound infos) (hstep : c.moveNext infos = some c') :
    c'.Sound infos := by
  obtain ⟨e, he, hstep⟩ := Option.bind_eq_some_iff.mp hstep
  obtain ⟨info, hinfo, hstep⟩ := Option.bind_eq_some_iff.mp hstep
  split_ifs at hstep with hcurrent hversion
  · obtain rfl := Option.some.inj hstep
    exact h.fail
  · have hnone : e.current = none := by simpa using hcurrent
    have hsame : info.version = e.version := not_not.mp hversion
    cases hnext : info.eventHandlers[e.index]? with
    | none =>
      rw [hnext] at hstep
      obtain rfl := Option.some.inj hstep
      exact h.complete he hnone hinfo hsame hnext
    | some handler =>
      rw [hnext] at hstep
      obtain rfl := Option.some.inj hstep
      refine h.loop he rfl (fun hdelivery => hdelivery) fun hloop => ?_
      obtain ⟨hcalled, info', hinfo', hle, hlist⟩ := hloop
      obtain rfl := Option.some.inj (hinfo.symm.trans hinfo')
      refine ⟨?_, info, hinfo, hle, hlist⟩
      rw [hnone, Option.toList_none, List.append_nil] at hcalled
      change e.delivery.called ++ [handler] = e.delivery.subscribers.take (e.index + 1)
      rw [List.take_add_one, ← hcalled, ← hlist hsame, hnext, Option.toList_some]

theorem Sound.invokeHandler (h : c.Sound infos) {throws : Bool}
    (hstep : c.invokeHandler infos throws = some c') : c'.Sound infos := by
  obtain ⟨e, he, hstep⟩ := Option.bind_eq_some_iff.mp hstep
  obtain ⟨handler, hcurrent, hstep⟩ := Option.bind_eq_some_iff.mp hstep
  obtain ⟨info, hinfo, rfl⟩ := Option.map_eq_some_iff.mp hstep
  have htaken : e.delivery.called ++ [handler] = e.delivery.subscribers.take e.index := by
    have hcalled := (h.enumeration e he).called
    rwa [hcurrent] at hcalled
  have hcall : Sound infos { c with enumeration := some (e.call handler) } := by
    refine h.loop he rfl (fun hdelivery => ?_) fun hloop => ?_
    · refine ⟨hdelivery.nodup, ?_, hdelivery.args⟩
      change e.delivery.called ++ [handler] <+: e.delivery.subscribers
      rw [htaken]
      exact List.take_prefix ..
    · refine ⟨?_, hloop.subscribers⟩
      change (e.delivery.called ++ [handler]) ++ [] = _
      rw [List.append_nil, htaken]
      rfl
  split_ifs
  · exact h.fail
  · exact hcall.fail
  · exact hcall

def postedTo (c : Callback) (event : ℕ) : Option Message :=
  if .received event ∈ c.captured then some c.notification else none

structure SameTask (c c' : Callback) : Prop where
  captured : c'.captured = c.captured
  notification : c'.notification = c.notification

theorem sameTask_startHandler {throws : Bool} (hstep : c.startHandler infos throws = some c') :
    c.SameTask c' := by
  rw [Callback.startHandler] at hstep
  split at hstep
  · obtain rfl := Option.some.inj hstep
    split_ifs
    · exact ⟨rfl, rfl⟩
    · exact ⟨rfl, rfl⟩
  · obtain ⟨info, hinfo, rfl⟩ := Option.map_eq_some_iff.mp hstep
    rw [Callback.receive]
    cases receivedArguments info.shape c.notification.buffer with
    | error e => exact ⟨rfl, rfl⟩
    | ok args => exact ⟨rfl, rfl⟩
  · cases hstep

theorem sameTask_moveNext (hstep : c.moveNext infos = some c') : c.SameTask c' := by
  obtain ⟨e, he, hstep⟩ := Option.bind_eq_some_iff.mp hstep
  obtain ⟨info, hinfo, hstep⟩ := Option.bind_eq_some_iff.mp hstep
  split_ifs at hstep
  · obtain rfl := Option.some.inj hstep
    exact ⟨rfl, rfl⟩
  · cases hnext : info.eventHandlers[e.index]? with
    | none =>
      rw [hnext] at hstep
      obtain rfl := Option.some.inj hstep
      exact ⟨rfl, rfl⟩
    | some handler =>
      rw [hnext] at hstep
      obtain rfl := Option.some.inj hstep
      exact ⟨rfl, rfl⟩

theorem sameTask_invokeHandler {throws : Bool} (hstep : c.invokeHandler infos throws = some c') :
    c.SameTask c' := by
  obtain ⟨e, he, hstep⟩ := Option.bind_eq_some_iff.mp hstep
  obtain ⟨handler, hcurrent, hstep⟩ := Option.bind_eq_some_iff.mp hstep
  obtain ⟨info, hinfo, rfl⟩ := Option.map_eq_some_iff.mp hstep
  split_ifs
  · exact ⟨rfl, rfl⟩
  · exact ⟨rfl, rfl⟩
  · exact ⟨rfl, rfl⟩

theorem filterMap_set {α β : Type*} {f : α → Option β} {xs : List α} {k : ℕ} {x y : α}
    (h : xs[k]? = some x) (hf : f y = f x) : (xs.set k y).filterMap f = xs.filterMap f := by
  induction xs generalizing k with
  | nil => rfl
  | cons z zs ih =>
    cases k with
    | zero =>
      obtain rfl := Option.some.inj h
      rw [List.set_cons_zero, List.filterMap_cons, List.filterMap_cons, hf]
    | succ k => rw [List.set_cons_succ, List.filterMap_cons, List.filterMap_cons, ih h]

end Callback

namespace CsEvents

/-- The session knows the events that are registered, each once and under its message type. -/
structure Registered (s : CsEvents) : Prop where
  phase : s.unregistered = 0 ∨ s.registered = s.notificationInfoCache.length
  nodup : ∀ rpcId, (eventsOf (s.notifDict.handlers rpcId)).Nodup
  mem : ∀ rpcId event, event ∈ eventsOf (s.notifDict.handlers rpcId) ↔
    s.unregistered ≤ event ∧ event < s.registered ∧
      ∃ info, s.notificationInfoCache[event]? = some info ∧ info.id = rpcId

theorem Registered.same {s s' : CsEvents} (h : s.Registered)
    (hdict : ∀ rpcId, eventsOf (s'.notifDict.handlers rpcId) =
      eventsOf (s.notifDict.handlers rpcId))
    (hinfos : Follow s.notificationInfoCache s'.notificationInfoCache)
    (hregistered : s'.registered = s.registered)
    (hunregistered : s'.unregistered = s.unregistered) : s'.Registered := by
  refine ⟨?_, fun rpcId => hdict rpcId ▸ h.nodup rpcId, fun rpcId event => ?_⟩
  · rw [hunregistered, hregistered, hinfos.length]
    exact h.phase
  · have hid : (∃ info, s'.notificationInfoCache[event]? = some info ∧ info.id = rpcId) ↔
        ∃ info, s.notificationInfoCache[event]? = some info ∧ info.id = rpcId := by
      constructor
      · rintro ⟨info', hinfo', hid⟩
        obtain ⟨info, hinfo, hfollows⟩ := hinfos.back hinfo'
        exact ⟨info, hinfo, hfollows.id.symm.trans hid⟩
      · rintro ⟨info, hinfo, hid⟩
        obtain ⟨info', hinfo', hfollows⟩ := hinfos.follows _ _ hinfo
        exact ⟨info', hinfo', hfollows.id.trans hid⟩
    rw [hdict, hid, hregistered, hunregistered]
    exact h.mem rpcId event

theorem Registered.register {s : CsEvents} (h : s.Registered) {info : NotificationInfo}
    (hinfo : s.notificationInfoCache[s.registered]? = some info) :
    (s.register info).Registered := by
  have hlt := (List.getElem?_eq_some_iff.mp hinfo).1
  have hstart : s.unregistered = 0 := h.phase.resolve_right (by omega)
  have hnew : ∀ rpcId, s.registered ∉ eventsOf (s.notifDict.handlers rpcId) :=
    fun rpcId hmem => Nat.lt_irrefl _ ((h.mem rpcId s.registered).mp hmem).2.1
  have hevents := NotifDict.eventsOf_addReceived (hnew info.id)
  refine ⟨.inl hstart, fun rpcId => ?_, fun rpcId event => ?_⟩
  · change (eventsOf ((s.notifDict.addNotificationHandler info.id
      [.received s.registered]).handlers rpcId)).Nodup
    rw [hevents]
    split_ifs
    · refine List.nodup_append.mpr ⟨h.nodup rpcId, List.nodup_singleton _, ?_⟩
      rintro a ha b hb rfl
      exact hnew rpcId (List.mem_singleton.mp hb ▸ ha)
    · rw [List.append_nil]
      exact h.nodup rpcId
  · change event ∈ eventsOf ((s.notifDict.addNotificationHandler info.id
      [.received s.registered]).handlers rpcId) ↔ s.unregistered ≤ event ∧
        event < s.registered + 1 ∧
          ∃ info, s.notificationInfoCache[event]? = some info ∧ info.id = rpcId
    rw [hevents, List.mem_append, h.mem]
    by_cases hevent : event = s.registered
    · subst hevent
      rw [hinfo]
      by_cases hid : rpcId = info.id
      · simp [hid, hstart]
      · simp [hid, Ne.symm hid]
    · have hrest : event ∉ (if rpcId = info.id then [s.registered] else []) := by
        split_ifs
        · simpa using hevent
        · exact List.not_mem_nil
      have hbound : event < s.registered + 1 ↔ event < s.registered := by omega
      rw [or_iff_left hrest, hbound]

theorem Registered.unregister {s : CsEvents} (h : s.Registered) (husable : s.isUsable = true)
    {info : NotificationInfo} (hinfo : s.notificationInfoCache[s.unregistered]? = some info) :
    (s.unregister info).Registered := by
  have hall : s.registered = s.notificationInfoCache.length := by
    rw [isUsable, Bool.and_eq_true, decide_eq_true_eq] at husable
    exact husable.1
  have hevents := @NotifDict.eventsOf_removeReceived _ _ s.unregistered (h.nodup info.id)
  refine ⟨.inr hall, fun rpcId => ?_, fun rpcId event => ?_⟩
  · change (eventsOf ((s.notifDict.removeNotificationHandler info.id
      [.received s.unregistered]).handlers rpcId)).Nodup
    rw [hevents]
    split_ifs
    · exact (h.nodup rpcId).erase _
    · exact h.nodup rpcId
  · change event ∈ eventsOf ((s.notifDict.removeNotificationHandler info.id
      [.received s.unregistered]).handlers rpcId) ↔ s.unregistered + 1 ≤ event ∧
        event < s.registered ∧
          ∃ info, s.notificationInfoCache[event]? = some info ∧ info.id = rpcId
    rw [hevents]
    by_cases hevent : event = s.unregistered
    · subst hevent
      refine iff_of_false ?_ fun hand => Nat.not_succ_le_self _ hand.1
      split_ifs with hid
      · exact (h.nodup rpcId).not_mem_erase
      · rw [h.mem]
        rintro ⟨-, -, info', hinfo', hid'⟩
        obtain rfl := Option.some.inj (hinfo.symm.trans hinfo')
        exact hid hid'.symm
    · have hbound : s.unregistered + 1 ≤ event ↔ s.unregistered ≤ event := by omega
      rw [hbound, ← h.mem]
      split_ifs
      · exact List.mem_erase_of_ne hevent
      · exact Iff.rfl

structure Delivers (events : List (UInt16 × List CsType × ℕ)) (s : CsEvents) : Prop where
  subscribed : Subscribed events s.notificationInfoCache
  registered : s.Registered
  checked : ∀ msg, s.readTask = .checked msg → msg.header.resp = false
  callbacks : ∀ c ∈ s.callbacks, c.Sound s.notificationInfoCache

variable {events : List (UInt16 × List CsType × ℕ)}

theorem delivers_init (events : List (UInt16 × List CsType × ℕ)) :
    Delivers events (init events) := by
  refine ⟨⟨List.length_map _, fun i info hinfo => ?_, fun i info hinfo => ?_⟩,
    ⟨.inl rfl, fun _ => List.nodup_nil, fun rpcId event => ?_⟩, nofun, nofun⟩
  · rw [init, List.getElem?_map] at hinfo
    obtain ⟨ev, hev, rfl⟩ := Option.map_eq_some_iff.mp hinfo
    exact hev
  · rw [init, List.getElem?_map] at hinfo
    obtain ⟨ev, -, rfl⟩ := Option.map_eq_some_iff.mp hinfo
    exact List.nodup_nil
  · exact iff_of_false List.not_mem_nil fun hand => Nat.not_lt_zero _ hand.2.1

/-- A step that changes the events only as subscriptions do, and no callback. -/
theorem Delivers.infos {s s' : CsEvents} (h : s.Delivers events)
    (hfollow : Follow s.notificationInfoCache s'.notificationInfoCache)
    (hregistered : s'.Registered) (htask : s'.readTask = s.readTask)
    (hcallbacks : s'.callbacks = s.callbacks) : s'.Delivers events where
  subscribed := h.subscribed.follow hfollow
  registered := hregistered
  checked := htask ▸ h.checked
  callbacks c hc := (h.callbacks c (hcallbacks ▸ hc)).follow hfollow

theorem Delivers.setInfo {s : CsEvents} (h : s.Delivers events) {event : ℕ}
    {info info' : NotificationInfo} (hinfo : s.notificationInfoCache[event]? = some info)
    (hfollows : info.Follows info') : (s.setInfo event info').Delivers events :=
  have hfollow := follow_set hinfo hfollows
  h.infos hfollow (h.registered.same (fun _ => rfl) hfollow rfl rfl) rfl rfl

/-- The callback takes what the dictionary has for the message. -/
theorem Delivers.tryInvoke {s : CsEvents} (h : s.Delivers events) {msg : Message}
    (hmsg : s.readTask = .checked msg) (throws : Bool) :
    (s.tryInvoke msg throws).Delivers events := by
  have hsame : ∀ task, (∀ msg, task ≠ .checked msg) →
      Delivers events { s with readTask := task } := fun task htask =>
    ⟨h.subscribed, ⟨h.registered.phase, h.registered.nodup, h.registered.mem⟩,
      fun msg heq => absurd heq (htask msg), h.callbacks⟩
  rw [CsEvents.tryInvoke]
  cases hdict : s.notifDict msg.header.rpcId with
  | none => exact hsame .reading (by simp)
  | some handlers =>
    have hhandlers : s.notifDict.handlers msg.header.rpcId = handlers := by
      rw [NotifDict.handlers, hdict, Option.getD_some]
    cases throws with
    | true => exact hsame .faulted (by simp)
    | false =>
      refine ⟨h.subscribed, ⟨h.registered.phase, h.registered.nodup, h.registered.mem⟩,
        by simp, fun c hc => ?_⟩
      rcases List.mem_append.mp hc with hc | hc
      · exact h.callbacks c hc
      · obtain rfl := List.mem_singleton.mp hc
        refine ⟨h.checked msg hmsg, by simp [Callback.deliveries], by simp, by simp, ?_, .refl _,
          fun event hevent => ?_⟩
        · exact hhandlers ▸ h.registered.nodup msg.header.rpcId
        · exact ((h.registered.mem _ event).mp (hhandlers ▸ hevent)).2.2

theorem Delivers.inCallback {s s' : CsEvents} (h : s.Delivers events) {k : ℕ}
    {f : Callback → Option Callback}
    (hf : ∀ c c', c.Sound s.notificationInfoCache → f c = some c' →
      c'.Sound s.notificationInfoCache)
    (hstep : s.inCallback k f = some s') : s'.Delivers events := by
  obtain ⟨c, hc, hstep⟩ := Option.bind_eq_some_iff.mp hstep
  obtain ⟨c', hc', rfl⟩ := Option.map_eq_some_iff.mp hstep
  refine ⟨h.subscribed, ⟨h.registered.phase, h.registered.nodup, h.registered.mem⟩, h.checked,
    fun x hx => ?_⟩
  rcases List.mem_or_eq_of_mem_set hx with hx | rfl
  · exact h.callbacks x hx
  · exact hf c x (h.callbacks c (List.mem_of_getElem? hc)) hc'

theorem Delivers.step {s s' : CsEvents} (h : s.Delivers events) {e : CsNotificationEvent}
    (hstep : s.step e = some s') : s'.Delivers events := by
  have hnodup : Callback.NodupSubscribers s.notificationInfoCache := h.subscribed.nodup
  cases e with
  | register =>
    obtain ⟨info, hinfo, rfl⟩ := Option.map_eq_some_iff.mp hstep
    exact h.infos (.refl _) (h.registered.register hinfo) rfl rfl
  | subscribe event handler =>
    obtain ⟨-, hstep⟩ := Option.ite_none_right_eq_some.mp hstep
    obtain ⟨info, hinfo, rfl⟩ := Option.map_eq_some_iff.mp hstep
    cases hadd : info.addNotificationHandler handler with
    | none => exact h
    | some info' => exact h.setInfo hinfo (NotificationInfo.follows_addNotificationHandler hadd)
  | unsubscribe event handler =>
    obtain ⟨-, hstep⟩ := Option.ite_none_right_eq_some.mp hstep
    obtain ⟨info, hinfo, rfl⟩ := Option.map_eq_some_iff.mp hstep
    exact h.setInfo hinfo (info.follows_removeNotificationHandler handler)
  | addSessionHandler rpcId handler =>
    obtain ⟨-, hstep⟩ := Option.ite_none_left_eq_some.mp hstep
    obtain rfl := Option.some.inj hstep
    refine h.infos (.refl _) (h.registered.same ?_ (.refl _) rfl rfl) rfl rfl
    exact NotifDict.eventsOf_addOther s.notifDict rpcId handler
  | removeSessionHandler rpcId handler =>
    obtain rfl := Option.some.inj hstep
    refine h.infos (.refl _) (h.registered.same ?_ (.refl _) rfl rfl) rfl rfl
    exact NotifDict.eventsOf_removeOther s.notifDict rpcId handler
  | readMessage msg =>
    simp only [CsEvents.step] at hstep
    cases htask : s.readTask with
    | checked msg' | faulted => simp only [htask, reduceCtorEq] at hstep
    | reading =>
      simp only [htask] at hstep
      split_ifs at hstep with hnotification
      · obtain rfl := Option.some.inj hstep
        refine ⟨h.subscribed, ⟨h.registered.phase, h.registered.nodup, h.registered.mem⟩,
          fun msg' heq => ?_, h.callbacks⟩
        obtain rfl := ReadMessagesTask.checked.inj heq
        simpa using (Bool.and_eq_true_iff.mp hnotification).2
      · obtain rfl := Option.some.inj hstep
        exact h
  | tryInvoke throws =>
    simp only [CsEvents.step] at hstep
    cases htask : s.readTask with
    | reading | faulted => simp only [htask, reduceCtorEq] at hstep
    | checked msg =>
      simp only [htask] at hstep
      obtain rfl := Option.some.inj hstep
      exact h.tryInvoke htask throws
  | startHandler k throws =>
    exact h.inCallback (fun c c' hc hstep => hc.startHandler hnodup hstep) hstep
  | moveNext k => exact h.inCallback (fun c c' hc hstep => hc.moveNext hstep) hstep
  | invokeHandler k throws =>
    exact h.inCallback (fun c c' hc hstep => hc.invokeHandler hstep) hstep
  | unregister =>
    obtain ⟨husable, hstep⟩ := Option.ite_none_right_eq_some.mp hstep
    obtain ⟨info, hinfo, rfl⟩ := Option.map_eq_some_iff.mp hstep
    exact h.infos (.refl _) (h.registered.unregister husable hinfo) rfl rfl
  | clear =>
    obtain ⟨-, hstep⟩ := Option.ite_none_right_eq_some.mp hstep
    obtain rfl := Option.some.inj hstep
    exact h.infos (.refl _) ⟨h.registered.phase, h.registered.nodup, h.registered.mem⟩ rfl rfl

theorem delivers_of_run {s s' : CsEvents} {es : List CsNotificationEvent} (h : s.Delivers events)
    (hrun : run CsEvents.step s es = some s') : s'.Delivers events :=
  run_invariant (fun _ _ _ hinv hstep => hinv.step hstep) h hrun

/-- A callback is for a notification, delivers it to an event of its message type at most once, and
calls each subscriber at most once, in the order of the subscriptions and with the arguments of the
notification. A delivery that comes to its end has called all that are subscribed then. -/
theorem delivered_once_in_order {es : List CsNotificationEvent} {s : CsEvents}
    (hrun : run CsEvents.step (init events) es = some s) {c : Callback} (hc : c ∈ s.callbacks) :
    c.notification.header.resp = false ∧ (c.deliveries.map (·.event)).Nodup ∧
      (∀ d ∈ c.deliveries, d.called.Nodup ∧ d.called <+: d.subscribers ∧
        ∃ ev, events[d.event]? = some ev ∧ ev.1 = c.notification.header.rpcId ∧
          receivedArguments ev.2.1 c.notification.buffer = .ok d.args) ∧
      ∀ d ∈ c.delivered, ∀ subscribers, d.completed = some subscribers →
        d.delivery.called = subscribers := by
  have h := delivers_of_run (delivers_init events) hrun
  have hsound := h.callbacks c hc
  refine ⟨hsound.isNotification, hsound.once.sublist hsound.deliveries_sublist, fun d hd => ?_,
    fun d hd subscribers hsubscribers => (hsound.delivered d hd subscribers hsubscribers).1⟩
  obtain ⟨hnodup, hcalled, info, hinfo, hid, hargs⟩ := hsound.deliveries d hd
  exact ⟨hnodup.sublist hcalled.sublist, hcalled, _, h.subscribed.event _ _ hinfo, hid, hargs⟩

def tickEvents : List (UInt16 × List CsType × ℕ) := [(9, [.num .u16], 0)]

def tickMessage : Message := ⟨⟨.fromWords 1, 0, 9, false⟩, [1, 0, 0, 9, 1, 44, 0, 0]⟩

def deliveredTick : List CsNotificationEvent :=
  [.register, .subscribe 0 ⟨0, 1⟩, .subscribe 0 ⟨0, 2⟩, .readMessage tickMessage, .tryInvoke false,
    .startHandler 0 false, .moveNext 0, .invokeHandler 0 false, .moveNext 0,
    .invokeHandler 0 false, .moveNext 0]

theorem delivered_once_in_order_deliveredTick :
    ∃ s c d, run CsEvents.step (init tickEvents) deliveredTick = some s ∧ c ∈ s.callbacks ∧
      d ∈ c.delivered ∧ d.completed = some [⟨0, 1⟩, ⟨0, 2⟩] ∧
        d.delivery.called = [⟨0, 1⟩, ⟨0, 2⟩] := by
  have hresult : ((run CsEvents.step (init tickEvents) deliveredTick).bind fun s =>
      s.callbacks.head?.bind fun c => c.delivered.head?.bind fun d => d.completed) =
        some [⟨0, 1⟩, ⟨0, 2⟩] := by decide +kernel
  obtain ⟨s, hrun, hcallback⟩ := Option.bind_eq_some_iff.mp hresult
  obtain ⟨c, hc, hdelivery⟩ := Option.bind_eq_some_iff.mp hcallback
  obtain ⟨d, hd, hcompleted⟩ := Option.bind_eq_some_iff.mp hdelivery
  have hmem := List.mem_of_head? hc
  have hsound := (delivered_once_in_order hrun hmem).2.2.2 d (List.mem_of_head? hd)
  exact ⟨s, c, d, hrun, hmem, List.mem_of_head? hd, hcompleted, hsound _ hcompleted⟩

def posted (s : CsEvents) (event : ℕ) : List Message := s.callbacks.filterMap (·.postedTo event)

def incoming : CsNotificationEvent → List Message
  | .readMessage msg => [msg]
  | _ => []

def isNotification (rpcId : UInt16) (msg : Message) : Bool :=
  msg.header.rpcId = rpcId && !msg.header.resp

/-- The notifications that have no callback yet: the one that the read task has checked, or the one
at which it faulted. -/
inductive Pending (rpcId : UInt16) : ReadMessagesTask → List Message → Prop
  | reading : Pending rpcId .reading []
  | checked (msg : Message) : Pending rpcId (.checked msg) ([msg].filter (isNotification rpcId))
  | faulted {lost : List Message} (h : lost.length ≤ 1) : Pending rpcId .faulted lost

theorem Pending.length_le {rpcId : UInt16} {task : ReadMessagesTask} {rest : List Message}
    (h : Pending rpcId task rest) : rest.length ≤ 1 := by
  cases h with
  | reading => exact Nat.zero_le 1
  | checked msg => exact List.length_filter_le _ [msg]
  | faulted hlost => exact hlost

/-- As long as the event is registered, its notifications have callbacks up to the pending one. -/
structure Posts (event : ℕ) (rpcId : UInt16) (before msgs : List Message) (s : CsEvents) :
    Prop where
  registered : event < s.registered
  posted : event < s.unregistered ∨ ∃ rest, Pending rpcId s.readTask rest ∧
    before ++ msgs.filter (isNotification rpcId) = s.posted event ++ rest

/-- The session has the event under its message type, until it is removed. -/
def Knows (event : ℕ) (rpcId : UInt16) (s : CsEvents) : Prop :=
  ¬ event < s.unregistered →
    ∀ i, SessionHandler.received event ∈ s.notifDict.handlers i ↔ i = rpcId

theorem Delivers.knows {s : CsEvents} (h : s.Delivers events) {event : ℕ}
    {ev : UInt16 × List CsType × ℕ} (hev : events[event]? = some ev)
    (hregistered : event < s.registered) : Knows event ev.1 s := by
  intro hleft i
  rw [← mem_eventsOf, h.registered.mem]
  constructor
  · rintro ⟨-, -, info, hinfo, rfl⟩
    obtain rfl := Option.some.inj (hev.symm.trans (h.subscribed.event event info hinfo))
    rfl
  · rintro rfl
    have hlt : event < s.notificationInfoCache.length :=
      h.subscribed.length ▸ (List.getElem?_eq_some_iff.mp hev).1
    refine ⟨by omega, hregistered, _, List.getElem?_eq_getElem hlt, ?_⟩
    have hsame := h.subscribed.event event _ (List.getElem?_eq_getElem hlt)
    rw [Option.some.inj (hev.symm.trans hsame)]

theorem Posts.same {event : ℕ} {rpcId : UInt16} {before msgs : List Message} {s s' : CsEvents}
    (h : Posts event rpcId before msgs s) (hregistered : s.registered ≤ s'.registered)
    (hunregistered : s.unregistered ≤ s'.unregistered) (htask : s'.readTask = s.readTask)
    (hposted : s'.posted event = s.posted event) : Posts event rpcId before (msgs ++ []) s' := by
  refine ⟨h.registered.trans_le hregistered, ?_⟩
  rw [List.append_nil]
  rcases h.posted with hlt | ⟨rest, hpending, heq⟩
  · exact .inl (hlt.trans_le hunregistered)
  · exact .inr ⟨rest, htask ▸ hpending, hposted ▸ heq⟩

theorem posted_inCallback {s s' : CsEvents} {k : ℕ} {f : Callback → Option Callback}
    (hf : ∀ c c', f c = some c' → c.SameTask c')
    (hstep : s.inCallback k f = some s') (event : ℕ) :
    s'.posted event = s.posted event ∧ s'.readTask = s.readTask ∧
      s'.registered = s.registered ∧ s'.unregistered = s.unregistered := by
  obtain ⟨c, hc, hstep⟩ := Option.bind_eq_some_iff.mp hstep
  obtain ⟨c', hc', rfl⟩ := Option.map_eq_some_iff.mp hstep
  obtain ⟨hcaptured, hnotification⟩ := hf c c' hc'
  refine ⟨Callback.filterMap_set hc ?_, rfl, rfl, rfl⟩
  rw [Callback.postedTo, Callback.postedTo, hcaptured, hnotification]

theorem Posts.inCallback {event : ℕ} {rpcId : UInt16} {before msgs : List Message}
    {s s' : CsEvents} (h : Posts event rpcId before msgs s) {k : ℕ}
    {f : Callback → Option Callback} (hf : ∀ c c', f c = some c' → c.SameTask c')
    (hstep : s.inCallback k f = some s') : Posts event rpcId before (msgs ++ []) s' := by
  obtain ⟨hposted, htask, hregistered, hunregistered⟩ := posted_inCallback hf hstep event
  exact h.same (le_of_eq hregistered.symm) (le_of_eq hunregistered.symm) htask hposted

/-- A notification of a known event passes the first lookup. -/
theorem Knows.checkNotificationExists {event : ℕ} {rpcId : UInt16} {s : CsEvents}
    (hknows : Knows event rpcId s) (hleft : ¬ event < s.unregistered) {msg : Message}
    (hmsg : isNotification rpcId msg = true) :
    (s.notifDict.checkNotificationExists msg.header.rpcId && !msg.header.resp) = true := by
  rw [isNotification, Bool.and_eq_true, decide_eq_true_eq] at hmsg
  have hmem := (hknows hleft msg.header.rpcId).mpr hmsg.1
  rw [hmsg.2, Bool.and_true, NotifDict.checkNotificationExists, Option.isSome_iff_ne_none]
  intro hnone
  rw [NotifDict.handlers, hnone] at hmem
  cases hmem

theorem Posts.readMessage {event : ℕ} {rpcId : UInt16} {before msgs : List Message}
    {s s' : CsEvents} (h : Posts event rpcId before msgs s) (hknows : Knows event rpcId s)
    {msg : Message} (hstep : s.step (.readMessage msg) = some s') :
    Posts event rpcId before (msgs ++ [msg]) s' := by
  simp only [CsEvents.step] at hstep
  cases htask : s.readTask with
  | checked msg' | faulted => simp only [htask, reduceCtorEq] at hstep
  | reading =>
    simp only [htask] at hstep
    by_cases hleft : event < s.unregistered
    · split_ifs at hstep
      · obtain rfl := Option.some.inj hstep
        exact ⟨h.registered, .inl hleft⟩
      · obtain rfl := Option.some.inj hstep
        exact ⟨h.registered, .inl hleft⟩
    · obtain ⟨rest, hpending, heq⟩ := h.posted.resolve_left hleft
      rw [htask] at hpending
      cases hpending
      rw [List.append_nil] at heq
      split_ifs at hstep with hnotification
      · obtain rfl := Option.some.inj hstep
        refine ⟨h.registered, .inr ⟨_, .checked msg, ?_⟩⟩
        rw [List.filter_append, ← List.append_assoc, heq]
        rfl
      · obtain rfl := Option.some.inj hstep
        have hother : [msg].filter (isNotification rpcId) = [] := by
          refine List.filter_eq_nil_iff.mpr fun m hm hmsg => hnotification ?_
          obtain rfl := List.mem_singleton.mp hm
          exact hknows.checkNotificationExists hleft hmsg
        refine ⟨h.registered, .inr ⟨[], htask ▸ .reading, ?_⟩⟩
        rw [List.filter_append, hother, List.append_nil, heq, List.append_nil]

/-- The second lookup finds the event as long as it is registered. -/
theorem Posts.tryInvoke {event : ℕ} {rpcId : UInt16} {before msgs : List Message}
    {s : CsEvents} (h : Posts event rpcId before msgs s) (hknows : Knows event rpcId s)
    {msg : Message} (hmsg : s.readTask = .checked msg) (hresp : msg.header.resp = false)
    (throws : Bool) : Posts event rpcId before (msgs ++ []) (s.tryInvoke msg throws) := by
  rw [List.append_nil]
  have hmem : ¬ event < s.unregistered →
      (.received event ∈ s.notifDict.handlers msg.header.rpcId ↔ msg.header.rpcId = rpcId) :=
    fun hleft => hknows hleft msg.header.rpcId
  have hfilter : [msg].filter (isNotification rpcId) =
      if msg.header.rpcId = rpcId then [msg] else [] := by
    rw [List.filter_singleton, isNotification, hresp, Bool.not_false, Bool.and_true]
    by_cases hid : msg.header.rpcId = rpcId
    · simp [hid]
    · simp [hid]
  have hposted := h.posted
  rw [hmsg] at hposted
  rw [NotifDict.handlers] at hmem
  rw [CsEvents.tryInvoke]
  cases hdict : s.notifDict msg.header.rpcId with
  | none =>
    rw [hdict, Option.getD_none] at hmem
    refine ⟨h.registered, ?_⟩
    by_cases hleft : event < s.unregistered
    · exact .inl hleft
    · obtain ⟨rest, hpending, heq⟩ := hposted.resolve_left hleft
      cases hpending
      rw [hfilter, if_neg fun hid => List.not_mem_nil ((hmem hleft).mpr hid)] at heq
      exact .inr ⟨[], .reading, heq⟩
  | some handlers =>
    rw [hdict, Option.getD_some] at hmem
    cases throws with
    | true =>
      refine ⟨h.registered, hposted.imp_right ?_⟩
      rintro ⟨rest, hpending, heq⟩
      cases hpending
      exact ⟨_, .faulted (Pending.checked msg).length_le, heq⟩
    | false =>
      refine ⟨h.registered, ?_⟩
      by_cases hleft : event < s.unregistered
      · exact .inl hleft
      · obtain ⟨rest, hpending, heq⟩ := hposted.resolve_left hleft
        cases hpending
        refine .inr ⟨[], .reading, ?_⟩
        rw [heq, hfilter, List.append_nil]
        change _ = (s.callbacks ++ [_]).filterMap _
        rw [List.filterMap_append]
        congr 1
        simp only [List.filterMap_cons, List.filterMap_nil, Callback.postedTo, hmem hleft]
        split_ifs
        · rfl
        · rfl

theorem Posts.step {event : ℕ} {rpcId : UInt16} {before msgs : List Message} {s s' : CsEvents}
    (h : Posts event rpcId before msgs s) (hknows : Knows event rpcId s)
    (hchecked : ∀ msg, s.readTask = .checked msg → msg.header.resp = false)
    (e : CsNotificationEvent) (hstep : s.step e = some s') :
    Posts event rpcId before (msgs ++ incoming e) s' := by
  cases e with
  | register =>
    obtain ⟨info, hinfo, rfl⟩ := Option.map_eq_some_iff.mp hstep
    exact h.same (Nat.le_succ _) (le_refl _) rfl rfl
  | subscribe event' handler =>
    obtain ⟨-, hstep⟩ := Option.ite_none_right_eq_some.mp hstep
    obtain ⟨info, hinfo, rfl⟩ := Option.map_eq_some_iff.mp hstep
    cases info.addNotificationHandler handler with
    | none => exact h.same (le_refl _) (le_refl _) rfl rfl
    | some info' => exact h.same (le_refl _) (le_refl _) rfl rfl
  | unsubscribe event' handler =>
    obtain ⟨-, hstep⟩ := Option.ite_none_right_eq_some.mp hstep
    obtain ⟨info, hinfo, rfl⟩ := Option.map_eq_some_iff.mp hstep
    exact h.same (le_refl _) (le_refl _) rfl rfl
  | addSessionHandler rpcId handler =>
    obtain ⟨-, hstep⟩ := Option.ite_none_left_eq_some.mp hstep
    obtain rfl := Option.some.inj hstep
    exact h.same (le_refl _) (le_refl _) rfl rfl
  | removeSessionHandler rpcId handler =>
    obtain rfl := Option.some.inj hstep
    exact h.same (le_refl _) (le_refl _) rfl rfl
  | readMessage msg => exact h.readMessage hknows hstep
  | tryInvoke throws =>
    simp only [CsEvents.step] at hstep
    cases htask : s.readTask with
    | reading | faulted => simp only [htask, reduceCtorEq] at hstep
    | checked msg =>
      simp only [htask] at hstep
      obtain rfl := Option.some.inj hstep
      exact h.tryInvoke hknows htask (hchecked msg htask) throws
  | startHandler k throws =>
    exact h.inCallback (fun _ _ hstep => Callback.sameTask_startHandler hstep) hstep
  | moveNext k => exact h.inCallback (fun _ _ hstep => Callback.sameTask_moveNext hstep) hstep
  | invokeHandler k throws =>
    exact h.inCallback (fun _ _ hstep => Callback.sameTask_invokeHandler hstep) hstep
  | unregister =>
    obtain ⟨-, hstep⟩ := Option.ite_none_right_eq_some.mp hstep
    obtain ⟨info, hinfo, rfl⟩ := Option.map_eq_some_iff.mp hstep
    exact h.same (le_refl _) (Nat.le_succ _) rfl rfl
  | clear =>
    obtain ⟨-, hstep⟩ := Option.ite_none_right_eq_some.mp hstep
    obtain rfl := Option.some.inj hstep
    exact h.same (le_refl _) (le_refl _) rfl rfl

theorem posts_of_run {es₀ es : List CsNotificationEvent} {s₀ s : CsEvents} {event : ℕ}
    {ev : UInt16 × List CsType × ℕ} (hrun₀ : run CsEvents.step (init events) es₀ = some s₀)
    (hev : events[event]? = some ev) (hregistered : event < s₀.registered)
    (hreading : s₀.readTask = .reading) (hrun : run CsEvents.step s₀ es = some s) :
    Posts event ev.1 (s₀.posted event) (es.flatMap incoming) s := by
  have hstart : Posts event ev.1 (s₀.posted event) [] s₀ :=
    ⟨hregistered, .inr ⟨[], hreading ▸ .reading, rfl⟩⟩
  have hstep : ∀ msgs m e m', m.Delivers events ∧ Posts event ev.1 (s₀.posted event) msgs m →
      m.step e = some m' →
        m'.Delivers events ∧ Posts event ev.1 (s₀.posted event) (msgs ++ incoming e) m' :=
    fun msgs m e m' h hm => ⟨h.1.step hm,
      h.2.step (h.1.knows hev h.2.registered) h.1.checked e hm⟩
  exact (run_invariant_record hstep ⟨delivers_of_run (delivers_init events) hrun₀, hstart⟩ hrun).2

/-- From a state in which an event is registered and nothing is pending, and as long as the disposal
has not removed the event, each of its notifications gets a callback for it, once and in the order
of arrival. At the end one notification at most is without a callback, and none if the read task
reads on. -/
theorem posted_in_order {es₀ es : List CsNotificationEvent} {s₀ s : CsEvents} {event : ℕ}
    {ev : UInt16 × List CsType × ℕ} (hrun₀ : run CsEvents.step (init events) es₀ = some s₀)
    (hev : events[event]? = some ev) (hregistered : event < s₀.registered)
    (hreading : s₀.readTask = .reading) (hrun : run CsEvents.step s₀ es = some s)
    (hleft : s.unregistered ≤ event) :
    ∃ rest, s₀.posted event ++ (es.flatMap incoming).filter (isNotification ev.1) =
        s.posted event ++ rest ∧ rest.length ≤ 1 ∧ (s.readTask = .reading → rest = []) := by
  have hposts := posts_of_run hrun₀ hev hregistered hreading hrun
  obtain ⟨rest, hpending, heq⟩ := hposts.posted.resolve_left (Nat.not_lt.mpr hleft)
  refine ⟨rest, heq, hpending.length_le, fun hread => ?_⟩
  rw [hread] at hpending
  cases hpending
  rfl

/-- Two notifications, of which the second one has been looked up once, and a response. -/
def pendingTick : List CsNotificationEvent :=
  [.readMessage tickMessage, .addSessionHandler 9 [1], .tryInvoke false,
    .readMessage ⟨⟨.fromWords 1, 1, 9, true⟩, [1, 1, 0x10, 9, 0, 0, 0, 0]⟩,
    .readMessage tickMessage]

def registeredTick : CsEvents := (init tickEvents).register ⟨9, [.num .u16], 0, [], 0⟩

theorem posted_in_order_pendingTick :
    ∃ s rest, run CsEvents.step registeredTick pendingTick = some s ∧ (s.posted 0).length = 1 ∧
      registeredTick.posted 0 ++ (pendingTick.flatMap incoming).filter (isNotification 9) =
        s.posted 0 ++ rest := by
  have hcount : (run CsEvents.step registeredTick pendingTick).map
      (fun s => (s.unregistered, (s.posted 0).length)) = some (0, 1) := by decide +kernel
  obtain ⟨s, hrun, hone⟩ := Option.map_eq_some_iff.mp hcount
  obtain ⟨hunregistered, hlength⟩ := Prod.mk.inj hone
  have hrun₀ : run CsEvents.step (init tickEvents) [.register] = some registeredTick := rfl
  obtain ⟨rest, heq, -⟩ := @posted_in_order tickEvents _ _ _ s 0 _ hrun₀ rfl Nat.one_pos rfl
    hrun hunregistered.le
  exact ⟨s, rest, hrun, hlength, heq⟩

end CsEvents

end CompostRpc
