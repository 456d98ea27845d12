import CompostRpc.CsMessages
import CompostRpc.CsNotifications
import CompostRpc.CsStream
import CompostRpc.TransitionRun

/-!
# The events of a C# protocol

The constructor of a protocol registers with its session one handler for each of its events. The
read task looks a notification up twice, and posts a callback that calls the handlers it found. The
callback deserializes the arguments for an event and goes through the subscribers of the event,
a linked list that counts its changes. The list is not locked, and a change of it is taken to be one
step. Callbacks, subscriptions and the disposal interleave.
-/

namespace CompostRpc
open TransitionRun

/-- A function that the session calls for a notification: `ReceivedHandler` of an event, or one of
the program. -/
inductive SessionHandler
  | received (event : ℕ)
  | other (n : ℕ)
  deriving DecidableEq

structure EventHandler where
  type : ℕ
  target : ℕ
  deriving DecidableEq

structure NotificationInfo where
  id : UInt16
  shape : List CsType
  eventHandlerType : ℕ
  eventHandlers : List EventHandler
  version : ℕ

namespace NotificationInfo

/-- `Protocol.AddNotificationHandler`; without a result it throws. -/
def addNotificationHandler (info : NotificationInfo) (handler : EventHandler) :
    Option NotificationInfo :=
  if handler ∈ info.eventHandlers then some info
  else if (info.eventHandlers.getLast?.getD handler).type = handler.type then
    some { info with
      eventHandlers := info.eventHandlers ++ [handler]
      version := info.version + 1 }
  else none

def removeNotificationHandler (info : NotificationInfo) (handler : EventHandler) :
    NotificationInfo :=
  if handler ∈ info.eventHandlers then
    { info with
      eventHandlers := info.eventHandlers.erase handler
      version := info.version + 1 }
  else info

end NotificationInfo

def receivedArguments (shape : List CsType) (buffer : List UInt8) :
    Except CsError (List CsObject) :=
  (Serialization.deserializeProperties (.ofTypes shape) buffer MessageHeader.headerSize).map
    fun r => arguments shape r.1

/-- The calls that a callback makes for an event, and who was subscribed when it started. -/
structure Delivery where
  event : ℕ
  args : List CsObject
  subscribers : List EventHandler
  called : List EventHandler

/-- The loop of `ReceivedHandler`: what the enumerator of the list knows, and the handler that it
gave and that is not called yet. -/
structure Enumeration where
  delivery : Delivery
  version : ℕ
  index : ℕ
  current : Option EventHandler

/-- An ended delivery. One that came to its end has the subscribers at that moment. -/
structure EndedDelivery where
  delivery : Delivery
  completed : Option (List EventHandler)

/-- What the synchronization context runs for a notification: the handlers it took, those not run
yet, the loop in one of them, and the deliveries made. -/
structure Callback where
  notification : Message
  captured : List SessionHandler
  handlers : List SessionHandler
  enumeration : Option Enumeration
  delivered : List EndedDelivery

inductive ReadMessagesTask
  | reading
  | checked (msg : Message)
  | faulted

/-- `registered` and `unregistered` count the events that the constructor has registered with the
session and that the disposal has removed from it. The disposal clears the cache at its end. -/
structure CsEvents where
  notifDict : NotifDict SessionHandler
  notificationInfoCache : List NotificationInfo
  registered : ℕ
  unregistered : ℕ
  cleared : Bool
  readTask : ReadMessagesTask
  callbacks : List Callback

inductive CsNotificationEvent
  | register
  | subscribe (event : ℕ) (handler : EventHandler)
  | unsubscribe (event : ℕ) (handler : EventHandler)
  | addSessionHandler (rpcId : UInt16) (handler : List ℕ)
  | removeSessionHandler (rpcId : UInt16) (handler : List ℕ)
  | readMessage (msg : Message)
  | tryInvoke (throws : Bool)
  | startHandler (callback : ℕ) (throws : Bool)
  | moveNext (callback : ℕ)
  | invokeHandler (callback : ℕ) (throws : Bool)
  | unregister
  | clear

def Enumeration.call (e : Enumeration) (h : EventHandler) : Enumeration :=
  { e with
    delivery := { e.delivery with called := e.delivery.called ++ [h] }
    current := none }

namespace Callback

def fail (c : Callback) : Callback :=
  { c with
    handlers := []
    enumeration := none
    delivered := c.delivered ++ c.enumeration.toList.map fun e => ⟨e.delivery, none⟩ }

def complete (c : Callback) (e : Enumeration) (subscribers : List EventHandler) : Callback :=
  { c with
    enumeration := none
    delivered := c.delivered ++ [⟨e.delivery, some subscribers⟩] }

def receive (c : Callback) (rest : List SessionHandler) (event : ℕ) (info : NotificationInfo) :
    Callback :=
  match receivedArguments info.shape c.notification.buffer with
  | .error _ => c.fail
  | .ok args =>
    { c with
      handlers := rest
      enumeration := some ⟨⟨event, args, info.eventHandlers, []⟩, info.version, 0, none⟩ }

variable (infos : List NotificationInfo) (c : Callback)

def startHandler (throws : Bool) : Option Callback :=
  match c.enumeration, c.handlers with
  | none, .other _ :: rest => some (if throws then c.fail else { c with handlers := rest })
  | none, .received event :: rest => infos[event]?.map (c.receive rest event)
  | _, _ => none

/-- `MoveNext` of the enumerator, which throws if the list has changed. -/
def moveNext : Option Callback :=
  c.enumeration.bind fun e => infos[e.delivery.event]?.bind fun info =>
    if e.current.isSome then none
    else if info.version ≠ e.version then some c.fail
    else
      match info.eventHandlers[e.index]? with
      | none => some (c.complete e info.eventHandlers)
      | some h =>
        some { c with enumeration := some { e with index := e.index + 1, current := some h } }

/-- `EventHandlerInvoker`: the delegate is cast to the type of the event and called. -/
def invokeHandler (throws : Bool) : Option Callback :=
  c.enumeration.bind fun e => e.current.bind fun h => infos[e.delivery.event]?.map fun info =>
    if h.type ≠ info.eventHandlerType then c.fail
    else if throws then fail { c with enumeration := some (e.call h) }
    else { c with enumeration := some (e.call h) }

end Callback

namespace CsEvents

/-- A new protocol, with the message type, the parameters and the delegate type of each event. -/
def init (events : List (UInt16 × List CsType × ℕ)) : CsEvents :=
  ⟨NotifDict.empty, events.map fun ev => ⟨ev.1, ev.2.1, ev.2.2, [], 0⟩, 0, 0, false, .reading, []⟩

def isUsable (s : CsEvents) : Bool := s.registered = s.notificationInfoCache.length && !s.cleared

def setInfo (s : CsEvents) (event : ℕ) (info : NotificationInfo) : CsEvents :=
  { s with notificationInfoCache := s.notificationInfoCache.set event info }

def register (s : CsEvents) (info : NotificationInfo) : CsEvents :=
  { s with
    notifDict := s.notifDict.addNotificationHandler info.id [.received s.registered]
    registered := s.registered + 1 }

def unregister (s : CsEvents) (info : NotificationInfo) : CsEvents :=
  { s with
    notifDict := s.notifDict.removeNotificationHandler info.id [.received s.unregistered]
    unregistered := s.unregistered + 1 }

/-- `TryInvokeNotification`, where a subscriber of `NotificationReceived` may throw. -/
def tryInvoke (s : CsEvents) (msg : Message) (throws : Bool) : CsEvents :=
  match s.notifDict msg.header.rpcId with
  | none => { s with readTask := .reading }
  | some handlers =>
    if throws then { s with readTask := .faulted }
    else
      { s with
        readTask := .reading
        callbacks := s.callbacks ++ [⟨msg, handlers, handlers, none, []⟩] }

def inCallback (s : CsEvents) (k : ℕ) (f : Callback → Option Callback) : Option CsEvents :=
  s.callbacks[k]?.bind fun c => (f c).map fun c' =>
    { s with callbacks := s.callbacks.set k c' }

def step (s : CsEvents) : CsNotificationEvent → Option CsEvents
  | .register => s.notificationInfoCache[s.registered]?.map s.register
  | .subscribe event handler =>
    if s.isUsable then
      s.notificationInfoCache[event]?.map fun info =>
        match info.addNotificationHandler handler with
        | none => s
        | some info' => s.setInfo event info'
    else none
  | .unsubscribe event handler =>
    if s.isUsable then
      s.notificationInfoCache[event]?.map fun info =>
        s.setInfo event (info.removeNotificationHandler handler)
    else none
  | .addSessionHandler rpcId handler =>
    if handler = [] then none
    else some { s with
      notifDict := s.notifDict.addNotificationHandler rpcId (handler.map .other) }
  | .removeSessionHandler rpcId handler =>
    some { s with
      notifDict := s.notifDict.removeNotificationHandler rpcId (handler.map .other) }
  | .readMessage msg =>
    match s.readTask with
    | .reading =>
      if s.notifDict.checkNotificationExists msg.header.rpcId && !msg.header.resp then
        some { s with readTask := .checked msg }
      else some s
    | .checked _ | .faulted => none
  | .tryInvoke throws =>
    match s.readTask with
    | .checked msg => some (s.tryInvoke msg throws)
    | .reading | .faulted => none
  | .startHandler k throws =>
    s.inCallback k fun c => c.startHandler s.notificationInfoCache throws
  | .moveNext k => s.inCallback k fun c => c.moveNext s.notificationInfoCache
  | .invokeHandler k throws =>
    s.inCallback k fun c => c.invokeHandler s.notificationInfoCache throws
  | .unregister =>
    if s.isUsable then s.notificationInfoCache[s.unregistered]?.map s.unregister else none
  | .clear =>
    if s.isUsable && s.unregistered = s.notificationInfoCache.length then
      some { s with cleared := true }
    else none

end CsEvents

def SessionHandler.event? : SessionHandler → Option ℕ
  | .received event => some event
  | .other _ => none

def eventsOf (handlers : List SessionHandler) : List ℕ := handlers.filterMap SessionHandler.event?

theorem eventsOf_append (hs hs' : List SessionHandler) :
    eventsOf (hs ++ hs') = eventsOf hs ++ eventsOf hs' := List.filterMap_append

theorem eventsOf_map_other (ns : List ℕ) : eventsOf (ns.map .other) = [] := by
  induction ns with
  | nil => rfl
  | cons n ns ih => exact ih

theorem mem_eventsOf {event : ℕ} {hs : List SessionHandler} :
    event ∈ eventsOf hs ↔ .received event ∈ hs := by
  rw [eventsOf, List.mem_filterMap]
  constructor
  · rintro ⟨h, hmem, heq⟩
    cases h with
    | other n => cases heq
    | received e => exact Option.some.inj heq ▸ hmem
  · exact fun hmem => ⟨_, hmem, rfl⟩

namespace NotifDict
open Subscriptions

theorem eventsOf_addOther (dict : NotifDict SessionHandler) (rpcId : UInt16) (ns : List ℕ)
    (i : UInt16) :
    eventsOf ((dict.addNotificationHandler rpcId (ns.map .other)).handlers i) =
      eventsOf (dict.handlers i) := by
  rw [handlers_addNotificationHandler]
  by_cases hi : i = rpcId
  · rw [hi, Function.update_self]
    split_ifs
    · rfl
    · rw [eventsOf_append, eventsOf_map_other, List.append_nil]
  · rw [Function.update_of_ne hi]

theorem eventsOf_removeOther (dict : NotifDict SessionHandler) (rpcId : UInt16) (ns : List ℕ)
    (i : UInt16) :
    eventsOf ((dict.removeNotificationHandler rpcId (ns.map .other)).handlers i) =
      eventsOf (dict.handlers i) := by
  rw [handlers_removeNotificationHandler]
  by_cases hi : i = rpcId
  · rw [hi, Function.update_self]
    cases hremove : removeLast (ns.map .other) (dict.handlers rpcId) with
    | none => rfl
    | some rest =>
      obtain ⟨front, back, hhandlers, rfl⟩ := removeLast_eq_some hremove
      rw [Option.getD_some, hhandlers, eventsOf_append, eventsOf_append, eventsOf_append,
        eventsOf_map_other, List.append_nil]
  · rw [Function.update_of_ne hi]

theorem eventsOf_addReceived {dict : NotifDict SessionHandler} {rpcId : UInt16} {event : ℕ}
    (h : event ∉ eventsOf (dict.handlers rpcId)) (i : UInt16) :
    eventsOf ((dict.addNotificationHandler rpcId [.received event]).handlers i) =
      eventsOf (dict.handlers i) ++ if i = rpcId then [event] else [] := by
  rw [handlers_addNotificationHandler]
  by_cases hi : i = rpcId
  · have hany : ¬ ((dict.handlers rpcId).any fun d => [d] = [SessionHandler.received event]) := by
      simpa [List.any_eq, mem_eventsOf] using h
    rw [hi, Function.update_self, if_neg hany, eventsOf_append, if_pos rfl]
    rfl
  · rw [Function.update_of_ne hi, if_neg hi, List.append_nil]

theorem eventsOf_removeReceived {dict : NotifDict SessionHandler} {rpcId : UInt16} {event : ℕ}
    (h : (eventsOf (dict.handlers rpcId)).Nodup) (i : UInt16) :
    eventsOf ((dict.removeNotificationHandler rpcId [.received event]).handlers i) =
      if i = rpcId then (eventsOf (dict.handlers i)).erase event
      else eventsOf (dict.handlers i) := by
  rw [handlers_removeNotificationHandler]
  by_cases hi : i = rpcId
  · rw [hi, Function.update_self, if_pos rfl]
    cases hremove : removeLast [SessionHandler.received event] (dict.handlers rpcId) with
    | none =>
      have hnot := not_mem_of_removeLast_eq_none hremove
      rw [Option.getD_none, List.erase_of_not_mem (mem_eventsOf.not.mpr hnot)]
    | some rest =>
      obtain ⟨front, back, hhandlers, rfl⟩ := removeLast_eq_some hremove
      rw [hhandlers, eventsOf_append, eventsOf_append] at h
      have hfront : event ∉ eventsOf front :=
        fun hmem => (List.nodup_append.mp (List.nodup_append.mp h).1).2.2 event hmem event
          (List.mem_singleton.mpr rfl) rfl
      rw [Option.getD_some, hhandlers, eventsOf_append, eventsOf_append, eventsOf_append,
        List.append_assoc, List.erase_append_right _ hfront]
      change _ = eventsOf front ++ List.erase (event :: eventsOf back) event
      rw [List.erase_cons_head]
  · rw [Function.update_of_ne hi, if_neg hi]

end NotifDict

end CompostRpc
