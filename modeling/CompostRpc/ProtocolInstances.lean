import CompostRpc.TransitionRun
import Mathlib.Logic.Function.Basic

/-!
# Instances of one protocol class in Python

The `Rpc` objects are attributes of the class. All instances share them: an access rebinds the
object to the instance accessed, and there is one list of subscribers. Every access, every call
and every subscription is kept with the instance through which it was made.
-/

namespace CompostRpc
open TransitionRun

structure Subscription (I C : Type) where
  callback : C
  origin : Option I

structure RpcObject (I C : Type) where
  instanceOf : Option I
  subscribers : List (Subscription I C)

structure Access (A I : Type) where
  name : A
  origin : Option I
  deriving DecidableEq

/-- A call of an `Rpc` object, and the instance through whose session it was sent. -/
structure SentCall (A I : Type) where
  obtained : Access A I
  session : Option I

structure Dispatched (I C : Type) where
  session : I
  subscription : Subscription I C

inductive SubscriptionChange (A I C : Type)
  | made (h : Access A I) (callback : C)
  | removed (name : A) (callback : C)

/-- The objects of the class, the accesses and the changes of subscriptions with the last one
first, what the listener of each instance dispatches and how far it is in the list of subscribers,
and what was done so far. -/
structure World (A I C : Type) where
  rpcs : A → RpcObject I C
  accesses : List (Access A I)
  changes : List (SubscriptionChange A I C)
  listeners : I → Option (A × ℕ)
  sent : List (SentCall A I)
  dispatched : List (Dispatched I C)

inductive WorldEvent (A I C : Type)
  | access (h : Access A I)
  | call (h : Access A I)
  | subscribe (h : Access A I) (callback : C)
  | unsubscribe (h : Access A I) (callback : C)
  | notification (session : I) (name : A)
  | dispatch (session : I)

namespace RpcObject

variable {I C : Type}

def get (r : RpcObject I C) (origin : Option I) : RpcObject I C := { r with instanceOf := origin }

def subscribe (r : RpcObject I C) (s : Subscription I C) : RpcObject I C :=
  { r with subscribers := r.subscribers ++ [s] }

/-- If there is nothing to remove, the source raises. -/
def unsubscribe [DecidableEq C] (r : RpcObject I C) (callback : C) : RpcObject I C :=
  { r with subscribers := r.subscribers.eraseP fun s => s.callback = callback }

end RpcObject

namespace World

variable {A I C : Type}

def init : World A I C := ⟨fun _ => ⟨none, []⟩, [], [], fun _ => none, [], []⟩

variable [DecidableEq A]

def modify (w : World A I C) (a : A) (f : RpcObject I C → RpcObject I C) : World A I C :=
  { w with rpcs := Function.update w.rpcs a (f (w.rpcs a)) }

def access (w : World A I C) (h : Access A I) : World A I C :=
  { w.modify h.name (·.get h.origin) with accesses := h :: w.accesses }

def subscribe (w : World A I C) (h : Access A I) (callback : C) : World A I C :=
  { w.modify h.name (·.subscribe ⟨callback, h.origin⟩) with
    changes := .made h callback :: w.changes }

theorem modify_rpcs_self (w : World A I C) (a : A) (f : RpcObject I C → RpcObject I C) :
    (w.modify a f).rpcs a = f (w.rpcs a) := Function.update_self ..

theorem modify_rpcs_of_ne (w : World A I C) {a b : A} (f : RpcObject I C → RpcObject I C)
    (h : b ≠ a) : (w.modify a f).rpcs b = w.rpcs b := Function.update_of_ne h ..

theorem access_rpcs (w : World A I C) (h : Access A I) :
    (w.access h).rpcs = (w.modify h.name (·.get h.origin)).rpcs := rfl

theorem subscribe_rpcs (w : World A I C) (h : Access A I) (callback : C) :
    (w.subscribe h callback).rpcs =
      (w.modify h.name (·.subscribe ⟨callback, h.origin⟩)).rpcs := rfl

def lastAccess (w : World A I C) (a : A) : Option (Access A I) :=
  w.accesses.find? fun h => h.name = a

def BoundToLast (w : World A I C) : Prop :=
  ∀ a h, w.lastAccess a = some h → (w.rpcs a).instanceOf = h.origin

theorem BoundToLast.modify {w : World A I C} (hw : w.BoundToLast) (a : A)
    {f : RpcObject I C → RpcObject I C} (hf : ∀ r, (f r).instanceOf = r.instanceOf) :
    (w.modify a f).BoundToLast := by
  intro b h hlast
  have hb := hw b h hlast
  by_cases hab : b = a
  · subst hab
    rw [modify_rpcs_self, hf, hb]
  · rw [modify_rpcs_of_ne w f hab, hb]

theorem BoundToLast.access {w : World A I C} (hw : w.BoundToLast) (h : Access A I) :
    (w.access h).BoundToLast := by
  intro b h' hlast
  by_cases hb : b = h.name
  · subst hb
    obtain rfl : h = h' := by simpa [lastAccess, World.access] using hlast
    rw [access_rpcs, modify_rpcs_self, RpcObject.get]
  · have hold : w.lastAccess b = some h' := by
      simpa [lastAccess, World.access, Ne.symm hb, World.modify] using hlast
    rw [access_rpcs, modify_rpcs_of_ne w _ hb]
    exact hw b h' hold

/-- An object is bound to the instance that it was obtained from if and only if that was the last
one to access it. -/
theorem BoundToLast.instanceOf_eq_iff {w : World A I C} (hw : w.BoundToLast) {h : Access A I}
    (hmem : h ∈ w.accesses) :
    (w.rpcs h.name).instanceOf = h.origin ↔ w.lastAccess h.name = some h := by
  constructor
  · intro hbound
    have hsome : (w.lastAccess h.name).isSome := by
      rw [lastAccess, List.find?_isSome]
      exact ⟨h, hmem, decide_eq_true rfl⟩
    obtain ⟨h', hlast⟩ := Option.isSome_iff_exists.mp hsome
    have hname : h'.name = h.name := by simpa using List.find?_some hlast
    have horigin : h'.origin = h.origin := (hw _ _ hlast).symm.trans hbound
    obtain ⟨name, origin⟩ := h
    obtain ⟨name', origin'⟩ := h'
    obtain rfl : name' = name := hname
    obtain rfl : origin' = origin := horigin
    exact hlast
  · exact hw _ _

variable [DecidableEq C]

def remaining (a : A) : List (SubscriptionChange A I C) → List (Subscription I C)
  | [] => []
  | .made h callback :: earlier =>
    if h.name = a then remaining a earlier ++ [⟨callback, h.origin⟩] else remaining a earlier
  | .removed name callback :: earlier =>
    if name = a then (remaining a earlier).eraseP fun s => s.callback = callback
    else remaining a earlier

def unsubscribe (w : World A I C) (h : Access A I) (callback : C) : World A I C :=
  { w.modify h.name (·.unsubscribe callback) with
    changes := .removed h.name callback :: w.changes }

theorem unsubscribe_rpcs (w : World A I C) (h : Access A I) (callback : C) :
    (w.unsubscribe h callback).rpcs = (w.modify h.name (·.unsubscribe callback)).rpcs := rfl

structure UpToDate (w : World A I C) : Prop where
  bound : w.BoundToLast
  subscribers : ∀ a, (w.rpcs a).subscribers = remaining a w.changes

theorem UpToDate.access {w : World A I C} (hw : w.UpToDate) (h : Access A I) :
    (w.access h).UpToDate := by
  refine ⟨hw.bound.access h, fun a => ?_⟩
  rw [access_rpcs]
  by_cases ha : a = h.name
  · subst ha
    rw [modify_rpcs_self]
    exact hw.subscribers _
  · rw [modify_rpcs_of_ne w _ ha]
    exact hw.subscribers a

theorem UpToDate.subscribe {w : World A I C} (hw : w.UpToDate) (h : Access A I) (callback : C) :
    (w.subscribe h callback).UpToDate := by
  have hbound := @BoundToLast.modify A I C _ w hw.bound h.name
    (·.subscribe ⟨callback, h.origin⟩) fun r => rfl
  refine ⟨hbound, fun a => ?_⟩
  rw [subscribe_rpcs]
  by_cases ha : h.name = a
  · subst ha
    rw [modify_rpcs_self, RpcObject.subscribe, hw.subscribers, World.subscribe, remaining,
      if_pos rfl]
  · rw [modify_rpcs_of_ne w _ (Ne.symm ha), hw.subscribers, World.subscribe, remaining, if_neg ha]

theorem UpToDate.unsubscribe {w : World A I C} (hw : w.UpToDate) (h : Access A I) (callback : C) :
    (w.unsubscribe h callback).UpToDate := by
  have hbound := @BoundToLast.modify A I C _ w hw.bound h.name (·.unsubscribe callback)
    fun r => rfl
  refine ⟨hbound, fun a => ?_⟩
  rw [unsubscribe_rpcs]
  by_cases ha : h.name = a
  · subst ha
    rw [modify_rpcs_self, RpcObject.unsubscribe, hw.subscribers, World.unsubscribe, remaining,
      if_pos rfl]
  · rw [modify_rpcs_of_ne w _ (Ne.symm ha), hw.subscribers, World.unsubscribe, remaining,
      if_neg ha]

variable [DecidableEq I]

def dispatchNext (w : World A I C) (p : I) (a : A) (i : ℕ) : World A I C :=
  match (w.rpcs a).subscribers[i]? with
  | some s =>
    { w with
      listeners := Function.update w.listeners p (some (a, i + 1))
      dispatched := w.dispatched ++ [⟨p, s⟩] }
  | none => { w with listeners := Function.update w.listeners p none }

def step (w : World A I C) : WorldEvent A I C → Option (World A I C)
  | .access h => some (w.access h)
  | .call h =>
    if h ∈ w.accesses then some { w with sent := w.sent ++ [⟨h, (w.rpcs h.name).instanceOf⟩] }
    else none
  | .subscribe h callback =>
    if h ∈ w.accesses then some (w.subscribe h callback) else none
  | .unsubscribe h callback =>
    if h ∈ w.accesses then some (w.unsubscribe h callback) else none
  | .notification p a =>
    if w.listeners p = none then
      some { w with listeners := Function.update w.listeners p (some (a, 0)) }
    else none
  | .dispatch p => (w.listeners p).map fun (a, i) => w.dispatchNext p a i

/-- Every call is sent through the session of the instance that it was obtained from, and every
notification reaches only subscriptions made through the instance whose session received it. -/
def Isolated (w : World A I C) : Prop :=
  (∀ c ∈ w.sent, c.session = c.obtained.origin) ∧
    ∀ d ∈ w.dispatched, d.subscription.origin = some d.session

/-- A called object was not accessed through another instance since. Of the subscriptions made and
not removed, the one whose turn it is was made through the instance of the listener. -/
def OwnEvent (w : World A I C) : WorldEvent A I C → Prop
  | .call h => w.lastAccess h.name = some h
  | .dispatch p => ∀ a i s, w.listeners p = some (a, i) → (remaining a w.changes)[i]? = some s →
      s.origin = some p
  | _ => True

/-- What a step can do to the objects and to what was done so far. -/
theorem step_cases {w w' : World A I C} {e : WorldEvent A I C} (hstep : step w e = some w') :
    (∃ h, e = .access h ∧ w' = w.access h) ∨
    (∃ h, e = .call h ∧ h ∈ w.accesses ∧
      w' = { w with sent := w.sent ++ [⟨h, (w.rpcs h.name).instanceOf⟩] }) ∨
    (∃ h callback, e = .subscribe h callback ∧ w' = w.subscribe h callback) ∨
    (∃ h callback, e = .unsubscribe h callback ∧ w' = w.unsubscribe h callback) ∨
    (∃ p a, e = .notification p a ∧
      w' = { w with listeners := Function.update w.listeners p (some (a, 0)) }) ∨
    ∃ p a i, e = .dispatch p ∧ w.listeners p = some (a, i) ∧ w' = w.dispatchNext p a i := by
  cases e with
  | access h => exact .inl ⟨h, rfl, (Option.some.inj hstep).symm⟩
  | call h =>
    obtain ⟨hmem, hw'⟩ := Option.ite_none_right_eq_some.mp hstep
    exact .inr (.inl ⟨h, rfl, hmem, (Option.some.inj hw').symm⟩)
  | subscribe h callback =>
    obtain ⟨-, hw'⟩ := Option.ite_none_right_eq_some.mp hstep
    exact .inr (.inr (.inl ⟨h, callback, rfl, (Option.some.inj hw').symm⟩))
  | unsubscribe h callback =>
    obtain ⟨-, hw'⟩ := Option.ite_none_right_eq_some.mp hstep
    exact .inr (.inr (.inr (.inl ⟨h, callback, rfl, (Option.some.inj hw').symm⟩)))
  | notification p a =>
    obtain ⟨-, hw'⟩ := Option.ite_none_right_eq_some.mp hstep
    exact .inr (.inr (.inr (.inr (.inl ⟨p, a, rfl, (Option.some.inj hw').symm⟩))))
  | dispatch p =>
    obtain ⟨⟨a, i⟩, hlistener, rfl⟩ := Option.map_eq_some_iff.mp hstep
    exact .inr (.inr (.inr (.inr (.inr ⟨p, a, i, rfl, hlistener, rfl⟩))))

theorem UpToDate.dispatchNext {w : World A I C} (hw : w.UpToDate) (p : I) (a : A) (i : ℕ) :
    (w.dispatchNext p a i).UpToDate := by
  unfold World.dispatchNext
  split <;> exact ⟨hw.bound, hw.subscribers⟩

theorem UpToDate.step {w w' : World A I C} {e : WorldEvent A I C} (hw : w.UpToDate)
    (hstep : step w e = some w') : w'.UpToDate := by
  rcases step_cases hstep with ⟨h, -, rfl⟩ | ⟨h, -, -, rfl⟩ | ⟨h, callback, -, rfl⟩ |
    ⟨h, callback, -, rfl⟩ | ⟨p, a, -, rfl⟩ | ⟨p, a, i, -, -, rfl⟩
  · exact hw.access h
  · exact ⟨hw.bound, hw.subscribers⟩
  · exact hw.subscribe h callback
  · exact hw.unsubscribe h callback
  · exact ⟨hw.bound, hw.subscribers⟩
  · exact hw.dispatchNext p a i

omit [DecidableEq A] [DecidableEq C] in
theorem isolated_dispatchNext_iff {w : World A I C} {p : I} {a : A} {i : ℕ} :
    (w.dispatchNext p a i).Isolated ↔
      w.Isolated ∧ ∀ s, (w.rpcs a).subscribers[i]? = some s → s.origin = some p := by
  unfold dispatchNext
  split
  · rename_i s hs
    simp [Isolated, hs, or_imp, forall_and, and_assoc]
  · rename_i hs
    simp [Isolated, hs]

omit [DecidableEq I] in
theorem ownEvent_dispatch_iff {w : World A I C} {p : I} {a : A} {i : ℕ}
    (h : w.listeners p = some (a, i)) :
    w.OwnEvent (.dispatch p) ↔
      ∀ s, (remaining a w.changes)[i]? = some s → s.origin = some p := by
  constructor
  · exact fun hown s => hown a i s h
  · rintro hall a' i' s h' hs
    obtain ⟨rfl, rfl⟩ := Prod.mk.inj (Option.some.inj (h.symm.trans h'))
    exact hall s hs

theorem isolated_step_iff {w w' : World A I C} {e : WorldEvent A I C} (hw : w.UpToDate)
    (hstep : step w e = some w') : w'.Isolated ↔ w.Isolated ∧ w.OwnEvent e := by
  rcases step_cases hstep with ⟨h, rfl, rfl⟩ | ⟨h, rfl, hmem, rfl⟩ | ⟨h, callback, rfl, rfl⟩ |
    ⟨h, callback, rfl, rfl⟩ | ⟨p, a, rfl, rfl⟩ | ⟨p, a, i, rfl, hlistener, rfl⟩
  · exact (and_iff_left trivial).symm
  · rw [OwnEvent, ← hw.bound.instanceOf_eq_iff hmem]
    simp [Isolated, or_imp, forall_and, and_right_comm]
  · exact (and_iff_left trivial).symm
  · exact (and_iff_left trivial).symm
  · exact (and_iff_left trivial).symm
  · rw [isolated_dispatchNext_iff, ownEvent_dispatch_iff hlistener, hw.subscribers]

/-- In every run, the instances are isolated if and only if each object is called with its last
access through the same instance, and of the subscriptions made and not removed no listener comes
to one of another instance. -/
theorem isolated_iff_ownEvents {w : World A I C} {es : List (WorldEvent A I C)}
    (hrun : run World.step init es = some w) : w.Isolated ↔ Along World.step OwnEvent init es := by
  have hinit : (init : World A I C).Isolated := ⟨by simp [init], by simp [init]⟩
  rw [run_iff_along (fun _ _ _ h hstep => h.step hstep) (fun _ _ _ => isolated_step_iff)
    ⟨by simp [BoundToLast, lastAccess, init], fun _ => rfl⟩ hrun, and_iff_right hinit]

/-- A call obtained from an instance and a subscription made through it, both used right away. -/
def oneInstance : List (WorldEvent ℕ Bool ℕ) :=
  [.access ⟨1, some true⟩, .call ⟨1, some true⟩, .access ⟨2, some true⟩,
    .subscribe ⟨2, some true⟩ 7, .notification true 2, .dispatch true]

theorem isolated_oneInstance :
    ∃ w, run World.step init oneInstance = some w ∧ w.sent.length = 1 ∧
      w.dispatched.length = 1 ∧ Along World.step OwnEvent init oneInstance := by
  refine ⟨_, rfl, rfl, rfl, (@isolated_iff_ownEvents ℕ Bool ℕ _ _ _ _ oneInstance rfl).mp ?_⟩
  refine ⟨fun c hc => ?_, fun d hd => ?_⟩
  · obtain rfl := List.mem_singleton.mp hc
    rfl
  · obtain rfl := List.mem_singleton.mp hd
    rfl

/-- A call obtained from one instance, which is made after an access of the other. -/
def crossedAccess : List (WorldEvent ℕ Bool ℕ) :=
  [.access ⟨1, some true⟩, .access ⟨1, some false⟩, .call ⟨1, some true⟩]

/-- The call is sent through the session of the instance accessed last. -/
theorem not_isolated_crossedAccess :
    ¬ ∀ (es : List (WorldEvent ℕ Bool ℕ)) (w : World ℕ Bool ℕ),
        run World.step init es = some w → w.Isolated := by
  intro h
  have hcrossed := h crossedAccess _ rfl
  exact absurd (hcrossed.1 _ (.head _)) (by decide)

end World

end CompostRpc
