import CompostRpc.Subscriptions
import Mathlib.Data.UInt
import Mathlib.Logic.Function.Basic

/-!
# The notification handlers of a C# session

A session has a delegate for each message type with handlers. A delegate is the list of what it
calls. Handlers are added and removed under one lock. As long as each is a single function, the
dictionary holds for every message type the handlers whose last operation was an addition, in the
order in which they were added, and no entry without a handler.
-/

namespace CompostRpc
open Subscriptions

abbrev NotifDict (H : Type*) := UInt16 → Option (List H)

namespace NotifDict

section
variable {H : Type*}

def empty : NotifDict H := fun _ => none

def checkNotificationExists (dict : NotifDict H) (rpcId : UInt16) : Bool := (dict rpcId).isSome

def handlers (dict : NotifDict H) (rpcId : UInt16) : List H := (dict rpcId).getD []

structure Proper (dict : NotifDict H) : Prop where
  ne_nil : ∀ rpcId, dict rpcId ≠ some []
  nodup : ∀ rpcId, (dict.handlers rpcId).Nodup

theorem eq_ite_handlers {dict : NotifDict H} (h : dict.Proper) (rpcId : UInt16) :
    dict rpcId = if dict.handlers rpcId = [] then none else some (dict.handlers rpcId) := by
  have hne := h.ne_nil rpcId
  rw [handlers]
  cases hdict : dict rpcId with
  | none => rfl
  | some added =>
    rw [hdict] at hne
    have hadded : added ≠ [] := fun hnil => hne (congrArg some hnil)
    rw [Option.getD_some, if_neg hadded]

theorem handlers_update (dict : NotifDict H) (rpcId : UInt16) (entry : Option (List H)) :
    handlers (Function.update dict rpcId entry) =
      Function.update dict.handlers rpcId (entry.getD []) := by
  funext i
  by_cases hi : i = rpcId
  · subst hi
    rw [handlers, Function.update_self, Function.update_self]
  · rw [handlers, Function.update_of_ne hi, Function.update_of_ne hi, handlers]

theorem ne_nil_update {dict : NotifDict H} (h : ∀ i, dict i ≠ some []) (rpcId : UInt16)
    {entry : Option (List H)} (hentry : entry ≠ some []) (i : UInt16) :
    Function.update dict rpcId entry i ≠ some [] := by
  by_cases hi : i = rpcId
  · rw [hi, Function.update_self]
    exact hentry
  · rw [Function.update_of_ne hi]
    exact h i

def operationsOn (rpcId : UInt16) (ops : List (UInt16 × Op H)) : List (Op H) :=
  (ops.filter fun op => op.1 = rpcId).map Prod.snd

theorem operationsOn_append (rpcId : UInt16) (ops : List (UInt16 × Op H)) (op : UInt16 × Op H) :
    operationsOn rpcId (ops ++ [op]) =
      operationsOn rpcId ops ++ if op.1 = rpcId then [op.2] else [] := by
  rw [operationsOn, operationsOn, List.filter_append, List.map_append]
  by_cases hop : op.1 = rpcId
  · rw [if_pos hop, List.filter_cons_of_pos (by simpa using hop)]
    rfl
  · rw [if_neg hop, List.filter_cons_of_neg (by simpa using hop)]
    rfl

end

variable {H : Type*} [DecidableEq H]

def addNotificationHandler (dict : NotifDict H) (rpcId : UInt16) (handler : List H) :
    NotifDict H :=
  match dict rpcId with
  | none => Function.update dict rpcId (some handler)
  | some added =>
    if added.any fun d => [d] = handler then dict
    else Function.update dict rpcId (some (added ++ handler))

def removeNotificationHandler (dict : NotifDict H) (rpcId : UInt16) (handler : List H) :
    NotifDict H :=
  match dict rpcId with
  | none => dict
  | some added =>
    match (removeLast handler added).getD added with
    | [] => Function.update dict rpcId none
    | afterRemove => Function.update dict rpcId (some afterRemove)

def operate (dict : NotifDict H) (rpcId : UInt16) : Op H → NotifDict H
  | .add h => dict.addNotificationHandler rpcId [h]
  | .remove h => dict.removeNotificationHandler rpcId [h]

def afterOperations (ops : List (UInt16 × Op H)) : NotifDict H :=
  ops.foldl (fun dict op => dict.operate op.1 op.2) empty

theorem ne_nil_addNotificationHandler {dict : NotifDict H} (h : ∀ i, dict i ≠ some [])
    (rpcId : UInt16) {handler : List H} (hhandler : handler ≠ []) (i : UInt16) :
    dict.addNotificationHandler rpcId handler i ≠ some [] := by
  rw [addNotificationHandler]
  cases dict rpcId with
  | none => exact ne_nil_update h rpcId (fun heq => hhandler (Option.some.inj heq)) i
  | some added =>
    dsimp only
    split_ifs with hany
    · exact h i
    · refine ne_nil_update h rpcId (fun heq => hhandler ?_) i
      exact (List.append_eq_nil_iff.mp (Option.some.inj heq)).2

theorem ne_nil_removeNotificationHandler {dict : NotifDict H} (h : ∀ i, dict i ≠ some [])
    (rpcId : UInt16) (handler : List H) (i : UInt16) :
    dict.removeNotificationHandler rpcId handler i ≠ some [] := by
  rw [removeNotificationHandler]
  cases dict rpcId with
  | none => exact h i
  | some added =>
    dsimp only
    cases (removeLast handler added).getD added with
    | nil =>
      have hnone : (none : Option (List H)) ≠ some [] := nofun
      exact ne_nil_update h rpcId hnone i
    | cons x xs =>
      have hrest : some (x :: xs) ≠ some [] := nofun
      exact ne_nil_update h rpcId hrest i

theorem handlers_addNotificationHandler (dict : NotifDict H) (rpcId : UInt16) (handler : List H) :
    (dict.addNotificationHandler rpcId handler).handlers =
      Function.update dict.handlers rpcId
        (if (dict.handlers rpcId).any fun d => [d] = handler then dict.handlers rpcId
        else dict.handlers rpcId ++ handler) := by
  rw [addNotificationHandler]
  have hhandlers : dict.handlers rpcId = (dict rpcId).getD [] := rfl
  cases hdict : dict rpcId with
  | none =>
    rw [hdict, Option.getD_none] at hhandlers
    rw [hhandlers, List.any_nil, if_neg Bool.false_ne_true, List.nil_append]
    exact handlers_update dict rpcId (some handler)
  | some added =>
    rw [hdict, Option.getD_some] at hhandlers
    dsimp only
    rw [hhandlers]
    split_ifs with hany
    · rw [← hhandlers, Function.update_eq_self]
    · exact handlers_update dict rpcId (some (added ++ handler))

theorem handlers_removeNotificationHandler (dict : NotifDict H) (rpcId : UInt16)
    (handler : List H) :
    (dict.removeNotificationHandler rpcId handler).handlers =
      Function.update dict.handlers rpcId
        ((removeLast handler (dict.handlers rpcId)).getD (dict.handlers rpcId)) := by
  rw [removeNotificationHandler]
  have hhandlers : dict.handlers rpcId = (dict rpcId).getD [] := rfl
  cases hdict : dict rpcId with
  | none =>
    rw [hdict, Option.getD_none] at hhandlers
    have hnothing : (removeLast handler ([] : List H)).getD [] = [] := by
      rw [removeLast]
      split_ifs with hhandler
      · rfl
      · rfl
    rw [hhandlers, hnothing, ← hhandlers, Function.update_eq_self]
  | some added =>
    rw [hdict, Option.getD_some] at hhandlers
    rw [hhandlers]
    dsimp only
    cases (removeLast handler added).getD added with
    | nil => exact handlers_update dict rpcId none
    | cons x xs => exact handlers_update dict rpcId (some (x :: xs))

theorem handlers_operate {dict : NotifDict H} (h : dict.Proper) (rpcId : UInt16) (op : Op H) :
    (dict.operate rpcId op).handlers =
      Function.update dict.handlers rpcId (apply (dict.handlers rpcId) op) := by
  cases op with
  | add x =>
    rw [operate, handlers_addNotificationHandler]
    have hany : ((dict.handlers rpcId).any fun d => [d] = [x]) = true ↔
        x ∈ dict.handlers rpcId := by
      simp [List.any_eq]
    rw [if_congr hany rfl rfl]
    rfl
  | remove x =>
    rw [operate, handlers_removeNotificationHandler, removeLast_singleton (h.nodup rpcId), apply]
    split_ifs with hmem
    · rfl
    · rw [Option.getD_none, List.erase_of_not_mem hmem]

theorem Proper.operate {dict : NotifDict H} (h : dict.Proper) (rpcId : UInt16) (op : Op H) :
    (dict.operate rpcId op).Proper where
  ne_nil := by
    cases op with
    | add x => exact ne_nil_addNotificationHandler h.ne_nil rpcId (List.cons_ne_nil x [])
    | remove x => exact ne_nil_removeNotificationHandler h.ne_nil rpcId [x]
  nodup i := by
    rw [handlers_operate h]
    by_cases hi : i = rpcId
    · rw [hi, Function.update_self]
      exact nodup_apply (h.nodup rpcId) op
    · rw [Function.update_of_ne hi]
      exact h.nodup i

theorem afterOperations_append (ops : List (UInt16 × Op H)) (op : UInt16 × Op H) :
    afterOperations (ops ++ [op]) = (afterOperations ops).operate op.1 op.2 :=
  List.foldl_append ..

theorem proper_afterOperations (ops : List (UInt16 × Op H)) : (afterOperations ops).Proper := by
  induction ops using List.reverseRecOn with
  | nil => exact ⟨fun _ => nofun, fun _ => List.nodup_nil⟩
  | append_singleton ops op ih =>
    rw [afterOperations_append]
    exact ih.operate op.1 op.2

/-- The handlers of a message type are the subscribers after the operations on it. -/
theorem handlers_afterOperations (ops : List (UInt16 × Op H)) (rpcId : UInt16) :
    (afterOperations ops).handlers rpcId = after (operationsOn rpcId ops) := by
  induction ops using List.reverseRecOn with
  | nil => rfl
  | append_singleton ops op ih =>
    rw [afterOperations_append, handlers_operate (proper_afterOperations ops), operationsOn_append]
    by_cases hop : op.1 = rpcId
    · rw [hop, Function.update_self, if_pos rfl, after_append, ih]
    · rw [Function.update_of_ne (Ne.symm hop), if_neg hop, List.append_nil, ih]

def registered (ops : List (UInt16 × Op H)) (rpcId : UInt16) : List H :=
  after (operationsOn rpcId ops)

/-- After any registrations and removals of single functions, in any order and for any message
types, the dictionary has for each message type the handlers whose last operation was a
registration, each once, and no entry if there are none. -/
theorem notifDict_after_operations (ops : List (UInt16 × Op H)) (rpcId : UInt16) :
    (afterOperations ops rpcId =
        if registered ops rpcId = [] then none else some (registered ops rpcId)) ∧
      (registered ops rpcId).Nodup ∧ ∀ h, h ∈ registered ops rpcId ↔
        (operationsOn rpcId ops).reverse.find? (·.subject = h) = some (.add h) := by
  refine ⟨?_, nodup_after _, mem_after_iff _⟩
  rw [registered, ← handlers_afterOperations]
  exact eq_ite_handlers (proper_afterOperations ops) rpcId

end NotifDict

end CompostRpc
