import Mathlib.Data.List.Nodup
import Mathlib.Order.Basic

/-!
# Definitions before uses

A list of definitions in which each name is defined once, behind the names that its definition
uses. A definition is added at the end when what it uses is there already.
-/

namespace DefinitionOrder

variable {κ : Type*} {uses : κ → List κ}

inductive Ordered (uses : κ → List κ) : List κ → Prop
  | nil : Ordered uses []
  | snoc {names : List κ} {name : κ} (h : Ordered uses names) (hnew : name ∉ names)
      (huses : ∀ used ∈ uses name, used ∈ names) : Ordered uses (names ++ [name])

/-- A name is defined once. -/
theorem Ordered.nodup {names : List κ} (h : Ordered uses names) : names.Nodup := by
  induction h with
  | nil => exact List.nodup_nil
  | snoc h hnew huses ih =>
    rw [List.nodup_append]
    refine ⟨ih, List.nodup_singleton _, fun name hmem other hother heq => ?_⟩
    rw [List.mem_singleton.mp hother] at heq
    exact hnew (heq ▸ hmem)

/-- What a definition uses stands in front of it. -/
theorem Ordered.uses_before {names before after : List κ} {name : κ} (h : Ordered uses names)
    (hnames : names = before ++ name :: after) : ∀ used ∈ uses name, used ∈ before := by
  induction h generalizing after with
  | nil => cases before <;> cases hnames
  | @snoc names last h hnew huses ih =>
    rcases List.eq_nil_or_concat after with rfl | ⟨rest, other, rfl⟩
    · obtain ⟨rfl, hlast⟩ := List.append_inj' hnames rfl
      cases hlast
      exact huses
    · rw [List.concat_eq_append, ← List.cons_append, ← List.append_assoc] at hnames
      obtain ⟨hfront, -⟩ := List.append_inj' hnames rfl
      exact ih hfront

/-- The definitions `added` make all of `names` defined: the list only grows, stays ordered, and
what comes in belongs to `added`. -/
structure Defines (uses : κ → List κ) (added names before after : List κ) : Prop where
  grows : before <+: after
  ordered : Ordered uses after
  comes : ∀ name ∈ after, name ∈ before ∨ name ∈ added
  defined : ∀ name ∈ names, name ∈ after

theorem Defines.refl {before : List κ} (h : Ordered uses before) :
    Defines uses [] [] before before where
  grows := List.prefix_refl before
  ordered := h
  comes := fun _ hname => .inl hname
  defined := fun _ hname => absurd hname List.not_mem_nil

theorem Defines.append {added added' names names' before middle after : List κ}
    (h : Defines uses added names before middle)
    (h' : Defines uses added' names' middle after) :
    Defines uses (added ++ added') (names ++ names') before after where
  grows := h.grows.trans h'.grows
  ordered := h'.ordered
  comes := by
    intro name hname
    rcases h'.comes name hname with hmiddle | hadded
    · exact (h.comes name hmiddle).imp_right (List.mem_append_left _)
    · exact .inr (List.mem_append_right _ hadded)
  defined := by
    intro name hname
    rcases List.mem_append.mp hname with hname | hname
    · exact h'.grows.subset (h.defined name hname)
    · exact h'.defined name hname

/-- A name that is defined already. -/
theorem Defines.of_mem {before : List κ} {name : κ} (h : Ordered uses before)
    (hname : name ∈ before) (added : List κ) : Defines uses added [name] before before where
  grows := List.prefix_refl before
  ordered := h
  comes := fun _ hname => .inl hname
  defined := fun _ hmem => List.mem_singleton.mp hmem ▸ hname

/-- A name that is defined behind what it uses. -/
theorem Defines.snoc {added before after : List κ} {name : κ}
    (h : Defines uses added (uses name) before after) (hbefore : name ∉ before)
    (hadded : name ∉ added) : Defines uses (name :: added) [name] before (after ++ [name]) where
  grows := h.grows.trans (List.prefix_append after [name])
  ordered := by
    refine h.ordered.snoc (fun hmem => ?_) h.defined
    exact (h.comes name hmem).elim hbefore hadded
  comes := by
    intro other hother
    rcases List.mem_append.mp hother with hafter | hlast
    · exact (h.comes other hafter).imp_right (List.mem_cons_of_mem _)
    · rw [List.mem_singleton.mp hlast]
      exact .inr List.mem_cons_self
  defined := fun _ hmem => List.mem_append_right _ hmem

end DefinitionOrder
