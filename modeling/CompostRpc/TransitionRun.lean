import Mathlib.Order.Basic
import Mathlib.Data.Nat.Init
import Mathlib.Data.Nat.Notation

/-!
# Runs of a partial step function

A system is a function that gives the state after an event, or nothing if the event is not enabled.
A run takes a list of events. The rules here pass from one step to a run: an invariant, an
invariant under a condition on the steps taken, a property that is kept exactly by steps that meet
a condition, an invariant of a loop that counts, and a bound on the length of a run when a measure
decreases.
-/

namespace TransitionRun

variable {σ ε : Type*} (step : σ → ε → Option σ)

/-- The state after the events, if each is enabled in its turn. -/
def run : σ → List ε → Option σ
  | s, [] => some s
  | s, e :: es => (step s e).bind fun s' => run s' es

def Along (Ok : σ → ε → Prop) : σ → List ε → Prop
  | _, [] => True
  | s, e :: es => Ok s e ∧ ∀ s', step s e = some s' → Along Ok s' es

def Throughout (P : σ → Prop) : σ → List ε → Prop
  | s, [] => P s
  | s, e :: es => P s ∧ ∀ s', step s e = some s' → Throughout P s' es

variable {step}

theorem run_cons {s s' : σ} {e : ε} {es : List ε} :
    run step s (e :: es) = some s' ↔ ∃ m, step s e = some m ∧ run step m es = some s' :=
  Option.bind_eq_some_iff

theorem along_cons {Ok : σ → ε → Prop} {s s' : σ} {e : ε} {es : List ε} (h : step s e = some s')
    (hok : Ok s e) (hrest : Along step Ok s' es) : Along step Ok s (e :: es) :=
  ⟨hok, fun _ h' => Option.some.inj (h.symm.trans h') ▸ hrest⟩

/-- A condition that the events meet in every state. -/
theorem along_of_forall {Ok : σ → ε → Prop} {s : σ} {es : List ε} (h : ∀ s, ∀ e ∈ es, Ok s e) :
    Along step Ok s es := by
  induction es generalizing s with
  | nil => trivial
  | cons e es ih =>
    refine ⟨h s e List.mem_cons_self, fun _ _ => ih fun s' e' he' => ?_⟩
    exact h s' e' (List.mem_cons_of_mem e he')

theorem along_append {Ok : σ → ε → Prop} {s : σ} {es es' : List ε} (h : Along step Ok s es)
    (hrest : ∀ m, run step s es = some m → Along step Ok m es') : Along step Ok s (es ++ es') := by
  induction es generalizing s with
  | nil => exact hrest s rfl
  | cons e es ih =>
    refine ⟨h.1, fun m hm => ih (h.2 m hm) fun m' hm' => ?_⟩
    exact hrest m' (run_cons.mpr ⟨m, hm, hm'⟩)

/-- What every step preserves holds after every run. -/
theorem run_invariant {Inv : σ → Prop}
    (hstep : ∀ s e s', Inv s → step s e = some s' → Inv s') {s s' : σ} {es : List ε} (h : Inv s)
    (hrun : run step s es = some s') : Inv s' := by
  induction es generalizing s with
  | nil =>
    cases hrun
    exact h
  | cons e es ih =>
    obtain ⟨m, hm, hrest⟩ := run_cons.mp hrun
    exact ih (hstep s e m h hm) hrest

/-- What every step that meets `Ok` preserves holds after every run that meets `Ok`. -/
theorem run_invariant_along {Inv : σ → Prop} {Ok : σ → ε → Prop}
    (hstep : ∀ s e s', Inv s → Ok s e → step s e = some s' → Inv s') {s s' : σ} {es : List ε}
    (h : Inv s) (hok : Along step Ok s es) (hrun : run step s es = some s') : Inv s' := by
  induction es generalizing s with
  | nil =>
    cases hrun
    exact h
  | cons e es ih =>
    obtain ⟨m, hm, hrest⟩ := run_cons.mp hrun
    exact ih (hstep s e m h hok.1 hm) (hok.2 m hm) hrest

/-- An invariant that relates the state to what the events so far have recorded. -/
theorem run_invariant_record {γ : Type*} {record : ε → List γ} {Inv : List γ → σ → Prop}
    (hstep : ∀ gs s e s', Inv gs s → step s e = some s' → Inv (gs ++ record e) s') {gs : List γ}
    {s s' : σ} {es : List ε} (h : Inv gs s) (hrun : run step s es = some s') :
    Inv (gs ++ es.flatMap record) s' := by
  induction es generalizing gs s with
  | nil =>
    cases hrun
    rwa [List.flatMap_nil, List.append_nil]
  | cons e es ih =>
    obtain ⟨m, hm, hrest⟩ := run_cons.mp hrun
    rw [List.flatMap_cons, ← List.append_assoc]
    exact ih (hstep gs s e m h hm) hrest

/-- Where an invariant holds, what follows from it and `Ok` is met by the steps that meet `Ok`. -/
theorem Along.imp_of_invariant {Inv : σ → Prop} {Ok Ok' : σ → ε → Prop}
    (hstep : ∀ s e s', Inv s → Ok s e → step s e = some s' → Inv s')
    (himp : ∀ s e, Inv s → Ok s e → Ok' s e) {s : σ} {es : List ε} (h : Inv s)
    (hok : Along step Ok s es) : Along step Ok' s es := by
  induction es generalizing s with
  | nil => trivial
  | cons e es ih =>
    exact ⟨himp s e h hok.1, fun s' hs' => ih (hstep s e s' h hok.1 hs') (hok.2 s' hs')⟩

/-- If each step keeps `P` if and only if it meets `Ok`, then a run keeps `P` if and only if all
its steps meet `Ok`. -/
theorem run_iff_along {Inv P : σ → Prop} {Ok : σ → ε → Prop}
    (hinv : ∀ s e s', Inv s → step s e = some s' → Inv s')
    (hstep : ∀ s e s', Inv s → step s e = some s' → (P s' ↔ P s ∧ Ok s e)) {s s' : σ}
    {es : List ε} (h : Inv s) (hrun : run step s es = some s') :
    P s' ↔ P s ∧ Along step Ok s es := by
  induction es generalizing s with
  | nil =>
    cases hrun
    exact (and_iff_left trivial).symm
  | cons e es ih =>
    obtain ⟨m, hm, hrest⟩ := run_cons.mp hrun
    have hlater : (∀ m', step s e = some m' → Along step Ok m' es) ↔ Along step Ok m es :=
      ⟨fun hall => hall m hm, fun hthis m' hm' => Option.some.inj (hm.symm.trans hm') ▸ hthis⟩
    rw [ih (hinv s e m h hm) hrest, hstep s e m h hm, Along, hlater, and_assoc]

/-- If from good states the steps that meet `Ok` keep the state good and all others break `P`, then
`P` holds in every state of a run if and only if all its steps meet `Ok`. -/
theorem throughout_iff_along {Good P : σ → Prop} {Ok : σ → ε → Prop}
    (hgood : ∀ s, Good s → P s)
    (hkeep : ∀ s e s', Good s → step s e = some s' → Ok s e → Good s')
    (hbreak : ∀ s e s', Good s → step s e = some s' → ¬ Ok s e → ¬ P s') {s s' : σ}
    {es : List ε} (h : Good s) (hrun : run step s es = some s') :
    Throughout step P s es ↔ Along step Ok s es := by
  induction es generalizing s with
  | nil => exact ⟨fun _ => trivial, fun _ => hgood s h⟩
  | cons e es ih =>
    obtain ⟨m, hm, hrest⟩ := run_cons.mp hrun
    constructor
    · rintro ⟨-, hlater⟩
      have hok : Ok s e := by
        by_contra hnot
        apply hbreak s e m h hm hnot
        have hthroughout := hlater m hm
        cases es with
        | nil => exact hthroughout
        | cons e' es => exact hthroughout.1
      refine ⟨hok, fun m' hm' => ?_⟩
      obtain rfl := Option.some.inj (hm.symm.trans hm')
      exact (ih (hkeep s e m h hm hok) hrest).mp (hlater m hm)
    · rintro ⟨hok, hlater⟩
      refine ⟨hgood s h, fun m' hm' => ?_⟩
      obtain rfl := Option.some.inj (hm.symm.trans hm')
      exact (ih (hkeep s e m h hm hok) hrest).mpr (hlater m hm)

/-- Where every event is enabled, every list of events is a run. -/
theorem exists_run (htotal : ∀ s e, ∃ s', step s e = some s') (s : σ) (es : List ε) :
    ∃ s', run step s es = some s' := by
  induction es generalizing s with
  | nil => exact ⟨s, rfl⟩
  | cons e es ih =>
    obtain ⟨m, hm⟩ := htotal s e
    obtain ⟨s', hrun⟩ := ih m
    exact ⟨s', run_cons.mpr ⟨m, hm, hrun⟩⟩

/-- A loop that counts from `a` on and keeps an invariant of its counter. -/
theorem exists_run_range' {step : σ → ℕ → Option σ} {Inv : ℕ → σ → Prop} {a n : ℕ}
    (hstep : ∀ k, a ≤ k → k < a + n → ∀ s, Inv k s → ∃ s', step s k = some s' ∧ Inv (k + 1) s')
    {s : σ} (h : Inv a s) : ∃ s', run step s (List.range' a n) = some s' ∧ Inv (a + n) s' := by
  induction n generalizing a s with
  | zero => exact ⟨s, rfl, h⟩
  | succ n ih =>
    obtain ⟨m, hm, hinv⟩ := hstep a (Nat.le_refl a) (Nat.lt_add_of_pos_right (Nat.succ_pos n)) s h
    have hlater : ∀ k, a + 1 ≤ k → k < a + 1 + n → ∀ s, Inv k s →
        ∃ s', step s k = some s' ∧ Inv (k + 1) s' :=
      fun k hlow hhigh => hstep k (by omega) (by omega)
    obtain ⟨s', hrun, hend⟩ := ih hlater hinv
    refine ⟨s', ?_, ?_⟩
    · rw [List.range'_succ]
      exact run_cons.mpr ⟨m, hm, hrun⟩
    · rwa [show a + (n + 1) = a + 1 + n by omega]

/-- If every step of a kind lowers a measure, then a run of such steps is no longer than the
measure. -/
theorem length_le_of_measure {Kind : ε → Prop} (measure : σ → ℕ)
    (hstep : ∀ s e s', Kind e → step s e = some s' → measure s' < measure s) {s s' : σ}
    {es : List ε} (hkind : ∀ e ∈ es, Kind e) (hrun : run step s es = some s') :
    es.length ≤ measure s := by
  induction es generalizing s with
  | nil => exact Nat.zero_le _
  | cons e es ih =>
    obtain ⟨m, hm, hrest⟩ := run_cons.mp hrun
    have hlt := hstep s e m (hkind e List.mem_cons_self) hm
    have hle := ih (fun e' he' => hkind e' (List.mem_cons_of_mem _ he')) hrest
    rw [List.length_cons]
    omega

end TransitionRun
