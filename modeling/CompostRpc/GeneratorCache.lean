import Mathlib.Logic.Function.Basic
import Mathlib.Data.List.Nodup
import CompostRpc.PackPayload
import CompostRpc.MsgProcess
import CompostRpc.TransitionRun

/-!
# The caches of the generator

`Generator` wraps the `generate` methods of its code generators: it keeps what they return and
remembers for each path which call has returned it. The paths of a call are remembered one after the
other before its output is kept, a conflict ends this halfway, and a `with` block drops the outputs
alone, so that the two dictionaries can part.
-/

namespace CompostRpc
open TransitionRun

structure CodeGenerator where
  id : ℕ
  name : String
  deriving DecidableEq

structure OutputKey where
  generator : CodeGenerator
  endpoint : Endpoint
  deriving DecidableEq

def OutputKey.asInfoStr (key : OutputKey) : String :=
  key.generator.name ++ " (endpoint: " ++
    (match key.endpoint with
      | .remote => "remote"
      | .local => "local") ++ ")"

/-- What a call of `generate` raises: an exception of the code generator or a `ValueError`. -/
inductive GenerateError
  | raised (e : PyError)
  | duplicate (key : OutputKey)
  | conflict (key other : OutputKey)
  deriving DecidableEq

def GenerateError.message : GenerateError → Option String
  | raised _ => none
  | duplicate key => some ("Duplicate generate() call for " ++ key.generator.name ++
      " generator detected. Either change target endpoint or use different instance.")
  | conflict key other => some (key.asInfoStr ++
      " generator is trying to write to same files as " ++ other.asInfoStr ++ ".")

abbrev Output (Path : Type) := List (Path × String)

structure Generator (Path : Type) where
  outputCache : OutputKey → Option (Output Path)
  pathCache : Path → Option OutputKey
  inWithContext : Bool

namespace Generator

variable {Path : Type} [DecidableEq Path]

def init : Generator Path := ⟨fun _ => none, fun _ => none, false⟩

/-- The loop over the paths of an output: the key that an already remembered path belongs to, and
the dictionary as it is then. -/
def registerPaths (key : OutputKey) :
    Output Path → (Path → Option OutputKey) → Option OutputKey × (Path → Option OutputKey)
  | [], cache => (none, cache)
  | (path, _) :: rest, cache =>
    match cache path with
    | some conflict => (some conflict, cache)
    | none => registerPaths key rest (Function.update cache path (some key))

/-- The wrapper around `generate`; `result` is what the code generator returns or raises. -/
def generate (g : Generator Path) (key : OutputKey) (result : Except PyError (Output Path)) :
    Except GenerateError (Output Path) × Generator Path :=
  match result with
  | .error e => (.error (.raised e), g)
  | .ok output =>
    if (g.outputCache key).isSome then (.error (.duplicate key), g)
    else
      match registerPaths key output g.pathCache with
      | (some conflict, paths) => (.error (.conflict key conflict), { g with pathCache := paths })
      | (none, paths) =>
        (.ok output, { g with
          outputCache := Function.update g.outputCache key (some output), pathCache := paths })

def enter (g : Generator Path) : Generator Path :=
  { g with inWithContext := true, outputCache := fun _ => none }

/-- `__exit__`; `run` writes the kept outputs to their files and changes no dictionary. -/
def exit (g : Generator Path) : Generator Path := { g with inWithContext := false }

inductive Event (Path : Type)
  | generate (key : OutputKey) (result : Except PyError (Output Path))
  | enter
  | exit
  | run

def step (g : Generator Path) : Event Path → Option (Generator Path)
  | .generate key result => some (g.generate key result).2
  | .enter => some g.enter
  | .exit => some g.exit
  | .run => some g

/-- The remembered paths are exactly the paths of the kept outputs, each with the key of the output
that contains it. -/
def Consistent (g : Generator Path) : Prop :=
  ∀ path key, g.pathCache path = some key ↔
    ∃ output, g.outputCache key = some output ∧ path ∈ output.map Prod.fst

def Fresh (cache : Path → Option OutputKey) (output : Output Path) : Prop :=
  (output.map Prod.fst).Nodup ∧ ∀ path ∈ output.map Prod.fst, cache path = none

/-- A call that is rejected with a conflict changes neither dictionary, and with paths that are
different and in no kept output it is accepted afterwards. -/
def RejectsCleanly (g : Generator Path) : Event Path → Prop
  | .generate key result =>
    (∃ conflict, (g.generate key result).1 = .error (.conflict key conflict)) →
      (g.generate key result).2.outputCache = g.outputCache ∧
      (g.generate key result).2.pathCache = g.pathCache ∧
      ∀ output : Output Path, (output.map Prod.fst).Nodup →
        (∀ key' kept, g.outputCache key' = some kept →
          ∀ path ∈ output.map Prod.fst, path ∉ kept.map Prod.fst) →
        ((g.generate key result).2.generate key (.ok output)).1 = .ok output
  | _ => True

/-- A `with` block is entered while no path is remembered, and an output that is not a duplicate has
only fresh paths or a first path that is remembered already. -/
def KeepsCaches (g : Generator Path) : Event Path → Prop
  | .generate key (.ok output) => g.outputCache key = none →
    Fresh g.pathCache output ∨
      ∃ first rest, output = first :: rest ∧ ∃ conflict, g.pathCache first.1 = some conflict
  | .generate _ (.error _) => True
  | .enter => ∀ path, g.pathCache path = none
  | .exit | .run => True

omit [DecidableEq Path] in
theorem consistent_init : Consistent (init : Generator Path) := by
  intro path key
  exact iff_of_false (fun h => nomatch h) fun ⟨_, h, _⟩ => nomatch h

/-- A remembered path stays remembered. -/
theorem registerPaths_of_eq_some {key k : OutputKey} {path : Path} (output : Output Path)
    {cache : Path → Option OutputKey} (h : cache path = some k) :
    (registerPaths key output cache).2 path = some k := by
  induction output generalizing cache with
  | nil => exact h
  | cons file rest ih =>
    obtain ⟨path', text⟩ := file
    rw [registerPaths]
    cases hfirst : cache path' with
    | some conflict => exact h
    | none =>
      have hne : path ≠ path' := by
        rintro rfl
        rw [hfirst] at h
        cases h
      apply ih
      rw [Function.update_of_ne hne]
      exact h

theorem registerPaths_cons_of_eq_none {key : OutputKey} {file : Path × String} {rest : Output Path}
    {cache : Path → Option OutputKey} (h : cache file.1 = none) :
    registerPaths key (file :: rest) cache =
      registerPaths key rest (Function.update cache file.1 (some key)) := by
  rw [registerPaths, h]

theorem registerPaths_cons_of_eq_some {key conflict : OutputKey} {file : Path × String}
    {rest : Output Path} {cache : Path → Option OutputKey} (h : cache file.1 = some conflict) :
    registerPaths key (file :: rest) cache = (some conflict, cache) := by
  rw [registerPaths, h]

theorem fresh_cons_iff {key : OutputKey} {file : Path × String} {rest : Output Path}
    {cache : Path → Option OutputKey} (h : cache file.1 = none) :
    Fresh cache (file :: rest) ↔ Fresh (Function.update cache file.1 (some key)) rest := by
  have hupdate : ∀ path, Function.update cache file.1 (some key) path = none ↔
      path ≠ file.1 ∧ cache path = none := by
    intro path
    by_cases heq : path = file.1
    · subst heq
      rw [Function.update_self]
      exact iff_of_false (Option.some_ne_none key) fun h => h.1 rfl
    · rw [Function.update_of_ne heq]
      exact (and_iff_right heq).symm
  rw [Fresh, Fresh, List.map_cons, List.nodup_cons, List.forall_mem_cons]
  constructor
  · rintro ⟨⟨hnew, hnodup⟩, -, hnone⟩
    refine ⟨hnodup, fun path hpath => (hupdate path).mpr ⟨?_, hnone path hpath⟩⟩
    rintro rfl
    exact hnew hpath
  · rintro ⟨hnodup, hnone⟩
    refine ⟨⟨fun hmem => ?_, hnodup⟩, h, fun path hpath => ?_⟩
    · exact ((hupdate _).mp (hnone _ hmem)).1 rfl
    · exact ((hupdate path).mp (hnone path hpath)).2

/-- The loop ends without a conflict exactly if all paths are fresh. -/
theorem registerPaths_eq_none_iff (key : OutputKey) (output : Output Path)
    (cache : Path → Option OutputKey) :
    (registerPaths key output cache).1 = none ↔ Fresh cache output := by
  induction output generalizing cache with
  | nil => exact iff_of_true rfl ⟨List.nodup_nil, fun path h => absurd h List.not_mem_nil⟩
  | cons file rest ih =>
    cases hfirst : cache file.1 with
    | none =>
      rw [registerPaths_cons_of_eq_none hfirst, ih, ← fresh_cons_iff hfirst]
    | some conflict =>
      rw [registerPaths_cons_of_eq_some hfirst]
      refine iff_of_false (Option.some_ne_none conflict) fun h => ?_
      have hnone := h.2 file.1 List.mem_cons_self
      rw [hfirst] at hnone
      cases hnone

/-- Then it has added the paths of the output under its key. -/
theorem registerPaths_eq_some_iff {key : OutputKey} {output : Output Path}
    {cache : Path → Option OutputKey} (h : Fresh cache output) (path : Path) (k : OutputKey) :
    (registerPaths key output cache).2 path = some k ↔
      cache path = some k ∨ k = key ∧ path ∈ output.map Prod.fst := by
  induction output generalizing cache with
  | nil => exact ⟨.inl, fun h => h.resolve_right fun h => absurd h.2 List.not_mem_nil⟩
  | cons file rest ih =>
    have hfirst := h.2 file.1 List.mem_cons_self
    rw [registerPaths_cons_of_eq_none hfirst, ih ((fresh_cons_iff hfirst).mp h), List.map_cons,
      List.mem_cons]
    by_cases heq : path = file.1
    · subst heq
      rw [Function.update_self, hfirst, Option.some_inj]
      constructor
      · rintro (rfl | ⟨rfl, -⟩)
        · exact .inr ⟨rfl, .inl rfl⟩
        · exact .inr ⟨rfl, .inl rfl⟩
      · rintro (hnone | ⟨rfl, -⟩)
        · cases hnone
        · exact .inl rfl
    · rw [Function.update_of_ne heq, or_iff_right heq]

theorem generate_duplicate {g : Generator Path} {key : OutputKey} {kept : Output Path}
    (hkey : g.outputCache key = some kept) (output : Output Path) :
    g.generate key (.ok output) = (.error (.duplicate key), g) := by
  rw [generate, hkey]
  rfl

theorem generate_fresh {g : Generator Path} {key : OutputKey} {output : Output Path}
    (hkey : g.outputCache key = none) (hfresh : Fresh g.pathCache output) :
    g.generate key (.ok output) = (.ok output, { g with
      outputCache := Function.update g.outputCache key (some output)
      pathCache := (registerPaths key output g.pathCache).2 }) := by
  have hnone := (registerPaths_eq_none_iff key output g.pathCache).mpr hfresh
  have hregister : registerPaths key output g.pathCache =
      (none, (registerPaths key output g.pathCache).2) := Prod.ext hnone rfl
  rw [generate, hkey, hregister]
  rfl

/-- The paths that have been remembered in front of a conflict stay remembered. -/
theorem generate_conflict {g : Generator Path} {key : OutputKey} {output : Output Path}
    (hkey : g.outputCache key = none) (hfresh : ¬ Fresh g.pathCache output) :
    ∃ conflict, g.generate key (.ok output) = (.error (.conflict key conflict),
      { g with pathCache := (registerPaths key output g.pathCache).2 }) := by
  have hsome := (registerPaths_eq_none_iff key output g.pathCache).not.mpr hfresh
  obtain ⟨conflict, hconflict⟩ := Option.ne_none_iff_exists'.mp hsome
  have hregister : registerPaths key output g.pathCache =
      (some conflict, (registerPaths key output g.pathCache).2) := Prod.ext hconflict rfl
  refine ⟨conflict, ?_⟩
  rw [generate, hkey, hregister]
  rfl

theorem Consistent.generate_fresh {g : Generator Path} (hg : Consistent g) {key : OutputKey}
    {output : Output Path} (hkey : g.outputCache key = none) (hfresh : Fresh g.pathCache output) :
    Consistent (g.generate key (.ok output)).2 := by
  intro path k
  rw [Generator.generate_fresh hkey hfresh]
  simp only
  rw [registerPaths_eq_some_iff hfresh, hg path k]
  by_cases heq : k = key
  · subst heq
    rw [Function.update_self, hkey]
    constructor
    · rintro (⟨kept, hkept, -⟩ | ⟨-, hmem⟩)
      · cases hkept
      · exact ⟨output, rfl, hmem⟩
    · rintro ⟨kept, hkept, hmem⟩
      obtain rfl := Option.some.inj hkept
      exact .inr ⟨rfl, hmem⟩
  · rw [Function.update_of_ne heq]
    exact or_iff_left fun h => heq h.1

/-- A conflict at the first path changes nothing. -/
theorem generate_conflict_first {g : Generator Path} {key conflict : OutputKey}
    {first : Path × String} {rest : Output Path} (hkey : g.outputCache key = none)
    (hfirst : g.pathCache first.1 = some conflict) :
    g.generate key (.ok (first :: rest)) = (.error (.conflict key conflict), g) := by
  simp only [generate, hkey, registerPaths_cons_of_eq_some hfirst]
  rfl

/-- A later one leaves the first path remembered, with no output that contains it. -/
theorem not_consistent_of_conflict {g : Generator Path} {key : OutputKey} {output : Output Path}
    (hkey : g.outputCache key = none) (hfresh : ¬ Fresh g.pathCache output)
    (hfirst : ¬ ∃ first rest, output = first :: rest ∧
      ∃ conflict, g.pathCache first.1 = some conflict) :
    ¬ Consistent (g.generate key (.ok output)).2 := by
  intro hconsistent
  obtain ⟨conflict, hgenerate⟩ := generate_conflict hkey hfresh
  cases output with
  | nil => exact hfresh ⟨List.nodup_nil, fun path h => absurd h List.not_mem_nil⟩
  | cons first rest =>
    have hnone : g.pathCache first.1 = none := by
      by_contra hsome
      exact hfirst ⟨first, rest, rfl, Option.ne_none_iff_exists'.mp hsome⟩
    have hstays : (g.generate key (.ok (first :: rest))).2.pathCache first.1 = some key := by
      rw [hgenerate, registerPaths_cons_of_eq_none hnone]
      apply registerPaths_of_eq_some
      exact Function.update_self ..
    obtain ⟨kept, hkept, -⟩ := (hconsistent first.1 key).mp hstays
    rw [hgenerate, hkey] at hkept
    cases hkept

omit [DecidableEq Path] in
/-- With consistent caches a call whose paths are in no kept output is accepted. -/
theorem Consistent.fresh {g : Generator Path} (hg : Consistent g) {output : Output Path}
    (hnodup : (output.map Prod.fst).Nodup)
    (hnew : ∀ key kept, g.outputCache key = some kept →
      ∀ path ∈ output.map Prod.fst, path ∉ kept.map Prod.fst) : Fresh g.pathCache output := by
  refine ⟨hnodup, fun path hpath => ?_⟩
  by_contra hsome
  obtain ⟨key, hkey⟩ := Option.ne_none_iff_exists'.mp hsome
  obtain ⟨kept, hkept, hmem⟩ := (hg path key).mp hkey
  exact hnew key kept hkept path hpath hmem

theorem Consistent.step {g g' : Generator Path} (hg : Consistent g) {e : Event Path}
    (hstep : g.step e = some g') (hkeeps : g.KeepsCaches e) : Consistent g' := by
  cases e with
  | generate key result =>
    obtain rfl := Option.some.inj hstep
    cases result with
    | error e => exact hg
    | ok output =>
      cases hkey : g.outputCache key with
      | some kept =>
        rw [generate_duplicate hkey]
        exact hg
      | none =>
        rcases hkeeps hkey with hfresh | ⟨first, rest, rfl, conflict, hfirst⟩
        · exact hg.generate_fresh hkey hfresh
        · rw [generate_conflict_first hkey hfirst]
          exact hg
  | enter =>
    obtain rfl := Option.some.inj hstep
    intro path key
    refine iff_of_false (fun h => ?_) fun ⟨_, h, _⟩ => nomatch h
    rw [show g.enter.pathCache path = none from hkeeps path] at h
    cases h
  | exit | run =>
    obtain rfl := Option.some.inj hstep
    exact hg

theorem not_consistent_step {g g' : Generator Path} {e : Event Path}
    (hstep : g.step e = some g') (hkeeps : ¬ g.KeepsCaches e) : ¬ Consistent g' := by
  cases e with
  | generate key result =>
    obtain rfl := Option.some.inj hstep
    cases result with
    | error e => exact absurd trivial hkeeps
    | ok output =>
      obtain ⟨hkey, hnot⟩ := Classical.not_imp.mp hkeeps
      obtain ⟨hfresh, hfirst⟩ := not_or.mp hnot
      exact not_consistent_of_conflict hkey hfresh hfirst
  | enter =>
    obtain rfl := Option.some.inj hstep
    obtain ⟨path, hpath⟩ := not_forall.mp hkeeps
    obtain ⟨key, hkey⟩ := Option.ne_none_iff_exists'.mp hpath
    intro hconsistent
    obtain ⟨output, houtput, -⟩ := (hconsistent path key).mp hkey
    cases houtput
  | exit | run => exact absurd trivial hkeeps

theorem Consistent.rejectsCleanly {g : Generator Path} (hg : Consistent g) {e : Event Path}
    (hkeeps : g.KeepsCaches e) : g.RejectsCleanly e := by
  cases e with
  | generate key result =>
    rintro ⟨conflict, hconflict⟩
    cases result with
    | error e => cases hconflict
    | ok output =>
      cases hkey : g.outputCache key with
      | some kept =>
        rw [generate_duplicate hkey] at hconflict
        cases hconflict
      | none =>
        rcases hkeeps hkey with hfresh | ⟨first, rest, rfl, other, hfirst⟩
        · rw [Generator.generate_fresh hkey hfresh] at hconflict
          cases hconflict
        · rw [generate_conflict_first hkey hfirst]
          refine ⟨rfl, rfl, fun output hnodup hnew => ?_⟩
          exact congrArg Prod.fst (Generator.generate_fresh hkey (hg.fresh hnodup hnew))
  | enter | exit | run => trivial

theorem exists_run_step (g : Generator Path) (es : List (Event Path)) :
    ∃ g', TransitionRun.run Generator.step g es = some g' :=
  exists_run (fun g e => by cases e <;> exact ⟨_, rfl⟩) g es

/-- In a sequence of operations the caches are consistent throughout, with every conflict rejected
cleanly, exactly if no `with` block is entered while paths are remembered and every conflict is at
the first path. -/
theorem caches_consistent_iff (es : List (Event Path)) :
    Throughout Generator.step Consistent init es ∧ Along Generator.step RejectsCleanly init es ↔
      Along Generator.step KeepsCaches init es := by
  obtain ⟨g', hrun⟩ := exists_run_step init es
  have hthroughout := @throughout_iff_along _ _ Generator.step (@Consistent Path) Consistent
    KeepsCaches (fun _ h => h) (fun _ _ _ h hstep hkeeps => h.step hstep hkeeps)
    (fun _ _ _ _ hstep hkeeps => not_consistent_step hstep hkeeps) _ _ es consistent_init hrun
  constructor
  · rintro ⟨hconsistent, -⟩
    exact hthroughout.mp hconsistent
  · intro hkeeps
    refine ⟨hthroughout.mpr hkeeps, ?_⟩
    exact hkeeps.imp_of_invariant (fun _ _ _ h hkeeps hstep => h.step hstep hkeeps)
      (fun _ _ h hkeeps => h.rejectsCleanly hkeeps) consistent_init

def cGenerator : CodeGenerator := ⟨0, "C"⟩

def csharpGenerator : CodeGenerator := ⟨1, "C#"⟩

/-- A second `with` block, and a rejected call with another path of the header, which is then in
conflict with the rejected call itself. -/
theorem not_consistent_second_block :
    ¬ Throughout Generator.step Consistent (init : Generator String)
        [.enter, .generate ⟨cGenerator, .remote⟩ (.ok [("Demo.h", ""), ("Demo.c", "")]), .exit,
          .enter] ∧
      ¬ Along Generator.step RejectsCleanly (init : Generator String)
        [.generate ⟨cGenerator, .remote⟩ (.ok [("Demo.h", ""), ("Demo.c", "")]),
          .generate ⟨cGenerator, .local⟩ (.ok [("include/Demo.h", ""), ("Demo.c", "")])] := by
  constructor
  · intro h
    have hlast := (((h.2 _ rfl).2 _ rfl).2 _ rfl).2 _ rfl
    obtain ⟨output, houtput, -⟩ := (hlast "Demo.h" ⟨cGenerator, .remote⟩).mp (by decide)
    cases houtput
  · intro h
    obtain ⟨-, hpath, -⟩ := (h.2 _ rfl).1 ⟨⟨cGenerator, .remote⟩, by decide⟩
    exact absurd (congrFun hpath "include/Demo.h") (by decide)

end Generator
end CompostRpc
