import Mathlib.Data.List.Flatten
import Mathlib.Data.List.Pairwise
import CompostRpc.GeneratorCache

/-!
# Writing the generated files

`Generator.run` asks before it overwrites files that exist, and writes the kept outputs. The answer
names languages, with their endpoint where a generator has been called for both; every kept output
is written as a whole or not at all.
-/

namespace CompostRpc
open TransitionRun

namespace Generator

variable {Path : Type}

def generators : List CodeGenerator := [cGenerator, csharpGenerator]

def shortName (gen : CodeGenerator) : String := if gen = cGenerator then "c" else "cs"

def endpointName : Endpoint → String
  | .remote => "remote"
  | .local => "local"

def asTypedStr (key : OutputKey) (withEndpoint : Bool) : String :=
  shortName key.generator ++ if withEndpoint then "_" ++ endpointName key.endpoint else ""

abbrev Items (Path : Type) := List (OutputKey × Output Path)

def verboseLoop : List String → (String → Option Bool) → String → Option Bool
  | [], verbose => verbose
  | langName :: names, verbose =>
    match verbose langName with
    | none => verboseLoop names (Function.update verbose langName (some false))
    | some false => verboseLoop names (Function.update verbose langName (some true))
    | some true => verboseLoop names verbose

def shortNames (items : Items Path) : List String :=
  items.map fun item => shortName item.1.generator

def isVerbose (items : Items Path) (gen : CodeGenerator) : Bool :=
  verboseLoop (shortNames items) (fun _ => none) (shortName gen) = some true

def label (items : Items Path) (key : OutputKey) : String :=
  asTypedStr key (isVerbose items key.generator)

def seen : Option Bool → ℕ
  | none => 0
  | some false => 1
  | some true => 2

/-- A name that occurs twice is verbose. -/
theorem verboseLoop_eq_true {langName : String} (names : List String)
    {verbose : String → Option Bool} (h : 2 ≤ seen (verbose langName) + names.count langName) :
    verboseLoop names verbose langName = some true := by
  induction names generalizing verbose with
  | nil =>
    rw [List.count_nil, Nat.add_zero] at h
    rw [verboseLoop]
    rcases hseen : verbose langName with _ | _ | _
    · rw [hseen] at h
      exact absurd h (by decide)
    · rw [hseen] at h
      exact absurd h (by decide)
    · rfl
  | cons name names ih =>
    rw [verboseLoop]
    rcases eq_or_ne name langName with rfl | hne
    · rw [List.count_cons_self] at h
      rcases hseen : verbose name with _ | _ | _ <;> rw [hseen] at h <;> apply ih
      · rw [Function.update_self]
        exact h.trans (by simp only [seen]; omega)
      · rw [Function.update_self]
        exact h.trans (by simp only [seen]; omega)
      · rw [hseen]
        exact Nat.le_add_right _ _
    · rw [List.count_cons_of_ne hne] at h
      cases verbose name with
      | none =>
        apply ih
        rwa [Function.update_of_ne hne.symm]
      | some twice =>
        cases twice with
        | false =>
          apply ih
          rwa [Function.update_of_ne hne.symm]
        | true => exact ih h

theorem isVerbose_of_two {items : Items Path} {key key' : OutputKey}
    (hkey : key ∈ items.map Prod.fst) (hkey' : key' ∈ items.map Prod.fst) (hne : key ≠ key')
    (hgen : key'.generator = key.generator) : isVerbose items key.generator = true := by
  have hnames : shortNames items = (items.map Prod.fst).map fun k => shortName k.generator := by
    rw [shortNames, List.map_map]
    rfl
  have hperm := (List.perm_cons_erase hkey).map fun k => shortName k.generator
  have hother : key' ∈ (items.map Prod.fst).erase key :=
    (List.mem_erase_of_ne hne.symm).mpr hkey'
  have hmem : shortName key.generator ∈
      ((items.map Prod.fst).erase key).map fun k => shortName k.generator := by
    rw [← hgen]
    exact List.mem_map_of_mem hother
  rw [isVerbose, decide_eq_true_eq]
  apply verboseLoop_eq_true
  rw [hnames, hperm.count_eq, List.map_cons, List.count_cons_self, seen]
  have hcount := List.count_pos_iff.mpr hmem
  omega

/-- Labels with the endpoint of one generator, or of different ones, are different. -/
theorem asTypedStr_inj {key key' : OutputKey} (hkey : key.generator ∈ generators)
    (hkey' : key'.generator ∈ generators) {withEndpoint withEndpoint' : Bool}
    (hverbose : key ≠ key' → key'.generator = key.generator →
      withEndpoint = true ∧ withEndpoint' = true)
    (h : asTypedStr key withEndpoint = asTypedStr key' withEndpoint') : key = key' := by
  by_contra hne
  obtain ⟨gen, endpoint⟩ := key
  obtain ⟨gen', endpoint'⟩ := key'
  simp only [generators, List.mem_cons, List.not_mem_nil, or_false] at hkey hkey'
  rcases hkey with rfl | rfl <;> rcases hkey' with rfl | rfl
  · obtain ⟨rfl, rfl⟩ := hverbose hne rfl
    cases endpoint <;> cases endpoint'
    · exact hne rfl
    · exact absurd h (by decide)
    · exact absurd h (by decide)
    · exact hne rfl
  · revert h
    cases endpoint <;> cases endpoint' <;> cases withEndpoint <;> cases withEndpoint' <;> decide
  · revert h
    cases endpoint <;> cases endpoint' <;> cases withEndpoint <;> cases withEndpoint' <;> decide
  · obtain ⟨rfl, rfl⟩ := hverbose hne rfl
    cases endpoint <;> cases endpoint'
    · exact hne rfl
    · exact absurd h (by decide)
    · exact absurd h (by decide)
    · exact hne rfl

/-- A label names one of the outputs. -/
theorem label_inj {items : Items Path}
    (hgenerators : ∀ key ∈ items.map Prod.fst, key.generator ∈ generators) {key key' : OutputKey}
    (hkey : key ∈ items.map Prod.fst) (hkey' : key' ∈ items.map Prod.fst)
    (h : label items key = label items key') : key = key' := by
  apply asTypedStr_inj (hgenerators key hkey) (hgenerators key' hkey') ?_ h
  intro hne hgen
  exact ⟨isVerbose_of_two hkey hkey' hne hgen,
    isVerbose_of_two hkey' hkey hne.symm hgen.symm⟩

/-- A line that the user types: the texts between the commas, in lower case and stripped. -/
structure TypedLine where
  first : String
  others : List String

def TypedLine.texts (line : TypedLine) : List String := line.first :: line.others

def overwriteResponse (langsTyped : List String) (line : TypedLine) : List String :=
  if line.others ≠ [] then line.texts
  else if line.first = "a" ∨ line.first = "all" then langsTyped
  else if line.first = "" ∨ line.first = "n" ∨ line.first = "none" then []
  else line.texts

def askOverwrite (langsTyped : List String) : List TypedLine → Option (List String)
  | [] => none
  | line :: lines =>
    if ∀ x ∈ overwriteResponse langsTyped line, x ∈ langsTyped then
      some (overwriteResponse langsTyped line)
    else askOverwrite langsTyped lines

def Refuses (line : TypedLine) : Prop := line.others = [] ∧ line.first ∈ ["", "n", "none"]

def SelectsAll (line : TypedLine) : Prop := line.others = [] ∧ line.first ∈ ["a", "all"]

theorem overwriteResponse_all {line : TypedLine} (h : SelectsAll line) (langsTyped : List String) :
    overwriteResponse langsTyped line = langsTyped := by
  have hfirst : line.first = "a" ∨ line.first = "all" := by
    simpa only [List.mem_cons, List.not_mem_nil, or_false] using h.2
  rw [overwriteResponse, if_neg (not_not.mpr h.1), if_pos hfirst]

theorem overwriteResponse_none {line : TypedLine} (h : Refuses line) (langsTyped : List String) :
    overwriteResponse langsTyped line = [] := by
  obtain ⟨hothers, hfirst⟩ := h
  simp only [List.mem_cons, List.not_mem_nil, or_false] at hfirst
  have hall : ¬ (line.first = "a" ∨ line.first = "all") := by
    rcases hfirst with h | h | h <;> rw [h] <;> decide
  rw [overwriteResponse, if_neg (not_not.mpr hothers), if_neg hall, if_pos hfirst]

theorem overwriteResponse_texts {line : TypedLine} (hall : ¬ SelectsAll line)
    (hnone : ¬ Refuses line) (langsTyped : List String) :
    overwriteResponse langsTyped line = line.texts := by
  simp only [SelectsAll, Refuses, List.mem_cons, List.not_mem_nil, or_false] at hall hnone
  rw [overwriteResponse]
  split_ifs with hothers hfirst hfirst
  · rfl
  · exact absurd ⟨not_not.mp hothers, hfirst⟩ hall
  · exact absurd ⟨not_not.mp hothers, hfirst⟩ hnone
  · rfl

def Understood (langsTyped : List String) (line : TypedLine) : Prop :=
  SelectsAll line ∨ Refuses line ∨ ∀ x ∈ line.texts, x ∈ langsTyped

def Answer (langsTyped : List String) (lines : List TypedLine) (line : TypedLine) : Prop :=
  ∃ before after, lines = before ++ line :: after ∧
    (∀ l ∈ before, ¬ Understood langsTyped l) ∧ Understood langsTyped line

theorem understood_iff (langsTyped : List String) (line : TypedLine) :
    Understood langsTyped line ↔
      ∀ x ∈ overwriteResponse langsTyped line, x ∈ langsTyped := by
  by_cases hall : SelectsAll line
  · rw [overwriteResponse_all hall]
    exact iff_of_true (.inl hall) fun _ h => h
  · by_cases hnone : Refuses line
    · rw [overwriteResponse_none hnone]
      exact iff_of_true (.inr (.inl hnone)) fun _ h => absurd h List.not_mem_nil
    · rw [overwriteResponse_texts hall hnone, Understood, or_iff_right hall, or_iff_right hnone]

theorem askOverwrite_eq_some_iff {langsTyped response : List String} {lines : List TypedLine} :
    askOverwrite langsTyped lines = some response ↔
      ∃ line, Answer langsTyped lines line ∧ response = overwriteResponse langsTyped line := by
  induction lines with
  | nil =>
    refine iff_of_false (fun h => by cases h) ?_
    rintro ⟨line, ⟨before, after, h, -⟩, -⟩
    cases before <;> cases h
  | cons line lines ih =>
    rw [askOverwrite]
    by_cases hline : Understood langsTyped line
    · rw [if_pos ((understood_iff _ _).mp hline), Option.some_inj]
      constructor
      · rintro rfl
        exact ⟨line, ⟨[], lines, rfl, fun l h => absurd h List.not_mem_nil, hline⟩, rfl⟩
      · rintro ⟨line', ⟨before, after, hlines, hbefore, -⟩, rfl⟩
        cases before with
        | nil =>
          cases hlines
          rfl
        | cons l before =>
          cases hlines
          exact absurd hline (hbefore _ List.mem_cons_self)
    · rw [if_neg fun h => hline ((understood_iff _ _).mpr h), ih]
      refine exists_congr fun line' => and_congr_left fun _ => ?_
      constructor
      · rintro ⟨before, after, rfl, hbefore, hline'⟩
        exact ⟨line :: before, after, rfl, List.forall_mem_cons.mpr ⟨hline, hbefore⟩, hline'⟩
      · rintro ⟨before, after, hlines, hbefore, hline'⟩
        cases before with
        | nil =>
          cases hlines
          exact absurd hline' hline
        | cons l before =>
          cases hlines
          exact ⟨before, after, rfl, fun l h => hbefore l (List.mem_cons_of_mem _ h), hline'⟩

abbrev Files (Path : Type) := Path → Option String

def hasExisting (files : Files Path) (output : Output Path) : Bool :=
  output.any fun file => (files file.1).isSome

def toOverwrite (files : Files Path) (items : Items Path) : List OutputKey :=
  (items.filter fun item => hasExisting files item.2).map Prod.fst

def paths (items : Items Path) : List Path := items.flatMap fun item => item.2.map Prod.fst

theorem paths_filter (p : OutputKey × Output Path → Bool) (items : Items Path) :
    ((items.filter p).flatMap Prod.snd).map Prod.fst = paths (items.filter p) := by
  rw [List.map_flatMap, paths]

theorem mem_paths {items : Items Path} {path : Path} :
    path ∈ paths items ↔ ∃ item ∈ items, path ∈ item.2.map Prod.fst := List.mem_flatMap

/-- A path belongs to one output. -/
theorem eq_of_mem_paths {items : Items Path} (hnodup : (paths items).Nodup)
    {item item' : OutputKey × Output Path} (hitem : item ∈ items) (hitem' : item' ∈ items)
    {path : Path} (hpath : path ∈ item.2.map Prod.fst) (hpath' : path ∈ item'.2.map Prod.fst) :
    item = item' := by
  obtain ⟨-, hdisjoint⟩ := List.nodup_flatMap.mp hnodup
  have : Std.Symm (Function.onFun List.Disjoint
      fun item : OutputKey × Output Path => item.2.map Prod.fst) :=
    ⟨fun _ _ h _ hpath hpath' => h hpath' hpath⟩
  by_contra hne
  exact hdisjoint.forall hitem hitem' hne hpath hpath'

theorem nodup_paths_filter {items : Items Path} (hnodup : (paths items).Nodup)
    (p : OutputKey × Output Path → Bool) : (paths (items.filter p)).Nodup :=
  hnodup.sublist (List.Sublist.flatMap List.filter_sublist _)

variable [DecidableEq Path]

def writeOutput (files : Files Path) (output : Output Path) : Files Path :=
  output.foldl (fun files file => Function.update files file.1 (some file.2)) files

def writeOutputs (skips : OutputKey → Bool) (files : Files Path) : Items Path → Files Path
  | [] => files
  | (key, output) :: rest =>
    if skips key then writeOutputs skips files rest
    else writeOutputs skips (writeOutput files output) rest

theorem writeOutput_of_not_mem {files : Files Path} {output : Output Path} {path : Path}
    (h : path ∉ output.map Prod.fst) : writeOutput files output path = files path := by
  induction output generalizing files with
  | nil => rfl
  | cons file rest ih =>
    rw [List.map_cons, List.mem_cons, not_or] at h
    exact (ih h.2).trans (Function.update_of_ne h.1 _ _)

theorem writeOutput_of_mem {files : Files Path} {output : Output Path}
    (hnodup : (output.map Prod.fst).Nodup) {file : Path × String} (h : file ∈ output) :
    writeOutput files output file.1 = some file.2 := by
  induction output generalizing files with
  | nil => cases h
  | cons first rest ih =>
    obtain ⟨hnew, hrest⟩ := List.nodup_cons.mp hnodup
    rcases List.mem_cons.mp h with rfl | hmem
    · exact (writeOutput_of_not_mem hnew).trans (Function.update_self ..)
    · exact ih hrest hmem

/-- All files that are written, one after the other. -/
theorem writeOutputs_eq (skips : OutputKey → Bool) (files : Files Path) (items : Items Path) :
    writeOutputs skips files items =
      writeOutput files ((items.filter fun item => !skips item.1).flatMap Prod.snd) := by
  induction items generalizing files with
  | nil => rfl
  | cons item rest ih =>
    obtain ⟨key, output⟩ := item
    rw [writeOutputs]
    cases hskips : skips key with
    | true =>
      rw [if_pos rfl, ih, List.filter_cons_of_neg (by simp [hskips])]
    | false =>
      rw [if_neg Bool.false_ne_true, ih, List.filter_cons_of_pos (by simp [hskips]),
        List.flatMap_cons, writeOutput, writeOutput, writeOutput, List.foldl_append]

theorem writeOutputs_of_mem {skips : OutputKey → Bool} {files : Files Path} {items : Items Path}
    (hnodup : (paths items).Nodup) {item : OutputKey × Output Path} (hitem : item ∈ items)
    (hwrites : skips item.1 = false) {file : Path × String} (hfile : file ∈ item.2) :
    writeOutputs skips files items file.1 = some file.2 := by
  rw [writeOutputs_eq]
  apply writeOutput_of_mem
  · rw [paths_filter]
    exact nodup_paths_filter hnodup _
  · refine List.mem_flatMap.mpr ⟨item, List.mem_filter.mpr ⟨hitem, ?_⟩, hfile⟩
    rw [hwrites]
    rfl

/-- A file keeps its text if no output that is written has its path. -/
theorem writeOutputs_of_forall {skips : OutputKey → Bool} {files : Files Path} {items : Items Path}
    {path : Path} (h : ∀ item ∈ items, path ∈ item.2.map Prod.fst → skips item.1 = true) :
    writeOutputs skips files items path = files path := by
  rw [writeOutputs_eq]
  apply writeOutput_of_not_mem
  rw [paths_filter, mem_paths]
  rintro ⟨item, hitem, hpath⟩
  obtain ⟨hmem, hwrites⟩ := List.mem_filter.mp hitem
  rw [h item hmem hpath] at hwrites
  cases hwrites

end Generator

open Generator

structure GeneratorFiles (Path : Type) where
  generator : Generator Path
  items : Items Path
  forceOverwrite : Bool
  files : Files Path

namespace GeneratorFiles

variable {Path : Type}

def init (files : Files Path) : GeneratorFiles Path := ⟨Generator.init, [], false, files⟩

def langsTyped (s : GeneratorFiles Path) : List String :=
  (toOverwrite s.files s.items).map (label s.items)

variable [DecidableEq Path]

def write (s : GeneratorFiles Path) (response : List String) : Files Path :=
  writeOutputs (fun key => key ∈ toOverwrite s.files s.items ∧ label s.items key ∉ response)
    s.files s.items

/-- The files after `run`; an `input` without a line raises an exception. -/
def run (s : GeneratorFiles Path) (lines : List TypedLine) : Files Path :=
  if s.generator.inWithContext then s.files
  else if toOverwrite s.files s.items = [] ∨ s.forceOverwrite then s.write s.langsTyped
  else
    match askOverwrite s.langsTyped lines with
    | none | some [] => s.files
    | some response => s.write response

/-- What happens to a `Generator` and to the files; `edit` is by other programs. -/
inductive Event (Path : Type)
  | generate (key : OutputKey) (result : Except PyError (Output Path))
  | enter
  | exit (lines : List TypedLine)
  | run (lines : List TypedLine)
  | force (value : Bool)
  | edit (path : Path) (text : Option String)

def generate (s : GeneratorFiles Path) (key : OutputKey) :
    Except GenerateError (Output Path) × Generator Path → GeneratorFiles Path
  | (.ok output, g) => { s with
    generator := g
    items := s.items ++ [(key, output)] }
  | (.error _, g) => { s with generator := g }

def exit (s : GeneratorFiles Path) : GeneratorFiles Path := { s with generator := s.generator.exit }

def step (s : GeneratorFiles Path) : Event Path → Option (GeneratorFiles Path)
  | .generate key result =>
    if key.generator ∈ generators then some (s.generate key (s.generator.generate key result))
    else none
  | .enter => some { s with
    generator := s.generator.enter
    items := [] }
  | .exit lines => some { s.exit with files := s.exit.run lines }
  | .run lines => some { s with files := s.run lines }
  | .force value => some { s with forceOverwrite := value }
  | .edit path text => some { s with files := Function.update s.files path text }

/-- No two kept outputs have a key or a path in common, and their paths are remembered. -/
structure Kept (s : GeneratorFiles Path) : Prop where
  cached : ∀ key ∈ s.items.map Prod.fst, (s.generator.outputCache key).isSome
  generators : ∀ key ∈ s.items.map Prod.fst, key.generator ∈ generators
  keys : (s.items.map Prod.fst).Nodup
  paths : (paths s.items).Nodup
  remembered : ∀ path ∈ Generator.paths s.items, (s.generator.pathCache path).isSome

omit [DecidableEq Path] in
theorem kept_init (files : Files Path) : Kept (init files) where
  cached := fun _ h => absurd h List.not_mem_nil
  generators := fun _ h => absurd h List.not_mem_nil
  keys := List.nodup_nil
  paths := List.nodup_nil
  remembered := fun _ h => absurd h List.not_mem_nil

/-- An output is kept only if it has no path in common with those that are kept already. -/
theorem Kept.generate_fresh {s : GeneratorFiles Path} (h : Kept s) {key : OutputKey}
    {output : Output Path} (hgenerator : key.generator ∈ Generator.generators)
    (hkey : s.generator.outputCache key = none) (hfresh : Fresh s.generator.pathCache output) :
    Kept (s.generate key (s.generator.generate key (.ok output))) := by
  obtain ⟨hnodup, hnew⟩ := hfresh
  have hadded := fun path k => @registerPaths_eq_some_iff _ _ key output _ ⟨hnodup, hnew⟩ path k
  have hpaths : Generator.paths (s.items ++ [(key, output)]) =
      Generator.paths s.items ++ output.map Prod.fst := by
    simp only [Generator.paths, List.flatMap_append, List.flatMap_cons, List.flatMap_nil,
      List.append_nil]
  have hkeys : (s.items ++ [(key, output)]).map Prod.fst = s.items.map Prod.fst ++ [key] :=
    List.map_append
  rw [Generator.generate_fresh hkey ⟨hnodup, hnew⟩]
  constructor
  · intro k hk
    change (Function.update s.generator.outputCache key (some output) k).isSome
    by_cases heq : k = key
    · rw [heq, Function.update_self]
      rfl
    · rw [Function.update_of_ne heq]
      change k ∈ (s.items ++ [(key, output)]).map Prod.fst at hk
      rw [hkeys, List.mem_append, List.mem_singleton] at hk
      exact h.cached k (hk.resolve_right heq)
  · intro k hk
    change k ∈ (s.items ++ [(key, output)]).map Prod.fst at hk
    rw [hkeys, List.mem_append, List.mem_singleton] at hk
    rcases hk with hk | rfl
    · exact h.generators k hk
    · exact hgenerator
  · change ((s.items ++ [(key, output)]).map Prod.fst).Nodup
    rw [hkeys, List.nodup_append]
    refine ⟨h.keys, List.nodup_singleton key, fun k hk k' hk' heq => ?_⟩
    obtain rfl := List.mem_singleton.mp hk'
    have hcached := h.cached k hk
    rw [heq, hkey] at hcached
    cases hcached
  · change (Generator.paths (s.items ++ [(key, output)])).Nodup
    rw [hpaths, List.nodup_append]
    refine ⟨h.paths, hnodup, fun path hpath path' hpath' heq => ?_⟩
    have hremembered := h.remembered path hpath
    rw [heq, hnew path' hpath'] at hremembered
    cases hremembered
  · intro path hpath
    change path ∈ Generator.paths (s.items ++ [(key, output)]) at hpath
    rw [hpaths, List.mem_append] at hpath
    rcases hpath with hpath | hpath
    · obtain ⟨k, hk⟩ := Option.isSome_iff_exists.mp (h.remembered path hpath)
      exact Option.isSome_iff_exists.mpr ⟨k, (hadded path k).mpr (.inl hk)⟩
    · exact Option.isSome_iff_exists.mpr ⟨key, (hadded path key).mpr (.inr ⟨rfl, hpath⟩)⟩

/-- A conflict may add paths, and keeps no output. -/
theorem Kept.generate_conflict {s : GeneratorFiles Path} (h : Kept s) {key : OutputKey}
    {output : Output Path} (hkey : s.generator.outputCache key = none)
    (hfresh : ¬ Fresh s.generator.pathCache output) :
    Kept (s.generate key (s.generator.generate key (.ok output))) := by
  obtain ⟨conflict, hgenerate⟩ := Generator.generate_conflict hkey hfresh
  rw [hgenerate]
  refine ⟨h.cached, h.generators, h.keys, h.paths, fun path hpath => ?_⟩
  obtain ⟨k, hk⟩ := Option.isSome_iff_exists.mp (h.remembered path hpath)
  exact Option.isSome_iff_exists.mpr ⟨k, registerPaths_of_eq_some output hk⟩

theorem Kept.step {s s' : GeneratorFiles Path} (h : Kept s) {e : Event Path}
    (hstep : s.step e = some s') : Kept s' := by
  cases e with
  | generate key result =>
    simp only [GeneratorFiles.step] at hstep
    split_ifs at hstep with hgenerator
    obtain rfl := Option.some.inj hstep
    cases result with
    | error e => exact ⟨h.cached, h.generators, h.keys, h.paths, h.remembered⟩
    | ok output =>
      cases hkey : s.generator.outputCache key with
      | some kept =>
        rw [generate_duplicate hkey]
        exact ⟨h.cached, h.generators, h.keys, h.paths, h.remembered⟩
      | none =>
        by_cases hfresh : Fresh s.generator.pathCache output
        · exact h.generate_fresh hgenerator hkey hfresh
        · exact h.generate_conflict hkey hfresh
  | enter =>
    obtain rfl := Option.some.inj hstep
    exact
      { cached := fun _ hk => absurd hk List.not_mem_nil
        generators := fun _ hk => absurd hk List.not_mem_nil
        keys := List.nodup_nil
        paths := List.nodup_nil
        remembered := fun _ hk => absurd hk List.not_mem_nil }
  | exit | run | force | edit =>
    obtain rfl := Option.some.inj hstep
    exact ⟨h.cached, h.generators, h.keys, h.paths, h.remembered⟩

theorem kept_run {files : Files Path} {es : List (Event Path)} {s : GeneratorFiles Path}
    (hrun : TransitionRun.run step (init files) es = some s) : Kept s :=
  run_invariant (fun _ _ _ h hstep => h.step hstep) (kept_init files) hrun

/-- The output is written: nothing exists, or overwriting is forced, or the first answer that is
understood is for all, or has the label unless no file of the output exists. -/
def Approved (s : GeneratorFiles Path) (lines : List TypedLine)
    (item : OutputKey × Output Path) : Prop :=
  s.generator.inWithContext = false ∧
    (toOverwrite s.files s.items = [] ∨ s.forceOverwrite = true ∨
      ∃ line, Answer s.langsTyped lines line ∧
        (SelectsAll line ∨ ¬ Refuses line ∧
          (hasExisting s.files item.2 = false ∨ label s.items item.1 ∈ line.texts)))

def Chosen (s : GeneratorFiles Path) (response : List String) (item : OutputKey × Output Path) :
    Prop :=
  hasExisting s.files item.2 = false ∨ label s.items item.1 ∈ response

omit [DecidableEq Path] in
theorem Kept.mem_toOverwrite_iff {s : GeneratorFiles Path} (h : Kept s)
    {item : OutputKey × Output Path} (hitem : item ∈ s.items) :
    item.1 ∈ toOverwrite s.files s.items ↔ hasExisting s.files item.2 = true := by
  rw [toOverwrite, List.mem_map]
  constructor
  · rintro ⟨item', hmem, hkey⟩
    obtain ⟨hitem', hexisting⟩ := List.mem_filter.mp hmem
    rwa [List.inj_on_of_nodup_map h.keys hitem' hitem hkey] at hexisting
  · intro hexisting
    exact ⟨item, List.mem_filter.mpr ⟨hitem, hexisting⟩, rfl⟩

omit [DecidableEq Path] in
theorem Kept.skips_iff {s : GeneratorFiles Path} (h : Kept s) (response : List String)
    {item : OutputKey × Output Path} (hitem : item ∈ s.items) :
    (decide (item.1 ∈ toOverwrite s.files s.items ∧ label s.items item.1 ∉ response)) = false ↔
      Chosen s response item := by
  rw [decide_eq_false_iff_not, h.mem_toOverwrite_iff hitem, Chosen, not_and_or, not_not,
    Bool.not_eq_true]

theorem Kept.write_chosen {s : GeneratorFiles Path} (h : Kept s) {response : List String}
    {item : OutputKey × Output Path} (hitem : item ∈ s.items) (hchosen : Chosen s response item)
    {file : Path × String} (hfile : file ∈ item.2) : s.write response file.1 = some file.2 :=
  writeOutputs_of_mem h.paths hitem ((h.skips_iff response hitem).mpr hchosen) hfile

theorem Kept.write_not_chosen {s : GeneratorFiles Path} (h : Kept s) {response : List String}
    {item : OutputKey × Output Path} (hitem : item ∈ s.items) (hchosen : ¬ Chosen s response item)
    {file : Path × String} (hfile : file ∈ item.2) :
    s.write response file.1 = s.files file.1 := by
  apply writeOutputs_of_forall
  intro item' hitem' hpath
  have hsame := eq_of_mem_paths h.paths hitem' hitem hpath (List.mem_map_of_mem hfile)
  rw [hsame, ← Bool.not_eq_false, h.skips_iff response hitem]
  exact hchosen

theorem write_of_not_mem_paths {s : GeneratorFiles Path} (response : List String) {path : Path}
    (hpath : path ∉ Generator.paths s.items) : s.write response path = s.files path := by
  apply writeOutputs_of_forall
  intro item hitem hmem
  exact absurd (mem_paths.mpr ⟨item, hitem, hmem⟩) hpath

omit [DecidableEq Path] in
theorem Kept.chosen_langsTyped {s : GeneratorFiles Path} (h : Kept s)
    {item : OutputKey × Output Path} (hitem : item ∈ s.items) : Chosen s s.langsTyped item := by
  cases hexisting : hasExisting s.files item.2 with
  | false => exact .inl hexisting
  | true =>
    exact .inr (List.mem_map_of_mem ((h.mem_toOverwrite_iff hitem).mpr hexisting))

/-- A run leaves the files as they are and no output is approved, or it writes what a response
chooses, which are the approved outputs. -/
theorem Kept.run_cases {s : GeneratorFiles Path} (h : Kept s) (lines : List TypedLine) :
    (s.run lines = s.files ∧ ∀ item, ¬ Approved s lines item) ∨
      ∃ response, s.run lines = s.write response ∧
        ∀ item ∈ s.items, (Approved s lines item ↔ Chosen s response item) := by
  by_cases hin : s.generator.inWithContext = true
  · refine .inl ⟨by rw [run, if_pos hin], fun item happroved => ?_⟩
    exact absurd hin (Bool.eq_false_iff.mp happroved.1)
  have hout : s.generator.inWithContext = false := Bool.not_eq_true _ ▸ hin
  by_cases hfree : toOverwrite s.files s.items = [] ∨ s.forceOverwrite = true
  · refine .inr ⟨s.langsTyped, by rw [run, if_neg hin, if_pos hfree], fun item hitem => ?_⟩
    refine iff_of_true ⟨hout, ?_⟩ (h.chosen_langsTyped hitem)
    exact hfree.elim .inl fun hforce => .inr (.inl hforce)
  have hnonempty : s.langsTyped ≠ [] := fun hempty => hfree (.inl (List.map_eq_nil_iff.mp hempty))
  have happroved : ∀ item, Approved s lines item ↔ ∃ line, Answer s.langsTyped lines line ∧
      (SelectsAll line ∨ ¬ Refuses line ∧ (hasExisting s.files item.2 = false ∨
        label s.items item.1 ∈ line.texts)) := by
    intro item
    rw [Approved, ← or_assoc, or_iff_right hfree, and_iff_right hout]
  cases hask : askOverwrite s.langsTyped lines with
  | none =>
    refine .inl ⟨by rw [run, if_neg hin, if_neg hfree, hask], fun item hitem => ?_⟩
    obtain ⟨line, hanswer, -⟩ := (happroved item).mp hitem
    have hsome := askOverwrite_eq_some_iff.mpr ⟨line, hanswer, rfl⟩
    rw [hask] at hsome
    cases hsome
  | some response =>
    obtain ⟨line, hanswer, hresponse⟩ := askOverwrite_eq_some_iff.mp hask
    have hunique : ∀ line', Answer s.langsTyped lines line' →
        response = overwriteResponse s.langsTyped line' := fun line' h' =>
      Option.some.inj (hask.symm.trans (askOverwrite_eq_some_iff.mpr ⟨line', h', rfl⟩))
    by_cases hnone : Refuses line
    · rw [overwriteResponse_none hnone] at hresponse
      subst hresponse
      refine .inl ⟨by rw [run, if_neg hin, if_neg hfree, hask], fun item hitem => ?_⟩
      obtain ⟨line', hanswer', hselects⟩ := (happroved item).mp hitem
      have hempty := hunique line' hanswer'
      by_cases hall : SelectsAll line'
      · rw [overwriteResponse_all hall] at hempty
        exact hnonempty hempty.symm
      · rw [overwriteResponse_texts hall (hselects.resolve_left hall).1] at hempty
        cases hempty
    · have hnot : response ≠ [] := by
        rw [hresponse]
        by_cases hall : SelectsAll line
        · rwa [overwriteResponse_all hall]
        · rw [overwriteResponse_texts hall hnone]
          exact List.cons_ne_nil _ _
      obtain ⟨first, others, hcons⟩ := List.exists_cons_of_ne_nil hnot
      refine .inr ⟨response, by rw [run, if_neg hin, if_neg hfree, hask, hcons],
        fun item hitem => ?_⟩
      rw [happroved item]
      constructor
      · rintro ⟨line', hanswer', hselects⟩
        rw [hunique line' hanswer']
        by_cases hall : SelectsAll line'
        · rw [overwriteResponse_all hall]
          exact h.chosen_langsTyped hitem
        · obtain ⟨hnone', hlabel⟩ := hselects.resolve_left hall
          rw [overwriteResponse_texts hall hnone']
          exact hlabel
      · intro hchosen
        refine ⟨line, hanswer, ?_⟩
        by_cases hall : SelectsAll line
        · exact .inl hall
        · rw [hresponse, overwriteResponse_texts hall hnone] at hchosen
          exact .inr ⟨hnone, hchosen⟩

omit [DecidableEq Path] in
theorem Kept.exit {s : GeneratorFiles Path} (h : Kept s) : Kept s.exit :=
  ⟨h.cached, h.generators, h.keys, h.paths, h.remembered⟩

def firstEvents : List (Event String) :=
  [.edit "Demo.h" (some "old"),
    .generate ⟨cGenerator, .remote⟩ (.ok [("Demo.h", "header"), ("Demo.c", "source")]),
    .generate ⟨csharpGenerator, .local⟩ (.ok [("Demo.cs", "class")])]

def twoLines : List TypedLine := [⟨"cs", []⟩, ⟨"c", []⟩]

end GeneratorFiles

end CompostRpc
