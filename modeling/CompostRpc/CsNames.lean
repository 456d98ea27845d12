import CompostRpc.CCodeGenerator
import CompostRpc.NameCase

/-!
# The names in the generated C# code

The members of a class, the variants of an enum and the events of a protocol are named by `_pcase`,
and so are the methods of a protocol, with `Async` behind the name. A protocol is translated to C#
without an error and without two equal names if no name ends with a digit and an underscore, and if
the names differ in more than the underscores that `_pcase` drops for good.
-/

namespace CompostRpc
open PascalCase

/-- Lower-case letters and digits separated by single underscores, starting with a letter, with an
optional underscore at the end. -/
structure SnakeCase where
  first : List Char
  rest : List (List Char)
  trailing : Bool
  isWord : ∀ w ∈ first :: rest, IsWord w
  starts : startsWithDigit first = false

namespace SnakeCase

def words (n : SnakeCase) : List (List Char) := n.first :: n.rest

def text (n : SnakeCase) : String :=
  String.ofList (['_'].intercalate n.words ++ if n.trailing then ['_'] else [])

theorem words_ne_nil (n : SnakeCase) : n.words ≠ [] := List.cons_ne_nil _ _

theorem words_isWord (n : SnakeCase) : ∀ w ∈ n.words, IsWord w := n.isWord

def lastWord (n : SnakeCase) : List Char := n.words.getLast n.words_ne_nil

def Convertible (n : SnakeCase) : Prop := ¬ (n.trailing = true ∧ endsInDigit n.lastWord = true)

theorem intercalate_trailing {ws : List (List Char)} (h : ws ≠ []) :
    ['_'].intercalate (ws ++ [[]]) = ['_'].intercalate ws ++ ['_'] := by
  induction ws with
  | nil => exact absurd rfl h
  | cons w rest ih =>
    cases rest with
    | nil => simp [List.intercalate_cons_cons]
    | cons next rest =>
      have hrest := ih (List.cons_ne_nil _ _)
      simp only [List.cons_append, List.intercalate_cons_cons] at hrest ⊢
      rw [hrest]
      simp only [List.append_assoc]

/-- The parts of a name, of which the one behind an underscore at the end is empty. -/
theorem splitOn_text (n : SnakeCase) :
    n.text.toList.splitOn '_' = n.words ++ if n.trailing then [[]] else [] := by
  have hparts : ∀ w ∈ n.words ++ (if n.trailing then [[]] else []), '_' ∉ w := by
    intro w hw hmem
    rcases List.mem_append.mp hw with hword | hempty
    · exact (wordChar ((n.isWord w hword).chars '_' hmem)).ne_underscore rfl
    · split at hempty
      · cases List.mem_singleton.mp hempty
        cases hmem
      · cases hempty
  have hjoin : n.text.toList = ['_'].intercalate (n.words ++ if n.trailing then [[]] else []) := by
    rw [text, String.toList_ofList]
    split
    · rw [intercalate_trailing n.words_ne_nil]
    · simp
  rw [hjoin, List.splitOn_intercalate '_' hparts (by simp [words])]

theorem pcase_text (n : SnakeCase) :
    pcase n.text = if n.trailing = true ∧ endsInDigit n.lastWord = true then .error .indexError
      else .ok (String.ofList (pascal n.words)) := by
  have hloop : pcaseLoop (n.text.toList.splitOn '_') =
      if n.trailing = true ∧ endsInDigit n.lastWord = true then .error .indexError
      else .ok (pascal n.words) := by
    rw [splitOn_text]
    cases n.trailing with
    | true =>
      rw [if_pos rfl, pcaseLoop_trailing n.words_isWord n.words_ne_nil]
      simp only [true_and, lastWord]
    | false =>
      rw [if_neg (by decide), List.append_nil, pcaseLoop_words n.words_isWord]
      simp
  have hne : ¬ n.text.toList.length = 0 := by
    obtain ⟨c, cs, hfirst, -, -⟩ := (n.isWord n.first List.mem_cons_self).cases
    rw [text, String.toList_ofList, words, hfirst]
    cases n.rest <;> simp [List.intercalate_cons_cons]
  rw [pcase, if_neg hne, hloop]
  split <;> rfl

/-- The name without the underscores that `_pcase` drops for good: the one at the end, and those
between a letter and a digit. -/
def recovered (n : SnakeCase) : List Char := PascalCase.recovered n.words

def async (n : SnakeCase) : SnakeCase where
  first := n.first
  rest := n.rest ++ ["async".toList]
  trailing := false
  isWord := by
    intro w hw
    rw [← List.cons_append] at hw
    rcases List.mem_append.mp hw with hw | hw
    · exact n.isWord w hw
    · cases List.mem_singleton.mp hw
      exact isWord_of_all (by decide) (by decide +kernel)
  starts := n.starts

theorem pascal_async {w : List Char} (ws : List (List Char)) :
    pascal ((w :: ws) ++ ["async".toList]) = pascal (w :: ws) ++ "Async".toList := by
  induction ws generalizing w with
  | nil =>
    have hkept : keptBetween w "async".toList = [] := by
      rw [keptBetween, if_neg]
      simp [startsWithDigit]
    have hlast : capitalised "async".toList = "Async".toList := by decide +kernel
    change capitalised w ++ keptBetween w "async".toList ++ capitalised "async".toList = _
    rw [hkept, hlast, List.append_nil]
    rfl
  | cons next rest ih =>
    have hrest := ih (w := next)
    simp only [List.cons_append, pascal] at hrest ⊢
    rw [hrest]
    simp only [List.append_assoc]

theorem recovered_async {w : List Char} (ws : List (List Char)) :
    PascalCase.recovered ((w :: ws) ++ ["async".toList]) =
      PascalCase.recovered (w :: ws) ++ "_async".toList := by
  induction ws generalizing w with
  | nil =>
    have hbetween : recoveredBetween w "async".toList = ['_'] := by
      rw [recoveredBetween, if_neg]
      simp [startsWithDigit]
    change w ++ recoveredBetween w "async".toList ++ "async".toList = w ++ "_async".toList
    rw [hbetween, List.append_assoc]
    rfl
  | cons next rest ih =>
    have hrest := ih (w := next)
    simp only [List.cons_append, PascalCase.recovered] at hrest ⊢
    rw [hrest]
    simp only [List.append_assoc]

/-- Two names are converted to the same name if they are recovered as the same name. -/
theorem pascal_words_eq_iff (s t : SnakeCase) :
    pascal s.words = pascal t.words ↔ s.recovered = t.recovered :=
  pascal_eq_iff s.isWord t.isWord s.starts t.starts

theorem pascal_isPascalCase (n : SnakeCase) : IsPascalCase (pascal n.words) := by
  obtain ⟨-, hchars, hbetween, hends⟩ := converted_pascal n.isWord
  refine ⟨?_, hchars, hbetween, hends⟩
  obtain ⟨c, cs, hfirst, hc, -⟩ := (n.isWord n.first List.mem_cons_self).cases
  have hstarts := n.starts
  rw [hfirst] at hstarts
  have hdigit : c.isDigit = false := hstarts
  have hupper : c.toUpper.isUpper = true := by
    rw [(wordChar hc).toUpper_isUpper, (wordChar hc).isLower_eq, hdigit]
    rfl
  refine ⟨c.toUpper, ?_, hupper⟩
  rw [words, hfirst]
  cases n.rest <;> rfl

end SnakeCase

structure KeepsApart (s t : SnakeCase) : Prop where
  first : ∃ p, pcase s.text = .ok p ∧ IsPascalCase p.toList
  second : ∃ p, pcase t.text = .ok p ∧ IsPascalCase p.toList
  distinct : pcase s.text ≠ pcase t.text

theorem pcase_convertible {n : SnakeCase} (h : n.Convertible) :
    pcase n.text = .ok (String.ofList (pascal n.words)) := by rw [SnakeCase.pcase_text, if_neg h]

theorem convertible_of_ok {n : SnakeCase} {p : String} (h : pcase n.text = .ok p) :
    n.Convertible := by
  intro herror
  rw [SnakeCase.pcase_text, if_pos herror] at h
  cases h

theorem keepsApart_iff (s t : SnakeCase) :
    KeepsApart s t ↔ s.Convertible ∧ t.Convertible ∧ s.recovered ≠ t.recovered := by
  constructor
  · rintro ⟨⟨p, hp, -⟩, ⟨q, hq, -⟩, hne⟩
    have hs := convertible_of_ok hp
    have ht := convertible_of_ok hq
    refine ⟨hs, ht, fun hsame => hne ?_⟩
    rw [pcase_convertible hs, pcase_convertible ht, (s.pascal_words_eq_iff t).mpr hsame]
  · rintro ⟨hs, ht, hne⟩
    have hconverted : ∀ n : SnakeCase, n.Convertible →
        ∃ p, pcase n.text = .ok p ∧ IsPascalCase p.toList := by
      intro n hn
      refine ⟨_, pcase_convertible hn, ?_⟩
      rw [String.toList_ofList]
      exact n.pascal_isPascalCase
    refine ⟨hconverted s hs, hconverted t ht, fun hsame => hne ?_⟩
    rw [pcase_convertible hs, pcase_convertible ht, Except.ok.injEq] at hsame
    apply (s.pascal_words_eq_iff t).mp
    simpa using congrArg String.toList hsame

namespace CSharpCodeGenerator

def memberNames : Members → List String
  | .nil => []
  | .cons name _ rest => name :: memberNames rest

def sourceNames : UserType → List String
  | .enum e => e.variants.map Prod.fst
  | .struct _ members => memberNames members

/-- The names of the properties or of the variants that `_type_definition` writes for a type. -/
def definedNames (t : UserType) : Except PyError (List String) := (sourceNames t).mapM pcase

def callNames (rpcs : List RpcDeclaration) : List String :=
  (rpcs.filter fun rpc => !rpc.isNotification).map RpcDeclaration.name

def notificationNames (rpcs : List RpcDeclaration) : List String :=
  (rpcs.filter fun rpc => rpc.isNotification).map RpcDeclaration.name

/-- The names of the methods and of the events that `generate` writes for a protocol. -/
def protocolNames (rpcs : List RpcDeclaration) : Except PyError (List String) := do
  let methods ← (callNames rpcs).mapM fun name => do
    let name ← pcase name
    return name ++ "Async"
  let events ← (notificationNames rpcs).mapM pcase
  return methods ++ events

structure NamedType where
  type : UserType
  names : List SnakeCase
  named : sourceNames type = names.map SnakeCase.text

structure NamedRpcs where
  rpcs : List RpcDeclaration
  calls : List SnakeCase
  notifications : List SnakeCase
  named : callNames rpcs = calls.map SnakeCase.text
  notified : notificationNames rpcs = notifications.map SnakeCase.text

end CSharpCodeGenerator

open CSharpCodeGenerator

def Distinct (result : Except PyError (List String)) : Prop :=
  ∃ names, result = .ok names ∧ names.Nodup

theorem mapM_ok {α β ε : Type} {f : α → Except ε β} {g : α → β} {l : List α}
    (h : ∀ a ∈ l, f a = .ok (g a)) : l.mapM f = .ok (l.map g) := by
  induction l with
  | nil => rfl
  | cons a l ih =>
    rw [List.mapM_cons, h a List.mem_cons_self, ih fun b hb => h b (List.mem_cons_of_mem a hb)]
    rfl

theorem ok_of_mapM {α β ε : Type} {f : α → Except ε β} {l : List α} {bs : List β}
    (h : l.mapM f = .ok bs) {a : α} (ha : a ∈ l) : ∃ b, f a = .ok b := by
  induction l generalizing bs with
  | nil => cases ha
  | cons c l ih =>
    rw [List.mapM_cons] at h
    obtain ⟨b, hb, h⟩ := except_bind_eq_ok.mp h
    obtain ⟨bs', hbs', -⟩ := except_bind_eq_ok.mp h
    rcases List.mem_cons.mp ha with rfl | htail
    · exact ⟨b, hb⟩
    · exact ih hbs' htail

theorem nodup_map_iff {α β γ : Type} {f : α → β} {g : α → γ} {l : List α}
    (h : ∀ a b, f a = f b ↔ g a = g b) : (l.map f).Nodup ↔ (l.map g).Nodup := by
  unfold List.Nodup
  rw [List.pairwise_map, List.pairwise_map]
  simp only [ne_eq, h]

def SnakeCase.csName (n : SnakeCase) : String := String.ofList (pascal n.words)

theorem SnakeCase.csName_eq_iff (s t : SnakeCase) :
    s.csName = t.csName ↔ s.recovered = t.recovered := by
  rw [← pascal_words_eq_iff, csName, csName]
  constructor
  · intro h
    simpa using congrArg String.toList h
  · exact congrArg String.ofList

theorem SnakeCase.csName_async (n : SnakeCase) : n.async.csName = n.csName ++ "Async" := by
  rw [csName, csName]
  change String.ofList (pascal ((n.first :: n.rest) ++ ["async".toList])) = _
  rw [pascal_async, String.ofList_append]
  rfl

/-- The names of a list are converted one by one. -/
theorem mapM_text_iff {convert : String → Except PyError String} {name : SnakeCase → String}
    (hok : ∀ n : SnakeCase, n.Convertible → convert n.text = .ok (name n))
    (herror : ∀ (n : SnakeCase) p, convert n.text = .ok p → n.Convertible) {ns : List SnakeCase}
    {out : List String} : (ns.map SnakeCase.text).mapM convert = .ok out ↔
      (∀ n ∈ ns, n.Convertible) ∧ out = ns.map name := by
  rw [List.mapM_map]
  constructor
  · intro h
    have hconvertible : ∀ n ∈ ns, n.Convertible := by
      intro n hn
      obtain ⟨p, hp⟩ := ok_of_mapM h hn
      exact herror n p hp
    have hmapped : ns.mapM (convert ∘ SnakeCase.text) = .ok (ns.map name) :=
      mapM_ok fun n hn => hok n (hconvertible n hn)
    cases hmapped.symm.trans h
    exact ⟨hconvertible, rfl⟩
  · rintro ⟨hconvertible, rfl⟩
    exact mapM_ok fun n hn => hok n (hconvertible n hn)

theorem mapM_pcase_iff {ns : List SnakeCase} {out : List String} :
    (ns.map SnakeCase.text).mapM pcase = .ok out ↔
      (∀ n ∈ ns, n.Convertible) ∧ out = ns.map SnakeCase.csName :=
  mapM_text_iff (fun _ => pcase_convertible) fun _ _ => convertible_of_ok

theorem mapM_async_iff {ns : List SnakeCase} {out : List String} :
    ((ns.map SnakeCase.text).mapM fun name => do
      let name ← pcase name
      return name ++ "Async") = .ok out ↔
        (∀ n ∈ ns, n.Convertible) ∧ out = ns.map fun n => n.async.csName := by
  refine mapM_text_iff (fun n hn => ?_) fun n p hp => ?_
  · rw [pcase_convertible hn, n.csName_async]
    rfl
  · obtain ⟨q, hq, -⟩ := except_bind_eq_ok.mp hp
    exact convertible_of_ok hq

/-- The names can be converted, and differ in more than the underscores that are dropped. -/
def ToldApart (ns : List SnakeCase) : Prop :=
  (∀ n ∈ ns, n.Convertible) ∧ (ns.map SnakeCase.recovered).Nodup

theorem distinct_iff {result : Except PyError (List String)} {p : Prop} {names : List String}
    (h : ∀ {out}, result = .ok out ↔ p ∧ out = names) : Distinct result ↔ p ∧ names.Nodup := by
  constructor
  · rintro ⟨out, hout, hnodup⟩
    obtain ⟨hp, rfl⟩ := h.mp hout
    exact ⟨hp, hnodup⟩
  · rintro ⟨hp, hnodup⟩
    exact ⟨names, h.mpr ⟨hp, rfl⟩, hnodup⟩

theorem distinct_definedNames_iff (d : NamedType) :
    Distinct (definedNames d.type) ↔ ToldApart d.names := by
  rw [definedNames, d.named, ToldApart, ← nodup_map_iff SnakeCase.csName_eq_iff]
  exact distinct_iff mapM_pcase_iff

def CSharpCodeGenerator.NamedRpcs.csSources (p : NamedRpcs) : List SnakeCase :=
  p.calls.map SnakeCase.async ++ p.notifications

def CSharpCodeGenerator.NamedRpcs.recovered (p : NamedRpcs) : List (List Char) :=
  p.calls.map (fun n => n.recovered ++ "_async".toList) ++ p.notifications.map SnakeCase.recovered

theorem map_recovered_csSources (p : NamedRpcs) :
    p.csSources.map SnakeCase.recovered = p.recovered := by
  rw [NamedRpcs.csSources, NamedRpcs.recovered, List.map_append, List.map_map]
  congr 1
  exact List.map_congr_left fun n _ => SnakeCase.recovered_async n.rest

theorem protocolNames_iff (p : NamedRpcs) {out : List String} :
    protocolNames p.rpcs = .ok out ↔
      (∀ n ∈ p.calls ++ p.notifications, n.Convertible) ∧
        out = p.csSources.map SnakeCase.csName := by
  have hnames : p.csSources.map SnakeCase.csName =
      p.calls.map (fun n => n.async.csName) ++ p.notifications.map SnakeCase.csName := by
    rw [NamedRpcs.csSources, List.map_append, List.map_map]
    rfl
  rw [protocolNames, p.named, p.notified, hnames]
  constructor
  · intro h
    obtain ⟨methods, hmethods, h⟩ := except_bind_eq_ok.mp h
    obtain ⟨events, hevents, h⟩ := except_bind_eq_ok.mp h
    obtain ⟨hcall, rfl⟩ := mapM_async_iff.mp hmethods
    obtain ⟨hnotification, rfl⟩ := mapM_pcase_iff.mp hevents
    cases h
    exact ⟨List.forall_mem_append.mpr ⟨hcall, hnotification⟩, rfl⟩
  · rintro ⟨hconvertible, rfl⟩
    obtain ⟨hcall, hnotification⟩ := List.forall_mem_append.mp hconvertible
    exact except_bind_eq_ok.mpr ⟨_, mapM_async_iff.mpr ⟨hcall, rfl⟩,
      except_bind_eq_ok.mpr ⟨_, mapM_pcase_iff.mpr ⟨hnotification, rfl⟩, rfl⟩⟩

theorem distinct_protocolNames_iff (p : NamedRpcs) :
    Distinct (protocolNames p.rpcs) ↔ (∀ n ∈ p.calls ++ p.notifications, n.Convertible) ∧
      p.recovered.Nodup := by
  rw [← map_recovered_csSources, ← nodup_map_iff SnakeCase.csName_eq_iff]
  exact distinct_iff (protocolNames_iff p)

/-- Names are kept apart, two by two and in the declarations of a type and of a protocol, unless
`_pcase` fails at one of them or they differ in dropped underscores only. -/
theorem namesKeptApart_iff (s t : SnakeCase) (d : NamedType) (p : NamedRpcs) :
    (KeepsApart s t ↔ s.Convertible ∧ t.Convertible ∧ s.recovered ≠ t.recovered) ∧
      (Distinct (definedNames d.type) ↔ ToldApart d.names) ∧
      (Distinct (protocolNames p.rpcs) ↔ (∀ n ∈ p.calls ++ p.notifications, n.Convertible) ∧
        p.recovered.Nodup) :=
  ⟨keepsApart_iff s t, distinct_definedNames_iff d, distinct_protocolNames_iff p⟩

def indexedName : SnakeCase where
  first := ['a']
  rest := [['1']]
  trailing := false
  isWord := by
    intro w hw
    rcases List.mem_cons.mp hw with rfl | hw
    · exact isWord_of_all (by decide) (by decide +kernel)
    · cases List.mem_singleton.mp hw
      exact isWord_of_all (by decide) (by decide +kernel)
  starts := rfl

/-- The same without an underscore between them, or with one at the end. -/
def joinedName (trailing : Bool) : SnakeCase where
  first := ['a', '1']
  rest := []
  trailing := trailing
  isWord := by
    intro w hw
    cases List.mem_singleton.mp hw
    exact isWord_of_all (by decide) (by decide +kernel)
  starts := rfl

theorem not_keepsApart_indexed :
    (indexedName.text = "a_1" ∧ (joinedName false).text = "a1" ∧
      ¬ KeepsApart indexedName (joinedName false)) ∧
    (joinedName true).text = "a1_" ∧ ¬ KeepsApart indexedName (joinedName true) := by
  have hsame : pcase indexedName.text = pcase (joinedName false).text := by decide +kernel
  have hraised : pcase (joinedName true).text = .error .indexError := by decide +kernel
  refine ⟨⟨by decide +kernel, by decide +kernel, fun h => h.distinct hsame⟩, by decide +kernel, ?_⟩
  intro h
  obtain ⟨p, hp, -⟩ := h.second
  cases hraised.symm.trans hp

end CompostRpc
