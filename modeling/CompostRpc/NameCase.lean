import CompostRpc.PackPayload
import Mathlib.Data.List.Chain

/-!
# Names in PascalCase

`_pcase` splits a name at its underscores, capitalises the parts and joins them again, with an
underscore between two digits. What the name was can be read from its capitals, but for an
underscore at the end and for those between a letter and a digit. To see whether the next part
starts with a digit the loop looks at its first character, which the empty part behind an
underscore at the end does not have.
-/

namespace CompostRpc

namespace PascalCase

def isSpace (s : List Char) : Bool :=
  !s.isEmpty && s.all fun c => (9 ≤ c.toNat && c.toNat ≤ 13) || (28 ≤ c.toNat && c.toNat ≤ 32)

def startsWithDigit (s : List Char) : Bool := s.head?.any Char.isDigit

def endsInDigit (s : List Char) : Bool := s.getLast?.any Char.isDigit

def capitalised : List Char → List Char
  | [] => []
  | c :: cs => c.toUpper :: cs.map Char.toLower

def separator (part partNext : List Char) : Except PyError (List Char) :=
  if endsInDigit part then
    match partNext with
    | [] => .error .indexError
    | c :: _ => .ok (if c.isDigit then ['_'] else [])
  else .ok []

def pcaseLoop : List (List Char) → Except PyError (List Char)
  | [] => .ok []
  | part :: rest =>
    if part.length = 0 ∨ isSpace part then pcaseLoop rest
    else do
      let partNext := rest.headD [' ']
      let behind ← separator part partNext
      let out ← pcaseLoop rest
      return capitalised part ++ behind ++ out

def pcase (arg : String) : Except PyError String :=
  if arg.toList.length = 0 then .ok arg
  else do
    let out ← pcaseLoop (arg.toList.splitOn '_')
    return String.ofList out

def isWordChar (c : Char) : Bool := c.isLower || c.isDigit

theorem toNat_lt_of_le {c d : Char} (h : c.val ≤ d.val) (hd : d.toNat < 128) : c.toNat < 128 :=
  (UInt32.le_iff_toNat_le.mp h).trans_lt hd

theorem isWordChar_lt {c : Char} (h : isWordChar c = true) : c.toNat < 128 := by
  rcases (Bool.or_eq_true _ _).mp h with hlower | hdigit
  · have hle := of_decide_eq_true ((Bool.and_eq_true _ _).mp hlower).2
    exact toNat_lt_of_le hle (by decide)
  · have hle := of_decide_eq_true ((Bool.and_eq_true _ _).mp hdigit).2
    exact toNat_lt_of_le hle (by decide)

theorem ascii_law {p : Char → Prop} [DecidablePred p] (h : ∀ n : Fin 128, p (Char.ofNat n))
    {c : Char} (hc : c.toNat < 128) : p c := by
  have hascii := h ⟨c.toNat, hc⟩
  rwa [Char.ofNat_toNat] at hascii

structure WordChar (c : Char) : Prop where
  toLower_eq : c.toLower = c
  isLower_eq : c.isLower = !c.isDigit
  not_isUpper : c.isUpper = false
  ne_underscore : c ≠ '_'
  isAlphanum : c.isAlphanum = true
  not_space : ((9 ≤ c.toNat && c.toNat ≤ 13) || (28 ≤ c.toNat && c.toNat ≤ 32)) = false
  toUpper_isAlphanum : c.toUpper.isAlphanum = true
  toUpper_isDigit : c.toUpper.isDigit = c.isDigit
  toUpper_isUpper : c.toUpper.isUpper = c.isLower
  read_back : (if c.toUpper.isUpper then ['_', c.toUpper.toLower] else [c.toUpper]) =
    if c.isDigit then [c] else ['_', c]

theorem wordChar {c : Char} (hc : isWordChar c = true) : WordChar c := by
  have hlaws := ascii_law (p := fun c => isWordChar c = true →
    c.toLower = c ∧ c.isLower = !c.isDigit ∧ c.isUpper = false ∧ c ≠ '_' ∧ c.isAlphanum = true ∧
      ((9 ≤ c.toNat && c.toNat ≤ 13) || (28 ≤ c.toNat && c.toNat ≤ 32)) = false ∧
      c.toUpper.isAlphanum = true ∧ c.toUpper.isDigit = c.isDigit ∧
      c.toUpper.isUpper = c.isLower ∧
      (if c.toUpper.isUpper then ['_', c.toUpper.toLower] else [c.toUpper]) =
        if c.isDigit then [c] else ['_', c]) (by decide +kernel) (isWordChar_lt hc) hc
  obtain ⟨h₁, h₂, h₃, h₄, h₅, h₆, h₇, h₈, h₉, h₁₀⟩ := hlaws
  exact ⟨h₁, h₂, h₃, h₄, h₅, h₆, h₇, h₈, h₉, h₁₀⟩

theorem isSpace_wordChar {c : Char} (hc : isWordChar c = true) (cs : List Char) :
    isSpace (c :: cs) = false := by
  rw [isSpace, List.all_cons, (wordChar hc).not_space, Bool.false_and, Bool.and_false]

structure IsWord (w : List Char) : Prop where
  ne_nil : w ≠ []
  chars : ∀ c ∈ w, isWordChar c = true

theorem isWord_of_all {w : List Char} (hne : w ≠ []) (h : w.all isWordChar = true) : IsWord w :=
  ⟨hne, List.all_eq_true.mp h⟩

theorem IsWord.cases {w : List Char} (h : IsWord w) :
    ∃ c cs, w = c :: cs ∧ isWordChar c = true ∧ ∀ d ∈ cs, isWordChar d = true := by
  obtain ⟨c, cs, rfl⟩ := List.exists_cons_of_ne_nil h.ne_nil
  refine ⟨c, cs, rfl, h.chars c List.mem_cons_self, fun d hd => ?_⟩
  exact h.chars d (List.mem_cons_of_mem c hd)

def keptBetween (w next : List Char) : List Char :=
  if endsInDigit w && startsWithDigit next then ['_'] else []

def pascal : List (List Char) → List Char
  | [] => []
  | [w] => capitalised w
  | w :: next :: rest => capitalised w ++ keptBetween w next ++ pascal (next :: rest)

theorem pcaseLoop_word {w : List Char} (hw : IsWord w) (rest : List (List Char)) :
    pcaseLoop (w :: rest) = do
      let behind ← separator w (rest.headD [' '])
      let out ← pcaseLoop rest
      return capitalised w ++ behind ++ out := by
  obtain ⟨c, cs, rfl, hc, -⟩ := hw.cases
  rw [pcaseLoop, if_neg]
  rw [isSpace_wordChar hc]
  simp

theorem separator_word {w next : List Char} (hnext : IsWord next) :
    separator w next = .ok (keptBetween w next) := by
  obtain ⟨c, cs, rfl, -, -⟩ := hnext.cases
  simp only [separator, keptBetween, startsWithDigit, List.head?_cons, Option.any_some]
  cases endsInDigit w <;> rfl

/-- Without an underscore at the end the name is converted. -/
theorem pcaseLoop_words {ws : List (List Char)} (hws : ∀ w ∈ ws, IsWord w) :
    pcaseLoop ws = .ok (pascal ws) := by
  induction ws with
  | nil => rfl
  | cons w rest ih =>
    have hw := hws w List.mem_cons_self
    have hrest := ih fun w h => hws w (List.mem_cons_of_mem _ h)
    rw [pcaseLoop_word hw, hrest]
    cases rest with
    | nil =>
      have hspace : separator w [' '] = .ok [] := by
        rw [separator]
        split <;> rfl
      rw [List.headD_nil, hspace]
      simp [pascal, bind, Except.bind, pure, Except.pure]
    | cons next rest =>
      rw [List.headD_cons, separator_word (hws next (by simp))]
      rfl

/-- With an underscore at the end the loop looks behind the last word at the empty part. -/
theorem pcaseLoop_trailing {ws : List (List Char)} (hws : ∀ w ∈ ws, IsWord w) (hne : ws ≠ []) :
    pcaseLoop (ws ++ [[]]) =
      if endsInDigit (ws.getLast hne) then .error .indexError else .ok (pascal ws) := by
  induction ws with
  | nil => exact absurd rfl hne
  | cons w rest ih =>
    have hw := hws w List.mem_cons_self
    rw [List.cons_append, pcaseLoop_word hw]
    cases rest with
    | nil =>
      rw [List.nil_append, List.headD_cons, List.getLast_singleton, separator]
      cases endsInDigit w with
      | true => rfl
      | false => simp [pcaseLoop, pascal, bind, Except.bind, pure, Except.pure]
    | cons next rest =>
      have hrest := ih (fun w h => hws w (List.mem_cons_of_mem _ h)) (List.cons_ne_nil _ _)
      rw [hrest, List.cons_append, List.headD_cons, separator_word (hws next (by simp)),
        List.getLast_cons (List.cons_ne_nil _ _)]
      split <;> rfl

/-- The underscore between two words, unless it is between a letter and a digit. -/
def recoveredBetween (w next : List Char) : List Char :=
  if !endsInDigit w && startsWithDigit next then [] else ['_']

/-- The name without the underscores that the conversion drops for good. -/
def recovered : List (List Char) → List Char
  | [] => []
  | [w] => w
  | w :: next :: rest => w ++ recoveredBetween w next ++ recovered (next :: rest)

def unpascal (p : List Char) : List Char :=
  p.flatMap fun c => if c.isUpper then ['_', c.toLower] else [c]

def repascal : List Char → List Char
  | '_' :: c :: rest =>
    if c.isLower then c.toUpper :: repascal rest else '_' :: repascal (c :: rest)
  | c :: rest => c :: repascal rest
  | [] => []

theorem unpascal_append (p q : List Char) : unpascal (p ++ q) = unpascal p ++ unpascal q :=
  List.flatMap_append

theorem unpascal_wordChars {cs : List Char} (h : ∀ c ∈ cs, isWordChar c = true) :
    unpascal cs = cs := by
  induction cs with
  | nil => rfl
  | cons c cs ih =>
    have hc := (wordChar (h c List.mem_cons_self)).not_isUpper
    have hcs := ih fun d hd => h d (List.mem_cons_of_mem c hd)
    rw [unpascal, List.flatMap_cons, hc]
    exact congrArg (c :: ·) hcs

theorem map_toLower_wordChars {cs : List Char} (h : ∀ c ∈ cs, isWordChar c = true) :
    cs.map Char.toLower = cs := by
  rw [List.map_congr_left fun c hc => (wordChar (h c hc)).toLower_eq, List.map_id']

theorem capitalised_cons {c : Char} {cs : List Char} (h : ∀ d ∈ cs, isWordChar d = true) :
    capitalised (c :: cs) = c.toUpper :: cs := by
  rw [capitalised, map_toLower_wordChars h]

def recoveredInFront (w : List Char) : List Char := if startsWithDigit w then [] else ['_']

theorem unpascal_capitalised {w : List Char} (hw : IsWord w) :
    unpascal (capitalised w) = recoveredInFront w ++ w := by
  obtain ⟨c, cs, rfl, hc, hcs⟩ := hw.cases
  have hrest := unpascal_wordChars hcs
  rw [unpascal] at hrest
  rw [capitalised_cons hcs, unpascal, List.flatMap_cons, (wordChar hc).read_back, hrest,
    recoveredInFront, startsWithDigit, List.head?_cons, Option.any_some]
  split <;> rfl

theorem unpascal_keptBetween (w next : List Char) :
    unpascal (keptBetween w next) ++ recoveredInFront next = recoveredBetween w next := by
  rw [keptBetween, recoveredInFront, recoveredBetween]
  cases endsInDigit w <;> cases startsWithDigit next <;> rfl

/-- The capitals of the converted name tell the underscores that are recovered. -/
theorem unpascal_pascal {w : List Char} {rest : List (List Char)}
    (hws : ∀ v ∈ w :: rest, IsWord v) :
    unpascal (pascal (w :: rest)) = recoveredInFront w ++ recovered (w :: rest) := by
  induction rest generalizing w with
  | nil => exact unpascal_capitalised (hws w List.mem_cons_self)
  | cons next rest ih =>
    have hrest := ih fun v hv => hws v (List.mem_cons_of_mem w hv)
    rw [pascal, recovered, unpascal_append, unpascal_append, hrest,
      unpascal_capitalised (hws w List.mem_cons_self), ← unpascal_keptBetween]
    simp only [List.append_assoc]

def Joins (c d : Char) : Prop := (c = '_' → d.isDigit = true) ∧ (d = '_' → c.isDigit = true)

/-- Letters and digits from a capital on, with underscores between digits only. -/
structure IsPascalCase (p : List Char) : Prop where
  starts : ∃ c, p.head? = some c ∧ c.isUpper = true
  chars : ∀ c ∈ p, c.isAlphanum = true ∨ c = '_'
  between : p.IsChain Joins
  ends : p.getLast? ≠ some '_'

theorem isUpper_toLower {c : Char} (h : c.isUpper = true) :
    c.toLower.isLower = true ∧ c.toLower.toUpper = c := by
  have hlt : c.toNat < 128 := toNat_lt_of_le (of_decide_eq_true h).2 (by decide)
  exact ascii_law (p := fun c => c.isUpper = true →
    c.toLower.isLower = true ∧ c.toLower.toUpper = c) (by decide +kernel) hlt h

theorem digit_isWordChar {c : Char} (h : c.isDigit = true) : isWordChar c = true := by
  rw [isWordChar, h, Bool.or_true]

/-- Where every underscore stands between digits, the conversion can be repeated. -/
theorem repascal_unpascal {p : List Char} (hbetween : p.IsChain Joins)
    (hends : p.getLast? ≠ some '_') : repascal (unpascal p) = p := by
  induction p with
  | nil => rfl
  | cons c p ih =>
    have hrest : repascal (unpascal p) = p := by
      apply ih hbetween.tail
      intro hlast
      exact hends (by rw [List.getLast?_cons, hlast]; rfl)
    by_cases hunderscore : c = '_'
    · subst hunderscore
      cases p with
      | nil => exact absurd rfl hends
      | cons d p =>
        have hdigit : d.isDigit = true := (hbetween.rel_head? rfl).1 rfl
        have hd := digit_isWordChar hdigit
        have hlower : d.isLower = false := by rw [(wordChar hd).isLower_eq, hdigit]; rfl
        have hstep : unpascal ('_' :: d :: p) = '_' :: d :: unpascal p := by
          simp [unpascal, (wordChar hd).not_isUpper]
        have htail : unpascal (d :: p) = d :: unpascal p := by
          simp [unpascal, (wordChar hd).not_isUpper]
        rw [htail] at hrest
        rw [hstep, repascal, hlower, if_neg (by decide), hrest]
    · cases hupper : c.isUpper with
      | true =>
        obtain ⟨hlower, hback⟩ := isUpper_toLower hupper
        have hstep : unpascal (c :: p) = '_' :: c.toLower :: unpascal p := by
          simp [unpascal, hupper]
        rw [hstep, repascal, if_pos hlower, hback, hrest]
      | false =>
        have hstep : unpascal (c :: p) = c :: unpascal p := by simp [unpascal, hupper]
        rw [hstep, repascal, hrest]
        exact fun _ _ h => absurd h hunderscore

theorem isChain_of_ne {l : List Char} (h : ∀ c ∈ l, c ≠ '_') : l.IsChain Joins := by
  induction l with
  | nil => exact List.isChain_nil
  | cons c l ih =>
    refine List.isChain_cons.mpr ⟨fun d hd => ?_, ih fun d hd => h d (List.mem_cons_of_mem c hd)⟩
    have hmem := List.mem_cons_of_mem c (List.mem_of_mem_head? hd)
    exact ⟨fun hc => absurd hc (h c List.mem_cons_self), fun hd => absurd hd (h d hmem)⟩

theorem capitalised_isAlphanum {w : List Char} (hw : IsWord w) :
    ∀ c ∈ capitalised w, c.isAlphanum = true := by
  obtain ⟨c, cs, rfl, hc, hcs⟩ := hw.cases
  rw [capitalised_cons hcs]
  intro d hd
  rcases List.mem_cons.mp hd with rfl | htail
  · exact (wordChar hc).toUpper_isAlphanum
  · exact (wordChar (hcs d htail)).isAlphanum

theorem ne_underscore_of_isAlphanum {c : Char} (h : c.isAlphanum = true) : c ≠ '_' := by
  intro hc
  rw [hc] at h
  exact absurd h (by decide)

structure Converted (w p : List Char) : Prop where
  head : ∀ c ∈ p.head?, c ≠ '_' ∧ c.isDigit = startsWithDigit w
  chars : ∀ c ∈ p, c.isAlphanum = true ∨ c = '_'
  between : p.IsChain Joins
  ends : p.getLast? ≠ some '_'

theorem converted_capitalised {w : List Char} (hw : IsWord w) : Converted w (capitalised w) := by
  have halnum := capitalised_isAlphanum hw
  have hne : ∀ c ∈ capitalised w, c ≠ '_' := fun c hc => ne_underscore_of_isAlphanum (halnum c hc)
  refine ⟨?_, fun c hc => .inl (halnum c hc), isChain_of_ne hne, ?_⟩
  · intro c hc
    refine ⟨hne c (List.mem_of_mem_head? hc), ?_⟩
    obtain ⟨d, cs, rfl, hd, hcs⟩ := hw.cases
    cases hc
    exact (wordChar hd).toUpper_isDigit
  · exact fun hlast => hne '_' (List.mem_of_getLast? hlast) rfl

theorem endsInDigit_capitalised {w : List Char} (hw : IsWord w) {c : Char}
    (hc : c ∈ (capitalised w).getLast?) : c.isDigit = endsInDigit w := by
  obtain ⟨d, cs, rfl, hd, hcs⟩ := hw.cases
  rw [capitalised_cons hcs] at hc
  cases cs with
  | nil =>
    cases hc
    exact (wordChar hd).toUpper_isDigit
  | cons e cs =>
    rw [List.getLast?_cons_cons] at hc
    rw [endsInDigit, List.getLast?_cons_cons, hc]
    rfl

theorem capitalised_ne_nil {w : List Char} (hw : IsWord w) : capitalised w ≠ [] := by
  obtain ⟨c, cs, rfl, -, -⟩ := hw.cases
  exact List.cons_ne_nil _ _

theorem pascal_ne_nil {w : List Char} (hw : IsWord w) (rest : List (List Char)) :
    pascal (w :: rest) ≠ [] := by
  cases rest with
  | nil => exact capitalised_ne_nil hw
  | cons next rest => simp [pascal, capitalised_ne_nil hw]

/-- The underscore that is kept between two words joins two digits. -/
theorem isChain_keptBetween {w next q : List Char} (hw : IsWord w) (hq : Converted next q) :
    (capitalised w ++ keptBetween w next ++ q).IsChain Joins := by
  obtain ⟨-, -, hbetween, hends⟩ := converted_capitalised hw
  have hlast : ∀ c ∈ (capitalised w).getLast?, c ≠ '_' ∧ c.isDigit = endsInDigit w := by
    intro c hc
    exact ⟨fun h => hends (h ▸ hc), endsInDigit_capitalised hw hc⟩
  rw [keptBetween]
  by_cases hdigits : (endsInDigit w && startsWithDigit next) = true
  · obtain ⟨hwdigit, hnextdigit⟩ := Bool.and_eq_true_iff.mp hdigits
    rw [if_pos hdigits, List.append_assoc, List.singleton_append]
    apply hbetween.append
    · apply hq.between.cons
      intro d hd
      exact ⟨fun _ => (hq.head d hd).2.trans hnextdigit, fun h => absurd h (hq.head d hd).1⟩
    · rintro c hc _ ⟨⟩
      exact ⟨fun h => absurd h (hlast c hc).1, fun _ => (hlast c hc).2.trans hwdigit⟩
  · rw [if_neg hdigits, List.append_nil]
    apply hbetween.append hq.between
    intro c hc d hd
    exact ⟨fun h => absurd h (hlast c hc).1, fun h => absurd h (hq.head d hd).1⟩

theorem Converted.append {w next q : List Char} (hw : IsWord w) (hq : Converted next q)
    (hne : q ≠ []) : Converted w (capitalised w ++ keptBetween w next ++ q) := by
  obtain ⟨hhead, hchars, -, -⟩ := converted_capitalised hw
  have hkept : ∀ c ∈ keptBetween w next, c = '_' := by
    rw [keptBetween]
    split <;> simp
  refine ⟨?_, ?_, isChain_keptBetween hw hq, ?_⟩
  · rw [List.append_assoc, List.head?_append_of_ne_nil _ (capitalised_ne_nil hw)]
    exact hhead
  · intro c hc
    rcases List.mem_append.mp hc with hc | hc
    · rcases List.mem_append.mp hc with hc | hc
      · exact hchars c hc
      · exact .inr (hkept c hc)
    · exact hq.chars c hc
  · rw [List.getLast?_append_of_ne_nil _ hne]
    exact hq.ends

theorem converted_pascal {w : List Char} {rest : List (List Char)}
    (hws : ∀ v ∈ w :: rest, IsWord v) : Converted w (pascal (w :: rest)) := by
  induction rest generalizing w with
  | nil => exact converted_capitalised (hws w List.mem_cons_self)
  | cons next rest ih =>
    have hrest : ∀ v ∈ next :: rest, IsWord v := fun v hv => hws v (List.mem_cons_of_mem w hv)
    have hnext := pascal_ne_nil (hrest next List.mem_cons_self) rest
    rw [pascal]
    exact (ih hrest).append (hws w List.mem_cons_self) hnext

/-- Two names are converted to the same name if the same is recovered of them. -/
theorem pascal_eq_iff {w v : List Char} {ws vs : List (List Char)}
    (hws : ∀ u ∈ w :: ws, IsWord u) (hvs : ∀ u ∈ v :: vs, IsWord u)
    (hw : startsWithDigit w = false) (hv : startsWithDigit v = false) :
    pascal (w :: ws) = pascal (v :: vs) ↔ recovered (w :: ws) = recovered (v :: vs) := by
  have hleft := unpascal_pascal hws
  have hright := unpascal_pascal hvs
  rw [recoveredInFront, hw, if_neg (by decide), List.singleton_append] at hleft
  rw [recoveredInFront, hv, if_neg (by decide), List.singleton_append] at hright
  constructor
  · intro h
    rw [h, hright] at hleft
    exact (List.cons_eq_cons.mp hleft).2.symm
  · intro h
    have hback := congrArg repascal (hleft.trans ((congrArg _ h).trans hright.symm))
    have hconverted := converted_pascal hws
    have hconverted' := converted_pascal hvs
    rwa [repascal_unpascal hconverted.between hconverted.ends,
      repascal_unpascal hconverted'.between hconverted'.ends] at hback

end PascalCase
end CompostRpc
