import CompostRpc.TransitionRun
import Mathlib.Data.List.Nodup

/-!
# The classes of a Python program

`Protocol` keeps its calls in a class attribute, a dictionary. No subclass has a dictionary of its
own, so the lookup of `_rpcs` from any subclass ends at that of `Protocol`, and the calls of all
subclasses meet there. A class whose definition raises is not created, but the calls that were
registered before the exception stay.
-/

namespace CompostRpc
open TransitionRun

structure DeclaredCall where
  name : String
  rpcId : ℤ
  deriving DecidableEq

inductive RpcIdError
  | alreadyUsed | outOfRange
  deriving DecidableEq

def RpcIdError.text : RpcIdError → String
  | alreadyUsed => "rpc_id value already used. Choose a different value."
  | outOfRange => "rpc_id value out of range. Min: 0x000 Max: 0xF00"

/-- A subclass of `Protocol`, with the calls of its own body and those of its bases. -/
structure ProtocolClass where
  calls : List DeclaredCall
  inherited : List DeclaredCall

def ProtocolClass.declared (c : ProtocolClass) : List DeclaredCall := c.calls ++ c.inherited

/-- A definition that raised, with the calls declared before in the class or in its bases. -/
structure Rejection where
  call : DeclaredCall
  error : RpcIdError
  declared : List DeclaredCall

/-- The dictionary of `Protocol`, the subclasses in the order of their definition, and the
definitions that raised. -/
structure ProtocolClasses where
  rpcs : List DeclaredCall
  classes : List ProtocolClass
  rejections : List Rejection

/-- The statement of a class; the bases besides `Protocol` are classes defined before. -/
structure ClassDefinition where
  bases : List ℕ
  calls : List DeclaredCall

def validateRpcId (rpcs : List DeclaredCall) (rpcId : ℤ) : Option RpcIdError :=
  if rpcs.any (·.rpcId = rpcId) then some .alreadyUsed
  else if rpcId > 0xF00 ∨ rpcId < 0 then some .outOfRange
  else none

/-- The calls of `__set_name__` for the methods of a class: what they register, and the first one
that raises. -/
def setNames (rpcs : List DeclaredCall) :
    List DeclaredCall → List DeclaredCall × Option (DeclaredCall × RpcIdError)
  | [] => ([], none)
  | call :: calls =>
    match validateRpcId rpcs call.rpcId with
    | some error => ([], some (call, error))
    | none =>
      let (registered, rejected) := setNames (rpcs ++ [call]) calls
      (call :: registered, rejected)

namespace ProtocolClasses

def init : ProtocolClasses := ⟨[], [], []⟩

def inherited (s : ProtocolClasses) (d : ClassDefinition) : List DeclaredCall :=
  d.bases.flatMap fun b => (s.classes[b]?.map ProtocolClass.declared).getD []

def define (s : ProtocolClasses) (d : ClassDefinition) : ProtocolClasses :=
  let (registered, rejected) := setNames s.rpcs d.calls
  let s' := { s with rpcs := s.rpcs ++ registered }
  match rejected with
  | none => { s' with classes := s.classes ++ [⟨registered, s.inherited d⟩] }
  | some (call, error) =>
    { s' with rejections := s.rejections ++ [⟨call, error, registered ++ s.inherited d⟩] }

def step (s : ProtocolClasses) (d : ClassDefinition) : Option ProtocolClasses :=
  if ∀ b ∈ d.bases, b < s.classes.length then some (s.define d) else none

def rpcsOf (s : ProtocolClasses) (_ : ProtocolClass) : List DeclaredCall := s.rpcs

/-- The table of every class holds the calls declared in it and its bases, and an identifier was
rejected as used only for one of these. -/
structure Separate (s : ProtocolClasses) : Prop where
  table : ∀ c ∈ s.classes, ∀ call, call ∈ s.rpcsOf c ↔ call ∈ c.declared
  duplicates : ∀ r ∈ s.rejections, r.error = .alreadyUsed →
    ∃ call ∈ r.declared, call.rpcId = r.call.rpcId

/-- The methods that a class registers without an exception: the identifiers are in range, not in
the dictionary, and different. -/
structure Accepted (rpcs calls : List DeclaredCall) : Prop where
  valid : ∀ call ∈ calls, validateRpcId rpcs call.rpcId = none
  nodup : (calls.map DeclaredCall.rpcId).Nodup

/-- A definition that meets no calls of other classes: beside an existing class its first method is
rejected, it is accepted only if all registered calls are those of its bases, and none of its
methods that is reached has the identifier of a registered call from elsewhere. -/
structure Ok (s : ProtocolClasses) (d : ClassDefinition) : Prop where
  registers : s.classes ≠ [] → ∀ call ∈ d.calls.head?, validateRpcId s.rpcs call.rpcId ≠ none
  creates : Accepted s.rpcs d.calls → ∀ call ∈ s.rpcs, call ∈ s.inherited d
  rejects : ∀ before call after, d.calls = before ++ call :: after → Accepted s.rpcs before →
    ∀ other ∈ s.rpcs, other.rpcId = call.rpcId → other ∈ s.inherited d

structure ValidIds (rpcs : List DeclaredCall) : Prop where
  range : ∀ call ∈ rpcs, 0 ≤ call.rpcId ∧ call.rpcId ≤ 0xF00
  nodup : (rpcs.map DeclaredCall.rpcId).Nodup

theorem validateRpcId_eq_none {rpcs : List DeclaredCall} {rpcId : ℤ} :
    validateRpcId rpcs rpcId = none ↔
      (∀ call ∈ rpcs, call.rpcId ≠ rpcId) ∧ 0 ≤ rpcId ∧ rpcId ≤ 0xF00 := by
  simp only [validateRpcId]
  split_ifs with hused hrange
  · simp only [List.any_eq_true, decide_eq_true_eq] at hused
    obtain ⟨call, hcall, heq⟩ := hused
    simp only [false_iff]
    exact fun h => h.1 call hcall heq
  · simp only [false_iff]
    rintro ⟨-, hlo, hhi⟩
    omega
  · simp only [List.any_eq_true, decide_eq_true_eq, not_exists, not_and] at hused
    exact iff_of_true rfl ⟨hused, by omega, by omega⟩

theorem validateRpcId_eq_alreadyUsed {rpcs : List DeclaredCall} {rpcId : ℤ}
    (h : validateRpcId rpcs rpcId = some .alreadyUsed) : ∃ call ∈ rpcs, call.rpcId = rpcId := by
  simp only [validateRpcId] at h
  split_ifs at h with hused hrange
  · simpa only [List.any_eq_true, decide_eq_true_eq] using hused
  · cases h

theorem validateRpcId_of_mem {rpcs : List DeclaredCall} {call : DeclaredCall} (h : call ∈ rpcs) :
    validateRpcId rpcs call.rpcId = some .alreadyUsed :=
  if_pos (List.any_eq_true.mpr ⟨call, h, decide_eq_true rfl⟩)

theorem accepted_nil (rpcs : List DeclaredCall) : Accepted rpcs [] :=
  ⟨fun _ h => absurd h List.not_mem_nil, List.nodup_nil⟩

theorem accepted_cons {rpcs calls : List DeclaredCall} {call : DeclaredCall} :
    Accepted rpcs (call :: calls) ↔
      validateRpcId rpcs call.rpcId = none ∧ Accepted (rpcs ++ [call]) calls := by
  constructor
  · rintro ⟨hvalid, hnodup⟩
    rw [List.map_cons, List.nodup_cons] at hnodup
    refine ⟨hvalid call List.mem_cons_self, fun other hother => ?_, hnodup.2⟩
    obtain ⟨hfree, hrange⟩ :=
      validateRpcId_eq_none.mp (hvalid other (List.mem_cons_of_mem _ hother))
    refine validateRpcId_eq_none.mpr ⟨fun known hknown => ?_, hrange⟩
    rcases List.mem_append.mp hknown with hknown | hknown
    · exact hfree known hknown
    · rw [List.mem_singleton.mp hknown]
      intro heq
      exact hnodup.1 (heq ▸ List.mem_map_of_mem hother)
  · rintro ⟨hfirst, hvalid, hnodup⟩
    refine ⟨fun other hother => ?_, ?_⟩
    · rcases List.mem_cons.mp hother with rfl | hother
      · exact hfirst
      · obtain ⟨hfree, hrange⟩ := validateRpcId_eq_none.mp (hvalid other hother)
        exact validateRpcId_eq_none.mpr
          ⟨fun known hknown => hfree known (List.mem_append_left _ hknown), hrange⟩
    · rw [List.map_cons, List.nodup_cons]
      refine ⟨fun hmem => ?_, hnodup⟩
      obtain ⟨other, hother, heq⟩ := List.mem_map.mp hmem
      exact (validateRpcId_eq_none.mp (hvalid other hother)).1 call
        (List.mem_append_right _ (List.mem_singleton_self call)) heq.symm

theorem setNames_of_accepted {rpcs calls : List DeclaredCall} (h : Accepted rpcs calls) :
    setNames rpcs calls = (calls, none) := by
  induction calls generalizing rpcs with
  | nil => rfl
  | cons first calls ih =>
    obtain ⟨hvalid, hrest⟩ := accepted_cons.mp h
    simp only [setNames, hvalid, ih hrest]

theorem setNames_of_rejected {rpcs before after : List DeclaredCall} {call : DeclaredCall}
    {error : RpcIdError} (h : Accepted rpcs before)
    (herror : validateRpcId (rpcs ++ before) call.rpcId = some error) :
    setNames rpcs (before ++ call :: after) = (before, some (call, error)) := by
  induction before generalizing rpcs with
  | nil =>
    rw [List.append_nil] at herror
    simp only [List.nil_append, setNames, herror]
  | cons first before ih =>
    obtain ⟨hvalid, hrest⟩ := accepted_cons.mp h
    rw [List.append_cons] at herror
    simp only [List.cons_append, setNames, hvalid, ih hrest herror]

/-- A class registers all its methods, or those before the first one that raises. -/
theorem accepted_or_rejected (rpcs calls : List DeclaredCall) :
    Accepted rpcs calls ∨
    ∃ before call after error, calls = before ++ call :: after ∧ Accepted rpcs before ∧
      validateRpcId (rpcs ++ before) call.rpcId = some error := by
  induction calls generalizing rpcs with
  | nil => exact .inl (accepted_nil rpcs)
  | cons first calls ih =>
    cases hvalid : validateRpcId rpcs first.rpcId with
    | some error =>
      refine .inr ⟨[], first, calls, error, rfl, accepted_nil rpcs, ?_⟩
      rwa [List.append_nil]
    | none =>
      obtain haccepted | ⟨before, call, after, error, rfl, haccepted, herror⟩ :=
        ih (rpcs ++ [first])
      · exact .inl (accepted_cons.mpr ⟨hvalid, haccepted⟩)
      · refine .inr ⟨first :: before, call, after, error, rfl,
          accepted_cons.mpr ⟨hvalid, haccepted⟩, ?_⟩
        rwa [List.append_assoc] at herror

theorem Accepted.validIds {rpcs calls : List DeclaredCall} (haccepted : Accepted rpcs calls)
    (h : ValidIds rpcs) : ValidIds (rpcs ++ calls) := by
  refine ⟨fun call hcall => ?_, ?_⟩
  · rcases List.mem_append.mp hcall with hold | hnew
    · exact h.range call hold
    · exact (validateRpcId_eq_none.mp (haccepted.valid call hnew)).2
  · rw [List.map_append, List.nodup_append]
    refine ⟨h.nodup, haccepted.nodup, fun id hid id' hid' heq => ?_⟩
    obtain ⟨old, hold, rfl⟩ := List.mem_map.mp hid
    obtain ⟨new, hnew, rfl⟩ := List.mem_map.mp hid'
    exact (validateRpcId_eq_none.mp (haccepted.valid new hnew)).1 old hold heq

/-- An accepted class meets no call of the dictionary. -/
theorem Accepted.not_mem {rpcs calls : List DeclaredCall} (h : Accepted rpcs calls)
    {call : DeclaredCall} (hcall : call ∈ calls) : call ∉ rpcs :=
  fun hmem => (validateRpcId_eq_none.mp (h.valid call hcall)).1 call hmem rfl

theorem define_of_accepted {s : ProtocolClasses} {d : ClassDefinition}
    (h : Accepted s.rpcs d.calls) :
    s.define d =
      { s with
        rpcs := s.rpcs ++ d.calls
        classes := s.classes ++ [⟨d.calls, s.inherited d⟩] } := by
  simp only [define, setNames_of_accepted h]

theorem define_of_rejected {s : ProtocolClasses} {d : ClassDefinition}
    {before after : List DeclaredCall} {call : DeclaredCall} {error : RpcIdError}
    (hcalls : d.calls = before ++ call :: after) (h : Accepted s.rpcs before)
    (herror : validateRpcId (s.rpcs ++ before) call.rpcId = some error) :
    s.define d =
      { s with
        rpcs := s.rpcs ++ before
        rejections := s.rejections ++ [⟨call, error, before ++ s.inherited d⟩] } := by
  simp only [define, hcalls, setNames_of_rejected h herror]

/-- A definition creates the class with all its methods, or registers those before the one that
raises. -/
theorem define_cases (s : ProtocolClasses) (d : ClassDefinition) :
    (Accepted s.rpcs d.calls ∧
      s.define d =
        { s with
          rpcs := s.rpcs ++ d.calls
          classes := s.classes ++ [⟨d.calls, s.inherited d⟩] }) ∨
    ∃ before call after error, d.calls = before ++ call :: after ∧ Accepted s.rpcs before ∧
      validateRpcId (s.rpcs ++ before) call.rpcId = some error ∧
      s.define d =
        { s with
          rpcs := s.rpcs ++ before
          rejections := s.rejections ++ [⟨call, error, before ++ s.inherited d⟩] } := by
  obtain haccepted | ⟨before, call, after, error, hcalls, haccepted, herror⟩ :=
    accepted_or_rejected s.rpcs d.calls
  · exact .inl ⟨haccepted, define_of_accepted haccepted⟩
  · exact .inr ⟨before, call, after, error, hcalls, haccepted, herror,
      define_of_rejected hcalls haccepted herror⟩

structure Valid (s : ProtocolClasses) : Prop where
  ids : ValidIds s.rpcs
  registered : ∀ c ∈ s.classes, ∀ call ∈ c.declared, call ∈ s.rpcs

theorem valid_init : Valid init where
  ids := ⟨by simp [init], by simp [init]⟩
  registered := by simp [init]

theorem Valid.inherited {s : ProtocolClasses} (h : Valid s) {d : ClassDefinition}
    {call : DeclaredCall} (hcall : call ∈ s.inherited d) : call ∈ s.rpcs := by
  obtain ⟨b, -, hb⟩ := List.mem_flatMap.mp hcall
  cases hc : s.classes[b]? with
  | none =>
    rw [hc] at hb
    cases hb
  | some c =>
    rw [hc] at hb
    exact h.registered c (List.mem_of_getElem? hc) call hb

theorem Valid.define {s : ProtocolClasses} (h : Valid s) (d : ClassDefinition) :
    Valid (s.define d) := by
  obtain ⟨haccepted, hdefine⟩ | ⟨before, call, after, error, -, haccepted, -, hdefine⟩ :=
    define_cases s d
  · rw [hdefine]
    refine ⟨haccepted.validIds h.ids, fun c hc known hknown => ?_⟩
    rcases List.mem_append.mp hc with hc | hc
    · exact List.mem_append_left _ (h.registered c hc known hknown)
    · rw [List.mem_singleton.mp hc] at hknown
      rcases List.mem_append.mp hknown with hown | hinherited
      · exact List.mem_append_right _ hown
      · exact List.mem_append_left _ (h.inherited hinherited)
  · rw [hdefine]
    exact ⟨haccepted.validIds h.ids,
      fun c hc known hknown => List.mem_append_left _ (h.registered c hc known hknown)⟩

theorem step_eq_some {s s' : ProtocolClasses} {d : ClassDefinition} (h : step s d = some s') :
    s' = s.define d := by
  obtain ⟨-, hsome⟩ := Option.ite_none_right_eq_some.mp h
  exact (Option.some.inj hsome).symm

theorem separate_init : Separate init where
  table := by simp [init]
  duplicates := by simp [init]

/-- Beside an existing class nothing is registered. -/
theorem Ok.before_eq_nil {s : ProtocolClasses} {d : ClassDefinition} (h : Ok s d)
    {before after : List DeclaredCall} (hcalls : d.calls = before ++ after)
    (haccepted : Accepted s.rpcs before) (hne : s.classes ≠ []) : before = [] := by
  cases before with
  | nil => rfl
  | cons first before =>
    have hhead : first ∈ d.calls.head? := by rw [hcalls]; rfl
    exact absurd (haccepted.valid first List.mem_cons_self) (h.registers hne first hhead)

/-- The tables of the classes that exist stay as they are. -/
theorem Separate.frame {s : ProtocolClasses} (h : Separate s) {d : ClassDefinition} (hok : Ok s d)
    {before after : List DeclaredCall} (hcalls : d.calls = before ++ after)
    (haccepted : Accepted s.rpcs before) {c : ProtocolClass} (hc : c ∈ s.classes)
    (call : DeclaredCall) : call ∈ s.rpcs ++ before ↔ call ∈ c.declared := by
  rw [hok.before_eq_nil hcalls haccepted (List.ne_nil_of_mem hc), List.append_nil]
  exact h.table c hc call

theorem Separate.define {s : ProtocolClasses} (h : Separate s) (hvalid : Valid s)
    {d : ClassDefinition} (hok : Ok s d) : Separate (s.define d) := by
  obtain ⟨haccepted, hdefine⟩ | ⟨before, call, after, error, hcalls, haccepted, herror, hdefine⟩ :=
    define_cases s d
  · rw [hdefine]
    refine ⟨fun c hc call => ?_, h.duplicates⟩
    rcases List.mem_append.mp hc with hc | hc
    · exact h.frame hok (List.append_nil _).symm haccepted hc call
    · rw [List.mem_singleton.mp hc, rpcsOf, ProtocolClass.declared, List.mem_append,
        List.mem_append, or_comm]
      exact or_congr_right ⟨hok.creates haccepted call, hvalid.inherited⟩
  · rw [hdefine]
    refine ⟨fun c hc known => h.frame hok hcalls haccepted hc known, fun r hr hused => ?_⟩
    rcases List.mem_append.mp hr with hr | hr
    · exact h.duplicates r hr hused
    · obtain rfl := List.mem_singleton.mp hr
      obtain rfl : error = .alreadyUsed := hused
      obtain ⟨other, hother, heq⟩ := validateRpcId_eq_alreadyUsed herror
      rcases List.mem_append.mp hother with hother | hown
      · have hinherited := hok.rejects before call after hcalls haccepted other hother heq
        exact ⟨other, List.mem_append_right _ hinherited, heq⟩
      · exact ⟨other, List.mem_append_left _ hown, heq⟩

theorem ValidIds.eq_of_rpcId {rpcs : List DeclaredCall} (h : ValidIds rpcs)
    {call other : DeclaredCall} (hcall : call ∈ rpcs) (hother : other ∈ rpcs)
    (heq : call.rpcId = other.rpcId) : call = other :=
  List.inj_on_of_nodup_map h.nodup hcall hother heq

/-- A call that is registered beside an existing class appears in the table of that class. -/
theorem Separate.before_eq_nil {s s' : ProtocolClasses} (h : Separate s) (hnext : Separate s')
    {before : List DeclaredCall} (haccepted : Accepted s.rpcs before)
    (hrpcs : s'.rpcs = s.rpcs ++ before) {c : ProtocolClass} (hc : c ∈ s.classes)
    (hc' : c ∈ s'.classes) : before = [] := by
  cases before with
  | nil => rfl
  | cons first before =>
    have hmem : first ∈ s'.rpcs := by
      rw [hrpcs]
      exact List.mem_append_right _ List.mem_cons_self
    have hdeclared := (hnext.table c hc' first).mp hmem
    exact absurd ((h.table c hc first).mpr hdeclared) (haccepted.not_mem List.mem_cons_self)

theorem Separate.rejects_first {s : ProtocolClasses} {d : ClassDefinition} (h : Separate s)
    (hnext : Separate (s.define d)) (hne : s.classes ≠ []) :
    ∀ call ∈ d.calls.head?, validateRpcId s.rpcs call.rpcId ≠ none := by
  obtain ⟨c, hc⟩ := List.exists_mem_of_ne_nil _ hne
  obtain ⟨haccepted, hdefine⟩ | ⟨before, call, after, error, hcalls, haccepted, herror, hdefine⟩ :=
    define_cases s d
  · rw [hdefine] at hnext
    have hnil : d.calls = [] :=
      h.before_eq_nil hnext haccepted rfl hc (List.mem_append_left _ hc)
    rw [hnil]
    exact fun call hcall => absurd hcall (Option.not_mem_none call)
  · rw [hdefine] at hnext
    obtain rfl : before = [] := h.before_eq_nil hnext haccepted rfl hc hc
    rw [hcalls]
    intro first hfirst
    obtain rfl : call = first := Option.some.inj hfirst
    rw [List.append_nil] at herror
    rw [herror]
    exact Option.some_ne_none error

/-- The table of a new class holds the calls registered before. -/
theorem Separate.mem_inherited {s : ProtocolClasses} {d : ClassDefinition}
    (hnext : Separate (s.define d)) (haccepted : Accepted s.rpcs d.calls) {call : DeclaredCall}
    (hcall : call ∈ s.rpcs) : call ∈ s.inherited d := by
  rw [define_of_accepted haccepted] at hnext
  have hdeclared := (hnext.table ⟨d.calls, s.inherited d⟩
    (List.mem_append_right _ (List.mem_singleton_self _)) call).mp (List.mem_append_left _ hcall)
  exact (List.mem_append.mp hdeclared).resolve_left
    fun hown => haccepted.not_mem hown hcall

/-- The call that gets another one rejected is declared in the class or in its bases. -/
theorem Separate.mem_inherited_of_rejected {s : ProtocolClasses} {d : ClassDefinition}
    (hvalid : Valid s) (hnext : Separate (s.define d)) {before after : List DeclaredCall}
    {call other : DeclaredCall} (hcalls : d.calls = before ++ call :: after)
    (haccepted : Accepted s.rpcs before) (hother : other ∈ s.rpcs)
    (heq : other.rpcId = call.rpcId) : other ∈ s.inherited d := by
  have herror : validateRpcId (s.rpcs ++ before) call.rpcId = some .alreadyUsed := by
    rw [← heq]
    exact validateRpcId_of_mem (List.mem_append_left _ hother)
  rw [define_of_rejected hcalls haccepted herror] at hnext
  obtain ⟨known, hknown, hid⟩ := hnext.duplicates _
    (List.mem_append_right _ (List.mem_singleton_self _)) rfl
  have hids := haccepted.validIds hvalid.ids
  rcases List.mem_append.mp hknown with hown | hinherited
  · -- a call of the class itself has another identifier than the registered one
    have hsame := hids.eq_of_rpcId (List.mem_append_right _ hown)
      (List.mem_append_left _ hother) (hid.trans heq.symm)
    exact absurd (hsame ▸ hother) (haccepted.not_mem hown)
  · have hsame := hids.eq_of_rpcId (List.mem_append_left _ (hvalid.inherited hinherited))
      (List.mem_append_left _ hother) (hid.trans heq.symm)
    exact hsame ▸ hinherited

theorem Separate.ok_of_define {s : ProtocolClasses} (h : Separate s) (hvalid : Valid s)
    {d : ClassDefinition} (hnext : Separate (s.define d)) : Ok s d where
  registers := h.rejects_first hnext
  creates := fun haccepted _ hcall => hnext.mem_inherited haccepted hcall
  rejects := fun _ _ _ hcalls haccepted _ hother heq =>
    hnext.mem_inherited_of_rejected hvalid hcalls haccepted hother heq

structure Good (s : ProtocolClasses) : Prop where
  separate : Separate s
  valid : Valid s

/-- The tables of the classes are separate after every definition if and only if no definition meets
the calls of other classes. -/
theorem separate_throughout_iff {s : ProtocolClasses} {ds : List ClassDefinition}
    (hrun : run step init ds = some s) :
    Throughout step Separate init ds ↔ Along step Ok init ds := by
  refine throughout_iff_along (fun s (h : Good s) => h.separate) (fun s d s' h hstep hok => ?_)
    (fun s d s' h hstep hnot => ?_) ⟨separate_init, valid_init⟩ hrun
  · rw [step_eq_some hstep]
    exact ⟨h.separate.define h.valid hok, h.valid.define d⟩
  · rw [step_eq_some hstep]
    exact mt (h.separate.ok_of_define h.valid) hnot

/-- The first definition meets no calls. -/
theorem ok_init (d : ClassDefinition) : Ok init d where
  registers h := absurd rfl h
  creates _ _ hcall := absurd hcall List.not_mem_nil
  rejects _ _ _ _ _ _ hother _ := absurd hother List.not_mem_nil

/-- A class that declares nothing and inherits all calls meets no others. -/
theorem ok_of_inherits {s : ProtocolClasses} {bases : List ℕ}
    (h : s.rpcs ⊆ s.inherited ⟨bases, []⟩) : Ok s ⟨bases, []⟩ where
  registers _ call hcall := absurd hcall (Option.not_mem_none call)
  creates _ _ hcall := h hcall
  rejects _ _ _ hcalls _ _ _ _ :=
    absurd hcalls.symm (List.append_ne_nil_of_right_ne_nil _ (List.cons_ne_nil _ _))

/-- One class with two calls and a class derived from it. -/
theorem separate_derivedClass :
    Throughout step Separate init
      [⟨[], [⟨"read8", 0x001⟩, ⟨"notify_log", 0x100⟩]⟩, ⟨[0], []⟩] := by
  refine (separate_throughout_iff rfl).mpr (along_cons rfl (ok_init _) (along_cons rfl ?_ trivial))
  exact ok_of_inherits fun call hcall => hcall

/-- Two unrelated classes: the table of the first one holds the call of the second, and a third
class is rejected for an identifier of the first. -/
theorem mixed_unrelatedClasses :
    ∃ ping pong reset : DeclaredCall, ∃ s,
      run step init [⟨[], [ping]⟩, ⟨[], [pong]⟩, ⟨[], [reset]⟩] = some s ∧
      s.classes = [⟨[ping], []⟩, ⟨[pong], []⟩] ∧ pong ∈ s.rpcsOf ⟨[ping], []⟩ ∧ pong ≠ ping ∧
      s.rejections = [⟨reset, .alreadyUsed, []⟩] ∧ ¬ Separate s := by
  refine ⟨⟨"ping", 1⟩, ⟨"pong", 2⟩, ⟨"reset", 1⟩, _, rfl, rfl, ?_, by decide, rfl, fun h => ?_⟩
  · exact List.mem_cons_of_mem _ (List.mem_singleton_self _)
  · obtain ⟨call, hcall, -⟩ := h.duplicates _ (List.mem_singleton_self _) rfl
    exact absurd hcall List.not_mem_nil

end ProtocolClasses

end CompostRpc
