import CompostRpc.DefinitionOrder
import CompostRpc.RepeatedGeneration

/-!
# The helpers in a generated source

The load or store helper of a struct is defined when a call of it is generated for the first time;
while its text is put together, the helpers of its members are defined. In the source a helper
therefore stands behind those that it calls, and in front of the functions of the calls.
-/

namespace CompostRpc
open DefinitionOrder AppendOnly

mutual

def WireType.structs : WireType → List (String × Members)
  | .struct name members => (name, members) :: members.structs
  | _ => []

def Members.structs : Members → List (String × Members)
  | .nil => []
  | .cons _ t rest => t.structs ++ rest.structs

end

mutual

/-- A struct in a type is smaller. -/
theorem WireType.sizeOf_structs (t : WireType) {s : String × Members} (h : s ∈ t.structs) :
    sizeOf s.2 < sizeOf t := by
  match t with
  | .struct name members =>
    have hsize : sizeOf members < sizeOf (WireType.struct name members) := by
      rw [WireType.struct.sizeOf_spec]
      omega
    rcases List.mem_cons.mp h with rfl | hmem
    · exact hsize
    · exact (members.sizeOf_structs hmem).trans hsize
  | .num _ | .str | .bytes | .list _ | .bitU _ | .enum _ => cases h

theorem Members.sizeOf_structs (ms : Members) {s : String × Members} (h : s ∈ ms.structs) :
    sizeOf s.2 < sizeOf ms := by
  match ms with
  | .nil => cases h
  | .cons name t rest =>
    rw [Members.cons.sizeOf_spec]
    rcases List.mem_append.mp h with hmem | hmem
    · have hsize := t.sizeOf_structs hmem
      omega
    · have hsize := rest.sizeOf_structs hmem
      omega

end

namespace CCodeGenerator

abbrev HelperKey := Helper × String

def Helper.fn (helper : Helper) (name : String) : String := name ++ "_" ++ helper.suffix

def helperText (helper : Helper) (name : String) (members : Members) : String :=
  let code := ((CodeString.mk "" 0).add [helper.prototype name, "\x7b"]).indentInc
  let code := if helper = .load then code.add ["struct " ++ name ++ " ret;"] else code
  let (code, offset, _) := helperMembers helper members code ⟨0⟩ []
  let (code, _) := byteAlign code offset ("*" ++ helper.iterPtr)
  let code := if helper = .load then code.add ["return ret;"] else code
  (code.indentDec.add ["\x7d\n"]).str

def calledFor (helper : Helper) : WireType → List HelperKey
  | .struct name _ => [(helper, name)]
  | _ => []

def calledForMembers (helper : Helper) : Members → List HelperKey
  | .nil => []
  | .cons _ t rest => calledFor helper t ++ calledForMembers helper rest

section
variable (env : String → Members)

def Named (t : WireType) : Prop := ∀ s ∈ t.structs, env s.1 = s.2

def calls (key : HelperKey) : List HelperKey := calledForMembers key.1 (env key.2)

def entry (key : HelperKey) : String × String :=
  (key.1.fn key.2, helperText key.1 key.2 (env key.2))

end

def defineMembers (helper : Helper) : Members → TypeSerdes → TypeSerdes
  | .nil, serdes => serdes
  | .cons _ t rest, serdes => defineMembers helper rest (defineHelper helper t serdes)

theorem helperMembers_eq (helper : Helper) (ms : Members) (code : CodeString) (offset : MemUnit)
    (serdes serdes' : TypeSerdes) :
    helperMembers helper ms code offset serdes =
      ((helperMembers helper ms code offset serdes').1,
        (helperMembers helper ms code offset serdes').2.1, defineMembers helper ms serdes) := by
  induction ms using Members.induction generalizing code offset serdes serdes' with
  | nil => rfl
  | cons name t rest ih =>
    rw [helperMembers, helperMembers, defineMembers]
    cases bitWidth t with
    | some width => exact ih _ _ _ _
    | none => exact ih _ _ _ _

theorem defineHelper_struct (helper : Helper) (name : String) (members : Members)
    (serdes : TypeSerdes) :
    defineHelper helper (.struct name members) serdes =
      if serdes.any (·.1 == helper.fn name) then serdes
      else (defineMembers helper members serdes).set (helper.fn name)
        (helperText helper name members) := by
  have hmembers := fun code => helperMembers_eq helper members code ⟨0⟩ serdes []
  rw [defineHelper]
  simp only [hmembers]
  rfl

theorem Helper.fn_inj {helper helper' : Helper} {name name' : String}
    (h : helper.fn name = helper'.fn name') : helper = helper' ∧ name = name' := by
  have htexts := congrArg String.toList h
  simp only [Helper.fn, String.toList_append, List.append_assoc] at htexts
  have hlast := congrArg List.getLast? htexts
  cases helper <;> cases helper'
  · exact ⟨rfl, String.toList_inj.mp (List.append_cancel_right htexts)⟩
  · simp [Helper.suffix] at hlast
  · simp [Helper.suffix] at hlast
  · exact ⟨rfl, String.toList_inj.mp (List.append_cancel_right htexts)⟩

theorem entry_fst_injective (env : String → Members) {key key' : HelperKey}
    (h : (entry env key).1 = (entry env key').1) : key = key' :=
  Prod.ext (Helper.fn_inj h).1 (Helper.fn_inj h).2

theorem any_entry_iff (env : String → Members) (key : HelperKey) (keys : List HelperKey) :
    (keys.map (entry env)).any (·.1 == key.1.fn key.2) = true ↔ key ∈ keys := by
  rw [List.any_map, List.any_eq_true]
  constructor
  · rintro ⟨key', hkey', heq⟩
    obtain rfl := entry_fst_injective env (eq_of_beq heq)
    exact hkey'
  · intro hkey
    exact ⟨key, hkey, beq_self_eq_true _⟩

/-- A new key is put behind the others. -/
theorem TypeSerdes.set_of_forall {serdes : TypeSerdes} {key code : String}
    (h : ∀ e ∈ serdes, e.1 ≠ key) : serdes.set key code = serdes ++ [(key, code)] := by
  induction serdes with
  | nil => rfl
  | cons e serdes ih =>
    obtain ⟨hfirst, hrest⟩ := List.forall_mem_cons.mp h
    rw [TypeSerdes.set, if_neg hfirst, ih hrest, List.cons_append]

/-- The dictionary has entries for the keys after the definitions, if it had entries for those
before. -/
def Extends (env : String → Members) (structs : List (String × Members)) (helper : Helper)
    (names : List HelperKey) (serdes : TypeSerdes) (keys : List HelperKey) : Prop :=
  ∃ keys', serdes = keys'.map (entry env) ∧
    Defines (calls env) (structs.map fun s => (helper, s.1)) names keys keys'

mutual

theorem defineHelper_extends {env : String → Members} (helper : Helper) (t : WireType)
    (hnamed : Named env t) {keys : List HelperKey} (hkeys : Ordered (calls env) keys) :
    Extends env t.structs helper (calledFor helper t) (defineHelper helper t (keys.map (entry env)))
      keys := by
  match t with
  | .struct name members =>
    have henv : env name = members := hnamed _ List.mem_cons_self
    rw [defineHelper_struct]
    by_cases hdefined : (helper, name) ∈ keys
    · rw [if_pos ((any_entry_iff env (helper, name) keys).mpr hdefined)]
      exact ⟨keys, rfl, .of_mem hkeys hdefined _⟩
    · rw [if_neg ((any_entry_iff env (helper, name) keys).not.mpr hdefined)]
      obtain ⟨keys', hserdes, hdefines⟩ := defineMembers_extends helper members
        (fun s hs => hnamed s (List.mem_cons_of_mem _ hs)) hkeys
      have hnew : (helper, name) ∉ members.structs.map fun s => (helper, s.1) := by
        intro hmem
        obtain ⟨s, hs, heq⟩ := List.mem_map.mp hmem
        have hsize := members.sizeOf_structs hs
        have hname : s.1 = name := congrArg Prod.snd heq
        rw [← hnamed s (List.mem_cons_of_mem _ hs), hname, henv] at hsize
        exact hsize.false
      have huses : calls env (helper, name) = calledForMembers helper members := by
        rw [calls, henv]
      rw [← huses] at hdefines
      refine ⟨keys' ++ [(helper, name)], ?_, hdefines.snoc hdefined hnew⟩
      rw [hserdes, TypeSerdes.set_of_forall, List.map_append, ← henv]
      · rfl
      · intro e he heq
        obtain ⟨key, hkey, rfl⟩ := List.mem_map.mp he
        obtain rfl := @entry_fst_injective env key (helper, name) heq
        exact (hdefines.comes _ hkey).elim hdefined hnew
  | .num _ | .str | .bytes | .list _ | .bitU _ | .enum _ => exact ⟨keys, rfl, .refl hkeys⟩

theorem defineMembers_extends {env : String → Members} (helper : Helper) (ms : Members)
    (hnamed : ∀ s ∈ ms.structs, env s.1 = s.2) {keys : List HelperKey}
    (hkeys : Ordered (calls env) keys) :
    Extends env ms.structs helper (calledForMembers helper ms)
      (defineMembers helper ms (keys.map (entry env))) keys := by
  match ms with
  | .nil => exact ⟨keys, rfl, .refl hkeys⟩
  | .cons name t rest =>
    obtain ⟨keys', hserdes, hdefines⟩ := defineHelper_extends helper t
      (fun s hs => hnamed s (List.mem_append_left _ hs)) hkeys
    obtain ⟨keys'', hserdes', hdefines'⟩ := defineMembers_extends helper rest
      (fun s hs => hnamed s (List.mem_append_right _ hs)) hdefines.ordered
    refine ⟨keys'', ?_, ?_⟩
    · rw [defineMembers, hserdes, hserdes']
    · rw [Members.structs, List.map_append]
      exact hdefines.append hdefines'

end

variable (py : StrMethods) (templates : CTemplates) (p : ProtocolDefinition)

def calledForTypes (helper : Helper) (types : List WireType) : List HelperKey :=
  types.flatMap (calledFor helper)

def calledOutbound (endpoint : Endpoint) (rpc : RpcDeclaration) : List HelperKey :=
  if rpc.isNotification && endpoint.isCallOutbound rpc.direction then
    calledForTypes .store (rpc.params.map Prod.snd)
  else []

def calledInbound (endpoint : Endpoint) (rpc : RpcDeclaration) : List HelperKey :=
  if endpoint.isCallInbound rpc.direction then
    calledForTypes .load (rpc.params.map Prod.snd) ++ calledForTypes .store rpc.ret.toList
  else []

section
variable (env : String → Members)

/-- The dictionary has entries for a list of keys in order, with those before and those that are
used. -/
def Has (names : List HelperKey) (serdes : TypeSerdes) (keys : List HelperKey) : Prop :=
  ∃ keys', serdes = keys'.map (entry env) ∧ Ordered (calls env) keys' ∧ keys <+: keys' ∧
    ∀ name ∈ names, name ∈ keys'

variable {env}

theorem Extends.has {structs : List (String × Members)} {helper : Helper}
    {names keys : List HelperKey} {serdes : TypeSerdes}
    (h : Extends env structs helper names serdes keys) :
    Has env names serdes keys := by
  obtain ⟨keys', hserdes, hdefines⟩ := h
  exact ⟨keys', hserdes, hdefines.ordered, hdefines.grows, hdefines.defined⟩

theorem Has.refl {keys : List HelperKey} (h : Ordered (calls env) keys) :
    Has env [] (keys.map (entry env)) keys :=
  ⟨keys, rfl, h, List.prefix_refl keys, fun _ hname => absurd hname List.not_mem_nil⟩

/-- What is defined before stays defined. -/
theorem Has.after {names names' keys keys' : List HelperKey} {serdes : TypeSerdes}
    (hgrows : keys <+: keys') (hdefined : ∀ name ∈ names, name ∈ keys')
    (h : Has env names' serdes keys') : Has env (names ++ names') serdes keys := by
  obtain ⟨keys'', hserdes, hordered, hgrows', hdefined'⟩ := h
  refine ⟨keys'', hserdes, hordered, hgrows.trans hgrows', fun name hname => ?_⟩
  rcases List.mem_append.mp hname with hname | hname
  · exact hgrows'.subset (hdefined name hname)
  · exact hdefined' name hname

/-- One step after another. -/
theorem Has.trans {names names' : List HelperKey} {serdes : TypeSerdes} {keys : List HelperKey}
    {f : TypeSerdes → TypeSerdes} (h : Has env names serdes keys)
    (hf : ∀ keys', Ordered (calls env) keys' → Has env names' (f (keys'.map (entry env))) keys') :
    Has env (names ++ names') (f serdes) keys := by
  obtain ⟨keys', rfl, hordered, hgrows, hdefined⟩ := h
  exact .after hgrows hdefined (hf keys' hordered)

theorem addCalls_has (helper : Helper) (namePrefix ptr : String) (params : List (String × WireType))
    (hnamed : ∀ t ∈ params.map Prod.snd, Named env t) (code : CodeString) {keys : List HelperKey}
    (h : Ordered (calls env) keys) :
    Has env (calledForTypes helper (params.map Prod.snd))
      (addCalls helper namePrefix ptr params code (keys.map (entry env))).2 keys := by
  induction params generalizing code keys with
  | nil => exact .refl h
  | cons param params ih =>
    obtain ⟨name, t⟩ := param
    rw [List.map_cons, List.forall_mem_cons] at hnamed
    have hfirst := (defineHelper_extends helper t hnamed.1 h).has
    exact @Has.trans _ _ _ _ _ (fun serdes => (addCalls helper namePrefix ptr params _ serdes).2)
      hfirst fun keys' h' => ih hnamed.2 _ h'

/-- Without the helpers that are used. -/
theorem Has.forget {names keys : List HelperKey} {serdes : TypeSerdes}
    (h : Has env names serdes keys) : Has env [] serdes keys := by
  obtain ⟨keys', hserdes, hordered, hgrows, -⟩ := h
  exact ⟨keys', hserdes, hordered, hgrows, fun _ hname => absurd hname List.not_mem_nil⟩

theorem named_params {rpc : RpcDeclaration} (h : ∀ t ∈ rpc.annotations, Named env t) :
    ∀ t ∈ rpc.params.map Prod.snd, Named env t := fun t ht => h t (List.mem_append_left _ ht)

theorem generateOutbound_has (endpoint : Endpoint) {rpcs : List RpcDeclaration}
    (hnamed : ∀ rpc ∈ rpcs, ∀ t ∈ rpc.annotations, Named env t) (header : String)
    (source : CodeString) {keys : List HelperKey} (h : Ordered (calls env) keys) :
    Has env (rpcs.flatMap (calledOutbound endpoint))
      (generateOutbound py endpoint rpcs header source (keys.map (entry env))).2.2 keys := by
  induction rpcs generalizing header source keys with
  | nil => exact .refl h
  | cons notif rpcs ih =>
    obtain ⟨hfirst, hrest⟩ := List.forall_mem_cons.mp hnamed
    rw [generateOutbound, List.flatMap_cons, calledOutbound]
    rw [← Bool.not_and]
    cases notif.isNotification && endpoint.isCallOutbound notif.direction with
    | false => exact ih hrest header source h
    | true =>
      have hcalls := addCalls_has .store "" "&dest" notif.params (named_params hfirst)
      exact @Has.trans _ _ _ _ _ (fun serdes => (generateOutbound py endpoint rpcs _ _ serdes).2.2)
        (hcalls _ h) fun keys' h' => ih hrest _ _ h'

/-- The helpers of an `invoke` function; a call without a prototype still defines some. -/
theorem invokeSource_has {rpc : RpcDeclaration} (hnamed : ∀ t ∈ rpc.annotations, Named env t)
    {keys : List HelperKey} (h : Ordered (calls env) keys) :
    Has env [] (invokeSource py rpc (keys.map (entry env))).2 keys ∧
      ∀ code, (invokeSource py rpc (keys.map (entry env))).1 = .ok code →
        Has env (calledForTypes .load (rpc.params.map Prod.snd) ++
          calledForTypes .store rpc.ret.toList)
          (invokeSource py rpc (keys.map (entry env))).2 keys := by
  have hparams := addCalls_has .load "l_" "&src" rpc.params (named_params hnamed)
  unfold invokeSource
  dsimp only
  cases handlerCall rpc with
  | error e => exact ⟨(hparams _ h).forget, fun code hcode => by cases hcode⟩
  | ok call =>
    cases hret : rpc.ret with
    | none =>
      refine ⟨(hparams _ h).forget, fun code _ => ?_⟩
      change Has env (calledForTypes .load (rpc.params.map Prod.snd) ++ []) _ keys
      rw [List.append_nil]
      exact hparams _ h
    | some t =>
      have hnamed' : ∀ t' ∈ [("ret", t)].map Prod.snd, Named env t' := by
        intro t' ht'
        refine hnamed t' (List.mem_append_right _ ?_)
        rw [hret]
        exact ht'
      have hall := fun code code' => @Has.trans _ _ _ _ _
        (fun serdes => (addCalls .store "" "&dest" [("ret", t)] code' serdes).2) (hparams code h)
        fun keys' h' => addCalls_has .store "" "&dest" _ hnamed' _ h'
      dsimp only
      exact ⟨(hall _ _).forget, fun _ _ => hall _ _⟩

theorem generateInbound_has (endpoint : Endpoint) {rpcs : List RpcDeclaration}
    (hnamed : ∀ rpc ∈ rpcs, ∀ t ∈ rpc.annotations, Named env t) (header : String)
    (source : CodeString) {keys : List HelperKey} (h : Ordered (calls env) keys) :
    Has env [] (generateInbound py endpoint rpcs header source (keys.map (entry env))).2 keys ∧
      ∀ r, (generateInbound py endpoint rpcs header source (keys.map (entry env))).1 = .ok r →
        Has env (rpcs.flatMap (calledInbound endpoint))
          (generateInbound py endpoint rpcs header source (keys.map (entry env))).2 keys := by
  induction rpcs generalizing header source keys with
  | nil => exact ⟨.refl h, fun r _ => .refl h⟩
  | cons rpc rpcs ih =>
    obtain ⟨hfirst, hrest⟩ := List.forall_mem_cons.mp hnamed
    rw [generateInbound, List.flatMap_cons, calledInbound]
    cases endpoint.isCallInbound rpc.direction with
    | false => exact ih hrest header source h
    | true =>
      cases invokePrototype rpc with
      | error e => exact ⟨.refl h, fun r hr => by cases hr⟩
      | ok prototype =>
        have hinvoke := invokeSource_has py hfirst h
        revert hinvoke
        generalize invokeSource py rpc (keys.map (entry env)) = invoke
        intro hinvoke
        obtain ⟨e | code, serdes⟩ := invoke
        · exact ⟨hinvoke.1, fun r hr => by cases hr⟩
        · obtain ⟨keys', rfl, hordered, hgrows, hdefined⟩ := hinvoke.2 code rfl
          obtain ⟨hfail, hok⟩ := ih hrest (header ++ prototype) (source.append code) hordered
          exact ⟨(Has.after hgrows hdefined hfail).forget,
            fun r hr => .after hgrows hdefined (hok r hr)⟩

/-- The source contains the helpers of the dictionary, in this order, and then the functions. -/
def SourceHas (call : GenerateCall) (files : List GeneratedFile) (serdes : TypeSerdes) : Prop :=
  ∃ header protocol, files = [header, ⟨call.pathSource, call.filename ++ ".c",
    sourceText templates call serdes protocol⟩]

def calledAll (endpoint : Endpoint) (rpcs : List RpcDeclaration) : List HelperKey :=
  rpcs.flatMap (calledOutbound endpoint) ++ rpcs.flatMap (calledInbound endpoint)

theorem generateCalls_has (call : GenerateCall) (texts : TypeTexts)
    (hnamed : ∀ rpc ∈ p.rpcs, ∀ t ∈ rpc.annotations, Named env t) {keys : List HelperKey}
    (h : Ordered (calls env) keys) :
    Has env [] (generateCalls py templates p call texts (keys.map (entry env))).2 keys ∧
      ∀ files, (generateCalls py templates p call texts (keys.map (entry env))).1 = .ok files →
        Has env (calledAll call.endpoint p.rpcs)
          (generateCalls py templates p call texts (keys.map (entry env))).2 keys ∧
        SourceHas templates call files
          (generateCalls py templates p call texts (keys.map (entry env))).2 := by
  obtain ⟨keys', hserdes, hordered, hgrows, hdefined⟩ := generateOutbound_has py call.endpoint
    hnamed (headerTypes texts) (CodeString.mk (generationNote ++ "\n" ++ rpcIdEnum py p ++ "\n\n" ++
      texts.staticVars ++ "\n\n" ++ texts.typeInits ++ "\n") 0) h
  rw [generateCalls]
  dsimp only
  rw [hserdes]
  have hinbound := fun header source =>
    generateInbound_has py call.endpoint hnamed header source hordered
  generalize generateOutbound py call.endpoint p.rpcs _ _ _ = outbound
  obtain ⟨header, source, serdes⟩ := outbound
  specialize hinbound header source
  dsimp only
  revert hinbound
  generalize generateInbound py call.endpoint p.rpcs header source (keys'.map (entry env)) = inbound
  intro hinbound
  obtain ⟨e | ⟨header', source'⟩, serdes'⟩ := inbound
  · exact ⟨(Has.after hgrows hdefined hinbound.1).forget, fun files hfiles => by cases hfiles⟩
  · refine ⟨(Has.after hgrows hdefined hinbound.1).forget, fun files hfiles => ?_⟩
    cases hfiles
    exact ⟨.after hgrows hdefined (hinbound.2 _ rfl), _, _, rfl⟩

theorem generate_has (call : GenerateCall)
    (hnamed : ∀ rpc ∈ p.rpcs, ∀ t ∈ rpc.annotations, Named env t) {keys : List HelperKey}
    (h : Ordered (calls env) keys) {s : CCodeGenerator} (hs : s.typeSerdes = keys.map (entry env)) :
    Has env [] (generate py templates p call s).2.typeSerdes keys ∧
      ∀ files, (generate py templates p call s).1 = .ok files →
        Has env (calledAll call.endpoint p.rpcs) (generate py templates p call s).2.typeSerdes
          keys ∧
        SourceHas templates call files (generate py templates p call s).2.typeSerdes := by
  have hkept : Has env [] s.typeSerdes keys := by
    rw [hs]
    exact .refl h
  rw [generate]
  by_cases hvalid : (!validateEndpoint p call.endpoint) = true
  · rw [if_pos hvalid]
    exact ⟨hkept, fun files hfiles => by cases hfiles⟩
  rw [if_neg hvalid]
  rcases exec (defineTypes py p.customUserTypes) s.texts with ⟨e | _, texts⟩
  · exact ⟨hkept, fun files hfiles => by cases hfiles⟩
  · have hcalls := generateCalls_has py templates p call texts hnamed h
    rw [← hs] at hcalls
    exact hcalls

theorem afterCalls_ordered (hnamed : ∀ rpc ∈ p.rpcs, ∀ t ∈ rpc.annotations, Named env t)
    (earlier : List GenerateCall) :
    ∃ keys, (afterCalls py templates p earlier).typeSerdes = keys.map (entry env) ∧
      Ordered (calls env) keys := by
  have hcalls : ∀ (calls' : List GenerateCall) (s : CCodeGenerator) (keys : List HelperKey),
      s.typeSerdes = keys.map (entry env) → Ordered (calls env) keys →
      ∃ keys', (calls'.foldl (fun s call => (generate py templates p call s).2) s).typeSerdes =
        keys'.map (entry env) ∧ Ordered (calls env) keys' := by
    intro calls'
    induction calls' with
    | nil => exact fun s keys hs h => ⟨keys, hs, h⟩
    | cons call calls' ih =>
      intro s keys hs h
      obtain ⟨keys', hserdes, hordered, -⟩ := (generate_has py templates p call hnamed h hs).1
      exact ih _ keys' hserdes hordered
  exact hcalls earlier .fresh [] rfl .nil

end

def levelMembers : Members := .cons "level" (.num .u8) (.cons "samples" (.list .u16) .nil)

def pairMembers : Members :=
  .cons "first" (.struct "Level" levelMembers) (.cons "second" (.struct "Level" levelMembers) .nil)

def pairDefinition : ProtocolDefinition where
  customUserTypes := [.struct "Level" levelMembers, .struct "Pair" pairMembers]
  rpcs := [⟨0x011, "swap", "Swaps the levels.", [("pair", .struct "Pair" pairMembers)],
    some (.struct "Pair" pairMembers), false, .toRemote⟩]
  registered := by
    intro rpc hrpc name members hmem
    cases List.mem_singleton.mp hrpc
    simp only [RpcDeclaration.annotations, List.map_cons, List.map_nil, Option.toList_some,
      List.cons_append, List.nil_append, List.mem_cons, List.not_mem_nil, or_false, or_self,
      WireType.struct.injEq] at hmem
    obtain ⟨rfl, rfl⟩ := hmem
    exact List.mem_cons_of_mem _ List.mem_cons_self

def pairEnv (name : String) : Members := if name = "Level" then levelMembers else pairMembers

end CCodeGenerator

end CompostRpc
