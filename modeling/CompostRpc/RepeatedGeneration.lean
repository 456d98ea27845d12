import CompostRpc.CCodeGenerator

/-!
# Repeated generation

Each call of the C generator that gets past the endpoint check appends all type definitions to
its fields once more, so that the text of a later call has them once for each such call before it.
A generator that has been used returns what a fresh one returns exactly if there are no type
definitions or no earlier call got that far.
-/

namespace CompostRpc
open AppendOnly

namespace CCodeGenerator

variable (py : StrMethods) (templates : CTemplates) (p : ProtocolDefinition)

theorem appending_defineInit (name : String) (members : Members) :
    Appending (defineInit py name members) := by
  have halloc : Appending (defineAllocInit name members) :=
    (Appending.append _).bind fun _ => (Appending.append _).bind fun _ => Appending.append _
  unfold defineInit
  dsimp only
  split
  · exact halloc.bind fun _ => (Appending.append _).bind fun _ =>
      (Appending.raiseError _).bind fun _ => Appending.append _
  · exact (Appending.append _).bind fun _ =>
      (Appending.raiseError _).bind fun _ => Appending.append _

theorem appending_memberDeclarations (members : Members) :
    Appending (memberDeclarations members) := by
  induction members using Members.induction with
  | nil => exact Appending.pure ()
  | cons name t rest ih => exact (Appending.append _).bind fun _ => ih

theorem appending_defineType (t : UserType) : Appending (defineType py t) := by
  cases t with
  | enum e => exact Appending.append _
  | struct name members =>
    exact (Appending.append _).bind fun _ => (appending_memberDeclarations members).bind fun _ =>
      (Appending.append _).bind fun _ => appending_defineInit py name members

theorem appending_defineTypes (types : List UserType) : Appending (defineTypes py types) :=
  Appending.forM (appending_defineType py) types

def headerLength (texts : TypeTexts) : ℕ :=
  texts.enums.length + texts.structs.length + texts.typeInitsProto.length

theorem headerLength_mul (a b : TypeTexts) :
    headerLength (a * b) = headerLength a + headerLength b := by
  change (a.enums ++ b.enums).length + (a.structs ++ b.structs).length +
    (a.typeInitsProto ++ b.typeInitsProto).length = _
  simp only [String.length_append, headerLength]
  omega

theorem headerLength_defineType_pos (t : UserType) :
    0 < headerLength (added (defineType py t)) := by
  cases t with
  | enum e =>
    simp only [defineType, added_append, headerLength, String.length_append]
    have : 0 < "\nenum ".length := by decide
    omega
  | struct name members =>
    refine Nat.lt_of_lt_of_le ?_ (size_added_le_bind headerLength headerLength_mul fun _ =>
      (appending_memberDeclarations members).bind fun _ =>
        (Appending.append _).bind fun _ => appending_defineInit py name members)
    simp only [added_append, headerLength, String.length_append]
    have : 0 < "\n\nstruct ".length := by decide
    omega

def definitions (types : List UserType) : TypeTexts := added (defineTypes py types)

theorem headerLength_definitions_pos {types : List UserType} (h : types ≠ []) :
    0 < headerLength (definitions py types) :=
  size_added_forM_pos headerLength headerLength_mul (appending_defineType py)
    (headerLength_defineType_pos py) h

theorem generateOutbound_header (endpoint : Endpoint) (rpcs : List RpcDeclaration) :
    ∃ more, ∀ header source serdes,
      (generateOutbound py endpoint rpcs header source serdes).1 = header ++ more := by
  induction rpcs with
  | nil => exact ⟨"", fun header _ _ => String.append_empty.symm⟩
  | cons notif rpcs ih =>
    obtain ⟨more, hmore⟩ := ih
    cases hskip : !notif.isNotification || !endpoint.isCallOutbound notif.direction with
    | true =>
      refine ⟨more, fun header source serdes => ?_⟩
      rw [generateOutbound, if_pos hskip, hmore]
    | false =>
      refine ⟨notificationPrototype notif ++ more, fun header source serdes => ?_⟩
      rw [generateOutbound, if_neg (by simp [hskip]), hmore, String.append_assoc]

/-- A call whose prototype can be written has an `invoke` function. -/
theorem invokeSource_of_prototype {rpc : RpcDeclaration} {prototype : String}
    (h : invokePrototype rpc = .ok prototype) (serdes : TypeSerdes) :
    ∃ code serdes', invokeSource py rpc serdes = (.ok code, serdes') := by
  obtain ⟨handler, hhandler, -⟩ := except_bind_eq_ok.mp h
  obtain ⟨type, htype, -⟩ := except_bind_eq_ok.mp hhandler
  have hcall : ∃ text, handlerCall rpc = .ok text := by
    rw [handlerCall, htype]
    exact ⟨_, rfl⟩
  obtain ⟨text, htext⟩ := hcall
  simp only [invokeSource, htext]
  exact ⟨_, _, rfl⟩

/-- The header text of the inbound calls, or the exception, is the same in every generator. -/
theorem generateInbound_header (endpoint : Endpoint) (rpcs : List RpcDeclaration) :
    (∃ more, ∀ header source serdes, ∃ source' serdes',
      generateInbound py endpoint rpcs header source serdes =
        (.ok (header ++ more, source'), serdes')) ∨
    (∃ e, ∀ header source serdes,
      (generateInbound py endpoint rpcs header source serdes).1 = .error e) := by
  induction rpcs with
  | nil => exact .inl ⟨"", fun _ _ _ => ⟨_, _, by rw [generateInbound, String.append_empty]⟩⟩
  | cons rpc rpcs ih =>
    cases hskip : !endpoint.isCallInbound rpc.direction with
    | true => simpa only [generateInbound, if_pos hskip] using ih
    | false =>
      have hne : ¬ (!endpoint.isCallInbound rpc.direction) = true := by simp [hskip]
      simp only [generateInbound, if_neg hne]
      cases hprototype : invokePrototype rpc with
      | error e => exact .inr ⟨e, fun _ _ _ => rfl⟩
      | ok prototype =>
        rcases ih with ⟨more, hmore⟩ | ⟨e, he⟩
        · refine .inl ⟨prototype ++ more, fun header source serdes => ?_⟩
          obtain ⟨code, serdes', hcode⟩ := invokeSource_of_prototype py hprototype serdes
          obtain ⟨source', serdes'', hrest⟩ :=
            hmore (header ++ prototype) (source.append code) serdes'
          refine ⟨source', serdes'', ?_⟩
          rw [hcode, ← String.append_assoc]
          exact hrest
        · refine .inr ⟨e, fun header source serdes => ?_⟩
          obtain ⟨code, serdes', hcode⟩ := invokeSource_of_prototype py hprototype serdes
          rw [hcode]
          exact he _ _ _

/-- The header depends on the fields of the generator through the accumulated texts only. -/
theorem generateCalls_header (call : GenerateCall) :
    ∃ more, ∀ texts serdes files,
      (generateCalls py templates p call texts serdes).1 = .ok files →
      ∃ source, files = [⟨call.pathHeader, call.filename ++ ".h",
        headerText py templates call (headerTypes texts ++ more)⟩, source] := by
  obtain ⟨outbound, houtbound⟩ := generateOutbound_header py call.endpoint p.rpcs
  rcases generateInbound_header py call.endpoint p.rpcs with ⟨inbound, hinbound⟩ | ⟨e, he⟩
  · refine ⟨outbound ++ inbound, fun texts serdes files hfiles => ?_⟩
    rw [generateCalls] at hfiles
    dsimp only at hfiles
    obtain ⟨source, serdes', hreturns⟩ := hinbound _ _ _
    rw [houtbound, hreturns] at hfiles
    cases hfiles
    exact ⟨_, by rw [← String.append_assoc]⟩
  · refine ⟨"", fun texts serdes files hfiles => ?_⟩
    rw [generateCalls] at hfiles
    dsimp only at hfiles
    split at hfiles
    · cases hfiles
    · rename_i hreturns
      exact absurd ((congrArg Prod.fst hreturns).symm.trans (he _ _ _)) nofun

theorem generate_invalid {call : GenerateCall} (h : validateEndpoint p call.endpoint = false)
    (s : CCodeGenerator) : generate py templates p call s = (.error .valueError, s) := by
  rw [generate, if_pos (by rw [h]; rfl)]

theorem generate_valid {call : GenerateCall} (h : validateEndpoint p call.endpoint = true)
    (s : CCodeGenerator) :
    generate py templates p call s =
      let texts := s.texts * definitions py p.customUserTypes
      match (exec (defineTypes py p.customUserTypes) 1).1 with
      | .error e => (.error e, ⟨texts, s.typeSerdes⟩)
      | .ok _ =>
        let (files, serdes) := generateCalls py templates p call texts s.typeSerdes
        (files, ⟨texts, serdes⟩) := by
  rw [generate, if_neg (by rw [h]; exact Bool.false_ne_true),
    appending_defineTypes py p.customUserTypes s.texts]
  cases (exec (defineTypes py p.customUserTypes) 1).1 <;> rfl

/-- Past the endpoint check the definitions are appended, whatever happens after that. -/
theorem generate_texts (call : GenerateCall) (s : CCodeGenerator) :
    (generate py templates p call s).2.texts =
      if validateEndpoint p call.endpoint then s.texts * definitions py p.customUserTypes
      else s.texts := by
  cases hvalid : validateEndpoint p call.endpoint with
  | false => rw [generate_invalid py templates p hvalid, if_neg Bool.false_ne_true]
  | true =>
    rw [generate_valid py templates p hvalid, if_pos rfl]
    cases (exec (defineTypes py p.customUserTypes) 1).1 <;> rfl

/-- The header that a call returns, from any generator. -/
theorem generate_header (call : GenerateCall) :
    ∃ more, ∀ s files, (generate py templates p call s).1 = .ok files →
      ∃ source, files = [⟨call.pathHeader, call.filename ++ ".h", headerText py templates call
        (headerTypes (s.texts * definitions py p.customUserTypes) ++ more)⟩, source] := by
  obtain ⟨more, hmore⟩ := generateCalls_header py templates p call
  refine ⟨more, fun s files hfiles => ?_⟩
  cases hvalid : validateEndpoint p call.endpoint with
  | false =>
    rw [generate_invalid py templates p hvalid] at hfiles
    cases hfiles
  | true =>
    rw [generate_valid py templates p hvalid] at hfiles
    cases hdefine : (exec (defineTypes py p.customUserTypes) 1).1 with
    | error e =>
      rw [hdefine] at hfiles
      cases hfiles
    | ok _ =>
      rw [hdefine] at hfiles
      exact hmore _ _ _ hfiles

/-- Texts of different lengths show in the header. -/
theorem headerText_ne {a b : TypeTexts} (h : headerLength a < headerLength b) (call : GenerateCall)
    (more : String) :
    headerText py templates call (headerTypes a ++ more) ≠
      headerText py templates call (headerTypes b ++ more) := by
  intro heq
  have hprotocol := (String.append_right_inj _).mp ((String.append_left_inj _).mp heq)
  have hlength := congrArg String.length ((String.append_left_inj _).mp hprotocol)
  simp only [headerTypes, String.length_append] at hlength
  generalize generationNote.length = note, "\n\n".length = gap, "\n".length = line at hlength
  rw [headerLength, headerLength] at h
  omega

def afterCalls (earlier : List GenerateCall) : CCodeGenerator :=
  earlier.foldl (fun s call => (generate py templates p call s).2) .fresh

/-- The definitions once for each call that got past the endpoint check. -/
theorem texts_afterCalls (earlier : List GenerateCall) :
    (afterCalls py templates p earlier).texts =
      definitions py p.customUserTypes ^
        earlier.countP fun call => validateEndpoint p call.endpoint := by
  have hrounds : ∀ (calls : List GenerateCall) (s : CCodeGenerator),
      (calls.foldl (fun s call => (generate py templates p call s).2) s).texts =
        calls.foldl (fun texts call => if validateEndpoint p call.endpoint then
          texts * definitions py p.customUserTypes else texts) s.texts := by
    intro calls
    induction calls with
    | nil => exact fun _ => rfl
    | cons call calls ih =>
      intro s
      rw [List.foldl_cons, List.foldl_cons, ih, generate_texts]
  rw [afterCalls, hrounds, foldl_mul_pow]
  exact one_mul _

def returned (earlier : List GenerateCall) (call : GenerateCall) :
    Except PyError (List GeneratedFile) :=
  (generate py templates p call (afterCalls py templates p earlier)).1

def NoStructs (rpc : RpcDeclaration) : Prop :=
  ∀ name members, WireType.struct name members ∉ rpc.annotations

theorem defineHelper_of_not_struct {t : WireType} (h : ∀ name members, t ≠ .struct name members)
    (helper : Helper) (serdes : TypeSerdes) : defineHelper helper t serdes = serdes := by
  cases t with
  | struct name members => exact absurd rfl (h name members)
  | _ =>
    rw [defineHelper]
    simp

theorem addCalls_of_not_struct {params : List (String × WireType)}
    (h : ∀ param ∈ params, ∀ name members, param.2 ≠ .struct name members) (helper : Helper)
    (namePrefix ptr : String) (code : CodeString) (serdes : TypeSerdes) :
    (addCalls helper namePrefix ptr params code serdes).2 = serdes := by
  induction params generalizing code serdes with
  | nil => rfl
  | cons param params ih =>
    obtain ⟨hparam, hparams⟩ := List.forall_mem_cons.mp h
    rw [addCalls, ih hparams, defineHelper_of_not_struct hparam]

theorem NoStructs.addCalls_params {rpc : RpcDeclaration} (h : NoStructs rpc) (helper : Helper)
    (namePrefix ptr : String) (code : CodeString) (serdes : TypeSerdes) :
    (addCalls helper namePrefix ptr rpc.params code serdes).2 = serdes := by
  refine addCalls_of_not_struct (fun param hparam name members htype => ?_) _ _ _ _ _
  exact h name members (List.mem_append_left _ (htype ▸ List.mem_map_of_mem hparam))

theorem NoStructs.invokeSource_serdes {rpc : RpcDeclaration} (h : NoStructs rpc)
    (serdes : TypeSerdes) : (invokeSource py rpc serdes).2 = serdes := by
  unfold invokeSource
  dsimp only
  cases handlerCall rpc with
  | error e => exact h.addCalls_params _ _ _ _ _
  | ok call =>
    cases hret : rpc.ret with
    | none => exact h.addCalls_params _ _ _ _ _
    | some t =>
      dsimp only
      rw [addCalls_of_not_struct, h.addCalls_params]
      intro param hparam name members htype
      rw [List.mem_singleton.mp hparam] at htype
      refine h name members (List.mem_append_right _ ?_)
      rw [hret]
      exact List.mem_singleton.mpr htype.symm

theorem generateOutbound_serdes (endpoint : Endpoint) {rpcs : List RpcDeclaration}
    (h : ∀ rpc ∈ rpcs, NoStructs rpc) (header : String) (source : CodeString)
    (serdes : TypeSerdes) :
    (generateOutbound py endpoint rpcs header source serdes).2.2 = serdes := by
  induction rpcs generalizing header source serdes with
  | nil => rfl
  | cons notif rpcs ih =>
    obtain ⟨hnotif, hrpcs⟩ := List.forall_mem_cons.mp h
    rw [generateOutbound]
    split
    · exact ih hrpcs _ _ _
    · exact (ih hrpcs _ _ _).trans (hnotif.addCalls_params _ _ _ _ _)

theorem generateInbound_serdes (endpoint : Endpoint) {rpcs : List RpcDeclaration}
    (h : ∀ rpc ∈ rpcs, NoStructs rpc) (header : String) (source : CodeString)
    (serdes : TypeSerdes) :
    (generateInbound py endpoint rpcs header source serdes).2 = serdes := by
  induction rpcs generalizing header source serdes with
  | nil => rfl
  | cons rpc rpcs ih =>
    obtain ⟨hrpc, hrpcs⟩ := List.forall_mem_cons.mp h
    have hserdes := hrpc.invokeSource_serdes py serdes
    rw [generateInbound]
    split
    · exact ih hrpcs _ _ _
    · cases invokePrototype rpc with
      | error e => rfl
      | ok prototype =>
        dsimp only
        rcases hinvoke : invokeSource py rpc serdes with ⟨e | code, serdes'⟩
        · rwa [hinvoke] at hserdes
        · rw [hinvoke] at hserdes
          exact (ih hrpcs _ _ _).trans hserdes

theorem generateCalls_serdes (call : GenerateCall) (h : ∀ rpc ∈ p.rpcs, NoStructs rpc)
    (texts : TypeTexts) (serdes : TypeSerdes) :
    (generateCalls py templates p call texts serdes).2 = serdes := by
  have hkept := fun header source source' =>
    (generateInbound_serdes py call.endpoint h header source _).trans
      (generateOutbound_serdes py call.endpoint h (headerTypes texts) source' serdes)
  rw [generateCalls]
  dsimp only
  split
  all_goals
    rename_i hreturns
    exact (congrArg Prod.snd hreturns).symm.trans (hkept _ _ _)

/-- Without type definitions a generator stays as it was constructed. -/
theorem generate_fresh (hempty : p.customUserTypes = []) (call : GenerateCall) :
    (generate py templates p call .fresh).2 = .fresh := by
  have hstructs : ∀ rpc ∈ p.rpcs, NoStructs rpc := fun rpc hrpc name members hmem => by
    have hregistered := p.registered rpc hrpc name members hmem
    rw [hempty] at hregistered
    cases hregistered
  cases hvalid : validateEndpoint p call.endpoint with
  | false => rw [generate_invalid py templates p hvalid]
  | true =>
    rw [generate_valid py templates p hvalid, hempty]
    exact congrArg (CCodeGenerator.mk 1) (generateCalls_serdes py templates p call hstructs 1 [])

theorem afterCalls_fresh {earlier : List GenerateCall}
    (h : ∀ call ∈ earlier, (generate py templates p call .fresh).2 = .fresh) :
    afterCalls py templates p earlier = .fresh := by
  induction earlier with
  | nil => rfl
  | cons call earlier ih =>
    obtain ⟨hcall, hearlier⟩ := List.forall_mem_cons.mp h
    rw [afterCalls, List.foldl_cons, hcall]
    exact ih hearlier

/-- The header holds the definitions once for this call and once for each earlier call that got
past the endpoint check. -/
theorem returned_header (call : GenerateCall) :
    ∃ more, ∀ earlier files, returned py templates p earlier call = .ok files →
      ∃ source, files = [⟨call.pathHeader, call.filename ++ ".h", headerText py templates call
        (headerTypes (definitions py p.customUserTypes ^
          ((earlier.countP fun c => validateEndpoint p c.endpoint) + 1)) ++ more)⟩, source] := by
  obtain ⟨more, hmore⟩ := generate_header py templates p call
  refine ⟨more, fun earlier files hfiles => ?_⟩
  obtain ⟨source, hheader⟩ := hmore _ _ hfiles
  refine ⟨source, ?_⟩
  rw [hheader, texts_afterCalls, ← pow_succ]

theorem returned_ne {earlier : List GenerateCall} {call : GenerateCall}
    {files : List GeneratedFile} (htypes : p.customUserTypes ≠ [])
    (hearlier : ∃ c ∈ earlier, validateEndpoint p c.endpoint = true)
    (hfiles : returned py templates p earlier call = .ok files) :
    returned py templates p [] call ≠ .ok files := by
  intro hfresh
  obtain ⟨more, hmore⟩ := returned_header py templates p call
  obtain ⟨source, hused⟩ := hmore _ _ hfiles
  obtain ⟨source', hfirst⟩ := hmore _ _ hfresh
  have htext := congrArg GeneratedFile.text (List.cons.inj (hfirst.symm.trans hused)).1
  refine headerText_ne py templates ?_ call more htext
  have hcount : 0 < earlier.countP fun c => validateEndpoint p c.endpoint :=
    List.countP_pos_iff.mpr hearlier
  have hpos := Nat.mul_pos hcount (headerLength_definitions_pos py htypes)
  rw [size_pow headerLength headerLength_mul, size_pow headerLength headerLength_mul,
    List.countP_nil, Nat.zero_add, Nat.one_mul, Nat.add_mul]
  omega

/-- A call on a used generator returns what it returns on a fresh one if and only if there are no
decorated types or no earlier call got past the endpoint check. -/
theorem returned_eq_fresh_iff (earlier : List GenerateCall) (call : GenerateCall)
    (files : List GeneratedFile) (h : returned py templates p earlier call = .ok files) :
    returned py templates p [] call = .ok files ↔
      p.customUserTypes = [] ∨ ∀ c ∈ earlier, validateEndpoint p c.endpoint = false := by
  constructor
  · intro hfresh
    by_contra hnot
    obtain ⟨htypes, hearlier⟩ := not_or.mp hnot
    refine returned_ne py templates p htypes ?_ h hfresh
    simpa using hearlier
  · intro hcondition
    have hstate : afterCalls py templates p earlier = .fresh := by
      refine afterCalls_fresh py templates p fun c hc => ?_
      rcases hcondition with hempty | hinvalid
      · exact generate_fresh py templates p hempty c
      · rw [generate_invalid py templates p (hinvalid c hc)]
    rw [returned, hstate] at h
    exact h

def asciiMethods : StrMethods := ⟨String.toUpper, Char.isLower⟩

/-- The templates without the code of the library. -/
def bareTemplates : CTemplates where
  headerGuard := "#ifndef "
  headerDefine := "_H\n#define "
  headerIncludes := "_H\n\n"
  headerUuidHi := "\n#define COMPOST_UUID_HI "
  headerUuidLo := "\n#define COMPOST_UUID_LO "
  headerLibrary := "\n\n"
  headerEnd := "\n#endif /* COMPOST_H */\n"
  sourceInclude := "#include \""
  sourceUuidHi := ".h\"\n\n#if COMPOST_UUID_HI != "
  sourceUuidLo := " || COMPOST_UUID_LO != "
  sourceLibrary := "\n#endif\n\n"
  sourceEnd := "\n"

def sampleDefinition : ProtocolDefinition where
  customUserTypes := [.struct "Sample" (.cons "value" (.num .u8) .nil)]
  rpcs := [⟨0x010, "report", "Reports a value.", [("value", .num .u8)], none, true, .toLocal⟩]
  registered := by
    intro rpc hrpc name members hmem
    cases List.mem_singleton.mp hrpc
    cases List.mem_singleton.mp hmem

def sampleCall (endpoint : Endpoint) : GenerateCall :=
  ⟨endpoint, "compost", ".", ".", "0123456789ABCDEF", "0123456789ABCDEF", "0.1.0",
    "2025-01-01T00:00:00"⟩

theorem sample_returns : ∃ files,
    returned asciiMethods bareTemplates sampleDefinition [sampleCall .remote] (sampleCall .local) =
      .ok files := ⟨_, rfl⟩

theorem returned_eq_fresh_iff_sample : ∃ files,
    returned asciiMethods bareTemplates sampleDefinition [sampleCall .remote] (sampleCall .local) =
      .ok files ∧
    (returned asciiMethods bareTemplates sampleDefinition [] (sampleCall .local) = .ok files ↔
      sampleDefinition.customUserTypes = [] ∨
        ∀ c ∈ [sampleCall .remote], validateEndpoint sampleDefinition c.endpoint = false) := by
  obtain ⟨files, hfiles⟩ := sample_returns
  exact ⟨files, hfiles, returned_eq_fresh_iff _ _ _ _ _ files hfiles⟩

/-- The local endpoint after the remote one: the struct is defined twice. -/
theorem local_after_remote_differs : ∃ files fresh,
    returned asciiMethods bareTemplates sampleDefinition [sampleCall .remote] (sampleCall .local) =
      .ok files ∧
    returned asciiMethods bareTemplates sampleDefinition [] (sampleCall .local) = .ok fresh ∧
    files ≠ fresh := by
  obtain ⟨files, hfiles⟩ := sample_returns
  have hfresh : ∃ fresh,
      returned asciiMethods bareTemplates sampleDefinition [] (sampleCall .local) = .ok fresh :=
    ⟨_, rfl⟩
  obtain ⟨fresh, hfresh⟩ := hfresh
  refine ⟨files, fresh, hfiles, hfresh, fun heq => ?_⟩
  refine returned_ne _ _ _ (List.cons_ne_nil _ _) ?_ hfiles (heq ▸ hfresh)
  exact ⟨sampleCall .remote, List.mem_singleton_self _, rfl⟩

end CCodeGenerator

end CompostRpc
