import Mathlib.Data.List.Induction
import Mathlib.Data.List.Nodup
import CompostRpc.CAllocator
import CompostRpc.RepeatedGeneration

/-!
# The length parameters of `T_init`

The generated `T_init` has one length parameter for each list in the struct and in the structs
nested in it, with the path of the list as its name. What it passes to the `X_init` of a nested
struct is found by suffix: for each list of X the first of its own parameters whose name ends with
the name that the list has in X.
-/

namespace CompostRpc

def Members.items : Members → List (String × WireType)
  | .nil => []
  | .cons name t rest => (name, t) :: rest.items

namespace CCodeGenerator

variable (py : StrMethods)

theorem endsWith_iff {y x : String} : y.endsWith x = true ↔ x.toList <:+ y.toList := by
  rw [String.endsWith_eq_endsWith_toSlice, String.Slice.endsWith_string_iff]
  simp

theorem endsWith_path (name x : String) : (name ++ "_" ++ x).endsWith x = true := by
  rw [endsWith_iff, String.toList_append]
  exact List.suffix_append ..

theorem append_len_injective : Function.Injective fun x : String => x ++ "_len" := by
  intro x y h
  have hchars := congrArg String.toList h
  simp only [String.toList_append] at hchars
  exact String.toList_inj.mp (List.append_cancel_right hchars)

theorem append_len_ne_alloc (x : String) : x ++ "_len" ≠ "alloc" := by
  intro h
  have hsuffix : "_len".toList <:+ "alloc".toList := by
    rw [← h, String.toList_append]
    exact List.suffix_append ..
  exact absurd hsuffix (by decide)

def initParameters (members : Members) : List String :=
  (if (dynamicMembers members).isEmpty then [] else ["alloc"]) ++
    (dynamicMemberNames members).map (· ++ "_len")

def declareParameter (parameter : String) : String :=
  if parameter = "alloc" then "struct CompostAlloc *alloc" else "uint16_t " ++ parameter

/-- The parameters are those that `defineInit` declares. -/
theorem map_declareParameter (members : Members) :
    (initParameters members).map declareParameter =
      if !(dynamicMembers members).isEmpty then
        "struct CompostAlloc *alloc" ::
          (dynamicMemberNames members).map fun x => "uint16_t " ++ x ++ "_len"
      else (dynamicMemberNames members).map fun x => "uint16_t " ++ x ++ "_len" := by
  have hlength : ∀ x : String, declareParameter (x ++ "_len") = "uint16_t " ++ x ++ "_len" :=
    fun x => by rw [declareParameter, if_neg (append_len_ne_alloc x), String.append_assoc]
  rw [initParameters, List.map_append, List.map_map, Function.comp_def]
  simp only [hlength]
  cases (dynamicMembers members).isEmpty <;> rfl

def ownArguments (name : String) (members : Members) : List String :=
  (if (dynamicMembers members).isEmpty then [] else ["alloc"]) ++
    (dynamicMemberNames members).map fun x => name ++ "_" ++ x ++ "_len"

def sliceNewName : WireType → Option String
  | .str | .bytes => some "compost_slice_u8_new"
  | .list inner => some ("compost_slice_" ++ (numericName inner).2 ++ "_new")
  | _ => none

/-- Every list of a struct is allocated with the length parameter that is called after it, and the
parameters have different names. -/
structure WiresLengths (struct : Members) : Prop where
  own_list : ∀ name t fn, (name, t) ∈ struct.items → sliceNewName t = some fn →
    (∀ argument ∈ ["alloc", name ++ "_len"], argument ∈ initParameters struct) ∧
      memberDefaultValue py struct name t = .ok (fn ++ "(alloc, " ++ name ++ "_len)")
  own_nested : ∀ name t members, (name, .struct t members) ∈ struct.items →
    (∀ argument ∈ ownArguments name members, argument ∈ initParameters struct) ∧
      initArguments struct members = ownArguments name members
  nodup_parameters : (initParameters struct).Nodup

/-- The lists that a member brings along: the path of each, and for a nested one its name in the
nested struct. -/
def memberEntries (name : String) : WireType → List (String × Option String)
  | .list _ | .str | .bytes => [(name, none)]
  | .struct _ members => (dynamicMemberNames members).map fun x => (name ++ "_" ++ x, some x)
  | _ => []

def dynamicEntries (members : Members) : List (String × Option String) :=
  members.items.flatMap fun m => memberEntries m.1 m.2

/-- A path does not end with the inner name of the nested list `e'`, and it is not that of the list
member `e'`. -/
def Apart (e e' : String × Option String) : Prop :=
  match e'.2 with
  | some x => e.1.endsWith x = false
  | none => e.1 ≠ e'.1

def Unambiguous (members : Members) : Prop := (dynamicEntries members).Pairwise Apart

theorem map_fst_memberEntries (name : String) (t : WireType) :
    (memberEntries name t).map Prod.fst = dynamicNames name t := by
  cases t with
  | struct s members =>
    rw [memberEntries, dynamicNames, List.map_map]
    rfl
  | list inner | str | bytes | num n | bitU width | enum e => rfl

theorem map_fst_dynamicEntries (members : Members) :
    (dynamicEntries members).map Prod.fst = dynamicMemberNames members := by
  induction members using Members.induction with
  | nil => rfl
  | cons name t rest ih =>
    have hcons : dynamicEntries (.cons name t rest) =
        memberEntries name t ++ dynamicEntries rest := rfl
    rw [hcons, List.map_append, map_fst_memberEntries, ih, dynamicMemberNames]

theorem endsWith_of_mem_dynamicEntries {members : Members} {e : String × Option String}
    (he : e ∈ dynamicEntries members) {x : String} (hx : e.2 = some x) :
    e.1.endsWith x = true := by
  obtain ⟨⟨name, t⟩, -, hmem⟩ := List.mem_flatMap.mp he
  cases t with
  | struct s inner =>
    obtain ⟨y, -, rfl⟩ := List.mem_map.mp hmem
    cases hx
    exact endsWith_path ..
  | list inner | str | bytes =>
    obtain rfl := List.mem_singleton.mp hmem
    cases hx
  | num n | bitU width | enum b => cases hmem

theorem mem_dynamicMemberNames {struct : Members} {name : String} {t : WireType}
    (hmem : (name, t) ∈ struct.items) {x : String} (hx : x ∈ dynamicNames name t) :
    x ∈ dynamicMemberNames struct := by
  rw [← map_fst_dynamicEntries, dynamicEntries, List.map_flatMap]
  refine List.mem_flatMap.mpr ⟨_, hmem, ?_⟩
  rwa [map_fst_memberEntries]

theorem path_mem_dynamicMemberNames {struct : Members} {name s : String} {members : Members}
    (hmem : (name, .struct s members) ∈ struct.items) {x : String}
    (hx : x ∈ dynamicMemberNames members) :
    (name ++ "_" ++ x, some x) ∈ dynamicEntries struct ∧
      name ++ "_" ++ x ∈ dynamicMemberNames struct := by
  have hentry : (name ++ "_" ++ x, some x) ∈ dynamicEntries struct :=
    List.mem_flatMap.mpr ⟨_, hmem, List.mem_map.mpr ⟨x, hx, rfl⟩⟩
  rw [← map_fst_dynamicEntries]
  exact ⟨hentry, List.mem_map_of_mem (f := Prod.fst) hentry⟩

def foundPath (names : List String) (x : String) : Option String :=
  names.find? fun y => y.endsWith x

theorem foundPath_isSome {names : List String} {x y : String} (hy : y ∈ names)
    (hends : y.endsWith x = true) : ∃ z, foundPath names x = some z :=
  Option.isSome_iff_exists.mp (List.find?_isSome.mpr ⟨y, hy, hends⟩)

/-- A search that has arrived is not changed by later names. -/
theorem foundPath_append {names : List String} {x z : String} (h : foundPath names x = some z)
    (later : List String) : foundPath (names ++ later) x = some z := by
  rw [foundPath, List.find?_append]
  exact congrArg (Option.or · _) h

theorem foundPath_eq_none_iff {names : List String} {x : String} :
    foundPath names x = none ↔ ∀ y ∈ names, y.endsWith x = false := by
  rw [foundPath, List.find?_eq_none]
  simp only [Bool.not_eq_true]

/-- Every nested list is found under its own path, and the paths are different. -/
def FindsOwn (entries : List (String × Option String)) : Prop :=
  (entries.map Prod.fst).Nodup ∧
    ∀ e ∈ entries, ∀ x, e.2 = some x → foundPath (entries.map Prod.fst) x = some e.1

theorem apart_some_iff {e e' : String × Option String} {x : String} (hx : e'.2 = some x) :
    Apart e e' ↔ e.1.endsWith x = false := by rw [Apart, hx]

theorem apart_none_iff {e e' : String × Option String} (hx : e'.2 = none) :
    Apart e e' ↔ e.1 ≠ e'.1 := by rw [Apart, hx]

theorem Apart.ne {e e' : String × Option String} (h : Apart e e')
    (hends : ∀ x, e'.2 = some x → e'.1.endsWith x = true) : e.1 ≠ e'.1 := by
  cases hx : e'.2 with
  | none => exact (apart_none_iff hx).mp h
  | some x =>
    intro hfst
    have hfalse := (apart_some_iff hx).mp h
    rw [hfst, hends x hx] at hfalse
    cases hfalse

/-- The search for a name that the last path ends with arrives there exactly if no other path ends
with it. -/
theorem foundPath_concat_iff {names : List String} {x y : String} (hy : y ∉ names)
    (hends : y.endsWith x = true) :
    foundPath (names ++ [y]) x = some y ↔ ∀ z ∈ names, z.endsWith x = false := by
  cases hfound : foundPath names x with
  | none =>
    refine iff_of_true ?_ (foundPath_eq_none_iff.mp hfound)
    rw [foundPath] at hfound
    rw [foundPath, List.find?_append, hfound, Option.none_or]
    exact List.find?_cons_of_pos hends
  | some z =>
    rw [foundPath_append hfound]
    refine iff_of_false (fun h => ?_) fun h => ?_
    · exact hy (Option.some.inj h ▸ List.mem_of_find?_eq_some hfound)
    · rw [foundPath_eq_none_iff.mpr h] at hfound
      cases hfound

theorem findsOwn_concat_iff {entries : List (String × Option String)} {e : String × Option String}
    (hends : ∀ e' ∈ entries ++ [e], ∀ x, e'.2 = some x → e'.1.endsWith x = true) :
    FindsOwn (entries ++ [e]) ↔ FindsOwn entries ∧ ∀ e' ∈ entries, Apart e' e := by
  have hlast := hends e List.mem_append_cons_self
  have hmap : (entries ++ [e]).map Prod.fst = entries.map Prod.fst ++ [e.1] := List.map_append
  have hnodup : (entries.map Prod.fst ++ [e.1]).Nodup ↔
      (entries.map Prod.fst).Nodup ∧ e.1 ∉ entries.map Prod.fst :=
    List.nodup_append_comm.trans (List.nodup_cons.trans and_comm)
  -- the searches for the earlier names do not see the last path
  have hlater : ∀ e' ∈ entries, ∀ x, e'.2 = some x →
      (foundPath (entries.map Prod.fst ++ [e.1]) x = some e'.1 ↔
        foundPath (entries.map Prod.fst) x = some e'.1) := by
    intro e' he' x hx
    obtain ⟨z, hz⟩ := foundPath_isSome (List.mem_map_of_mem (f := Prod.fst) he')
      (hends e' (List.mem_append_left _ he') x hx)
    rw [foundPath_append hz, hz]
  rw [FindsOwn, FindsOwn, hmap, hnodup]
  constructor
  · rintro ⟨⟨hdistinct, hnew⟩, hfinds⟩
    refine ⟨⟨hdistinct, fun e' he' x hx => ?_⟩, fun e' he' => ?_⟩
    · exact (hlater e' he' x hx).mp (hfinds e' (List.mem_append_left _ he') x hx)
    · have hmem := List.mem_map_of_mem (f := Prod.fst) he'
      cases hx : e.2 with
      | none => exact (apart_none_iff hx).mpr fun h => hnew (h ▸ hmem)
      | some x =>
        have hfound := hfinds e List.mem_append_cons_self x hx
        exact (apart_some_iff hx).mpr ((foundPath_concat_iff hnew (hlast x hx)).mp hfound _ hmem)
  · rintro ⟨⟨hdistinct, hfinds⟩, happart⟩
    have hnew : e.1 ∉ entries.map Prod.fst := by
      intro hmem
      obtain ⟨e', he', hfst⟩ := List.mem_map.mp hmem
      exact (happart e' he').ne hlast hfst
    refine ⟨⟨hdistinct, hnew⟩, fun e' he' x hx => ?_⟩
    rcases List.mem_append.mp he' with he' | he'
    · exact (hlater e' he' x hx).mpr (hfinds e' he' x hx)
    · obtain rfl := List.mem_singleton.mp he'
      apply (foundPath_concat_iff hnew (hlast x hx)).mpr
      exact List.forall_mem_map.mpr fun e'' he'' => (apart_some_iff hx).mp (happart e'' he'')

theorem findsOwn_iff {entries : List (String × Option String)}
    (hends : ∀ e ∈ entries, ∀ x, e.2 = some x → e.1.endsWith x = true) :
    FindsOwn entries ↔ entries.Pairwise Apart := by
  induction entries using List.reverseRecOn with
  | nil => exact iff_of_true ⟨List.nodup_nil, fun e he => absurd he List.not_mem_nil⟩ .nil
  | append_singleton entries e ih =>
    rw [findsOwn_concat_iff hends, ih fun e' he' => hends e' (List.mem_append_left _ he'),
      List.pairwise_append]
    simp

theorem findsOwn_dynamicEntries_iff (members : Members) :
    FindsOwn (dynamicEntries members) ↔ Unambiguous members :=
  findsOwn_iff fun _ he _ => endsWith_of_mem_dynamicEntries he

/-- The arguments are the own ones exactly if every search arrives at the own path. -/
theorem initArguments_eq_iff (struct : Members) (name : String) (members : Members) :
    initArguments struct members = ownArguments name members ↔
      ∀ x ∈ dynamicMemberNames members,
        foundPath (dynamicMemberNames struct) x = some (name ++ "_" ++ x) := by
  rw [initArguments, ownArguments, List.append_right_inj,
    List.filterMap_eq_map_iff_forall_eq_some]
  apply forall₂_congr
  intro x hx
  rw [← foundPath, Option.map_eq_some_iff]
  constructor
  · rintro ⟨z, hz, hlen⟩
    rw [hz, append_len_injective hlen]
  · intro hz
    exact ⟨_, hz, rfl⟩

theorem nodup_initParameters_iff (members : Members) :
    (initParameters members).Nodup ↔ (dynamicMemberNames members).Nodup := by
  have hlens : ((dynamicMemberNames members).map (· ++ "_len")).Nodup ↔
      (dynamicMemberNames members).Nodup := List.nodup_map_iff append_len_injective
  have halloc : "alloc" ∉ (dynamicMemberNames members).map (· ++ "_len") := by
    intro hmem
    obtain ⟨x, -, hx⟩ := List.mem_map.mp hmem
    exact append_len_ne_alloc x hx
  rw [initParameters]
  cases (dynamicMembers members).isEmpty with
  | true => exact hlens
  | false => exact List.nodup_cons.trans ((and_iff_right halloc).trans hlens)

theorem dynamicMembers_isEmpty {struct : Members} {name : String} {t : WireType}
    (hmem : (name, t) ∈ struct.items) (ht : isTypeDynamic t = true) :
    (dynamicMembers struct).isEmpty = false := by
  induction struct using Members.induction with
  | nil => exact absurd hmem List.not_mem_nil
  | cons name' t' rest ih =>
    rw [dynamicMembers]
    split
    · rfl
    · rename_i hstatic
      rcases List.mem_cons.mp hmem with heq | hmem
      · cases heq
        exact absurd ht hstatic
      · exact ih hmem

theorem alloc_mem_initParameters {struct : Members} {name : String} {t : WireType}
    (hmem : (name, t) ∈ struct.items) (ht : isTypeDynamic t = true) :
    "alloc" ∈ initParameters struct := by
  rw [initParameters, dynamicMembers_isEmpty hmem ht]
  exact List.mem_cons_self

theorem len_mem_initParameters {struct : Members} {x : String}
    (hx : x ∈ dynamicMemberNames struct) : x ++ "_len" ∈ initParameters struct :=
  List.mem_append_right _ (List.mem_map_of_mem hx)

/-- A member that is a list is always allocated with its own parameter. -/
theorem memberDefaultValue_list {struct : Members} {name fn : String} {t : WireType}
    (hmem : (name, t) ∈ struct.items) (ht : sliceNewName t = some fn) :
    (∀ argument ∈ ["alloc", name ++ "_len"], argument ∈ initParameters struct) ∧
      memberDefaultValue py struct name t = .ok (fn ++ "(alloc, " ++ name ++ "_len)") := by
  have hnames : isTypeDynamic t = true ∧ name ∈ dynamicNames name t := by
    cases t with
    | str | bytes | list inner => exact ⟨rfl, List.mem_singleton_self name⟩
    | num n | bitU width | enum e | struct s members => cases ht
  have hname := mem_dynamicMemberNames hmem hnames.2
  constructor
  · rw [List.forall_mem_cons, List.forall_mem_singleton]
    exact ⟨alloc_mem_initParameters hmem hnames.1, len_mem_initParameters hname⟩
  · cases t with
    | str | bytes =>
      cases ht
      rfl
    | list inner =>
      cases ht
      have hnew : "_new(alloc, " = "_new" ++ "(alloc, " := rfl
      simp only [memberDefaultValue, hnew, String.append_assoc]
    | num n | bitU width | enum e | struct s members => cases ht

theorem ownArguments_subset {struct : Members} {name s : String} {members : Members}
    (hmem : (name, .struct s members) ∈ struct.items) :
    ∀ argument ∈ ownArguments name members, argument ∈ initParameters struct := by
  intro argument hargument
  rcases List.mem_append.mp hargument with halloc | hlen
  · cases hdynamic : (dynamicMembers members).isEmpty with
    | true =>
      rw [hdynamic] at halloc
      exact absurd halloc List.not_mem_nil
    | false =>
      rw [hdynamic] at halloc
      obtain rfl := List.mem_singleton.mp halloc
      have hstruct : isTypeDynamic (.struct s members) = true := by
        rw [isTypeDynamic, hdynamic]
        rfl
      exact alloc_mem_initParameters hmem hstruct
  · obtain ⟨x, hx, rfl⟩ := List.mem_map.mp hlen
    exact len_mem_initParameters (path_mem_dynamicMemberNames hmem hx).2

/-- The nested structs get their own lengths and the parameters are different exactly if every path
is found. -/
theorem findsOwn_dynamicEntries (struct : Members) :
    FindsOwn (dynamicEntries struct) ↔ (initParameters struct).Nodup ∧
      ∀ name s members, (name, .struct s members) ∈ struct.items →
        initArguments struct members = ownArguments name members := by
  rw [FindsOwn, map_fst_dynamicEntries, nodup_initParameters_iff]
  apply and_congr_right'
  constructor
  · intro hfinds name s members hmem
    rw [initArguments_eq_iff]
    intro x hx
    exact hfinds _ (path_mem_dynamicMemberNames hmem hx).1 x rfl
  · intro harguments e he x hx
    obtain ⟨⟨name, t⟩, hmem, hentry⟩ := List.mem_flatMap.mp he
    cases t with
    | struct s members =>
      obtain ⟨y, hy, rfl⟩ := List.mem_map.mp hentry
      obtain rfl := Option.some.inj hx
      exact (initArguments_eq_iff struct name members).mp (harguments name s members hmem) y hy
    | list inner | str | bytes =>
      obtain rfl := List.mem_singleton.mp hentry
      cases hx
    | num n | bitU width | enum b => cases hentry

/-- `T_init` wires the lengths exactly if no path of a list in T ends with the inner name of a
nested list behind it or is the name of a list member behind it. -/
theorem wiresLengths_iff (struct : Members) : WiresLengths py struct ↔ Unambiguous struct := by
  rw [← findsOwn_dynamicEntries_iff, findsOwn_dynamicEntries]
  constructor
  · intro h
    exact ⟨h.nodup_parameters, fun name s members hmem => (h.own_nested name s members hmem).2⟩
  · rintro ⟨hnodup, harguments⟩
    refine ⟨fun name t fn hmem ht => ?_, fun name s members hmem => ?_, hnodup⟩
    · exact memberDefaultValue_list py hmem ht
    · exact ⟨ownArguments_subset hmem, harguments name s members hmem⟩

def twinInner : Members := .cons "data" (.list .u8) .nil

def twins : Members :=
  .cons "a" (.struct "Inner" twinInner) (.cons "b" (.struct "Inner" twinInner) .nil)

/-- Of two members of one struct type the second gets the length of the first. -/
theorem not_wiresLengths_twins :
    initParameters twins = ["alloc", "a_data_len", "b_data_len"] ∧
      initArguments twins twinInner = ["alloc", "a_data_len"] ∧
      ¬ WiresLengths asciiMethods twins := by
  have hfound : foundPath ["a_data", "b_data"] "data" = some "a_data" :=
    List.find?_cons_of_pos (endsWith_path "a" "data")
  have harguments : initArguments twins twinInner = ["alloc", "a_data_len"] := by
    change ["alloc"] ++ ["data"].filterMap
      (fun x => (foundPath ["a_data", "b_data"] x).map (· ++ "_len")) = _
    rw [List.filterMap_cons, hfound]
    rfl
  refine ⟨rfl, harguments, fun h => ?_⟩
  have hown := (h.own_nested "b" "Inner" twinInner (List.mem_cons_of_mem _ List.mem_cons_self)).2
  rw [harguments] at hown
  exact absurd hown (by decide)

mutual

theorem dynamicNames_eq (name : String) (t : WireType) :
    memberDynamicNames name t = dynamicNames name t := by
  match t with
  | .num n | .str | .bytes | .list inner | .bitU width | .enum e => rfl
  | .struct s members => rw [memberDynamicNames, dynamicNames, dynamicMemberNames_eq members]

theorem dynamicMemberNames_eq (members : Members) :
    CompostRpc.dynamicMemberNames members = dynamicMemberNames members := by
  match members with
  | .nil => rfl
  | .cons name t rest =>
    rw [CompostRpc.dynamicMemberNames, dynamicMemberNames, dynamicNames_eq name t,
      dynamicMemberNames_eq rest]

end

/-- With the own path found, a nested `X_init` gets the length given for that path. -/
theorem nestedLen_eq {names : List String} {x y : String} (h : foundPath names x = some y)
    (lens : String → UInt16) : nestedLen names lens x = lens y := by
  have hfind : (names.find? fun y => x.toList.isSuffixOf y.toList) = some y := by
    rw [← h, foundPath]
    congr 1
    funext z
    rw [Bool.eq_iff_iff, List.isSuffixOf_iff_suffix, endsWith_iff]
  rw [nestedLen, hfind]

mutual

/-- The requests for the lists of a member, each with the length given for its path. -/
def memberPathRequests (lens : String → UInt16) (name : String) : WireType → List SliceRequest
  | .num _ | .bitU _ | .enum _ => []
  | .str | .bytes => [(.u8, lens name)]
  | .list inner => [(inner, lens name)]
  | .struct _ members => pathRequests (fun x => lens (name ++ "_" ++ x)) members

def pathRequests (lens : String → UInt16) : Members → List SliceRequest
  | .nil => []
  | .cons name t rest => memberPathRequests lens name t ++ pathRequests lens rest

end

mutual

def TypeUnambiguous : WireType → Prop
  | .struct _ members => Unambiguous members ∧ NestedUnambiguous members
  | _ => True

def NestedUnambiguous : Members → Prop
  | .nil => True
  | .cons _ t rest => TypeUnambiguous t ∧ NestedUnambiguous rest

end

mutual

theorem memberRequests_eq {struct : Members} {name : String} (t : WireType)
    (hmem : (name, t) ∈ struct.items) (hstruct : Unambiguous struct) (hnested : TypeUnambiguous t)
    {lens lens' : String → UInt16} (hlens : ∀ x ∈ dynamicMemberNames struct, lens x = lens' x) :
    memberRequests (dynamicMemberNames struct) lens name t = memberPathRequests lens' name t := by
  match t with
  | .num n | .bitU width | .enum e => rfl
  | .str | .bytes | .list inner =>
    have hname := mem_dynamicMemberNames hmem (List.mem_singleton_self name)
    rw [memberRequests, memberPathRequests, hlens name hname]
  | .struct s members =>
    rw [memberRequests, memberPathRequests, dynamicMemberNames_eq]
    apply membersRequests_eq members (fun m hm => hm) hnested.1 hnested.2
    intro x hx
    obtain ⟨hentry, hpath⟩ := path_mem_dynamicMemberNames hmem hx
    have hfinds := ((findsOwn_dynamicEntries_iff struct).mpr hstruct).2 _ hentry x rfl
    rw [map_fst_dynamicEntries] at hfinds
    rw [nestedLen_eq hfinds, hlens _ hpath]

theorem membersRequests_eq {struct : Members} (ms : Members)
    (hmem : ∀ m ∈ ms.items, m ∈ struct.items) (hstruct : Unambiguous struct)
    (hnested : NestedUnambiguous ms)
    {lens lens' : String → UInt16} (hlens : ∀ x ∈ dynamicMemberNames struct, lens x = lens' x) :
    membersRequests (dynamicMemberNames struct) lens ms = pathRequests lens' ms := by
  match ms with
  | .nil => rfl
  | .cons name t rest =>
    rw [membersRequests, pathRequests,
      memberRequests_eq t (hmem _ List.mem_cons_self) hstruct hnested.1 hlens,
      membersRequests_eq rest (fun m hm => hmem m (List.mem_cons_of_mem _ hm)) hstruct hnested.2
        hlens]

end

/-- If every struct wires the lengths, each slice is requested with the length that `T_init` gets
for its path, at every nesting level. -/
theorem structRequests_eq_pathRequests {members : Members} (h : Unambiguous members)
    (hnested : NestedUnambiguous members) (lens : String → UInt16) :
    structRequests members lens = pathRequests lens members := by
  rw [structRequests, dynamicMemberNames_eq]
  exact membersRequests_eq members (fun m hm => hm) h hnested fun x _ => rfl

end CCodeGenerator

end CompostRpc
