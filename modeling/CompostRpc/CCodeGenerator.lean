import CompostRpc.AppendOnly
import CompostRpc.ReplyLaw

/-!
# The C code generator

`generate` makes the header and the source text of a protocol for an endpoint. It appends the type
definitions to the fields of the generator, keeps the load and store helpers of structs in a
dictionary field, and puts both into the texts. The parts of the templates between the
placeholders, and the methods of Python strings, are parameters.
-/

namespace CompostRpc
open AppendOnly

structure StrMethods where
  upper : String → String
  islower : Char → Bool

/-- A text with the indentation of the lines added to it, `_String` in the source. -/
structure CodeString where
  str : String
  indent : ℕ

namespace CodeString

def append (code : CodeString) (text : String) : CodeString := { code with str := code.str ++ text }

def indentInc (code : CodeString) : CodeString := { code with indent := code.indent + 1 }

def indentDec (code : CodeString) : CodeString := { code with indent := code.indent - 1 }

def add (code : CodeString) (lines : List String) : CodeString :=
  let indent := String.join (List.replicate code.indent "    ")
  code.append (String.join (lines.map fun line => indent ++ line ++ "\n"))

end CodeString

structure RpcDeclaration where
  rpcId : ℕ
  name : String
  doc : String
  params : List (String × WireType)
  ret : Option WireType
  isNotification : Bool
  direction : CallDirection

inductive UserType
  | enum (e : EnumType)
  | struct (name : String) (members : Members)

def RpcDeclaration.annotations (rpc : RpcDeclaration) : List WireType :=
  rpc.params.map Prod.snd ++ rpc.ret.toList

/-- A protocol together with the types that were decorated before the generation; the decorator
of a struct registers it. -/
structure ProtocolDefinition where
  customUserTypes : List UserType
  rpcs : List RpcDeclaration
  registered : ∀ rpc ∈ rpcs, ∀ name members,
    WireType.struct name members ∈ rpc.annotations → UserType.struct name members ∈ customUserTypes

/-- The header and source templates, cut at their placeholders. -/
structure CTemplates where
  headerGuard : String
  headerDefine : String
  headerIncludes : String
  headerUuidHi : String
  headerUuidLo : String
  headerLibrary : String
  headerEnd : String
  sourceInclude : String
  sourceUuidHi : String
  sourceUuidLo : String
  sourceLibrary : String
  sourceEnd : String

/-- What varies from one call of the generator to the next: the arguments, the settings, and the
UUID and time stamp. -/
structure GenerateCall where
  endpoint : Endpoint
  filename : String
  pathHeader : String
  pathSource : String
  uuidHi : String
  uuidLo : String
  version : String
  gentime : String

structure GeneratedFile where
  directory : String
  filename : String
  text : String
  deriving DecidableEq

@[ext] structure TypeTexts where
  enums : String := ""
  structs : String := ""
  staticVars : String := ""
  typeInits : String := ""
  typeInitsProto : String := ""

namespace TypeTexts

instance : Mul TypeTexts where
  mul a b :=
    ⟨a.enums ++ b.enums, a.structs ++ b.structs, a.staticVars ++ b.staticVars,
      a.typeInits ++ b.typeInits, a.typeInitsProto ++ b.typeInitsProto⟩

instance : One TypeTexts := ⟨{}⟩

instance : Monoid TypeTexts where
  mul_assoc a b c := TypeTexts.ext String.append_assoc String.append_assoc String.append_assoc
    String.append_assoc String.append_assoc
  one_mul a := TypeTexts.ext String.empty_append String.empty_append String.empty_append
    String.empty_append String.empty_append
  mul_one a := TypeTexts.ext String.append_empty String.append_empty String.append_empty
    String.append_empty String.append_empty

end TypeTexts

abbrev TypeSerdes := List (String × String)

def TypeSerdes.set : TypeSerdes → String → String → TypeSerdes
  | [], key, code => [(key, code)]
  | entry :: serdes, key, code =>
    if entry.1 = key then (key, code) :: serdes else entry :: TypeSerdes.set serdes key code

structure CCodeGenerator where
  texts : TypeTexts
  typeSerdes : TypeSerdes

def CCodeGenerator.fresh : CCodeGenerator := ⟨1, []⟩

namespace CCodeGenerator

variable (py : StrMethods)

def scase (arg : String) : String :=
  match arg.toList with
  | [] => arg
  | first :: rest =>
    py.upper (String.singleton first ++
      String.join (rest.map fun c => if py.islower c then String.singleton c else
        "_" ++ String.singleton c))

/-- The class name of a numeric type, also in lower case as in the names of C functions. -/
def numericName : Numeric → String × String
  | .u64 => ("U64", "u64")
  | .i64 => ("I64", "i64")
  | .u32 => ("U32", "u32")
  | .i32 => ("I32", "i32")
  | .u16 => ("U16", "u16")
  | .i16 => ("I16", "i16")
  | .u8 => ("U8", "u8")
  | .i8 => ("I8", "i8")
  | .f32 => ("F32", "f32")
  | .f64 => ("F64", "f64")

def primitiveTypeMap : Numeric → String
  | .u8 => "uint8_t"
  | .i8 => "int8_t"
  | .u16 => "uint16_t"
  | .i16 => "int16_t"
  | .u32 => "uint32_t"
  | .i32 => "int32_t"
  | .u64 => "uint64_t"
  | .i64 => "int64_t"
  | .f32 => "float"
  | .f64 => "double"

def bitWidth : WireType → Option (Fin 33)
  | .bitU width => some width
  | .enum e =>
    match e.backing.repr with
    | .inl _ => none
    | .inr width => some width
  | _ => none

/-- `_type`. An enum backed by a bit field is a `BitU` first. -/
def typeName : WireType → String
  | .num n => primitiveTypeMap n
  | .str | .bytes => "struct CompostSliceU8"
  | .list inner => "struct CompostSlice" ++ (numericName inner).1
  | .struct name _ => "struct " ++ name
  | .bitU _ => primitiveTypeMap .u32
  | .enum e =>
    match e.backing.repr with
    | .inl _ => "enum " ++ e.name
    | .inr _ => primitiveTypeMap .u32

mutual

def isTypeDynamic : WireType → Bool
  | .list _ | .str | .bytes => true
  | .struct _ members => !(dynamicMembers members).isEmpty
  | _ => false

def dynamicMembers : Members → List (String × WireType)
  | .nil => []
  | .cons name t rest =>
    if isTypeDynamic t then (name, t) :: dynamicMembers rest else dynamicMembers rest

end

mutual

def dynamicNames (name : String) : WireType → List String
  | .list _ | .str | .bytes => [name]
  | .struct _ members => (dynamicMemberNames members).map fun x => name ++ "_" ++ x
  | _ => []

def dynamicMemberNames : Members → List String
  | .nil => []
  | .cons name t rest => dynamicNames name t ++ dynamicMemberNames rest

end

/-- The members of an enum without its aliases. -/
def enumMembers (e : EnumType) : List (String × ℤ) :=
  e.variants.foldl
    (fun members v => if members.any (·.2 == v.2) then members else members ++ [v]) []

def initArguments (struct members : Members) : List String :=
  (if (dynamicMembers members).isEmpty then [] else ["alloc"]) ++
    (dynamicMemberNames members).filterMap fun x =>
      ((dynamicMemberNames struct).find? fun y => y.endsWith x).map (· ++ "_len")

def memberDefaultValue (struct : Members) (name : String) : WireType → Except PyError String
  | .num _ | .bitU _ => .ok "0"
  | .str | .bytes => .ok ("compost_slice_u8_new(alloc, " ++ name ++ "_len)")
  | .list inner =>
    .ok ("compost_slice_" ++ (numericName inner).2 ++ "_new(alloc, " ++ name ++ "_len)")
  | .struct t members =>
    .ok (t ++ "_init(" ++ String.intercalate ", " (initArguments struct members) ++ ")")
  | .enum e =>
    match e.backing.repr, enumMembers e with
    | .inr _, _ => .ok "0"
    | .inl _, [] => .error .indexError
    | .inl _, v :: _ => .ok (scase py e.name ++ "_" ++ v.1)

abbrev TypeTextM := ExceptT PyError (StateM TypeTexts)

def memberInits (struct : Members) : Members → Except PyError (List String)
  | .nil => .ok []
  | .cons name t rest => do
    let value ← memberDefaultValue py struct name t
    let inits ← memberInits struct rest
    return ("." ++ name ++ " = " ++ value) :: inits

def defineAllocInit (name : String) (members : Members) : TypeTextM Unit := do
  let layout := layoutFrom [⟨0⟩] members
  let suffixes := (layout.drop 1).map fun size => toString size.bytes
  append { typeInitsProto :=
    "struct CompostAlloc " ++ name ++ "_alloc_init(uint8_t *tx_buf, uint16_t tx_buf_len);\n" }
  append { staticVars :=
    "static uint16_t " ++ name ++ "_alloc_suffixes[" ++ toString suffixes.length ++ "] = \x7b" ++
      String.intercalate ", " suffixes ++ "\x7d;\n" }
  append { typeInits :=
    "\nstruct CompostAlloc " ++ name ++
      "_alloc_init(uint8_t *tx_buf, uint16_t tx_buf_len)\n\x7b\n" ++
      "    struct CompostAlloc alloc = compost_alloc_init(tx_buf + 4 + " ++
      toString (layout.headD ⟨0⟩).bytes ++ ", tx_buf_len);\n" ++
      "    compost_alloc_set_suffixes(&alloc, " ++ name ++ "_alloc_suffixes, " ++
      toString suffixes.length ++ ");\n    return alloc;\n\x7d\n" }

def defineInit (name : String) (members : Members) : TypeTextM Unit := do
  let dynamic := !(dynamicMembers members).isEmpty
  let lengths := (dynamicMemberNames members).map fun x => "uint16_t " ++ x ++ "_len"
  let args := if dynamic then "struct CompostAlloc *alloc" :: lengths else lengths
  let params := if args.isEmpty then "void" else String.intercalate ", " args
  if dynamic then defineAllocInit name members
  append { typeInitsProto := "struct " ++ name ++ " " ++ name ++ "_init(" ++ params ++ ");\n\n" }
  let inits ← raiseError (memberInits py members members)
  append { typeInits :=
    "\nstruct " ++ name ++ " " ++ name ++ "_init(" ++ params ++ ")\n\x7b\n    return (struct " ++
      name ++ ")\x7b\n        " ++ String.intercalate ",\n        " inits ++ "\n    \x7d;\n\x7d\n" }

def memberDeclaration (name : String) (t : WireType) : String :=
  match bitWidth t with
  | some width => "    " ++ typeName t ++ " " ++ name ++ " : " ++ toString (width : ℕ) ++ ";\n"
  | none => "    " ++ typeName t ++ " " ++ name ++ ";\n"

def memberDeclarations : Members → TypeTextM Unit
  | .nil => pure ()
  | .cons name t rest => do
    append { structs := memberDeclaration name t }
    memberDeclarations rest

def defineType : UserType → TypeTextM Unit
  | .struct name members => do
    append { structs := "\n\nstruct " ++ name ++ " \x7b\n" }
    memberDeclarations members
    append { structs := "\x7d;\n" }
    defineInit py name members
  | .enum e =>
    append { enums :=
      "\nenum " ++ e.name ++ " \x7b\n" ++
        String.intercalate ",\n" ((enumMembers e).map fun v =>
          "    " ++ scase py e.name ++ "_" ++ py.upper v.1 ++ " = " ++ toString v.2) ++
        "\n\x7d;\n" }

def defineTypes (types : List UserType) : TypeTextM Unit := types.forM (defineType py)

inductive Helper
  | store | load
  deriving DecidableEq

def Helper.suffix : Helper → String
  | store => "store"
  | load => "load"

def serdesFn (suffix : String) : WireType → String
  | .num n => "compost_" ++ (numericName n).2 ++ "_" ++ suffix
  | .enum e =>
    match e.backing.repr with
    | .inl n => "compost_" ++ (numericName n).2 ++ "_" ++ suffix
    | .inr _ => "compost_bituint_" ++ suffix
  | .str | .bytes => "compost_slice_u8_" ++ suffix
  | .list inner => "compost_slice_" ++ (numericName inner).2 ++ "_" ++ suffix
  | .bitU _ => "compost_bituint_" ++ suffix
  | .struct name _ => name ++ "_" ++ suffix

/-- The text of a call of a store or load function: the value and the pointer, with the values of
`extra` behind them. -/
def callText (helper : Helper) (t : WireType) (value ptr : String) (extra : List ℕ) : String :=
  let fn := serdesFn helper.suffix t
  match helper with
  | .store =>
    let byRef := match t with | .struct _ _ => "&" | _ => ""
    fn ++ "(" ++ String.intercalate ", " (ptr :: (byRef ++ value) :: extra.map toString) ++ ");"
  | .load =>
    let type := if value.toList.contains '.' then "" else typeName t ++ " "
    type ++ value ++ " = " ++ fn ++ "(" ++
      String.intercalate ", " (ptr :: extra.map toString) ++ ");"

def byteAlign (code : CodeString) (offset : MemUnit) (ptr : String) : CodeString × MemUnit :=
  let offset := offset.byteAlign
  if offset.bytes ≠ 0 then
    (code.add [ptr ++ " += " ++ toString offset.bytes ++ ";"], offset.setBytes 0)
  else (code, offset)

def Helper.prototype (helper : Helper) (name : String) : String :=
  match helper with
  | store => "void " ++ name ++ "_store(uint8_t** dest, struct " ++ name ++ "* src)"
  | load => "struct " ++ name ++ " " ++ name ++ "_load(const uint8_t ** src)"

def Helper.iterPtr : Helper → String
  | store => "dest"
  | load => "src"

def Helper.memberPath : Helper → String → String
  | store, name => "src->" ++ name
  | load, name => "ret." ++ name

mutual

def defineHelper (helper : Helper) : WireType → TypeSerdes → TypeSerdes
  | .struct name members, serdes =>
    let fn := serdesFn helper.suffix (.struct name members)
    if serdes.any (·.1 == fn) then serdes else
      let code := (CodeString.mk "" 0).add [helper.prototype name, "\x7b"]
      let code := code.indentInc
      let code := if helper = .load then code.add ["struct " ++ name ++ " ret;"] else code
      let (code, offset, serdes) := helperMembers helper members code ⟨0⟩ serdes
      let (code, _) := byteAlign code offset ("*" ++ helper.iterPtr)
      let code := if helper = .load then code.add ["return ret;"] else code
      serdes.set fn (code.indentDec.add ["\x7d\n"]).str
  | _, serdes => serdes

def helperMembers (helper : Helper) : Members → CodeString → MemUnit → TypeSerdes →
    CodeString × MemUnit × TypeSerdes
  | .nil, code, offset, serdes => (code, offset, serdes)
  | .cons name t rest, code, offset, serdes =>
    let path := helper.memberPath name
    match bitWidth t with
    | some width =>
      let serdes := defineHelper helper t serdes
      let call := callText helper t path ("*" ++ helper.iterPtr) [offset.bits, width]
      helperMembers helper rest (code.add [call]) (offset + ⟨width⟩) serdes
    | none =>
      let (code, offset) := byteAlign code offset ("*" ++ helper.iterPtr)
      let serdes := defineHelper helper t serdes
      let call := callText helper t path helper.iterPtr []
      helperMembers helper rest (code.add [call]) offset serdes

end

def addCalls (helper : Helper) (namePrefix ptr : String) :
    List (String × WireType) → CodeString → TypeSerdes → CodeString × TypeSerdes
  | [], code, serdes => (code, serdes)
  | (name, t) :: params, code, serdes =>
    let serdes := defineHelper helper t serdes
    let call := callText helper t (namePrefix ++ name) ptr []
    addCalls helper namePrefix ptr params (code.add [call]) serdes

def validateEndpoint (p : ProtocolDefinition) (endpoint : Endpoint) : Bool :=
  p.rpcs.all fun rpc =>
    if rpc.isNotification then
      endpoint.isCallInbound rpc.direction && cFeatures.inboundNotification ||
        endpoint.isCallOutbound rpc.direction && cFeatures.outboundNotification
    else
      endpoint.isCallInbound rpc.direction && cFeatures.inboundRpc ||
        endpoint.isCallOutbound rpc.direction && cFeatures.outboundRpc

/-- The C type of the result of a call; the result of a notification must be none. -/
def returnType (rpc : RpcDeclaration) : Except PyError String :=
  match rpc.ret with
  | none => .ok "void"
  | some t => if rpc.isNotification then .error .typeError else .ok (typeName t)

def returnsDynamic (rpc : RpcDeclaration) : Bool :=
  match rpc.ret with
  | none => false
  | some t => isTypeDynamic t

def handlerPrototype (rpc : RpcDeclaration) : Except PyError String := do
  let type ← returnType rpc
  let params := rpc.params.map fun (name, t) => typeName t ++ " " ++ name
  let params := if returnsDynamic rpc then params ++ ["struct CompostAlloc *alloc"] else params
  return type ++ " " ++ rpc.name ++ "_handler(" ++
    (if params.isEmpty then "void" else String.intercalate ", " params) ++ ");"

def handlerCall (rpc : RpcDeclaration) : Except PyError String := do
  let type ← returnType rpc
  let params := rpc.params.map fun (name, _) => "l_" ++ name
  let params := if returnsDynamic rpc then params ++ ["&alloc"] else params
  return (if type ≠ "void" then type ++ " ret = " else "") ++ rpc.name ++ "_handler(" ++
    String.intercalate ", " params ++ ");"

def generationNote : String :=
  "\n/******************************************************************************/\n" ++
    "/*                     G E N E R A T E D   P R O T O C O L                    */\n" ++
    "/******************************************************************************/"

def hex3 (n : ℕ) : String :=
  let digits := (Nat.toDigits 16 n).map Char.toUpper
  String.ofList (List.replicate (3 - digits.length) '0' ++ digits)

def rpcIdEnum (p : ProtocolDefinition) : String :=
  "\nenum RpcId \x7b\n    UNKNOWN_MSG = 0xFEE,\n" ++
    String.intercalate ",\n" (p.rpcs.map fun rpc =>
      "    " ++ py.upper rpc.name ++ " = 0x" ++ hex3 rpc.rpcId) ++ "\n\x7d;\n"

def storeParams (notif : RpcDeclaration) : String :=
  String.join (notif.params.map fun (name, t) => ", " ++ typeName t ++ " " ++ name)

def notificationPrototype (notif : RpcDeclaration) : String :=
  "\n/**\n * " ++ notif.doc ++ "\n */\nsize_t " ++ notif.name ++ "_store(uint8_t *tx_buf" ++
    storeParams notif ++ ");\n"

def notificationSource (notif : RpcDeclaration) (source : CodeString) (serdes : TypeSerdes) :
    CodeString × TypeSerdes :=
  let source := source.append (
    "/**\n* Serialization function for " ++ notif.name ++ " notification\n*/\nsize_t " ++
      notif.name ++ "_store(uint8_t *tx_buf" ++ storeParams notif ++ ")\n\x7b\n" ++
      "    struct CompostMsg tx = \x7b\n        .header = \x7b .txn = 0 \x7d,\n" ++
      "        .payload_buf = tx_buf + PAYLOAD_OFFSET\n    \x7d;\n" ++
      "    uint8_t *dest = tx.payload_buf;\n")
  let (source, serdes) := addCalls .store "" "&dest" notif.params source.indentInc serdes
  let source := source.indentDec.append (
    "    tx.header.rpc_id = " ++ py.upper notif.name ++ ";\n" ++
      "    size_t payload_len = dest - tx.payload_buf;\n" ++
      "    tx.header.wlen = compost_bytes_to_words(payload_len);\n" ++
      "    compost_header_store(tx_buf, tx.header);\n" ++
      "    return COMPOST_MSG_LEN(tx_buf);\n\x7d\n\n")
  (source, serdes)

def allocLine : Option WireType → List String
  | some (.list _) | some .bytes | some .str =>
    ["struct CompostAlloc alloc = " ++
      "compost_alloc_init(tx->payload_buf + 2, tx->payload_buf_size - 2);"]
  | some (.struct name members) =>
    let head := toString ((layoutFrom [⟨0⟩] members).headD ⟨0⟩).bytes
    if (dynamicMembers members).isEmpty then [] else
      ["struct CompostAlloc alloc = " ++ name ++ "_alloc_init(tx->payload_buf + " ++ head ++
        ", tx->payload_buf_size - " ++ head ++ ");"]
  | _ => []

def invokePrototype (rpc : RpcDeclaration) : Except PyError String := do
  let prototype ← handlerPrototype rpc
  return "\n/**\n * " ++ rpc.doc ++ "\n */\n" ++ prototype ++ "\n"

def invokeSource (rpc : RpcDeclaration) (serdes : TypeSerdes) :
    Except PyError String × TypeSerdes :=
  let docPrefix := if rpc.isNotification then "Deserialization" else
    "Deserialization/Serialization"
  let params := if rpc.params.isEmpty then "struct CompostMsg *tx" else
    "struct CompostMsg *tx, const struct CompostMsg rx"
  let code := CodeString.mk ("\n/**\n * " ++ docPrefix ++ " function for " ++ rpc.name ++
    " function\n */\nvoid invoke_" ++ rpc.name ++ "(" ++ params ++ ")\n\x7b\n") 1
  let code := if rpc.params.isEmpty then code else
    code.add ["const uint8_t *src = rx.payload_buf;"]
  let (code, serdes) := addCalls .load "l_" "&src" rpc.params code serdes
  let code := code.add (allocLine rpc.ret)
  match handlerCall rpc with
  | .error e => (.error e, serdes)
  | .ok call =>
    let code := code.add [call]
    let (code, serdes) :=
      match rpc.ret with
      | none => (code.add ["tx->header.wlen = 0;"], serdes)
      | some t =>
        let code := code.add ["uint8_t *dest = tx->payload_buf;"]
        let (code, serdes) := addCalls .store "" "&dest" [("ret", t)] code serdes
        (code.add ["tx->header.wlen = compost_bytes_to_words(dest - tx->payload_buf);"], serdes)
    let code := code.add ["tx->header.rpc_id = " ++ py.upper rpc.name ++ ";"]
    (.ok (code.append "\x7d\n").str, serdes)

def generateOutbound (endpoint : Endpoint) :
    List RpcDeclaration → String → CodeString → TypeSerdes → String × CodeString × TypeSerdes
  | [], header, source, serdes => (header, source, serdes)
  | notif :: rpcs, header, source, serdes =>
    if !notif.isNotification || !endpoint.isCallOutbound notif.direction then
      generateOutbound endpoint rpcs header source serdes
    else
      let (source, serdes) := notificationSource py notif source serdes
      generateOutbound endpoint rpcs (header ++ notificationPrototype notif) source serdes

def generateInbound (endpoint : Endpoint) :
    List RpcDeclaration → String → CodeString → TypeSerdes →
      Except PyError (String × CodeString) × TypeSerdes
  | [], header, source, serdes => (.ok (header, source), serdes)
  | rpc :: rpcs, header, source, serdes =>
    if !endpoint.isCallInbound rpc.direction then
      generateInbound endpoint rpcs header source serdes
    else
      match invokePrototype rpc with
      | .error e => (.error e, serdes)
      | .ok prototype =>
        match invokeSource py rpc serdes with
        | (.error e, serdes) => (.error e, serdes)
        | (.ok code, serdes) =>
          generateInbound endpoint rpcs (header ++ prototype) (source.append code) serdes

def rpcIdFns (p : ProtocolDefinition) (endpoint : Endpoint) : String :=
  "\nvoid compost_unknown_msg(struct CompostMsg *tx)\n\x7b\n" ++
    "    tx->header.rpc_id = UNKNOWN_MSG;\n    tx->header.wlen = 0;\n\x7d\n\n" ++
    "void compost_invoke_switch(struct CompostMsg *tx, const struct CompostMsg rx)\n\x7b\n" ++
    "    switch (rx.header.rpc_id) \x7b\n" ++
    String.join (p.rpcs.map fun rpc =>
      if rpc.isNotification && !endpoint.isCallInbound rpc.direction then "" else
        "        case " ++ py.upper rpc.name ++ ": invoke_" ++ rpc.name ++
          (if rpc.params.isEmpty then "(tx)" else "(tx, rx)") ++ "; break;\n") ++
    "        default: compost_unknown_msg(tx);\n    \x7d\n\x7d\n"

def headerTypes (texts : TypeTexts) : String :=
  "\n\n" ++ generationNote ++ "\n\n" ++ texts.enums ++ "\n" ++ texts.structs ++ "\n\n" ++
    texts.typeInitsProto ++ "\n\n"

def headerText (templates : CTemplates) (call : GenerateCall) (protocol : String) : String :=
  templates.headerGuard ++ py.upper call.filename ++ templates.headerDefine ++
    py.upper call.filename ++ templates.headerIncludes ++
    "#define COMPOST_VERSION \"" ++ call.version ++ "\"\n#define COMPOST_GENTIME \"" ++
    call.gentime ++ "\"" ++ templates.headerUuidHi ++ "0x" ++ call.uuidHi ++ "ull" ++
    templates.headerUuidLo ++ "0x" ++ call.uuidLo ++ "ull" ++ templates.headerLibrary ++ protocol ++
    templates.headerEnd

def sourceText (templates : CTemplates) (call : GenerateCall) (serdes : TypeSerdes)
    (protocol : String) : String :=
  templates.sourceInclude ++ call.filename ++ templates.sourceUuidHi ++ "0x" ++ call.uuidHi ++
    "ull" ++ templates.sourceUuidLo ++ "0x" ++ call.uuidLo ++ "ull" ++ templates.sourceLibrary ++
    String.join (serdes.map Prod.snd) ++ templates.sourceEnd ++ protocol

def generateCalls (templates : CTemplates) (p : ProtocolDefinition) (call : GenerateCall)
    (texts : TypeTexts) (serdes : TypeSerdes) :
    Except PyError (List GeneratedFile) × TypeSerdes :=
  let source := CodeString.mk (generationNote ++ "\n" ++ rpcIdEnum py p ++ "\n\n" ++
    texts.staticVars ++ "\n\n" ++ texts.typeInits ++ "\n") 0
  let (header, source, serdes) :=
    generateOutbound py call.endpoint p.rpcs (headerTypes texts) source serdes
  match generateInbound py call.endpoint p.rpcs header source serdes with
  | (.error e, serdes) => (.error e, serdes)
  | (.ok (header, source), serdes) =>
    let source := source.append (rpcIdFns py p call.endpoint ++ "\n\n")
    (.ok [⟨call.pathHeader, call.filename ++ ".h", headerText py templates call header⟩,
      ⟨call.pathSource, call.filename ++ ".c",
        sourceText templates call serdes source.str⟩], serdes)

/-- The files that a call of `generate` returns, or its exception, and the generator after it. -/
def generate (templates : CTemplates) (p : ProtocolDefinition) (call : GenerateCall)
    (s : CCodeGenerator) : Except PyError (List GeneratedFile) × CCodeGenerator :=
  if !validateEndpoint p call.endpoint then (.error .valueError, s) else
    match exec (defineTypes py p.customUserTypes) s.texts with
    | (.error e, texts) => (.error e, { s with texts := texts })
    | (.ok (), texts) =>
      let (files, serdes) := generateCalls py templates p call texts s.typeSerdes
      (files, ⟨texts, serdes⟩)

end CCodeGenerator

end CompostRpc
