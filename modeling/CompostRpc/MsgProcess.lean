import CompostRpc.CLoadExtent

/-!
# Processing of a message in C

`compostMsgProcess` is the entry point of the C library together with the code generated for a
protocol: the checks of the request header, the switch over the RPC identifiers, the load of the
parameters, the handler, the store of the result and the reply header. Handlers are arbitrary
functions of their arguments, of the allocator and of the memory.
-/

namespace CompostRpc
open ByteMemory

inductive CallDirection
  | toRemote | toLocal | twoWay
  deriving DecidableEq, Repr

inductive Endpoint
  | remote | local
  deriving DecidableEq, Repr

def Endpoint.isCallInbound (endpoint : Endpoint) (direction : CallDirection) : Bool :=
  match endpoint, direction with
  | _, .twoWay | .remote, .toRemote | .local, .toLocal => true
  | _, _ => false

def Endpoint.isCallOutbound (endpoint : Endpoint) (direction : CallDirection) : Bool :=
  match endpoint, direction with
  | _, .twoWay | .remote, .toLocal | .local, .toRemote => true
  | _, _ => false

/-- A call of a protocol, with what the decorator and the code generator check. -/
structure Rpc where
  rpcId : ℕ
  params : Members
  ret : Option WireType
  isNotification : Bool
  direction : CallDirection
  rpcId_le : rpcId ≤ 0xF00
  params_areParameters : params.areParameters = true
  ret_isParameter : ∀ t ∈ ret, t.isParameter = true
  notification_ret : isNotification = true → ret = none

structure Protocol where
  rpcs : List Rpc
  ids_nodup : (rpcs.map Rpc.rpcId).Nodup

structure CompostHeader where
  wlen : UInt8
  txn : UInt8
  rpcId : UInt16
  resp : Bool

structure CompostMsg where
  header : CompostHeader
  payloadBufSize : ℕ
  payloadBuf : ℕ

def compostEinval : ℤ := -22
def compostEflags : ℤ := -91
def compostEtxn : ℤ := -92

def payloadOffset : ℕ := 4

/-- The address zero is the null pointer. -/
def compostHeaderLoad (m : Machine) (buf : ℕ) : Except ℤ CompostHeader × Machine :=
  if buf = 0 then (.error compostEinval, m) else
    let (b2, m) := m.loadByte (buf + 2)
    let rpcIdHi := b2 &&& 0x0F
    let flags := b2 &&& 0xF0
    if flags &&& ~~~ 0x10 ≠ 0 then (.error compostEflags, m) else
      let (wlen, m) := m.loadByte buf
      let (txn, m) := m.loadByte (buf + 1)
      let (lo, m) := m.loadByte (buf + 3)
      (.ok ⟨wlen, txn, (rpcIdHi.toUInt16 <<< 8) ||| lo.toUInt16, flags &&& 0x10 ≠ 0⟩, m)

/-- `compost_header_store` into a buffer that is not null. -/
def compostHeaderStore (m : Machine) (buf : ℕ) (header : CompostHeader) : Machine :=
  let m := m.storeByte buf header.wlen
  let m := m.storeByte (buf + 1) header.txn
  let m := m.storeByte (buf + 2) (header.rpcId >>> 8).toUInt8
  let m := if header.resp then m.storeByte (buf + 2) (m.mem (buf + 2) ||| 0x10) else m
  m.storeByte (buf + 3) header.rpcId.toUInt8

def compostBytesToWords (bytes : ℕ) : UInt8 := UInt8.ofNat ((bytes % 2 ^ 16 + 3) / 4)

structure CompostAlloc where
  ptr : ℕ
  suffixes : Option (List ℕ)
  buffer : Slice
  suffixesLen : UInt16
  allocCtr : UInt16

def compostAllocInit (buffer len : ℕ) : CompostAlloc :=
  ⟨buffer, none, ⟨buffer, UInt16.ofNat len⟩, 0, 0⟩

def sizeDiff16 (a b : ℕ) : ℕ := (a + 2 ^ 64 - b) % 2 ^ 16

def extendLayout (layout more : List MemUnit) : List MemUnit :=
  match more with
  | [] => layout
  | size :: rest => layout.dropLast ++ (layout.getLastD ⟨0⟩ + size) :: rest

mutual

def memberLayout : WireType → List MemUnit
  | .num n => [n.size]
  | .bitU width => [⟨width⟩]
  | .enum e =>
    match e.backing.repr with
    | .inl n => [n.size]
    | .inr width => [⟨width⟩]
  | .str | .bytes | .list _ => [MemUnit.fromBytes 2, ⟨0⟩]
  | .struct _ members => layoutFrom [⟨0⟩] members

/-- The layout of a struct from a member on: its sizes up to and between the dynamic members. -/
def layoutFrom (layout : List MemUnit) : Members → List MemUnit
  | .nil => layout
  | .cons _ t rest => layoutFrom (extendLayout layout (memberLayout t)) rest

end

def structAllocInit (layout : List MemUnit) (txBuf txBufLen : ℕ) : CompostAlloc :=
  let suffixes := (layout.drop 1).map MemUnit.bytes
  { compostAllocInit (txBuf + 4 + (layout.headD ⟨0⟩).bytes) txBufLen with
    suffixes := some suffixes
    suffixesLen := UInt16.ofNat suffixes.length }

/-- The allocator that the generated code hands to the handler of a dynamic result. -/
def resultAlloc (ret : Option WireType) (tx : CompostMsg) : Option CompostAlloc :=
  match ret with
  | some .str | some .bytes | some (.list _) =>
    some (compostAllocInit (tx.payloadBuf + 2) (sizeDiff16 tx.payloadBufSize 2))
  | some (.struct _ members) =>
    let layout := layoutFrom [⟨0⟩] members
    let head := (layout.headD ⟨0⟩).bytes
    if layout.length > 1 then
      some (structAllocInit layout (tx.payloadBuf + head) (sizeDiff16 tx.payloadBufSize head))
    else none
  | _ => none

/-- The C type of a result; `void` for none. -/
def CResult : Option WireType → Type
  | none => Unit
  | some t => CValue t

abbrev Handlers :=
  (d : Rpc) → CValues d.params → Option CompostAlloc → ByteMemory → CResult d.ret × ByteMemory

def Rpc.inSwitch (endpoint : Endpoint) (d : Rpc) : Bool :=
  !d.isNotification || endpoint.isCallInbound d.direction

def Protocol.lookup (p : Protocol) (endpoint : Endpoint) (rpcId : ℕ) : Option Rpc :=
  p.rpcs.find? fun d => d.inSwitch endpoint && d.rpcId == rpcId

def storeResult (m : Machine) (dest : ℕ) :
    (ret : Option WireType) → CResult ret → Machine × UInt8
  | none, _ => (m, 0)
  | some t, v =>
    let (m, dest') := storeCall m dest t v
    (m, compostBytesToWords (dest' - dest))

def invoke (handlers : Handlers) (d : Rpc) (m : Machine) (tx rx : CompostMsg) :
    Machine × CompostMsg :=
  let (args, m, _) := loadCalls m rx.payloadBuf d.params
  let m := { m with handed := m.handed ++ slicesAll d.params args }
  let (ret, mem) := handlers d args (resultAlloc d.ret tx) m.mem
  let (m, wlen) := storeResult { m with mem := mem } tx.payloadBuf d.ret ret
  (m, { tx with header := { tx.header with wlen := wlen, rpcId := UInt16.ofNat d.rpcId } })

def unknownMsg : UInt16 := 0xFEE

def compostUnknownMsg (tx : CompostMsg) : CompostMsg :=
  { tx with header := { tx.header with rpcId := unknownMsg, wlen := 0 } }

def compostInvokeSwitch (p : Protocol) (endpoint : Endpoint) (handlers : Handlers) (m : Machine)
    (tx rx : CompostMsg) : Machine × CompostMsg :=
  match p.lookup endpoint rx.header.rpcId.toNat with
  | some d => invoke handlers d m tx rx
  | none => (m, compostUnknownMsg tx)

/-- The generated `store` function of a notification, and the length of the message. -/
def notificationStore (d : Rpc) (m : Machine) (txBuf : ℕ) (args : CValues d.params) :
    Machine × ℕ :=
  let (m, dest) := storeCalls m (txBuf + payloadOffset) d.params args
  let wlen := compostBytesToWords (dest - (txBuf + payloadOffset))
  let m := compostHeaderStore m txBuf ⟨wlen, 0, UInt16.ofNat d.rpcId, false⟩
  (m, 4 + 4 * (m.mem txBuf).toNat)

def compostMsgProcess (p : Protocol) (endpoint : Endpoint) (handlers : Handlers) (m : Machine)
    (txBuf txBufSize rxBuf rxBufSize : ℕ) : ℤ × Machine :=
  if rxBufSize < 4 ∨ txBufSize < 4 ∨ txBuf = 0 ∨ rxBuf = 0 then (compostEinval, m) else
    match compostHeaderLoad m rxBuf with
    | (.error e, m) => (e, m)
    | (.ok rxHeader, m) =>
      let rx : CompostMsg := ⟨rxHeader, rxBufSize - payloadOffset, rxBuf + payloadOffset⟩
      let tx : CompostMsg :=
        ⟨⟨0, rx.header.txn, 0, true⟩, txBufSize - payloadOffset, txBuf + payloadOffset⟩
      if rx.header.txn ≠ 0 ∧ rx.header.resp = true then (compostEtxn, m) else
        let (m, tx) := compostInvokeSwitch p endpoint handlers m tx rx
        if tx.header.txn ≠ 0 ∨ tx.header.wlen ≠ 0 then
          (4 + tx.header.wlen.toNat * 4, compostHeaderStore m txBuf tx.header)
        else (0, m)

end CompostRpc
