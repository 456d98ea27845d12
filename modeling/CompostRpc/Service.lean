import CompostRpc.LoadStored
import CompostRpc.Server

/-!
# What the calls of a server are for

A service says which results a call may have for its arguments, both as contents, whatever memory
they lie in. The handlers of a server provide a service if they meet it on every memory and leave
results that can be stored in the reply. Then a request that holds the layout of some arguments is
answered with the layout of a result that the service allows.
-/

namespace CompostRpc
open ByteMemory Piece Machine

/-- The contents of a result; `void` has none. -/
def ResultContents : Option WireType → Type
  | none => Unit
  | some t => Contents t

def resultContents (mem : ByteMemory) : (ret : Option WireType) → CResult ret → ResultContents ret
  | none, _ => ()
  | some t, c => contents mem t c

def resultPieces : (ret : Option WireType) → ResultContents ret → List Piece
  | none, _ => []
  | some t, v => storedPieces t v

abbrev Service := (d : Rpc) → ContentsAll d.params → ResultContents d.ret → Prop

/-- The slices of the result are built in the reply or lie outside it, and the reply has room. -/
def Storable (dest : ℕ) : (ret : Option WireType) → CResult ret → Prop
  | none, _ => True
  | some t, c => storedSize t c ≤ 1020 ∧
      ∀ s ∈ storedSlices (8 * dest) t c, s.Kept dest (dest + storedSize t c)

structure Server.Provides (srv : Server) (f : Service) : Prop where
  result : ∀ d ∈ srv.protocol.rpcs, ∀ (txn : UInt8) (args : CValues d.params) (mem : ByteMemory),
    ContentsAll.Valid d.params (contentsAll mem d.params args) →
    let (ret, mem') := srv.handlers d args (resultAlloc d.ret (srv.txMsg txn)) mem
    Storable (srv.txBuf + payloadOffset) d.ret ret ∧
      f d (contentsAll mem d.params args) (resultContents mem' d.ret ret)

structure Service.Answers (f : Service) (d : Rpc) (args : ContentsAll d.params)
    (v : ResultContents d.ret) (txn : UInt8) (reply : List UInt8) : Prop where
  allowed : f d args v
  message : ∃ wlen payload, reply = headerBytes wlen txn true d.rpcId ++ payload ∧
    payload.length = 4 * wlen.toNat ∧ AllAt (ofList payload) 0 (resultPieces d.ret v) ∧
      stopAll (resultPieces d.ret v) 0 ≤ 8 * payload.length

theorem loadCalls_contents {m : Machine} {src : ℕ} {ms : Members} (hms : ms.areParameters = true)
    (ds : ContentsAll ms) (hd : ContentsAll.Valid ms ds)
    (h : AllAt m.mem (8 * src) (storedPiecesAll ms ds)) :
    contentsAll m.mem ms (loadCalls m src ms).1 = ds := by
  induction ms using Members.induction generalizing m src with
  | nil => rfl
  | cons name t rest ih =>
    obtain ⟨d, ds⟩ := ds
    simp only [Members.areParameters, Bool.and_eq_true] at hms
    simp only [storedPiecesAll_cons, allAt_append] at h
    obtain ⟨hfirst, hstop⟩ := loadMember_contents ⟨0⟩ t d hd.1 h.1
    have hmem : (loadCall m src t).2.1.mem = m.mem :=
      (loadMember_extent m src ⟨0⟩ t).within.mem_eq
    rw [loadMember_offset hms.1, Nat.add_zero, Nat.add_zero] at hstop
    have hothers : AllAt (loadCall m src t).2.1.mem (8 * (loadCall m src t).2.2)
        (storedPiecesAll rest ds) := by
      rw [hmem]
      exact hstop ▸ h.2
    have hrest := ih hms.2 ds hd.2 hothers
    rw [hmem] at hrest
    exact Prod.ext hfirst hrest

structure HoldsArguments (ms : Members) (ds : ContentsAll ms) (body : List UInt8) : Prop where
  valid : ContentsAll.Valid ms ds
  all : AllAt (ofList body) 0 (storedPiecesAll ms ds)
  inside : stopAll (storedPiecesAll ms ds) 0 ≤ 8 * body.length

/-- A layout at the start of the payload is found behind the header in the receive buffer. -/
theorem allAt_write_payload (mem : ByteMemory) (buf : ℕ) {header body : List UInt8}
    (hheader : header.length = payloadOffset) {ps : List Piece} (h : AllAt (ofList body) 0 ps)
    (hinside : stopAll ps 0 ≤ 8 * body.length) :
    AllAt (write mem buf (header ++ body)) (8 * (buf + payloadOffset)) ps := by
  have hread := read_write_self mem buf (header ++ body)
  rw [List.length_append, read_append] at hread
  obtain ⟨-, hbody⟩ := List.append_inj hread (length_read _ _ _)
  rw [hheader] at hbody
  rwa [← allAt_ofList_read hinside, hbody]

theorem storeResult_layout {ret : Option WireType} (hret : ∀ t ∈ ret, t.isParameter = true)
    {m : Machine} {dest : ℕ} {v : CResult ret} (h : Storable dest ret v) :
    AllAt (storeResult m dest ret v).1.mem (8 * dest)
        (resultPieces ret (resultContents m.mem ret v)) ∧
      stopAll (resultPieces ret (resultContents m.mem ret v)) 0 ≤
        32 * (storeResult m dest ret v).2.toNat := by
  cases ret with
  | none => exact ⟨trivial, Nat.zero_le _⟩
  | some t =>
    obtain ⟨hroom, hkept⟩ := h
    have hstored := storeCall_layout (m := m) (hret t rfl) hkept le_rfl le_rfl
    obtain ⟨hend, -⟩ := storeCall_extent (hret t rfl) m dest v
    have hshift := stopAll_shift (storedPieces t (contents m.mem t v)) dest 0
    have hstop := hstored.stop_eq
    rw [Nat.add_zero] at hshift
    rw [hend, hshift] at hstop
    constructor
    · change AllAt (storeCall m dest t v).1.mem _ _
      rw [hstored.mem_eq]
      exact allAt_writeAll _ _ _
    · change stopAll (storedPieces t (contents m.mem t v)) 0 ≤
        32 * (compostBytesToWords ((storeCall m dest t v).2 - dest)).toNat
      rw [hend, Nat.add_sub_cancel_left, compostBytesToWords, UInt8.toNat_ofNat']
      omega

/-- The header in front of a payload leaves the payload as it is. -/
theorem allAt_compostHeaderStore {m : Machine} {buf : ℕ} (header : CompostHeader)
    {ps : List Piece} (h : AllAt m.mem (8 * (buf + payloadOffset)) ps) :
    AllAt (compostHeaderStore m buf header).mem (8 * (buf + payloadOffset)) ps := by
  have hwithin := compostHeaderStore_within m buf header
  refine h.congr fun i hi _ => bitAt_congr (hwithin.mem_eq _ ?_)
  rw [payloadOffset] at hi
  omega

/-- The reply to an invoked call. -/
theorem invoke_answers {srv : Server} {f : Service} (hf : srv.Provides f) {d : Rpc}
    (hd : d ∈ srv.protocol.rpcs) (txn : UInt8) {m : Machine} {rx : CompostMsg}
    {ds : ContentsAll d.params} (hvalid : ContentsAll.Valid d.params ds)
    (hargs : contentsAll m.mem d.params (loadCalls m rx.payloadBuf d.params).1 = ds) :
    let r := invoke srv.handlers d m (srv.txMsg txn) rx
    ∃ v wlen, r.2.header = ⟨wlen, txn, UInt16.ofNat d.rpcId, true⟩ ∧
      f.Answers d ds v txn
        (ByteMemory.read (compostHeaderStore r.1 srv.txBuf r.2.header).mem srv.txBuf
          (4 + 4 * wlen.toNat)) := by
  intro r
  obtain ⟨-, -, hloads, -⟩ := loadCalls_extent d.params_areParameters m rx.payloadBuf
  rcases hloaded : loadCalls m rx.payloadBuf d.params with ⟨args, m₁, src⟩
  rw [hloaded] at hargs hloads
  simp only at hargs
  rw [← hloads.mem_eq] at hargs
  have hresult := hf.result d hd txn args m₁.mem (hargs.symm ▸ hvalid)
  rcases hhandler : srv.handlers d args (resultAlloc d.ret (srv.txMsg txn)) m₁.mem with ⟨ret, mem⟩
  rw [hhandler] at hresult
  obtain ⟨hstorable, hallowed⟩ := hresult
  let handed : Machine := { m₁ with handed := m₁.handed ++ slicesAll d.params args }
  obtain ⟨hlayout, hsize⟩ :=
    storeResult_layout (m := { handed with mem := mem }) d.ret_isParameter hstorable
  rcases hstored : storeResult { handed with mem := mem } (srv.txBuf + payloadOffset) d.ret ret
    with ⟨m₂, wlen⟩
  rw [hstored] at hlayout hsize
  have hr : r = (m₂, { srv.txMsg txn with header := ⟨wlen, txn, UInt16.ofNat d.rpcId, true⟩ }) := by
    have hinvoke : r = (fun s : Machine × UInt8 =>
        (s.1, { srv.txMsg txn with header := ⟨s.2, txn, UInt16.ofNat d.rpcId, true⟩ }))
          (storeResult { handed with mem := mem } (srv.txBuf + payloadOffset) d.ret ret) := by
      simp only [r, invoke, hloaded, hhandler]
      rfl
    rw [hinvoke, hstored]
  let payload := ByteMemory.read (compostHeaderStore m₂ srv.txBuf
    ⟨wlen, txn, UInt16.ofNat d.rpcId, true⟩).mem (srv.txBuf + 4) (4 * wlen.toNat)
  have hlength : payload.length = 4 * wlen.toNat := length_read _ _ _
  have hinside : stopAll (resultPieces d.ret (resultContents mem d.ret ret)) 0 ≤
      8 * (4 * wlen.toNat) := hsize.trans (by rw [← Nat.mul_assoc])
  rw [hr]
  refine ⟨resultContents mem d.ret ret, wlen, rfl, hargs ▸ hallowed, wlen, payload, ?_, hlength,
    ?_, hlength ▸ hinside⟩
  · rw [Server.read_message, compostHeaderStore_bytes _ _ d.rpcId_lt]
  · rw [allAt_ofList_read hinside]
    exact allAt_compostHeaderStore _ hlayout

/-- The reply to a request whose payload holds the layout of the arguments is a result that the
service allows. -/
theorem Server.Provides.answers {srv : Server} {f : Service} (hf : srv.Provides f) {d : Rpc}
    (hd : d ∈ srv.protocol.rpcs) (hrpc : d.isNotification = false) {mem : ByteMemory}
    {len txn : UInt8} {body reply : List UInt8} {ds : ContentsAll d.params}
    (hholds : HoldsArguments d.params ds body)
    (hserve : srv.serve mem (headerBytes len txn false d.rpcId ++ body) = some reply) :
    ∃ v, f.Answers d ds v txn reply := by
  obtain ⟨m, rx, hmem, hrx, hid, hswitch⟩ := srv.serve_switch mem len txn d.rpcId_lt body
  rw [hswitch, compostInvokeSwitch, hid, srv.protocol.lookup_rpc srv.endpoint hd hrpc] at hserve
  have hheader : (headerBytes len txn false d.rpcId).length = payloadOffset := rfl
  have hlayout := allAt_write_payload mem srv.rxBuf hheader hholds.all hholds.inside
  rw [← hmem, ← hrx] at hlayout
  have hargs := loadCalls_contents d.params_areParameters ds hholds.valid hlayout
  obtain ⟨v, wlen, hheader, hanswers⟩ := invoke_answers hf hd txn hholds.valid hargs
  simp only [hheader, Option.ite_none_right_eq_some, Option.some.injEq] at hserve
  obtain ⟨-, hreply⟩ := hserve
  rw [hheader] at hanswers
  exact ⟨v, hreply ▸ hanswers⟩

def textLength : (ms : Members) → CValues ms → (ret : Option WireType) → CResult ret
  | .cons _ .str .nil, (text, ()), some (.num n) => BitVec.ofNat n.size.bits text.len.toNat
  | _, _, ret => zeroResult ret

def textLengthContents : (ms : Members) → ContentsAll ms → (ret : Option WireType) →
    ResultContents ret
  | .cons _ .str .nil, (text, ()), some (.num n) => BitVec.ofNat n.size.bits (List.length text)
  | _, _, ret => resultContents (fun _ => 0) ret (zeroResult ret)

def lengthService : Service := fun d ds v => v = textLengthContents d.params ds d.ret

def lengthServer : Server where
  protocol := textProtocol
  endpoint := .remote
  handlers := fun d args _ mem => (textLength d.params args d.ret, mem)
  txBuf := 4000
  txBufSize := 128
  rxBuf := 6000
  txBuf_ne_zero := Nat.succ_ne_zero 3999
  rxBuf_ne_zero := Nat.succ_ne_zero 5999
  header_fits := Nat.le_add_right 4 124

theorem lengthServer_provides : lengthServer.Provides lengthService := by
  refine ⟨fun d hd txn args mem _ => ?_⟩
  obtain rfl := List.mem_singleton.mp hd
  obtain ⟨text, -⟩ := args
  have hlength : (sliceData mem .u8 text).length = text.len.toNat :=
    (length_read _ _ _).trans (Nat.mul_one _)
  have hroom : ∀ v, storedSize (.num .u32) v ≤ 1020 := fun v => by
    simp only [storedSize, storedEnd]
    decide
  refine ⟨⟨hroom _, fun s hs => by cases hs⟩, ?_⟩
  exact congrArg (BitVec.ofNat 32) hlength.symm

end CompostRpc
