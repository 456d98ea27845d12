import CompostRpc.MsgProcessBounds
import CompostRpc.Stretches
import Mathlib.Algebra.Order.BigOperators.Group.List

/-!
# The length fields that C writes

A message has a 16-bit prefix for every slice and an 8-bit word count in its header. They are exact
on messages of at most 1020 bytes of payload: for these no length is cut. Longer payloads make the
word count wrap around without an error.
-/

namespace CompostRpc
open ByteMemory Piece Machine BumpAllocator

def payloadBytes (r : List Stretch × Stretch) (regions : List (ℕ × ℕ)) : ℕ :=
  (r.1.map Stretch.bytes).sum + (regions.map Prod.snd).sum + r.2.bytes

def wireLength (t : WireType) (v : CValue t) : ℕ := payloadBytes (stretches ⟨0, 0⟩ t) (slices t v)

def wireLengthAll (ms : Members) (vs : CValues ms) : ℕ :=
  payloadBytes (stretchesAll ⟨0, 0⟩ ms) (slicesAll ms vs)

theorem region_le_payloadBytes {r : List Stretch × Stretch} {regions : List (ℕ × ℕ)} {s : ℕ × ℕ}
    (h : s ∈ regions) : s.2 ≤ payloadBytes r regions := by
  have hle := List.le_sum_of_mem (List.mem_map_of_mem (f := Prod.snd) h)
  unfold payloadBytes
  omega

/-- Slices that fit their prefixes are stored with all their bytes. -/
theorem StoredBehind.stop_eq_payloadBytes {a stop : ℕ} {r : List Stretch × Stretch}
    {regions : List (ℕ × ℕ)} {stored : List StoredSlice} (h : StoredBehind a r regions stored stop)
    (hlength : r.1.length = regions.length) (hshort : ∀ s ∈ regions, s.2 < 2 ^ 16)
    (hstop : stop % 8 = 0) : stop = 8 * (a + payloadBytes r regions) := by
  have hlens : (regions.map fun s => s.2 % 2 ^ 16) = regions.map Prod.snd :=
    List.map_congr_left fun s hs => Nat.mod_eq_of_lt (hshort s hs)
  have heq := h.stop_eq_bytes hlength hstop
  rwa [hlens] at heq

theorem storedEndMembers_eq_wireLengthAll {ms : Members} (hms : ms.areParameters = true)
    {vs : CValues ms} (hshort : ∀ s ∈ slicesAll ms vs, s.2 < 2 ^ 16) (a : ℕ) :
    storedEndMembers (8 * a) ms vs = 8 * (a + wireLengthAll ms vs) := by
  have hend := storeCalls_storedEnd hms (.start fun _ => 0) a vs
  exact (stored_behind_stretchesAll a ⟨0, 0⟩ ms vs).stop_eq_payloadBytes
    (length_stretchesAll _ ms vs) hshort (by rw [Nat.add_zero]; omega)

theorem storedSize_eq_wireLength {t : WireType} (ht : t.isParameter = true) {v : CValue t}
    (hshort : ∀ s ∈ slices t v, s.2 < 2 ^ 16) : storedSize t v = wireLength t v := by
  have hend := storeCall_end ht (.start fun _ => 0) 0 v
  have hstop := (stored_behind_stretches 0 ⟨0, 0⟩ t v).stop_eq_payloadBytes
    (length_stretches _ t v) hshort (by simp only [Nat.mul_zero, Nat.add_zero] at hend ⊢; omega)
  simp only [Nat.mul_zero, Nat.add_zero, Nat.zero_add] at hstop
  change _ = payloadBytes (stretches ⟨0, 0⟩ t) (slices t v)
  rw [storedSize, hstop]
  omega

/-- The prefixes hold the lengths of the slices in bytes, the header the words of the payload, and
the returned length covers them. An empty reply need not be sent. -/
structure LengthsExact (mem : ByteMemory) (txBuf : ℕ) (returned : ℤ) (stored : List StoredSlice)
    (payload : ℕ) : Prop where
  prefixes : ∀ s ∈ stored, lengthAt mem s.dest = s.bytes
  header : payload = 0 ∧ returned = 0 ∨
    (mem txBuf).toNat = (payload + 3) / 4 ∧ (4 + payload : ℤ) ≤ returned

theorem LengthsExact.payload_le {mem : ByteMemory} {txBuf payload : ℕ} {returned : ℤ}
    {stored : List StoredSlice} (h : LengthsExact mem txBuf returned stored payload) :
    payload ≤ 1020 := by
  have hword := (mem txBuf).toNat_lt
  rcases h.header with ⟨hempty, -⟩ | ⟨hwlen, -⟩
  · omega
  · omega

theorem compostBytesToWords_toNat {payload : ℕ} (h : payload ≤ 1020) :
    (compostBytesToWords payload).toNat = (payload + 3) / 4 := by
  rw [compostBytesToWords, UInt8.toNat_ofNat']
  change ((payload % 2 ^ 16 + 3) / 4) % 2 ^ 8 = _
  omega

theorem compostHeaderStore_wlen (m : Machine) (buf : ℕ) (header : CompostHeader) :
    (compostHeaderStore m buf header).mem buf = header.wlen := by
  cases hresp : header.resp <;> simp [compostHeaderStore, storeByte, hresp]

/-- A header in front of a payload whose prefixes are stored. -/
theorem compostHeaderStore_lengthsExact {m : Machine} {txBuf hi payload : ℕ}
    {stored : List StoredSlice} {header : CompostHeader} {returned : ℤ}
    (h : PrefixesStored (txBuf + 4) stored m.mem hi) (hshort : ∀ s ∈ stored, s.bytes < 2 ^ 16)
    (hwlen : header.wlen.toNat = (payload + 3) / 4)
    (hreturned : returned = 4 + header.wlen.toNat * 4) :
    LengthsExact (compostHeaderStore m txBuf header).mem txBuf returned stored payload := by
  refine ⟨fun s hs => ?_, .inr ⟨?_, by omega⟩⟩
  · have hprefix := (h.prefixes s hs).within (compostHeaderStore_within m txBuf header)
      (.inr (h.within s hs).1)
    exact hprefix.trans (Nat.mod_eq_of_lt (hshort s hs))
  · rw [compostHeaderStore_wlen, hwlen]

theorem bytes_of_mem_stored {stored : List StoredSlice} {regions : List (ℕ × ℕ)} {bound : ℕ}
    (heq : stored.map StoredSlice.region = regions) (h : ∀ r ∈ regions, r.2 < bound) :
    ∀ s ∈ stored, s.bytes < bound := by
  intro s hs
  exact h s.region (heq ▸ List.mem_map_of_mem hs)

theorem notificationStore_lengthsExact_iff (d : Rpc) (m : Machine) (txBuf : ℕ)
    (args : CValues d.params) :
    LengthsExact (notificationStore d m txBuf args).1.mem txBuf (notificationStore d m txBuf args).2
        (sliceStoresCalls m (txBuf + payloadOffset) d.params args) (wireLengthAll d.params args) ↔
      wireLengthAll d.params args ≤ 1020 := by
  refine ⟨LengthsExact.payload_le, fun hle => ?_⟩
  have hms := d.params_areParameters
  have hshort : ∀ r ∈ slicesAll d.params args, r.2 < 2 ^ 16 := fun r hr =>
    (region_le_payloadBytes hr).trans_lt (Nat.lt_of_le_of_lt hle (by decide))
  have hend := storeCalls_storedEnd hms m (txBuf + 4) args
  rw [storedEndMembers_eq_wireLengthAll hms hshort] at hend
  have hsize : (storeCalls m (txBuf + 4) d.params args).2 - (txBuf + 4) =
      wireLengthAll d.params args := by omega
  have hregions := map_region_storedSlicesAll (8 * (txBuf + 4)) d.params args
  rw [← sliceStoresCalls_eq hms m] at hregions
  have hwlen := compostBytesToWords_toNat hle
  refine compostHeaderStore_lengthsExact (storeCalls_prefixes hms m (txBuf + 4) args)
    (bytes_of_mem_stored hregions hshort) ?_ ?_
  · exact (congrArg (fun n => (compostBytesToWords n).toNat) hsize).trans hwlen
  · change ((4 + 4 * ((compostHeaderStore _ txBuf _).mem txBuf).toNat : ℕ) : ℤ) = _
    rw [compostHeaderStore_wlen]
    omega

/-- The slice store calls for a result. By `sliceStores_eq` any machine makes the same ones. -/
def resultStores (m : Machine) (dest : ℕ) : (ret : Option WireType) → CResult ret → List StoredSlice
  | none, _ => []
  | some t, v => sliceStores m dest ⟨0⟩ t v

def resultLength : (ret : Option WireType) → CResult ret → ℕ
  | none, _ => 0
  | some t, v => wireLength t v

/-- The slices stored in a reply; none, if no handler is reached. -/
def replyStores (m : Machine) (txBuf : ℕ) :
    Option ((d : Rpc) × CResult d.ret) → List StoredSlice
  | some ⟨d, v⟩ => resultStores m (txBuf + payloadOffset) d.ret v
  | none => []

def replyPayload : Option ((d : Rpc) × CResult d.ret) → ℕ
  | some ⟨d, v⟩ => resultLength d.ret v
  | none => 0

theorem storeResult_prefixes (ret : Option WireType) (m m' : Machine) (dest : ℕ)
    (v : CResult ret) : ∃ hi, PrefixesStored dest (resultStores m' dest ret v)
      (storeResult m dest ret v).1.mem hi := by
  cases ret with
  | none => exact ⟨dest, .nil _ _ _⟩
  | some t =>
    have hsame : sliceStores m dest ⟨0⟩ t v = sliceStores m' dest ⟨0⟩ t v :=
      (sliceStores_eq m dest ⟨0⟩ t v).trans (sliceStores_eq m' dest ⟨0⟩ t v).symm
    exact ⟨_, hsame ▸ storeMember_prefixes m dest ⟨0⟩ t v⟩

theorem resultStores_bytes_lt {ret : Option WireType} (m : Machine) (dest : ℕ) {v : CResult ret}
    (h : resultLength ret v ≤ 1020) : ∀ s ∈ resultStores m dest ret v, s.bytes < 2 ^ 16 := by
  cases ret with
  | none => exact fun s hs => absurd hs List.not_mem_nil
  | some t =>
    have hregions := map_region_storedSlices (8 * dest) t v
    rw [show storedSlices (8 * dest) t v = sliceStores m dest ⟨0⟩ t v from
      (sliceStores_eq m dest ⟨0⟩ t v).symm] at hregions
    exact bytes_of_mem_stored hregions fun r hr =>
      (region_le_payloadBytes hr).trans_lt (Nat.lt_of_le_of_lt h (by decide))

theorem resultSize_eq_resultLength {ret : Option WireType}
    (hret : ∀ t ∈ ret, t.isParameter = true) {v : CResult ret} (h : resultLength ret v ≤ 1020) :
    resultSize ret v = resultLength ret v := by
  cases ret with
  | none => rfl
  | some t =>
    exact storedSize_eq_wireLength (hret t rfl) fun r hr =>
      (region_le_payloadBytes hr).trans_lt (Nat.lt_of_le_of_lt h (by decide))

/-- The end of the entry point behind a result whose prefixes are stored. -/
theorem sendReply_lengthsExact {r : Machine × CompostMsg} {txBuf hi payload : ℕ}
    {stored : List StoredSlice} (h : PrefixesStored (txBuf + 4) stored r.1.mem hi)
    (hshort : ∀ s ∈ stored, s.bytes < 2 ^ 16)
    (hwlen : r.2.header.wlen.toNat = (payload + 3) / 4) :
    LengthsExact (sendReply txBuf r).2.mem txBuf (sendReply txBuf r).1 stored payload := by
  rw [sendReply]
  split
  · exact compostHeaderStore_lengthsExact h hshort hwlen rfl
  · rename_i hsilent
    have hzero : r.2.header.wlen = 0 := not_not.mp (not_or.mp hsilent).2
    rw [hzero, show (0 : UInt8).toNat = 0 from rfl] at hwlen
    refine ⟨fun s hs => ?_, .inl ⟨by omega, rfl⟩⟩
    exact (h.prefixes s hs).trans (Nat.mod_eq_of_lt (hshort s hs))

theorem invoke_prefixes (handlers : Handlers) (d : Rpc) (m m' : Machine) (tx rx : CompostMsg) :
    ∃ hi, PrefixesStored tx.payloadBuf
      (resultStores m' tx.payloadBuf d.ret (invokeResult handlers d m tx rx.payloadBuf))
      (invoke handlers d m tx rx).1.mem hi :=
  storeResult_prefixes d.ret _ m' tx.payloadBuf _

theorem compostInvokeSwitch_prefixes (p : Protocol) (endpoint : Endpoint) (handlers : Handlers)
    (m m' : Machine) {tx rx : CompostMsg} {txBuf : ℕ} (htx : tx.payloadBuf = txBuf + 4)
    {result : Option ((d : Rpc) × CResult d.ret)}
    (hresult : result = (p.lookup endpoint rx.header.rpcId.toNat).map
      fun d => ⟨d, invokeResult handlers d m tx rx.payloadBuf⟩)
    (hle : replyPayload result ≤ 1020) :
    (∃ hi, PrefixesStored (txBuf + 4) (replyStores m' txBuf result)
      (compostInvokeSwitch p endpoint handlers m tx rx).1.mem hi) ∧
    (∀ s ∈ replyStores m' txBuf result, s.bytes < 2 ^ 16) ∧
    (compostInvokeSwitch p endpoint handlers m tx rx).2.header.wlen.toNat =
      (replyPayload result + 3) / 4 := by
  rw [compostInvokeSwitch]
  cases hd : p.lookup endpoint rx.header.rpcId.toNat with
  | none =>
    rw [hd] at hresult
    subst hresult
    refine ⟨⟨txBuf + 4, .nil _ _ _⟩, fun s hs => absurd hs List.not_mem_nil, ?_⟩
    change (0 : UInt8).toNat = (0 + 3) / 4
    rfl
  | some d =>
    rw [hd] at hresult
    subst hresult
    have hlength : resultLength d.ret (invokeResult handlers d m tx rx.payloadBuf) ≤ 1020 := hle
    refine ⟨?_, resultStores_bytes_lt m' _ hlength, ?_⟩
    · have hprefixes := invoke_prefixes handlers d m m' tx rx
      rw [htx] at hprefixes
      exact hprefixes
    · rw [invoke_header, resultSize_eq_resultLength d.ret_isParameter hlength]
      exact compostBytesToWords_toNat hlength

theorem compostMsgProcess_lengthsExact_iff (p : Protocol) (endpoint : Endpoint)
    (handlers : Handlers) (mem : ByteMemory) (txBuf txBufSize rxBuf rxBufSize : ℕ)
    {r : ℤ × Machine} {result : Option ((d : Rpc) × CResult d.ret)}
    (hr : compostMsgProcess p endpoint handlers (.start mem) txBuf txBufSize rxBuf rxBufSize = r)
    (hresult : handlerResult p endpoint handlers (.start mem) txBuf txBufSize rxBuf rxBufSize =
      result) :
    (r.1 < 0 ∨ LengthsExact r.2.mem txBuf r.1 (replyStores (.start mem) txBuf result)
        (replyPayload result)) ↔ replyPayload result ≤ 1020 := by
  rcases compostMsgProcess_cases p endpoint handlers mem txBuf txBufSize rxBuf rxBufSize with
    ⟨e, m, hrefused, he, -, hnone⟩ | ⟨header, m, tx, rx, -, -, htx, -, rfl, -, hreply, hsome⟩
  · rw [hrefused] at hr
    rw [hnone] at hresult
    subst hr hresult
    exact iff_of_true (.inl he) (Nat.zero_le _)
  · have hnonneg := sendReply_nonneg txBuf (compostInvokeSwitch p endpoint handlers m tx rx)
    rw [hreply] at hr
    subst hr
    refine ⟨fun h => (h.resolve_left (by omega)).payload_le, fun hle => .inr ?_⟩
    obtain ⟨⟨hi, hprefixes⟩, hshort, hwlen⟩ := compostInvokeSwitch_prefixes p endpoint handlers m
      (.start mem) htx (hresult.symm.trans hsome) hle
    exact sendReply_lengthsExact hprefixes hshort hwlen

/-- A notification and a reply of `compost_msg_process` have exact length fields exactly on payloads
of at most 1020 bytes. -/
theorem length_fields_exact_iff (mem : ByteMemory) (txBuf : ℕ) :
    (∀ (d : Rpc) (args : CValues d.params),
      let r := notificationStore d (.start mem) txBuf args
      let stored := sliceStoresCalls (.start mem) (txBuf + payloadOffset) d.params args
      LengthsExact r.1.mem txBuf r.2 stored (wireLengthAll d.params args) ↔
        wireLengthAll d.params args ≤ 1020) ∧
    ∀ (p : Protocol) (endpoint : Endpoint) (handlers : Handlers)
      (txBufSize rxBuf rxBufSize : ℕ),
      let r := compostMsgProcess p endpoint handlers (.start mem) txBuf txBufSize rxBuf rxBufSize
      let result :=
        handlerResult p endpoint handlers (.start mem) txBuf txBufSize rxBuf rxBufSize
      (r.1 < 0 ∨ LengthsExact r.2.mem txBuf r.1 (replyStores (.start mem) txBuf result)
          (replyPayload result)) ↔ replyPayload result ≤ 1020 := by
  constructor
  · intro d args
    exact notificationStore_lengthsExact_iff d (.start mem) txBuf args
  · intro p endpoint handlers txBufSize rxBuf rxBufSize
    exact compostMsgProcess_lengthsExact_iff p endpoint handlers mem txBuf txBufSize rxBuf rxBufSize
      rfl rfl

def noResult : Option WireType := none

def samplesNotification : Rpc where
  rpcId := 5
  params := .ofTypes [.list .u32]
  ret := noResult
  isNotification := true
  direction := .toLocal
  rpcId_le := by decide
  params_areParameters := by decide
  ret_isParameter := by decide
  notification_ret := by decide

/-- The samples in a list of `len` numbers at address 5000, stored at address 100. -/
def SamplesExact (len : UInt16) : Prop :=
  let args : CValues samplesNotification.params := ((⟨5000, len⟩ : Slice), ())
  let m := Machine.start fun _ => 0
  LengthsExact (notificationStore samplesNotification m 100 args).1.mem 100
    (notificationStore samplesNotification m 100 args).2
    (sliceStoresCalls m 104 samplesNotification.params args)
    (wireLengthAll samplesNotification.params args)

/-- Lists with a payload of 1022 bytes and with a prefix of zero. -/
theorem not_samplesExact : ¬ SamplesExact 255 ∧ ¬ SamplesExact 16384 := by
  refine ⟨fun hexact => ?_, fun hexact => ?_⟩
  · exact absurd ((notificationStore_lengthsExact_iff samplesNotification _ 100 _).mp hexact)
      (by decide)
  · exact absurd ((notificationStore_lengthsExact_iff samplesNotification _ 100 _).mp hexact)
      (by decide)

end CompostRpc
