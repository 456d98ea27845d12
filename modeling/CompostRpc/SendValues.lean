import CompostRpc.HeaderFormat
import CompostRpc.RoundTrip
import CompostRpc.StoreRepresentation

/-!
# Sending values from Python

A call packs its arguments into a scratch buffer and makes a message of them, whose header has one
byte for the length. The writer takes every value that has room, except for a struct inside a
struct: `astuple` turns the inner instance into a tuple, and refuses that tuple in its turn.
-/

namespace CompostRpc
open ByteMemory Piece

def packMessage (types : Members) (args : List PyVal) (txn : UInt8) (response : Bool)
    (rpcId : ℕ) : Except PyError (List UInt8) := do
  let payload ← packPayload types args
  (Msg.fromData txn.toNat response rpcId payload).pack

def encodedSize (types : Members) (vs : Values types) : ℕ :=
  (stopAll (piecesMembers types vs) 0 + 7) / 8

def payloadLimit : ℕ := 1020

theorem exists_packElements {inner : Numeric} {xs : List (BitVec inner.size.bits)}
    {buffer : List UInt8} {offset : MemUnit} (hmod : offset.bits % 8 = 0)
    (hroom : offset.bytes + xs.length * inner.size.bytes ≤ buffer.length) :
    ∃ r, packElements inner buffer offset (xs.map inner.toPy) = .ok r := by
  induction xs generalizing buffer offset with
  | nil => exact ⟨_, rfl⟩
  | cons x xs ih =>
    rw [List.length_cons, Nat.succ_mul] at hroom
    have hfirst : offset.bytes + (beBytes inner.size.bytes x.toNat).length ≤ buffer.length := by
      rw [length_beBytes]
      omega
    obtain ⟨buffer', hassign, hlength⟩ := exists_assignSlice hfirst
    rw [length_beBytes] at hassign
    have hbits := inner.size_bits
    have hnext : (offset + inner.size).bytes = offset.bytes + inner.size.bytes := by
      rw [MemUnit.bytes_eq, MemUnit.bytes_eq offset, MemUnit.add_bits, hbits]
      omega
    obtain ⟨r, hr⟩ := @ih buffer' (offset + inner.size)
      (by rw [MemUnit.add_bits, hbits]; omega) (by rw [hnext, hlength]; omega)
    refine ⟨r, ?_⟩
    rw [List.map_cons, packElements, structPack_toPy, except_ok_bind, hassign, except_ok_bind]
    exact hr

theorem exists_packList {inner : Numeric} {xs : List (BitVec inner.size.bits)}
    {buffer : List UInt8} {offset : MemUnit} (hlen : xs.length * inner.size.bytes < 2 ^ 16)
    (hroom : offset.bytes + 2 + xs.length * inner.size.bytes ≤ buffer.length) :
    ∃ r, packList inner buffer offset (.list (xs.map inner.toPy)) = .ok r := by
  have hfirst : offset.bytes + (beBytes 2 (xs.length * inner.size.bytes)).length ≤
      buffer.length := by
    rw [length_beBytes]
    omega
  obtain ⟨buffer', hassign, hlength⟩ := exists_assignSlice hfirst
  rw [length_beBytes] at hassign
  obtain ⟨r, hr⟩ := @exists_packElements inner xs buffer' (offset.setBytes (offset.bytes + 2))
    (by rw [MemUnit.setBytes_bits]; omega) (by rw [setBytes_bytes, hlength]; exact hroom)
  refine ⟨r, ?_⟩
  simp only [packList, List.length_map, structPack_u16 hlen, except_ok_bind,
    MemUnit.byteAlign_bytes, hassign]
  exact hr

/-- A byte string behind its length that ends inside the buffer is short enough for the length. -/
theorem counted_room {data buffer : List UInt8} {offset : MemUnit}
    (hbuffer : buffer.length ≤ 2 ^ 16)
    (hroom : stopAll [counted data] offset.bits ≤ 8 * buffer.length) :
    data.length < 2 ^ 16 ∧ offset.bytes + 2 + data.length ≤ buffer.length := by
  rw [stopAll_counted] at hroom
  omega

theorem number_room {n : Numeric} {raw : ℕ} {buffer : List UInt8} {offset : MemUnit}
    (hroom : stopAll [.bytes (beBytes n.size.bytes raw)] offset.bits ≤ 8 * buffer.length) :
    offset.bytes + n.size.bytes ≤ buffer.length := by
  simp only [stopAll, stop, length_beBytes, alignUp_bits] at hroom
  omega

theorem exists_pack_str (s : String) {buffer : List UInt8} {offset : MemUnit}
    (hbuffer : buffer.length ≤ 2 ^ 16)
    (hroom : stopAll [counted (utf8 s)] offset.bits ≤ 8 * buffer.length) :
    ∃ r, pack buffer offset .str (.str s) = .ok r := by
  obtain ⟨hlen, hfits⟩ := counted_room hbuffer hroom
  rw [pack_str_eq]
  exact exists_packCounted hlen hfits

theorem exists_pack_bytes (b : List UInt8) {buffer : List UInt8} {offset : MemUnit}
    (hbuffer : buffer.length ≤ 2 ^ 16)
    (hroom : stopAll [counted b] offset.bits ≤ 8 * buffer.length) :
    ∃ r, pack buffer offset .bytes (.bytes b) = .ok r := by
  obtain ⟨hlen, hfits⟩ := counted_room hbuffer hroom
  rw [pack_bytes_eq]
  exact exists_packCounted hlen hfits

theorem exists_pack_list {inner : Numeric} (xs : List (BitVec inner.size.bits))
    {buffer : List UInt8} {offset : MemUnit} (hbuffer : buffer.length ≤ 2 ^ 16)
    (hroom : stopAll [counted (xs.flatMap fun x => beBytes inner.size.bytes x.toNat)] offset.bits ≤
      8 * buffer.length) :
    ∃ r, packList inner buffer offset (.list (xs.map inner.toPy)) = .ok r := by
  obtain ⟨hlen, hfits⟩ := counted_room hbuffer hroom
  rw [length_flatMap_beBytes] at hlen hfits
  exact exists_packList hlen hfits

theorem exists_pack_leaf {t : WireType} (hs : t.isStruct = false) (v : Value t)
    {buffer : List UInt8} {offset : MemUnit} (hbuffer : buffer.length ≤ 2 ^ 16)
    (hroom : stopAll (pieces t v) offset.bits ≤ 8 * buffer.length) :
    ∃ r, pack buffer offset t (Value.toPy t v) = .ok r := by
  cases t with
  | num n =>
    rw [pack]
    exact exists_packNumeric (structPack_toPy n v) (length_beBytes _ _) (number_room hroom)
  | str => exact exists_pack_str v hbuffer hroom
  | bytes => exact exists_pack_bytes v hbuffer hroom
  | list inner =>
    rw [pack]
    exact exists_pack_list v hbuffer hroom
  | bitU width =>
    rw [pack]
    exact exists_packBitU _ hroom
  | enum e =>
    simp only [Value.toPy, pack]
    simp only [pieces] at hroom
    cases he : e.backing.repr with
    | inl n =>
      simp only [he] at hroom
      exact exists_packNumeric (structPack_enum he v.property) (length_beBytes _ _)
        (number_room hroom)
    | inr width =>
      simp only [he] at hroom
      exact exists_packBitU _ hroom
  | struct name members => cases hs

/-- Members without structs are packed when they have room. -/
theorem exists_packMembers_flat (ms : Members) (hflat : ms.flat = true) (vs : Values ms)
    {buffer : List UInt8} {offset : MemUnit} (hbuffer : buffer.length ≤ 2 ^ 16)
    (hroom : stopAll (piecesMembers ms vs) offset.bits ≤ 8 * buffer.length) :
    ∃ r, packMembers buffer offset ms (astupleInners (Values.toPy ms vs)) = .ok r := by
  induction ms using Members.induction generalizing buffer offset with
  | nil => exact ⟨_, rfl⟩
  | cons name t rest ih =>
    simp only [Members.flat, Bool.and_eq_true, Bool.not_eq_true'] at hflat
    obtain ⟨v, vs⟩ := vs
    change stopAll (pieces t v ++ piecesMembers rest vs) offset.bits ≤ _ at hroom
    rw [stopAll_append] at hroom
    have hleaf : astupleInner (Value.toPy t v) = Value.toPy t v :=
      astupleInner_toPy (by rintro name members rfl; cases hflat.1) v
    obtain ⟨⟨b, o⟩, hfirst⟩ :=
      exists_pack_leaf hflat.1 v hbuffer ((le_stopAll _ _).trans hroom)
    have hstored := pack_writes t v _ (.inl rfl) buffer offset b o hfirst
    obtain ⟨r, hr⟩ := @ih hflat.2 vs b o (by rw [hstored.length_eq]; exact hbuffer)
      (by rw [hstored.length_eq, hstored.stop_eq]; exact hroom)
    refine ⟨r, ?_⟩
    change packMembers buffer offset _
      (astupleInner (Value.toPy t v) :: astupleInners (Values.toPy rest vs)) = _
    rw [packMembers, hleaf, hfirst]
    exact hr

theorem exists_packMembers (ms : Members) (hflat : ms.structsFlat = true) (vs : Values ms)
    {buffer : List UInt8} {offset : MemUnit} (hbuffer : buffer.length ≤ 2 ^ 16)
    (hroom : stopAll (piecesMembers ms vs) offset.bits ≤ 8 * buffer.length) :
    ∃ r, packMembers buffer offset ms (Values.toPy ms vs) = .ok r := by
  induction ms using Members.induction generalizing buffer offset with
  | nil => exact ⟨_, rfl⟩
  | cons name t rest ih =>
    obtain ⟨v, vs⟩ := vs
    change stopAll (pieces t v ++ piecesMembers rest vs) offset.bits ≤ _ at hroom
    rw [stopAll_append] at hroom
    have hfirst : (∃ r, pack buffer offset t (Value.toPy t v) = .ok r) ∧
        rest.structsFlat = true := by
      have hfits := (le_stopAll _ _).trans hroom
      cases t with
      | struct name members =>
        simp only [Members.structsFlat, Bool.and_eq_true] at hflat
        have halign : stopAll (piecesMembers members v) offset.byteAlign.bits ≤
            8 * buffer.length := by
          rw [MemUnit.byteAlign_bits]
          exact hfits
        obtain ⟨r, hr⟩ := exists_packMembers_flat members hflat.1 v hbuffer halign
        exact ⟨⟨r, except_bind_eq_ok.mpr ⟨_, rfl, hr⟩⟩, hflat.2⟩
      | _ => exact ⟨exists_pack_leaf rfl v hbuffer hfits, hflat⟩
    obtain ⟨⟨⟨b, o⟩, hfirst⟩, hrest⟩ := hfirst
    have hstored := pack_writes t v _ (.inl rfl) buffer offset b o hfirst
    obtain ⟨r, hr⟩ := @ih hrest vs b o (by rw [hstored.length_eq]; exact hbuffer)
      (by rw [hstored.length_eq, hstored.stop_eq]; exact hroom)
    refine ⟨r, ?_⟩
    change packMembers buffer offset _ (Value.toPy t v :: Values.toPy rest vs) = _
    rw [packMembers, hfirst]
    exact hr

theorem length_toPy (ms : Members) (vs : Values ms) : (Values.toPy ms vs).length = ms.length := by
  induction ms using Members.induction with
  | nil => rfl
  | cons name t rest ih => exact congrArg Nat.succ (ih vs.2)

/-- `pack_payload` takes the values without a struct inside a struct that fit the scratch buffer. -/
theorem exists_packPayload {types : Members} (hflat : types.structsFlat = true) (vs : Values types)
    (hsize : encodedSize types vs ≤ scratchSize) :
    ∃ payload, packPayload types (Values.toPy types vs) = .ok payload := by
  have hlength : (List.replicate scratchSize (0 : UInt8)).length = scratchSize :=
    List.length_replicate
  have hstop : stopAll (piecesMembers types vs) 0 ≤ 8 * scratchSize := by
    rw [encodedSize] at hsize
    omega
  obtain ⟨r, hr⟩ := @exists_packMembers types hflat vs (List.replicate scratchSize 0) ⟨0⟩
    (by rw [hlength]; decide) (by rw [hlength]; exact hstop)
  refine ⟨r.1.take r.2.bytes, ?_⟩
  simp only [packPayload]
  rw [if_neg (not_not.mpr (length_toPy types vs)), hr]
  rfl

theorem length_packPayload {types : Members} {vs : Values types} {payload : List UInt8}
    (h : packPayload types (Values.toPy types vs) = .ok payload) :
    types.structsFlat = true ∧ payload.length = encodedSize types vs := by
  obtain ⟨buffer, offset, hpack, rfl⟩ := packPayload_eq_ok h
  have hstored := packMembers_writes types vs _ (.inl rfl) _ _ _ _ hpack
  have hlength := hstored.length_eq
  have hfits := hstored.fits (Nat.zero_le _)
  have hstop : offset.bits = stopAll (piecesMembers types vs) 0 := hstored.stop_eq
  refine ⟨structsFlat_of_packMembers hpack, ?_⟩
  rw [List.length_take, hlength, encodedSize, ← hstop, MemUnit.bytes_eq]
  omega

/-- A header with the length of the payload in words, the payload, and zeros up to a whole word. -/
structure IsMessage (payload msg : List UInt8) : Prop where
  length_eq : msg.length = 4 + 4 * ((payload.length + 3) / 4)
  len : ∃ len : UInt8, msg.head? = some len ∧ len.toNat = (payload.length + 3) / 4
  padding : msg.drop 4 =
    payload ++ List.replicate (4 * ((payload.length + 3) / 4) - payload.length) 0

theorem Msg.pack_fromData_eq (txn : UInt8) (resp : Bool) (rpcId : ℕ) (payload : List UInt8) :
    (Msg.fromData txn.toNat resp rpcId payload).pack =
      (Header.pack ⟨(payload.length + 3) / 4, txn.toNat, resp, rpcId⟩ >>= fun header =>
        .ok (header ++ (payload ++
          List.replicate (4 * ((payload.length + 3) / 4) - payload.length) 0))) := by
  have hcovers : ¬ 4 * (Msg.fromData txn.toNat resp rpcId payload).header.len <
      (Msg.fromData txn.toNat resp rpcId payload).payload.length := by
    simp only [Msg.fromData]
    omega
  simp only [Msg.pack, if_neg hcovers]
  rfl

theorem Header.exists_pack {h : Header} (hlen : h.len < 256) (htxn : h.txn < 256) :
    ∃ flags, h.pack = .ok ([UInt8.ofNat h.len, UInt8.ofNat h.txn] ++ beBytes 2 flags) :=
  ⟨_, if_pos ⟨hlen, htxn⟩⟩

/-- A payload of up to 1020 bytes makes a message. -/
theorem exists_pack_fromData_iff (txn : UInt8) (resp : Bool) (rpcId : ℕ) (payload : List UInt8) :
    (∃ msg, (Msg.fromData txn.toNat resp rpcId payload).pack = .ok msg) ↔
      payload.length ≤ payloadLimit := by
  rw [Msg.pack_fromData_eq, payloadLimit]
  constructor
  · rintro ⟨msg, hmsg⟩
    obtain ⟨header, hheader, -⟩ := except_bind_eq_ok.mp hmsg
    have hlen : (payload.length + 3) / 4 < 256 := (Header.lt_of_pack hheader).1
    omega
  · intro hsize
    obtain ⟨flags, hheader⟩ := @Header.exists_pack
      ⟨(payload.length + 3) / 4, txn.toNat, resp, rpcId⟩ (by simp only; omega) txn.toNat_lt
    exact ⟨_, except_bind_eq_ok.mpr ⟨_, hheader, rfl⟩⟩

theorem isMessage_of_pack {txn : UInt8} {resp : Bool} {rpcId : ℕ} {payload msg : List UInt8}
    (h : (Msg.fromData txn.toNat resp rpcId payload).pack = .ok msg) : IsMessage payload msg := by
  rw [Msg.pack_fromData_eq] at h
  obtain ⟨header, hheader, hmsg⟩ := except_bind_eq_ok.mp h
  obtain ⟨hlen, htxn⟩ := Header.lt_of_pack hheader
  obtain ⟨flags, hflags⟩ := Header.exists_pack hlen htxn
  obtain rfl := Except.ok.inj (hflags.symm.trans hheader)
  obtain rfl := Except.ok.inj hmsg
  refine ⟨?_, ⟨UInt8.ofNat ((payload.length + 3) / 4), rfl, ?_⟩, ?_⟩
  · simp only [List.length_append, List.length_cons, List.length_nil, length_beBytes,
      List.length_replicate]
    omega
  · rw [UInt8.toNat_ofNat', Nat.mod_eq_of_lt hlen]
  · rw [List.drop_append_of_le_length (by simp)]
    simp [beBytes]

/-- A message with a payload: a header with its number of words, and zeros up to a whole word. -/
def payloadMessage (txn : UInt8) (resp : Bool) (rpcId : ℕ) (payload : List UInt8) : List UInt8 :=
  headerBytes (UInt8.ofNat ((payload.length + 3) / 4)) txn resp rpcId ++
    (payload ++ List.replicate (4 * ((payload.length + 3) / 4) - payload.length) 0)

/-- The message of a call in Python. -/
theorem packMessage_eq_ok {types : Members} {vs : Values types} {txn : UInt8} {rpcId : ℕ}
    (hid : rpcId < 4096) {resp : Bool} {msg : List UInt8}
    (h : packMessage types (Values.toPy types vs) txn resp rpcId = .ok msg) :
    ∃ payload, packPayload types (Values.toPy types vs) = .ok payload ∧
      payload.length ≤ payloadLimit ∧
      msg = payloadMessage txn resp rpcId payload := by
  obtain ⟨payload, hpayload, h⟩ := except_bind_eq_ok.mp h
  have hlength := (exists_pack_fromData_iff txn resp rpcId payload).mp ⟨msg, h⟩
  rw [Msg.pack_fromData_eq] at h
  obtain ⟨header, hheader, hmsg⟩ := except_bind_eq_ok.mp h
  obtain ⟨hlen, htxn⟩ := Header.lt_of_pack hheader
  rw [Header.pack_eq hlen htxn hid, UInt8.ofNat_toNat] at hheader
  obtain rfl := Except.ok.inj hheader
  exact ⟨payload, hpayload, hlength, (Except.ok.inj hmsg).symm⟩

/-- Sending succeeds exactly for encodings of up to 1020 bytes, and then sends the payload in a
message. -/
def Sendable (types : Members) (vs : Values types) : Prop :=
  ∀ (txn : UInt8) (resp : Bool) (rpcId : ℕ),
    ((∃ msg, packMessage types (Values.toPy types vs) txn resp rpcId = .ok msg) ↔
      encodedSize types vs ≤ payloadLimit) ∧
    ∀ msg, packMessage types (Values.toPy types vs) txn resp rpcId = .ok msg →
      ∃ payload, packPayload types (Values.toPy types vs) = .ok payload ∧
        payload.length = encodedSize types vs ∧ IsMessage payload msg

theorem exists_packMessage_iff {types : Members} {vs : Values types} {txn : UInt8} {resp : Bool}
    {rpcId : ℕ} :
    (∃ msg, packMessage types (Values.toPy types vs) txn resp rpcId = .ok msg) ↔
      types.structsFlat = true ∧ encodedSize types vs ≤ payloadLimit := by
  constructor
  · rintro ⟨msg, h⟩
    obtain ⟨payload, hpayload, hmsg⟩ := except_bind_eq_ok.mp h
    obtain ⟨hflat, hlength⟩ := length_packPayload hpayload
    rw [← hlength]
    exact ⟨hflat, (exists_pack_fromData_iff txn resp rpcId payload).mp ⟨msg, hmsg⟩⟩
  · rintro ⟨hflat, hsize⟩
    obtain ⟨payload, hpayload⟩ := exists_packPayload hflat vs (hsize.trans (by decide))
    rw [← (length_packPayload hpayload).2] at hsize
    obtain ⟨msg, hmsg⟩ := (exists_pack_fromData_iff txn resp rpcId payload).mpr hsize
    exact ⟨msg, except_bind_eq_ok.mpr ⟨payload, hpayload, hmsg⟩⟩

/-- A value can be sent as its size says if and only if no struct stands inside a struct, or the
encoding is too large. -/
theorem sendable_iff (types : Members) (vs : Values types) :
    Sendable types vs ↔ types.structsFlat = true ∨ payloadLimit < encodedSize types vs := by
  constructor
  · intro h
    have hiff := (h 0 false 0).1
    rw [exists_packMessage_iff] at hiff
    by_cases hsize : encodedSize types vs ≤ payloadLimit
    · exact .inl (hiff.mpr hsize).1
    · exact .inr (Nat.lt_of_not_le hsize)
  · intro h txn resp rpcId
    refine ⟨?_, fun msg hmsg => ?_⟩
    · rw [exists_packMessage_iff]
      exact and_iff_right_of_imp fun hsize => h.resolve_right (Nat.not_lt.mpr hsize)
    · obtain ⟨payload, hpayload, hpack⟩ := except_bind_eq_ok.mp hmsg
      exact ⟨payload, hpayload, (length_packPayload hpayload).2, isMessage_of_pack hpack⟩

def nestedTypes : Members :=
  .ofTypes [.struct "Outer" (.ofTypes [.struct "Inner" (.ofTypes [.num .u8])])]

/-- A nested struct of one byte cannot be sent. -/
theorem not_sendable_nestedTypes :
    encodedSize nestedTypes (((7#8, ()), ()), ()) = 1 ∧
      ¬ Sendable nestedTypes (((7#8, ()), ()), ()) := by
  have hsize : encodedSize nestedTypes (((7#8, ()), ()), ()) = 1 := rfl
  refine ⟨hsize, fun h => ?_⟩
  rcases (sendable_iff _ _).mp h with hflat | hlarge
  · exact absurd hflat (by decide)
  · rw [hsize] at hlarge
    exact absurd hlarge (by decide)

end CompostRpc
