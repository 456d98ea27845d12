import CompostRpc.Message
import CompostRpc.MsgProcess

/-!
# One header for both languages

`headerBytes` is the format of the four bytes in front of a payload. What Python packs and what C
stores are these bytes, and what Python unpacks and what C loads from them are the fields again.
-/

namespace CompostRpc
open ByteMemory

def flagByte (resp : Bool) (idHi : ℕ) : UInt8 := UInt8.ofNat (idHi + if resp then 16 else 0)

def headerBytes (wlen txn : UInt8) (resp : Bool) (rpcId : ℕ) : List UInt8 :=
  [wlen, txn, flagByte resp (rpcId / 256), UInt8.ofNat rpcId]

theorem flagByte_masks : ∀ (resp : Bool) (idHi : Fin 16),
    flagByte resp idHi &&& 0x0F = UInt8.ofNat idHi ∧
      flagByte resp idHi &&& 0xF0 = (if resp then 0x10 else 0) ∧
      UInt8.ofNat idHi ||| 0x10 = flagByte true idHi := by decide

theorem flagByte_toNat (resp : Bool) {idHi : ℕ} (h : idHi < 16) :
    (flagByte resp idHi).toNat = idHi + if resp then 16 else 0 := by
  rw [flagByte, UInt8.toNat_ofNat']
  split <;> omega

theorem Header.pack_eq {h : Header} (hlen : h.len < 256) (htxn : h.txn < 256)
    (hid : h.rpcId < 4096) :
    h.pack = .ok (headerBytes (UInt8.ofNat h.len) (UInt8.ofNat h.txn) h.resp h.rpcId) := by
  have hmask : h.rpcId &&& 0x0FFF = h.rpcId :=
    (Nat.and_two_pow_sub_one_eq_mod h.rpcId 12).trans (Nat.mod_eq_of_lt hid)
  have hbytes : ∀ n, beBytes 2 n = [UInt8.ofNat (n / 256), UInt8.ofNat n] := fun n => by
    simp [beBytes, Nat.shiftRight_eq_div_pow]
  have hfields : h.len < 2 ^ 8 ∧ h.txn < 2 ^ 8 := ⟨hlen, htxn⟩
  rw [Header.pack, hmask, hbytes]
  simp only [if_pos hfields, headerBytes, flagByte]
  cases h.resp with
  | false => rfl
  | true =>
    have hor : h.rpcId ||| 0x1000 = 4096 + h.rpcId := by
      rw [Nat.or_comm]
      exact (Nat.two_pow_add_eq_or_of_lt (i := 12) hid 1).symm
    have hhi : (4096 + h.rpcId) / 256 = h.rpcId / 256 + 16 := by omega
    have hlo : UInt8.ofNat (4096 + h.rpcId) = UInt8.ofNat h.rpcId := by
      apply UInt8.toNat_inj.mp
      simp only [UInt8.toNat_ofNat']
      omega
    simp only [if_true, hor, hhi, hlo]
    rfl

theorem Header.unpack_headerBytes {wlen txn : UInt8} {resp : Bool} {rpcId : ℕ}
    (hid : rpcId < 4096) :
    Header.unpack (headerBytes wlen txn resp rpcId) =
      .ok ⟨wlen.toNat, txn.toNat, resp, rpcId⟩ := by
  have hhi : rpcId / 256 < 16 := by omega
  have hword : beNat [flagByte resp (rpcId / 256), UInt8.ofNat rpcId] =
      rpcId + if resp then 4096 else 0 := by
    simp only [beNat, List.foldl_cons, List.foldl_nil, flagByte_toNat resp hhi,
      UInt8.toNat_ofNat']
    split <;> omega
  have hmask : beNat [flagByte resp (rpcId / 256), UInt8.ofNat rpcId] &&& 0x0FFF = rpcId := by
    rw [hword, Nat.and_two_pow_sub_one_eq_mod _ 12]
    split <;> omega
  have hflag : decide (beNat [flagByte resp (rpcId / 256), UInt8.ofNat rpcId] &&& 0x1000 ≠ 0) =
      resp := by
    rw [hword, show 0x1000 = 2 ^ 12 from rfl, Nat.and_two_pow, Nat.testBit_eq_decide_div_mod_eq]
    cases resp with
    | false => simp [Nat.div_eq_of_lt hid]
    | true =>
      have hdiv : rpcId / 4096 = 0 := Nat.div_eq_of_lt hid
      simp [hdiv]
  rw [headerBytes, Header.unpack]
  simp only [hmask, hflag]

theorem Msg.unpack_headerBytes {wlen txn : UInt8} {resp : Bool} {rpcId : ℕ} (hid : rpcId < 4096)
    (payload : List UInt8) :
    Msg.unpack (headerBytes wlen txn resp rpcId ++ payload) =
      .ok ⟨⟨wlen.toNat, txn.toNat, resp, rpcId⟩, payload⟩ := by
  have htake : (headerBytes wlen txn resp rpcId ++ payload).take 4 =
      headerBytes wlen txn resp rpcId := rfl
  have hdrop : (headerBytes wlen txn resp rpcId ++ payload).drop 4 = payload := rfl
  rw [Msg.unpack, htake, hdrop, Header.unpack_headerBytes hid]
  rfl

theorem Header.lt_of_pack {h : Header} {bytes : List UInt8} (hpack : h.pack = .ok bytes) :
    h.len < 256 ∧ h.txn < 256 := by
  rw [Header.pack] at hpack
  by_cases hfields : h.len < 2 ^ 8 ∧ h.txn < 2 ^ 8
  · exact hfields
  · simp only [if_neg hfields] at hpack
    cases hpack

theorem Msg.pack_fromData {txn rpcId : ℕ} {resp : Bool} {data bytes : List UInt8}
    (hid : rpcId < 4096) (hpack : (Msg.fromData txn resp rpcId data).pack = .ok bytes) :
    txn < 256 ∧
      ∃ len body, bytes = headerBytes len (UInt8.ofNat txn) resp rpcId ++ body := by
  have hcovers : ¬ 4 * (Msg.fromData txn resp rpcId data).header.len <
      (Msg.fromData txn resp rpcId data).payload.length := by
    simp only [Msg.fromData]
    omega
  simp only [Msg.pack, if_neg hcovers] at hpack
  obtain ⟨header, hheader, hbytes⟩ := except_bind_eq_ok.mp hpack
  obtain ⟨hlen, htxn⟩ := Header.lt_of_pack hheader
  rw [Header.pack_eq hlen htxn hid] at hheader
  obtain rfl := Except.ok.inj hheader
  exact ⟨htxn, _, _, (Except.ok.inj hbytes).symm⟩

theorem rpcId_hi {rpcId : ℕ} (hid : rpcId < 4096) :
    (UInt16.ofNat rpcId >>> 8).toUInt8 = UInt8.ofNat (rpcId / 256) := by
  apply UInt8.toNat_inj.mp
  simp [Nat.shiftRight_eq_div_pow]
  omega

theorem rpcId_join {rpcId : ℕ} (hid : rpcId < 4096) :
    (UInt8.ofNat (rpcId / 256)).toUInt16 <<< 8 ||| (UInt8.ofNat rpcId).toUInt16 =
      UInt16.ofNat rpcId := by
  apply UInt16.toNat_inj.mp
  have hshift : (rpcId / 256 % 256) <<< 8 % 65536 = 2 ^ 8 * (rpcId / 256) := by
    rw [Nat.shiftLeft_eq]
    omega
  have hor : 2 ^ 8 * (rpcId / 256) ||| rpcId % 256 = 2 ^ 8 * (rpcId / 256) + rpcId % 256 :=
    (Nat.two_pow_add_eq_or_of_lt (i := 8) (Nat.mod_lt _ (by decide)) _).symm
  simp only [UInt16.toNat_or, UInt16.toNat_shiftLeft, UInt8.toNat_toUInt16, UInt8.toNat_ofNat',
    UInt16.toNat_ofNat']
  change (rpcId / 256 % 256) <<< 8 % 65536 ||| rpcId % 256 = rpcId % 65536
  rw [hshift, hor]
  omega

theorem read_four (mem : ByteMemory) (a : ℕ) :
    ByteMemory.read mem a 4 = [mem a, mem (a + 1), mem (a + 2), mem (a + 3)] := rfl

theorem compostHeaderStore_bytes (m : Machine) (buf : ℕ) {wlen txn : UInt8} {resp : Bool}
    {rpcId : ℕ} (hid : rpcId < 4096) :
    ByteMemory.read (compostHeaderStore m buf ⟨wlen, txn, UInt16.ofNat rpcId, resp⟩).mem buf 4 =
      headerBytes wlen txn resp rpcId := by
  have hmask : UInt8.ofNat (rpcId / 256) ||| 0x10 = flagByte true (rpcId / 256) :=
    (flagByte_masks resp ⟨rpcId / 256, by omega⟩).2.2
  rw [read_four, headerBytes]
  cases resp with
  | false => simp [compostHeaderStore, Machine.storeByte, rpcId_hi hid, flagByte]
  | true => simp [compostHeaderStore, Machine.storeByte, rpcId_hi hid, hmask]

theorem compostHeaderLoad_headerBytes {m : Machine} {buf : ℕ} (hbuf : buf ≠ 0)
    {wlen txn : UInt8} {resp : Bool} {rpcId : ℕ} (hid : rpcId < 4096)
    (hread : ByteMemory.read m.mem buf 4 = headerBytes wlen txn resp rpcId) :
    (compostHeaderLoad m buf).1 = .ok ⟨wlen, txn, UInt16.ofNat rpcId, resp⟩ := by
  rw [read_four, headerBytes] at hread
  obtain ⟨h0, h1, h2, h3⟩ : m.mem buf = wlen ∧ m.mem (buf + 1) = txn ∧
      m.mem (buf + 2) = flagByte resp (rpcId / 256) ∧ m.mem (buf + 3) = UInt8.ofNat rpcId := by
    simpa using hread
  obtain ⟨hhi, hflags, -⟩ := flagByte_masks resp ⟨rpcId / 256, by omega⟩
  simp only at hhi hflags
  simp only [compostHeaderLoad, Machine.loadByte, hbuf, if_false, h0, h1, h2, h3, hhi, hflags,
    rpcId_join hid]
  cases resp with
  | false => rfl
  | true => rfl

end CompostRpc
