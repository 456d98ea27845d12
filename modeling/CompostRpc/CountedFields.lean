import CompostRpc.UnpackFields

/-!
# Counted fields in Python

A `str`, `bytes` or list field is preceded by the number of its bytes. Of a string the reader takes
a slice, which a short payload cuts without an error. Of a list it takes as many elements as fit in
the announced bytes, and neither reads nor skips the bytes left over.
-/

namespace CompostRpc
open ByteMemory

/-- A counted field as it was read: where its length stands, the bytes it announces, the bytes that
its decoded value stands for, and the byte where the reader goes on. -/
structure CountedField where
  start : ℕ
  announced : ℕ
  data : List UInt8
  next : ℕ

structure CountedField.Whole (payload : List UInt8) (f : CountedField) : Prop where
  present : f.start + 2 + f.announced ≤ payload.length
  decoded : f.data = (payload.drop (f.start + 2)).take f.announced
  skipped : f.next = f.start + 2 + f.announced

def announced (payload : List UInt8) (o : ℕ) : ℕ := beNat ((payload.drop o).take 2)

def encodedElement (inner : Numeric) (x : PyVal) : List UInt8 :=
  match structPack inner x with
  | .ok data => data
  | .error _ => []

def valueBytes : WireType → PyVal → List UInt8
  | .str, .str s => utf8 s
  | .bytes, .bytes b => b
  | .list inner, .list xs => xs.flatMap (encodedElement inner)
  | _, _ => []

def countedField (payload : List UInt8) (offset : MemUnit) (t : WireType) : List CountedField :=
  match unpack payload offset t with
  | .ok (v, next) =>
    [⟨offset.bytes, announced payload offset.bytes, valueBytes t v, next.bytes⟩]
  | .error _ => []

mutual

def countedFields (payload : List UInt8) (offset : MemUnit) : WireType → List CountedField
  | .struct _ members => countedFieldsMembers payload offset.byteAlign members
  | .str => countedField payload offset .str
  | .bytes => countedField payload offset .bytes
  | .list inner => countedField payload offset (.list inner)
  | _ => []

def countedFieldsMembers (payload : List UInt8) (offset : MemUnit) :
    Members → List CountedField
  | .nil => []
  | .cons _ t rest =>
    countedFields payload offset t ++
      match unpack payload offset t with
      | .ok (_, offset) => countedFieldsMembers payload offset rest
      | .error _ => []

end

mutual

def behind (payload : List UInt8) (offset : MemUnit) : WireType → MemUnit
  | .struct _ members => behindMembers payload offset.byteAlign members
  | .str | .bytes | .list _ =>
    offset.setBytes (offset.bytes + 2 + announced payload offset.bytes)
  | .num n => offset + n.size
  | .bitU width => offset + ⟨width⟩
  | .enum e =>
    match e.backing.repr with
    | .inr width => offset + ⟨width⟩
    | .inl n => offset + n.size

def behindMembers (payload : List UInt8) (offset : MemUnit) : Members → MemUnit
  | .nil => offset
  | .cons _ t rest => behindMembers payload (behind payload offset t) rest

end

mutual

/-- The bytes announced for each string are in the payload, and those announced for each list make
whole elements. -/
def Complete (payload : List UInt8) (offset : MemUnit) : WireType → Prop
  | .struct _ members => CompleteMembers payload offset.byteAlign members
  | .str | .bytes => offset.bytes + 2 + announced payload offset.bytes ≤ payload.length
  | .list inner => inner.size.bytes ∣ announced payload offset.bytes
  | _ => True

def CompleteMembers (payload : List UInt8) (offset : MemUnit) : Members → Prop
  | .nil => True
  | .cons _ t rest =>
    Complete payload offset t ∧ CompleteMembers payload (behind payload offset t) rest

end

theorem unpackLength_eq_ok {payload : List UInt8} {o len : ℕ}
    (h : unpackLength payload o = .ok len) :
    o + 2 ≤ payload.length ∧ len = announced payload o := by
  rw [unpackLength] at h
  split_ifs at h with hinside
  exact ⟨hinside, (Except.ok.inj h).symm⟩

theorem unpackCounted_eq_ok {payload data : List UInt8} {offset next : MemUnit}
    (h : unpackCounted payload offset = .ok (data, next)) :
    data = (payload.drop (offset.bytes + 2)).take (announced payload offset.bytes) ∧
      next = offset.setBytes (offset.bytes + 2 + announced payload offset.bytes) := by
  obtain ⟨len, hlen, h⟩ := except_bind_eq_ok.mp h
  obtain ⟨-, rfl⟩ := unpackLength_eq_ok hlen
  simp only [setBytes_bytes] at h
  cases h
  exact ⟨rfl, rfl⟩

theorem encodedElement_of_unpackFrom {inner : Numeric} {payload : List UInt8} {o : ℕ} {x : PyVal}
    (h : unpackFrom inner payload o = .ok x) :
    o + inner.size.bytes ≤ payload.length ∧
      encodedElement inner x = (payload.drop o).take inner.size.bytes := by
  rw [unpackFrom] at h
  split_ifs at h with hinside
  refine ⟨hinside, ?_⟩
  have hlength : ((payload.drop o).take inner.size.bytes).length = inner.size.bytes := by
    rw [List.length_take, List.length_drop]
    omega
  have hlt := beNat_lt ((payload.drop o).take inner.size.bytes)
  have hpow : 256 ^ inner.size.bytes = 2 ^ inner.size.bits := by
    rw [inner.size_bits, pow_mul]
    norm_num
  rw [hlength, hpow] at hlt
  have hbytes := beBytes_beNat ((payload.drop o).take inner.size.bytes)
  rw [hlength] at hbytes
  rw [← Except.ok.inj h, encodedElement, structPack_toPy, BitVec.toNat_ofNat, Nat.mod_eq_of_lt hlt]
  exact hbytes

theorem unpackElements_eq_ok {inner : Numeric} {payload : List UInt8} {o count : ℕ}
    {xs : List PyVal} (hstart : o ≤ payload.length)
    (h : unpackElements inner payload o count = .ok xs) :
    o + count * inner.size.bytes ≤ payload.length ∧
      xs.flatMap (encodedElement inner) = (payload.drop o).take (count * inner.size.bytes) := by
  induction count generalizing o xs with
  | zero =>
    cases h
    rw [Nat.zero_mul]
    exact ⟨hstart, rfl⟩
  | succ count ih =>
    obtain ⟨x, hx, h⟩ := except_bind_eq_ok.mp h
    obtain ⟨rest, hrest, h⟩ := except_bind_eq_ok.mp h
    cases h
    obtain ⟨hinside, hbytes⟩ := encodedElement_of_unpackFrom hx
    obtain ⟨hinside', hbytes'⟩ := ih hinside hrest
    have hmul : (count + 1) * inner.size.bytes =
        inner.size.bytes + count * inner.size.bytes := by
      rw [Nat.succ_mul, Nat.add_comm]
    rw [hmul, List.flatMap_cons, hbytes, hbytes', List.take_add, List.drop_drop]
    exact ⟨by omega, rfl⟩

theorem unpackList_eq_ok {inner : Numeric} {payload : List UInt8} {offset next : MemUnit}
    {v : PyVal} (h : unpackList inner payload offset = .ok (v, next)) :
    let length := announced payload offset.bytes / inner.size.bytes * inner.size.bytes
    offset.bytes + 2 + length ≤ payload.length ∧
      valueBytes (.list inner) v = (payload.drop (offset.bytes + 2)).take length ∧
      next = offset.setBytes (offset.bytes + 2 + length) := by
  obtain ⟨len, hlen, h⟩ := except_bind_eq_ok.mp h
  obtain ⟨hinside, rfl⟩ := unpackLength_eq_ok hlen
  simp only [setBytes_bytes] at h
  obtain ⟨xs, hxs, h⟩ := except_bind_eq_ok.mp h
  cases h
  obtain ⟨hpresent, hbytes⟩ := unpackElements_eq_ok hinside hxs
  exact ⟨hpresent, hbytes, rfl⟩

theorem unpack_string_eq_ok {t : WireType} (ht : t = .str ∨ t = .bytes) {payload : List UInt8}
    {offset next : MemUnit} {v : PyVal} (h : unpack payload offset t = .ok (v, next)) :
    valueBytes t v =
        (payload.drop (offset.bytes + 2)).take (announced payload offset.bytes) ∧
      next = offset.setBytes (offset.bytes + 2 + announced payload offset.bytes) := by
  rcases ht with rfl | rfl
  · rw [unpack] at h
    obtain ⟨⟨data, next'⟩, hcounted, h⟩ := except_bind_eq_ok.mp h
    obtain ⟨value, hdecoded, h⟩ := except_bind_eq_ok.mp h
    cases h
    obtain ⟨hdata, hnext⟩ := unpackCounted_eq_ok hcounted
    obtain ⟨s, rfl⟩ : ∃ s, v = .str s := by
      rw [decodeUtf8] at hdecoded
      split at hdecoded
      · exact ⟨_, (Except.ok.inj hdecoded).symm⟩
      · cases hdecoded
    exact ⟨(utf8_of_decodeUtf8 hdecoded).trans hdata, hnext⟩
  · rw [unpack] at h
    obtain ⟨⟨data, next'⟩, hcounted, h⟩ := except_bind_eq_ok.mp h
    cases h
    exact unpackCounted_eq_ok hcounted

theorem string_whole_iff {t : WireType} (ht : t = .str ∨ t = .bytes) {payload : List UInt8}
    {offset next : MemUnit} {v : PyVal} (h : unpack payload offset t = .ok (v, next)) :
    (∀ f ∈ countedField payload offset t, f.Whole payload) ↔
      offset.bytes + 2 + announced payload offset.bytes ≤ payload.length := by
  obtain ⟨hdata, rfl⟩ := unpack_string_eq_ok ht h
  rw [countedField, h]
  simp only [List.mem_singleton, forall_eq]
  exact ⟨fun hwhole => hwhole.present, fun hpresent => ⟨hpresent, hdata, setBytes_bytes _ _⟩⟩

theorem list_whole_iff {inner : Numeric} {payload : List UInt8} {offset next : MemUnit}
    {v : PyVal} (h : unpack payload offset (.list inner) = .ok (v, next)) :
    (∀ f ∈ countedField payload offset (.list inner), f.Whole payload) ↔
      inner.size.bytes ∣ announced payload offset.bytes := by
  obtain ⟨hpresent, hdata, rfl⟩ := unpackList_eq_ok h
  rw [countedField, h]
  simp only [List.mem_singleton, forall_eq]
  constructor
  · intro hwhole
    have hskipped := hwhole.skipped
    simp only [setBytes_bytes] at hskipped
    exact Dvd.intro_left _ (Nat.add_left_cancel hskipped)
  · intro hdvd
    rw [Nat.div_mul_cancel hdvd] at hpresent hdata ⊢
    exact ⟨hpresent, hdata, setBytes_bytes _ _⟩

theorem unpackBitU_next {width val : ℕ} {payload : List UInt8} {offset next : MemUnit}
    (h : unpackBitU width payload offset = .ok (val, next)) : next = offset + ⟨width⟩ := by
  obtain ⟨_, -, h⟩ := except_bind_eq_ok.mp h
  cases h
  rfl

mutual

/-- What a call of `_unpack` read is whole if and only if the payload is complete there, and then
the reader goes on behind the announced bytes. -/
theorem unpack_whole_iff (t : WireType) {payload : List UInt8} {offset next : MemUnit} {v : PyVal}
    (h : unpack payload offset t = .ok (v, next)) :
    ((∀ f ∈ countedFields payload offset t, f.Whole payload) ↔ Complete payload offset t) ∧
      (Complete payload offset t → next = behind payload offset t) := by
  cases t with
  | struct name members =>
    rw [unpack] at h
    obtain ⟨⟨fields, next'⟩, hmembers, h⟩ := except_bind_eq_ok.mp h
    cases h
    exact unpackMembers_whole_iff members hmembers
  | str =>
    rw [countedFields, Complete, behind]
    exact ⟨string_whole_iff (.inl rfl) h, fun _ => (unpack_string_eq_ok (.inl rfl) h).2⟩
  | bytes =>
    rw [countedFields, Complete, behind]
    exact ⟨string_whole_iff (.inr rfl) h, fun _ => (unpack_string_eq_ok (.inr rfl) h).2⟩
  | list inner =>
    rw [countedFields, Complete, behind]
    refine ⟨list_whole_iff h, fun hdvd => ?_⟩
    obtain ⟨-, -, hnext⟩ := unpackList_eq_ok h
    rwa [Nat.div_mul_cancel hdvd] at hnext
  | num n =>
    refine ⟨iff_of_true (List.forall_mem_nil _) trivial, fun _ => ?_⟩
    rw [unpack] at h
    obtain ⟨_, -, h⟩ := except_bind_eq_ok.mp h
    cases h
    rfl
  | bitU width =>
    refine ⟨iff_of_true (List.forall_mem_nil _) trivial, fun _ => ?_⟩
    rw [unpack] at h
    obtain ⟨⟨val, next'⟩, hbits, h⟩ := except_bind_eq_ok.mp h
    cases h
    exact unpackBitU_next hbits
  | enum e =>
    refine ⟨iff_of_true (List.forall_mem_nil _) trivial, fun _ => ?_⟩
    rw [unpack] at h
    rw [behind]
    cases he : e.backing.repr with
    | inr width =>
      simp only [he] at h ⊢
      obtain ⟨⟨val, next'⟩, hbits, h⟩ := except_bind_eq_ok.mp h
      obtain ⟨_, -, h⟩ := except_bind_eq_ok.mp h
      cases h
      exact unpackBitU_next hbits
    | inl n =>
      simp only [he] at h ⊢
      obtain ⟨_, -, h⟩ := except_bind_eq_ok.mp h
      obtain ⟨_, -, h⟩ := except_bind_eq_ok.mp h
      cases h
      rfl

theorem unpackMembers_whole_iff (ms : Members) {payload : List UInt8} {offset next : MemUnit}
    {vs : List PyVal} (h : unpackMembers payload offset ms = .ok (vs, next)) :
    ((∀ f ∈ countedFieldsMembers payload offset ms, f.Whole payload) ↔
        CompleteMembers payload offset ms) ∧
      (CompleteMembers payload offset ms → next = behindMembers payload offset ms) := by
  cases ms with
  | nil =>
    cases h
    exact ⟨iff_of_true (List.forall_mem_nil _) trivial, fun _ => rfl⟩
  | cons name t rest =>
    obtain ⟨⟨v, middle⟩, hfirst, h⟩ := except_bind_eq_ok.mp h
    obtain ⟨⟨vs', next'⟩, hrest, h⟩ := except_bind_eq_ok.mp h
    cases h
    obtain ⟨hwhole, hmiddle⟩ := unpack_whole_iff t hfirst
    rw [countedFieldsMembers, CompleteMembers, behindMembers, hfirst, List.forall_mem_append,
      hwhole]
    -- the lengths say where the rest begins once the first field is complete
    by_cases hcomplete : Complete payload offset t
    · obtain rfl := hmiddle hcomplete
      obtain ⟨hwhole', hnext⟩ := unpackMembers_whole_iff rest hrest
      exact ⟨and_congr_right fun _ => hwhole', fun hall => hnext hall.2⟩
    · exact ⟨iff_of_false (fun hall => hcomplete hall.1) (fun hall => hcomplete hall.1),
        fun hall => absurd hall.1 hcomplete⟩

end

/-- When `unpack_payload` returns, all its counted fields are whole if and only if the payload is
complete. -/
theorem unpackPayload_whole_iff {types : Members} {payload : List UInt8} {values : List PyVal}
    (h : unpackPayload types payload = .ok values) :
    (∀ f ∈ countedFieldsMembers payload ⟨0⟩ types, f.Whole payload) ↔
      CompleteMembers payload ⟨0⟩ types := by
  obtain ⟨⟨vs, next⟩, hmembers, -⟩ := except_bind_eq_ok.mp h
  exact (unpackMembers_whole_iff types hmembers).1

set_option maxRecDepth 4000 in
/-- A list of one element and a string of two bytes. -/
theorem unpackPayload_whole_listAndBytes :
    unpackPayload (.ofTypes [.list .u8, .bytes]) [0, 1, 9, 0, 2, 7, 8] =
        .ok [.list [.int 9], .bytes [7, 8]] ∧
      ∀ f ∈ countedFieldsMembers [0, 1, 9, 0, 2, 7, 8] ⟨0⟩ (.ofTypes [.list .u8, .bytes]),
        f.Whole [0, 1, 9, 0, 2, 7, 8] := by
  have hunpack : unpackPayload (.ofTypes [.list .u8, .bytes]) [0, 1, 9, 0, 2, 7, 8] =
      .ok [.list [.int 9], .bytes [7, 8]] := rfl
  have hannounced : announced [0, 1, 9, 0, 2, 7, 8] (⟨0⟩ : MemUnit).bytes = 1 := rfl
  refine ⟨hunpack, (unpackPayload_whole_iff hunpack).mpr ⟨?_, ?_, trivial⟩⟩
  · rw [Complete, hannounced]
    decide
  · exact Nat.le_refl 7

set_option maxRecDepth 4000 in
/-- One byte of five is taken for a whole string, and the one byte that a list announces is taken
for the first one of the next field. -/
theorem not_whole_shortFields :
    unpackPayload (.ofTypes [.bytes]) [0, 5, 0x61] = .ok [.bytes [0x61]] ∧
      (¬ ∀ f ∈ countedFieldsMembers [0, 5, 0x61] ⟨0⟩ (.ofTypes [.bytes]),
        f.Whole [0, 5, 0x61]) ∧
      unpackPayload (.ofTypes [.list .u16, .bytes]) [0, 1, 0, 1, 7] =
        .ok [.list [], .bytes [7]] ∧
      ¬ ∀ f ∈ countedFieldsMembers [0, 1, 0, 1, 7] ⟨0⟩ (.ofTypes [.list .u16, .bytes]),
        f.Whole [0, 1, 0, 1, 7] := by
  have hbytes : unpackPayload (.ofTypes [.bytes]) [0, 5, 0x61] = .ok [.bytes [0x61]] := rfl
  have hlist : unpackPayload (.ofTypes [.list .u16, .bytes]) [0, 1, 0, 1, 7] =
      .ok [.list [], .bytes [7]] := rfl
  refine ⟨hbytes, ?_, hlist, ?_⟩
  · obtain ⟨⟨vs, next⟩, hmembers, -⟩ := except_bind_eq_ok.mp hbytes
    rw [(unpackMembers_whole_iff _ hmembers).1]
    rintro ⟨hpresent, -⟩
    exact absurd (show 7 ≤ 3 from hpresent) (by decide)
  · obtain ⟨⟨vs, next⟩, hmembers, -⟩ := except_bind_eq_ok.mp hlist
    rw [(unpackMembers_whole_iff _ hmembers).1]
    rintro ⟨hdvd, -⟩
    have hannounced : announced [0, 1, 0, 1, 7] (⟨0⟩ : MemUnit).bytes = 1 := rfl
    rw [Complete, hannounced] at hdvd
    exact absurd hdvd (by decide)

end CompostRpc
