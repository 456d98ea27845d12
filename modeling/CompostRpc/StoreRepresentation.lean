import CompostRpc.RoundTrip
import CompostRpc.StructBoundaries

/-!
# C values that stand for Python values

`Represents` relates the values of a Python call to the C values of the same call: slices point to
their bytes, which lie outside the destination. The contents of such a C value are those of the
Python value. A struct inside a struct is no argument of the Python writer, which raises on it:
`structsFlat_of_packMembers`.
-/

namespace CompostRpc
open ByteMemory Piece Machine

/-- The slice points to `data`, which lies outside the addresses from `lo` to `hi`. -/
structure HoldsSlice (mem : ByteMemory) (lo hi : ℕ) (inner : Numeric) (data : List UInt8)
    (s : Slice) : Prop where
  length_eq : s.len.toNat * inner.size.bytes = data.length
  data_eq : read mem s.ptr data.length = data
  outside : ∀ k < data.length, s.ptr + k < lo ∨ hi ≤ s.ptr + k

mutual

/-- The C value stands for the Python value; no slice lies between `lo` and `hi`. -/
def Represents (mem : ByteMemory) (lo hi : ℕ) : (t : WireType) → Value t → CValue t → Prop
  | .num _, v, c => c = v
  | .str, s, c => HoldsSlice mem lo hi .u8 (utf8 s) c
  | .bytes, b, c => HoldsSlice mem lo hi .u8 b c
  | .list inner, xs, c =>
    HoldsSlice mem lo hi inner (List.flatMap (fun x => beBytes inner.size.bytes x.toNat) xs) c
  | .bitU _, v, c => c = v
  | .enum _, v, c => c = BitVec.ofInt 32 v.val
  | .struct _ members, vs, cs => RepresentsAll mem lo hi members vs cs

def RepresentsAll (mem : ByteMemory) (lo hi : ℕ) : (ms : Members) → Values ms → CValues ms → Prop
  | .nil, _, _ => True
  | .cons _ t rest, v, c =>
    Represents mem lo hi t v.1 c.1 ∧ RepresentsAll mem lo hi rest v.2 c.2

end

mutual

theorem Represents.contents_eq {mem : ByteMemory} {lo hi : ℕ} (t : WireType) (v : Value t)
    (c : CValue t) (h : Represents mem lo hi t v c) : contents mem t c = Value.contents t v := by
  -- the contents of a slice, for the three types that are passed as one
  have hslice : ∀ {inner : Numeric} {data : List UInt8} {s : Slice},
      HoldsSlice mem lo hi inner data s → sliceData mem inner s = data := by
    intro inner data s hs
    rw [sliceData, hs.length_eq, hs.data_eq]
  match t, v, c with
  | .num n, _, _ | .bitU width, _, _ | .enum e, _, _ => exact h
  | .str, s, c => exact hslice h
  | .bytes, b, c => exact hslice h
  | .list inner, xs, c => exact hslice h
  | .struct name members, vs, cs => exact RepresentsAll.contents_eq members vs cs h

theorem RepresentsAll.contents_eq {mem : ByteMemory} {lo hi : ℕ} (ms : Members) (vs : Values ms)
    (cs : CValues ms) (h : RepresentsAll mem lo hi ms vs cs) :
    contentsAll mem ms cs = Values.contents ms vs := by
  match ms, vs, cs with
  | .nil, _, _ => rfl
  | .cons name t rest, v, c =>
    exact Prod.ext (Represents.contents_eq t v.1 c.1 h.1)
      (RepresentsAll.contents_eq rest v.2 c.2 h.2)

end

mutual

/-- The slices of a value that is laid out between `lo` and `hi` are short. -/
theorem Represents.stable {mem : ByteMemory} {lo hi o : ℕ} (t : WireType) (v : Value t)
    (c : CValue t) (h : Represents mem lo hi t v c) (hlo : 8 * lo ≤ o) (hhi : hi ≤ lo + 2 ^ 16)
    (hstop : stopAll (storedPieces t (Value.contents t v)) o ≤ 8 * hi) :
    Stable lo hi (slices t c) := by
  have hle := le_alignUp o
  have hslice : ∀ {inner : Numeric} {data : List UInt8} {s : Slice},
      HoldsSlice mem lo hi inner data s → stopAll [counted data] o ≤ 8 * hi →
      Stable lo hi [Slice.region inner s] := by
    intro inner data s hs hend r hr
    rw [List.mem_singleton] at hr
    subst hr
    simp only [stopAll, counted, stop, List.length_append, length_beBytes] at hend
    simp only [Slice.region, Separate, hs.length_eq]
    exact ⟨by omega, hs.outside⟩
  match t, v, c with
  | .num n, _, _ | .bitU width, _, _ | .enum e, _, _ =>
    intro r hr
    cases hr
  | .str, s, c => exact hslice h hstop
  | .bytes, b, c => exact hslice h hstop
  | .list inner, xs, c => exact hslice h hstop
  | .struct name members, vs, cs =>
    simp only [Value.contents, stopAll_storedPieces_struct] at hstop
    exact RepresentsAll.stable members vs cs h (hlo.trans hle) hhi ((le_alignUp _).trans hstop)

theorem RepresentsAll.stable {mem : ByteMemory} {lo hi o : ℕ} (ms : Members) (vs : Values ms)
    (cs : CValues ms) (h : RepresentsAll mem lo hi ms vs cs) (hlo : 8 * lo ≤ o)
    (hhi : hi ≤ lo + 2 ^ 16)
    (hstop : stopAll (storedPiecesAll ms (Values.contents ms vs)) o ≤ 8 * hi) :
    Stable lo hi (slicesAll ms cs) := by
  match ms, vs, cs with
  | .nil, _, _ =>
    intro r hr
    cases hr
  | .cons name t rest, (v, vs), (c, cs) =>
    simp only [Values.contents, storedPiecesAll_cons, stopAll_append] at hstop
    have hmid := (le_stopAll (storedPiecesAll rest _) _).trans hstop
    have hgrow := le_stopAll (storedPieces t (Value.contents t v)) o
    intro r hr
    rcases List.mem_append.mp hr with hr | hr
    · exact Represents.stable t v c h.1 hlo hhi hmid r hr
    · exact RepresentsAll.stable rest vs cs h.2 (hlo.trans hgrow) hhi hstop r hr

end

def WireType.isStruct : WireType → Bool
  | .struct _ _ => true
  | _ => false

def Members.flat : Members → Bool
  | .nil => true
  | .cons _ t rest => !t.isStruct && rest.flat

def Members.structsFlat : Members → Bool
  | .nil => true
  | .cons _ (.struct _ members) rest => members.flat && rest.structsFlat
  | .cons _ _ rest => rest.structsFlat

/-- A struct inside a struct makes the Python writer raise. -/
theorem flat_of_packMembers {ms : Members} {vs : Values ms} {buffer buffer' : List UInt8}
    {offset offset' : MemUnit}
    (h : packMembers buffer offset ms (astupleInners (Values.toPy ms vs)) =
      .ok (buffer', offset')) : ms.flat = true := by
  induction ms using Members.induction generalizing buffer offset with
  | nil => rfl
  | cons name t rest ih =>
    obtain ⟨⟨b, o⟩, hfirst, hrest⟩ := except_bind_eq_ok.mp h
    rw [Members.flat, ih hrest, Bool.and_true]
    cases t with
    | struct name members => cases hfirst
    | _ => rfl

theorem structsFlat_of_packMembers {ms : Members} {vs : Values ms} {buffer buffer' : List UInt8}
    {offset offset' : MemUnit}
    (h : packMembers buffer offset ms (Values.toPy ms vs) = .ok (buffer', offset')) :
    ms.structsFlat = true := by
  induction ms using Members.induction generalizing buffer offset with
  | nil => rfl
  | cons name t rest ih =>
    obtain ⟨⟨b, o⟩, hfirst, hrest⟩ := except_bind_eq_ok.mp h
    cases t with
    | struct name members =>
      rw [Members.structsFlat, ih hrest, Bool.and_true]
      exact flat_of_packMembers hfirst
    | _ => exact ih hrest

end CompostRpc
