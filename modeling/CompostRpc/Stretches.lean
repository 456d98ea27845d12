import CompostRpc.BumpAllocator
import CompostRpc.MsgProcess
import CompostRpc.SlicePlaces

/-!
# The stretches between the elements of slices

A value is stored as stretches of fixed size, each up to the element data of the next slice, and a
last one. The layout of a struct adds up the sizes in a stretch; the store code aligns inside it as
well. Hence `layoutFrom` gives the sums, and the stored slices lie behind the extents.
-/

namespace CompostRpc
open ByteMemory Piece Machine BumpAllocator

/-- The sum of the sizes in a stretch, and the bits that the store code takes for it. -/
structure Stretch where
  sum : ℕ
  extent : ℕ

namespace Stretch

def field (s : Stretch) (width : ℕ) : Stretch := ⟨s.sum + width, s.extent + width⟩

def align (s : Stretch) : Stretch := ⟨s.sum, alignUp s.extent⟩

def bytes (s : Stretch) : ℕ := (s.extent + 7) / 8

def layoutBytes (s : Stretch) : ℕ := (s.sum + 7) / 8

def Tight (s : Stretch) : Prop := s.extent < s.sum + 8

instance (s : Stretch) : Decidable s.Tight := inferInstanceAs (Decidable (_ < _))

end Stretch

mutual

def stretches (cur : Stretch) : WireType → List Stretch × Stretch
  | .num n => ([], cur.align.field n.size.bits)
  | .bitU width => ([], cur.field width)
  | .enum e =>
    match e.backing.repr with
    | .inl n => ([], cur.align.field n.size.bits)
    | .inr width => ([], cur.field width)
  | .str | .bytes | .list _ => ([cur.align.field 16], ⟨0, 0⟩)
  | .struct _ members => stretchesAll cur.align members

def stretchesAll (cur : Stretch) : Members → List Stretch × Stretch
  | .nil => ([], cur.align)
  | .cons _ t rest =>
    let (done, cur) := stretches cur t
    let (done', cur) := stretchesAll cur rest
    (done ++ done', cur)

end

def structStretches (members : Members) : List Stretch × Stretch := stretchesAll ⟨0, 0⟩ members

theorem extendLayout_concat (l : List MemUnit) (x y : MemUnit) (ys : List MemUnit) :
    extendLayout (l ++ [x]) (y :: ys) = l ++ (x + y) :: ys := by
  rw [extendLayout, List.dropLast_concat, List.getLastD_concat]

theorem exists_concat_extendLayout (l more : List MemUnit) (x : MemUnit) :
    ∃ l' x', extendLayout (l ++ [x]) more = l' ++ [x'] := by
  rcases List.eq_nil_or_concat more with rfl | ⟨ys, y, rfl⟩
  · exact ⟨l, x, rfl⟩
  · cases ys with
    | nil => exact ⟨l, x + y, extendLayout_concat l x y []⟩
    | cons z zs =>
      refine ⟨l ++ (x + z) :: zs, y, ?_⟩
      rw [List.concat_eq_append, List.cons_append, extendLayout_concat, List.append_assoc]
      rfl

theorem extendLayout_assoc (l m : List MemUnit) (x y : MemUnit) (more : List MemUnit) :
    extendLayout (l ++ [x]) (extendLayout (m ++ [y]) more) =
      extendLayout (extendLayout (l ++ [x]) (m ++ [y])) more := by
  have hadd : ∀ u v w : MemUnit, u + (v + w) = u + v + w := fun u v w =>
    MemUnit.ext (Nat.add_assoc u.bits v.bits w.bits).symm
  cases more with
  | nil => rfl
  | cons z zs =>
    rw [extendLayout_concat]
    cases m with
    | nil =>
      simp only [List.nil_append]
      rw [extendLayout_concat, extendLayout_concat, extendLayout_concat, hadd]
    | cons w ws =>
      simp only [List.cons_append]
      rw [extendLayout_concat, extendLayout_concat]
      have hassoc : l ++ (x + w) :: (ws ++ [y]) = (l ++ (x + w) :: ws) ++ [y] := by
        rw [List.append_assoc, List.cons_append]
      rw [hassoc, extendLayout_concat, List.append_assoc, List.cons_append]

/-- The layout of the following members may be computed apart. -/
theorem extendLayout_layoutFrom (l m : List MemUnit) (x y : MemUnit) (ms : Members) :
    extendLayout (l ++ [x]) (layoutFrom (m ++ [y]) ms) =
      layoutFrom (extendLayout (l ++ [x]) (m ++ [y])) ms := by
  induction ms using Members.induction generalizing m y with
  | nil => rfl
  | cons name t rest ih =>
    obtain ⟨m', y', hm⟩ := exists_concat_extendLayout m (memberLayout t) y
    simp only [layoutFrom]
    rw [hm, ih, ← hm, extendLayout_assoc]

def stretchSums (r : List Stretch × Stretch) : List MemUnit :=
  r.1.map (fun s => ⟨s.sum⟩) ++ [⟨r.2.sum⟩]

mutual

theorem extendLayout_memberLayout (l : List MemUnit) (cur : Stretch) (t : WireType) :
    extendLayout (l ++ [⟨cur.sum⟩]) (memberLayout t) = l ++ stretchSums (stretches cur t) := by
  match t with
  | .num n | .bitU width => exact extendLayout_concat l _ _ []
  | .enum e =>
    simp only [memberLayout, stretches]
    cases e.backing.repr with
    | inl n => exact extendLayout_concat l _ _ []
    | inr width => exact extendLayout_concat l _ _ []
  | .str | .bytes | .list inner => exact extendLayout_concat l _ _ [⟨0⟩]
  | .struct name members =>
    have hopen : extendLayout (l ++ [⟨cur.sum⟩]) [⟨0⟩] = l ++ [⟨cur.sum⟩] :=
      extendLayout_concat l _ _ []
    have hlayout := extendLayout_layoutFrom l [] ⟨cur.sum⟩ ⟨0⟩ members
    rw [List.nil_append, hopen] at hlayout
    exact hlayout.trans (layoutFrom_stretches l cur.align members)

theorem layoutFrom_stretches (l : List MemUnit) (cur : Stretch) (ms : Members) :
    layoutFrom (l ++ [⟨cur.sum⟩]) ms = l ++ stretchSums (stretchesAll cur ms) := by
  match ms with
  | .nil => rfl
  | .cons name t rest =>
    simp only [layoutFrom, stretchesAll]
    rw [extendLayout_memberLayout, stretchSums, ← List.append_assoc, layoutFrom_stretches]
    simp only [stretchSums, List.map_append, List.append_assoc]

end

theorem layout_eq (members : Members) :
    layoutFrom [⟨0⟩] members = stretchSums (structStretches members) :=
  layoutFrom_stretches [] ⟨0, 0⟩ members

/-- The slices of a value behind their stretches, as the store code counts both. -/
def storedBlocks (done : List Stretch) (regions : List (ℕ × ℕ)) : List (ℕ × ℕ) :=
  (done.map Stretch.bytes).zip (regions.map fun r => r.2 % 2 ^ 16)

theorem storedBlocks_append {done done' : List Stretch} {regions regions' : List (ℕ × ℕ)}
    (h : done.length = regions.length) :
    storedBlocks (done ++ done') (regions ++ regions') =
      storedBlocks done regions ++ storedBlocks done' regions' := by
  unfold storedBlocks
  rw [List.map_append, List.map_append, List.zip_append]
  simpa using h

mutual

theorem length_stretches (cur : Stretch) (t : WireType) (v : CValue t) :
    (stretches cur t).1.length = (slices t v).length := by
  match t, v with
  | .num n, v | .bitU width, v | .str, v | .bytes, v | .list inner, v => rfl
  | .enum e, v =>
    simp only [stretches]
    cases e.backing.repr <;> rfl
  | .struct name members, vs => exact length_stretchesAll cur.align members vs

theorem length_stretchesAll (cur : Stretch) (ms : Members) (vs : CValues ms) :
    (stretchesAll cur ms).1.length = (slicesAll ms vs).length := by
  match ms, vs with
  | .nil, _ => rfl
  | .cons name t rest, v =>
    simp only [stretchesAll, slicesAll, List.length_append]
    rw [length_stretches cur t v.1, length_stretchesAll _ rest v.2]

end

/-- Store code for slices behind stretches: where their elements start, and where it ends. -/
structure StoredBehind (a : ℕ) (r : List Stretch × Stretch) (regions : List (ℕ × ℕ))
    (stored : List StoredSlice) (stop : ℕ) : Prop where
  starts_eq : stored.map StoredSlice.dataAddr = starts a (storedBlocks r.1 regions)
  stop_eq : stop = 8 * (a + extent (storedBlocks r.1 regions)) + r.2.extent

theorem StoredBehind.fixed {a stop : ℕ} {open' : Stretch} (h : stop = 8 * a + open'.extent) :
    StoredBehind a ([], open') [] [] stop := ⟨rfl, h⟩

theorem StoredBehind.slice (a : ℕ) (cur : Stretch) (inner : Numeric) (s : Slice) :
    StoredBehind a ([cur.align.field 16], ⟨0, 0⟩) [Slice.region inner s]
      [s.storedAt inner (alignUp (8 * a + cur.extent) / 8)]
      (alignUp (8 * a + cur.extent) + 8 * (2 + sliceBytes inner s)) := by
  have hmod := alignUp_mod cur.extent
  have hbytes : (cur.align.field 16).bytes = alignUp cur.extent / 8 + 2 := by
    change (alignUp cur.extent + 16 + 7) / 8 = _
    omega
  constructor
  · simp only [storedBlocks, List.map_cons, List.map_nil, List.zip_cons_cons, List.zip_nil_left,
      starts, hbytes, StoredSlice.dataAddr, Slice.storedAt, alignUp_add, List.cons.injEq, and_true]
    omega
  · simp only [storedBlocks, List.map_cons, List.map_nil, List.zip_cons_cons, List.zip_nil_left,
      extent, hbytes, Slice.region, alignUp_add]
    change _ + 8 * (2 + s.len.toNat * inner.size.bytes % 2 ^ 16) = _
    omega

mutual

theorem stored_behind_stretches (a : ℕ) (cur : Stretch) (t : WireType) (v : CValue t) :
    StoredBehind a (stretches cur t) (slices t v) (storedSlices (8 * a + cur.extent) t v)
      (storedEnd (8 * a + cur.extent) t v) := by
  match t, v with
  | .num n, v =>
    exact .fixed (by
      simp only [storedEnd, alignUp_add, Stretch.field, Stretch.align, Nat.add_assoc])
  | .bitU width, v => exact .fixed (Nat.add_assoc _ _ _)
  | .enum e, v =>
    simp only [stretches, storedEnd]
    cases e.backing.repr with
    | inl n =>
      exact .fixed (by simp only [alignUp_add, Stretch.field, Stretch.align, Nat.add_assoc])
    | inr width => exact .fixed (Nat.add_assoc _ _ _)
  | .str, s | .bytes, s => exact .slice a cur .u8 s
  | .list inner, s => exact .slice a cur inner s
  | .struct name members, vs =>
    have hmembers := stored_behind_stretchesAll a cur.align members vs
    simp only [storedSlices, storedEnd, alignUp_add]
    exact hmembers

theorem stored_behind_stretchesAll (a : ℕ) (cur : Stretch) (ms : Members) (vs : CValues ms) :
    StoredBehind a (stretchesAll cur ms) (slicesAll ms vs)
      (storedSlicesAll (8 * a + cur.extent) ms vs)
      (storedEndMembers (8 * a + cur.extent) ms vs) := by
  match ms, vs with
  | .nil, _ => exact .fixed (alignUp_add a cur.extent)
  | .cons name t rest, v =>
    obtain ⟨hstarts, hstop⟩ := stored_behind_stretches a cur t v.1
    obtain ⟨hstarts', hstop'⟩ := stored_behind_stretchesAll
      (a + extent (storedBlocks (stretches cur t).1 (slices t v.1))) (stretches cur t).2 rest v.2
    rw [← hstop] at hstarts' hstop'
    constructor
    · simp only [storedSlicesAll, stretchesAll, slicesAll, List.map_append]
      rw [storedBlocks_append (length_stretches cur t v.1), starts_append, hstarts, hstarts']
    · simp only [storedEndMembers, stretchesAll, slicesAll]
      rw [storedBlocks_append (length_stretches cur t v.1), extent_append, hstop', Nat.add_assoc]

end

/-- The bytes up to the end of the store code, if it ends at a byte. -/
theorem StoredBehind.stop_eq_bytes {a stop : ℕ} {r : List Stretch × Stretch}
    {regions : List (ℕ × ℕ)} {stored : List StoredSlice} (h : StoredBehind a r regions stored stop)
    (hlength : r.1.length = regions.length) (hstop : stop % 8 = 0) :
    stop = 8 * (a + ((r.1.map Stretch.bytes).sum + (regions.map fun s => s.2 % 2 ^ 16).sum +
      r.2.bytes)) := by
  have heq := h.stop_eq
  rw [storedBlocks, extent_zip (by simpa using hlength)] at heq
  rw [Stretch.bytes]
  omega

end CompostRpc
