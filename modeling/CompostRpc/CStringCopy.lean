import CompostRpc.SliceAccess
import CompostRpc.SliceAllocation
import CompostRpc.MsgProcessBounds

/-!
# Strings in C slices

`compost_str_copy` and `compost_str_new` measure a string at full width and pass its length on in 16
bits. So of a string of 65536 bytes or more only the rest of the length is copied, and what is
behind it in the slice is not set to zero. The bytes are copied from front to back, which repeats
the beginning of a string that runs into the slice.
-/

namespace CompostRpc
open ByteMemory TransitionRun

/-- A pointer to a string with a null byte at its end. -/
structure CString (m : Machine) where
  ptr : ℕ
  terminated : ∃ k, m.mem (ptr + k) = 0

def strlen {m : Machine} (s : CString m) : ℕ := Nat.find s.terminated

def compostStrCopy (debug : Bool) (m : Machine) (dest : Slice) (src : CString m) :
    Option Machine := do
  compostAssert debug (dest.ptr ≠ 0)
  compostAssert debug (src.ptr ≠ 0)
  let len := strlen src
  let (_, m) ← sliceCopyFrom debug .u8 m dest src.ptr (UInt16.ofNat len)
  if len < dest.len.toNat then
    run (fun m i => sliceSet debug .u8 m dest (UInt16.ofNat i) 0) m
      (List.range' len (dest.len.toNat - len))
  else some m

def compostStrNew (debug : Bool) (m : Machine) (alloc : CompostAlloc) (cstr : CString m) :
    Option (Slice × CompostAlloc × Machine) := do
  compostAssert debug (cstr.ptr ≠ 0)
  let len := strlen cstr
  let (ret, alloc) := sliceNew .u8 alloc (UInt16.ofNat len)
  let (_, m) ← sliceCopyFrom debug .u8 m ret cstr.ptr (UInt16.ofNat len)
  return (ret, alloc, m)

theorem read_one (mem : ByteMemory) (a : ℕ) : read mem a 1 = [mem a] := rfl

theorem Filled.byte {m m' : Machine} {base i k j : ℕ} {byte : ℕ → UInt8}
    (h : Filled m m' base 1 i k fun j => [byte j]) (hlow : i ≤ j) (hhigh : j < k) :
    m'.mem (base + j) = byte j := by
  have hread := h.elements j hlow hhigh
  rw [Nat.one_mul, read_one] at hread
  exact (List.cons.inj hread).1

/-- In a copy of bytes the beginning repeats if it runs into the destination. -/
theorem sliceCopyFrom_bytes {debug : Bool} {m : Machine} {dest : Slice} {src : ℕ} (len : UInt16)
    (hdest : debug = true → dest.ptr ≠ 0) (hsrc : debug = true → src ≠ 0) :
    ∃ count m', sliceCopyFrom debug .u8 m dest src len = some (count, m') ∧
      Filled m m' dest.ptr 1 0 (min len.toNat dest.len.toNat) fun j =>
        [m.mem (src + j % (dest.ptr - src))] := by
  by_cases hne : src = dest.ptr
  · subst hne
    obtain ⟨count, hsame, -⟩ := @sliceCopyFrom_same debug .u8 m dest len hdest
    refine ⟨count, m, hsame, fun j _ _ => ?_, fun _ _ => rfl⟩
    rw [Nat.one_mul, Nat.sub_self, Nat.mod_zero]
    rfl
  · have hread : ∀ k < min len.toNat dest.len.toNat, ∀ m',
        Filled m m' dest.ptr 1 0 k (fun j => [m.mem (src + j % (dest.ptr - src))]) →
          (read m'.mem (src + 1 * k) 1).reverse = [m.mem (src + k % (dest.ptr - src))] := by
      intro k hk m' hfilled
      rw [Nat.one_mul, read_one, List.reverse_singleton]
      congr 1
      rcases Nat.lt_or_ge (src + k) dest.ptr with hlt | hge
      · -- in front of the slice
        rw [Nat.mod_eq_of_lt (by omega)]
        exact hfilled.frame _ (by omega)
      · rcases Nat.lt_or_ge src dest.ptr with hbefore | hbehind
        · -- a byte of the slice that was copied in an earlier round
          have hbyte := hfilled.byte (Nat.zero_le (k - (dest.ptr - src))) (by omega)
          rwa [show dest.ptr + (k - (dest.ptr - src)) = src + k by omega,
            ← Nat.mod_eq_sub_mod (by omega)] at hbyte
        · rw [Nat.sub_eq_zero_of_le hbehind, Nat.mod_zero]
          exact hfilled.frame _ (by omega)
    obtain ⟨count, m', hcopy, -, hfilled⟩ := @sliceCopyFrom_filled debug .u8 m dest src len _ hdest
      hsrc hne (fun _ => rfl) hread
    exact ⟨count, m', hcopy, hfilled⟩

section
variable {debug : Bool} {m : Machine} {dest : Slice} {alloc : CompostAlloc}

/-- The bytes of the slice from `start` on are set to zero. -/
theorem exists_zeros (hdest : debug = true → dest.ptr ≠ 0) (start : ℕ) :
    ∃ m', run (fun m i => sliceSet debug .u8 m dest (UInt16.ofNat i) 0) m
        (List.range' start (dest.len.toNat - start)) = some m' ∧
      Filled m m' dest.ptr 1 start (start + (dest.len.toNat - start)) fun _ => [0] := by
  have hround : ∀ k, start ≤ k → k < start + (dest.len.toNat - start) → ∀ m',
      Filled m m' dest.ptr 1 start k (fun _ => [0]) → ∃ m'',
        sliceSet debug .u8 m' dest (UInt16.ofNat k) 0 = some m'' ∧
          m''.mem = ByteMemory.write m'.mem (dest.ptr + 1 * k) [0] := by
    intro k hlow hhigh m' _
    have hidx := toNat_index (show k < dest.len.toNat by omega)
    have hless : UInt16.ofNat k < dest.len := by
      rw [UInt16.lt_iff_toNat_lt, hidx]
      omega
    obtain ⟨m'', hset, hmem⟩ := @sliceSet_mem debug .u8 m' dest (UInt16.ofNat k) 0
      (fun _ => hless) hdest
    rw [hidx] at hmem
    exact ⟨m'', hset, hmem⟩
  exact exists_run_filled (fun _ => rfl) hround

/-- The slice behind a text: the bytes that are copied, then zeros if the text is shorter, or what
was there. -/
theorem compostStrCopy_mem {src : CString m} (hdest : debug = true → dest.ptr ≠ 0)
    (hsrc : debug = true → src.ptr ≠ 0) :
    ∃ m', compostStrCopy debug m dest src = some m' ∧ ∀ j < dest.len.toNat,
      m'.mem (dest.ptr + j) =
        if j < strlen src % 2 ^ 16 then m.mem (src.ptr + j % (dest.ptr - src.ptr))
        else if strlen src ≤ j then 0 else m.mem (dest.ptr + j) := by
  have hlen : (UInt16.ofNat (strlen src)).toNat = strlen src % 2 ^ 16 := UInt16.toNat_ofNat'
  have hlt : dest.len.toNat < 2 ^ 16 := dest.len.toNat_lt
  obtain ⟨count, m₁, hcopy, hfilled⟩ := @sliceCopyFrom_bytes debug m dest src.ptr
    (UInt16.ofNat (strlen src)) hdest hsrc
  rw [hlen] at hfilled
  have hcopied : ∀ j < dest.len.toNat, m₁.mem (dest.ptr + j) =
      if j < strlen src % 2 ^ 16 then m.mem (src.ptr + j % (dest.ptr - src.ptr))
      else m.mem (dest.ptr + j) := by
    intro j hj
    by_cases hin : j < strlen src % 2 ^ 16
    · rw [if_pos hin]
      exact hfilled.byte (Nat.zero_le j) (by omega)
    · rw [if_neg hin]
      exact hfilled.frame _ (by omega)
  have hunfold : compostStrCopy debug m dest src =
      if strlen src < dest.len.toNat then
        run (fun m i => sliceSet debug .u8 m dest (UInt16.ofNat i) 0) m₁
          (List.range' (strlen src) (dest.len.toNat - strlen src))
      else some m₁ := by
    rw [compostStrCopy]
    refine (compostAssert_bind hdest _).trans ((compostAssert_bind hsrc _).trans ?_)
    dsimp only
    rw [hcopy]
    rfl
  rw [hunfold]
  by_cases hshort : strlen src < dest.len.toNat
  · rw [if_pos hshort]
    obtain ⟨m', hrun, hzero⟩ := @exists_zeros debug m₁ dest hdest (strlen src)
    refine ⟨m', hrun, fun j hj => ?_⟩
    by_cases hin : j < strlen src
    · rw [hzero.frame _ (by omega), hcopied j hj, if_pos (by omega), if_pos (by omega)]
    · rw [if_neg (by omega), if_pos (by omega)]
      exact hzero.byte (by omega) (by omega)
  · rw [if_neg hshort]
    refine ⟨m₁, rfl, fun j hj => ?_⟩
    rw [hcopied j hj]
    by_cases hin : j < strlen src % 2 ^ 16
    · rw [if_pos hin, if_pos hin]
    · rw [if_neg hin, if_neg hin, if_neg (by omega)]

theorem nonnull_of_strCopy {src : CString m} {m' : Machine}
    (h : compostStrCopy debug m dest src = some m') :
    debug = true → dest.ptr ≠ 0 ∧ src.ptr ≠ 0 := by
  obtain ⟨_, hfirst, hrest⟩ := Option.bind_eq_some_iff.mp h
  obtain ⟨_, hsecond, -⟩ := Option.bind_eq_some_iff.mp hrest
  intro hdebug
  exact ⟨compostAssert_eq_some.mp hfirst hdebug, compostAssert_eq_some.mp hsecond hdebug⟩

theorem compostStrNew_eq_some {cstr : CString m} {r : Slice × CompostAlloc × Machine} :
    compostStrNew debug m alloc cstr = some r ↔ (debug = true → cstr.ptr ≠ 0) ∧ ∃ count m',
      sliceCopyFrom debug .u8 m (sliceNew .u8 alloc (UInt16.ofNat (strlen cstr))).1 cstr.ptr
          (UInt16.ofNat (strlen cstr)) = some (count, m') ∧
        ((sliceNew .u8 alloc (UInt16.ofNat (strlen cstr))).1,
          (sliceNew .u8 alloc (UInt16.ofNat (strlen cstr))).2, m') = r := by
  constructor
  · intro h
    obtain ⟨_, hfirst, hrest⟩ := Option.bind_eq_some_iff.mp h
    obtain ⟨r', hcopy, hret⟩ := Option.bind_eq_some_iff.mp hrest
    exact ⟨compostAssert_eq_some.mp hfirst, r'.1, r'.2, hcopy, Option.some.inj hret⟩
  · rintro ⟨hptr, count, m', hcopy, rfl⟩
    refine (compostAssert_bind hptr _).trans ?_
    dsimp only
    rw [hcopy]
    rfl

end

/-- The first bytes of a string repeat with the distance to a destination behind its start. -/
def Repeats (m : Machine) (src dest n : ℕ) : Prop :=
  ∀ j < n, m.mem (src + j % (dest - src)) = m.mem (src + j)

def CopiesText (debug : Bool) (m : Machine) (dest : Slice) (src : CString m) : Prop :=
  ∃ m', compostStrCopy debug m dest src = some m' ∧ ∀ j < dest.len.toNat,
    m'.mem (dest.ptr + j) = if j < strlen src then m.mem (src.ptr + j) else 0

def HoldsText (debug : Bool) (m : Machine) (alloc : CompostAlloc) (cstr : CString m) : Prop :=
  ∃ ret alloc' m', compostStrNew debug m alloc cstr = some (ret, alloc', m') ∧
    (ret.len = 0 ∨ ret.len.toNat = strlen cstr ∧
      ∀ j < strlen cstr, m'.mem (ret.ptr + j) = m.mem (cstr.ptr + j))

/-- Nothing asserted is null, the copy does not repeat what is no repetition, and the bytes that are
left out because of the length are there. -/
structure TextCopied (debug : Bool) (m : Machine) (dest : Slice) (src : CString m) : Prop where
  nonnull : debug = true → dest.ptr ≠ 0 ∧ src.ptr ≠ 0
  repeats : Repeats m src.ptr dest.ptr (min (strlen src % 2 ^ 16) dest.len.toNat)
  left_out : ∀ j < dest.len.toNat, strlen src % 2 ^ 16 ≤ j → j < strlen src →
    m.mem (dest.ptr + j) = m.mem (src.ptr + j)

/-- Nothing asserted is null, and there is no new slice, or an empty one, or the length of the text
fits 16 bits and the copy does not repeat what is no repetition. -/
structure TextHeld (debug : Bool) (m : Machine) (alloc : CompostAlloc) (cstr : CString m) :
    Prop where
  nonnull : debug = true →
    cstr.ptr ≠ 0 ∧ ¬ alloc.Refuses (strlen cstr) ∧ alloc.ptr ≠ 0
  whole : alloc.Refuses (strlen cstr) ∨ alloc.ptr = 0 ∨ strlen cstr % 2 ^ 16 = 0 ∨
    (strlen cstr < 2 ^ 16 ∧ Repeats m cstr.ptr alloc.ptr (strlen cstr))

theorem copiesText_iff (debug : Bool) (m : Machine) (dest : Slice) (src : CString m) :
    CopiesText debug m dest src ↔ TextCopied debug m dest src := by
  constructor
  · rintro ⟨m', hcopy, htext⟩
    have hnonnull := nonnull_of_strCopy hcopy
    obtain ⟨m₁, hcopy₁, hbytes⟩ := @compostStrCopy_mem debug m dest src
      (fun hdebug => (hnonnull hdebug).1) fun hdebug => (hnonnull hdebug).2
    obtain rfl := Option.some.inj (hcopy.symm.trans hcopy₁)
    refine ⟨hnonnull, fun j hj => ?_, fun j hj hlow hhigh => ?_⟩
    · have hbyte := hbytes j (by omega)
      rw [if_pos (by omega), htext j (by omega), if_pos (by omega)] at hbyte
      exact hbyte.symm
    · have hbyte := hbytes j hj
      rw [if_neg (by omega), if_neg (by omega), htext j hj, if_pos hhigh] at hbyte
      exact hbyte.symm
  · rintro ⟨hnonnull, hrepeats, hleft⟩
    obtain ⟨m', hcopy, hbytes⟩ := @compostStrCopy_mem debug m dest src
      (fun hdebug => (hnonnull hdebug).1) fun hdebug => (hnonnull hdebug).2
    refine ⟨m', hcopy, fun j hj => ?_⟩
    rw [hbytes j hj]
    by_cases hin : j < strlen src % 2 ^ 16
    · rw [if_pos hin, if_pos (by omega), hrepeats j (by omega)]
    · rw [if_neg hin]
      by_cases hend : strlen src ≤ j
      · rw [if_pos hend, if_neg (by omega)]
      · rw [if_neg hend, if_pos (by omega), hleft j hj (by omega) (by omega)]

theorem refuses_mod (alloc : CompostAlloc) (len : ℕ) :
    alloc.Refuses (len % 2 ^ 16) ↔ alloc.Refuses len := by
  rw [CompostAlloc.Refuses, CompostAlloc.Refuses, Nat.mod_mod]

/-- The slice that `compost_str_new` asks for. -/
theorem sliceNew_text (alloc : CompostAlloc) (len : ℕ) :
    (sliceNew .u8 alloc (UInt16.ofNat len)).1 =
      if alloc.Refuses len ∨ alloc.ptr = 0 then ⟨0, 0⟩ else ⟨alloc.ptr, UInt16.ofNat len⟩ := by
  have hrefuses : alloc.Refuses (Numeric.u8.size.bytes * (UInt16.ofNat len).toNat) ↔
      alloc.Refuses len := by
    rw [UInt16.toNat_ofNat', show Numeric.u8.size.bytes = 1 from rfl, Nat.one_mul, refuses_mod]
  rw [sliceNew_eq]
  by_cases hrefused : alloc.Refuses len
  · rw [if_pos (hrefuses.mpr hrefused), if_pos (.inl hrefused)]
  · rw [if_neg (fun h => hrefused (hrefuses.mp h))]
    by_cases hnull : alloc.ptr = 0
    · rw [if_pos hnull, if_pos (.inr hnull), hnull]
    · rw [if_neg hnull, if_neg (not_or.mpr ⟨hrefused, hnull⟩)]

section
variable {debug : Bool} {m : Machine} {alloc : CompostAlloc} {cstr : CString m}

theorem holdsText_iff_of_none (hnone : alloc.Refuses (strlen cstr) ∨ alloc.ptr = 0) :
    HoldsText debug m alloc cstr ↔ debug = false := by
  have hempty := sliceNew_text alloc (strlen cstr)
  rw [if_pos hnone] at hempty
  constructor
  · rintro ⟨ret, alloc', m', hsome, -⟩
    obtain ⟨hptr, count, m₁, hcopy, -⟩ := compostStrNew_eq_some.mp hsome
    rw [hempty] at hcopy
    by_contra hdebug
    exact absurd rfl (nonnull_of_copyFrom hcopy (Bool.of_not_eq_false hdebug)).1
  · rintro rfl
    obtain ⟨count, m', hcopy, -⟩ := @sliceCopyFrom_bytes false m ⟨0, 0⟩ cstr.ptr
      (UInt16.ofNat (strlen cstr)) (fun hdebug => absurd hdebug Bool.false_ne_true)
      fun hdebug => absurd hdebug Bool.false_ne_true
    refine ⟨_, _, _, compostStrNew_eq_some.mpr ⟨fun hdebug => absurd hdebug Bool.false_ne_true,
      count, m', hempty ▸ hcopy, rfl⟩, .inl ?_⟩
    rw [hempty]

theorem holdsText_iff_of_some (hgranted : ¬ (alloc.Refuses (strlen cstr) ∨ alloc.ptr = 0)) :
    HoldsText debug m alloc cstr ↔ (debug = true → cstr.ptr ≠ 0) ∧
      (strlen cstr % 2 ^ 16 = 0 ∨
        (strlen cstr < 2 ^ 16 ∧ Repeats m cstr.ptr alloc.ptr (strlen cstr))) := by
  have hslice := sliceNew_text alloc (strlen cstr)
  rw [if_neg hgranted] at hslice
  have hlen : (UInt16.ofNat (strlen cstr)).toNat = strlen cstr % 2 ^ 16 := UInt16.toNat_ofNat'
  have hcopied : (debug = true → cstr.ptr ≠ 0) → ∃ count m',
      sliceCopyFrom debug .u8 m ⟨alloc.ptr, UInt16.ofNat (strlen cstr)⟩ cstr.ptr
          (UInt16.ofNat (strlen cstr)) = some (count, m') ∧
        ∀ j < strlen cstr % 2 ^ 16,
          m'.mem (alloc.ptr + j) = m.mem (cstr.ptr + j % (alloc.ptr - cstr.ptr)) := by
    intro hptr
    obtain ⟨count, m', hcopy, hfilled⟩ := @sliceCopyFrom_bytes debug m
      ⟨alloc.ptr, UInt16.ofNat (strlen cstr)⟩ cstr.ptr (UInt16.ofNat (strlen cstr))
      (fun _ => (not_or.mp hgranted).2) hptr
    rw [Nat.min_self, hlen] at hfilled
    exact ⟨count, m', hcopy, fun j hj => hfilled.byte (Nat.zero_le j) hj⟩
  constructor
  · rintro ⟨ret, alloc', m', hsome, hheld⟩
    obtain ⟨hptr, count, m₁, hcopy, heq⟩ := compostStrNew_eq_some.mp hsome
    obtain ⟨count', m₂, hcopy', hbytes⟩ := hcopied hptr
    rw [hslice] at hcopy heq
    obtain rfl : m₁ = m₂ := congrArg Prod.snd (Option.some.inj (hcopy.symm.trans hcopy'))
    obtain ⟨rfl, -, rfl⟩ :
        ⟨alloc.ptr, UInt16.ofNat (strlen cstr)⟩ = ret ∧ _ = alloc' ∧ m₁ = m' := by
      simpa only [Prod.mk.injEq] using heq
    refine ⟨hptr, hheld.imp (fun hzero => ?_) fun ⟨hwhole, htext⟩ => ?_⟩
    · rw [← hlen]
      exact congrArg UInt16.toNat hzero
    · rw [hlen] at hwhole
      have hshort : strlen cstr < 2 ^ 16 := by omega
      refine ⟨hshort, fun j hj => ?_⟩
      rw [← htext j hj, hbytes j (by omega)]
  · rintro ⟨hptr, hwhole⟩
    obtain ⟨count, m', hcopy, hbytes⟩ := hcopied hptr
    refine ⟨_, _, _, compostStrNew_eq_some.mpr ⟨hptr, count, m', hslice ▸ hcopy, rfl⟩, ?_⟩
    rw [hslice]
    refine hwhole.imp (fun hzero => ?_) fun ⟨hshort, hrepeats⟩ => ?_
    · rw [← UInt16.toNat_inj, hlen, hzero]
      rfl
    · refine ⟨hlen.trans (Nat.mod_eq_of_lt hshort), fun j hj => ?_⟩
      rw [hbytes j (by omega), hrepeats j hj]

theorem holdsText_iff : HoldsText debug m alloc cstr ↔ TextHeld debug m alloc cstr := by
  by_cases hnone : alloc.Refuses (strlen cstr) ∨ alloc.ptr = 0
  · rw [holdsText_iff_of_none hnone]
    constructor
    · rintro rfl
      exact ⟨fun hdebug => absurd hdebug Bool.false_ne_true, hnone.imp_right .inl⟩
    · rintro ⟨hnonnull, -⟩
      by_contra hdebug
      obtain ⟨-, hgranted, hptr⟩ := hnonnull (Bool.of_not_eq_false hdebug)
      exact hnone.elim hgranted hptr
  · rw [holdsText_iff_of_some hnone]
    obtain ⟨hgranted, hnull⟩ := not_or.mp hnone
    constructor
    · rintro ⟨hptr, hwhole⟩
      exact ⟨fun hdebug => ⟨hptr hdebug, hgranted, hnull⟩, .inr (.inr hwhole)⟩
    · rintro ⟨hnonnull, hwhole⟩
      exact ⟨fun hdebug => (hnonnull hdebug).1,
        (hwhole.resolve_left hgranted).resolve_left hnull⟩

end

/-- The text is copied as far as there is room exactly if it is short enough for 16 bits or what is
left out makes no difference, and it does not run into the slice or repeats; and a new slice never
holds a part of the text exactly if moreover there is memory where that is asserted. -/
theorem copiesText_and_holdsText_iff (debug : Bool) (m : Machine) :
    (∀ dest src, CopiesText debug m dest src ↔ TextCopied debug m dest src) ∧
      ∀ alloc cstr, HoldsText debug m alloc cstr ↔ TextHeld debug m alloc cstr :=
  ⟨fun _ _ => copiesText_iff .., fun _ _ => holdsText_iff⟩

def letters (n : ℕ) : Machine := .start fun a => if 100 ≤ a ∧ a < 100 + n then 65 else 0

def letterText (n : ℕ) : CString (letters n) := ⟨100, n, if_neg (by omega)⟩

theorem strlen_letterText (n : ℕ) : strlen (letterText n) = n := by
  refine (Nat.find_eq_iff _).mpr ⟨if_neg (by simp only [letterText]; omega), fun k hk hzero => ?_⟩
  have hletter : (letters n).mem (100 + k) = 65 := if_pos (by omega)
  exact absurd (hletter.symm.trans hzero) (by decide)

/-- Of 65537 letters one is copied to a slice of four bytes, and a new slice has one. -/
theorem not_copiesText_long :
    strlen (letterText 65537) = 65537 ∧
      ¬ CopiesText false (letters 65537) ⟨10, 4⟩ (letterText 65537) ∧
      ¬ HoldsText false (letters 65537) (compostAllocInit 10 50) (letterText 65537) := by
  have hlen := strlen_letterText 65537
  refine ⟨hlen, fun h => ?_, fun h => ?_⟩
  · have hleft := (copiesText_iff false _ _ _).mp h |>.left_out 1 (by decide)
    rw [hlen] at hleft
    exact absurd (hleft (by decide) (by decide)) (by decide)
  · have hwhole := (holdsText_iff.mp h).whole
    rw [hlen] at hwhole
    rcases hwhole with hrefused | hnull | hzero | ⟨hshort, -⟩
    · exact absurd hrefused (by decide)
    · exact absurd hnull (by decide)
    · exact absurd hzero (by decide)
    · exact absurd hshort (by decide)

end CompostRpc
