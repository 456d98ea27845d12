import CompostRpc.StoreLayout

/-!
# The boundaries of structs

The C code aligns at the start and at the end of every struct, the Python code at the start only.
`settle` follows a type with the two and fails at a bit field that they place differently. It is the
walk over the format of any value of the type.
-/

namespace CompostRpc
open ByteMemory Piece

mutual

def settle (honour : Mark → Bool) (s : Stand) : WireType → Option Stand
  | .num _ | .str | .bytes | .list _ => some .aligned
  | .bitU width => s.piece (.bits width 0)
  | .enum e =>
    match e.backing.repr with
    | .inl _ => some .aligned
    | .inr width => s.piece (.bits width 0)
  | .struct _ members =>
    (settleAll honour (s.mark honour .opening) members).map fun s => s.mark honour .closing

def settleAll (honour : Mark → Bool) (s : Stand) : Members → Option Stand
  | .nil => some s
  | .cons _ t rest => (settle honour s t).bind fun s => settleAll honour s rest

end

mutual

theorem walk_markedPieces (honour : Mark → Bool) (s : Stand) (t : WireType) (d : Contents t) :
    walk honour s (markedPieces t d) = settle honour s t := by
  match t, d with
  | .num n, _ | .str, _ | .bytes, _ | .list inner, _ => rfl
  | .bitU width, v => exact Option.bind_fun_some (s.piece (.bits width 0))
  | .enum e, v =>
    simp only [markedPieces, settle]
    cases e.backing.repr with
    | inl n => rfl
    | inr width => exact Option.bind_fun_some (s.piece (.bits width 0))
  | .struct name members, ds =>
    simp only [markedPieces, List.cons_append, walk, walk_append,
      walk_markedPiecesAll honour _ members ds, settle]
    cases settleAll honour (s.mark honour .opening) members with
    | none => rfl
    | some s => rfl

theorem walk_markedPiecesAll (honour : Mark → Bool) (s : Stand) (ms : Members)
    (d : ContentsAll ms) : walk honour s (markedPiecesAll ms d) = settleAll honour s ms := by
  match ms, d with
  | .nil, _ => rfl
  | .cons name t rest, (d, ds) =>
    simp only [markedPiecesAll, walk_append, walk_markedPieces honour s t d, settleAll]
    cases settle honour s t with
    | none => rfl
    | some s => exact walk_markedPiecesAll honour s rest ds

end

def pythonMarks : Mark → Bool
  | .opening => true
  | .closing => false

/-- The enum constant as the store call converts it. -/
theorem setWidth_ofInt_toNat {e : EnumType} {n : Numeric} (he : e.backing.repr = .inl n) (v : ℤ) :
    (BitVec.setWidth n.size.bits (BitVec.ofInt 32 v)).toNat = e.rawValue v := by
  have hraw : e.rawValue v = (v % 2 ^ n.size.bits).toNat := by simp only [EnumType.rawValue, he]
  have hdvd : (2 : ℤ) ^ n.size.bits ∣ 2 ^ 32 := by
    apply pow_dvd_pow 2
    cases hb : e.backing <;> rw [hb] at he <;> cases he <;> decide
  have hpos : (0 : ℤ) ≤ v % 2 ^ 32 := Int.emod_nonneg _ (by norm_num)
  rw [show (2 : ℤ) ^ 32 = 4294967296 by norm_num] at hdvd hpos
  rw [hraw, BitVec.toNat_setWidth, BitVec.toNat_ofInt]
  apply Int.ofNat_inj.mp
  push_cast
  rw [Int.toNat_of_nonneg hpos, Int.toNat_of_nonneg (Int.emod_nonneg _ (by positivity)),
    Int.emod_emod_of_dvd _ hdvd]

theorem ofInt_toNat_of_bitU {e : EnumType} {width : Fin 33} (he : e.backing.repr = .inr width)
    {v : ℤ} (hv : v ∈ e.values) : (BitVec.ofInt 32 v).toNat = e.rawValue v := by
  obtain ⟨hcast, hlt⟩ := rawValue_of_bitU he hv
  have hle : 2 ^ (width : ℕ) ≤ 2 ^ 32 := Nat.pow_le_pow_right (by norm_num) (by omega)
  have hnat : BitVec.ofInt 32 v = BitVec.ofNat 32 (e.rawValue v) := by
    rw [← BitVec.ofInt_natCast, hcast]
  rw [hnat, BitVec.toNat_ofNat, Nat.mod_eq_of_lt (by omega)]

mutual

def Value.contents : (t : WireType) → Value t → Contents t
  | .num _, v => v
  | .str, s => utf8 s
  | .bytes, b => b
  | .list inner, xs => List.flatMap (fun x => beBytes inner.size.bytes x.toNat) xs
  | .bitU _, v => v
  | .enum _, v => BitVec.ofInt 32 v.val
  | .struct _ members, vs => Values.contents members vs

def Values.contents : (ms : Members) → Values ms → ContentsAll ms
  | .nil, _ => ()
  | .cons _ t rest, v => (Value.contents t v.1, Values.contents rest v.2)

end

mutual

theorem pieces_eq_honoured (t : WireType) (v : Value t) :
    pieces t v = honoured pythonMarks (markedPieces t (Value.contents t v)) := by
  match t, v with
  | .num n, _ | .str, _ | .bytes, _ | .list inner, _ | .bitU width, _ => rfl
  | .enum e, ⟨v, hv⟩ =>
    simp only [pieces, markedPieces, Value.contents]
    cases he : e.backing.repr with
    | inl n => simp only [honoured, setWidth_ofInt_toNat he]
    | inr width => simp only [honoured, ofInt_toNat_of_bitU he hv]
  | .struct name members, vs =>
    simp only [pieces, piecesMembers_eq_honoured members vs, markedPieces, Value.contents,
      List.cons_append, honoured, honoured_append, pythonMarks, if_true, Bool.false_eq_true,
      if_false, List.append_nil]

theorem piecesMembers_eq_honoured (ms : Members) (vs : Values ms) :
    piecesMembers ms vs = honoured pythonMarks (markedPiecesAll ms (Values.contents ms vs)) := by
  match ms, vs with
  | .nil, _ => rfl
  | .cons name t rest, (v, vs) =>
    simp only [piecesMembers, pieces_eq_honoured t v, piecesMembers_eq_honoured rest vs,
      markedPiecesAll, Values.contents, honoured_append]

end

end CompostRpc
