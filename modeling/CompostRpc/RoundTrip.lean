import CompostRpc.ReaderOffsets

/-!
# The round trip of the Python codec

What `packPayload` returns holds the pieces of its arguments, also with bytes behind it. Hence
`unpackPayload` gives the arguments back at the writer's own offsets exactly when no byte-sized
number of the types begins inside a byte.
-/

namespace CompostRpc
open ByteMemory Piece

mutual

theorem packTrace_eq_ends (t : WireType) (v : Value t) (value : PyVal)
    (hvalue : value = Value.toPy t v ∨ value = astupleInner (Value.toPy t v))
    {buffer buffer' : List UInt8} {offset offset' : MemUnit}
    (h : pack buffer offset t value = .ok (buffer', offset')) :
    packTrace buffer offset t value = ends t v offset.bits := by
  match t, v with
  | .struct name members, vs =>
    rcases hvalue with rfl | rfl
    · have hmembers := packTraceMembers_eq_ends members vs _ (.inr rfl) h
      rw [MemUnit.byteAlign_bits] at hmembers
      exact hmembers
    · cases h
  | .num n, v | .str, v | .bytes, v | .list inner, v | .bitU width, v | .enum e, v =>
    have hstop := (pack_writes _ v value hvalue buffer offset buffer' offset' h).stop_eq
    have hoffset : offset' = ⟨stopAll (pieces _ v) offset.bits⟩ := MemUnit.ext hstop
    simp only [packTrace, ends, h, traceOf, hoffset]

theorem packTraceMembers_eq_ends (ms : Members) (vs : Values ms) (values : List PyVal)
    (hvalues : values = Values.toPy ms vs ∨ values = astupleInners (Values.toPy ms vs))
    {buffer buffer' : List UInt8} {offset offset' : MemUnit}
    (h : packMembers buffer offset ms values = .ok (buffer', offset')) :
    packTraceMembers buffer offset ms values = endsMembers ms vs offset.bits := by
  match ms, vs with
  | .nil, _ =>
    have hnil : values = [] := hvalues.elim id id
    rw [hnil]
    rfl
  | .cons name t rest, (v, vs) =>
    obtain ⟨value, tail, rfl, hhead, htail⟩ := toPy_cons hvalues
    obtain ⟨⟨b, o⟩, hfirst, hrest⟩ := except_bind_eq_ok.mp h
    have hstop := (pack_writes t v value hhead buffer offset b o hfirst).stop_eq
    have htrace := packTrace_eq_ends t v value hhead hfirst
    have htrace' := packTraceMembers_eq_ends rest vs tail htail hrest
    simp only [packTraceMembers, endsMembers, hfirst, htrace, htrace', hstop]

end

theorem packPayload_eq_ok {types : Members} {args : List PyVal} {payload : List UInt8}
    (h : packPayload types args = .ok payload) :
    ∃ buffer offset, packMembers (List.replicate scratchSize 0) ⟨0⟩ types args =
      .ok (buffer, offset) ∧ payload = buffer.take offset.bytes := by
  simp only [packPayload] at h
  split_ifs at h with hlen
  · cases h
  · obtain ⟨⟨buffer, offset⟩, hpack, heq⟩ := except_bind_eq_ok.mp h
    cases heq
    exact ⟨buffer, offset, hpack, rfl⟩

/-- A packed payload holds the pieces of its arguments, whatever follows it. -/
theorem packPayload_held {types : Members} {vs : Values types} {payload : List UInt8}
    (trailing : List UInt8) (h : packPayload types (Values.toPy types vs) = .ok payload) :
    Held (payload ++ trailing) 0 (piecesMembers types vs) := by
  obtain ⟨buffer, offset, hpack, rfl⟩ := packPayload_eq_ok h
  obtain ⟨hmemory, hlength, hstop, hfits⟩ :=
    packMembers_writes types vs _ (.inl rfl) _ _ _ _ hpack
  rw [List.length_replicate, scratchSize] at hlength hfits
  change offset.bits = stopAll _ 0 at hstop
  have hfit := hfits (Nat.zero_le _)
  have hbytes : offset.bytes ≤ buffer.length := by rw [MemUnit.bytes_eq]; omega
  have htake : (buffer.take offset.bytes).length = offset.bytes := by
    rw [List.length_take]; omega
  have hall := allAt_writeAll (ofList (List.replicate scratchSize 0)) (piecesMembers types vs) 0
  rw [← hmemory] at hall
  refine ⟨hall.congr fun i _ hi => bitAt_congr ?_, ?_, ?_⟩
  · have hbyte : i / 8 < offset.bytes := by rw [MemUnit.bytes_eq]; omega
    rw [ofList_append_of_lt (by omega), ofList, ofList, List.getD_eq_getElem?_getD,
      List.getD_eq_getElem?_getD, List.getElem?_take_of_lt hbyte]
  · rw [← hstop, List.length_append, htake, MemUnit.bytes_eq]
    omega
  · intro data hmem
    have hle := length_le_stopAll hmem 0
    omega

/-- The reader returns the packed values, and holds the writer's offset after every field. -/
def RoundTrips (types : Members) (vs : Values types) (payload trailing : List UInt8) : Prop :=
  unpackPayload types (payload ++ trailing) = .ok (Values.toPy types vs) ∧
    unpackOffsets types (payload ++ trailing) = packOffsets types (Values.toPy types vs)

theorem roundTrips_iff_numbersAligned {types : Members} {vs : Values types}
    {payload : List UInt8} (trailing : List UInt8)
    (h : packPayload types (Values.toPy types vs) = .ok payload) :
    RoundTrips types vs payload trailing ↔ numbersAlignedMembers 0 types = true := by
  obtain ⟨hread, hleave⟩ := @unpackMembers_reads types vs _ ⟨0⟩ (packPayload_held trailing h)
  obtain ⟨buffer, offset, hpack, -⟩ := packPayload_eq_ok h
  have hwriter : packOffsets types (Values.toPy types vs) = endsMembers types vs 0 :=
    packTraceMembers_eq_ends types vs _ (.inl rfl) hpack
  constructor
  · intro htrips
    by_contra hskew
    refine hleave (Bool.eq_false_iff.mpr hskew) [] [] ?_
    rw [List.append_nil, List.append_nil, ← hwriter]
    exact htrips.2
  · intro haligned
    obtain ⟨hok, htrace⟩ := hread haligned
    refine ⟨?_, htrace.trans hwriter.symm⟩
    rw [unpackPayload, hok]
    rfl

def skewedStruct : Members :=
  .ofTypes [.struct "Skewed"
    (.cons "head" (.bitU 3) (.cons "number" (.num .u8) (.cons "tail" (.bitU 5) .nil)))]

def skewedValues : Values skewedStruct := ((5#3, 200#8, 17#5, ()), ())

def filledStruct : Members :=
  .ofTypes [.struct "Filled"
    (.cons "head" (.bitU 3) (.cons "tail" (.bitU 5) (.cons "number" (.num .u8) .nil)))]

def filledValues : Values filledStruct := ((5#3, 17#5, 200#8, ()), ())

theorem roundTrips_filledStruct :
    packPayload filledStruct (Values.toPy filledStruct filledValues) = .ok [177, 200] ∧
      RoundTrips filledStruct filledValues [177, 200] [1, 2] := by
  have hpack : packPayload filledStruct (Values.toPy filledStruct filledValues) =
      .ok [177, 200] := by decide +kernel
  exact ⟨hpack, (roundTrips_iff_numbersAligned [1, 2] hpack).mpr (by decide)⟩

set_option maxRecDepth 10000 in
theorem not_roundTrips_skewedStruct :
    packPayload skewedStruct (Values.toPy skewedStruct skewedValues) = .ok [160, 200, 136] ∧
      unpackPayload skewedStruct ([160, 200, 136] ++ []) =
        .ok [.struct [.int 5, .int 200, .int 8]] ∧
      ¬ RoundTrips skewedStruct skewedValues [160, 200, 136] [] := by
  have hread : unpackPayload skewedStruct ([160, 200, 136] ++ []) =
      .ok [.struct [.int 5, .int 200, .int 8]] := by rfl
  refine ⟨by decide +kernel, hread, fun htrips => ?_⟩
  have heq : [PyVal.struct [.int 5, .int 200, .int 8]] = [.struct [.int 5, .int 200, .int 17]] :=
    Except.ok.inj (hread.symm.trans htrips.1)
  simp at heq

end CompostRpc
