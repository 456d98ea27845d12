import CompostRpc.BuiltInPlace
import Mathlib.Algebra.Order.BigOperators.Group.List

/-!
# Slices inside the transmit buffer

The capacity of an allocator is counted from a base behind the start of the buffer, and on both
paths it is larger than the room behind that base. So a slice may end outside the buffer, and all
slices may be granted for a message that does not fit. `AllocationSafe` is the exact condition on
the lengths.
-/

namespace CompostRpc
open ByteMemory Piece Machine BumpAllocator

def BytesInside (lo size : ℕ) (r : ℕ × ℕ) : Prop :=
  ∀ a, r.1 ≤ a → a < r.1 + r.2 → lo ≤ a ∧ a < lo + size

theorem bytesInside_iff {lo size : ℕ} {r : ℕ × ℕ} (h : lo ≤ r.1) :
    BytesInside lo size r ↔ r.2 = 0 ∨ r.1 + r.2 ≤ lo + size := by
  constructor
  · intro hinside
    by_contra! hout
    have hlast := (hinside (r.1 + r.2 - 1) (by omega) (by omega)).2
    omega
  · intro hend a hlo hhi
    omega

/-- The slices of a struct are inside the buffer, and if there are all of them, so is what the store
code behind the header writes. -/
structure StaysInside (m : Machine) (name : String) (members : Members) (txBuf size : ℕ)
    (vs : CValues members) : Prop where
  slices_inside : ∀ r ∈ slicesAll members vs, r.1 ≠ 0 → BytesInside txBuf size r
  store_inside : AllAllocated members vs →
    (storeCall m (txBuf + payloadOffset) (.struct name members) vs).2 ≤ txBuf + size

def requestedLength (members : Members) (lens : String → UInt16) : ℕ :=
  ((structStretches members).1.map Stretch.bytes).sum +
    ((structRequests members lens).map SliceRequest.asked).sum + (structStretches members).2.bytes

/-- A list that passes the test against the capacity also ends inside the buffer of `size` bytes, in
which the allocator begins at `start`; and if all lists pass it, the message fits the buffer. -/
structure AllocationSafe (members : Members) (lens : String → UInt16) (cap start size : ℕ) :
    Prop where
  granted : Granted cap SliceRequest.asked
    (fun used r => r.bytes = 0 ∨ start + used + r.bytes ≤ size) 0 (suffixGaps members)
    (structRequests members lens)
  message : (structRequests members lens).length < 2 ^ 16 →
    extent ((0 :: suffixGaps members).zip
      ((structRequests members lens).map SliceRequest.asked)) ≤ cap →
    payloadOffset + requestedLength members lens ≤ size

theorem length_suffixGaps_le_iff (members : Members) (lens : String → UInt16) :
    (structRequests members lens).length ≤ (suffixGaps members).length ↔
      (structRequests members lens).length < 2 ^ 16 := by
  rw [length_structRequests, suffixGaps, allStretches, List.length_take, List.length_map,
    List.length_map, List.length_tail, List.length_append, List.length_singleton]
  omega

theorem allAllocated_iff (members : Members) (lens : String → UInt16) (txBuf txBufLen : ℕ) :
    AllAllocated members
        (structInit members lens (structAllocInit (layoutFrom [⟨0⟩] members) txBuf txBufLen)).1 ↔
      (structRequests members lens).length < 2 ^ 16 ∧
        extent ((0 :: suffixGaps members).zip
          ((structRequests members lens).map SliceRequest.asked)) ≤ txBufLen % 2 ^ 16 := by
  rw [AllAllocated, slicesAll_structInit_eq, forall_blockRegion_ne_zero_iff (by omega),
    none_notMem_run_iff, List.length_map, length_suffixGaps_le_iff]
  refine and_congr_right fun _ => ⟨fun h => ?_, fun h _ => h⟩
  cases hrequests : structRequests members lens with
  | nil => exact Nat.zero_le _
  | cons r rs =>
    rw [hrequests] at h
    exact h (List.cons_ne_nil _ _)

theorem storeCall_allAllocated {name : String} {members : Members} {lens : String → UInt16}
    {a txBufLen : ℕ} (m : Machine) (dest : ℕ)
    (h : AllAllocated members
      (structInit members lens (structAllocInit (layoutFrom [⟨0⟩] members) a txBufLen)).1) :
    (storeCall m dest (.struct name members)
      (structInit members lens (structAllocInit (layoutFrom [⟨0⟩] members) a txBufLen)).1).2 =
      dest + requestedLength members lens := by
  obtain ⟨-, hlens⟩ := slices_of_allAllocated h
  have hend := @storeCall_end (.struct name members) rfl m dest
    (structInit members lens (structAllocInit (layoutFrom [⟨0⟩] members) a txBufLen)).1
  have hbytes := (stored_behind_stretches dest ⟨0, 0⟩ (.struct name members)
    (structInit members lens (structAllocInit (layoutFrom [⟨0⟩] members) a
      txBufLen)).1).stop_eq_bytes (length_stretches _ _ _) (by rw [Nat.add_zero]; omega)
  have hlength : storedEnd (8 * dest) (.struct name members)
      (structInit members lens (structAllocInit (layoutFrom [⟨0⟩] members) a txBufLen)).1 =
      8 * (dest + requestedLength members lens) := by
    rw [requestedLength, ← hlens]
    exact hbytes
  omega

theorem sum_allocGaps_le {done : List Stretch} (h : ∀ s ∈ done, s.Finished) :
    (allocGaps done).sum ≤ (done.map Stretch.bytes).sum := by
  have hle : ∀ s ∈ done, s.layoutBytes ≤ s.bytes := by
    intro s hs
    obtain ⟨hsum, -, -⟩ := h s hs
    unfold Stretch.layoutBytes Stretch.bytes
    omega
  cases done with
  | nil => exact le_rfl
  | cons s rest =>
    rw [List.forall_mem_cons] at hle
    rw [allocGaps, List.map_cons, List.sum_cons, List.sum_cons]
    refine Nat.add_le_add hle.1 (List.sum_le_sum fun s hs => ?_)
    exact (Nat.mod_le _ _).trans (hle.2 s hs)

/-- `T_init` gets all slices of a message that fits the buffer, as the capacity is never too
small. -/
theorem allAllocated_of_fits {members : Members} {lens : String → UInt16} {size : ℕ}
    (txBuf : ℕ) (hsize : size < 2 ^ 16)
    (hfits : payloadOffset + requestedLength members lens ≤ size) :
    AllAllocated members
      (structInit members lens (structAllocInit (layoutFrom [⟨0⟩] members) txBuf size)).1 := by
  have hfinished := structStretches_finished members
  have hgaps := sum_allocGaps_le hfinished
  have hasked : ((structRequests members lens).map SliceRequest.asked).length =
      (structStretches members).1.length := by
    rw [List.length_map, length_structRequests]
  have hcount : (structRequests members lens).length < 2 ^ 16 := by
    have hle := List.length_le_sum_of_one_le ((structStretches members).1.map Stretch.bytes)
      (List.forall_mem_map.mpr fun s hs => by
        obtain ⟨hsum, -, hprefix⟩ := hfinished s hs
        unfold Stretch.bytes
        omega)
    rw [List.length_map] at hle
    rw [length_structRequests]
    unfold requestedLength payloadOffset at hfits
    omega
  refine (allAllocated_iff members lens txBuf size).mpr ⟨hcount, ?_⟩
  have hzip := zip_suffixGaps members hasked (by
    rw [List.length_map]
    exact (length_suffixGaps_le_iff members lens).mpr hcount)
  have hextent := extent_zip ((length_allocGaps (structStretches members).1).trans hasked.symm)
  rw [← hzip] at hextent
  have hhead : extent ((0 :: suffixGaps members).zip
      ((structRequests members lens).map SliceRequest.asked)) ≤
      extent ((headBytes members :: suffixGaps members).zip
        ((structRequests members lens).map SliceRequest.asked)) := by
    cases (structRequests members lens).map SliceRequest.asked with
    | nil => exact le_rfl
    | cons len lens =>
      simp only [List.zip_cons_cons, extent]
      omega
  rw [Nat.mod_eq_of_lt hsize]
  unfold requestedLength payloadOffset at hfits
  omega

theorem slices_inside_iff {members : Members} {lens : String → UInt16}
    {a txBufLen txBuf start size : ℕ} (hstart : a + 4 + headBytes members = txBuf + start) :
    (∀ r ∈ slicesAll members
        (structInit members lens (structAllocInit (layoutFrom [⟨0⟩] members) a txBufLen)).1,
      r.1 ≠ 0 → BytesInside txBuf size r) ↔
    Granted (txBufLen % 2 ^ 16) SliceRequest.asked
      (fun used r => r.bytes = 0 ∨ start + used + r.bytes ≤ size) 0 (suffixGaps members)
      (structRequests members lens) := by
  have hbase : 0 < a + 4 + headBytes members := by omega
  rw [granted_iff, slicesAll_structInit_eq, List.forall_mem_map]
  refine forall₂_congr fun p _ => ?_
  obtain ⟨u | u, r⟩ := p
  · exact iff_of_true (fun hne => absurd rfl hne) fun u hu => nomatch hu
  · have hle : txBuf ≤ (blockRegion (a + 4 + headBytes members) (some u, r)).1 := by
      change txBuf ≤ a + 4 + headBytes members + u
      omega
    rw [blockRegion_ne_zero_iff hbase, bytesInside_iff hle]
    simp only [ne_eq, reduceCtorEq, not_false_eq_true, forall_const, Option.mem_def,
      Option.some.injEq, forall_eq', blockRegion]
    omega

theorem staysInside_iff (m : Machine) (name : String) (members : Members)
    (lens : String → UInt16) {a txBufLen txBuf start size : ℕ}
    (hstart : a + 4 + headBytes members = txBuf + start) :
    StaysInside m name members txBuf size
        (structInit members lens (structAllocInit (layoutFrom [⟨0⟩] members) a txBufLen)).1 ↔
      AllocationSafe members lens (txBufLen % 2 ^ 16) start size := by
  constructor
  · rintro ⟨hslices, hstore⟩
    refine ⟨(slices_inside_iff hstart).mp hslices, fun hcount hextent => ?_⟩
    have hall := (allAllocated_iff members lens a txBufLen).mpr ⟨hcount, hextent⟩
    have hend := hstore hall
    rw [storeCall_allAllocated m _ hall] at hend
    omega
  · rintro ⟨hgranted, hmessage⟩
    refine ⟨(slices_inside_iff hstart).mpr hgranted, fun hall => ?_⟩
    obtain ⟨hcount, hextent⟩ := (allAllocated_iff members lens a txBufLen).mp hall
    have hfits := hmessage hcount hextent
    rw [storeCall_allAllocated m _ hall]
    omega

/-- The slices and the message stay in the transmit buffer exactly on safe lengths, both for a
notification argument and for the result of a call. -/
theorem allocation_stays_inside_iff (m : Machine) (name : String) (members : Members)
    (lens : String → UInt16) (txBuf : ℕ) :
    (∀ txBufLen : UInt16,
      StaysInside m name members txBuf txBufLen.toNat
          (structInit members lens
            (structAllocInit (layoutFrom [⟨0⟩] members) txBuf txBufLen.toNat)).1 ↔
        AllocationSafe members lens txBufLen.toNat (4 + headBytes members) txBufLen.toNat) ∧
    ∀ (txBufSize : ℕ) (header : CompostHeader) (alloc : CompostAlloc),
      resultAlloc (some (.struct name members))
          ⟨header, txBufSize - payloadOffset, txBuf + payloadOffset⟩ = some alloc →
        (StaysInside m name members txBuf txBufSize (structInit members lens alloc).1 ↔
          AllocationSafe members lens
            (sizeDiff16 (txBufSize - payloadOffset) (headBytes members))
            (8 + 2 * headBytes members) txBufSize) := by
  refine ⟨fun txBufLen => ?_, fun txBufSize header alloc halloc => ?_⟩
  · have hiff := @staysInside_iff m name members lens txBuf txBufLen.toNat txBuf
      (4 + headBytes members) txBufLen.toNat (by omega)
    rwa [Nat.mod_eq_of_lt txBufLen.toNat_lt] at hiff
  · obtain ⟨-, rfl⟩ := resultAlloc_struct halloc
    have hcap : sizeDiff16 (txBufSize - payloadOffset) (headBytes members) % 2 ^ 16 =
        sizeDiff16 (txBufSize - payloadOffset) (headBytes members) := Nat.mod_mod _ _
    have hstart : txBuf + payloadOffset + headBytes members + 4 + headBytes members =
        txBuf + (8 + 2 * headBytes members) := by
      unfold payloadOffset
      omega
    have hiff := @staysInside_iff m name members lens (txBuf + payloadOffset + headBytes members)
      (sizeDiff16 (txBufSize - payloadOffset) (headBytes members)) txBuf _ txBufSize hstart
    rwa [hcap] at hiff

theorem allocation_stays_inside_profile :
    StaysInside (.start fun _ => 0) "SolderingProfile" solderingProfile 100 64
        (structInit solderingProfile (fun _ => 2)
          (structAllocInit (layoutFrom [⟨0⟩] solderingProfile) 100 64)).1 ∧
      StaysInside (.start fun _ => 0) "SolderingProfile" solderingProfile 100 64
        (structInit solderingProfile (fun _ => 2) profileAlloc).1 := by
  obtain ⟨hnotification, hresult⟩ := allocation_stays_inside_iff (.start fun _ => 0)
    "SolderingProfile" solderingProfile (fun _ => 2) 100
  refine ⟨(hnotification 64).mpr ⟨by decide +kernel, fun _ _ => by decide +kernel⟩, ?_⟩
  exact (hresult 64 ⟨0, 7, 0, true⟩ profileAlloc rfl).mpr
    ⟨by decide +kernel, fun _ _ => by decide +kernel⟩

/-- Lists that take the last bytes of the capacity, in a buffer of 24 bytes. -/
theorem not_stays_inside_profile :
    ¬ StaysInside (.start fun _ => 0) "SolderingProfile" solderingProfile 100 24
        (structInit solderingProfile (fun _ => 10)
          (structAllocInit (layoutFrom [⟨0⟩] solderingProfile) 100 24)).1 ∧
      resultAlloc (some (.struct "SolderingProfile" solderingProfile)) ⟨⟨0, 7, 0, true⟩, 20, 104⟩ =
        some (structAllocInit (layoutFrom [⟨0⟩] solderingProfile) (104 + 4) (sizeDiff16 20 4)) ∧
      ¬ StaysInside (.start fun _ => 0) "SolderingProfile" solderingProfile 100 24
        (structInit solderingProfile (fun _ => 8)
          (structAllocInit (layoutFrom [⟨0⟩] solderingProfile) (104 + 4) (sizeDiff16 20 4))).1 := by
  refine ⟨fun hinside => ?_, rfl, fun hinside => ?_⟩
  · have hsafe := (@staysInside_iff (.start fun _ => 0) "SolderingProfile" solderingProfile
      (fun _ => 10) 100 24 100 8 24 (by decide)).mp hinside
    exact absurd hsafe.granted (by decide +kernel)
  · have hsafe := (@staysInside_iff (.start fun _ => 0) "SolderingProfile" solderingProfile
      (fun _ => 8) (104 + 4) (sizeDiff16 20 4) 100 16 24 (by decide)).mp hinside
    exact absurd hsafe.granted (by decide +kernel)

end CompostRpc
