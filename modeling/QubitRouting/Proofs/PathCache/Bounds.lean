import QubitRouting.Proofs.PathCache.Recall
import QubitRouting.Proofs.Router.Offers

/-!
# Which paths can be added

The segments of a path can be found position by position: for each position the threshold is added to it, and
the segments that start there stop at the sum or later. That sum is one of 64-bit words, so it may not fit. A machine
then refuses it or wraps round (`checkedSum`, `wrappedSum`), and `addByPosition` is the double loop over positions for
either of the two, in which every sum and both ends of every slice are checked.

`add` tests a single sum before it does anything, the one for the last position. That is enough: with refused sums
the double loop is `add` (`addByPosition_checked`). Settings bound the threshold from below only, so there are accepted
thresholds at which the sum does not fit. A sum that wraps round does not help: it is less than the position that
it was made from, and the first slice is out of range (`addFrom_wrappedSum`).
-/

namespace QubitRouting

namespace PathCache

/-- The sum of two words, if it is one. -/
def checkedSum (i t : Nat) : Except Fault Nat :=
  if i + t < wordCount then .ok (i + t) else .error .overflow

/-- The sum of two words, wrapped round if it is none. -/
def wrappedSum (i t : Nat) : Except Fault Nat :=
  .ok ((i + t) % wordCount)

/-- The part of a path from position `i` on and before position `j`. -/
def slice (p : List Qubit) (i j : Nat) : Except Fault (List Qubit) :=
  if i ≤ j ∧ j ≤ p.length then .ok ((p.drop i).take (j - i)) else .error .outOfRange

/-- Remember one slice. -/
def rememberSlice (p : List Qubit) (i : Nat) (c : PathCache) (j : Nat) : Except Fault PathCache := do
  return c.remember (← slice p i j)

/-- Remember the segments that start at position `i`, the shortest first. -/
def addFrom (sum : Nat → Nat → Except Fault Nat) (p : List Qubit) (c : PathCache) (i : Nat) :
    Except Fault PathCache := do
  let shortest ← sum i c.threshold
  (List.range' shortest (p.length + 1 - shortest)).foldlM (rememberSlice p i) c

/-- Remember all long enough segments, by the position where they start. -/
def addByPosition (sum : Nat → Nat → Except Fault Nat) (c : PathCache) (p : List Qubit) :
    Except Fault PathCache :=
  (List.range p.length).foldlM (addFrom sum p) c

variable {sum : Nat → Nat → Except Fault Nat} {c : PathCache} {p : List Qubit} {i j t : Nat}

/-! ## Sums that fit -/

theorem slice_eq_ok (hij : i ≤ j) (hj : j ≤ p.length) : slice p i j = .ok ((p.drop i).take (j - i)) :=
  if_pos ⟨hij, hj⟩

/-- The segments that start at a position, by where they stop. -/
theorem leading_drop (hi : i ≤ p.length) : leading t (p.drop i) =
    (List.range' (i + t) (p.length + 1 - (i + t))).map fun j => (p.drop i).take (j - i) := by
  have hlen : (p.drop i).length + 1 - t = p.length + 1 - (i + t) := by
    rw [List.length_drop]
    omega
  rw [leading, hlen, List.range'_eq_map_range, List.map_map]
  refine List.map_congr_left fun k _ => ?_
  show (p.drop i).take (t + k) = (p.drop i).take (i + t + k - i)
  rw [Nat.add_assoc, Nat.add_sub_cancel_left]

/-- All segments, by the position where they start. -/
theorem segments_eq_flatMap (t : Nat) (p : List Qubit) :
    segments t p = (List.range p.length).flatMap fun i => leading t (p.drop i) := by
  induction p with
  | nil => rfl
  | cons x p ih =>
    rw [segments, ih, List.length_cons, List.range_succ_eq_map, List.flatMap_cons, List.flatMap_map]
    rfl

theorem addFrom_eq_ok (hsum : sum i c.threshold = .ok (i + c.threshold)) (hi : i ≤ p.length) :
    addFrom sum p c i = .ok ((leading c.threshold (p.drop i)).foldl remember c) := by
  unfold addFrom
  rw [hsum, ok_bind, leading_drop hi, List.foldl_map]
  refine foldlM_eq_ok c fun j hj c' => ?_
  have hbounds := List.mem_range'_1.mp hj
  rw [rememberSlice, slice_eq_ok (by omega) (by omega)]
  rfl

/-- If all sums fit, the double loop remembers the same segments in the same order. -/
theorem addByPosition_eq_ok (hsum : ∀ i < p.length, sum i c.threshold = .ok (i + c.threshold)) :
    c.addByPosition sum p = .ok ((segments c.threshold p).foldl remember c) := by
  have hloop : ∃ c', c.addByPosition sum p = .ok c' ∧
      c' = ((List.range p.length).flatMap fun i => leading c.threshold (p.drop i)).foldl remember c := by
    refine foldlM_total (fun done c' =>
      c' = (done.flatMap fun i => leading c.threshold (p.drop i)).foldl remember c) rfl ?_
    intro done i rest c' hsplit hc'
    have hi := List.mem_range.mp (hsplit ▸ List.mem_append_right done List.mem_cons_self)
    have hthreshold : c'.threshold = c.threshold := by rw [hc', threshold_foldl_remember]
    refine ⟨_, addFrom_eq_ok (hthreshold ▸ hsum i hi) (Nat.le_of_lt hi), ?_⟩
    rw [List.flatMap_append, List.flatMap_singleton, List.foldl_append, ← hc', hthreshold]
  obtain ⟨c', hloop, rfl⟩ := hloop
  rw [hloop, segments_eq_flatMap]

/-! ## Sums that do not fit -/

/-- If not all sums fit, and each one that does not makes its position fail in the same way, then so does the double
loop. -/
theorem addByPosition_eq_error {e : Fault} (hsum : ∀ i, i + c.threshold < wordCount →
      sum i c.threshold = .ok (i + c.threshold))
    (hover : ∀ i < p.length, wordCount ≤ i + c.threshold →
      ∀ c', c'.threshold = c.threshold → addFrom sum p c' i = .error e)
    (h : ∃ i < p.length, wordCount ≤ i + c.threshold) : c.addByPosition sum p = .error e := by
  refine foldlM_fails (fun c' => c'.threshold = c.threshold) rfl (fun i hi c' hc' => ?_) ?_
  · have hlt := List.mem_range.mp hi
    rcases Nat.lt_or_ge (i + c.threshold) wordCount with hfits | hge
    · refine .inl ⟨_, addFrom_eq_ok (hc' ▸ hsum i hfits) (Nat.le_of_lt hlt), ?_⟩
      rw [threshold_foldl_remember, hc']
    · exact .inr (hover i hlt hge c' hc')
  · obtain ⟨i, hi, hge⟩ := h
    exact ⟨i, List.mem_range.mpr hi, hover i hi hge⟩

theorem checkedSum_of_lt (h : i + t < wordCount) : checkedSum i t = .ok (i + t) :=
  if_pos h

theorem wrappedSum_of_lt (h : i + t < wordCount) : wrappedSum i t = .ok (i + t) := by
  rw [wrappedSum, Nat.mod_eq_of_lt h]

theorem addFrom_checkedSum (h : wordCount ≤ i + c.threshold) : addFrom checkedSum p c i = .error .overflow := by
  unfold addFrom
  rw [checkedSum, if_neg (by omega)]
  rfl

/-- A sum that wraps round is less than the position, and a slice cannot stop before it starts. -/
theorem addFrom_wrappedSum (ht : c.threshold < wordCount) (hi : i < p.length) (h : wordCount ≤ i + c.threshold) :
    addFrom wrappedSum p c i = .error .outOfRange := by
  have hwrapped : (i + c.threshold) % wordCount < i := by
    rw [Nat.mod_eq_sub_mod h]
    have hle := Nat.mod_le (i + c.threshold - wordCount) wordCount
    omega
  unfold addFrom wrappedSum
  rw [ok_bind]
  generalize (i + c.threshold) % wordCount = shortest at hwrapped
  have hcount : p.length + 1 - shortest = p.length - shortest + 1 := by omega
  rw [hcount, List.range'_succ, List.foldlM_cons, rememberSlice, slice, if_neg (by omega)]
  rfl

theorem addByPosition_checked_eq_error (h : ∃ i < p.length, wordCount ≤ i + c.threshold) :
    c.addByPosition checkedSum p = .error .overflow :=
  addByPosition_eq_error (fun _ => checkedSum_of_lt)
    (fun _ _ hge _ hc' => addFrom_checkedSum (hc' ▸ hge)) h

theorem addByPosition_wrapped_eq_error (ht : c.threshold < wordCount)
    (h : ∃ i < p.length, wordCount ≤ i + c.threshold) :
    c.addByPosition wrappedSum p = .error .outOfRange :=
  addByPosition_eq_error (fun _ => wrappedSum_of_lt)
    (fun _ hi hge _ hc' => addFrom_wrappedSum (hc' ▸ ht) hi (hc' ▸ hge)) h

/-- With sums that are refused if they do not fit, the double loop is `add`: it is enough to test the last sum. -/
theorem addByPosition_checked (c : PathCache) (p : List Qubit) : c.addByPosition checkedSum p = c.add p := by
  unfold add
  split
  next hlast =>
    have hpos := List.length_pos_iff.mpr hlast.1
    exact addByPosition_checked_eq_error ⟨p.length - 1, by omega, hlast.2⟩
  next hlast =>
    refine addByPosition_eq_ok fun i hi => checkedSum_of_lt ?_
    have hne : p ≠ [] := List.length_pos_iff.mp (by omega)
    have hlt := Nat.lt_of_not_le fun hge => hlast ⟨hne, hge⟩
    omega

/-! ## Accepted thresholds -/

theorem threshold_add {c' : PathCache} (h : c.add p = .ok c') : c'.threshold = c.threshold := by
  unfold add at h
  split at h
  next => contradiction
  next =>
    obtain rfl := Except.ok.inj h
    exact threshold_foldl_remember _ c

theorem threshold_run {requests : List Request} (h : run t requests = .ok c) : c.threshold = max t 2 := by
  refine foldlM_invariant h (fun _ c => c.threshold = max t 2) rfl fun done request rest c c' _ hc hserve => ?_
  cases request with
  | clear =>
    obtain rfl := Except.ok.inj hserve
    exact hc
  | add path => exact (threshold_add hserve).trans hc

/-- Take any settings that are accepted, with a threshold that is a word, and a cache with this threshold, whatever
was asked of it before. A path can be added as long as its length and the threshold do not add up to more than there
are words: then all sums fit, all slices are in range, and it does not matter what would become of other sums. A longer
path cannot be added: either a sum is refused, or it wraps round and a slice is out of range. -/
theorem add_bounds_exact {config : Config} (hconfig : config.validate = .ok ())
    (hword : config.pathLengthThreshold < wordCount) {requests : List Request} {c : PathCache}
    (hrun : run config.pathLengthThreshold requests = .ok c) (p : List Qubit) :
    c.addByPosition checkedSum p = c.add p ∧
    (p.length + config.pathLengthThreshold ≤ wordCount →
      ∃ c', c.addByPosition checkedSum p = .ok c' ∧ c.addByPosition wrappedSum p = .ok c') ∧
    (wordCount < p.length + config.pathLengthThreshold →
      c.addByPosition checkedSum p = .error .overflow ∧
        c.addByPosition wrappedSum p = .error .outOfRange) := by
  have hthreshold : c.threshold = config.pathLengthThreshold := by
    rw [threshold_run hrun, Nat.max_eq_left (Router.validate_eq_ok hconfig).2.1]
  rw [← hthreshold] at hword ⊢
  refine ⟨addByPosition_checked c p, fun hfits => ?_, fun hover => ?_⟩
  · have hsums : ∀ i < p.length, i + c.threshold < wordCount := by
      intro i hi
      omega
    exact ⟨_, addByPosition_eq_ok fun i hi => checkedSum_of_lt (hsums i hi),
      addByPosition_eq_ok fun i hi => wrappedSum_of_lt (hsums i hi)⟩
  · have hlast : ∃ i < p.length, wordCount ≤ i + c.threshold := ⟨p.length - 1, by omega, by omega⟩
    exact ⟨addByPosition_checked_eq_error hlast, addByPosition_wrapped_eq_error hword hlast⟩

/-- The settings without decay and with the given threshold. -/
def cachingConfig (t : Nat) : Config :=
  { Config.standard.withoutDecay with pathLengthThreshold := t }

/-- This threshold leaves room for a path of four nodes, and for no more. -/
theorem add_bounds_four : (cachingConfig (wordCount - 4)).validate = .ok () ∧
    (∃ c, (empty (wordCount - 4)).add [0, 1, 2, 3] = .ok c) ∧
    (empty (wordCount - 4)).add [0, 1, 2, 3, 4] = .error .overflow := by
  have hconfig : (cachingConfig (wordCount - 4)).validate = .ok () := rfl
  have hword : (cachingConfig (wordCount - 4)).pathLengthThreshold < wordCount := by decide
  have hrun : run (cachingConfig (wordCount - 4)).pathLengthThreshold [] = .ok (empty (wordCount - 4)) := rfl
  obtain ⟨hadd, hfits, -⟩ := add_bounds_exact hconfig hword hrun [0, 1, 2, 3]
  obtain ⟨hadd', -, hover⟩ := add_bounds_exact hconfig hword hrun [0, 1, 2, 3, 4]
  obtain ⟨c, hc, -⟩ := hfits (by decide)
  exact ⟨hconfig, ⟨c, hadd ▸ hc⟩, hadd' ▸ (hover (by decide)).1⟩

/-- The largest word is accepted as a threshold, by the check of all settings and by the one that sets it, and then
not even a path of two nodes can be added. -/
theorem largest_threshold_overflows :
    Config.standard.withoutDecay.withCaching true (wordCount - 1) = .ok (cachingConfig (wordCount - 1)) ∧
    (cachingConfig (wordCount - 1)).validate = .ok () ∧
    (empty (wordCount - 1)).add [0, 1] = .error .overflow ∧
    (empty (wordCount - 1)).addByPosition wrappedSum [0, 1] = .error .outOfRange :=
  ⟨rfl, rfl, by decide, by decide⟩

end PathCache

end QubitRouting
