import QubitRouting.Proofs.Graph.Cheapest

/-!
# The least score is on top

With exact scores the heap is *ordered*: no entry is below its parent (`Heap.Ordered`). Then the entry on top
is a least one (`Ordered.scoreAt_zero_le`). Putting an entry on the heap and taking the top off keep the order
(`Ordered.push`, `Ordered.pop?`).

Both move one entry to its place. On its way up only the entry and its parent can be out of order
(`Heap.Rising`). On its way down the entry has no order with its parent or its children at all
(`Heap.Sinking`), and it goes on to a place without children, from where it rises.
-/

namespace QubitRouting.Graph

namespace Heap

/-- The score at a place; zero where there is none. -/
def scoreAt (h : Heap Nat) (i : Nat) : Nat :=
  (h.entries[i]?.map (·.score)).getD 0

theorem scoreAt_eq {h : Heap Nat} {i : Nat} {e : Scored Nat} (he : h.entries[i]? = some e) :
    h.scoreAt i = e.score := by
  unfold scoreAt
  rw [he]
  rfl

theorem size_swap {S : Type} (h : Heap S) (i j : Nat) : (h.swap i j).entries.size = h.entries.size :=
  (swap_perm h i j).size_eq

/-- Swapping two entries exchanges their scores. -/
theorem scoreAt_swap {h : Heap Nat} {i j : Nat} (hi : i < h.entries.size) (hj : j < h.entries.size)
    (k : Nat) : (h.swap i j).scoreAt k =
      if j = k then h.scoreAt i else if i = k then h.scoreAt j else h.scoreAt k := by
  unfold scoreAt swap
  rw [Array.swapIfInBounds_def, dif_pos hi, dif_pos hj, Array.getElem?_swap,
    Array.getElem?_eq_getElem hi, Array.getElem?_eq_getElem hj]
  split
  next => rfl
  next =>
    split
    next => rfl
    next => rfl

theorem below_iff {h : Heap Nat} {i j : Nat} (hi : i < h.entries.size) (hj : j < h.entries.size) :
    h.below i j = true ↔ h.scoreAt i < h.scoreAt j := by
  unfold below scoreAt
  rw [Array.getElem?_eq_getElem hi, Array.getElem?_eq_getElem hj]
  exact decide_eq_true_iff

theorem atMost_iff {h : Heap Nat} {i j : Nat} (hi : i < h.entries.size) (hj : j < h.entries.size) :
    h.atMost i j = true ↔ h.scoreAt i ≤ h.scoreAt j := by
  unfold atMost scoreAt
  rw [Array.getElem?_eq_getElem hi, Array.getElem?_eq_getElem hj]
  exact decide_eq_true_iff

/-! ## Ordered heaps -/

/-- No entry is below its parent. -/
def Ordered (h : Heap Nat) : Prop :=
  ∀ k, 0 < k → k < h.entries.size → h.scoreAt ((k - 1) / 2) ≤ h.scoreAt k

/-- Up from any place there are ever smaller scores, so the least one is on top. -/
theorem Ordered.scoreAt_zero_le {h : Heap Nat} (ho : h.Ordered) {k : Nat} (hk : k < h.entries.size) :
    h.scoreAt 0 ≤ h.scoreAt k := by
  induction k using Nat.strongRecOn with
  | ind k ih =>
    by_cases hzero : k = 0
    · rw [hzero]
    · have hparent := ih ((k - 1) / 2) (by omega) (by omega)
      have hup := ho k (by omega) hk
      omega

/-! ## The way up -/

/-- Only the entry at `i` may be below its parent, and nothing under `i` is below that parent. -/
structure Rising (i : Nat) (h : Heap Nat) : Prop where
  order : ∀ k, 0 < k → k < h.entries.size → k ≠ i → h.scoreAt ((k - 1) / 2) ≤ h.scoreAt k
  grand : ∀ k, 0 < k → k < h.entries.size → (k - 1) / 2 = i → 0 < i →
    h.scoreAt ((i - 1) / 2) ≤ h.scoreAt k

/-- An entry that is below its parent trades places with it, and is then the only one that
may be below its parent. -/
theorem Rising.swap {h : Heap Nat} {i : Nat} (hr : Rising i h) (hpos : 0 < i)
    (hi : i < h.entries.size) (hlt : h.scoreAt i < h.scoreAt ((i - 1) / 2)) :
    Rising ((i - 1) / 2) (h.swap i ((i - 1) / 2)) := by
  have hp : (i - 1) / 2 < h.entries.size := by omega
  have hscore := scoreAt_swap hi hp
  refine ⟨fun k hk hsize hne => ?_, fun k hk hsize hparent hpos' => ?_⟩
  · rw [size_swap] at hsize
    rw [hscore, hscore, if_neg (Ne.symm hne)]
    by_cases hki : i = k
    · rw [if_pos (by omega), if_pos hki]
      omega
    · rw [if_neg hki]
      by_cases hup : (i - 1) / 2 = (k - 1) / 2
      · -- a sibling of `i`
        have hsibling := hr.order k hk hsize (Ne.symm hki)
        rw [if_pos hup]
        rw [← hup] at hsibling
        omega
      · rw [if_neg hup]
        by_cases hchild : i = (k - 1) / 2
        · rw [if_pos hchild]
          exact hr.grand k hk hsize hchild.symm hpos
        · rw [if_neg hchild]
          exact hr.order k hk hsize (Ne.symm hki)
  · rw [size_swap] at hsize
    have habove := hr.order ((i - 1) / 2) hpos' hp (by omega)
    rw [hscore, hscore, if_neg (by omega), if_neg (by omega), if_neg (by omega)]
    by_cases hki : i = k
    · rw [if_pos hki]
      exact habove
    · rw [if_neg hki]
      have hsibling := hr.order k hk hsize (Ne.symm hki)
      rw [hparent] at hsibling
      omega

/-- Rising ends with the heap in order, at the latest at the root. -/
theorem Rising.ordered_rise : ∀ {moves i : Nat} {h : Heap Nat}, Rising i h → i < moves →
    (i < h.entries.size ∨ i = 0) → (rise moves i h).Ordered
  | 0, _, _, _, hmoves, _ => absurd hmoves (Nat.not_lt_zero _)
  | moves + 1, i, h, hr, hmoves, hi => by
    unfold rise
    dsimp only
    split
    next hup =>
      obtain ⟨hpos, hbelow⟩ := Bool.and_eq_true_iff.mp hup
      have hpos' : 0 < i := of_decide_eq_true hpos
      have hi' : i < h.entries.size := hi.resolve_right (Nat.ne_of_gt hpos')
      have hp : (i - 1) / 2 < h.entries.size := by omega
      refine (hr.swap hpos' hi' ((below_iff hi' hp).mp hbelow)).ordered_rise (by omega) (.inl ?_)
      rwa [size_swap]
    next hstop =>
      intro k hk hsize
      by_cases hki : k = i
      · subst hki
        have hp : (k - 1) / 2 < h.entries.size := by omega
        have hnot : ¬ h.below k ((k - 1) / 2) = true := fun hbelow =>
          hstop (Bool.and_eq_true_iff.mpr ⟨decide_eq_true hk, hbelow⟩)
        rw [below_iff hsize hp] at hnot
        omega
      · exact hr.order k hk hsize hki

/-! ## The way down -/

/-- All entries are in order but the one at `i`, and what is under `i` is not below what is above. -/
structure Sinking (i : Nat) (h : Heap Nat) : Prop where
  order : ∀ k, 0 < k → k < h.entries.size → k ≠ i → (k - 1) / 2 ≠ i →
    h.scoreAt ((k - 1) / 2) ≤ h.scoreAt k
  grand : ∀ k, 0 < k → k < h.entries.size → (k - 1) / 2 = i → 0 < i →
    h.scoreAt ((i - 1) / 2) ≤ h.scoreAt k

/-- The child that moves up is a least one. -/
theorem nextChild?_eq_some {h : Heap Nat} {i child : Nat} (hnext : h.nextChild? i = some child) :
    0 < child ∧ child < h.entries.size ∧ (child - 1) / 2 = i ∧
      ∀ k, 0 < k → k < h.entries.size → (k - 1) / 2 = i → h.scoreAt child ≤ h.scoreAt k := by
  unfold nextChild? at hnext
  dsimp only at hnext
  split at hnext
  next hright =>
    have hleft : 2 * i + 1 < h.entries.size := by omega
    have hiff := atMost_iff hright hleft
    obtain rfl := Option.some.inj hnext
    split
    next hle =>
      refine ⟨by omega, hright, by omega, fun k hk hsize hparent => ?_⟩
      rw [hiff] at hle
      obtain rfl | rfl : k = 2 * i + 1 ∨ k = 2 * i + 1 + 1 := by omega
      · exact hle
      · exact Nat.le_refl _
    next hgt =>
      refine ⟨by omega, hleft, by omega, fun k hk hsize hparent => ?_⟩
      rw [hiff] at hgt
      obtain rfl | rfl : k = 2 * i + 1 ∨ k = 2 * i + 1 + 1 := by omega
      · exact Nat.le_refl _
      · omega
  next hright =>
    split at hnext
    next hleft =>
      obtain rfl := Option.some.inj hnext
      refine ⟨by omega, hleft, by omega, fun k hk hsize hparent => ?_⟩
      obtain rfl : k = 2 * i + 1 := by omega
      exact Nat.le_refl _
    next => contradiction

theorem nextChild?_eq_none {h : Heap Nat} {i : Nat} (hnext : h.nextChild? i = none) :
    h.entries.size ≤ 2 * i + 1 := by
  unfold nextChild? at hnext
  dsimp only at hnext
  split at hnext
  next => contradiction
  next =>
    split at hnext
    next => contradiction
    next hleft => omega

/-- The hole goes down to the smaller child, so what comes up fits above the other one. -/
theorem Sinking.swap {h : Heap Nat} {i child : Nat} (hs : Sinking i h)
    (hnext : h.nextChild? i = some child) : Sinking child (h.swap i child) := by
  obtain ⟨hpos, hchild, hparent, hleast⟩ := nextChild?_eq_some hnext
  have hi : i < h.entries.size := by omega
  have hscore := scoreAt_swap hi hchild
  refine ⟨fun k hk hsize hne hup => ?_, fun k hk hsize hup _ => ?_⟩
  · rw [size_swap] at hsize
    rw [hscore, hscore, if_neg (Ne.symm hup), if_neg (Ne.symm hne)]
    by_cases hki : i = k
    · rw [if_neg (by omega), if_pos hki, ← hki]
      exact hs.grand child hpos hchild hparent (by omega)
    · rw [if_neg hki]
      by_cases hsibling : i = (k - 1) / 2
      · rw [if_pos hsibling]
        exact hleast k hk hsize hsibling.symm
      · rw [if_neg hsibling]
        exact hs.order k hk hsize (Ne.symm hki) (Ne.symm hsibling)
  · rw [size_swap] at hsize
    have hunder := hs.order k hk hsize (by omega) (by omega)
    rw [hup] at hunder
    rw [hparent, hscore, hscore, if_neg (by omega), if_pos rfl, if_neg (by omega), if_neg (by omega)]
    exact hunder

/-- Where there are no children, an entry only has to rise. -/
theorem Sinking.rising {h : Heap Nat} {i : Nat} (hs : Sinking i h)
    (hbottom : h.entries.size ≤ 2 * i + 1) : Rising i h :=
  ⟨fun k hk hsize hne => hs.order k hk hsize hne (by omega), fun k _ hsize hparent _ => by omega⟩

/-- Sinking ends at a leaf. From there the entry may have to rise again. -/
theorem Sinking.rising_sink : ∀ {moves i : Nat} {h : Heap Nat}, Sinking i h →
    h.entries.size ≤ i + moves → (i < h.entries.size ∨ i = 0) →
    Rising (sink moves i h).2 (sink moves i h).1 ∧
      ((sink moves i h).2 < (sink moves i h).1.entries.size ∨ (sink moves i h).2 = 0)
  | 0, i, h, hs, hmoves, hi => ⟨hs.rising (by omega), hi⟩
  | moves + 1, i, h, hs, hmoves, hi => by
    unfold sink
    split
    next child hnext =>
      obtain ⟨hpos, hchild, hparent, -⟩ := nextChild?_eq_some hnext
      have hsize := size_swap h i child
      exact (hs.swap hnext).rising_sink (by omega) (.inl (by omega))
    next hnext => exact ⟨hs.rising (nextChild?_eq_none hnext), hi⟩

/-! ## Putting on and taking off -/

theorem ordered_empty : (empty : Heap Nat).Ordered :=
  fun _ _ hk => absurd hk (Nat.not_lt_zero _)

/-- A new entry starts at the end and rises to its place. -/
theorem Ordered.push {h : Heap Nat} (ho : h.Ordered) (x : Scored Nat) : (h.push x).Ordered := by
  unfold Heap.push
  dsimp only
  have hold : ∀ k < h.entries.size, scoreAt ⟨h.entries.push x⟩ k = h.scoreAt k := by
    intro k hk
    unfold scoreAt
    rw [Array.getElem?_push_lt hk, Array.getElem?_eq_getElem hk]
  refine Rising.ordered_rise ⟨fun k hk hsize hne => ?_, fun k hk hsize hparent _ => ?_⟩ (by omega)
    (.inl ?_)
  · rw [Array.size_push] at hsize
    rw [hold _ (by omega), hold _ (by omega)]
    exact ho k hk (by omega)
  · rw [Array.size_push] at hsize
    omega
  · rw [Array.size_push]
    exact Nat.lt_succ_self _

/-- The entry taken off has a least score, and what is left is in order. -/
theorem Ordered.pop? {h h' : Heap Nat} {top : Scored Nat} (ho : h.Ordered)
    (hpop : h.pop? = some (top, h')) : h'.Ordered ∧ ∀ e ∈ h.entries, top.score ≤ e.score := by
  unfold Heap.pop? at hpop
  split at hpop
  next first last hfirst hlast =>
    obtain ⟨rfl, rfl⟩ := Prod.mk.inj (Option.some.inj hpop)
    constructor
    · have hstart : Sinking 0 ⟨h.entries.pop.setIfInBounds 0 last⟩ := by
        refine ⟨fun k hk hsize hne hup => ?_, fun k _ _ _ hpos => absurd hpos (Nat.lt_irrefl 0)⟩
        have hsize' : k < h.entries.size - 1 := by simpa using hsize
        have hold : ∀ j, j ≠ 0 → j < h.entries.size - 1 →
            scoreAt ⟨h.entries.pop.setIfInBounds 0 last⟩ j = h.scoreAt j := by
          intro j hj hlt
          unfold scoreAt
          rw [Array.getElem?_setIfInBounds, if_neg (Ne.symm hj), Array.getElem?_pop, if_pos hlt]
        rw [hold _ hup (by omega), hold _ hne hsize']
        exact ho k hk (by omega)
      have hmoves : (h.entries.pop.setIfInBounds 0 last).size ≤ 0 + h.entries.pop.size := by simp
      obtain ⟨hrising, hplace⟩ := hstart.rising_sink hmoves (.inr rfl)
      exact hrising.ordered_rise (Nat.lt_succ_self _) hplace
    · intro e he
      obtain ⟨k, hk, rfl⟩ := Array.mem_iff_getElem.mp he
      have hle := ho.scoreAt_zero_le hk
      rwa [scoreAt_eq hfirst, scoreAt_eq (Array.getElem?_eq_getElem hk)] at hle
  next => contradiction

end Heap

end QubitRouting.Graph
