import QubitRouting.Graph.Hops
import QubitRouting.Proofs.Checked
import QubitRouting.Proofs.Graph.DepthFirst

/-!
# Distances are found for what can be reached

A vertex gets a distance if and only if it can be reached from the start (`hopsFrom_marked_iff`). The
rings spread until one is empty: `Rings.Spreading` says that the neighbours of every vertex behind the
last ring have a distance too, and each ring but the last gives a distance to a vertex that had none, so
that there are never more rings than vertices.
-/

namespace QubitRouting.Graph

namespace Rings

/-- The vertex has a distance. -/
def Marked (hops : Array (Option Nat)) (v : Nat) : Prop :=
  ∃ d, hops[v]? = some (some d)

theorem not_marked_iff {hops : Array (Option Nat)} {v : Nat} (hv : v < hops.size) :
    ¬ Marked hops v ↔ hops[v]? = some none := by
  unfold Marked
  rw [Array.getElem?_eq_getElem hv]
  cases hops[v] with
  | none => simp
  | some d => simp

theorem size_mark (d : Nat) (r : Rings) (v : Nat) : (mark d r v).hops.size = r.hops.size := by
  unfold mark
  split
  next => exact Array.size_setIfInBounds ..
  next => rfl

/-- Marking a vertex changes its own entry, and only if it is empty. -/
theorem getElem?_mark (d : Nat) (r : Rings) (x v : Nat) : (mark d r x).hops[v]? =
    if r.hops[v]? = some none ∧ v = x then some (some d) else r.hops[v]? := by
  unfold mark
  by_cases hnone : r.hops[x]? = some none
  · obtain ⟨hlt, -⟩ := Array.getElem?_eq_some_iff.mp hnone
    rw [if_pos hnone, Array.getElem?_setIfInBounds]
    by_cases hvx : x = v
    · rw [if_pos hvx, if_pos (hvx ▸ hlt), if_pos ⟨hvx ▸ hnone, hvx.symm⟩]
    · rw [if_neg hvx, if_neg]
      exact fun h => hvx h.2.symm
  · rw [if_neg hnone, if_neg]
    exact fun h => hnone (h.2 ▸ h.1)

theorem mem_ring_mark (d : Nat) (r : Rings) (x v : Nat) :
    v ∈ (mark d r x).ring ↔ v ∈ r.ring ∨ r.hops[v]? = some none ∧ v = x := by
  unfold mark
  split
  next hnone =>
    rw [List.mem_cons, or_comm]
    refine or_congr_right ⟨fun h => ⟨h ▸ hnone, h⟩, fun h => h.2⟩
  next hsome =>
    refine (or_iff_left fun h => hsome ?_).symm
    rw [← h.2]
    exact h.1

/-- Marking a list gives the same distance to all its vertices that had none. They are the new ones of the
ring. -/
theorem foldl_mark_spec (d : Nat) (l : List Nat) (r : Rings) (v : Nat) :
    (l.foldl (mark d) r).hops[v]? =
        (if r.hops[v]? = some none ∧ v ∈ l then some (some d) else r.hops[v]?) ∧
      (v ∈ (l.foldl (mark d) r).ring ↔ v ∈ r.ring ∨ r.hops[v]? = some none ∧ v ∈ l) := by
  induction l generalizing r with
  | nil => simp
  | cons x l ih =>
    obtain ⟨hhops, hring⟩ := ih (mark d r x)
    simp only [List.foldl_cons, hhops, hring, getElem?_mark, mem_ring_mark, List.mem_cons]
    by_cases hnone : r.hops[v]? = some none
    · by_cases hvx : v = x
      · subst hvx
        simp [hnone]
      · simp [hnone, hvx]
    · simp [hnone]

theorem size_foldl_mark (d : Nat) (l : List Nat) (r : Rings) :
    (l.foldl (mark d) r).hops.size = r.hops.size := by
  induction l generalizing r with
  | nil => rfl
  | cons v l ih => rw [List.foldl_cons, ih, size_mark]

/-- The next ring is marked with its depth, and nothing else is touched. -/
theorem getElem?_next (succ : Nat → List Nat) (d : Nat) (r : Rings) (v : Nat) :
    (r.next succ d).hops[v]? =
      if r.hops[v]? = some none ∧ v ∈ r.ring.flatMap succ then some (some d) else r.hops[v]? :=
  (foldl_mark_spec d (r.ring.flatMap succ) ⟨r.hops, []⟩ v).1

theorem mem_ring_next {succ : Nat → List Nat} {d : Nat} {r : Rings} {v : Nat} :
    v ∈ (r.next succ d).ring ↔ r.hops[v]? = some none ∧ v ∈ r.ring.flatMap succ :=
  (foldl_mark_spec d (r.ring.flatMap succ) ⟨r.hops, []⟩ v).2.trans (or_iff_right List.not_mem_nil)

theorem size_next (succ : Nat → List Nat) (d : Nat) (r : Rings) :
    (r.next succ d).hops.size = r.hops.size :=
  size_foldl_mark _ _ _

theorem size_spread (succ : Nat → List Nat) : ∀ (count d : Nat) (r : Rings),
    (spread succ count d r).size = r.hops.size
  | 0, _, _ => rfl
  | count + 1, d, r => by
    unfold spread
    dsimp only
    split
    next => exact size_next succ d r
    next => rw [size_spread succ count, size_next]

/-- Marked after a ring is what was marked before, and what the ring has an arc to. -/
theorem marked_next_iff {succ : Nat → List Nat} {d : Nat} {r : Rings}
    (hlt : ∀ v ∈ r.ring.flatMap succ, v < r.hops.size) (v : Nat) :
    Marked (r.next succ d).hops v ↔ Marked r.hops v ∨ v ∈ r.ring.flatMap succ := by
  constructor
  · intro ⟨e, he⟩
    rw [getElem?_next] at he
    split at he
    next hnew => exact .inr hnew.2
    next => exact .inl ⟨e, he⟩
  · intro hv
    by_cases hold : Marked r.hops v
    · obtain ⟨e, he⟩ := hold
      exact ⟨e, by rw [getElem?_next, if_neg (by simp [he]), he]⟩
    · have hmem := hv.resolve_left hold
      have hnone := (not_marked_iff (hlt v hmem)).mp hold
      exact ⟨d, by rw [getElem?_next, if_pos ⟨hnone, hmem⟩]⟩

/-- At first the start is the only vertex with a distance, and the whole ring. -/
theorem mark_start {n start : Nat} (hstart : start < n) :
    (∀ v e : Nat, (mark 0 ⟨Array.replicate n none, []⟩ start).hops[v]? = some (some e) ↔
        v = start ∧ e = 0) ∧
      ∀ v, v ∈ (mark 0 ⟨Array.replicate n none, []⟩ start).ring ↔ v = start := by
  have hblank : ∀ v : Nat, (Array.replicate n (none : Option Nat))[v]? = if v < n then some none else none :=
    fun v => Array.getElem?_replicate
  refine ⟨fun v e => ?_, fun v => ?_⟩
  · rw [getElem?_mark, hblank]
    by_cases hv : v = start
    · subst hv
      simp [hstart, eq_comm]
    · simp [hv]
  · rw [mem_ring_mark, hblank]
    by_cases hv : v = start
    · simp [hv, hstart]
    · simp [hv]

/-- Everything with a distance can be reached, and the neighbours of everything behind the last ring
have a distance. -/
structure Spreading (succ : Nat → List Nat) (n start : Nat) (r : Rings) : Prop where
  size : r.hops.size = n
  marked_start : Marked r.hops start
  reaches : ∀ v, Marked r.hops v → Reaches succ start v
  ring : ∀ v ∈ r.ring, Marked r.hops v
  closed : ∀ u, Marked r.hops u → u ∉ r.ring → ∀ v ∈ succ u, Marked r.hops v

/-- The number of vertices without a distance. -/
def unmarked (n : Nat) (hops : Array (Option Nat)) : Nat :=
  (List.range n).countP fun v => hops[v]? == some none

/-- The next ring holds exactly the vertices that get a distance with it. -/
theorem Spreading.next {succ : Nat → List Nat} {n start : Nat} {r : Rings}
    (hsucc : ∀ u < n, ∀ v ∈ succ u, v < n) (h : Spreading succ n start r) (d : Nat) :
    Spreading succ n start (r.next succ d) ∧
      (∀ v, Marked r.hops v → Marked (r.next succ d).hops v) ∧
      ∀ v, v ∈ (r.next succ d).ring ↔ Marked (r.next succ d).hops v ∧ ¬ Marked r.hops v := by
  have hlt : ∀ v ∈ r.ring.flatMap succ, v < r.hops.size := by
    intro v hv
    obtain ⟨u, hu, huv⟩ := List.mem_flatMap.mp hv
    obtain ⟨d, hd⟩ := h.ring u hu
    have hun := (Array.getElem?_eq_some_iff.mp hd).1
    rw [h.size] at hun ⊢
    exact hsucc u hun v huv
  have hmarked := fun v => marked_next_iff (d := d) hlt v
  have hring : ∀ v, v ∈ (r.next succ d).ring ↔ Marked (r.next succ d).hops v ∧ ¬ Marked r.hops v := by
    intro v
    rw [mem_ring_next, hmarked]
    constructor
    · intro ⟨hnone, hmem⟩
      exact ⟨.inr hmem, (not_marked_iff (hlt v hmem)).mpr hnone⟩
    · intro ⟨hv, hnot⟩
      have hmem := hv.resolve_left hnot
      exact ⟨(not_marked_iff (hlt v hmem)).mp hnot, hmem⟩
  have hmono : ∀ v, Marked r.hops v → Marked (r.next succ d).hops v :=
    fun v hv => (hmarked v).mpr (.inl hv)
  refine ⟨⟨(size_next succ d r).trans h.size, hmono start h.marked_start, fun v hv => ?_,
    fun v hv => ((hring v).mp hv).1, fun u hu hnot v hv => ?_⟩, hmono, hring⟩
  · rcases (hmarked v).mp hv with hv | hv
    · exact h.reaches v hv
    · obtain ⟨u, hu, huv⟩ := List.mem_flatMap.mp hv
      exact (h.reaches u (h.ring u hu)).tail huv
  · -- the vertex is not new, so it is behind the last ring or on it
    have hold : Marked r.hops u := by
      by_cases hold : Marked r.hops u
      · exact hold
      · exact absurd ((hring u).mpr ⟨hu, hold⟩) hnot
    by_cases hmem : u ∈ r.ring
    · exact (hmarked v).mpr (.inr (List.mem_flatMap.mpr ⟨u, hmem, hv⟩))
    · exact hmono v (h.closed u hold hmem v hv)

/-- A new ring that is not empty leaves fewer vertices without a distance. -/
theorem Spreading.unmarked_next {succ : Nat → List Nat} {n start : Nat} {r : Rings}
    (hsucc : ∀ u < n, ∀ v ∈ succ u, v < n) (h : Spreading succ n start r) {d : Nat}
    (hne : (r.next succ d).ring ≠ []) : unmarked n (r.next succ d).hops < unmarked n r.hops := by
  obtain ⟨hnext, hmono, hring⟩ := h.next hsucc d
  obtain ⟨w, hw⟩ := List.exists_mem_of_ne_nil _ hne
  obtain ⟨⟨e, he⟩, hold⟩ := (hring w).mp hw
  have hwlt : w < n := hnext.size ▸ (Array.getElem?_eq_some_iff.mp he).1
  refine countP_lt_countP (List.mem_range.mpr hwlt) (fun x hx hnone => ?_) ?_ ?_
  · have hxlt := List.mem_range.mp hx
    rw [beq_iff_eq, ← not_marked_iff (by rwa [hnext.size])] at hnone
    rw [beq_iff_eq, ← not_marked_iff (by rwa [h.size])]
    exact fun hmarked => hnone (hmono x hmarked)
  · rw [he]
    rfl
  · rw [beq_iff_eq, ← not_marked_iff (by rwa [h.size])]
    exact hold

/-- Once a ring is empty, exactly what can be reached is marked. -/
theorem Spreading.marked_iff {succ : Nat → List Nat} {n start : Nat} {r : Rings}
    (h : Spreading succ n start r) (hring : r.ring = []) (v : Nat) :
    Marked r.hops v ↔ Reaches succ start v := by
  refine ⟨h.reaches v, fun hv => ?_⟩
  induction hv with
  | refl => exact h.marked_start
  | @tail u v _ huv ih =>
    refine h.closed u ih ?_ v huv
    rw [hring]
    exact List.not_mem_nil

/-- With more rings than vertices without a distance, exactly what can be reached gets one. -/
theorem spread_marked_iff {succ : Nat → List Nat} {n start : Nat}
    (hsucc : ∀ u < n, ∀ v ∈ succ u, v < n) : ∀ (count d : Nat) {r : Rings},
    Spreading succ n start r → unmarked n r.hops < count → ∀ v,
    Marked (spread succ count d r) v ↔ Reaches succ start v := by
  intro count
  induction count with
  | zero => exact fun _ _ _ h => absurd h (Nat.not_lt_zero _)
  | succ count ih =>
    intro d r h hcount v
    obtain ⟨hnext, -, -⟩ := h.next hsucc d
    unfold spread
    dsimp only
    split
    next hempty => exact hnext.marked_iff (List.isEmpty_iff.mp hempty) v
    next hne =>
      have hlt := h.unmarked_next hsucc fun hnil => hne (List.isEmpty_iff.mpr hnil)
      exact ih (d + 1) hnext (by omega) v

end Rings

theorem size_hopsFrom (succ : Nat → List Nat) (n start : Nat) : (hopsFrom succ n start).size = n := by
  unfold hopsFrom
  rw [Rings.size_spread, Rings.size_mark]
  exact Array.size_replicate

/-- A vertex has a distance from the start if and only if it can be reached from there. -/
theorem hopsFrom_marked_iff {succ : Nat → List Nat} {n start : Nat}
    (hsucc : ∀ u < n, ∀ v ∈ succ u, v < n) (hstart : start < n) (v : Nat) :
    Rings.Marked (hopsFrom succ n start) v ↔ Reaches succ start v := by
  obtain ⟨hhops, hring⟩ := Rings.mark_start hstart
  have hfirst : ∀ v, Rings.Marked (Rings.mark 0 ⟨Array.replicate n none, []⟩ start).hops v ↔
      v = start := by
    intro v
    unfold Rings.Marked
    simp only [hhops, exists_eq_right]
  have hsize : (Rings.mark 0 ⟨Array.replicate n none, []⟩ start).hops.size = n := by
    rw [Rings.size_mark]
    exact Array.size_replicate
  -- at first only the start is marked, and it is the whole ring
  have hspreading : Rings.Spreading succ n start
      (Rings.mark 0 ⟨Array.replicate n none, []⟩ start) := by
    refine ⟨hsize, (hfirst start).mpr rfl, fun v hv => ?_, fun v hv => ?_, fun u hu hnot => ?_⟩
    · rw [(hfirst v).mp hv]
    · exact (hfirst v).mpr ((hring v).mp hv)
    · exact absurd ((hring u).mpr ((hfirst u).mp hu)) hnot
  refine Rings.spread_marked_iff hsucc n 1 hspreading ?_ v
  have hcount : Rings.unmarked n (Rings.mark 0 ⟨Array.replicate n none, []⟩ start).hops <
      (List.range n).countP fun _ => true := by
    refine countP_lt_countP (List.mem_range.mpr hstart) (fun _ _ _ => rfl) ?_ rfl
    obtain ⟨d, hd⟩ := (hfirst start).mpr rfl
    rw [hd]
    rfl
  simpa using hcount

end QubitRouting.Graph
