import QubitRouting.Proofs.Registry.Coherent

/-!
# Limiting the order of crossings

`limitOrder` ranks the paths once and then takes them out from the top for as long as the limit is exceeded. The
ranking goes stale on the way: a removal takes crossings away from other paths as well. It can only list too many
paths, though. `Listed` says that no path with a crossing above the limit is missing in what is left of the
ranking, and every turn keeps that (`Listed.without`). So the limit is met at the latest when the ranking ends
(`maxOrder_shed_le`), and a turn that finds the limit exceeded finds a path to remove (`Listed.ne_nil`).

A crossing names another registered path, so there are two of them while one is recorded, and no turn removes the
last one (`shed_valid`).
-/

namespace QubitRouting

namespace Registry

variable {n : Nat} {r : Registry}

/-! ## One turn -/

/-- The registry without the path `id`, if it had one. -/
def without (r : Registry) (id : PathId) : Registry :=
  match r.remove id with
  | .ok r' => r'
  | .error _ => r

/-- A turn of the loop, for as long as the limit is exceeded. -/
theorem shed_cons (id : PathId) (rest : List PathId) :
    shed n (id :: rest) r = if n < r.maxOrder then shed n rest (r.without id) else r := by
  conv => lhs; unfold shed
  unfold without
  cases r.remove id with
  | ok r' => rfl
  | error e => rfl

theorem shed_of_maxOrder_le (h : r.maxOrder ≤ n) (l : List PathId) : shed n l r = r := by
  cases l with
  | nil => rfl
  | cons id rest => rw [shed_cons, if_neg (Nat.not_lt.mpr h)]

/-- The loop can be interrupted anywhere in the ranking. -/
theorem shed_append (done rest : List PathId) : shed n (done ++ rest) r = shed n rest (shed n done r) := by
  induction done generalizing r with
  | nil => rfl
  | cons id done ih =>
    rw [List.cons_append, shed_cons, shed_cons]
    split
    next => exact ih
    next hle => rw [shed_of_maxOrder_le (Nat.not_lt.mp hle)]

/-- What is left in a slot has lost nothing but crossings. -/
theorem slot?_without_cases {id i : PathId} {s : Slot} (h : (r.without id).slot? i = some s) :
    i ≠ id ∧ ∃ s₀, r.slot? i = some s₀ ∧ s.nodes = s₀.nodes ∧ s.crossings ⊆ s₀.crossings := by
  unfold without at h
  cases hrem : r.remove id with
  | ok r' =>
    rw [hrem] at h
    obtain ⟨hi, s₀, hs₀, rfl⟩ := slot?_remove_cases hrem h
    exact ⟨hi, s₀, hs₀, rfl, fun c hc => (Slot.mem_crossings_forget.mp hc).1⟩
  | error e =>
    rw [hrem] at h
    refine ⟨?_, s, h, rfl, List.Subset.refl _⟩
    rintro rfl
    obtain ⟨r', hok⟩ := remove_total ⟨s, h⟩
    rw [hok] at hrem
    contradiction

theorem path?_without_of_ne {id i : PathId} (h : i ≠ id) : (r.without id).path? i = r.path? i := by
  unfold without
  cases hrem : r.remove id with
  | ok r' =>
    unfold path?
    rw [slot?_remove hrem, if_neg h, Option.map_map]
    rfl
  | error e => rfl

/-- A path that is not in the ranking stays. -/
theorem path?_shed_of_not_mem {l : List PathId} {i : PathId} (h : i ∉ l) :
    (shed n l r).path? i = r.path? i := by
  induction l generalizing r with
  | nil => rfl
  | cons id rest ih =>
    obtain ⟨hid, hrest⟩ := not_or.mp (mt List.mem_cons.mpr h)
    rw [shed_cons]
    split
    next => rw [ih hrest, path?_without_of_ne hid]
    next => rfl

/-! ## What the ranking lists -/

theorem mem_offenders_iff {i : PathId} :
    i ∈ r.offenders n ↔ ∃ c ∈ r.crossingsAt i, n < c.order := by
  unfold offenders
  simp only [List.mem_map, mem_sortBy, List.mem_filterMap, Option.ite_none_right_eq_some,
    Option.some.injEq, mem_crossingsAt_iff]
  constructor
  · rintro ⟨_, ⟨e, he, hcount, rfl⟩, rfl⟩
    obtain ⟨c, hc, hlt⟩ := List.countP_pos_iff.mp hcount
    exact ⟨c, ⟨e.2, mem_entries_iff.mp he, hc⟩, of_decide_eq_true hlt⟩
  · rintro ⟨c, ⟨s, hs, hc⟩, hlt⟩
    have hcount : 0 < s.countAbove n := List.countP_pos_iff.mpr ⟨c, hc, decide_eq_true hlt⟩
    exact ⟨_, ⟨(i, s), mem_entries_iff.mpr hs, hcount, rfl⟩, rfl⟩

/-- All paths with a crossing of more than `n` nodes are in the list. -/
def Listed (n : Nat) (l : List PathId) (r : Registry) : Prop :=
  ∀ i, ∀ c ∈ r.crossingsAt i, n < c.order → i ∈ l

theorem listed_offenders (n : Nat) (r : Registry) : Listed n (r.offenders n) r :=
  fun _ c hc hlt => mem_offenders_iff.mpr ⟨c, hc, hlt⟩

/-- The list is not at its end while the limit is exceeded. -/
theorem Listed.ne_nil {l : List PathId} (h : Listed n l r) (hlt : n < r.maxOrder) : l ≠ [] := by
  obtain ⟨i, s, hs, c, hc, hn⟩ := lt_maxOrder_iff.mp hlt
  exact List.ne_nil_of_mem (h i c (mem_crossingsAt_iff.mpr ⟨s, hs, hc⟩) hn)

/-- The path that is removed need not be listed any more, and no other path got a crossing. -/
theorem Listed.without {id : PathId} {rest : List PathId} (h : Listed n (id :: rest) r) :
    Listed n rest (r.without id) := by
  intro i c hc hlt
  obtain ⟨s, hs, hcs⟩ := mem_crossingsAt_iff.mp hc
  obtain ⟨hi, s₀, hs₀, -, hsub⟩ := slot?_without_cases hs
  have hmem := h i c (mem_crossingsAt_iff.mpr ⟨s₀, hs₀, hsub hcs⟩) hlt
  exact (List.mem_cons.mp hmem).resolve_left hi

/-- At any point of the loop, either the limit is met or the rest of the ranking is all that matters. -/
theorem Listed.shed {done rest : List PathId} (h : Listed n (done ++ rest) r)
    (hlt : n < (shed n done r).maxOrder) : Listed n rest (shed n done r) := by
  induction done generalizing r with
  | nil => exact h
  | cons id done ih =>
    rw [shed_cons] at hlt ⊢
    split at hlt
    next hexceeded =>
      rw [if_pos hexceeded]
      exact ih h.without hlt
    next hmet => exact absurd hlt hmet

theorem maxOrder_shed_le {l : List PathId} (h : Listed n l r) : (Registry.shed n l r).maxOrder ≤ n := by
  refine Nat.le_of_not_lt fun hlt => ?_
  rw [← List.append_nil l] at h
  exact (h.shed hlt).ne_nil hlt rfl

/-! ## The limit -/

/-- Paths were taken out of the first registry until no crossing had more than `n` nodes. -/
structure Limited (n : Nat) (r r' : Registry) : Prop where
  maxOrder_le : r'.maxOrder ≤ n
  /-- The paths that are left have the numbers and the nodes that they had. -/
  path?_of_path? : ∀ i p, r'.path? i = some p → r.path? i = some p
  /-- A path that crosses no other one is left. -/
  path?_of_uncrossed : ∀ i p, r.path? i = some p → r.crossingsAt i = [] → r'.path? i = some p
  eq_of_maxOrder_le : r.maxOrder ≤ n → r' = r
  not_shares_of_zero : n = 0 → ∀ i j x, ¬ r'.Shares i j x
  crossingsAt_of_zero : n = 0 → ∀ i, r'.crossingsAt i = []
  size_pos : 0 < r.size → 0 < r'.size

theorem Valid.not_shares_of_maxOrder (hr : r.Valid) (h : r.maxOrder ≤ 0) (i j : PathId) (x : Qubit) :
    ¬ r.Shares i j x := fun hx =>
  Nat.not_lt.mpr h (hr.lt_maxOrder_iff.mpr ⟨rfl, i, j, x, hx⟩)

theorem Valid.crossingsAt_of_maxOrder (hr : r.Valid) (h : r.maxOrder ≤ 0) (i : PathId) :
    r.crossingsAt i = [] := by
  refine List.eq_nil_iff_forall_not_mem.mpr fun c hc => ?_
  obtain ⟨x, hx, -⟩ := hr.mem_crossingsAt_iff.mp hc
  exact hr.not_shares_of_maxOrder h i c.path x hx

theorem Valid.size_pos_iff (hr : r.Valid) : 0 < r.size ↔ r.ids ≠ [] := by
  rw [hr.size_eq, List.length_pos_iff]

theorem Valid.limited (hr : r.Valid) (n : Nat) : Limited n r (r.limitOrder n) := by
  obtain ⟨hvalid, hthin, -, hnonempty⟩ := shed_valid (n := n) (r.offenders n) hr
  have hle : (r.limitOrder n).maxOrder ≤ n := maxOrder_shed_le (listed_offenders n r)
  refine ⟨hle, fun i p hp => ?_, fun i p hp hnone => ?_, fun h => shed_of_maxOrder_le h _, ?_, ?_, ?_⟩
  · obtain ⟨s', hs', rfl⟩ := path?_eq_some_iff.mp hp
    exact path?_eq_some_iff.mpr (hthin i s' hs')
  · have hnot : i ∉ r.offenders n := by
      intro hmem
      obtain ⟨c, hc, -⟩ := mem_offenders_iff.mp hmem
      rw [hnone] at hc
      exact absurd hc List.not_mem_nil
    exact (path?_shed_of_not_mem hnot).trans hp
  · rintro rfl
    exact hvalid.not_shares_of_maxOrder hle
  · rintro rfl
    exact hvalid.crossingsAt_of_maxOrder hle
  · intro hsize
    exact hvalid.size_pos_iff.mpr (hnonempty (hr.size_pos_iff.mp hsize))

/-- Limiting the order of crossings establishes the limit and takes out no more than it has to: a limit of one or
more is met from the start. Wherever the loop finds the limit exceeded, there is a path left in its ranking. -/
theorem limitOrder_limited (hr : Reachable r) (n : Nat) :
    Limited n r (r.limitOrder n) ∧ (1 ≤ n → r.maxOrder ≤ n ∧ r.limitOrder n = r) ∧
      ∀ done rest, r.offenders n = done ++ rest →
        r.limitOrder n = shed n rest (shed n done r) ∧
          (n < (shed n done r).maxOrder → rest ≠ []) := by
  have hvalid := hr.valid
  refine ⟨hvalid.limited n, fun hn => ?_, fun done rest hranking => ⟨?_, fun hlt => ?_⟩⟩
  · have hle : r.maxOrder ≤ n := by
      refine Nat.le_of_not_lt fun hlt => ?_
      obtain ⟨rfl, -⟩ := hvalid.lt_maxOrder_iff.mp hlt
      contradiction
    exact ⟨hle, (hvalid.limited n).eq_of_maxOrder_le hle⟩
  · unfold limitOrder
    rw [hranking, shed_append]
  · have hlisted : Listed n (done ++ rest) r := hranking ▸ listed_offenders n r
    exact (hlisted.shed hlt).ne_nil hlt

/-- The longer path has two crossings and is removed first. Then the limit is met, although the two short ones are
still in the ranking. -/
theorem crossedTwice_limited : Reachable crossedTwice ∧ crossedTwice.offenders 0 = [0, 2, 1] ∧
    (crossedTwice.limitOrder 0).ids = [1, 2] ∧ 0 < (crossedTwice.limitOrder 0).size ∧
    (crossedTwice.limitOrder 0).crossingsAt 1 = [] ∧ crossedTwice.limitOrder 1 = crossedTwice := by
  have hzero := (limitOrder_limited reachable_crossedTwice 0).1
  have hone := (limitOrder_limited reachable_crossedTwice 1).2.1 (Nat.le_refl 1)
  exact ⟨reachable_crossedTwice, by decide, by decide, hzero.size_pos (by decide),
    hzero.crossingsAt_of_zero rfl 1, hone.2⟩

end Registry

end QubitRouting
