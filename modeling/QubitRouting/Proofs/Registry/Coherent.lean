import QubitRouting.Proofs.Sequencing.Joined

/-!
# The records of a registry agree with its paths

`Registry.Valid` speaks of slots. `Registry.Coherent` says the same in terms of what a registry can be
asked for: the nodes of a path, its crossings, the number of paths and the largest order of a crossing.
The two sides of a crossing are one fact, `Shares`, and everything about recorded crossings follows from
`Valid.mem_crossingsAt_iff`: a path has recorded exactly the nodes that it shares, each with the path that
it shares it with.

`coherent_of_reachable` holds after any sequence of operations.
-/

namespace QubitRouting

/-- An entry that no other entry shares its key with is found alone. -/
theorem filter_eq_singleton {α β : Type} [BEq β] [LawfulBEq β] {f : α → β} {a : α} :
    ∀ {l : List α}, (l.map f).Nodup → a ∈ l → l.filter (fun b => f b == f a) = [a]
  | [], _, ha => absurd ha List.not_mem_nil
  | b :: l, hnodup, ha => by
    rw [List.map_cons, List.nodup_cons] at hnodup
    rcases List.mem_cons.mp ha with rfl | ha
    · rw [List.filter_cons_of_pos (by simp), List.filter_eq_nil_iff.mpr]
      intro b hb heq
      exact hnodup.1 (beq_iff_eq.mp heq ▸ List.mem_map_of_mem hb)
    · have hne : f b ≠ f a := fun he => hnodup.1 (he ▸ List.mem_map_of_mem ha)
      rw [List.filter_cons_of_neg (by simpa using hne), filter_eq_singleton hnodup.2 ha]

namespace Registry

/-- The different registered paths `i` and `j` share the node `x`. -/
def Shares (r : Registry) (i j : PathId) (x : Qubit) : Prop :=
  i ≠ j ∧ ∃ p q, r.path? i = some p ∧ r.path? j = some q ∧ x ∈ p ∧ x ∈ q

/-- What a registry tells about its paths and their crossings fits together. -/
structure Coherent (r : Registry) : Prop where
  /-- A path has at least two nodes, none of them twice. -/
  simple : ∀ i p, r.path? i = some p → 2 ≤ p.length ∧ p.Nodup
  /-- No end of a path lies on another path. -/
  ends : ∀ i j p q, i ≠ j → r.path? i = some p → r.path? j = some q → ∀ x ∈ pathEnds p, x ∉ q
  /-- Two paths share at most one node. -/
  shared : ∀ i j x y, r.Shares i j x → r.Shares i j y → x = y
  /-- A path has recorded a crossing with another one if and only if the two share a node. -/
  recorded : ∀ i j, (∃ c ∈ r.crossingsAt i, c.path = j) ↔ ∃ x, r.Shares i j x
  /-- Then it has recorded one, and the overlap is that node. -/
  recorded_once : ∀ i j x, r.Shares i j x →
    (r.crossingsAt i).filter (fun c => c.path == j) = [⟨j, [x]⟩]
  /-- The size is the number of occupied slots. -/
  size_eq : r.size = r.slots.countP Option.isSome
  /-- The largest order of a crossing is one if there are two paths that share a node, else zero. -/
  maxOrder_eq_one : ∀ i j x, r.Shares i j x → r.maxOrder = 1
  maxOrder_eq_zero : (∀ i j x, ¬ r.Shares i j x) → r.maxOrder = 0

/-! ## Paths and crossings of a registry -/

theorem path?_eq_some_iff {r : Registry} {i : PathId} {p : List Qubit} :
    r.path? i = some p ↔ ∃ s, r.slot? i = some s ∧ s.nodes = p := by
  unfold path?
  exact Option.map_eq_some_iff

theorem mem_crossingsAt_iff {r : Registry} {i : PathId} {c : Crossing} :
    c ∈ r.crossingsAt i ↔ ∃ s, r.slot? i = some s ∧ c ∈ s.crossings := by
  unfold crossingsAt crossings?
  cases r.slot? i with
  | none => simp
  | some s => simp

/-- Only the occupied slots are listed. -/
theorem length_ids (r : Registry) : r.ids.length = r.slots.countP Option.isSome := by
  unfold ids entries
  rw [List.length_map, List.length_filterMap_eq_countP]
  conv => rhs; rw [← List.zipIdx_map_fst 0 r.slots, List.countP_map]
  refine List.countP_congr fun e _ => ?_
  simp

section Valid

variable {r : Registry} (hr : r.Valid)
include hr

/-- The recorded crossings of a path are the nodes that it shares, with the path it shares them with. -/
theorem Valid.mem_crossingsAt_iff {i : PathId} {c : Crossing} :
    c ∈ r.crossingsAt i ↔ ∃ x, r.Shares i c.path x ∧ c.overlap = [x] := by
  rw [Registry.mem_crossingsAt_iff]
  constructor
  · intro ⟨s, hs, hc⟩
    obtain ⟨hne, t, x, ht, hxs, hxt, ho⟩ := (hr.mem_crossings_iff hs c).mp hc
    exact ⟨x, ⟨Ne.symm hne, s.nodes, t.nodes, path?_eq_some_iff.mpr ⟨s, hs, rfl⟩,
      path?_eq_some_iff.mpr ⟨t, ht, rfl⟩, hxs, hxt⟩, ho⟩
  · intro ⟨x, ⟨hne, p, q, hp, hq, hxp, hxq⟩, ho⟩
    obtain ⟨s, hs, rfl⟩ := path?_eq_some_iff.mp hp
    obtain ⟨t, ht, rfl⟩ := path?_eq_some_iff.mp hq
    exact ⟨s, hs, (hr.mem_crossings_iff hs c).mpr ⟨Ne.symm hne, t, x, ht, hxp, hxq, ho⟩⟩

theorem Valid.apart_of_path? {i j : PathId} {p q : List Qubit} (hij : i ≠ j)
    (hp : r.path? i = some p) (hq : r.path? j = some q) : Apart p q := by
  obtain ⟨s, hs, rfl⟩ := path?_eq_some_iff.mp hp
  obtain ⟨t, ht, rfl⟩ := path?_eq_some_iff.mp hq
  exact hr.apart hs ht hij

/-- Two registered paths have at most one node in common. -/
theorem Valid.eq_of_shares {i j : PathId} {x y : Qubit} (hx : r.Shares i j x)
    (hy : r.Shares i j y) : x = y := by
  obtain ⟨hij, p, q, hp, hq, hxp, hxq⟩ := hx
  obtain ⟨-, p', q', hp', hq', hyp, hyq⟩ := hy
  obtain rfl : p = p' := Option.some.inj (hp.symm.trans hp')
  obtain rfl : q = q' := Option.some.inj (hq.symm.trans hq')
  exact (hr.apart_of_path? hij hp hq).shared_eq hxp hxq hyp hyq

theorem Valid.crossingsAt_nodup (i : PathId) : ((r.crossingsAt i).map (·.path)).Nodup := by
  unfold crossingsAt crossings?
  cases hs : r.slot? i with
  | none => exact List.nodup_nil
  | some s => exact hr.crossings_nodup hs

/-- A shared node is recorded once. -/
theorem Valid.filter_crossingsAt {i j : PathId} {x : Qubit} (h : r.Shares i j x) :
    (r.crossingsAt i).filter (fun c => c.path == j) = [⟨j, [x]⟩] :=
  filter_eq_singleton (a := (⟨j, [x]⟩ : Crossing)) (hr.crossingsAt_nodup i)
    (hr.mem_crossingsAt_iff.mpr ⟨x, h, rfl⟩)

/-- Every recorded crossing has order one, so only whether there is one matters. -/
theorem Valid.lt_maxOrder_iff {n : Nat} :
    n < r.maxOrder ↔ n = 0 ∧ ∃ i j x, r.Shares i j x := by
  rw [Registry.lt_maxOrder_iff]
  constructor
  · intro ⟨i, s, hs, c, hc, hn⟩
    obtain ⟨x, hx, ho⟩ := hr.mem_crossingsAt_iff.mp (Registry.mem_crossingsAt_iff.mpr ⟨s, hs, hc⟩)
    rw [Crossing.order, ho, List.length_singleton] at hn
    exact ⟨Nat.lt_one_iff.mp hn, i, c.path, x, hx⟩
  · intro ⟨hn, i, j, x, hx⟩
    obtain ⟨s, hs, hc⟩ := Registry.mem_crossingsAt_iff.mp
      (hr.mem_crossingsAt_iff (c := ⟨j, [x]⟩) |>.mpr ⟨x, hx, rfl⟩)
    exact ⟨i, s, hs, _, hc, by rw [hn]; exact Nat.zero_lt_one⟩

end Valid

/-! ## Any sequence of operations -/

/-- Whatever operations led to a registry, its records agree with its paths. -/
theorem coherent_of_reachable {r : Registry} (hr : Reachable r) : r.Coherent := by
  have hvalid := hr.valid
  refine ⟨fun i p hp => ?_, fun i j p q hij hp hq => (hvalid.apart_of_path? hij hp hq).ends_left,
    fun i j x y => hvalid.eq_of_shares, fun i j => ?_, fun i j x => hvalid.filter_crossingsAt,
    hvalid.size_eq.trans r.length_ids, fun i j x hx => ?_, fun hno => ?_⟩
  · obtain ⟨s, hs, rfl⟩ := path?_eq_some_iff.mp hp
    exact hvalid.simple hs
  · constructor
    · intro ⟨c, hc, hj⟩
      obtain ⟨x, hx, -⟩ := hvalid.mem_crossingsAt_iff.mp hc
      exact ⟨x, hj ▸ hx⟩
    · intro ⟨x, hx⟩
      exact ⟨⟨j, [x]⟩, hvalid.mem_crossingsAt_iff.mpr ⟨x, hx, rfl⟩, rfl⟩
  · have hpos : 0 < r.maxOrder := hvalid.lt_maxOrder_iff.mpr ⟨rfl, i, j, x, hx⟩
    have hle : ¬ 1 < r.maxOrder := fun h => absurd (hvalid.lt_maxOrder_iff.mp h).1 Nat.one_ne_zero
    omega
  · have hle : ¬ 0 < r.maxOrder := by
      intro h
      obtain ⟨-, i, j, x, hx⟩ := hvalid.lt_maxOrder_iff.mp h
      exact hno i j x hx
    omega

/-- Two short paths that a longer one crosses, after the longer one was moved to the first slot. -/
def crossedTwice : Registry where
  slots := [some ⟨[0, 1, 2, 3], [⟨2, [1]⟩, ⟨1, [2]⟩]⟩, some ⟨[6, 2, 7], [⟨0, [2]⟩]⟩,
    some ⟨[4, 1, 5], [⟨0, [1]⟩]⟩]
  size := 3

/-- What sequencing leaves of them: the path in the middle is discarded. -/
def crossedOnce : Registry where
  slots := [some ⟨[0, 1, 2, 3], [⟨2, [1]⟩]⟩, none, some ⟨[4, 1, 5], [⟨0, [1]⟩]⟩]
  size := 2

theorem reachable_crossedTwice : Reachable crossedTwice := by
  have hfirst : empty.add? [4, 1, 5] = some (empty.insert [4, 1, 5]) := by decide
  have hsecond : (empty.insert [4, 1, 5]).add? [6, 2, 7] =
      some ((empty.insert [4, 1, 5]).insert [6, 2, 7]) := by decide
  have hthird : ((empty.insert [4, 1, 5]).insert [6, 2, 7]).add? [0, 1, 2, 3] =
      some (((empty.insert [4, 1, 5]).insert [6, 2, 7]).insert [0, 1, 2, 3]) := by decide
  have hmoved : (((empty.insert [4, 1, 5]).insert [6, 2, 7]).insert [0, 1, 2, 3]).exchange 0 2 =
      .ok crossedTwice := by decide
  exact .exchange (.add (.add (.add .empty hfirst) hsecond) hthird) hmoved

theorem generateSwaps_crossedTwice :
    crossedTwice.generateSwaps = .ok ([(0, 1), (1, 2), (5, 1)], crossedOnce) := by decide

theorem reachable_crossedOnce : Reachable crossedOnce :=
  .generateSwaps reachable_crossedTwice generateSwaps_crossedTwice

theorem crossedOnce_coherent : Reachable crossedOnce ∧ crossedOnce.Shares 0 2 1 ∧
    crossedOnce.Coherent :=
  ⟨reachable_crossedOnce, ⟨by decide, [0, 1, 2, 3], [4, 1, 5], by decide⟩,
    coherent_of_reachable reachable_crossedOnce⟩

end Registry

end QubitRouting
