import QubitRouting.Proofs.Coupling.Connected
import QubitRouting.Proofs.Graph.Walks

/-!
# Shortest routes

A route is *shortest* if no walk between its ends has fewer nodes; a walk follows links and may visit a qubit
more than once. The table of distances holds the length of the shortest walks, in links
(`Connected.distance_least`), so a shortest route has one node more than that (`IsShortest.length_eq`).

A segment of a shortest route is shortest (`IsShortest.of_infix`): a shorter way between its ends could be
spliced into the whole route.
-/

namespace QubitRouting

namespace Coupling

/-- The nodes follow links from `a` to `b`. -/
structure IsWalk (c : Coupling) (a b : Qubit) (q : List Qubit) : Prop where
  head : q.head? = some a
  last : q.getLast? = some b
  chain : q.IsChain fun x y => c.coupled x y = true

/-- A route with no more nodes than any walk between its ends. -/
structure IsShortest (c : Coupling) (a b : Qubit) (p : List Qubit) : Prop where
  isRoute : c.IsRoute a b p
  length_le : ∀ q, c.IsWalk a b q → p.length ≤ q.length

variable {c : Coupling} {a b : Qubit} {p q : List Qubit}

theorem IsRoute.isWalk (h : c.IsRoute a b p) : c.IsWalk a b p :=
  ⟨h.head, h.last, h.chain⟩

theorem IsWalk.ne_nil (h : c.IsWalk a b q) : q ≠ [] := by
  intro hnil
  have hhead := h.head
  rw [hnil] at hhead
  contradiction

theorem IsWalk.reverse (hc : c.Connected) (h : c.IsWalk a b q) : c.IsWalk b a q.reverse where
  head := by rw [List.head?_reverse, h.last]
  last := by rw [List.getLast?_reverse, h.head]
  chain := by
    rw [List.isChain_reverse]
    exact h.chain.imp fun _ _ hxy => hc.symm hxy

/-- A part of a walk can be replaced by any walk between the ends of that part. -/
theorem IsWalk.splice {before s after : List Qubit} {x y : Qubit}
    (h : c.IsWalk a b (before ++ s ++ after)) (hs : c.IsWalk x y s) (hq : c.IsWalk x y q) :
    c.IsWalk a b (before ++ q ++ after) := by
  obtain ⟨hhead, hlast, hchain⟩ := h
  have hs' := hs.ne_nil
  have hq' := hq.ne_nil
  refine ⟨?_, ?_, ?_⟩
  · rw [List.append_assoc] at hhead ⊢
    cases before with
    | nil =>
      rw [List.nil_append, List.head?_append_of_ne_nil _ hs', hs.head] at hhead
      rw [List.nil_append, List.head?_append_of_ne_nil _ hq', hq.head, hhead]
    | cons z before => exact hhead
  · cases after using List.reverseRecOn with
    | nil =>
      rw [List.append_nil, List.getLast?_append_of_ne_nil _ hs', hs.last] at hlast
      rw [List.append_nil, List.getLast?_append_of_ne_nil _ hq', hq.last, hlast]
    | append_singleton after z =>
      rw [← List.append_assoc, List.getLast?_concat] at hlast ⊢
      exact hlast
  · rw [List.isChain_append, List.isChain_append] at hchain ⊢
    obtain ⟨⟨hbefore, -, hfirst⟩, hafter, hsecond⟩ := hchain
    rw [hs.head] at hfirst
    rw [List.getLast?_append_of_ne_nil _ hs', hs.last] at hsecond
    rw [hq.head, List.getLast?_append_of_ne_nil _ hq', hq.last]
    exact ⟨⟨hbefore, hq.chain, hfirst⟩, hafter, hsecond⟩

namespace IsShortest

theorem reverse (hc : c.Connected) (h : c.IsShortest a b p) : c.IsShortest b a p.reverse where
  isRoute := h.isRoute.reverse hc
  length_le := fun q hq => by
    have hle := h.length_le q.reverse (hq.reverse hc)
    rwa [List.length_reverse] at hle ⊢

theorem of_infix {s : List Qubit} {x y : Qubit} (h : c.IsShortest a b p) (hs : s <:+: p)
    (hx : s.head? = some x) (hy : s.getLast? = some y) : c.IsShortest x y s where
  isRoute := h.isRoute.of_infix hs hx hy
  length_le := fun q hq => by
    have hseg := (h.isRoute.of_infix hs hx hy).isWalk
    obtain ⟨before, after, rfl⟩ := hs
    have hle := h.length_le _ (h.isRoute.isWalk.splice hseg hq)
    simp only [List.length_append] at hle
    omega

end IsShortest

/-! ## The table of distances -/

open QubitRouting.Graph (UnitWalk unitWalk_of_chain)

theorem unitWalk_of_isWalk (h : c.IsWalk a b q) : UnitWalk c.adjacent a q.reverse (q.length - 1) := by
  rw [← List.length_reverse]
  refine unitWalk_of_chain ?_ ?_
  · rw [List.getLast?_reverse, h.head]
  · rw [List.isChain_reverse]
    exact h.chain.imp fun _ _ hxy => mem_adjacent_iff.mpr hxy

theorem isWalk_of_unitWalk {rest : List Qubit} {k : Nat} (h : UnitWalk c.adjacent a (b :: rest) k) :
    c.IsWalk a b (b :: rest).reverse := by
  obtain ⟨hlast, hchain⟩ := h.isChain
  refine ⟨?_, ?_, ?_⟩
  · rw [List.head?_reverse, hlast]
  · rw [List.getLast?_reverse]
    rfl
  · rw [List.isChain_reverse]
    exact hchain.imp fun _ _ hxy => mem_adjacent_iff.mp hxy

/-- The distance of two qubits in the table is the number of links of a walk between them, and no walk has
fewer. -/
theorem Connected.distance_least (hc : c.Connected) (ha : a < c.numQubits) (hb : b < c.numQubits) :
    ∃ row d, c.distances[a]? = some row ∧ row[b]? = some (some d) ∧
      (∃ q, c.IsWalk a b q ∧ q.length = d + 1) ∧ ∀ q, c.IsWalk a b q → d + 1 ≤ q.length := by
  obtain ⟨row, d, hrow, hd⟩ := hc.distances_total ha hb
  refine ⟨row, d, hrow, hd, ?_⟩
  have hsucc : ∀ u < c.numQubits, ∀ v ∈ c.adjacent u, v < c.numQubits :=
    fun u _ v hv => (hc.lt (mem_adjacent_iff.mp hv)).2
  have hdist : c.distancesFrom a = row := by
    unfold distances at hrow
    rw [List.getElem?_toArray, List.getElem?_map, List.getElem?_range ha] at hrow
    exact Option.some.inj hrow
  rw [← hdist] at hd
  obtain ⟨⟨rest, hwalk⟩, hleast⟩ := Graph.hopsFrom_least hsucc ha hd
  refine ⟨⟨_, isWalk_of_unitWalk hwalk, ?_⟩, fun q hq => ?_⟩
  · rw [List.length_reverse, hwalk.length_eq]
  · have hunit := unitWalk_of_isWalk hq
    have hrev := (hq.reverse hc).head
    obtain ⟨rest', hrest'⟩ := List.head?_eq_some_iff.mp hrev
    rw [hrest'] at hunit
    have hle := hleast rest' _ hunit
    have hpos := List.length_pos_iff.mpr hq.ne_nil
    omega

/-- A shortest route has one node more than its ends are links apart. -/
theorem IsShortest.length_eq (hc : c.Connected) (h : c.IsShortest a b p) (ha : a < c.numQubits)
    (hb : b < c.numQubits) :
    ∃ row d, c.distances[a]? = some row ∧ row[b]? = some (some d) ∧ p.length = d + 1 := by
  obtain ⟨row, d, hrow, hd, ⟨q, hq, hlen⟩, hleast⟩ := hc.distance_least ha hb
  have hle := h.length_le q hq
  have hge := hleast p h.isRoute.isWalk
  exact ⟨row, d, hrow, hd, by omega⟩

end Coupling

end QubitRouting
