import QubitRouting.Coupling
import QubitRouting.Proofs.Graph.Hops
import QubitRouting.Proofs.Sequencing.Joined
import Mathlib.Data.List.Chain

/-!
# Connected couplings and their routes

Every coupling that is built from links is symmetric, without loops, and connected
(`ofLinks_connected`). A *route* between two qubits follows links and visits no qubit twice. The swaps
that sequencing makes out of a route are between coupled qubits (`IsRoute.coupled_of_linkOf`).
-/

namespace QubitRouting

namespace Coupling

open QubitRouting.Graph (Reaches)

/-- The links go both ways and join different qubits, and any two qubits are joined by a walk. -/
structure Connected (c : Coupling) : Prop where
  pos : 0 < c.numQubits
  symm : ∀ {a b}, c.coupled a b = true → c.coupled b a = true
  irrefl : ∀ a, ¬ c.coupled a a = true
  lt : ∀ {a b}, c.coupled a b = true → a < c.numQubits ∧ b < c.numQubits
  reaches : ∀ {a b}, a < c.numQubits → b < c.numQubits → Reaches c.adjacent a b

theorem coupled_iff {c : Coupling} {a b : Qubit} : c.coupled a b = true ↔ (a, b) ∈ c.arcs := by
  simp [coupled]

theorem mem_adjacent_iff {c : Coupling} {a b : Qubit} :
    b ∈ c.adjacent a ↔ c.coupled a b = true := by
  rw [coupled_iff]
  unfold adjacent
  rw [List.mem_map]
  constructor
  · intro ⟨e, he, hb⟩
    obtain ⟨hmem, ha⟩ := List.mem_filter.mp he
    rw [List.mem_reverse] at hmem
    rwa [← hb, ← beq_iff_eq.mp ha]
  · intro h
    exact ⟨(a, b), List.mem_filter.mpr ⟨List.mem_reverse.mpr h, beq_self_eq_true a⟩, rfl⟩

theorem mem_neighbors_iff {c : Coupling} {a b : Qubit} :
    b ∈ c.neighbors a ↔ c.coupled a b = true := by
  unfold neighbors
  rw [mem_sortBy, mem_adjacent_iff]

/-- Adding links keeps the arcs symmetric, in range and without loops. -/
theorem addLink_arcs {n : Nat} {arcs arcs' : List (Qubit × Qubit)} {e : Qubit × Qubit}
    (h : addLink n arcs e = .ok arcs')
    (harcs : ∀ a b, (a, b) ∈ arcs → a < n ∧ b < n ∧ a ≠ b ∧ (b, a) ∈ arcs) :
    ∀ a b, (a, b) ∈ arcs' → a < n ∧ b < n ∧ a ≠ b ∧ (b, a) ∈ arcs' := by
  unfold addLink at h
  split at h
  next => contradiction
  next hrange =>
    split at h
    next => contradiction
    next hne =>
      obtain rfl := Except.ok.inj h
      obtain ⟨x, y⟩ := e
      have hx : x < n := Nat.lt_of_not_le fun hx => hrange (.inl hx)
      have hy : y < n := Nat.lt_of_not_le fun hy => hrange (.inr hy)
      intro a b hab
      simp only [Graph.mem_addArc_iff] at hab ⊢
      rcases hab with (hab | hab) | hab
      · obtain ⟨ha, hb, hne', hba⟩ := harcs a b hab
        exact ⟨ha, hb, hne', .inl (.inl hba)⟩
      · obtain ⟨rfl, rfl⟩ := Prod.mk.inj hab
        exact ⟨hx, hy, hne, .inr rfl⟩
      · obtain ⟨rfl, rfl⟩ := Prod.mk.inj hab
        exact ⟨hy, hx, Ne.symm hne, .inl (.inr rfl)⟩

/-- Every qubit has a distance from qubit zero if and only if it can be reached from there. -/
theorem isConnected_iff {c : Coupling} (hpos : 0 < c.numQubits)
    (hlt : ∀ {a b}, c.coupled a b = true → a < c.numQubits ∧ b < c.numQubits) :
    c.isConnected = true ↔ ∀ b < c.numQubits, Reaches c.adjacent 0 b := by
  have hsucc : ∀ u < c.numQubits, ∀ v ∈ c.adjacent u, v < c.numQubits :=
    fun u _ v hv => (hlt (mem_adjacent_iff.mp hv)).2
  have hsize : (c.distancesFrom 0).size = c.numQubits := Graph.size_hopsFrom c.adjacent c.numQubits 0
  have hmarked := Graph.hopsFrom_marked_iff hsucc hpos
  unfold isConnected
  rw [Array.all_eq_true]
  constructor
  · intro hall b hb
    rw [← hmarked]
    obtain ⟨d, hd⟩ := Option.isSome_iff_exists.mp (hall b (hsize ▸ hb))
    exact ⟨d, by rw [← hd]; exact Array.getElem?_eq_getElem _⟩
  · intro hall b hb
    obtain ⟨d, hd⟩ := (hmarked b).mpr (hall b (hsize ▸ hb))
    obtain ⟨hlt', hd⟩ := Array.getElem?_eq_some_iff.mp hd
    exact Option.isSome_iff_exists.mpr ⟨d, hd⟩

theorem ofLinks_connected {n : Nat} {links : List (Qubit × Qubit)} {c : Coupling}
    (h : ofLinks n links = .ok c) : c.Connected := by
  unfold ofLinks at h
  split at h
  next => contradiction
  next hn =>
    obtain ⟨arcs, hfold, h⟩ := bind_eq_ok_iff.mp h
    have harcs : ∀ a b, (a, b) ∈ arcs → a < n ∧ b < n ∧ a ≠ b ∧ (b, a) ∈ arcs :=
      foldlM_invariant hfold
        (fun _ arcs => ∀ a b, (a, b) ∈ arcs → a < n ∧ b < n ∧ a ≠ b ∧ (b, a) ∈ arcs)
        (fun _ _ h => absurd h List.not_mem_nil)
        fun _ _ _ _ _ _ hold hadd => addLink_arcs hadd hold
    dsimp only at h
    split at h
    next hconn =>
      obtain rfl := Except.ok.inj h
      have hpos : 0 < n := Nat.pos_of_ne_zero hn
      have hsymm : ∀ {a b}, coupled ⟨n, arcs⟩ a b = true → coupled ⟨n, arcs⟩ b a = true :=
        fun h => coupled_iff.mpr (harcs _ _ (coupled_iff.mp h)).2.2.2
      have hlt : ∀ {a b}, coupled ⟨n, arcs⟩ a b = true → a < n ∧ b < n := fun h =>
        ⟨(harcs _ _ (coupled_iff.mp h)).1, (harcs _ _ (coupled_iff.mp h)).2.1⟩
      -- everything is reached from qubit zero, and the way back exists by symmetry
      have hzero : ∀ b < n, Reaches (adjacent ⟨n, arcs⟩) 0 b := (isConnected_iff hpos hlt).mp hconn
      have hback : ∀ {a b}, Reaches (adjacent ⟨n, arcs⟩) a b →
          Reaches (adjacent ⟨n, arcs⟩) b a := by
        intro a b h
        induction h with
        | refl => exact .refl
        | tail _ hxy ih => exact .head (mem_adjacent_iff.mpr (hsymm (mem_adjacent_iff.mp hxy))) ih
      exact ⟨hpos, hsymm, fun a h => (harcs a a (coupled_iff.mp h)).2.2.1 rfl, hlt,
        fun ha hb => (hback (hzero _ ha)).trans (hzero _ hb)⟩
    next => contradiction

theorem numQubits_ofLinks {n : Nat} {links : List (Qubit × Qubit)} {c : Coupling}
    (h : ofLinks n links = .ok c) : c.numQubits = n := by
  unfold ofLinks at h
  split at h
  next => contradiction
  next =>
    obtain ⟨arcs, -, h⟩ := bind_eq_ok_iff.mp h
    dsimp only at h
    split at h
    next =>
      obtain rfl := Except.ok.inj h
      rfl
    next => contradiction

/-! ## The tables of a coupling -/

theorem Connected.adjacency_eq {c : Coupling} (hc : c.Connected) (q : Qubit) :
    c.adjacency[q]?.getD [] = c.adjacent q := by
  unfold adjacency
  rw [List.getElem?_toArray, List.getElem?_map]
  by_cases hq : q < c.numQubits
  · rw [List.getElem?_range hq]
    rfl
  · rw [List.getElem?_eq_none (by simpa using hq)]
    refine (List.eq_nil_iff_forall_not_mem.mpr fun b hb => ?_).symm
    exact hq (hc.lt (mem_adjacent_iff.mp hb)).1

/-- Any two qubits have a distance in the table. -/
theorem Connected.distances_total {c : Coupling} (hc : c.Connected) {a b : Qubit}
    (ha : a < c.numQubits) (hb : b < c.numQubits) :
    ∃ row d, c.distances[a]? = some row ∧ row[b]? = some (some d) := by
  have hsucc : ∀ u < c.numQubits, ∀ v ∈ c.adjacent u, v < c.numQubits :=
    fun u _ v hv => (hc.lt (mem_adjacent_iff.mp hv)).2
  obtain ⟨d, hd⟩ := (Graph.hopsFrom_marked_iff hsucc ha b).mpr (hc.reaches ha hb)
  refine ⟨c.distancesFrom a, d, ?_, hd⟩
  unfold distances
  rw [List.getElem?_toArray, List.getElem?_map, List.getElem?_range ha]
  rfl

/-! ## Routes -/

/-- A path along links from `a` to `b` that visits no qubit twice. -/
structure IsRoute (c : Coupling) (a b : Qubit) (p : List Qubit) : Prop where
  head : p.head? = some a
  last : p.getLast? = some b
  nodup : p.Nodup
  chain : p.IsChain fun x y => c.coupled x y = true

namespace IsRoute

variable {c : Coupling} {a b : Qubit} {p : List Qubit}

theorem ne_nil (h : c.IsRoute a b p) : p ≠ [] := by
  intro hnil
  have := h.head
  simp [hnil] at this

theorem reverse (hc : c.Connected) (h : c.IsRoute a b p) : c.IsRoute b a p.reverse where
  head := by rw [List.head?_reverse, h.last]
  last := by rw [List.getLast?_reverse, h.head]
  nodup := List.nodup_reverse.mpr h.nodup
  chain := by
    rw [List.isChain_reverse]
    exact h.chain.imp fun _ _ hxy => hc.symm hxy

/-- A segment of a route is a route between its own ends. -/
theorem of_infix {s : List Qubit} {x y : Qubit} (h : c.IsRoute a b p) (hs : s <:+: p)
    (hx : s.head? = some x) (hy : s.getLast? = some y) : c.IsRoute x y s where
  head := hx
  last := hy
  nodup := h.nodup.sublist hs.sublist
  chain := List.IsChain.infix h.chain hs

/-- A route between different qubits has at least two nodes, and three if they are not coupled. -/
theorem two_le_length (h : c.IsRoute a b p) (hab : a ≠ b) : 2 ≤ p.length := by
  match p, h with
  | [], h => exact absurd rfl h.ne_nil
  | [x], h =>
    have hxa : x = a := by simpa using h.head
    have hxb : x = b := by simpa using h.last
    exact absurd (hxa.symm.trans hxb) hab
  | x :: y :: p, _ => simp

theorem three_le_length (h : c.IsRoute a b p) (hab : a ≠ b) (hnot : ¬ c.coupled a b = true) :
    3 ≤ p.length := by
  match p, h with
  | [], h => exact absurd rfl h.ne_nil
  | [x], h => exact absurd (h.two_le_length hab) (by simp)
  | [x, y], h =>
    obtain rfl : x = a := by simpa using h.head
    obtain rfl : y = b := by simpa using h.last
    exact absurd (List.isChain_cons_cons.mp h.chain).1 hnot
  | x :: y :: z :: p, _ => simp

/-- A node of a route is the first one or has a link. -/
theorem lt_numQubits (hc : c.Connected) (h : c.IsRoute a b p) (ha : a < c.numQubits) :
    ∀ x ∈ p, x < c.numQubits := by
  have hchain : ∀ (l : List Qubit), (l.IsChain fun x y => c.coupled x y = true) →
      (∀ x, l.head? = some x → x < c.numQubits) → ∀ x ∈ l, x < c.numQubits := by
    intro l
    induction l with
    | nil => exact fun _ _ x hx => absurd hx List.not_mem_nil
    | cons y l ih =>
      intro hl hy x hx
      rcases List.mem_cons.mp hx with rfl | hx
      · exact hy x rfl
      · refine ih hl.tail (fun z hz => ?_) x hx
        obtain ⟨rest, rfl⟩ := List.head?_eq_some_iff.mp hz
        exact (hc.lt (List.isChain_cons_cons.mp hl).1).2
  refine hchain p h.chain fun x hx => ?_
  rw [h.head] at hx
  rwa [← Option.some.inj hx]

theorem length_le (hc : c.Connected) (h : c.IsRoute a b p) (ha : a < c.numQubits) :
    p.length ≤ c.numQubits := by
  have hsub : p ⊆ List.range c.numQubits := fun x hx =>
    List.mem_range.mpr (h.lt_numQubits hc ha x hx)
  simpa using (List.subperm_of_subset h.nodup hsub).length_le

/-- Nodes that follow one another on a route are coupled. -/
theorem coupled_of_infix (h : c.IsRoute a b p) {x y : Qubit} (hxy : [x, y] <:+: p) :
    c.coupled x y = true := by
  have hchain := List.IsChain.infix h.chain hxy
  exact (List.isChain_cons_cons.mp hchain).1

theorem coupled_of_linkOf (hc : c.Connected) (h : c.IsRoute a b p) {s : Swap} (hs : LinkOf p s) :
    c.coupled s.1 s.2 = true := by
  rcases hs with hs | hs
  · exact h.coupled_of_infix hs
  · exact hc.symm (h.coupled_of_infix hs)

end IsRoute

end Coupling

end QubitRouting
