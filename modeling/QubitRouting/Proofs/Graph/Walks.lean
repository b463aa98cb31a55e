import QubitRouting.Fault
import QubitRouting.Proofs.Graph.Hops

/-!
# Distances are lengths of shortest walks

A *walk* follows arcs from a source and adds up their costs. It is written from its end backwards, as the
trails of a search are. If every arc costs one, a walk of cost `k` has `k + 1` vertices.

`hopsFrom` writes down, for each vertex, the least cost of such a walk (`hopsFrom_least`). The rings go
outwards: when ring `d` has been found, all walks of at most `d` arcs have been accounted for
(`Rings.Measured`).
-/

namespace QubitRouting.Graph

/-- Follow arcs from `source`, and pay for each. The vertices are listed from the last to the first. -/
inductive Walk (succ : Nat → List Nat) (cost : Nat → Nat → Except Fault Nat) (source : Nat) :
    List Nat → Nat → Prop where
  | start : Walk succ cost source [source] 0
  | step {u v x k : Nat} {rest : List Nat} (h : Walk succ cost source (u :: rest) k) (harc : v ∈ succ u)
      (hcost : cost u v = .ok x) : Walk succ cost source (v :: u :: rest) (k + x)

/-- Walks when every arc costs one. -/
abbrev UnitWalk (succ : Nat → List Nat) (source : Nat) : List Nat → Nat → Prop :=
  Walk succ (fun _ _ => .ok 1) source

variable {succ : Nat → List Nat} {source : Nat}

theorem UnitWalk.length_eq {nodes : List Nat} {k : Nat} (h : UnitWalk succ source nodes k) :
    nodes.length = k + 1 := by
  induction h with
  | start => rfl
  | step h _ hcost ih =>
    obtain rfl := Except.ok.inj hcost
    rw [List.length_cons, ih]

theorem UnitWalk.cons {u v k : Nat} {rest : List Nat} (h : UnitWalk succ source (u :: rest) k)
    (harc : v ∈ succ u) : UnitWalk succ source (v :: u :: rest) (k + 1) :=
  .step h harc rfl

theorem Walk.isChain {cost : Nat → Nat → Except Fault Nat} {nodes : List Nat} {k : Nat}
    (h : Walk succ cost source nodes k) :
    nodes.getLast? = some source ∧ nodes.IsChain fun v u => v ∈ succ u := by
  induction h with
  | start => exact ⟨rfl, .singleton _⟩
  | step _ harc _ ih =>
    rw [List.getLast?_cons_cons]
    exact ⟨ih.1, List.isChain_cons_cons.mpr ⟨harc, ih.2⟩⟩

/-- Vertices that follow arcs back to the source are a walk. -/
theorem unitWalk_of_chain : ∀ {nodes : List Nat}, nodes.getLast? = some source →
    (nodes.IsChain fun v u => v ∈ succ u) → UnitWalk succ source nodes (nodes.length - 1)
  | [], hlast, _ => by contradiction
  | [v], hlast, _ => by
    obtain rfl : v = source := by simpa using hlast
    exact .start
  | v :: u :: rest, hlast, hchain => by
    obtain ⟨harc, hchain⟩ := List.isChain_cons_cons.mp hchain
    rw [List.getLast?_cons_cons] at hlast
    exact (unitWalk_of_chain hlast hchain).cons harc

/-! ## Ring by ring -/

namespace Rings

/-- The rings up to distance `d` have been found, and the last one is ring `d`. -/
structure Measured (succ : Nat → List Nat) (n start d : Nat) (r : Rings) : Prop where
  size : r.hops.size = n
  le : ∀ v e : Nat, r.hops[v]? = some (some e) → e ≤ d
  walk : ∀ v e : Nat, r.hops[v]? = some (some e) → ∃ rest, UnitWalk succ start (v :: rest) e
  /-- Walks of at most `d` arcs have been accounted for. -/
  least : ∀ v rest k, UnitWalk succ start (v :: rest) k → k ≤ d →
    ∃ e, r.hops[v]? = some (some e) ∧ e ≤ k
  ring : ∀ v : Nat, v ∈ r.ring ↔ r.hops[v]? = some (some d)

/-- One more ring. -/
theorem Measured.next {n start d : Nat} {r : Rings} (hsucc : ∀ u < n, ∀ v ∈ succ u, v < n)
    (h : Measured succ n start d r) : Measured succ n start (d + 1) (r.next succ (d + 1)) := by
  have hhops := getElem?_next succ (d + 1) r
  have hkept : ∀ {v e : Nat}, r.hops[v]? = some (some e) → (r.next succ (d + 1)).hops[v]? = some (some e) := by
    intro v e he
    rw [hhops, if_neg (by simp [he]), he]
  have hcases : ∀ {v e : Nat}, (r.next succ (d + 1)).hops[v]? = some (some e) →
      r.hops[v]? = some (some e) ∨ e = d + 1 ∧ ∃ u ∈ r.ring, v ∈ succ u := by
    intro v e he
    rw [hhops] at he
    split at he
    next hnew =>
      obtain rfl : d + 1 = e := by simpa using he
      exact .inr ⟨rfl, List.mem_flatMap.mp hnew.2⟩
    next => exact .inl he
  refine ⟨?_, fun v e he => ?_, fun v e he => ?_, fun v rest k hwalk hk => ?_, fun v => ?_⟩
  · exact (size_next succ (d + 1) r).trans h.size
  · rcases hcases he with hold | ⟨rfl, -⟩
    · exact Nat.le_succ_of_le (h.le v e hold)
    · exact Nat.le_refl _
  · rcases hcases he with hold | ⟨rfl, u, hu, harc⟩
    · exact h.walk v e hold
    · obtain ⟨rest, hwalk⟩ := h.walk u d ((h.ring u).mp hu)
      exact ⟨u :: rest, hwalk.cons harc⟩
  · by_cases hshort : k ≤ d
    · obtain ⟨e, he, hle⟩ := h.least v rest k hwalk hshort
      exact ⟨e, hkept he, hle⟩
    · cases hwalk with
      | start => omega
      | @step u _ _ j rest' hu harc hcost =>
        obtain rfl := Except.ok.inj hcost
        obtain ⟨e, he, hle⟩ := h.least u rest' j hu (by omega)
        obtain ⟨rest₀, hu₀⟩ := h.walk u e he
        by_cases hinner : e < d
        · -- a shorter walk to `u` makes one to `v` that is not longer than `d`
          obtain ⟨e', he', hle'⟩ := h.least v _ (e + 1) (hu₀.cons harc) hinner
          exact ⟨e', hkept he', by omega⟩
        · obtain rfl : d = e := by omega
          have hv : v < n := hsucc u (h.size ▸ (Array.getElem?_eq_some_iff.mp he).1) v harc
          have hmem : v ∈ r.ring.flatMap succ := List.mem_flatMap.mpr ⟨u, (h.ring u).mpr he, harc⟩
          cases hold : r.hops[v]? with
          | none =>
            rw [Array.getElem?_eq_none_iff, h.size] at hold
            omega
          | some o =>
            cases o with
            | none => exact ⟨d + 1, by rw [hhops, if_pos ⟨hold, hmem⟩], by omega⟩
            | some e' => exact ⟨e', hkept hold, by have := h.le v e' hold; omega⟩
  · rw [mem_ring_next, hhops]
    constructor
    · intro hnew
      rw [if_pos hnew]
    · intro he
      split at he
      next hnew => exact hnew
      next =>
        have hle := h.le v _ he
        omega

/-- A distance is the least cost of a walk, as soon as it is written down. -/
theorem Measured.le_of_walk {n start d : Nat} {r : Rings} (h : Measured succ n start d r) {v e : Nat}
    (he : r.hops[v]? = some (some e)) {rest : List Nat} {k : Nat}
    (hwalk : UnitWalk succ start (v :: rest) k) : e ≤ k := by
  by_cases hk : k ≤ d
  · obtain ⟨e', he', hle⟩ := h.least v rest k hwalk hk
    obtain rfl : e = e' := by simpa [he] using he'
    exact hle
  · have hle := h.le v e he
    omega

theorem Measured.spread {n start : Nat} (hsucc : ∀ u < n, ∀ v ∈ succ u, v < n) :
    ∀ (count : Nat) {d : Nat} {r : Rings}, Measured succ n start d r →
    ∃ d' r', Measured succ n start d' r' ∧ Rings.spread succ count (d + 1) r = r'.hops
  | 0, d, r, h => ⟨d, r, h, rfl⟩
  | count + 1, d, r, h => by
    have hnext := h.next hsucc
    unfold Rings.spread
    dsimp only
    split
    next => exact ⟨d + 1, _, hnext, rfl⟩
    next => exact hnext.spread hsucc count

/-- Before the first ring only the start is known. -/
theorem measured_start {n start : Nat} (hstart : start < n) :
    Measured succ n start 0 (mark 0 ⟨Array.replicate n none, []⟩ start) := by
  obtain ⟨hhops, hring⟩ := mark_start hstart
  refine ⟨?_, fun v e he => ?_, fun v e he => ?_, fun v rest k hwalk hk => ?_, fun v => ?_⟩
  · rw [size_mark]
    exact Array.size_replicate
  · exact Nat.le_of_eq ((hhops v e).mp he).2
  · obtain ⟨rfl, rfl⟩ := (hhops v e).mp he
    exact ⟨[], .start⟩
  · have hlen := hwalk.length_eq
    cases hwalk with
    | start => exact ⟨0, (hhops start 0).mpr ⟨rfl, rfl⟩, Nat.le_refl 0⟩
    | step h _ hcost =>
      simp only [List.length_cons] at hlen
      omega
  · rw [hring, hhops]
    exact (and_iff_left rfl).symm

end Rings

/-- The distance of a vertex is the least cost of a walk to it, if every arc costs one. -/
theorem hopsFrom_least {n start v d : Nat} (hsucc : ∀ u < n, ∀ v ∈ succ u, v < n) (hstart : start < n)
    (hd : (hopsFrom succ n start)[v]? = some (some d)) :
    (∃ rest, UnitWalk succ start (v :: rest) d) ∧
      ∀ rest k, UnitWalk succ start (v :: rest) k → d ≤ k := by
  obtain ⟨d', r', hmeasured, hhops⟩ := (Rings.measured_start hstart).spread hsucc n
  unfold hopsFrom at hd
  rw [hhops] at hd
  exact ⟨hmeasured.walk v d hd, fun rest k => hmeasured.le_of_walk hd⟩

end QubitRouting.Graph
