import QubitRouting.Proofs.Coupling.Shortest

/-!
# Distances are a metric

The table of distances has an entry for any two qubits, and the entry is the number of links of a walk that no
other walk between the two undercuts (`IsDistance`). Whatever one expects of a distance follows from what can be
done with walks: a walk can be turned round, and two of them can be joined where one ends and the other
starts. A walk without links stays where it is, and a walk with one link is that link.

A walk that comes back to a qubit can leave out what lies between (`IsWalk.nodup_of_least`). So a shortest walk
visits every qubit at most once, and a distance is below the number of qubits.

`distances_metric` says all this of every coupling that is built from links.
-/

namespace QubitRouting

namespace Coupling

variable {c : Coupling} {a b m : Qubit} {p q : List Qubit}

/-! ## Walks -/

theorem isWalk_singleton (c : Coupling) (a : Qubit) : c.IsWalk a a [a] :=
  ⟨rfl, rfl, .singleton a⟩

theorem isWalk_pair (h : c.coupled a b = true) : c.IsWalk a b [a, b] :=
  ⟨rfl, rfl, List.isChain_cons_cons.mpr ⟨h, .singleton b⟩⟩

namespace IsWalk

theorem of_infix {s : List Qubit} {x y : Qubit} (h : c.IsWalk a b q) (hs : s <:+: q)
    (hx : s.head? = some x) (hy : s.getLast? = some y) : c.IsWalk x y s :=
  ⟨hx, hy, List.IsChain.infix h.chain hs⟩

/-- A walk without links stays where it is. -/
theorem eq_of_length_one (h : c.IsWalk a b q) (hlen : q.length = 1) : a = b := by
  obtain ⟨x, rfl⟩ := List.length_eq_one_iff.mp hlen
  have hxa : x = a := by simpa using h.head
  have hxb : x = b := by simpa using h.last
  exact hxa.symm.trans hxb

/-- A walk with one link is that link. -/
theorem coupled_of_length_two (h : c.IsWalk a b q) (hlen : q.length = 2) : c.coupled a b = true := by
  obtain ⟨x, y, rfl⟩ := List.length_eq_two.mp hlen
  obtain rfl : x = a := by simpa using h.head
  obtain rfl : y = b := by simpa using h.last
  exact (List.isChain_cons_cons.mp h.chain).1

/-- A walk can be continued by another one that starts where it ends. -/
theorem append (h : c.IsWalk a m p) (h' : c.IsWalk m b (m :: q)) : c.IsWalk a b (p ++ q) := by
  refine ⟨?_, ?_, ?_⟩
  · rw [List.head?_append_of_ne_nil _ h.ne_nil, h.head]
  · cases q with
    | nil =>
      obtain rfl : m = b := by simpa using h'.last
      rw [List.append_nil, h.last]
    | cons x q =>
      rw [List.getLast?_append_of_ne_nil _ (List.cons_ne_nil x q), ← List.getLast?_cons_cons]
      exact h'.last
  · rw [List.isChain_append]
    refine ⟨h.chain, h'.chain.tail, fun x hx y hy => ?_⟩
    rw [h.last] at hx
    obtain rfl : m = x := Option.some.inj hx
    obtain ⟨q', rfl⟩ := List.head?_eq_some_iff.mp hy
    exact (List.isChain_cons_cons.mp h'.chain).1

/-- A walk of the least length visits no qubit twice: it could leave out what lies between the two visits. -/
theorem nodup_of_least (h : c.IsWalk a b q) (hleast : ∀ p, c.IsWalk a b p → q.length ≤ p.length) :
    q.Nodup := by
  rw [List.nodup_iff_sublist]
  intro x hx
  obtain ⟨l, r, rfl, hxl, hxr⟩ := List.cons_sublist_iff.mp hx
  obtain ⟨before, between, rfl⟩ := List.append_of_mem hxl
  obtain ⟨between', after, rfl⟩ := List.append_of_mem (List.singleton_sublist.mp hxr)
  have hsplit : before ++ x :: between ++ (between' ++ x :: after) =
      before ++ (x :: (between ++ between') ++ [x]) ++ after := by simp
  rw [hsplit] at h hleast
  have hround : c.IsWalk x x (x :: (between ++ between') ++ [x]) :=
    h.of_infix ⟨before, after, rfl⟩ rfl List.getLast?_concat
  have hle := hleast _ (h.splice hround (isWalk_singleton c x))
  simp only [List.length_append, List.length_cons, List.length_nil] at hle
  omega

end IsWalk

/-! ## The least number of links -/

/-- The least number of links of any walk from `a` to `b`. -/
structure IsDistance (c : Coupling) (a b : Qubit) (d : Nat) : Prop where
  attained : ∃ q, c.IsWalk a b q ∧ q.length = d + 1
  least : ∀ q, c.IsWalk a b q → d + 1 ≤ q.length

namespace IsDistance

variable {d d' : Nat}

theorem unique (h : c.IsDistance a b d) (h' : c.IsDistance a b d') : d = d' := by
  obtain ⟨q, hq, hlen⟩ := h.attained
  obtain ⟨q', hq', hlen'⟩ := h'.attained
  have hle := h.least q' hq'
  have hle' := h'.least q hq
  omega

theorem symm (hc : c.Connected) (h : c.IsDistance a b d) : c.IsDistance b a d := by
  obtain ⟨q, hq, hlen⟩ := h.attained
  refine ⟨⟨q.reverse, hq.reverse hc, by rw [List.length_reverse, hlen]⟩, fun p hp => ?_⟩
  rw [← List.length_reverse]
  exact h.least p.reverse (hp.reverse hc)

theorem eq_zero_iff (h : c.IsDistance a b d) : d = 0 ↔ a = b := by
  constructor
  · rintro rfl
    obtain ⟨q, hq, hlen⟩ := h.attained
    exact hq.eq_of_length_one hlen
  · rintro rfl
    have hle := h.least [a] (isWalk_singleton c a)
    rw [List.length_singleton] at hle
    omega

theorem eq_one_iff (hc : c.Connected) (h : c.IsDistance a b d) : d = 1 ↔ c.coupled a b = true := by
  constructor
  · rintro rfl
    obtain ⟨q, hq, hlen⟩ := h.attained
    exact hq.coupled_of_length_two hlen
  · intro hab
    have hle : d + 1 ≤ 2 := h.least [a, b] (isWalk_pair hab)
    -- the two are different, since no qubit is coupled to itself
    have hne : d ≠ 0 := by
      intro hzero
      obtain rfl := h.eq_zero_iff.mp hzero
      exact hc.irrefl a hab
    omega

theorem triangle {e : Nat} (h : c.IsDistance a b d) (h₁ : c.IsDistance a m d') (h₂ : c.IsDistance m b e) :
    d ≤ d' + e := by
  obtain ⟨p, hp, hplen⟩ := h₁.attained
  obtain ⟨q, hq, hqlen⟩ := h₂.attained
  obtain ⟨q', rfl⟩ := List.head?_eq_some_iff.mp hq.head
  have hle := h.least _ (hp.append hq)
  rw [List.length_append] at hle
  rw [List.length_cons] at hqlen
  omega

theorem lt_numQubits (hc : c.Connected) (h : c.IsDistance a b d) (ha : a < c.numQubits) :
    d < c.numQubits := by
  obtain ⟨q, hq, hlen⟩ := h.attained
  have hnodup : q.Nodup := hq.nodup_of_least fun p hp => hlen ▸ h.least p hp
  have hroute : c.IsRoute a b q := ⟨hq.head, hq.last, hnodup, hq.chain⟩
  have hle := hroute.length_le hc ha
  omega

end IsDistance

/-! ## The table -/

/-- The entry of the table of distances for two qubits, if there is one and it has been filled in. -/
def distance? (c : Coupling) (a b : Qubit) : Option Nat :=
  c.distances[a]?.bind fun row => row[b]?.join

theorem Connected.distance?_eq (hc : c.Connected) (ha : a < c.numQubits) (hb : b < c.numQubits) :
    ∃ d, c.distance? a b = some d ∧ c.IsDistance a b d := by
  obtain ⟨row, d, hrow, hd, hwalk, hleast⟩ := hc.distance_least ha hb
  refine ⟨d, ?_, hwalk, hleast⟩
  unfold distance?
  rw [hrow]
  show row[b]?.join = some d
  rw [hd]
  rfl

/-- The table has a row for each qubit, with an entry for each qubit. -/
theorem size_distances (c : Coupling) :
    c.distances.size = c.numQubits ∧ ∀ row ∈ c.distances, row.size = c.numQubits := by
  unfold distances
  refine ⟨by rw [List.size_toArray, List.length_map, List.length_range], fun row hrow => ?_⟩
  rw [List.mem_toArray] at hrow
  obtain ⟨q, -, rfl⟩ := List.mem_map.mp hrow
  exact Graph.size_hopsFrom c.adjacent c.numQubits q

/-- Any two qubits of a coupling have a distance in its table. It is the least number of links of any walk
between them, and below the number of qubits. The distances are symmetric, zero between a qubit and itself
alone, one between coupled qubits alone, and no detour is shorter. -/
theorem distances_metric {n : Nat} {links : List (Qubit × Qubit)} {c : Coupling}
    (h : ofLinks n links = .ok c) :
    (c.distances.size = n ∧ ∀ row ∈ c.distances, row.size = n) ∧
    ∃ dist : Qubit → Qubit → Nat, ∀ a < n, ∀ b < n,
      c.distance? a b = some (dist a b) ∧ dist a b < n ∧
      (∃ q, c.IsWalk a b q ∧ q.length = dist a b + 1) ∧
      (∀ q, c.IsWalk a b q → dist a b + 1 ≤ q.length) ∧
      dist a b = dist b a ∧ (dist a b = 0 ↔ a = b) ∧ (dist a b = 1 ↔ c.coupled a b = true) ∧
      ∀ m < n, dist a b ≤ dist a m + dist m b := by
  have hc := ofLinks_connected h
  obtain rfl : c.numQubits = n := numQubits_ofLinks h
  have hentry : ∀ a < c.numQubits, ∀ b < c.numQubits,
      c.distance? a b = some ((c.distance? a b).getD 0) ∧
        c.IsDistance a b ((c.distance? a b).getD 0) := by
    intro a ha b hb
    obtain ⟨d, hd, hdist⟩ := hc.distance?_eq ha hb
    rw [hd]
    exact ⟨rfl, hdist⟩
  refine ⟨c.size_distances, fun a b => (c.distance? a b).getD 0, fun a ha b hb => ?_⟩
  obtain ⟨hd, hdist⟩ := hentry a ha b hb
  refine ⟨hd, hdist.lt_numQubits hc ha, hdist.attained, hdist.least, ?_, hdist.eq_zero_iff,
    hdist.eq_one_iff hc, fun m hm => ?_⟩
  · exact hdist.unique ((hentry b hb a ha).2.symm hc)
  · exact hdist.triangle (hentry a ha m hm).2 (hentry m hm b hb).2

/-- Four qubits in a closed chain. -/
def square : Coupling :=
  ⟨4, [(0, 1), (1, 0), (1, 2), (2, 1), (2, 3), (3, 2), (3, 0), (0, 3)]⟩

/-- One of the links is listed twice. Opposite corners are two links apart, whichever way one goes. -/
theorem square_metric : ofLinks 4 [(0, 1), (1, 2), (2, 3), (3, 0), (1, 0)] = .ok square ∧
    square.distance? 0 2 = some 2 ∧ (∀ q, square.IsWalk 0 2 q → 3 ≤ q.length) ∧
    ¬ square.coupled 0 2 = true := by
  have hbuilt : ofLinks 4 [(0, 1), (1, 2), (2, 3), (3, 0), (1, 0)] = .ok square := by decide +kernel
  have htwo : square.distance? 0 2 = some 2 := by decide +kernel
  obtain ⟨-, dist, hdist⟩ := distances_metric hbuilt
  obtain ⟨hentry, -, -, hleast, -, -, hone, -⟩ := hdist 0 (by omega) 2 (by omega)
  have heq : dist 0 2 = 2 := Option.some.inj (hentry.symm.trans htwo)
  rw [heq] at hleast hone
  exact ⟨hbuilt, htwo, hleast, fun hcoupled => absurd (hone.mpr hcoupled) (by omega)⟩

end Coupling

end QubitRouting
