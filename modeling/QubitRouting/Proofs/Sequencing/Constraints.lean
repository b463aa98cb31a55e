import QubitRouting.Proofs.Graph.Parts
import QubitRouting.Proofs.Sequencing.Termination

/-!
# Bringing paths into order

A path that is cut at a crossing has to wait for the path that it crosses there. `Plan.order` turns every plan
into one in which the slots respect all of these constraints, and does no more than it takes: a plan whose
slots respect them stays as it is, and if there is an order that does, that is, if no path waits for itself
round a cycle, then paths only change slots (`order_respects_constraints`).

The constraints of a plan are the relation `Plan.MustPrecede`. The search for cycles works on the lists
`Precedence.after` instead, which have the same arcs (`mustPrecede_iff`); where the relation has no cycle the
search finds none, and the loop ends without breaking one.
-/

namespace QubitRouting

namespace Plan

/-- The path in slot `j` has to run before the one in slot `i`, which is cut where the two cross. -/
def MustPrecede (p : Plan) (j i : PathId) : Prop :=
  ∃ s sp, p.registry.slot? i = some s ∧ p.split? i = some sp ∧
    ∃ c ∈ s.crossings, c.path = j ∧ ∃ x ∈ c.overlap, sp.boundAt x = true

/-- No path has to run before itself, by way of others. -/
def Acyclic (p : Plan) : Prop :=
  ∀ i, ¬ Relation.TransGen p.MustPrecede i i

section Constraints

variable {p : Plan} (hp : p.Sound) {arcs : List Precedence} (harcs : p.precedences = .ok arcs)
include hp harcs

/-- The arcs that the search for cycles follows are the constraints. -/
theorem mustPrecede_iff {j i : PathId} : p.MustPrecede j i ↔ i ∈ Precedence.after arcs j := by
  rw [mem_after_iff]
  constructor
  · intro ⟨s, sp, hs, hsp, c, hc, hj, x, hx, hb⟩
    exact ⟨⟨j, i, x⟩, (mem_precedences_iff hp harcs).mpr ⟨s, sp, hs, hsp, c, hc, hj, hx, hb⟩, rfl, rfl⟩
  · rintro ⟨a, ha, rfl, rfl⟩
    obtain ⟨s, sp, hs, hsp, c, hc, hfirst, hx, hb⟩ := (mem_precedences_iff hp harcs).mp ha
    exact ⟨s, sp, hs, hsp, c, hc, hfirst, a.node, hx, hb⟩

/-- Without a cycle of constraints the search finds none. -/
theorem Acyclic.firstCycle?_eq_none (hacyclic : p.Acyclic) :
    Graph.firstCycle? (Precedence.after arcs) p.registry.ids = none := by
  refine Graph.firstCycle?_of_acyclic (closedUnder_after hp harcs) p.registry.ids_nodup ?_
  intro v _ w hvw hback
  have hreach : Relation.ReflTransGen p.MustPrecede w v :=
    Relation.ReflTransGen.mono (fun _ _ => (mustPrecede_iff hp harcs).mpr) _ _ hback
  exact hacyclic v (.head' ((mustPrecede_iff hp harcs).mpr hvw) hreach)

end Constraints

/-- If the constraints have no cycle, the loop ends at once. -/
theorem order_of_acyclic {p : Plan} (hp : p.Sound) (hacyclic : p.Acyclic) :
    ∃ p' σ, p.order = .ok p' ∧ Rearranged p p' σ := by
  rcases orderEnd_or_orderTurn hp with ⟨p', hend, -⟩ | ⟨p', arcs, cycle, harcs, -, hcycle, -⟩
  · obtain ⟨σ, hre⟩ := hend.rearranged hp
    exact ⟨p', σ, orderWithin_succ_iff.mpr (.inl hend), hre⟩
  · rw [hacyclic.firstCycle?_eq_none hp harcs] at hcycle
    contradiction

/-- What bringing the paths of `p` into order does. -/
structure BroughtIntoOrder (p p' : Plan) : Prop where
  aligned : p'.Aligned
  paths_subset : p'.registry.paths ⊆ p.registry.paths
  /-- A path that is cut at a crossing has a larger number than the one that it crosses there. -/
  ordered : p'.Ordered
  unchanged : p.Ordered → p' = p
  /-- Where there is no cycle, every path is kept and every cut stays; only the slots are others. -/
  rearranged : p.Acyclic → ∃ σ, Rearranged p p' σ

/-- The paths of a plan are always brought into an order that respects all constraints. -/
theorem order_respects_constraints {p : Plan} (hreach : p.registry.Reachable) (haligned : p.Aligned) :
    ∃ p', p.order = .ok p' ∧ p.BroughtIntoOrder p' := by
  have hp : p.Sound := ⟨hreach.valid, haligned⟩
  obtain ⟨p', h, hfollows, hordered⟩ := order_total hp
  refine ⟨p', h, hfollows.sound.aligned, hfollows.paths_subset, hordered, fun hbefore => ?_,
    fun hacyclic => ?_⟩
  · exact Except.ok.inj (h.symm.trans (order_of_ordered hp hbefore))
  · obtain ⟨q, σ, hq, hre⟩ := order_of_acyclic hp hacyclic
    obtain rfl : p' = q := Except.ok.inj (h.symm.trans hq)
    exact ⟨σ, hre⟩

/-- A short path in front of a longer one. Only the short one is cut where the two cross. -/
def shortCut : Plan where
  registry := (Registry.empty.insert [5, 2, 6]).insert [0, 1, 2, 3, 4]
  splits := [some ⟨[5], [2, 6]⟩, some ⟨[0], [1, 2, 3, 4]⟩]

theorem reachable_shortCut : shortCut.registry.Reachable := by
  have hshort : Registry.empty.add? [5, 2, 6] = some (Registry.empty.insert [5, 2, 6]) := by decide
  have hlong : (Registry.empty.insert [5, 2, 6]).add? [0, 1, 2, 3, 4] = some shortCut.registry := by decide
  exact .add (.add .empty hshort) hlong

theorem sound_shortCut : shortCut.Sound := by
  -- the long path was cut in the middle, and its cut has moved off the crossing
  have hsplit : (start shortCut.registry).split? 1 = some ⟨[1, 0], [2, 3, 4]⟩ := by decide
  have hshift : Split.shift? ⟨[1, 0], [2, 3, 4]⟩ 2 ((start shortCut.registry).isFree 1) =
      some ⟨[0], [1, 2, 3, 4]⟩ := by decide
  exact (sound_start reachable_shortCut.valid).shift hsplit hshift

theorem acyclic_shortCut : shortCut.Acyclic := by
  have harcs : shortCut.precedences = .ok [⟨1, 0, 2⟩] := by decide
  have honly : ∀ j i, shortCut.MustPrecede j i → j = 1 ∧ i = 0 := by
    intro j i h
    obtain ⟨a, ha, rfl, rfl⟩ := mem_after_iff.mp ((mustPrecede_iff sound_shortCut harcs).mp h)
    obtain rfl := List.mem_singleton.mp ha
    exact ⟨rfl, rfl⟩
  intro i hcycle
  obtain ⟨j, hfirst, -⟩ := Relation.TransGen.head'_iff.mp hcycle
  obtain ⟨k, -, hlast⟩ := Relation.TransGen.tail'_iff.mp hcycle
  exact absurd ((honly i j hfirst).1.symm.trans (honly k i hlast).2) (by decide)

/-- The long path has to run first, so the two change places, each with its cut. -/
theorem shortCut_brought_into_order : shortCut.registry.Reachable ∧ shortCut.Aligned ∧
    shortCut.Acyclic ∧ ∃ p', shortCut.order = .ok p' ∧ shortCut.BroughtIntoOrder p' ∧
      p'.registry.paths = [[0, 1, 2, 3, 4], [5, 2, 6]] ∧
      p'.splits = [some ⟨[0], [1, 2, 3, 4]⟩, some ⟨[5], [2, 6]⟩] := by
  obtain ⟨p', h, hin⟩ := order_respects_constraints reachable_shortCut sound_shortCut.aligned
  refine ⟨reachable_shortCut, sound_shortCut.aligned, acyclic_shortCut, p', h, hin, ?_⟩
  have hresult : shortCut.order.map (fun p => (p.registry.paths, p.splits)) =
      .ok ([[0, 1, 2, 3, 4], [5, 2, 6]], [some ⟨[0], [1, 2, 3, 4]⟩, some ⟨[5], [2, 6]⟩]) := by decide
  rw [h] at hresult
  exact Prod.mk.inj (Except.ok.inj hresult)

end Plan

end QubitRouting
