import QubitRouting.Proofs.Registry.Coherent
import QubitRouting.Proofs.Sequencing.Joined
import Mathlib.Logic.Relation

/-!
# Sequencing ends and leaves a path

The two loops of sequencing carry a bound on their turns, and give up with a fault when it is used up.
The bound is no more than that: a loop that has come to an end gives the same answer with every larger
bound (`resolveWithin_mono`, `orderWithin_mono`), and it does come to an end within its own one.

A turn is a step between plans, `Plan.ResolveTurn` in the first loop and `Plan.OrderTurn` in the second.
Each keeps a plan sound, so all plans that the loops pass through are (`Visited.sound`): whatever slot,
split or counter a turn uses next is there. Only a turn that finds several paths discards one, so the
last path stays.
-/

namespace QubitRouting

theorem Registry.Valid.size_remove {r r' : Registry} (hr : r.Valid) {id : PathId}
    (h : r.remove id = .ok r') : r'.size + 1 = r.size := by
  rw [(hr.remove h).size_eq, hr.size_eq]
  exact Registry.length_ids_remove h

namespace Plan

/-! ## More turns change nothing -/

theorem resolveWithin_mono {p' : Plan} : ∀ {turns turns' : Nat} {settled : List Qubit} {p : Plan},
    turns ≤ turns' → resolveWithin turns settled p = .ok p' →
    resolveWithin turns' settled p = .ok p'
  | 0, _, _, _, _, h => by contradiction
  | turns + 1, turns' + 1, settled, p, hle, h => by
    rcases resolveWithin_succ_iff.mp h with hend | ⟨b, hturn, h⟩
    · exact resolveWithin_succ_iff.mpr (.inl hend)
    · have hrest := resolveWithin_mono (Nat.le_of_succ_le_succ hle) h
      exact resolveWithin_succ_iff.mpr (.inr ⟨b, hturn, hrest⟩)

theorem orderWithin_mono {p' : Plan} : ∀ {turns turns' : Nat} {p : Plan},
    turns ≤ turns' → orderWithin turns p = .ok p' → orderWithin turns' p = .ok p'
  | 0, _, _, _, h => by contradiction
  | turns + 1, turns' + 1, p, hle, h => by
    rcases orderWithin_succ_iff.mp h with hend | ⟨q, hturn, h⟩
    · exact orderWithin_succ_iff.mpr (.inl hend)
    · have hrest := orderWithin_mono (Nat.le_of_succ_le_succ hle) h
      exact orderWithin_succ_iff.mpr (.inr ⟨q, hturn, hrest⟩)

/-! ## The plans that the loops pass through -/

/-- The plan stands at the beginning or the end of a turn of one of the loops. -/
def Visited (r : Registry) (p : Plan) : Prop :=
  (∃ settled, Relation.ReflTransGen ResolveTurn ([], start r) (settled, p)) ∨
    ∃ resolved, (start r).resolve = .ok resolved ∧ Relation.ReflTransGen OrderTurn resolved p

theorem follows_of_resolveTurns {a b : List Qubit × Plan} (ha : a.2.Sound)
    (h : Relation.ReflTransGen ResolveTurn a b) : Follows a.2 b.2 := by
  induction h with
  | refl => exact .refl ha
  | tail _ hturn ih => exact ih.trans (hturn.descends ih.sound).1

theorem follows_of_orderTurns {p p' : Plan} (hp : p.Sound)
    (h : Relation.ReflTransGen OrderTurn p p') : Follows p p' := by
  induction h with
  | refl => exact .refl hp
  | tail _ hturn ih => exact ih.trans (.of_reduced ih.sound (hturn.reduced ih.sound))

theorem Visited.sound {r : Registry} (hr : r.Valid) {p : Plan} (h : Visited r p) : p.Sound := by
  have hstart := sound_start hr
  rcases h with ⟨settled, hturns⟩ | ⟨resolved, hresolve, hturns⟩
  · exact (follows_of_resolveTurns hstart hturns).sound
  · obtain ⟨p₁, h₁, hfollows⟩ := resolve_total hstart
    obtain rfl : resolved = p₁ := Except.ok.inj (hresolve.symm.trans h₁)
    exact (follows_of_orderTurns hfollows.sound hturns).sound

/-! ## Without crossings there is nothing to do -/

/-- A plan in order stays as it is. -/
theorem order_of_ordered {p : Plan} (hp : p.Sound) (h : p.Ordered) : p.order = .ok p := by
  have harcs := precedences_eq hp
  refine orderWithin_succ_iff.mpr (.inl ⟨_, harcs, .inl ⟨?_, rfl⟩⟩)
  refine List.all_eq_true.mpr fun a ha => decide_eq_true ?_
  obtain ⟨s, sp, hs, hsp, c, hc, hfirst, hx, hb⟩ := (mem_precedences_iff hp harcs).mp ha
  exact hfirst ▸ h a.second s sp hs hsp c hc a.node hx hb

theorem resolve_of_maxOrder {p : Plan} (hp : p.Sound) (h : ¬ 0 < p.registry.maxOrder) :
    p.resolve = .ok p := by
  obtain ⟨o, ho, hgenuine⟩ := nextConflict?_total hp []
  refine resolveWithin_succ_iff.mpr (.inl ⟨?_, rfl⟩)
  cases o with
  | none => exact ho
  | some c =>
    -- a conflict lies at a crossing
    have hc := hgenuine c rfl
    obtain ⟨i, hi⟩ := List.exists_mem_of_ne_nil _ hc.ne_nil
    obtain ⟨-, s, -, hs, -, -, d, hd, hx⟩ := hc.cutAt i hi
    exact absurd (Registry.lt_maxOrder_iff.mpr ⟨i, s, hs, d, hd, List.length_pos_of_mem hx⟩) h

/-- Skipping the loops if nothing crosses only saves work. -/
theorem sequenced_eq {r : Registry} (hr : r.Valid) :
    sequenced r = (start r).resolve >>= order := by
  unfold sequenced
  split
  next => rfl
  next h =>
    have hstart := sound_start hr
    rw [resolve_of_maxOrder hstart h, ok_bind, order_of_ordered hstart (ordered_of_maxOrder h)]

end Plan

namespace Registry

/-- Sequencing ends safely: the first loop ends with the plan `resolved`, the second with `ordered`. -/
structure EndsWith (r : Registry) (resolved ordered : Plan) : Prop where
  /-- However many turns beyond its bound the first loop may take, it ends the same way. -/
  resolve_eq : ∀ turns, (Plan.start r).resolveBound ≤ turns →
    Plan.resolveWithin turns [] (Plan.start r) = .ok resolved
  order_eq : ∀ turns, resolved.orderBound ≤ turns → Plan.orderWithin turns resolved = .ok ordered
  /-- No step of either loop, or of collecting the swaps, faults. -/
  generateSwaps_eq : r.generateSwaps = .ok (ordered.swaps, ordered.registry)
  /-- Where a path can be discarded on the way, the count of paths is positive. -/
  size_remove : ∀ p, Plan.Visited r p → ∀ id registry, p.registry.remove id = .ok registry →
    registry.size + 1 = p.registry.size
  paths_ne_nil : r.paths ≠ [] → ordered.registry.paths ≠ []

/-- Both loops end, no step on the way faults, and if there was a path before there is one after. -/
theorem generateSwaps_ends {r : Registry} (hr : Reachable r) :
    ∃ resolved ordered, r.EndsWith resolved ordered := by
  have hvalid := hr.valid
  obtain ⟨resolved, hresolve, hfollows⟩ := Plan.resolve_total (Plan.sound_start hvalid)
  obtain ⟨ordered, horder, hfollows', -⟩ := Plan.order_total hfollows.sound
  refine ⟨resolved, ordered, fun turns hle => Plan.resolveWithin_mono hle hresolve,
    fun turns hle => Plan.orderWithin_mono hle horder, ?_, ?_, ?_⟩
  · unfold generateSwaps
    rw [Plan.sequenced_eq hvalid, hresolve, ok_bind, horder]
    rfl
  · intro p hp id registry hremove
    exact (hp.sound hvalid).valid.size_remove hremove
  · intro hne
    have hids : r.ids ≠ [] := fun h => hne (by simpa [paths, ids] using h)
    have hkept := (hfollows.trans hfollows').ids_ne_nil hids
    exact fun h => hkept (by simpa [paths, ids] using h)

/-- Here the loops discard a path, and two are left. -/
theorem crossedTwice_ends : Reachable crossedTwice ∧
    ∃ resolved ordered, crossedTwice.EndsWith resolved ordered ∧ ordered.registry = crossedOnce := by
  obtain ⟨resolved, ordered, hends⟩ := generateSwaps_ends reachable_crossedTwice
  have hgen := hends.generateSwaps_eq.symm.trans generateSwaps_crossedTwice
  exact ⟨reachable_crossedTwice, resolved, ordered, hends, (Prod.mk.inj (Except.ok.inj hgen)).2⟩

end Registry

end QubitRouting
