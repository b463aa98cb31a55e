import QubitRouting.Proofs.Registry.Parts
import QubitRouting.Proofs.Sequencing.Moves

/-!
# Moves on a part of a plan

A plan for a part of the paths is compared with a plan for all of them (`Plan.Part`). The three moves of
sequencing, made on a path of the part in both plans, keep one a part of the other: each has the result in
the whole plan that it has in the part. Made on paths outside, they do not touch the part at all.
-/

namespace QubitRouting

namespace Plan

/-- The plan `q` is the plan `p` as far as the paths of the sector are concerned. -/
structure Part (g : Sector) (q p : Plan) : Prop where
  sound : p.Sound
  sound_part : q.Sound
  registry : Registry.Part g q.registry p.registry
  split? : ∀ i, p.split? (g.rename i) = q.split? i

namespace Part

variable {g : Sector} {q p q' p' : Plan}

/-! ## What a path of the part sees -/

/-- A path of the part has the crossings in the whole plan that it has in the part, under the new numbers. -/
theorem crossingsAt_rename (h : Part g q p) (i : PathId) :
    p.registry.crossingsAt (g.rename i) =
      (q.registry.crossingsAt i).map fun c => { c with path := g.rename c.path } := by
  unfold Registry.crossingsAt Registry.crossings?
  rw [h.registry.slot?]
  cases q.registry.slot? i with
  | none => rfl
  | some s => rfl

theorem lengthAt_rename (h : Part g q p) (i : PathId) :
    p.registry.lengthAt (g.rename i) = q.registry.lengthAt i := by
  unfold Registry.lengthAt Registry.path?
  rw [h.registry.slot?]
  cases q.registry.slot? i with
  | none => rfl
  | some s => rfl

/-- So the same nodes of the path are free of crossings in both plans. -/
theorem isFree_rename (h : Part g q p) (i : PathId) : p.isFree (g.rename i) = q.isFree i := by
  funext x
  unfold isFree
  rw [h.crossingsAt_rename, List.any_map]
  rfl

/-! ## Exchanging slots -/

/-- Slots may be exchanged in both plans at once, as long as the whole plan moves the paths of the part
the way the part does. -/
theorem rearranged (h : Part g q p) {σ τ : Equiv.Perm PathId} (hq : Rearranged q q' σ)
    (hp : Rearranged p p' τ) (hτ : ∀ i, τ (g.rename i) = g.rename (σ i)) : Part g q' p' where
  sound := hp.sound h.sound
  sound_part := hq.sound h.sound_part
  registry := h.registry.rearranged hq.registry hp.registry hτ
  split? i := by rw [hp.split?, hq.split?, hτ, h.split?]

end Part

/-- With one of the two slots empty, an exchange does nothing and says so. -/
theorem exchange_of_empty {p : Plan} {a b : PathId}
    (h : ¬ ((∃ s, p.registry.slot? a = some s) ∧ ∃ s, p.registry.slot? b = some s)) :
    p.exchange a b = .ok (p, false) := by
  unfold exchange
  cases hreg : p.registry.exchange a b with
  | error e => rfl
  | ok registry =>
    obtain ⟨-, ha, hb⟩ := Registry.exchange_rearranged hreg
    exact absurd ⟨ha, hb⟩ h

namespace Part

variable {g : Sector} {q p q' p' : Plan}

/-- Exchanging two paths of the part is answered alike in both plans: done if both slots are taken, else
refused. The plans that result still match. -/
theorem exchange (h : Part g q p) (a b : PathId) :
    Together (q.exchange a b) (p.exchange (g.rename a) (g.rename b))
      fun x y => Part g x.1 y.1 ∧ x.2 = y.2 := by
  by_cases hocc : (∃ s, q.registry.slot? a = some s) ∧ ∃ s, q.registry.slot? b = some s
  · obtain ⟨q', hq, hreq⟩ := exchange_of_occupied h.sound_part hocc.1 hocc.2
    obtain ⟨p', hp, hrep⟩ := exchange_of_occupied h.sound (h.registry.occupied_iff.mpr hocc.1)
      (h.registry.occupied_iff.mpr hocc.2)
    exact ⟨_, _, hq, hp, h.rearranged hreq hrep fun i => g.injective.swap_apply a b i, rfl⟩
  · have hocc' := hocc
    rw [← h.registry.occupied_iff, ← h.registry.occupied_iff] at hocc'
    exact ⟨_, _, exchange_of_empty hocc, exchange_of_empty hocc', h, rfl⟩

/-- Exchanging two paths outside leaves the part as it is, whether both slots are taken or not. -/
theorem exchange_outside (h : Part g q p) {a b : PathId} (ha : g.holds a = false)
    (hb : g.holds b = false) : ∃ p' done, p.exchange a b = .ok (p', done) ∧ Part g q p' := by
  by_cases hocc : (∃ s, p.registry.slot? a = some s) ∧ ∃ s, p.registry.slot? b = some s
  · obtain ⟨p', hp, hre⟩ := exchange_of_occupied h.sound hocc.1 hocc.2
    refine ⟨p', true, hp, h.rearranged (.refl q) hre fun i => ?_⟩
    exact Equiv.swap_apply_of_ne_of_ne (g.rename_ne ha i) (g.rename_ne hb i)
  · exact ⟨p, false, exchange_of_empty hocc, h⟩

/-! ## Moving a cut -/

/-- Moving the cut of a path of the part has the same outcome in both plans: it depends on the split and
on the free nodes of that path alone. -/
theorem shift? (h : Part g q p) {i : PathId} {sp : Split} (hsp : q.split? i = some sp) (x : Qubit) :
    Together (q.shift? i x) (p.shift? (g.rename i) x) (Option.Rel (Part g)) := by
  have hsp' : p.split? (g.rename i) = some sp := (h.split? i).trans hsp
  refine ⟨_, _, shift?_eq hsp x, shift?_eq hsp' x, ?_⟩
  rw [h.isFree_rename]
  cases hshift : sp.shift? x (q.isFree i) with
  | none => exact .none
  | some sp' =>
    refine .some ⟨h.sound.shift hsp' hshift, h.sound_part.shift hsp hshift, h.registry, fun k => ?_⟩
    rw [split?_set (lt_length_splits hsp'), split?_set (lt_length_splits hsp), h.split?]
    by_cases hk : k = i
    · rw [if_pos (congrArg g.rename hk), if_pos hk]
    · rw [if_neg (g.injective.ne hk), if_neg hk]

/-- Moving the cut of a path outside leaves the part as it is. -/
theorem shift?_outside (h : Part g q p) {j : PathId} (hj : g.holds j = false) {sp : Split}
    (hsp : p.split? j = some sp) (x : Qubit) :
    ∃ o, p.shift? j x = .ok o ∧ ∀ p', o = some p' → Part g q p' := by
  refine ⟨_, shift?_eq hsp x, fun p' hp' => ?_⟩
  obtain ⟨sp', hshift, rfl⟩ := Option.map_eq_some_iff.mp hp'
  refine ⟨h.sound.shift hsp hshift, h.sound_part, h.registry, fun k => ?_⟩
  rw [split?_set (lt_length_splits hsp), if_neg (g.rename_ne hj k), h.split?]

/-! ## Discarding a path -/

/-- Discarding a path of the part takes it out of both plans. The paths that crossed it lose a crossing, in
the whole plan the same ones as in the part. -/
theorem discard (h : Part g q p) {i : PathId} (hi : ∃ s, q.registry.slot? i = some s) :
    Together (q.discard i) (p.discard (g.rename i)) (Part g) := by
  obtain ⟨s, hs⟩ := hi
  have hs' := h.registry.slot?_rename hs
  obtain ⟨registry, hq⟩ := Registry.remove_total ⟨s, hs⟩
  obtain ⟨registry', hp⟩ := Registry.remove_total ⟨_, hs'⟩
  refine ⟨_, _, discard_eq h.sound_part hq, discard_eq h.sound hp, h.sound.discard hp,
    h.sound_part.discard hq, h.registry.remove hq hp, fun k => ?_⟩
  rw [split?_set (h.sound.lt_length_splits hs'), split?_set (h.sound_part.lt_length_splits hs), h.split?]
  by_cases hk : k = i
  · rw [if_pos (congrArg g.rename hk), if_pos hk]
  · rw [if_neg (g.injective.ne hk), if_neg hk]

/-- Discarding a path outside leaves the part as it is: a path of the part never crosses one outside, so
none of its crossings goes. -/
theorem discard_outside (h : Part g q p) {j : PathId} (hj : g.holds j = false)
    (hocc : ∃ s, p.registry.slot? j = some s) : ∃ p', p.discard j = .ok p' ∧ Part g q p' := by
  obtain ⟨s, hs⟩ := hocc
  obtain ⟨registry, hp⟩ := Registry.remove_total ⟨s, hs⟩
  refine ⟨_, discard_eq h.sound hp, h.sound.discard hp, h.sound_part, h.registry.remove_outside hp hj,
    fun k => ?_⟩
  rw [split?_set (h.sound.lt_length_splits hs), if_neg (g.rename_ne hj k), h.split?]

end Part

end Plan

end QubitRouting
