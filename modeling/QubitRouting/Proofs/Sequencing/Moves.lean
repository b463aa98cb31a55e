import QubitRouting.Proofs.Checked
import QubitRouting.Proofs.Registry.Valid
import QubitRouting.Proofs.Sequencing.Tokens
import QubitRouting.Sequencing.Plan

/-!
# The moves of sequencing

Sequencing changes a plan in three ways: slots are exchanged, a cut moves to a free place, a path is
discarded. The first is a *rearrangement* (`Plan.Rearranged`), the other two *reduce* the plan
(`Plan.Reduced`). All that is known about sequencing is derived from these:

* every move keeps the plan sound, that is, the registry valid and the splits aligned with it;
* every move leaves a path, and invents none (`Plan.Follows`);
* `Plan.load`, the number of paths plus the number of paths that are cut at a crossing, does not change
  in a rearrangement and drops in a reduction. A cut that has moved is never at a crossing again.
-/

namespace QubitRouting

namespace Split

/-- Where a cut is moved to, both nodes next to it are free, and neither half is empty. -/
theorem shift?_spec {s t : Split} {x : Qubit} {free : Qubit → Bool}
    (h : s.shift? x free = some t) :
    t.before ≠ [] ∧ t.after ≠ [] ∧ ∀ y, t.boundAt y = true → free y = true := by
  -- all four moves put free nodes in front of both halves
  have key : ∀ {a b : Qubit} {l r : List Qubit},
      (if free a && free b then some (⟨a :: l, b :: r⟩ : Split) else none) = some t →
      t.before ≠ [] ∧ t.after ≠ [] ∧ ∀ y, t.boundAt y = true → free y = true := by
    intro a b l r h
    obtain ⟨hfree, heq⟩ := Option.ite_none_right_eq_some.mp h
    obtain ⟨ha, hb⟩ := Bool.and_eq_true_iff.mp hfree
    obtain rfl := Option.some.inj heq
    refine ⟨List.cons_ne_nil _ _, List.cons_ne_nil _ _, fun y hy => ?_⟩
    rcases boundAt_iff.mp hy with hy | hy
    · obtain rfl : a = y := by simpa using hy
      exact ha
    · obtain rfl : b = y := by simpa using hy
      exact hb
  unfold shift? at h
  split at h
  next => contradiction
  next =>
    rw [Option.or_eq_some_iff, Option.or_eq_some_iff] at h
    rcases h with h | ⟨-, h | ⟨-, h⟩⟩
    · split at h
      next =>
        unfold forward1? at h
        split at h
        next => exact key h
        next => contradiction
      next =>
        unfold backward1? at h
        split at h
        next => exact key h
        next => contradiction
    · unfold backward2? at h
      split at h
      next => exact key h
      next => contradiction
    · unfold forward2? at h
      split at h
      next => exact key h
      next => contradiction

/-- A path of at least two nodes has a middle. -/
theorem middle_ne_nil {p : List Qubit} (h : 2 ≤ p.length) :
    (middle p).before ≠ [] ∧ (middle p).after ≠ [] := by
  constructor
  · rw [← List.length_pos_iff, middle, List.length_reverse, List.length_take]
    omega
  · rw [← List.length_pos_iff, middle, List.length_drop]
    omega

end Split

namespace Plan

/-! ## Sound plans -/

/-- The split at a slot. -/
def split? (p : Plan) (i : PathId) : Option Split :=
  p.splits[i]?.join

theorem split?_eq_some_iff {p : Plan} {i : PathId} {sp : Split} :
    p.split? i = some sp ↔ p.splits[i]? = some (some sp) := by
  unfold split?
  cases h : p.splits[i]? with
  | none => simp
  | some o => simp

/-- A valid registry with a split for each of its paths. -/
structure Sound (p : Plan) : Prop where
  valid : p.registry.Valid
  aligned : p.Aligned

namespace Aligned

/-- A registered path has a split into two halves that are not empty. -/
theorem split_of_slot {p : Plan} (h : p.Aligned) {i : PathId} {s : Slot}
    (hs : p.registry.slot? i = some s) :
    ∃ sp, p.split? i = some sp ∧ sp.nodes = s.nodes ∧ sp.before ≠ [] ∧ sp.after ≠ [] := by
  have hi := h.2 i
  rw [hs] at hi
  unfold split?
  cases hsp : p.splits[i]?.join with
  | none =>
    rw [hsp] at hi
    exact hi.elim
  | some sp =>
    rw [hsp] at hi
    exact ⟨sp, rfl, hi⟩

theorem slot_of_split {p : Plan} (h : p.Aligned) {i : PathId} {sp : Split}
    (hsp : p.split? i = some sp) : ∃ s, p.registry.slot? i = some s ∧ sp.nodes = s.nodes := by
  have hi := h.2 i
  unfold split? at hsp
  rw [hsp] at hi
  cases hs : p.registry.slot? i with
  | none =>
    rw [hs] at hi
    exact hi.elim
  | some s =>
    rw [hs] at hi
    exact ⟨s, rfl, hi.1⟩

/-- Splits at all occupied slots and no others make a plan aligned. -/
theorem of_split {p : Plan} (hlen : p.splits.length = p.registry.slots.length)
    (hslot : ∀ i s, p.registry.slot? i = some s →
      ∃ sp, p.split? i = some sp ∧ sp.nodes = s.nodes ∧ sp.before ≠ [] ∧ sp.after ≠ [])
    (hsplit : ∀ i sp, p.split? i = some sp → ∃ s, p.registry.slot? i = some s) : p.Aligned := by
  refine ⟨hlen, fun i => ?_⟩
  cases hs : p.registry.slot? i with
  | none =>
    cases hsp : p.splits[i]?.join with
    | none => trivial
    | some sp =>
      obtain ⟨s, hs'⟩ := hsplit i sp hsp
      rw [hs] at hs'
      contradiction
  | some s =>
    obtain ⟨sp, hsp, hrest⟩ := hslot i s hs
    unfold split? at hsp
    rw [hsp]
    exact hrest

end Aligned

/-- A registered path, or what it takes to be one, has an entry in the list of splits. -/
theorem Sound.getElem?_splits {p : Plan} (hp : p.Sound) {i : PathId} {s : Slot}
    (hs : p.registry.slot? i = some s) : p.splits[i]? = some (p.split? i) := by
  obtain ⟨sp, hsp, -⟩ := hp.aligned.split_of_slot hs
  rw [hsp]
  exact split?_eq_some_iff.mp hsp

/-- The plan with all cuts in the middle is sound. -/
theorem split?_start (r : Registry) (i : PathId) :
    (start r).split? i = (r.slot? i).map fun s => Split.middle s.nodes := by
  unfold split? start Registry.slot?
  rw [List.getElem?_map]
  cases r.slots[i]? with
  | none => rfl
  | some o => cases o <;> rfl

/-- A plan starts out sound: every path is cut in its middle. -/
theorem sound_start {r : Registry} (hr : r.Valid) : (start r).Sound where
  valid := hr
  aligned := by
    refine .of_split (by simp [start]) (fun i s hs => ?_) fun i sp hsp => ?_
    · have hs' : r.slot? i = some s := hs
      rw [split?_start, hs']
      exact ⟨_, rfl, Split.nodes_middle _, Split.middle_ne_nil (hr.simple hs').1⟩
    · rw [split?_start] at hsp
      obtain ⟨s, hs, -⟩ := Option.map_eq_some_iff.mp hsp
      exact ⟨s, hs⟩

/-! ## The load of a plan -/

/-- Is the path in slot `i` cut at one of its crossings? -/
def isCut (p : Plan) (i : PathId) : Bool :=
  match p.registry.slot? i, p.split? i with
  | some s, some sp => s.crossings.any fun c => c.overlap.any sp.boundAt
  | _, _ => false

/-- A path is cut at a crossing if one of the two nodes at its cut is shared. -/
theorem isCut_iff {p : Plan} {i : PathId} : p.isCut i = true ↔
    ∃ s sp, p.registry.slot? i = some s ∧ p.split? i = some sp ∧
      ∃ c ∈ s.crossings, ∃ x ∈ c.overlap, sp.boundAt x = true := by
  unfold isCut
  cases p.registry.slot? i with
  | none => simp
  | some s =>
    cases p.split? i with
    | none => simp
    | some sp => simp

/-- The number of paths, and once more the number of those that are cut at a crossing. -/
def load (p : Plan) : Nat :=
  p.registry.ids.length + p.registry.ids.countP p.isCut

theorem load_le (p : Plan) : p.load ≤ 2 * p.registry.slots.length := by
  have hlen := p.registry.length_ids_le
  have hcount : p.registry.ids.countP p.isCut ≤ p.registry.ids.length := List.countP_le_length
  unfold load
  omega

/-! ## Rearranging -/

/-- The second plan holds the same paths with the same cuts in other slots. -/
structure Rearranged (p p' : Plan) (σ : Equiv.Perm PathId) : Prop where
  registry : p.registry.Rearranged p'.registry σ
  length_splits : p'.splits.length = p.splits.length
  split? : ∀ i, p'.split? i = p.split? (σ i)

namespace Rearranged

theorem refl (p : Plan) : Rearranged p p (Equiv.refl _) where
  registry := .refl _
  length_splits := rfl
  split? := fun _ => rfl

theorem trans {p₁ p₂ p₃ : Plan} {σ τ : Equiv.Perm PathId} (h₁ : Rearranged p₁ p₂ σ)
    (h₂ : Rearranged p₂ p₃ τ) : Rearranged p₁ p₃ (τ.trans σ) where
  registry := h₁.registry.trans h₂.registry
  length_splits := h₂.length_splits.trans h₁.length_splits
  split? := fun i => by
    rw [h₂.split?, h₁.split?]
    rfl

variable {p p' : Plan} {σ : Equiv.Perm PathId}

/-- Exchanging slots keeps a plan sound. -/
theorem sound (h : Rearranged p p' σ) (hp : p.Sound) : p'.Sound where
  valid := hp.valid.rearranged h.registry
  aligned := by
    refine .of_split ?_ (fun i s hs => ?_) fun i sp hsp => ?_
    · rw [h.length_splits, hp.aligned.1, h.registry.length_slots]
    · obtain ⟨s₀, hs₀, rfl⟩ := h.registry.slot?_cases hs
      obtain ⟨sp, hsp, hrest⟩ := hp.aligned.split_of_slot hs₀
      exact ⟨sp, (h.split? i).trans hsp, hrest⟩
    · rw [h.split?] at hsp
      obtain ⟨s, hs, -⟩ := hp.aligned.slot_of_split hsp
      exact ⟨s.relabel σ.symm, by rw [h.registry.slot?, hs]; rfl⟩

/-- A path is cut at a crossing in its new slot as it was in the old one. -/
theorem isCut_eq (h : Rearranged p p' σ) (i : PathId) : p'.isCut i = p.isCut (σ i) := by
  unfold isCut
  rw [h.registry.slot?, h.split?]
  cases p.registry.slot? (σ i) with
  | none => rfl
  | some s =>
    cases p.split? (σ i) with
    | none => rfl
    | some sp => simp [Slot.relabel, Function.comp_def]

/-- A permutation that respects the occupied slots permutes their numbers. -/
theorem ids_map_perm (h : Rearranged p p' σ) :
    (p.registry.ids.map σ).Perm p.registry.ids := by
  refine (List.perm_ext_iff_of_nodup (p.registry.ids_nodup.map σ.injective)
    p.registry.ids_nodup).mpr fun i => ?_
  rw [List.mem_map, Registry.mem_ids_iff]
  constructor
  · intro hex
    obtain ⟨j, hj, rfl⟩ := hex
    exact (h.registry.occupied j).mpr (Registry.mem_ids_iff.mp hj)
  · intro hi
    refine ⟨σ.symm i, Registry.mem_ids_iff.mpr ((h.registry.occupied _).mp ?_), by simp⟩
    rwa [Equiv.apply_symm_apply]

/-- So an exchange does not change the load, which only depends on how many paths there are and how many
of them are cut at a crossing. -/
theorem load_eq (h : Rearranged p p' σ) : p'.load = p.load := by
  unfold load
  have hcut : p'.isCut = p.isCut ∘ σ := funext h.isCut_eq
  rw [h.registry.ids_eq, hcut, ← List.countP_map, h.ids_map_perm.countP_eq]

theorem paths_subset (h : Rearranged p p' σ) : p'.registry.paths ⊆ p.registry.paths := by
  intro path hpath
  obtain ⟨i, s, hs, rfl⟩ := Registry.mem_paths_iff.mp hpath
  obtain ⟨s₀, hs₀, rfl⟩ := h.registry.slot?_cases hs
  exact Registry.mem_paths_iff.mpr ⟨σ i, s₀, hs₀, rfl⟩

end Rearranged

/-- An exchange of two occupied slots rearranges the plan. -/
theorem exchange_of_occupied {p : Plan} (hp : p.Sound) {a b : PathId}
    (ha : ∃ s, p.registry.slot? a = some s) (hb : ∃ s, p.registry.slot? b = some s) :
    ∃ p', p.exchange a b = .ok (p', true) ∧ Rearranged p p' (Equiv.swap a b) := by
  obtain ⟨registry, hreg⟩ := Registry.exchange_total ha hb
  obtain ⟨hre, -, -⟩ := Registry.exchange_rearranged hreg
  have hga := hp.getElem?_splits ha.choose_spec
  have hgb := hp.getElem?_splits hb.choose_spec
  have hla := (List.getElem?_eq_some_iff.mp hga).1
  have hlb := (List.getElem?_eq_some_iff.mp hgb).1
  refine ⟨⟨registry, (p.splits.set a (p.split? b)).set b (p.split? a)⟩, ?_, hre, by simp, ?_⟩
  · unfold exchange
    rw [hreg]
    simp only [transpose_eq_ok hga hgb, ok_bind, pure_eq_ok]
  · intro i
    rw [← swapNames_eq]
    unfold split? swapNames
    simp only [List.getElem?_set, List.length_set]
    by_cases hib : i = b
    · subst hib
      rw [if_pos rfl, if_pos hlb]
      by_cases hia : i = a
      · rw [hia, if_pos rfl]
        rfl
      · rw [if_neg hia, if_pos rfl]
        rfl
    · rw [if_neg (Ne.symm hib)]
      by_cases hia : i = a
      · rw [if_pos hia.symm, if_pos hla, if_pos hia]
        rfl
      · rw [if_neg (Ne.symm hia), if_neg hia, if_neg hib]

/-- An exchange never faults: it rearranges the plan, or leaves it if a slot is empty. -/
theorem exchange_total {p : Plan} (hp : p.Sound) (a b : PathId) :
    ∃ p' done σ, p.exchange a b = .ok (p', done) ∧ Rearranged p p' σ := by
  cases hreg : p.registry.exchange a b with
  | error e => exact ⟨p, false, _, by unfold exchange; rw [hreg], .refl p⟩
  | ok registry =>
    obtain ⟨-, ha, hb⟩ := Registry.exchange_rearranged hreg
    obtain ⟨p', h, hre⟩ := exchange_of_occupied hp ha hb
    exact ⟨p', true, _, h, hre⟩

/-! ## Reducing -/

/-- A cut at a crossing has moved to a free place, or one of several paths was discarded. -/
inductive Reduced (p : Plan) : Plan → Prop where
  | shift {i : PathId} {x : Qubit} {sp sp' : Split} (hsp : p.split? i = some sp)
      (hcut : p.isCut i = true) (h : sp.shift? x (p.isFree i) = some sp') :
      Reduced p { p with splits := p.splits.set i (some sp') }
  | discard {i : PathId} {registry : Registry} (h : p.registry.remove i = .ok registry)
      (htwo : 2 ≤ p.registry.ids.length) : Reduced p ⟨registry, p.splits.set i none⟩

theorem split?_set {p : Plan} {i : PathId} (hi : i < p.splits.length) (o : Option Split)
    (registry : Registry) (j : PathId) :
    split? ⟨registry, p.splits.set i o⟩ j = if j = i then o else p.split? j := by
  unfold split?
  rw [List.getElem?_set]
  by_cases hj : j = i
  · rw [if_pos hj.symm, if_pos hj, if_pos (hj ▸ hi)]
    rfl
  · rw [if_neg (Ne.symm hj), if_neg hj]

theorem lt_length_splits {p : Plan} {i : PathId} {sp : Split} (h : p.split? i = some sp) :
    i < p.splits.length :=
  (List.getElem?_eq_some_iff.mp (split?_eq_some_iff.mp h)).1

theorem crossingsAt_eq {r : Registry} {i : PathId} {s : Slot} (h : r.slot? i = some s) :
    r.crossingsAt i = s.crossings := by
  simp [Registry.crossingsAt, Registry.crossings?, h]

/-- Moving the cut of one path keeps a plan sound. -/
theorem Sound.shift {p : Plan} (hp : p.Sound) {i : PathId} {x : Qubit} {free : Qubit → Bool}
    {sp sp' : Split} (hsp : p.split? i = some sp) (h : sp.shift? x free = some sp') :
    Sound { p with splits := p.splits.set i (some sp') } := by
  have hi := lt_length_splits hsp
  refine ⟨hp.valid, .of_split (by simp [hp.aligned.1]) (fun j s hs => ?_) fun j sj hsj => ?_⟩
  · have hs' : p.registry.slot? j = some s := hs
    obtain ⟨sj, hsj, hrest⟩ := hp.aligned.split_of_slot hs'
    rw [split?_set hi]
    by_cases hj : j = i
    · subst hj
      rw [if_pos rfl]
      obtain rfl : sp = sj := Option.some.inj (hsp.symm.trans hsj)
      obtain ⟨hb, ha, -⟩ := Split.shift?_spec h
      exact ⟨sp', rfl, (Split.nodes_shift? h).trans hrest.1, hb, ha⟩
    · rw [if_neg hj]
      exact ⟨sj, hsj, hrest⟩
  · rw [split?_set hi] at hsj
    show ∃ s, p.registry.slot? j = some s
    by_cases hj : j = i
    · subst hj
      obtain ⟨s, hs, -⟩ := hp.aligned.slot_of_split hsp
      exact ⟨s, hs⟩
    · rw [if_neg hj] at hsj
      obtain ⟨s, hs, -⟩ := hp.aligned.slot_of_split hsj
      exact ⟨s, hs⟩

theorem Sound.lt_length_splits {p : Plan} (hp : p.Sound) {i : PathId} {s : Slot}
    (hs : p.registry.slot? i = some s) : i < p.splits.length := by
  rw [hp.aligned.1]
  exact Registry.lt_length_of_slot? hs

/-- Discarding a path keeps a plan sound. -/
theorem Sound.discard {p : Plan} (hp : p.Sound) {i : PathId} {registry : Registry}
    (h : p.registry.remove i = .ok registry) : Sound ⟨registry, p.splits.set i none⟩ := by
  obtain ⟨⟨si, hsi⟩, -⟩ := Registry.remove_eq_ok_iff.mp h
  have hi := hp.lt_length_splits hsi
  refine ⟨hp.valid.remove h, .of_split ?_ (fun j s hs => ?_) fun j sj hsj => ?_⟩
  · show (p.splits.set i none).length = registry.slots.length
    rw [List.length_set, hp.aligned.1, Registry.length_slots_remove h]
  · obtain ⟨hj, s₀, hs₀, rfl⟩ := Registry.slot?_remove_cases h hs
    rw [split?_set hi, if_neg hj, Slot.nodes_forget]
    exact hp.aligned.split_of_slot hs₀
  · rw [split?_set hi] at hsj
    by_cases hj : j = i
    · rw [if_pos hj] at hsj
      contradiction
    · rw [if_neg hj] at hsj
      obtain ⟨s, hs, -⟩ := hp.aligned.slot_of_split hsj
      refine ⟨s.forget i, ?_⟩
      show registry.slot? j = some (s.forget i)
      rw [Registry.slot?_remove h, if_neg hj, hs]
      rfl

namespace Reduced

variable {p p' : Plan}

theorem sound (h : Reduced p p') (hp : p.Sound) : p'.Sound := by
  cases h with
  | shift hsp _ h => exact hp.shift hsp h
  | discard h => exact hp.discard h

/-- A moved cut is at no crossing any more; a discarded path takes its crossings with it. -/
theorem load_lt (h : Reduced p p') (hp : p.Sound) : p'.load < p.load := by
  cases h with
  | @shift i x sp sp' hsp hcut h =>
    have hi := lt_length_splits hsp
    obtain ⟨s, hs, -⟩ := hp.aligned.slot_of_split hsp
    obtain ⟨-, -, hfree⟩ := Split.shift?_spec h
    unfold load
    refine Nat.add_lt_add_left (countP_lt_countP (Registry.mem_ids_iff.mpr ⟨s, hs⟩) ?_ ?_ hcut) _
    · intro j _ hj
      by_cases hji : j = i
      · rw [hji]
        exact hcut
      · unfold isCut at hj ⊢
        rwa [split?_set hi, if_neg hji] at hj
    · rw [Bool.eq_false_iff]
      intro hcut'
      -- the new cut stands at free nodes, where there is no crossing
      obtain ⟨s', sp'', hs', hsp'', c, hc, x', hx', hb⟩ := isCut_iff.mp hcut'
      rw [split?_set hi, if_pos rfl] at hsp''
      obtain rfl : sp' = sp'' := Option.some.inj hsp''
      have hx := hfree x' hb
      unfold isFree at hx
      rw [crossingsAt_eq hs'] at hx
      have : s'.crossings.any (fun c => c.contains x') = true :=
        List.any_eq_true.mpr ⟨c, hc, Crossing.contains_iff.mpr hx'⟩
      rw [this] at hx
      contradiction
  | @discard i registry h htwo =>
    obtain ⟨⟨si, hsi⟩, -⟩ := Registry.remove_eq_ok_iff.mp h
    have hi := hp.lt_length_splits hsi
    have hlen := Registry.length_ids_remove h
    have hle : registry.ids.countP (isCut ⟨registry, p.splits.set i none⟩) ≤
        p.registry.ids.countP p.isCut := by
      refine Nat.le_trans (List.countP_mono_left fun j _ hj => ?_)
        (List.Sublist.countP_le (Registry.ids_remove h ▸ List.erase_sublist))
      -- a path that is still cut at a crossing was so before
      obtain ⟨s', sp, hs', hsp, c, hc, x, hx, hb⟩ := isCut_iff.mp hj
      obtain ⟨hji, s, hs, rfl⟩ := Registry.slot?_remove_cases h hs'
      rw [split?_set hi, if_neg hji] at hsp
      exact isCut_iff.mpr ⟨s, sp, hs, hsp, c, (Slot.mem_crossings_forget.mp hc).1, x, hx, hb⟩
    unfold load
    show registry.ids.length + registry.ids.countP _ < _
    omega

theorem paths_subset (h : Reduced p p') : p'.registry.paths ⊆ p.registry.paths := by
  cases h with
  | shift => exact List.Subset.refl _
  | discard h =>
    intro path hpath
    obtain ⟨i, s, hs, rfl⟩ := Registry.mem_paths_iff.mp hpath
    obtain ⟨s₀, hs₀, he⟩ := Registry.thinned_remove h i s hs
    exact Registry.mem_paths_iff.mpr ⟨i, s₀, hs₀, he⟩

end Reduced

/-! ## Any number of moves -/

/-- What holds between a plan and what sequencing makes of it. -/
structure Follows (p p' : Plan) : Prop where
  sound : p'.Sound
  paths_subset : p'.registry.paths ⊆ p.registry.paths
  length_ids_le : p'.registry.ids.length ≤ p.registry.ids.length
  ids_ne_nil : p.registry.ids ≠ [] → p'.registry.ids ≠ []
  length_slots : p'.registry.slots.length = p.registry.slots.length

namespace Follows

theorem refl {p : Plan} (hp : p.Sound) : Follows p p where
  sound := hp
  paths_subset := List.Subset.refl _
  length_ids_le := Nat.le_refl _
  ids_ne_nil := id
  length_slots := rfl

theorem trans {p₁ p₂ p₃ : Plan} (h₁ : Follows p₁ p₂) (h₂ : Follows p₂ p₃) : Follows p₁ p₃ where
  sound := h₂.sound
  paths_subset := List.Subset.trans h₂.paths_subset h₁.paths_subset
  length_ids_le := Nat.le_trans h₂.length_ids_le h₁.length_ids_le
  ids_ne_nil := fun h => h₂.ids_ne_nil (h₁.ids_ne_nil h)
  length_slots := h₂.length_slots.trans h₁.length_slots

theorem of_rearranged {p p' : Plan} {σ : Equiv.Perm PathId} (hp : p.Sound)
    (h : Rearranged p p' σ) : Follows p p' where
  sound := h.sound hp
  paths_subset := h.paths_subset
  length_ids_le := Nat.le_of_eq (congrArg List.length h.registry.ids_eq)
  ids_ne_nil := fun hne => by rwa [h.registry.ids_eq]
  length_slots := h.registry.length_slots

theorem of_reduced {p p' : Plan} (hp : p.Sound) (h : Reduced p p') : Follows p p' where
  sound := h.sound hp
  paths_subset := h.paths_subset
  length_ids_le := by
    cases h with
    | shift => exact Nat.le_refl _
    | discard h =>
      have hlen := Registry.length_ids_remove h
      exact Nat.le_of_succ_le (Nat.le_of_eq hlen)
  ids_ne_nil := by
    intro hne
    cases h with
    | shift => exact hne
    | discard h htwo =>
      have hlen := Registry.length_ids_remove h
      intro hnil
      simp only at hnil
      rw [hnil] at hlen
      simp only [List.length_nil] at hlen
      omega
  length_slots := by
    cases h with
    | shift => rfl
    | discard h => exact Registry.length_slots_remove h

end Follows

/-! ## Moves that are tried -/

/-- Moving a cut is decided by the split and the free nodes of its path. -/
theorem shift?_eq {p : Plan} {i : PathId} {sp : Split} (hsp : p.split? i = some sp) (x : Qubit) :
    p.shift? i x = .ok ((sp.shift? x (p.isFree i)).map fun sp' =>
      { p with splits := p.splits.set i (some sp') }) := by
  unfold shift?
  rw [fetch_eq_ok (split?_eq_some_iff.mp hsp), ok_bind]
  dsimp only
  cases sp.shift? x (p.isFree i) with
  | none => rfl
  | some sp' =>
    simp only [store_eq_ok _ (lt_length_splits hsp), ok_bind, pure_eq_ok]
    rfl

/-- Discarding a path empties its slot and its split. -/
theorem discard_eq {p : Plan} (hp : p.Sound) {i : PathId} {registry : Registry}
    (h : p.registry.remove i = .ok registry) :
    p.discard i = .ok ⟨registry, p.splits.set i none⟩ := by
  obtain ⟨⟨s, hs⟩, -⟩ := Registry.remove_eq_ok_iff.mp h
  unfold discard
  rw [h]
  simp only [store_eq_ok _ (hp.lt_length_splits hs), ok_bind, pure_eq_ok]

/-- Trying to move a cut at a crossing never faults, and a move reduces the plan. -/
theorem shift?_total {p : Plan} {i : PathId} (x : Qubit) (hcut : p.isCut i = true) :
    ∃ o, p.shift? i x = .ok o ∧ ∀ p', o = some p' → Reduced p p' := by
  obtain ⟨s, sp, hs, hsp, -⟩ := isCut_iff.mp hcut
  refine ⟨_, shift?_eq hsp x, fun p' h' => ?_⟩
  obtain ⟨sp', h, rfl⟩ := Option.map_eq_some_iff.mp h'
  exact .shift hsp hcut h

/-- Discarding one of several paths never faults, and reduces the plan. -/
theorem discard_total {p : Plan} (hp : p.Sound) {i : PathId}
    (hi : ∃ s, p.registry.slot? i = some s) (htwo : 2 ≤ p.registry.ids.length) :
    ∃ p', p.discard i = .ok p' ∧ Reduced p p' := by
  obtain ⟨registry, hreg⟩ := Registry.remove_total hi
  exact ⟨_, discard_eq hp hreg, .discard hreg htwo⟩

end Plan

end QubitRouting
