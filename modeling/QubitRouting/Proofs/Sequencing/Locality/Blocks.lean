import QubitRouting.Proofs.Sequencing.Locality.Order

/-!
# Groups of paths are sequenced on their own

The list of swaps that sequencing returns is made of blocks: each path that is left adds the swaps of its
cut, one path after the other (`blocksOf`). If the paths fall into two groups without a common node, the
blocks of one group are those that it gets when only its paths are registered (`generateSwaps_local`). In
which order the blocks come may depend on the other group.

The two runs are compared step by step. Registering the paths makes the registry of the group a part of the
whole one (`ofPaths?_part`), and so are the plans that sequencing starts with. Both loops keep it that
way (`Plan.Part.resolve`, `Plan.Part.order`).
-/

namespace QubitRouting

/-! ## Swaps in blocks -/

/-- The swaps cut into one block for each path: a path of `n` nodes takes `n - 2` swaps. -/
def blocksOf : List (List Qubit) → List Swap → List (List Qubit × List Swap)
  | [], _ => []
  | path :: paths, swaps =>
    (path, swaps.take (path.length - 2)) :: blocksOf paths (swaps.drop (path.length - 2))

@[simp] theorem map_fst_blocksOf : ∀ (paths : List (List Qubit)) (swaps : List Swap),
    (blocksOf paths swaps).map (·.1) = paths
  | [], _ => rfl
  | path :: paths, _ => congrArg (path :: ·) (map_fst_blocksOf paths _)

/-- The swaps are the blocks of the paths, one after the other, and each block walks the two ends of its
path up to a cut. -/
structure InBlocks (paths : List (List Qubit)) (swaps : List Swap) : Prop where
  /-- No path has two blocks. -/
  nodup : paths.Nodup
  flatten_eq : (blocksOf paths swaps).flatMap (·.2) = swaps
  cut : ∀ b ∈ blocksOf paths swaps, ∃ sp : Split, sp.before ≠ [] ∧ sp.after ≠ [] ∧ b = (sp.nodes, sp.swaps)

namespace Plan

/-- Each path with the swaps of its cut, slot by slot. -/
def blocks (p : Plan) : List (List Qubit × List Swap) :=
  p.splits.filterMap (Option.map fun sp => (sp.nodes, sp.swaps))

theorem mem_blocks_iff {p : Plan} {b : List Qubit × List Swap} :
    b ∈ p.blocks ↔ ∃ i sp, p.split? i = some sp ∧ (sp.nodes, sp.swaps) = b := by
  unfold blocks
  rw [List.mem_filterMap]
  constructor
  · rintro ⟨o, ho, hb⟩
    obtain ⟨sp, rfl, rfl⟩ := Option.map_eq_some_iff.mp hb
    obtain ⟨i, hi⟩ := List.mem_iff_getElem?.mp ho
    exact ⟨i, sp, split?_eq_some_iff.mpr hi, rfl⟩
  · rintro ⟨i, sp, hsp, rfl⟩
    exact ⟨some sp, List.mem_of_getElem? (split?_eq_some_iff.mp hsp), rfl⟩

/-- A slot and what is known of its cut. -/
def Fits : Option Slot → Option Split → Prop
  | some s, some sp => sp.nodes = s.nodes ∧ sp.before ≠ [] ∧ sp.after ≠ []
  | none, none => True
  | _, _ => False

theorem Aligned.forall₂ {p : Plan} (h : p.Aligned) : List.Forall₂ Fits p.registry.slots p.splits := by
  refine List.forall₂_iff_get.mpr ⟨h.1.symm, fun i hi hi' => ?_⟩
  have hfits := h.2 i
  rw [Registry.slot?, List.getElem?_eq_getElem hi, List.getElem?_eq_getElem hi'] at hfits
  exact hfits

/-- The lengths of the paths say where the swaps of one end and those of the next begin. -/
theorem blocksOf_of_fits {slots : List (Option Slot)} {splits : List (Option Split)}
    (h : List.Forall₂ Fits slots splits) :
    blocksOf (slots.filterMap (Option.map (·.nodes))) (slotSwaps splits) =
      splits.filterMap (Option.map fun sp => (sp.nodes, sp.swaps)) := by
  induction h with
  | nil => rfl
  | @cons o o' slots splits hfits _ ih =>
    match o, o', hfits with
    | none, none, _ => exact ih
    | some s, some sp, ⟨hnodes, hbefore, hafter⟩ =>
      have hlen : sp.swaps.length = s.nodes.length - 2 := by
        have := Split.length_swaps hbefore hafter
        rw [hnodes] at this
        omega
      show (s.nodes, (sp.swaps ++ slotSwaps splits).take (s.nodes.length - 2)) ::
        blocksOf (slots.filterMap (Option.map (·.nodes)))
          ((sp.swaps ++ slotSwaps splits).drop (s.nodes.length - 2)) = (sp.nodes, sp.swaps) :: _
      rw [List.take_left' hlen, List.drop_left' hlen, ih, hnodes]

/-- The blocks can be read off the paths and the swaps that sequencing returns. -/
theorem Sound.blocksOf_eq {p : Plan} (hp : p.Sound) : blocksOf p.registry.paths p.swaps = p.blocks := by
  rw [Registry.paths_eq]
  exact blocksOf_of_fits hp.aligned.forall₂

theorem flatMap_blocks (p : Plan) : p.blocks.flatMap (·.2) = p.swaps := by
  unfold blocks Plan.swaps
  induction p.splits with
  | nil => rfl
  | cons o splits ih =>
    cases o with
    | none => exact ih
    | some sp => exact congrArg (sp.swaps ++ ·) ih

/-- The swaps of a sound plan fall into blocks, one for each path. -/
theorem Sound.inBlocks {p : Plan} (hp : p.Sound) : InBlocks p.registry.paths p.swaps where
  nodup := hp.valid.paths_nodup
  flatten_eq := by rw [hp.blocksOf_eq, flatMap_blocks]
  cut := by
    intro b hb
    rw [hp.blocksOf_eq] at hb
    obtain ⟨i, sp, hsp, rfl⟩ := mem_blocks_iff.mp hb
    obtain ⟨s, hs, -⟩ := hp.aligned.slot_of_split hsp
    obtain ⟨sp', hsp', -, hbefore, hafter⟩ := hp.aligned.split_of_slot hs
    obtain rfl := Option.some.inj (hsp.symm.trans hsp')
    exact ⟨sp, hbefore, hafter, rfl⟩

theorem Sound.map_fst_blocks {p : Plan} (hp : p.Sound) : p.blocks.map (·.1) = p.registry.paths := by
  rw [← hp.blocksOf_eq, map_fst_blocksOf]

theorem Sound.blocks_nodup {p : Plan} (hp : p.Sound) : p.blocks.Nodup :=
  List.Nodup.of_map Prod.fst (hp.map_fst_blocks ▸ hp.valid.paths_nodup)

/-! ## The blocks of a part -/

/-- Exchanging slots reorders the blocks and changes none. -/
theorem Rearranged.mem_blocks_iff {p p' : Plan} {σ : Equiv.Perm PathId} (h : Rearranged p p' σ)
    {b : List Qubit × List Swap} : b ∈ p'.blocks ↔ b ∈ p.blocks := by
  rw [Plan.mem_blocks_iff, Plan.mem_blocks_iff]
  constructor
  · rintro ⟨i, sp, hsp, hb⟩
    exact ⟨σ i, sp, (h.split? i).symm.trans hsp, hb⟩
  · rintro ⟨i, sp, hsp, hb⟩
    refine ⟨σ.symm i, sp, ?_, hb⟩
    rw [h.split?, Equiv.apply_symm_apply, hsp]

/-- The blocks of the part are those whose path lies on its ground. -/
theorem Part.mem_blocks_iff {g : Sector} {q p : Plan} (h : Part g q p) {b : List Qubit × List Swap} :
    b ∈ q.blocks ↔ b ∈ p.blocks ∧ ∀ x ∈ b.1, g.ground x = true := by
  rw [Plan.mem_blocks_iff, Plan.mem_blocks_iff]
  constructor
  · rintro ⟨i, sp, hsp, rfl⟩
    obtain ⟨s, hs, hnodes⟩ := h.sound_part.aligned.slot_of_split hsp
    exact ⟨⟨g.rename i, sp, (h.split? i).trans hsp, rfl⟩, hnodes ▸ h.registry.inside hs⟩
  · rintro ⟨⟨j, sp, hsp, rfl⟩, hground⟩
    obtain ⟨s, hs, hnodes⟩ := h.sound.aligned.slot_of_split hsp
    obtain ⟨x, hx⟩ := List.exists_mem_of_ne_nil _ (h.sound.valid.nodes_ne_nil hs)
    have hheld : g.holds j = true := by
      rw [← h.registry.ground_eq hs hx]
      exact hground x (hnodes ▸ hx)
    obtain ⟨i, rfl⟩ := (g.holds_iff j).mp hheld
    exact ⟨i, sp, (h.split? i).symm.trans hsp, rfl⟩

/-- The blocks of the part are those of the whole on its ground. -/
theorem Reshuffled.mem_blocks_iff {g : Sector} {q p : Plan} (h : Reshuffled g q p)
    {b : List Qubit × List Swap} : b ∈ q.blocks ↔ b ∈ p.blocks ∧ ∀ x ∈ b.1, g.ground x = true := by
  obtain ⟨q₁, p₁, σ, τ, hpart, hq, hp⟩ := h
  rw [hq.mem_blocks_iff, hp.mem_blocks_iff, hpart.mem_blocks_iff]

/-- The plans that sequencing starts with, for a registry and a part of it. -/
theorem part_start {g : Sector} {q p : Registry} (h : Registry.Part g q p) (hq : q.Valid) (hp : p.Valid) :
    Part g (start q) (start p) where
  sound := sound_start hp
  sound_part := sound_start hq
  registry := h
  split? := by
    intro i
    rw [split?_start, split?_start, h.slot?, Option.map_map]
    rfl

/-- Sequencing a registry does with a part of it what it does with the part alone. -/
theorem sequenced_part {g : Sector} {q p : Registry} (h : Registry.Part g q p) (hq : q.Valid)
    (hp : p.Valid) : Together (sequenced q) (sequenced p) fun q' p' =>
      Follows (start q) q' ∧ Follows (start p) p' ∧ Reshuffled g q' p' := by
  have hrun : Together (sequenced q) (sequenced p) (Reshuffled g) := by
    rw [sequenced_eq hq, sequenced_eq hp]
    exact (part_start h hq hp).resolve.bind fun q' p' h' => h'.order
  obtain ⟨q', p', hq', hp', hreshuffled⟩ := hrun
  obtain ⟨q₁, hq₁, hfollows, -⟩ := sequenced_total hq
  obtain rfl := Except.ok.inj (hq'.symm.trans hq₁)
  obtain ⟨p₁, hp₁, hfollows', -⟩ := sequenced_total hp
  obtain rfl := Except.ok.inj (hp'.symm.trans hp₁)
  exact ⟨q', p', hq', hp', hfollows, hfollows', hreshuffled⟩

end Plan

namespace Registry

/-! ## Sequencing a group of paths -/

/-- No path of the group has a node in common with a path outside of it. -/
def Separates (inPart : List Qubit → Bool) (paths : List (List Qubit)) : Prop :=
  ∀ path ∈ paths, ∀ other ∈ paths, inPart path = true → inPart other = false → ∀ x ∈ path, x ∉ other

/-- The nodes of the group. -/
def groundOf (inPart : List Qubit → Bool) (paths : List (List Qubit)) (x : Qubit) : Bool :=
  (paths.filter inPart).any fun path => path.contains x

/-- Paths of the part and others have no node in common, so each node belongs to one of the two. -/
theorem groundOf_eq {inPart : List Qubit → Bool} {paths : List (List Qubit)}
    (hapart : Separates inPart paths) :
    ∀ path ∈ paths, ∀ x ∈ path, groundOf inPart paths x = inPart path := by
  intro path hpath x hx
  rw [Bool.eq_iff_iff, groundOf, List.any_eq_true]
  constructor
  · rintro ⟨path', hpath', hx'⟩
    obtain ⟨hpath', hin⟩ := List.mem_filter.mp hpath'
    by_contra hout
    exact hapart path' hpath' path hpath hin (Bool.eq_false_iff.mpr hout) x
      (List.contains_iff_mem.mp hx') hx
  · intro hin
    exact ⟨path, List.mem_filter.mpr ⟨hpath, hin⟩, List.contains_iff_mem.mpr hx⟩

/-- The blocks of a group are those of the group alone. -/
theorem blocks_perm {paths : List (List Qubit)} {r : Registry} (hr : ofPaths? paths = some r)
    {inPart : List Qubit → Bool} (hapart : Separates inPart paths) :
    ∃ r' p p', ofPaths? (paths.filter inPart) = some r' ∧ Plan.sequenced r = .ok p ∧
      Plan.sequenced r' = .ok p' ∧ p'.Sound ∧ (p.blocks.filter fun b => inPart b.1).Perm p'.blocks := by
  have hground := groundOf_eq hapart
  obtain ⟨hvalid, hpaths⟩ := ofPaths?_spec hr
  obtain ⟨g, r', hr', hg, hpart, -⟩ := ofPaths?_part hground hr
  obtain ⟨hvalid', -⟩ := ofPaths?_spec hr'
  obtain ⟨p', p, hp', hp, hfollows', hfollows, hreshuffled⟩ := Plan.sequenced_part hpart hvalid' hvalid
  refine ⟨r', p, p', hr', hp, hp', hfollows'.sound, ?_⟩
  refine (List.perm_ext_iff_of_nodup (hfollows.sound.blocks_nodup.filter _)
    hfollows'.sound.blocks_nodup).mpr fun b => ?_
  rw [List.mem_filter, hreshuffled.mem_blocks_iff, hg]
  refine and_congr_right fun hb => ?_
  -- the path of a block was registered, so it lies on the ground or off it
  have hkept : b.1 ∈ p.registry.paths := by
    rw [← hfollows.sound.map_fst_blocks]
    exact List.mem_map_of_mem hb
  have hmem : b.1 ∈ paths := hpaths ▸ hfollows.paths_subset hkept
  obtain ⟨i, s, hs, hnodes⟩ := mem_paths_iff.mp hkept
  obtain ⟨x, hx⟩ := List.exists_mem_of_ne_nil _ (hfollows.sound.valid.nodes_ne_nil hs)
  constructor
  · intro hin y hy
    rw [hground b.1 hmem y hy, hin]
  · intro hall
    rw [← hground b.1 hmem x (hnodes ▸ hx)]
    exact hall x (hnodes ▸ hx)

/-- A path alone is cut in the middle. -/
theorem blocks_single {path : List Qubit} {r : Registry} (hr : ofPaths? [path] = some r) :
    ∃ p, Plan.sequenced r = .ok p ∧ p.blocks = [(path, (Split.middle path).swaps)] := by
  rw [← List.nil_append [path]] at hr
  obtain ⟨r₀, h₀, -, rfl⟩ := ofPaths?_concat_iff.mp hr
  obtain rfl := Option.some.inj h₀
  refine ⟨Plan.start (empty.insert path), rfl, ?_⟩
  show [((Split.middle path).nodes, (Split.middle path).swaps)] = _
  rw [Split.nodes_middle]

theorem generateSwaps_eq {r : Registry} {p : Plan} (h : Plan.sequenced r = .ok p) :
    r.generateSwaps = .ok (p.swaps, p.registry) := by
  unfold generateSwaps
  rw [h]
  rfl

/-- Paths that were registered one after the other are sequenced group by group. Take any division of them
into two groups without a common node: what is left of the first group, and the block of swaps that each of
its paths adds, is the same as if only this group had been registered. In particular a path that has no node
in common with others is kept and cut in the middle.

No path can be registered twice, so a condition on paths says which of them are in the first group. -/
theorem generateSwaps_local {paths : List (List Qubit)} {r : Registry} (hr : ofPaths? paths = some r) :
    ∃ swaps kept, r.generateSwaps = .ok (swaps, kept) ∧ InBlocks kept.paths swaps ∧
      (∀ inPart : List Qubit → Bool, Separates inPart paths →
        ∃ r' swaps' kept', ofPaths? (paths.filter inPart) = some r' ∧
          r'.generateSwaps = .ok (swaps', kept') ∧ InBlocks kept'.paths swaps' ∧
          (kept.paths.filter inPart).Perm kept'.paths ∧
          ((blocksOf kept.paths swaps).filter fun b => inPart b.1).Perm (blocksOf kept'.paths swaps')) ∧
      ∀ path ∈ paths, (∀ other ∈ paths, other ≠ path → ∀ x ∈ path, x ∉ other) →
        (path, (Split.middle path).swaps) ∈ blocksOf kept.paths swaps := by
  obtain ⟨hvalid, hpaths⟩ := ofPaths?_spec hr
  obtain ⟨p, hp, hfollows, -⟩ := Plan.sequenced_total hvalid
  have hblocks := hfollows.sound.blocksOf_eq
  refine ⟨p.swaps, p.registry, generateSwaps_eq hp, hfollows.sound.inBlocks, ?_, ?_⟩
  · intro inPart hapart
    obtain ⟨r', p₁, p', hr', hp₁, hp', hsound', hperm⟩ := blocks_perm hr hapart
    obtain rfl := Except.ok.inj (hp.symm.trans hp₁)
    refine ⟨r', p'.swaps, p'.registry, hr', generateSwaps_eq hp', hsound'.inBlocks, ?_, ?_⟩
    · rw [← hfollows.sound.map_fst_blocks, ← hsound'.map_fst_blocks, List.filter_map]
      exact hperm.map (·.1)
    · rw [hblocks, hsound'.blocksOf_eq]
      exact hperm
  · intro path hpath halone
    have hnodup : paths.Nodup := hpaths ▸ hvalid.paths_nodup
    have hsingle : paths.filter (· == path) = [path] :=
      filter_eq_singleton (f := id) (by simpa using hnodup) hpath
    have hapart : Separates (· == path) paths := by
      intro path' _ other hother hsame hdiffers x hx
      rw [beq_iff_eq.mp hsame] at hx
      exact halone other hother (beq_eq_false_iff_ne.mp hdiffers) x hx
    obtain ⟨r', p₁, p', hr', hp₁, hp', -, hperm⟩ := blocks_perm hr hapart
    obtain rfl := Except.ok.inj (hp.symm.trans hp₁)
    rw [hsingle] at hr'
    obtain ⟨p₂, hp₂, hblock⟩ := blocks_single hr'
    obtain rfl := Except.ok.inj (hp'.symm.trans hp₂)
    rw [hblocks]
    rw [hblock] at hperm
    exact (List.mem_filter.mp (hperm.mem_iff.mpr List.mem_cons_self)).1

/-- A path that stands alone, registered between two that cross. -/
theorem crossingPair_local : ∃ r swaps kept swaps' kept',
    ofPaths? [[0, 1, 2, 3, 4], [7, 8, 9], [5, 2, 6]] = some r ∧
    r.generateSwaps = .ok (swaps, kept) ∧ crossingPair.generateSwaps = .ok (swaps', kept') ∧
    ((blocksOf kept.paths swaps).filter fun b => b.1.contains 2).Perm (blocksOf kept'.paths swaps') ∧
    ([7, 8, 9], [(9, 8)]) ∈ blocksOf kept.paths swaps := by
  obtain ⟨r, hr⟩ : ∃ r, ofPaths? [[0, 1, 2, 3, 4], [7, 8, 9], [5, 2, 6]] = some r :=
    Option.isSome_iff_exists.mp (by decide)
  obtain ⟨swaps, kept, hgen, -, hgroups, halone⟩ := generateSwaps_local hr
  obtain ⟨r', swaps', kept', hr', hgen', -, -, hperm⟩ :=
    hgroups (fun path => path.contains 2) (by unfold Separates; decide)
  have hpair : some crossingPair = some r' := hr'
  obtain rfl := Option.some.inj hpair
  exact ⟨r, swaps, kept, swaps', kept', hr, hgen, hgen', hperm, halone [7, 8, 9] (by decide) (by decide)⟩

end Registry

end QubitRouting
