import QubitRouting.Proofs.Router.Execution
import QubitRouting.Proofs.Router.Frames
import QubitRouting.Router.Route

/-!
# Every round makes progress

A round offers paths for the ready interactions and carries out the swaps of those that survive.
`carryOut_total` says what that does: the two qubits of every interaction whose path survives become
neighbours, so the interaction is executed in the same round, and since none was adjacent before there is
at least one swap. `gather_ensures` says that there is always a path to carry out: the first offer is
accepted, and neither the limit on crossings nor sequencing takes the last path away.

`turn_ensures` puts the two together: a round executes something and lowers the number of two-qubit
operations that are outstanding, so no route is ever forced.
-/

namespace QubitRouting

/-! ## Counting what is left -/

/-- Does the operation act on two qubits? -/
def Op.isPair : Op → Bool
  | .single _ => false
  | .pair _ _ => true

/-- The number of two-qubit operations that are not in the log. -/
def Circuit.outstanding (circuit : Circuit) (log : List Nat) : Nat :=
  circuit.ops.zipIdx.countP fun e => e.1.isPair && !log.contains e.2

theorem Circuit.outstanding_le (circuit : Circuit) (log : List Nat) :
    circuit.outstanding log ≤ circuit.ops.countP Op.isPair := by
  conv => rhs; rw [← List.zipIdx_map_fst 0 circuit.ops, List.countP_map]
  exact List.countP_mono_left fun e _ h => (Bool.and_eq_true_iff.mp h).1

/-- Executing an interaction leaves fewer of them. -/
theorem Circuit.outstanding_lt {circuit : Circuit} {log log' : List Nat} {i : Interaction}
    (hop : circuit.ops[i.op]? = some (.pair i.left i.right)) (hsub : log ⊆ log') (hnot : i.op ∉ log)
    (hmem : i.op ∈ log') : circuit.outstanding log' < circuit.outstanding log := by
  have he : (Op.pair i.left i.right, i.op) ∈ circuit.ops.zipIdx :=
    List.mem_zipIdx_iff_getElem?.mpr hop
  refine countP_lt_countP he (fun e _ h => ?_) ?_ ?_
  · obtain ⟨hpair, hlog⟩ := Bool.and_eq_true_iff.mp h
    refine Bool.and_eq_true_iff.mpr ⟨hpair, ?_⟩
    simp only [Bool.not_eq_true', List.contains_eq_mem, decide_eq_false_iff_not] at hlog ⊢
    exact fun hin => hlog (hsub hin)
  · simp [hmem]
  · simp [hnot, Op.isPair]

/-! ## Paths that survive -/

theorem Registry.isSome_find?_iff {r : Registry} {a b : Qubit} :
    (r.find? a b).isSome = true ↔ ∃ path ∈ r.paths, joins a b path = true := by
  unfold find? paths
  rw [Option.isSome_map, List.find?_isSome]
  simp

/-- The tally of pairs after the given interactions were routed. -/
def RoutingStats.countPairs (is : List Interaction) (t : Tally (VirtualQubit × VirtualQubit)) :
    Tally (VirtualQubit × VirtualQubit) :=
  is.foldl (fun t i => t.count (fun a b => !lexLe b a) (min i.left i.right, max i.left i.right)) t

/-- Routed interactions are counted in the tally of pairs and nowhere else. -/
theorem RoutingStats.foldl_countInteraction (is : List Interaction) (s : RoutingStats) :
    is.foldl countInteraction s = { s with interactions := countPairs is s.interactions } := by
  induction is generalizing s with
  | nil => rfl
  | cons i is ih => exact ih (s.countInteraction i)

namespace Progress

variable {c : Coupling} {circuit : Circuit} {start : Layout} {p p' : Progress}

/-- The pairs of positions that a path would have to join. -/
def readyPairs (p : Progress) : List (Qubit × Qubit) :=
  p.frontier.ready.map fun i => (p.layout.site i.left, p.layout.site i.right)

theorem Sound.with_stats (hp : Sound c circuit start p) (stats : RoutingStats) :
    Sound c circuit start { p with stats } :=
  ⟨hp.linked, hp.frontier, hp.executes, hp.matching, hp.numPhysical, hp.numVirtual, hp.decay⟩

/-- A path that joins an interaction and has its ends brought together makes it adjacent. -/
theorem Moved.adjacent_of_joins {swaps : List Swap} (hc : c.Connected) (hp : Sound c circuit start p)
    (h : Moved c circuit start p swaps p') {i : Interaction} (hi : i ∈ p.frontier.ready)
    {x y : Qubit} {path : List Qubit} (hroute : c.IsRoute x y path)
    (hjoined : ∀ a b, path.head? = some a → path.getLast? = some b →
      [carried swaps a, carried swaps b] <:+: path)
    (hjoins : joins (p.layout.site i.left) (p.layout.site i.right) path = true) :
    Adjacent c p'.layout i := by
  obtain ⟨⟨hleft, hright⟩, -⟩ := placed_lt hp hi
  unfold Adjacent
  rw [h.site_eq hleft, h.site_eq hright]
  rcases joins_iff.mp hjoins with ⟨hhead, hlast⟩ | ⟨hhead, hlast⟩
  · exact hroute.coupled_of_infix (hjoined _ _ hhead hlast)
  · exact hc.symm (hroute.coupled_of_infix (hjoined _ _ hhead hlast))

/-! ## Carrying out the paths that survive -/

section Survivors

variable {paths kept : Registry} {swaps : List Swap}
  (hserves : Router.Serves c p.readyPairs paths) (hseq : paths.Sequenced swaps kept)
include hserves hseq

/-- A path that survives is a route of a ready interaction. -/
theorem isRoute_of_kept {path : List Qubit} (hpath : path ∈ kept.paths) :
    ∃ i ∈ p.frontier.ready, c.IsRoute (p.layout.site i.left) (p.layout.site i.right) path := by
  obtain ⟨e, he, hroute⟩ := hserves.2 path (hseq.paths_subset hpath)
  obtain ⟨i, hi, rfl⟩ := List.mem_map.mp he
  exact ⟨i, hi, hroute⟩

/-- So every swap is along a link. -/
theorem coupled_of_mem_swaps (hc : c.Connected) :
    ∀ s ∈ swaps, c.coupled s.1 s.2 = true := by
  intro s hs
  obtain ⟨path, hpath, hlink⟩ := hseq.linkOf s hs
  obtain ⟨i, -, hroute⟩ := isRoute_of_kept hserves hseq hpath
  exact hroute.coupled_of_linkOf hc hlink

/-- Some path survives. It takes a swap, because its interaction was not adjacent. -/
theorem exists_survivor (hp : Sound c circuit start p) (hsettled : Settled c p)
    (hne : paths.ids ≠ []) : swaps ≠ [] ∧ ∃ i ∈ p.frontier.ready, ∃ path ∈ kept.paths,
      joins (p.layout.site i.left) (p.layout.site i.right) path = true := by
  obtain ⟨id, hid⟩ := List.exists_mem_of_ne_nil _ (hseq.ids_ne_nil hne)
  obtain ⟨s, hs⟩ := Registry.mem_ids_iff.mp hid
  have hpath : s.nodes ∈ kept.paths := Registry.mem_paths_iff.mpr ⟨id, s, hs, rfl⟩
  obtain ⟨i, hi, hroute⟩ := isRoute_of_kept hserves hseq hpath
  obtain ⟨-, -, -, hne⟩ := placed_lt hp hi
  have hlong := hroute.three_le_length hne (hsettled.apart i hi)
  exact ⟨hseq.swaps_ne_nil _ hpath hlong, i, hi, s.nodes, hpath,
    joins_iff.mpr (.inl ⟨hroute.head, hroute.last⟩)⟩

end Survivors

/-- The statistics after a round with swaps, entry by entry. -/
theorem carriedStats_eq (stats : RoutingStats) (placed : List Placed) (paths kept : Registry)
    {swaps : List Swap} (h : swaps ≠ []) :
    carriedStats stats placed paths kept swaps = { stats with
      rounds := stats.rounds + 1
      swaps := stats.swaps + swaps.length
      discardedPaths := stats.discardedPaths + (paths.size - kept.size)
      swapDepths := stats.swapDepths.count (fun a b => decide (a < b)) (swapDepth swaps)
      swapsPerRound := stats.swapsPerRound.count (fun a b => decide (a < b)) swaps.length
      interactions := RoutingStats.countPairs
        ((placed.filter fun i => (kept.find? i.a i.b).isSome).map (·.interaction)) stats.interactions } := by
  unfold carriedStats RoutingStats.countSwaps
  rw [if_neg (by simpa using h), RoutingStats.foldl_countInteraction]

/-- What carrying out registered paths has done: `swaps` are the swaps, `kept` are the paths that
survived, and `count` is the number of interactions executed. -/
structure CarriedOut (c : Coupling) (circuit : Circuit) (start : Layout) (p p' : Progress)
    (swaps : List Swap) (kept : Registry) (count : Nat) : Prop where
  sound : Sound c circuit start p'
  settled : Settled c p'
  kept_ne_nil : kept.paths ≠ []
  swaps_ne_nil : swaps ≠ []
  count_ne_zero : count ≠ 0
  outstanding_lt : circuit.outstanding (emitted p'.ops) < circuit.outstanding (emitted p.ops)
  rounds_eq : p'.stats.rounds = p.stats.rounds + 1
  forcedRoutes_eq : p'.stats.forcedRoutes = p.stats.forcedRoutes
  ops_eq : ∃ gates, p'.ops = p.ops ++ (swaps.map fun s => .swap s.1 s.2) ++ gates ∧
    ∀ i ∈ p.frontier.ready, (kept.find? (p.layout.site i.left) (p.layout.site i.right)).isSome = true →
      i.op ∈ emitted gates

/-- Sequencing paths for ready interactions, none of which is adjacent yet, swapping along those that
survive, and executing what has become adjacent. -/
theorem carried_total (hc : c.Connected) (hp : Sound c circuit start p) (hsettled : Settled c p)
    {paths : Registry} (hserves : Router.Serves c p.readyPairs paths) (hne : paths.ids ≠ []) :
    ∃ swaps kept p₁ p' count, paths.generateSwaps = .ok (swaps, kept) ∧ kept.size ≤ paths.size ∧
      swaps.foldlM applySwap { p with
        stats := carriedStats p.stats (p.frontier.ready.map (placeAt p.layout)) paths kept swaps } = .ok p₁ ∧
      p₁.executeAdjacent c = .ok (p', count) ∧ CarriedOut c circuit start p p' swaps kept count := by
  obtain ⟨swaps, kept, hgen, hseq⟩ := Registry.generateSwaps_total hserves.1
  obtain ⟨hswaps, i₀, hi₀, path₀, hpath₀, hjoins₀⟩ := exists_survivor hserves hseq hp hsettled hne
  have hsize : kept.size ≤ paths.size := by
    rw [hserves.1.size_eq, hseq.valid.size_eq]
    exact hseq.length_ids_le
  -- first the swaps, then everything they have made adjacent
  obtain ⟨p₁, hfold, hmoved⟩ := applySwaps_total hc (hp.with_stats
    (carriedStats p.stats (p.frontier.ready.map (placeAt p.layout)) paths kept swaps))
    (coupled_of_mem_swaps hserves hseq hc)
  have hdrained : p₁.frontier.completed = [] := by
    rw [hmoved.frontier_eq]
    exact hsettled.drained
  obtain ⟨p₂, count, hexec, hex⟩ := executeAdjacent_total hmoved.sound hdrained
  have hadjacent : ∀ i ∈ p.frontier.ready, ∀ path ∈ kept.paths,
      joins (p.layout.site i.left) (p.layout.site i.right) path = true →
      i ∈ p₁.frontier.ready ∧ Adjacent c p₁.layout i := by
    intro i hi path hpath hjoins
    obtain ⟨j, -, hroute⟩ := isRoute_of_kept hserves hseq hpath
    refine ⟨by rw [hmoved.frontier_eq]; exact hi, ?_⟩
    exact hmoved.adjacent_of_joins hc (hp.with_stats _) hi hroute (hseq.joined path hpath) hjoins
  obtain ⟨hready₀, hadj₀⟩ := hadjacent i₀ hi₀ path₀ hpath₀ hjoins₀
  -- swaps leave the log as it is, so what is new in it was emitted afterwards
  obtain ⟨ks, hops⟩ := hex.gates
  have hlog : emitted p₂.ops = emitted p.ops ++ ks := by
    rw [emitted_gates hops, hmoved.ops_eq, emitted_append, emitted_swaps, List.append_nil]
  have hnot : ∀ i ∈ p.frontier.ready, i.op ∉ emitted p.ops := by
    intro i hi hmem
    exact (hp.frontier.available_of_mem_ready hi).2.1 (List.mem_append_left _ hmem)
  have hstats := carriedStats_eq p.stats (p.frontier.ready.map (placeAt p.layout)) paths kept hswaps
  refine ⟨swaps, kept, p₁, p₂, count, hgen, hsize, hfold, hexec, hex.sound, hex.settled,
    List.ne_nil_of_mem hpath₀, hswaps, hex.count_ne_zero i₀ hready₀ hadj₀, ?_, ?_, ?_,
    ks.map (gateAt circuit p₁.layout), ?_, ?_⟩
  · refine Circuit.outstanding_lt (hp.frontier.ready_op i₀ hi₀) ?_ (hnot i₀ hi₀)
      (hex.executed i₀ hready₀ hadj₀)
    rw [hlog]
    exact List.subset_append_left _ _
  · rw [hex.stats_eq, hmoved.stats_eq, hstats]
  · rw [hex.stats_eq, hmoved.stats_eq, hstats]
  · rw [hops, hmoved.ops_eq]
  · intro i hi hfind
    obtain ⟨path, hpath, hjoins⟩ := Registry.isSome_find?_iff.mp hfind
    obtain ⟨hready, hadj⟩ := hadjacent i hi path hpath hjoins
    have hmem := hex.executed i hready hadj
    rw [hlog] at hmem
    rw [emitted_gateAt]
    exact (List.mem_append.mp hmem).resolve_left (hnot i hi)

end Progress

namespace Router

open Progress (Sound Settled CarriedOut placeAt placed_lt placedReady_eq carriedStats)

variable {c : Coupling} {config : Config} {circuit : Circuit} {start : Layout} {r : Router}
  {p : Progress}

/-! ## The paths of a round -/

theorem distance_total (hr : Fits c config r) {a b : Qubit} (ha : a < c.numQubits)
    (hb : b < c.numQubits) : ∃ d, r.distance a b = .ok d := by
  obtain ⟨row, d, hrow, hd⟩ := hr.connected.distances_total ha hb
  refine ⟨d, ?_⟩
  unfold distance
  rw [hr.distances_eq]
  rw [fetch_eq_ok hrow, ok_bind, fetch_eq_ok hd]
  rfl

/-- The order in which interactions are offered leaves none out. -/
theorem closestFirst_total (hr : Fits c config r) (hp : Sound c circuit start p) :
    ∃ placed, r.closestFirst p = .ok placed ∧
      placed.Perm (p.frontier.ready.map (placeAt p.layout)) := by
  have hdist : ∀ i ∈ p.frontier.ready.map (placeAt p.layout), ∃ d, r.distance i.a i.b = .ok d := by
    intro x hx
    obtain ⟨i, hi, rfl⟩ := List.mem_map.mp hx
    obtain ⟨-, ha, hb, -⟩ := placed_lt hp hi
    exact distance_total hr ha hb
  have hready := placedReady_eq hp
  generalize p.frontier.ready.map (placeAt p.layout) = placed at hdist hready ⊢
  choose! rank hrank using hdist
  have hranked : placed.mapM (fun i => do return (← r.distance i.a i.b, i)) =
      .ok (placed.map fun i => (rank i, i)) := by
    refine mapM_eq_ok fun i hi => ?_
    rw [hrank i hi]
    rfl
  have hsort := (sortBy_perm (fun x y : Nat × Placed => decide (x.1 ≤ y.1))
    (placed.map fun i => (rank i, i))).map (·.2)
  rw [List.map_map] at hsort
  refine ⟨_, ?_, hsort.trans (.of_eq (List.map_id placed))⟩
  unfold closestFirst
  rw [hready, ok_bind, hranked]
  rfl

/-- The limit on crossings only takes paths out, and not the last one. -/
theorem withinOrder_valid (h : r.paths.Valid) : r.withinOrder.Valid ∧
    r.withinOrder.paths ⊆ r.paths.paths ∧ r.withinOrder.size ≤ r.paths.size ∧
    (r.paths.ids ≠ [] → r.withinOrder.ids ≠ []) := by
  unfold withinOrder
  split
  next n _ =>
    obtain ⟨hvalid, hthin, hle, hne⟩ := Registry.shed_valid (n := n) (r.paths.offenders n) h
    refine ⟨hvalid, fun path hpath => ?_, ?_, hne⟩
    · obtain ⟨i, s, hs, rfl⟩ := Registry.mem_paths_iff.mp hpath
      obtain ⟨s₀, hs₀, hnodes⟩ := hthin i s hs
      exact Registry.mem_paths_iff.mpr ⟨i, s₀, hs₀, hnodes⟩
    · rw [h.size_eq]
      exact hvalid.size_eq ▸ hle
  next => exact ⟨h, List.Subset.refl _, Nat.le_refl _, id⟩

/-- What is offered for the ready interactions are routes, and if there is one there is a path. What was
registered before does not matter. -/
theorem offered_ensures (hr : Fits c config r) (hp : Sound c circuit start p) :
    Ensures (r.offered p)
      (fun answer => Serves c p.readyPairs answer.2.paths ∧ Fits c config answer.2 ∧
        (p.frontier.ready ≠ [] → answer.2.paths.ids ≠ []))
      (Overflows c config) := by
  have hclear : Fits c config r.clear := hr.with_paths Registry.empty
  obtain ⟨placed, hplaced, hperm⟩ := closestFirst_total hclear hp
  have hpairs : ∀ e ∈ p.readyPairs, e.1 < c.numQubits ∧ e.2 < c.numQubits ∧ e.1 ≠ e.2 := by
    intro e he
    obtain ⟨i, hi, rfl⟩ := List.mem_map.mp he
    exact (placed_lt hp hi).2
  have hoffered : (placed.map fun i => (i.a, i.b)).Perm p.readyPairs := by
    have h := hperm.map fun i => (i.a, i.b)
    rwa [List.map_map] at h
  have hempty : Serves c p.readyPairs r.clear.paths :=
    ⟨Registry.valid_empty, fun _ h => absurd h List.not_mem_nil⟩
  unfold offered
  dsimp only
  rw [hplaced, liftM_ok, ok_bind]
  refine (offer_ensures hp.decay hpairs _ hoffered.subset hclear hempty).mono
    fun answer h => ⟨h.1, h.2.1, fun hne => h.2.2 (.inl fun hnil => ?_)⟩
  rw [hnil] at hoffered
  exact hne (List.map_eq_nil_iff.mp hoffered.nil_eq.symm)

/-- What is known of the paths gathered for a round at `p`. -/
structure Gathered (c : Coupling) (config : Config) (p : Progress) (answer : Progress × Router) : Prop where
  fits : Fits c config answer.2
  serves : Serves c p.readyPairs answer.2.paths
  ids_ne_nil : answer.2.paths.ids ≠ []
  progress_eq : ∃ stats, answer.1 = { p with stats } ∧ stats.rounds = p.stats.rounds ∧
    stats.forcedRoutes = p.stats.forcedRoutes

/-- With something ready, a round has a path to carry out when it has gathered them. -/
theorem gather_ensures (hr : Fits c config r) (hp : Sound c circuit start p)
    (hne : p.frontier.ready ≠ []) :
    Ensures (r.gather p) (Gathered c config p) (Overflows c config) := by
  unfold gather
  refine (offered_ensures hr hp).bind fun answer h => ?_
  obtain ⟨deferred, r'⟩ := answer
  obtain ⟨hserves, hfits, hids⟩ := h
  dsimp only at hserves hfits hids ⊢
  obtain ⟨hvalid, hsub, hsize, hids'⟩ := withinOrder_valid hserves.1
  rw [subtract_eq_ok hsize, liftM_ok, ok_bind]
  exact ⟨hfits.with_paths _, hserves.of_subset hvalid hsub, hids' (hids hne), _, rfl, rfl, rfl⟩

/-! ## Carrying them out -/

/-- Carrying out, once it is known what sequencing answers. -/
theorem carryOut_eq (hp : Sound c circuit start p) {kept : Registry} {swaps : List Swap}
    (hgen : r.paths.generateSwaps = .ok (swaps, kept)) (hsize : kept.size ≤ r.paths.size) :
    r.carryOut p = (do
      let p' ← swaps.foldlM Progress.applySwap { p with
        stats := carriedStats p.stats (p.frontier.ready.map (placeAt p.layout)) r.paths kept swaps }
      let (p'', count) ← p'.executeAdjacent r.coupling
      return (p'', count, r.clear)) := by
  unfold carryOut
  rw [hgen, ok_bind]
  dsimp only
  rw [subtract_eq_ok hsize, ok_bind, placedReady_eq hp, ok_bind]
  rfl

/-- Paths for ready interactions, none of which is adjacent yet, can be carried out. -/
theorem carryOut_total (hr : Fits c config r) (hp : Sound c circuit start p) (hsettled : Settled c p)
    (hserves : Serves c p.readyPairs r.paths) (hne : r.paths.ids ≠ []) :
    ∃ swaps kept p' count, r.paths.generateSwaps = .ok (swaps, kept) ∧
      r.carryOut p = .ok (p', count, r.clear) ∧ CarriedOut c circuit start p p' swaps kept count := by
  obtain ⟨swaps, kept, p₁, p', count, hgen, hsize, hfold, hexec, hout⟩ :=
    Progress.carried_total hr.connected hp hsettled hserves hne
  refine ⟨swaps, kept, p', count, hgen, ?_, hout⟩
  rw [carryOut_eq hp hgen hsize, hfold, ok_bind, hr.coupling_eq, hexec]
  rfl

/-! ## One round -/

/-- What is known of the answer of a round at `p`. -/
def Rounded (c : Coupling) (config : Config) (circuit : Circuit) (start : Layout) (r : Router)
    (p : Progress) (answer : Progress × Nat × Router) : Prop :=
  Fits c config answer.2.2 ∧ ∃ p₁ r₁ swaps kept,
    r.gather p = .ok (p₁, r₁) ∧ r₁.paths.generateSwaps = .ok (swaps, kept) ∧
    CarriedOut c circuit start p answer.1 swaps kept answer.2.1

/-- A round with something ready carries out a path, or overflows a word. -/
theorem round_ensures (hr : Fits c config r) (hp : Sound c circuit start p) (hsettled : Settled c p)
    (hne : p.frontier.ready ≠ []) :
    Ensures (r.round p) (Rounded c config circuit start r p) (Overflows c config) := by
  unfold round
  refine (gather_ensures hr hp hne).and_eq.bind fun answer h => ?_
  obtain ⟨p₁, r₁⟩ := answer
  obtain ⟨hgather, hfits, hserves, hids, stats, hp₁, hrounds, hforced⟩ := h
  dsimp only at hfits hserves hids hp₁ ⊢
  subst hp₁
  obtain ⟨swaps, kept, p', count, hgen, hcarry, hout⟩ := carryOut_total hfits (hp.with_stats stats)
    ⟨hsettled.drained, hsettled.apart⟩ hserves hids
  rw [hcarry, liftM_ok]
  exact ⟨hfits.with_paths _, _, r₁, swaps, kept, hgather, hgen, hout.sound, hout.settled, hout.kept_ne_nil,
    hout.swaps_ne_nil, hout.count_ne_zero, hout.outstanding_lt, hrounds ▸ hout.rounds_eq,
    hforced ▸ hout.forcedRoutes_eq, hout.ops_eq⟩

/-- A round always executes something, so that no route is forced. -/
theorem turn_ensures (hr : Fits c config r) (hp : Sound c circuit start p) (hsettled : Settled c p)
    (hne : p.frontier.ready ≠ []) :
    Ensures (r.turn p)
      (fun answer => ∃ count, r.round p = .ok (answer.1, count, answer.2) ∧
        Rounded c config circuit start r p (answer.1, count, answer.2))
      (Overflows c config) := by
  unfold turn
  refine (round_ensures hr hp hsettled hne).and_eq.bind fun answer h => ?_
  obtain ⟨p', count, r'⟩ := answer
  obtain ⟨hround, hrounded⟩ := h
  have hcount : count ≠ 0 := let ⟨_, _, _, _, _, _, _, hout⟩ := hrounded; hout.count_ne_zero
  dsimp only
  rw [if_neg hcount]
  exact ⟨count, hround, hrounded⟩

end Router

end QubitRouting
