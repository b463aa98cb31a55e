import QubitRouting.Proofs.Router.Offers
import QubitRouting.Router.Route

/-!
# What the steps of a round leave alone

A round is taken apart into its steps here, whatever the circuit and the layout are. Emitting and executing
operations leave the weights and the statistics as they are, and add no swap (`executeAdjacent_quiet`);
swapping changes the weights, but not whether there are any (`applySwaps_frame`). So the statistics of a
round are those that `gather` and `carryOut` write themselves (`gather_eq_ok`, `carryOut_eq_ok`).
-/

namespace QubitRouting

theorem swapsOf_append (ops ops' : List RoutedOp) :
    swapsOf (ops ++ ops') = swapsOf ops ++ swapsOf ops' :=
  List.filterMap_append

theorem liftM_eq_ok_iff {α : Type} {x : Except Fault α} {a : α} :
    (liftM x : Except RoutingError α) = .ok a ↔ x = .ok a := by
  cases x with
  | ok b => exact ⟨fun h => by rw [Except.ok.inj h], fun h => by rw [Except.ok.inj h]; rfl⟩
  | error e => exact ⟨fun h => by contradiction, fun h => by contradiction⟩

namespace Progress

variable {c : Coupling} {p p' : Progress}

/-- Operations may have been emitted, but no swap, and weights and statistics are the same. -/
structure Quiet (p p' : Progress) : Prop where
  stats_eq : p'.stats = p.stats
  decay_eq : p'.decay = p.decay
  swapsOf_eq : swapsOf p'.ops = swapsOf p.ops

theorem Quiet.trans {p₁ p₂ p₃ : Progress} (h : Quiet p₁ p₂) (h' : Quiet p₂ p₃) : Quiet p₁ p₃ where
  stats_eq := h'.stats_eq.trans h.stats_eq
  decay_eq := h'.decay_eq.trans h.decay_eq
  swapsOf_eq := h'.swapsOf_eq.trans h.swapsOf_eq

/-- Gates are no swaps. -/
theorem swapsOf_gates : ∀ {ks : List Nat} {gates : List RoutedOp},
    ks.mapM p.gate = .ok gates → swapsOf gates = []
  | [], gates, h => by
    obtain rfl := Except.ok.inj h
    rfl
  | k :: ks, gates, h => by
    rw [List.mapM_cons] at h
    obtain ⟨gate, hgate, h⟩ := bind_eq_ok_iff.mp h
    obtain ⟨rest, hrest, h⟩ := bind_eq_ok_iff.mp h
    obtain rfl := Except.ok.inj h
    obtain ⟨op, -, hgate⟩ := bind_eq_ok_iff.mp hgate
    obtain ⟨qs, -, hgate⟩ := bind_eq_ok_iff.mp hgate
    obtain rfl := Except.ok.inj hgate
    show swapsOf rest = []
    exact swapsOf_gates hrest

/-- Emitting operations adds no swap. -/
theorem emitCompleted_quiet (h : p.emitCompleted = .ok p') : Quiet p p' := by
  obtain ⟨gates, hgates, h⟩ := bind_eq_ok_iff.mp h
  obtain rfl := Except.ok.inj h
  refine ⟨rfl, rfl, ?_⟩
  rw [swapsOf_append, swapsOf_gates hgates, List.append_nil]

/-- Nor does executing them. -/
theorem executeWithin_quiet : ∀ {turns count : Nat} {p p' : Progress},
    executeWithin c turns p = .ok (p', count) → Quiet p p'
  | 0, _, _, _, h => by contradiction
  | turns + 1, count, p, p', h => by
    unfold executeWithin at h
    obtain ⟨placed, -, h⟩ := bind_eq_ok_iff.mp h
    dsimp only at h
    split at h
    next =>
      obtain ⟨rfl, -⟩ := Prod.mk.inj (Except.ok.inj h)
      exact ⟨rfl, rfl, rfl⟩
    next =>
      obtain ⟨⟨frontier, executed⟩, -, h⟩ := bind_eq_ok_iff.mp h
      obtain ⟨p₁, hemit, h⟩ := bind_eq_ok_iff.mp h
      obtain ⟨⟨p₂, more⟩, hrest, h⟩ := bind_eq_ok_iff.mp h
      obtain ⟨rfl, -⟩ := Prod.mk.inj (Except.ok.inj h)
      have hresolved : Quiet p { p with frontier } := ⟨rfl, rfl, rfl⟩
      exact (hresolved.trans (emitCompleted_quiet hemit)).trans (executeWithin_quiet hrest)

/-- Executing operations leaves the statistics and the weights alone. -/
theorem executeAdjacent_quiet {count : Nat} (h : p.executeAdjacent c = .ok (p', count)) :
    Quiet p p' :=
  executeWithin_quiet h

/-- A swap is emitted as it is. It leaves the statistics alone, and there are weights after it if there
were before. -/
theorem applySwap_frame {s : Swap} (h : p.applySwap s = .ok p') :
    p'.stats = p.stats ∧ p'.decay.isSome = p.decay.isSome ∧ swapsOf p'.ops = swapsOf p.ops ++ [s] := by
  have hone : swapsOf (p.ops ++ [.swap s.1 s.2]) = swapsOf p.ops ++ [s] := swapsOf_append _ _
  unfold applySwap at h
  obtain ⟨layout, -, h⟩ := bind_eq_ok_iff.mp h
  dsimp only at h
  split at h
  next d hd =>
    cases hregister : d.registerSwap s with
    | error e =>
      rw [hregister] at h
      contradiction
    | ok d' =>
      rw [hregister] at h
      obtain rfl := Except.ok.inj h
      rw [hd]
      exact ⟨rfl, rfl, hone⟩
  next hd =>
    obtain rfl := Except.ok.inj h
    rw [hd]
    exact ⟨rfl, rfl, hone⟩

/-- Swaps leave the statistics alone, and there are weights after them if there were any before. -/
theorem applySwaps_frame {swaps : List Swap} (h : swaps.foldlM applySwap p = .ok p') :
    p'.stats = p.stats ∧ p'.decay.isSome = p.decay.isSome ∧ swapsOf p'.ops = swapsOf p.ops ++ swaps := by
  refine foldlM_invariant h (fun done p' => p'.stats = p.stats ∧ p'.decay.isSome = p.decay.isSome ∧
    swapsOf p'.ops = swapsOf p.ops ++ done) ⟨rfl, rfl, (List.append_nil _).symm⟩ ?_
  intro done s rest p₁ p₂ _ h₁ happly
  obtain ⟨hstats, hdecay, hops⟩ := applySwap_frame happly
  refine ⟨hstats.trans h₁.1, hdecay.trans h₁.2.1, ?_⟩
  rw [hops, h₁.2.2, List.append_assoc]

/-- The statistics that `carryOut` writes, given what is ready and where. -/
def carriedStats (stats : RoutingStats) (placed : List Placed) (paths kept : Registry)
    (swaps : List Swap) : RoutingStats :=
  (((placed.filter fun i => (kept.find? i.a i.b).isSome).map (·.interaction)).foldl
    RoutingStats.countInteraction
    { stats with discardedPaths := stats.discardedPaths + (paths.size - kept.size) }).countSwaps swaps

end Progress

namespace Router

variable {r : Router} {p : Progress}

/-- Paths are offered for the ready interactions, the closest first, to an empty registry. -/
theorem offered_eq_ok {answer : Nat × Router} (h : r.offered p = .ok answer) :
    ∃ placed, r.closestFirst p = .ok placed ∧
      offer p.decay (placed.map fun i => (i.a, i.b)) r.clear 0 = .ok answer := by
  obtain ⟨placed, hplaced, hoffer⟩ := bind_eq_ok_iff.mp h
  exact ⟨placed, liftM_eq_ok_iff.mp hplaced, hoffer⟩

/-- What `gather` has done: paths were offered for the ready interactions, the limit on crossings was
applied, and the statistics count what got no path and what was given up. -/
theorem gather_eq_ok {answer : Progress × Router} (h : r.gather p = .ok answer) :
    ∃ deferred r₁, r.offered p = .ok (deferred, r₁) ∧ r₁.withinOrder.size ≤ r₁.paths.size ∧
      answer.2 = { r₁ with paths := r₁.withinOrder } ∧
      answer.1 = { p with stats := { p.stats with
        deferredInteractions := p.stats.deferredInteractions + deferred
        discardedPaths := p.stats.discardedPaths + (r₁.paths.size - r₁.withinOrder.size) } } := by
  obtain ⟨⟨deferred, r₁⟩, hoffered, h⟩ := bind_eq_ok_iff.mp h
  obtain ⟨discarded, hsub, h⟩ := bind_eq_ok_iff.mp h
  obtain rfl := Except.ok.inj h
  obtain ⟨hsize, rfl⟩ := subtract_eq_ok_iff.mp (liftM_eq_ok_iff.mp hsub)
  exact ⟨deferred, r₁, hoffered, hsize, rfl, rfl⟩

/-- What `carryOut` has done to the router, the weights, the statistics and the swaps. -/
theorem carryOut_eq_ok {p' : Progress} {count : Nat} {r' : Router} (h : r.carryOut p = .ok (p', count, r')) :
    r' = r.clear ∧ p'.decay.isSome = p.decay.isSome ∧ ∃ swaps kept placed,
      r.paths.generateSwaps = .ok (swaps, kept) ∧ kept.size ≤ r.paths.size ∧
      p.placedReady = .ok placed ∧ p'.stats = Progress.carriedStats p.stats placed r.paths kept swaps ∧
      swapsOf p'.ops = swapsOf p.ops ++ swaps := by
  unfold carryOut at h
  obtain ⟨⟨swaps, kept⟩, hgen, h⟩ := bind_eq_ok_iff.mp h
  obtain ⟨discarded, hsub, h⟩ := bind_eq_ok_iff.mp h
  obtain ⟨placed, hplaced, h⟩ := bind_eq_ok_iff.mp h
  obtain ⟨p₁, hswaps, h⟩ := bind_eq_ok_iff.mp h
  obtain ⟨⟨p₂, executed⟩, hexec, h⟩ := bind_eq_ok_iff.mp h
  obtain ⟨rfl, hrest⟩ := Prod.mk.inj (Except.ok.inj h)
  obtain ⟨-, rfl⟩ := Prod.mk.inj hrest
  obtain ⟨hsize, rfl⟩ := subtract_eq_ok_iff.mp hsub
  obtain ⟨hstats, hdecay, hops⟩ := Progress.applySwaps_frame hswaps
  have hquiet := Progress.executeAdjacent_quiet hexec
  refine ⟨rfl, ?_, swaps, kept, placed, hgen, hsize, hplaced, hquiet.stats_eq.trans hstats,
    hquiet.swapsOf_eq.trans hops⟩
  rw [hquiet.decay_eq, hdecay]

/-- A round gathers paths and carries them out. -/
theorem round_eq_ok {answer : Progress × Nat × Router} (h : r.round p = .ok answer) :
    ∃ p₁ r₁, r.gather p = .ok (p₁, r₁) ∧ r₁.carryOut p₁ = .ok answer := by
  obtain ⟨⟨p₁, r₁⟩, hgather, h⟩ := bind_eq_ok_iff.mp h
  exact ⟨p₁, r₁, hgather, liftM_eq_ok_iff.mp h⟩

/-- Before the first round nothing has been counted, no swap was emitted, and the weights are new. -/
theorem begin_eq_ok {circuit : Circuit} {layout : Layout} (h : r.begin circuit layout = .ok p) :
    p.stats = RoutingStats.empty ∧ swapsOf p.ops = [] ∧
      p.decay = r.config.decay.map (Decay.start r.coupling.numQubits) := by
  unfold begin Progress.start at h
  obtain ⟨p₀, hstart, h⟩ := bind_eq_ok_iff.mp h
  obtain ⟨frontier, -, hp₀⟩ := bind_eq_ok_iff.mp hstart
  obtain rfl := Except.ok.inj hp₀
  obtain ⟨p₁, hemit, h⟩ := bind_eq_ok_iff.mp h
  obtain ⟨⟨p₂, count⟩, hexec, h⟩ := bind_eq_ok_iff.mp h
  obtain rfl := Except.ok.inj h
  have hquiet := (Progress.emitCompleted_quiet hemit).trans (Progress.executeAdjacent_quiet hexec)
  exact ⟨hquiet.stats_eq, hquiet.swapsOf_eq, hquiet.decay_eq⟩

/-- A routed circuit is what a run from the beginning has emitted. -/
theorem route_eq_ok {circuit : Circuit} {layout : Layout} {result : Routing} {r' : Router}
    (h : r.route circuit layout = .ok (result, r')) :
    ∃ p p' r₁, r.begin circuit layout = .ok p ∧ runWithin (circuit.size + 1) r p = .ok (p', r₁) ∧
      result = ⟨p'.ops, p'.layout, p'.stats⟩ ∧ r' = r₁.clear := by
  unfold route at h
  dsimp only at h
  split at h
  next => contradiction
  next =>
    split at h
    next => contradiction
    next =>
      obtain ⟨p, hbegin, h⟩ := bind_eq_ok_iff.mp h
      obtain ⟨⟨p', r₁⟩, hrun, h⟩ := bind_eq_ok_iff.mp h
      obtain ⟨hresult, hclear⟩ := Prod.mk.inj (Except.ok.inj h)
      exact ⟨p, p', r₁, liftM_eq_ok_iff.mp hbegin, hrun, hresult.symm, hclear.symm⟩

end Router

end QubitRouting
