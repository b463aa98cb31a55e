import QubitRouting.Router.Paths
import QubitRouting.Router.Progress
import QubitRouting.Sequencing.Swaps

/-!
# Routing a circuit

A circuit is routed in rounds. Each round offers a path for every ready interaction, the closest first,
carries out the swaps of the paths that survive sequencing, and executes what has become executable.

The registry belongs to the router and outlives a round, so a round starts by clearing it.
-/

namespace QubitRouting

namespace Router

/-- The ready interactions by distance of their qubits, the closest first. -/
def closestFirst (r : Router) (p : Progress) : Except Fault (List Placed) := do
  let ranked ← (← p.placedReady).mapM fun i => do return (← r.distance i.a i.b, i)
  return (sortBy (fun x y => decide (x.1 ≤ y.1)) ranked).map (·.2)

/-- Offer paths for the ready interactions, and count those that get none. Nothing is registered at first. -/
def offered (r : Router) (p : Progress) : Except RoutingError (Nat × Router) := do
  let cleared := r.clear
  let pairs := (← cleared.closestFirst p).map fun i => (i.a, i.b)
  offer p.decay pairs cleared 0

/-- The registered paths without those that the limit on crossings excludes. -/
def withinOrder (r : Router) : Registry :=
  match r.config.maxCrossingOrder with
  | some n => r.paths.limitOrder n
  | none => r.paths

/-- Register the paths for a round, and count what offering them adds to the statistics. -/
def gather (r : Router) (p : Progress) : Except RoutingError (Progress × Router) := do
  let (deferred, r') ← r.offered p
  let paths := r'.withinOrder
  let discarded ← subtract r'.paths.size paths.size
  let stats := { p.stats with
    deferredInteractions := p.stats.deferredInteractions + deferred
    discardedPaths := p.stats.discardedPaths + discarded }
  return ({ p with stats }, { r' with paths })

/-- Turn the registered paths into swaps, carry them out, and execute what has become executable. Nothing is
registered afterwards. The answer also says how many interactions were executed. -/
def carryOut (r : Router) (p : Progress) : Except Fault (Progress × Nat × Router) := do
  let (swaps, paths) ← r.paths.generateSwaps
  let r' := { r with paths }
  let discarded ← subtract r.paths.size r'.paths.size
  let routed := (← p.placedReady).filter fun i => (r'.paths.find? i.a i.b).isSome
  let counted := (routed.map (·.interaction)).foldl RoutingStats.countInteraction
    { p.stats with discardedPaths := p.stats.discardedPaths + discarded }
  let p' ← swaps.foldlM Progress.applySwap { p with stats := counted.countSwaps swaps }
  let cleared := r'.clear
  let (p'', executed) ← p'.executeAdjacent cleared.coupling
  return (p'', executed, cleared)

/-- One round. The answer also says how many interactions were executed. -/
def round (r : Router) (p : Progress) : Except RoutingError (Progress × Nat × Router) := do
  let (p', r') ← r.gather p
  r'.carryOut p'

/-- Route only the closest ready interaction. A lone path never conflicts. -/
def forceClosest (r : Router) (p : Progress) : Except RoutingError (Progress × Nat × Router) := do
  let cleared := r.clear
  match ← cleared.closestFirst p with
  | [] => return (p, 0, cleared)
  | i :: _ =>
    let (path, r') ← cleared.path p.decay i.a i.b
    match r'.paths.add? path with
    | none => throw (.noRoute i.a i.b)
    | some paths => carryOut { r' with paths } p

/-- A round, and a forced route if it executed nothing. -/
def turn (r : Router) (p : Progress) : Except RoutingError (Progress × Router) := do
  let (p', executed, r') ← r.round p
  if executed = 0 then
    let forced := { p'.stats with forcedRoutes := p'.stats.forcedRoutes + 1 }
    let (p'', executed', r'') ← r'.forceClosest { p' with stats := forced }
    if executed' = 0 then throw (.stalled p''.frontier.ready.length) else return (p'', r'')
  else return (p', r')

/-- Turn after turn until everything is executed, at most the given number of them. -/
def runWithin : Nat → Router → Progress → Except RoutingError (Progress × Router)
  | 0, _, _ => .error (.fault .exhausted)
  | turns + 1, r, p =>
    if p.frontier.isDone then .ok (p, r)
    else do
      let (p', r') ← r.turn p
      runWithin turns r' p'

/-- What can be executed before any swap. -/
def begin (r : Router) (c : Circuit) (layout : Layout) : Except Fault Progress := do
  let decay := r.config.decay.map (Decay.start r.coupling.numQubits)
  let p ← (← Progress.start c layout decay).emitCompleted
  return (← p.executeAdjacent r.coupling).1

/-- Route a circuit from a layout. Each turn executes an operation, which bounds their number. The
answer also holds the router with all paths that it has found, and none registered. -/
def route (r : Router) (c : Circuit) (layout : Layout) : Except RoutingError (Routing × Router) := do
  if layout.numPhysical ≠ r.coupling.numQubits then
    throw (.layoutWidth layout.numPhysical r.coupling.numQubits)
  if layout.numVirtual < c.numQubits then
    throw (.layoutTooSmall layout.numVirtual c.numQubits)
  let p ← r.begin c layout
  let (p', r') ← runWithin (c.size + 1) r p
  return (⟨p'.ops, p'.layout, p'.stats⟩, r'.clear)

end Router

/-- Route a circuit with a router of its own. -/
def routeCircuit (coupling : Coupling) (c : Circuit) (layout : Layout) (config : Config) :
    Except RoutingError Routing := do
  let r ← (Router.make coupling config).mapError RoutingError.config
  return (← r.route c layout).1

end QubitRouting
