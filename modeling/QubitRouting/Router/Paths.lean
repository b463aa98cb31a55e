import QubitRouting.Coupling
import QubitRouting.Graph.Cheapest
import QubitRouting.PathCache
import QubitRouting.Registry
import QubitRouting.Router.Report

/-!
# Finding and offering paths

For each ready interaction a cheapest path between its qubits is offered to the registry. If it does not
fit, detours through the neighbours of either end are tried. Without decay, paths come from the cache
where possible.

A router keeps its registry and its cache from one circuit to the next.
-/

namespace QubitRouting

/-- A device, the settings, tables on the device that do not change, the paths that are registered at
present, and those found so far. -/
structure Router where
  coupling : Coupling
  config : Config
  adjacency : Array (List Qubit)
  distances : Array (Array (Option Nat))
  paths : Registry
  cache : PathCache
deriving Repr

/-- A path that starts or ends with a given step and searches for the rest. -/
structure Detour where
  source : Qubit
  target : Qubit
  lead : List Qubit
  trail : List Qubit
deriving DecidableEq, Repr

namespace Router

/-- A router with usable settings, an empty registry and an empty cache. -/
def make (coupling : Coupling) (config : Config) : Except ConfigError Router := do
  config.validate
  return ⟨coupling, config, coupling.adjacency, coupling.distances, Registry.empty,
    PathCache.empty config.pathLengthThreshold⟩

/-- The router with no path registered. -/
def clear (r : Router) : Router :=
  { r with paths := Registry.empty }

/-- The distance in links between two qubits. -/
def distance (r : Router) (a b : Qubit) : Except Fault Nat := do
  match ← fetch (← fetch r.distances a) b with
  | some d => return d
  | none => throw .outOfRange

/-- Search for a cheapest path: every link costs one, or what the decay weights say. -/
def search (r : Router) (decay : Option Decay) (a b : Qubit) : Except Fault (Option (List Qubit)) :=
  let succ (q : Qubit) := r.adjacency[q]?.getD []
  match decay with
  | some d => Graph.cheapestPath? succ d.linkCost r.coupling.numQubits a b
  | none => Graph.cheapestPath? succ (fun _ _ => .ok 1) r.coupling.numQubits a b

/-- Is the cache in use? -/
def usesCache (r : Router) (decay : Option Decay) : Bool :=
  decay.isNone && r.config.caching

/-- Search for a path, and remember it if the cache is in use. -/
def searchAndRemember (r : Router) (decay : Option Decay) (a b : Qubit) :
    Except RoutingError (List Qubit × Router) := do
  match ← r.search decay a b with
  | none => throw (.noRoute a b)
  | some path =>
    if r.usesCache decay then return (path, { r with cache := ← r.cache.add path })
    else return (path, r)

/-- A cheapest path from `a` to `b`, from the cache if it is in use and has one. -/
def path (r : Router) (decay : Option Decay) (a b : Qubit) :
    Except RoutingError (List Qubit × Router) :=
  match if r.usesCache decay then r.cache.get? a b else none with
  | some path => .ok (path, r)
  | none => r.searchAndRemember decay a b

/-- The detours from `a` to `b`: through a neighbour of `a`, then through a neighbour of `b`. -/
def detours (r : Router) (a b : Qubit) : List Detour :=
  ((r.coupling.neighbors a).filter fun q => q != b).map (fun q => ⟨q, b, [a], []⟩)
    ++ ((r.coupling.neighbors b).filter fun q => q != a).map (fun q => ⟨a, q, [], [b]⟩)

/-- Register the first detour that fits. The answer says whether one did. -/
def addDetour (decay : Option Decay) : List Detour → Router → Except RoutingError (Bool × Router)
  | [], r => .ok (false, r)
  | d :: rest, r => do
    let (middle, r') ← r.path decay d.source d.target
    match r'.paths.add? (d.lead ++ middle ++ d.trail) with
    | some paths => return (true, { r' with paths })
    | none => addDetour decay rest r'

/-- Register a path from `a` to `b`. The answer says whether there is one that fits. -/
def addPath (r : Router) (decay : Option Decay) (a b : Qubit) : Except RoutingError (Bool × Router) := do
  let (direct, r') ← r.path decay a b
  match r'.paths.add? direct with
  | some paths => return (true, { r' with paths })
  | none =>
    if r'.config.alternativePaths then addDetour decay (r'.detours a b) r'
    else return (false, r')

/-- Are there as many paths as a round may have? -/
def isFull (r : Router) : Bool :=
  match r.config.maxPathsPerRound with
  | some limit => decide (limit ≤ r.paths.size)
  | none => false

/-- Offer a path for each pair of qubits in turn, and count the pairs that get none. -/
def offer (decay : Option Decay) :
    List (Qubit × Qubit) → Router → Nat → Except RoutingError (Nat × Router)
  | [], r, deferred => .ok (deferred, r)
  | e :: rest, r, deferred =>
    if r.isFull then .ok (deferred + (rest.length + 1), r)
    else do
      match ← r.addPath decay e.1 e.2 with
      | (true, r') => offer decay rest r' deferred
      | (false, r') => offer decay rest r' (deferred + 1)

end Router

end QubitRouting
