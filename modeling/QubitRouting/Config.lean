import QubitRouting.Decay
import QubitRouting.Decimal.Positional

/-!
# Settings of the router

Settings are changed one at a time, and a change that makes them unusable is refused. Settings that were
written directly are checked by `Config.validate`; where several are unusable, it names the first in the
order increment, period, threshold, number of paths.
-/

namespace QubitRouting

/-- How the router chooses its paths. -/
structure Config where
  /-- Avoid qubits that were swapped recently; without it, links count equally. -/
  decay : Option DecayPolicy
  /-- Remember paths. This has an effect only without decay, since decay changes the costs. -/
  caching : Bool
  /-- The number of nodes of the shortest path that is remembered. -/
  pathLengthThreshold : Nat
  /-- At most so many paths in a round. -/
  maxPathsPerRound : Option Nat
  /-- Discard paths before sequencing until no crossing shares more nodes than this. -/
  maxCrossingOrder : Option Nat
  /-- Try a path that does not fit again through each neighbour of either end. -/
  alternativePaths : Bool
deriving BEq, Repr

/-- Which setting is not usable. -/
inductive ConfigError where
  | decayIncrement (x : Float)
  | decayReset
  | pathLengthThreshold (n : Nat)
  | maxPathsPerRound
deriving Repr

namespace ConfigError

/-- The wording of an error. -/
def message : ConfigError → String
  | decayIncrement x =>
    "decay increment must be finite and non-negative, not " ++ Decimal.render x
  | decayReset => "decay reset interval cannot be zero"
  | pathLengthThreshold n => s!"path length threshold must be at least 2, not {n}"
  | maxPathsPerRound => "the number of paths per round cannot be zero"

end ConfigError

namespace DecayPolicy

/-- The policy used unless another one is asked for. -/
def standard : DecayPolicy :=
  ⟨0.001, 5⟩

/-- An increment must be finite and not negative, and a period cannot be empty. -/
def validate (p : DecayPolicy) : Except ConfigError Unit :=
  if !p.increment.isFinite || decide (p.increment < 0) then .error (.decayIncrement p.increment)
  else if p.reset = 0 then .error .decayReset
  else .ok ()

/-- A policy that is usable. -/
def make (increment : Float) (reset : Nat) : Except ConfigError DecayPolicy := do
  let p : DecayPolicy := ⟨increment, reset⟩
  p.validate
  return p

end DecayPolicy

namespace Config

/-- The settings used unless others are asked for. -/
def standard : Config where
  decay := some DecayPolicy.standard
  caching := true
  pathLengthThreshold := 3
  maxPathsPerRound := none
  maxCrossingOrder := none
  alternativePaths := true

/-- A path has at least two nodes. -/
def validateThreshold (n : Nat) : Except ConfigError Unit :=
  if n < 2 then .error (.pathLengthThreshold n) else .ok ()

/-- A round without paths would never end. -/
def validateMaxPaths (limit : Option Nat) : Except ConfigError Unit :=
  if limit = some 0 then .error .maxPathsPerRound else .ok ()

/-- Check all settings. -/
def validate (c : Config) : Except ConfigError Unit := do
  match c.decay with
  | some policy => policy.validate
  | none => pure ()
  validateThreshold c.pathLengthThreshold
  validateMaxPaths c.maxPathsPerRound

/-- The settings with another decay policy. -/
def withDecay (c : Config) (increment : Float) (reset : Nat) : Except ConfigError Config := do
  return { c with decay := some (← DecayPolicy.make increment reset) }

/-- The settings without decay. -/
def withoutDecay (c : Config) : Config :=
  { c with decay := none }

/-- The settings with caching on or off. -/
def withCaching (c : Config) (caching : Bool) (threshold : Nat) : Except ConfigError Config := do
  validateThreshold threshold
  return { c with caching, pathLengthThreshold := threshold }

/-- The settings with another limit on the paths of a round. -/
def withMaxPaths (c : Config) (limit : Option Nat) : Except ConfigError Config := do
  validateMaxPaths limit
  return { c with maxPathsPerRound := limit }

/-- The settings with another limit on the order of crossings. -/
def withMaxCrossingOrder (c : Config) (order : Option Nat) : Config :=
  { c with maxCrossingOrder := order }

/-- The settings with alternative paths on or off. -/
def withAlternativePaths (c : Config) (enable : Bool) : Config :=
  { c with alternativePaths := enable }

end Config

end QubitRouting
