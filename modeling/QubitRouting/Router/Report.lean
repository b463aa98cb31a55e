import QubitRouting.Config
import QubitRouting.Frontier
import QubitRouting.Layout
import QubitRouting.Sorting
import QubitRouting.SwapDepth
import QubitRouting.Tally

/-!
# What routing produces

A routed circuit is a list of operations on physical qubits: those of the input, each with the number
it has there, and the inserted swaps. Statistics say how it came about.
-/

namespace QubitRouting

/-- An entry of a routed circuit. -/
inductive RoutedOp where
  /-- Operation `index` of the input, on the qubits that it acts on at this point. -/
  | gate (index : Nat) (qubits : List Qubit)
  /-- An inserted swap. -/
  | swap (a b : Qubit)
deriving DecidableEq, Repr

/-- The swaps among the entries of a routed circuit. -/
def swapsOf (ops : List RoutedOp) : List Swap :=
  ops.filterMap fun
    | .gate _ _ => none
    | .swap a b => some (a, b)

/-- Why a circuit was not routed. -/
inductive RoutingError where
  | layoutTooSmall (layout circuit : Nat)
  | layoutWidth (layout coupling : Nat)
  | noRoute (a b : Qubit)
  | stalled (outstanding : Nat)
  | config (e : ConfigError)
  | fault (f : Fault)
deriving Repr

namespace RoutingError

/-- The wording of an error. -/
def message : RoutingError → String
  | layoutTooSmall l c => s!"the layout places {l} virtual qubits, but the circuit uses {c}"
  | layoutWidth l c =>
    s!"the layout covers {l} physical qubits, but the coupling graph has {c}"
  | noRoute a b => s!"no route from physical qubit {a} to {b}"
  | stalled n => s!"routing stalled with {n} interactions outstanding"
  | config e => e.message
  | fault f => f.message

end RoutingError

/-- A fault in a part of routing is a fault of routing. -/
instance : MonadLift (Except Fault) (Except RoutingError) where
  monadLift := Except.mapError RoutingError.fault

/-- Summary of a routing run. -/
structure RoutingStats where
  /-- Rounds that inserted swaps. -/
  rounds : Nat
  /-- Inserted swaps. -/
  swaps : Nat
  /-- Paths that were registered and then given up. -/
  discardedPaths : Nat
  /-- Ready interactions for which there was no path in some round. -/
  deferredInteractions : Nat
  /-- Rounds in which the closest interaction had to be routed on its own. -/
  forcedRoutes : Nat
  /-- Rounds by depth of their swaps. -/
  swapDepths : Tally Nat
  /-- Rounds by number of swaps. -/
  swapsPerRound : Tally Nat
  /-- How often each pair of virtual qubits, the lower one first, was routed. -/
  interactions : Tally (VirtualQubit × VirtualQubit)
deriving DecidableEq, Repr

namespace RoutingStats

/-- Nothing has happened yet. -/
def empty : RoutingStats :=
  ⟨0, 0, 0, 0, 0, [], [], []⟩

/-- Count the swaps of a round, if there are any. -/
def countSwaps (s : RoutingStats) (swaps : List Swap) : RoutingStats :=
  if swaps.isEmpty then s
  else
    { s with
      rounds := s.rounds + 1
      swaps := s.swaps + swaps.length
      swapDepths := s.swapDepths.count (fun a b => decide (a < b)) (swapDepth swaps)
      swapsPerRound := s.swapsPerRound.count (fun a b => decide (a < b)) swaps.length }

/-- Count an interaction that was routed. -/
def countInteraction (s : RoutingStats) (i : Interaction) : RoutingStats :=
  let pair := (min i.left i.right, max i.left i.right)
  { s with interactions := s.interactions.count (fun a b => !lexLe b a) pair }

end RoutingStats

/-- A routed circuit, where its qubits end up, and how it came about. -/
structure Routing where
  ops : List RoutedOp
  finalLayout : Layout
  stats : RoutingStats
deriving DecidableEq, Repr

end QubitRouting
