import QubitRouting.Sequencing.Conflicts
import QubitRouting.Sequencing.Order

/-!
# From paths to swaps

`Registry.generateSwaps` answers with one list of swaps that brings the two ends of every path
together, and with the registry of the paths that it does this for. Each path is cut near its middle
and its ends walk in towards the cut. Where paths cross, cuts are moved and paths reordered so that no
path carries off the qubit of another; a path for which that fails is discarded.
-/

namespace QubitRouting

namespace Plan

/-- The plan that is carried out: cuts in the middle, then all conflicts dealt with. -/
def sequenced (r : Registry) : Except Fault Plan :=
  if 0 < r.maxOrder then do (← (start r).resolve).order
  else .ok (start r)

end Plan

namespace Registry

/-- The swaps that join the ends of every path, to be applied in this order, and the registry without
the paths that had to be discarded. -/
def generateSwaps (r : Registry) : Except Fault (List Swap × Registry) := do
  let plan ← Plan.sequenced r
  return (plan.swaps, plan.registry)

end Registry

end QubitRouting
