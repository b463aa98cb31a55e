import QubitRouting.Coupling
import QubitRouting.Router.Report

/-!
# Routing under way

`Progress` is everything that changes while a circuit is routed. Operations that have become executable
are emitted at the layout of the moment; a swap changes the layout and is emitted as well.
-/

namespace QubitRouting

/-- How far a circuit has been routed. -/
structure Progress where
  frontier : Frontier
  layout : Layout
  decay : Option Decay
  ops : List RoutedOp
  stats : RoutingStats
deriving Repr

/-- A ready interaction and where its two qubits sit. -/
structure Placed where
  interaction : Interaction
  a : Qubit
  b : Qubit
deriving DecidableEq, Repr

namespace Progress

/-- Nothing is routed yet. -/
def start (c : Circuit) (layout : Layout) (decay : Option Decay) : Except Fault Progress := do
  return ⟨← Frontier.start c, layout, decay, [], RoutingStats.empty⟩

/-- Operation `k` on the qubits where it would act now. -/
def gate (p : Progress) (k : Nat) : Except Fault RoutedOp := do
  let op ← fetch p.frontier.circuit.ops k
  return .gate k (← op.qubits.mapM p.layout.toPhysical)

/-- Emit what the frontier has completed. -/
def emitCompleted (p : Progress) : Except Fault Progress := do
  let (done, frontier) := p.frontier.drain
  return { p with frontier, ops := p.ops ++ (← done.mapM p.gate) }

/-- Where the qubits of an interaction sit. -/
def place (p : Progress) (i : Interaction) : Except Fault Placed := do
  return ⟨i, ← p.layout.toPhysical i.left, ← p.layout.toPhysical i.right⟩

/-- The ready interactions, and where they sit. -/
def placedReady (p : Progress) : Except Fault (List Placed) :=
  p.frontier.ready.mapM p.place

/-- Resolve one interaction, and count it if it was ready. -/
def resolveOne (state : Frontier × Nat) (i : Interaction) : Except Fault (Frontier × Nat) := do
  match ← state.1.resolve? i.left i.right with
  | some (_, frontier) => return (frontier, state.2 + 1)
  | none => return state

/-- Execute all ready interactions on coupled qubits, until there is none, in at most the given number
of turns. The answer also says how many were executed. -/
def executeWithin (c : Coupling) : Nat → Progress → Except Fault (Progress × Nat)
  | 0, _ => .error .exhausted
  | turns + 1, p => do
    let adjacent := (← p.placedReady).filter fun i => c.coupled i.a i.b
    if adjacent.isEmpty then return (p, 0)
    else
      let (frontier, executed) ← (adjacent.map (·.interaction)).foldlM resolveOne (p.frontier, 0)
      let p' ← { p with frontier }.emitCompleted
      let (p'', more) ← executeWithin c turns p'
      return (p'', executed + more)

/-- Execute all ready interactions on coupled qubits, until there is none. Each turn but the last
executes an operation. -/
def executeAdjacent (p : Progress) (c : Coupling) : Except Fault (Progress × Nat) :=
  executeWithin c (p.frontier.circuit.size + 1) p

/-- Carry out a swap. -/
def applySwap (p : Progress) (s : Swap) : Except Fault Progress := do
  let layout ← p.layout.swapPhysical s.1 s.2
  let decay ← match p.decay with
    | some d => some <$> d.registerSwap s
    | none => pure none
  return { p with layout, decay, ops := p.ops ++ [.swap s.1 s.2] }

end Progress

end QubitRouting
