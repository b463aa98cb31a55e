import QubitRouting.Fault
import QubitRouting.Qubit

/-!
# Decay weights

Every physical qubit has a weight, one at first, which grows with each swap on the qubit. A link costs
as much as the heavier of its ends, so searches avoid qubits that were swapped recently. Every so many
swaps all weights go back to one.
-/

namespace QubitRouting

/-- By how much a swap raises the weights, and after how many swaps they are reset. -/
structure DecayPolicy where
  increment : Float
  reset : Nat
deriving BEq, Repr

/-- The weights, and how many swaps were registered so far. -/
structure Decay where
  policy : DecayPolicy
  weights : List Float
  steps : Nat
deriving Repr

namespace Decay

/-- Weight one for each of `n` qubits. -/
def start (n : Nat) (policy : DecayPolicy) : Decay :=
  ⟨policy, List.replicate n 1.0, 0⟩

/-- All weights go back to one. -/
def resetAll (d : Decay) : Decay :=
  { d with weights := List.replicate d.weights.length 1.0 }

/-- The weight of a qubit. -/
def weight (d : Decay) (q : Qubit) : Except Fault Float :=
  fetch d.weights q

/-- The larger of two numbers; one that is not a number gives way to the other. -/
def heavier (x y : Float) : Float :=
  if x.isNaN then y else if y.isNaN then x else if x < y then y else x

/-- The cost of the link between two qubits. -/
def linkCost (d : Decay) (a b : Qubit) : Except Fault Float := do
  return heavier (← d.weight a) (← d.weight b)

/-- Raise the weight of one qubit. -/
def raise (d : Decay) (q : Qubit) : Except Fault Decay := do
  let w ← d.weight q
  return { d with weights := ← store d.weights q (w + d.policy.increment) }

/-- Count a swap. If it completes a period, all weights are reset and it adds nothing; otherwise it
raises the weights of its two qubits, the first one first. -/
def registerSwap (d : Decay) (s : Swap) : Except Fault Decay :=
  let counted := { d with steps := d.steps + 1 }
  if d.policy.reset = 0 then .error .zeroDivisor
  else if counted.steps % d.policy.reset = 0 then .ok counted.resetAll
  else do (← counted.raise s.1).raise s.2

end Decay

end QubitRouting
