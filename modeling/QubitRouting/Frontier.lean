import QubitRouting.Circuit
import QubitRouting.Fault

/-!
# The frontier of a circuit

The frontier separates what has been executed from what has not. An operation on one qubit needs no
routing and is completed as soon as everything before it is. An operation on two qubits becomes ready
then, and waits until it is resolved.
-/

namespace QubitRouting

/-- A ready operation on two qubits. -/
structure Interaction where
  op : Nat
  left : VirtualQubit
  right : VirtualQubit
deriving DecidableEq, Repr

/-- How far a circuit has been executed. -/
structure Frontier where
  circuit : Circuit
  /-- For each operation, the number of operations it still waits for. -/
  waiting : List Nat
  /-- The ready interactions, in the order in which they became ready. -/
  ready : List Interaction
  /-- For each qubit, the ready operation that acts on it. -/
  holder : List (Option Nat)
  /-- The operations completed since they were last taken, in order. -/
  completed : List Nat
deriving DecidableEq, Repr

namespace Interaction

/-- Does the interaction act on exactly these two qubits? -/
def isOn (i : Interaction) (a b : VirtualQubit) : Bool :=
  (i.left == a && i.right == b) || (i.left == b && i.right == a)

end Interaction

namespace Frontier

/-- One operation less to wait for, for operation `k`; the answer also lists what became free. -/
def countDown (state : Frontier × List Nat) (k : Nat) : Except Fault (Frontier × List Nat) := do
  let (f, freed) := state
  let rest ← subtract (← fetch f.waiting k) 1
  let f' := { f with waiting := ← store f.waiting k rest }
  return (f', if rest = 0 then freed ++ [k] else freed)

/-- Operation `k` is complete: what waits for it waits for one less. -/
def complete (f : Frontier) (k : Nat) : Except Fault (Frontier × List Nat) :=
  (f.circuit.successors k).foldlM countDown ({ f with completed := f.completed ++ [k] }, [])

/-- Operation `k` on two qubits becomes ready. -/
def enter (f : Frontier) (k : Nat) (a b : VirtualQubit) : Except Fault Frontier := do
  let holder ← store f.holder a (some k)
  let holder ← store holder b (some k)
  return { f with holder, ready := f.ready ++ [⟨k, a, b⟩] }

/-- Walk forwards from operations that wait for nothing, first in first out, in at most the given number
of turns. -/
def advance : Nat → List Nat → Frontier → Except Fault Frontier
  | _, [], f => .ok f
  | 0, _ :: _, _ => .error .exhausted
  | turns + 1, k :: queue, f => do
    match (← fetch f.circuit.ops k).interaction? with
    | some (a, b) => advance turns queue (← f.enter k a b)
    | none =>
      let (f', freed) ← f.complete k
      advance turns (queue ++ freed) f'

/-- The frontier before anything is resolved. -/
def start (c : Circuit) : Except Fault Frontier :=
  advance c.size c.firstLayer
    { circuit := c
      waiting := (List.range c.size).map c.indegree
      ready := []
      holder := List.replicate c.numQubits none
      completed := [] }

/-- The ready operation that acts on a qubit. -/
def interactionOn (f : Frontier) (q : VirtualQubit) : Except Fault (Option Nat) :=
  fetch f.holder q

/-- The ready interaction on exactly the qubits `a` and `b`. -/
def findReady? (f : Frontier) (a b : VirtualQubit) : Except Fault (Option Interaction) := do
  match ← fetch f.holder a with
  | none => return none
  | some k => return (f.ready.find? fun i => i.op == k).filter fun i => i.isOn a b

/-- The ready interaction on `a` and `b` has been executed: move past it. The answer is the operation
and the new frontier, or `none` if there is no such interaction. -/
def resolve? (f : Frontier) (a b : VirtualQubit) : Except Fault (Option (Nat × Frontier)) := do
  match ← f.findReady? a b with
  | none => return none
  | some i =>
    let holder ← store f.holder a none
    let holder ← store holder b none
    let f' := { f with holder, ready := f.ready.filter fun r => r.op != i.op }
    let (f', freed) ← f'.complete i.op
    return some (i.op, ← advance f.circuit.size freed f')

/-- Take the operations completed since the last call. -/
def drain (f : Frontier) : List Nat × Frontier :=
  (f.completed, { f with completed := [] })

/-- Is there nothing left to resolve? -/
def isDone (f : Frontier) : Bool :=
  f.ready.isEmpty

end Frontier

end QubitRouting
