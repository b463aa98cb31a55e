import QubitRouting.Graph.Arcs
import QubitRouting.Qubit

/-!
# Circuits

A circuit is a list of operations on one or two virtual qubits. What the operations do is left open;
what counts is which of them have to wait for which: an operation depends on the previous operation on
each of its qubits.
-/

namespace QubitRouting

/-- An operation on one qubit, or on two different ones. -/
inductive Op where
  | single (q : VirtualQubit)
  | pair (a b : VirtualQubit)
deriving DecidableEq, Repr

namespace Op

/-- The qubits that an operation acts on, in order. -/
def qubits : Op → List VirtualQubit
  | single q => [q]
  | pair a b => [a, b]

/-- The two qubits of an operation on two qubits. -/
def interaction? : Op → Option (VirtualQubit × VirtualQubit)
  | single _ => none
  | pair a b => some (a, b)

end Op

/-- Why a list of operations is not a circuit. -/
inductive CircuitError where
  | qubitOutOfRange (op : Nat) (qubit : VirtualQubit) (numQubits : Nat)
  | noQubits (op : Nat)
  | tooManyQubits (op count : Nat)
  | repeatedQubit (op : Nat) (qubit : VirtualQubit)
deriving DecidableEq, Repr

namespace CircuitError

/-- The wording of an error. -/
def message : CircuitError → String
  | qubitOutOfRange op q n => s!"qubit {q} of operation {op} is out of range for {n} qubits"
  | noQubits op => s!"operation {op} acts on no qubits"
  | tooManyQubits op count => s!"operation {op} acts on {count} qubits, but at most two are supported"
  | repeatedQubit op q => s!"operation {op} acts on qubit {q} more than once"

end CircuitError

/-- The operations, numbered by position, and the arcs from each one to those that wait for it, in
order of creation. The operations that wait for none form the first layer. -/
structure Circuit where
  numQubits : Nat
  ops : List Op
  arcs : List (Nat × Nat)
  firstLayer : List Nat
deriving DecidableEq, Repr

/-- The operation with number `k` and the given qubits, all of which must be below `n`. -/
def Op.ofQubits (n k : Nat) (qubits : List VirtualQubit) : Except CircuitError Op := do
  let op ← match qubits with
    | [] => throw (.noQubits k)
    | [q] => pure (Op.single q)
    | [a, b] => if a = b then throw (.repeatedQubit k a) else pure (Op.pair a b)
    | _ => throw (.tooManyQubits k qubits.length)
  match qubits.find? fun q => decide (n ≤ q) with
  | some q => throw (.qubitOutOfRange k q n)
  | none => return op

namespace Circuit

/-- A circuit under construction, with the latest operation on each qubit. -/
structure Draft where
  circuit : Circuit
  latest : List (Option Nat)
deriving DecidableEq, Repr

/-- What the qubits of an operation change one after the other: the arcs, the latest operation on each
qubit, and whether the operation waits for none. -/
structure Wiring where
  arcs : List (Nat × Nat)
  latest : List (Option Nat)
  isFirst : Bool
deriving DecidableEq, Repr

/-- Operation `k` acts on `q`: it waits for the latest operation on `q`, and is the latest itself from then
on. -/
def Wiring.connect (k : Nat) (w : Wiring) (q : VirtualQubit) : Wiring :=
  match w.latest[q]?.join with
  | some p => ⟨Graph.addArc w.arcs p k, w.latest.set q (some k), false⟩
  | none => { w with latest := w.latest.set q (some k) }

/-- One more operation acts on its qubits. -/
def Draft.wiring (d : Draft) (op : Op) : Wiring :=
  op.qubits.foldl (Wiring.connect d.circuit.ops.length) ⟨d.circuit.arcs, d.latest, true⟩

/-- Add an operation after all others. -/
def Draft.append (d : Draft) (op : Op) : Draft :=
  let k := d.circuit.ops.length
  let w := d.wiring op
  { circuit :=
      { d.circuit with
        ops := d.circuit.ops ++ [op]
        arcs := w.arcs
        firstLayer := if w.isFirst then d.circuit.firstLayer ++ [k] else d.circuit.firstLayer }
    latest := w.latest }

/-- Check and add an operation. -/
def Draft.extend (d : Draft) (qubits : List VirtualQubit) : Except CircuitError Draft := do
  let op ← Op.ofQubits d.circuit.numQubits d.circuit.ops.length qubits
  return d.append op

/-- The circuit on `n` qubits with the given operations. -/
def ofOps (n : Nat) (ops : List (List VirtualQubit)) : Except CircuitError Circuit := do
  let draft ← ops.foldlM Draft.extend ⟨⟨n, [], [], []⟩, List.replicate n none⟩
  return draft.circuit

/-- The number of operations. -/
def size (c : Circuit) : Nat :=
  c.ops.length

/-- The operations that wait for operation `k`, the latest arc first. -/
def successors (c : Circuit) (k : Nat) : List Nat :=
  (c.arcs.reverse.filter fun e => e.1 == k).map (·.2)

/-- The number of operations that operation `k` waits for. -/
def indegree (c : Circuit) (k : Nat) : Nat :=
  c.arcs.countP fun e => e.2 == k

end Circuit

end QubitRouting
