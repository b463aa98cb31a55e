import QubitRouting.Fault
import QubitRouting.Graph.Arcs
import QubitRouting.Graph.Hops
import QubitRouting.Qubit
import QubitRouting.Sorting

/-!
# Couplings

A coupling says which pairs of physical qubits an operation may act on. It is symmetric, and is kept as
a list of arcs that holds each link in both directions. A coupling is connected: otherwise some pairs
could never be brought together.

The order of the arcs matters to searches: the neighbours of a qubit are met with the latest link
first.
-/

namespace QubitRouting

/-- The qubits `0, …, numQubits - 1` and the arcs between them, in order of creation. -/
structure Coupling where
  numQubits : Nat
  arcs : List (Qubit × Qubit)
deriving DecidableEq, Repr

/-- Why a list of links is not a coupling. -/
inductive CouplingError where
  | empty
  | qubitOutOfBounds (a b : Qubit)
  | selfLoop (q : Qubit)
  | disconnected
deriving DecidableEq, Repr

namespace CouplingError

/-- The wording of an error. -/
def message : CouplingError → String
  | empty => "the coupling graph has no qubits"
  | qubitOutOfBounds a b => s!"edge ({a}, {b}) refers to a qubit outside the coupling graph"
  | selfLoop q => s!"qubit {q} is coupled to itself"
  | disconnected => "the coupling graph is not connected"

end CouplingError

namespace Coupling

/-- Add a link between two different qubits below `n`, in both directions. -/
def addLink (n : Nat) (arcs : List (Qubit × Qubit)) (e : Qubit × Qubit) :
    Except CouplingError (List (Qubit × Qubit)) :=
  if n ≤ e.1 ∨ n ≤ e.2 then .error (.qubitOutOfBounds e.1 e.2)
  else if e.1 = e.2 then .error (.selfLoop e.1)
  else .ok (Graph.addArc (Graph.addArc arcs e.1 e.2) e.2 e.1)

/-- The qubits coupled to `q`, the latest link first. -/
def adjacent (c : Coupling) (q : Qubit) : List Qubit :=
  (c.arcs.reverse.filter fun e => e.1 == q).map (·.2)

/-- The qubits coupled to `q`, ascending. -/
def neighbors (c : Coupling) (q : Qubit) : List Qubit :=
  sortBy (fun a b => decide (a ≤ b)) (c.adjacent q)

/-- Are `a` and `b` coupled? -/
def coupled (c : Coupling) (a b : Qubit) : Bool :=
  c.arcs.contains (a, b)

/-- Every link once, the lower qubit first, in order of creation. -/
def links (c : Coupling) : List (Qubit × Qubit) :=
  c.arcs.filter fun e => decide (e.1 < e.2)

/-- The adjacent qubits of every qubit, as a table. -/
def adjacency (c : Coupling) : Array (List Qubit) :=
  ((List.range c.numQubits).map c.adjacent).toArray

/-- The distance in links from one qubit to every other. -/
def distancesFrom (c : Coupling) (q : Qubit) : Array (Option Nat) :=
  Graph.hopsFrom c.adjacent c.numQubits q

/-- Is every qubit reached from qubit zero? -/
def isConnected (c : Coupling) : Bool :=
  (c.distancesFrom 0).all Option.isSome

/-- The coupling with the given links; a link that is listed twice, in either direction, counts
once. -/
def ofLinks (n : Nat) (links : List (Qubit × Qubit)) : Except CouplingError Coupling :=
  if n = 0 then .error .empty
  else do
    let c : Coupling := ⟨n, ← links.foldlM (addLink n) []⟩
    if c.isConnected then return c else throw .disconnected

/-- The links of a chain. -/
def chainLinks (n : Nat) : List (Qubit × Qubit) :=
  (List.range (n - 1)).map fun q => (q, q + 1)

/-- A chain `0 - 1 - … - (n - 1)`. -/
def line (n : Nat) : Except CouplingError Coupling :=
  ofLinks n (chainLinks n)

/-- A closed chain: the last qubit is also coupled to the first. -/
def ring (n : Nat) : Except CouplingError Coupling :=
  ofLinks n (chainLinks n ++ if 2 < n then [(n - 1, 0)] else [])

/-- The links from a cell of a lattice to its right and to the next row. -/
def cellLinks (rows cols row col : Nat) : List (Qubit × Qubit) :=
  let q := col + cols * row
  (if col + 1 < cols then [(q, q + 1)] else []) ++ (if row + 1 < rows then [(q, q + cols)] else [])

/-- A rectangular lattice; qubit `col + cols * row` sits in the given row and column. -/
def grid (rows cols : Nat) : Except CouplingError Coupling :=
  ofLinks (rows * cols) <| (List.range rows).flatMap fun row =>
    (List.range cols).flatMap fun col => cellLinks rows cols row col

/-- The distances in links between all pairs of qubits. -/
def distances (c : Coupling) : Array (Array (Option Nat)) :=
  ((List.range c.numQubits).map c.distancesFrom).toArray

end Coupling

end QubitRouting
