import QubitRouting.Fault
import QubitRouting.Qubit

/-!
# Layouts

A layout says where each virtual qubit of a circuit sits on the device. Every virtual qubit has a
position of its own, but a device may have more positions than the circuit has qubits, so a position
can be unoccupied. Both directions are kept, and every change updates both.
-/

namespace QubitRouting

/-- The position of each virtual qubit, and the virtual qubit on each position. -/
structure Layout where
  position : List Qubit
  occupant : List (Option VirtualQubit)
deriving DecidableEq, Repr

/-- Why an assignment is not a layout. -/
inductive LayoutError where
  | physicalOutOfRange (physical : Qubit) (numPhysical : Nat)
  | virtualOutOfRange (virt : VirtualQubit) (numVirtual : Nat)
  | duplicatePhysical (physical : Qubit)
  | unmapped (virt : VirtualQubit)
deriving DecidableEq, Repr

namespace LayoutError

/-- The wording of an error. -/
def message : LayoutError → String
  | physicalOutOfRange p n => s!"physical qubit {p} is out of range for {n} physical qubits"
  | virtualOutOfRange v n => s!"virtual qubit {v} is out of range for {n} virtual qubits"
  | duplicatePhysical p => s!"physical qubit {p} is assigned to more than one virtual qubit"
  | unmapped v => s!"virtual qubit {v} has no physical qubit assigned"

end LayoutError

namespace Layout

/-- The number of virtual qubits. -/
def numVirtual (l : Layout) : Nat :=
  l.position.length

/-- The number of positions, occupied or not. -/
def numPhysical (l : Layout) : Nat :=
  l.occupant.length

/-- Virtual qubit `i` sits on position `i`, and all positions are taken. -/
def trivial (n : Nat) : Layout :=
  ⟨List.range n, (List.range n).map some⟩

/-- Put `v` on position `p`, which must exist and be unoccupied. -/
def occupy (occupant : List (Option VirtualQubit)) (v : VirtualQubit) (p : Qubit) :
    Except LayoutError (List (Option VirtualQubit)) :=
  match occupant[p]? with
  | none => .error (.physicalOutOfRange p occupant.length)
  | some (some _) => .error (.duplicatePhysical p)
  | some none => .ok (occupant.set p (some v))

/-- Occupy the positions in the list with the virtual qubits `v`, `v + 1`, … -/
def occupyAll (occupant : List (Option VirtualQubit)) :
    VirtualQubit → List Qubit → Except LayoutError (List (Option VirtualQubit))
  | _, [] => .ok occupant
  | v, p :: rest => do
    let occupant' ← occupy occupant v p
    occupyAll occupant' (v + 1) rest

/-- The layout with the listed positions, on a device with `numPhysical` of them. -/
def ofPositions (position : List Qubit) (numPhysical : Nat) : Except LayoutError Layout := do
  let occupant ← occupyAll (List.replicate numPhysical none) 0 position
  return ⟨position, occupant⟩

/-- A layout in the making: some virtual qubits have no position yet. -/
structure Draft where
  position : List (Option Qubit)
  occupant : List (Option VirtualQubit)
deriving DecidableEq, Repr

/-- Add one assignment to a draft. -/
def Draft.assign (d : Draft) (e : VirtualQubit × Qubit) : Except LayoutError Draft :=
  if d.position.length ≤ e.1 then .error (.virtualOutOfRange e.1 d.position.length)
  else do
    let occupant ← occupy d.occupant e.1 e.2
    return ⟨d.position.set e.1 (some e.2), occupant⟩

/-- The positions of a complete draft, from virtual qubit `v` on. -/
def Draft.complete : VirtualQubit → List (Option Qubit) → Except LayoutError (List Qubit)
  | _, [] => .ok []
  | v, none :: _ => .error (.unmapped v)
  | v, some p :: rest => do return p :: (← Draft.complete (v + 1) rest)

/-- The layout given by one assignment per virtual qubit, in any order. -/
def ofAssignments (assignments : List (VirtualQubit × Qubit)) (numVirtual numPhysical : Nat) :
    Except LayoutError Layout := do
  let draft ← assignments.foldlM Draft.assign
    ⟨List.replicate numVirtual none, List.replicate numPhysical none⟩
  return ⟨← Draft.complete 0 draft.position, draft.occupant⟩

/-- Assignments with one entry per virtual qubit: the latest one counts. -/
def latest (pairs : List (VirtualQubit × Qubit)) : List (VirtualQubit × Qubit) :=
  pairs.foldl (fun kept e => kept.filter (fun k => k.1 != e.1) ++ [e]) []

/-- The position of a virtual qubit. -/
def toPhysical (l : Layout) (v : VirtualQubit) : Except Fault Qubit :=
  fetch l.position v

/-- The virtual qubit on a position, if it is occupied. -/
def toVirtual (l : Layout) (p : Qubit) : Except Fault (Option VirtualQubit) :=
  fetch l.occupant p

/-- Two virtual qubits change places. -/
def swapVirtual (l : Layout) (a b : VirtualQubit) : Except Fault Layout := do
  let position ← transpose l.position a b
  let occupant ← store l.occupant (← fetch position a) (some a)
  let occupant ← store occupant (← fetch position b) (some b)
  return ⟨position, occupant⟩

/-- Move the virtual qubit on a position, if there is one, to `p`. -/
def relocate (position : List Qubit) (p : Qubit) : Option VirtualQubit → Except Fault (List Qubit)
  | none => .ok position
  | some v => store position v p

/-- The contents of two positions change places; either of them may be unoccupied. -/
def swapPhysical (l : Layout) (a b : Qubit) : Except Fault Layout := do
  let occupant ← transpose l.occupant a b
  let position ← relocate l.position a (← fetch occupant a)
  let position ← relocate position b (← fetch occupant b)
  return ⟨position, occupant⟩

/-- Each virtual qubit with its position. -/
def virtualPairs (l : Layout) : List (VirtualQubit × Qubit) :=
  l.position.zipIdx.map fun e => (e.2, e.1)

/-- Each occupied position with its virtual qubit. -/
def physicalPairs (l : Layout) : List (Qubit × VirtualQubit) :=
  l.occupant.zipIdx.filterMap fun e => e.1.map fun v => (e.2, v)

end Layout

end QubitRouting
