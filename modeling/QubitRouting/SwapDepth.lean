import QubitRouting.Qubit

/-!
# The depth of a list of swaps

Swaps on different qubits can run at the same time. If every swap runs as early as the swaps before it
on its qubits allow, each gets a layer, and the depth is the number of layers.
-/

namespace QubitRouting

/-- The layer of the latest swap on each qubit, zero if there is none, and the highest of all. -/
structure Layers where
  latest : Qubit → Nat
  depth : Nat

namespace Layers

/-- No swap yet. -/
def empty : Layers :=
  ⟨fun _ => 0, 0⟩

/-- Put a swap into the first layer after both of its qubits are free. -/
def place (l : Layers) (s : Swap) : Layers :=
  let layer := 1 + max (l.latest s.1) (l.latest s.2)
  ⟨fun q => if q = s.1 ∨ q = s.2 then layer else l.latest q, max l.depth layer⟩

end Layers

/-- The number of layers that a list of swaps needs. -/
def swapDepth (swaps : List Swap) : Nat :=
  (swaps.foldl Layers.place Layers.empty).depth

end QubitRouting
