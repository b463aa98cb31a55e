import QubitRouting.Qubit

/-!
# Crossings

Where two paths of a registry meet, each of them records a crossing: which path it meets and on which
nodes. The registry only ever records one node per crossing, but the operations here take any list.
-/

namespace QubitRouting

/-- What one path records about another path that it meets. -/
structure Crossing where
  /-- The other path. -/
  path : PathId
  /-- The nodes that the two paths share. -/
  overlap : List Qubit
deriving DecidableEq, Repr

namespace Crossing

/-- The number of shared nodes. -/
def order (c : Crossing) : Nat :=
  c.overlap.length

/-- Is `x` one of the shared nodes? -/
def contains (c : Crossing) (x : Qubit) : Bool :=
  c.overlap.contains x

/-- The overlap has as many nodes as `nodes`, and every node of `nodes` is in it. -/
def touches (c : Crossing) (nodes : List Qubit) : Bool :=
  c.overlap.length == nodes.length && nodes.all c.contains

/-- A crossing with the path `id` that touches `nodes`. -/
def isWith (c : Crossing) (id : PathId) (nodes : List Qubit) : Bool :=
  c.path == id && c.touches nodes

/-- The written form: `C(2, [9])` is a crossing with path 2 at node 9. -/
def render (c : Crossing) : String :=
  "C(" ++ toString c.path ++ ", [" ++ ", ".intercalate (c.overlap.map toString) ++ "])"

theorem contains_iff {c : Crossing} {x : Qubit} : c.contains x = true ↔ x ∈ c.overlap := by
  simp [contains]

theorem touches_iff {c : Crossing} {nodes : List Qubit} :
    c.touches nodes = true ↔ c.overlap.length = nodes.length ∧ ∀ x ∈ nodes, x ∈ c.overlap := by
  simp [touches, contains]

end Crossing

end QubitRouting
