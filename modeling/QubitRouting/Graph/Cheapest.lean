import QubitRouting.Fault
import QubitRouting.Graph.Heap

/-!
# Cheapest paths

Vertices are settled one by one, the one with the least score first, and each settled vertex offers its
neighbours a path through itself. A vertex takes an offer that is strictly better than what it has. The
search stops when the goal is the next to be settled.

Costs can be of any type with a sum and an order, so the same search runs on floating point costs and
on exact ones.
-/

namespace QubitRouting.Graph

/-- The best path to a vertex so far: its cost, and its vertices from the last to the first. -/
structure Label (S : Type) where
  score : S
  trail : List Nat
deriving DecidableEq, Repr

/-- A search under way. -/
structure Search (S : Type) where
  labels : Array (Option (Label S))
  settled : Array Bool
  heap : Heap S
deriving Repr

namespace Search

variable {S : Type} [OfNat S 0] [Add S] [LT S] [DecidableLT S] [LE S] [DecidableLE S]

/-- The search before the first step, on the vertices `0, …, n - 1`. -/
def start (n source : Nat) : Search S where
  labels := (Array.replicate n none).setIfInBounds source (some ⟨0, [source]⟩)
  settled := Array.replicate n false
  heap := Heap.empty.push ⟨0, source⟩

/-- Has the vertex been settled? -/
def isSettled (s : Search S) (v : Nat) : Bool :=
  s.settled[v]?.getD false

/-- The label of a vertex. -/
def label? (s : Search S) (v : Nat) : Option (Label S) :=
  s.labels[v]?.join

/-- Is a path of cost `t` strictly better than what `v` has? -/
def improves (s : Search S) (v : Nat) (t : S) : Bool :=
  match s.label? v with
  | none => true
  | some l => decide (t < l.score)

/-- Offer `v` the path through `u`, to which `trail` leads at the cost `score`. -/
def relax (cost : Nat → Nat → Except Fault S) (u : Nat) (score : S) (trail : List Nat)
    (s : Search S) (v : Nat) : Except Fault (Search S) :=
  if s.isSettled v then .ok s
  else do
    let t := score + (← cost u v)
    if s.improves v t then
      return { s with
        labels := s.labels.setIfInBounds v (some ⟨t, v :: trail⟩)
        heap := s.heap.push ⟨t, v⟩ }
    else return s

/-- Settle `u`, which was reached at the cost `score`. -/
def settle (succ : Nat → List Nat) (cost : Nat → Nat → Except Fault S) (s : Search S) (u : Nat)
    (score : S) : Except Fault (Search S) := do
  let trail := ((s.label? u).map (·.trail)).getD []
  let s' ← (succ u).foldlM (relax cost u score trail) s
  return { s' with settled := s'.settled.setIfInBounds u true }

/-- Settle vertices until the goal is next or none is left, in at most the given number of turns. -/
def run (succ : Nat → List Nat) (cost : Nat → Nat → Except Fault S) (goal : Nat) :
    Nat → Search S → Except Fault (Search S)
  | 0, _ => .error .exhausted
  | turns + 1, s =>
    match s.heap.pop? with
    | none => .ok s
    | some (top, heap) =>
      let s' := { s with heap }
      if s'.isSettled top.vertex then run succ cost goal turns s'
      else if top.vertex = goal then .ok s'
      else do run succ cost goal turns (← s'.settle succ cost top.vertex top.score)

end Search

/-- The number of arcs of a graph on the vertices `0, …, n - 1`. -/
def arcCount (succ : Nat → List Nat) (n : Nat) : Nat :=
  (List.range n).foldr (fun v count => (succ v).length + count) 0

/-- A cheapest path from `source` to `goal`, if there is any path. Each arc puts at most one entry on
the heap, which bounds the number of turns. -/
def cheapestPath? {S : Type} [OfNat S 0] [Add S] [LT S] [DecidableLT S] [LE S] [DecidableLE S]
    (succ : Nat → List Nat) (cost : Nat → Nat → Except Fault S) (n source goal : Nat) :
    Except Fault (Option (List Nat)) := do
  let done ← Search.run succ cost goal (arcCount succ n + 2) (Search.start n source)
  return (done.label? goal).map fun l => l.trail.reverse

end QubitRouting.Graph
