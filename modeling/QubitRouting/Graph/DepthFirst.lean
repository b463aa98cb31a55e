/-!
# Depth-first search

The search visits vertices in a given order and follows arcs in the order in which `succ` lists them.
Two things are read off it.

* `latestFirst`: the vertices by time of leaving, the last one left in front. On a graph without
  cycles every arc points from an earlier to a later entry of this list.
* `firstCycle?`: of the components with more than one vertex (any two of them reach each other), the
  one that the search leaves first. A component is left when the last of its vertices is.
-/

namespace QubitRouting.Graph

/-- A search under way: the vertices met, and those already left, the latest in front. -/
structure Trail where
  seen : List Nat
  left : List Nat
deriving DecidableEq, Repr

/-- Visit `v` and, one after another, all that is reached from it and not met yet. The first argument
bounds the depth; the number of vertices is always enough. -/
def visit (succ : Nat → List Nat) : Nat → Trail → Nat → Trail
  | 0, t, _ => t
  | depth + 1, t, v =>
    if t.seen.contains v then t
    else
      let t' := (succ v).foldl (visit succ depth) { t with seen := v :: t.seen }
      { t' with left := v :: t'.left }

/-- All vertices, the one left last in front. -/
def latestFirst (succ : Nat → List Nat) (vertices : List Nat) : List Nat :=
  (vertices.foldl (visit succ vertices.length) ⟨[], []⟩).left

/-- The vertices reached from `v` in a graph with `n` vertices, `v` among them. -/
def reached (succ : Nat → List Nat) (n : Nat) (v : Nat) : List Nat :=
  (visit succ n ⟨[], []⟩ v).seen

/-- The vertices that reach `v` and are reached from it. -/
def component (succ : Nat → List Nat) (vertices : List Nat) (v : Nat) : List Nat :=
  let n := vertices.length
  let ahead := reached succ n v
  vertices.filter fun w => ahead.contains w && (reached succ n w).contains v

/-- The first component of several vertices that is closed along a list of vertices in order of
leaving: none of its members comes later. -/
def closedCycle? (succ : Nat → List Nat) (vertices : List Nat) : List Nat → Option (List Nat)
  | [] => none
  | v :: later =>
    let members := component succ vertices v
    if 1 < members.length && !later.any members.contains then some members
    else closedCycle? succ vertices later

/-- The component of several vertices that the search leaves first. -/
def firstCycle? (succ : Nat → List Nat) (vertices : List Nat) : Option (List Nat) :=
  closedCycle? succ vertices (latestFirst succ vertices).reverse

end QubitRouting.Graph
