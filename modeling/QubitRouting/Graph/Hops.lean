/-!
# Distances in hops

The distance of a vertex from a start is found ring by ring: ring zero is the start, and the next ring
is what the last one reaches and no earlier one did.
-/

namespace QubitRouting.Graph

/-- The distances found so far, and the vertices found last. -/
structure Rings where
  hops : Array (Option Nat)
  ring : List Nat
deriving Repr

/-- Give `v` the distance `d`, unless it has one already or is no vertex. -/
def Rings.mark (d : Nat) (r : Rings) (v : Nat) : Rings :=
  if r.hops[v]? = some none then ⟨r.hops.setIfInBounds v (some d), v :: r.ring⟩ else r

/-- The ring at distance `d`, behind the last one. -/
def Rings.next (succ : Nat → List Nat) (d : Nat) (r : Rings) : Rings :=
  (r.ring.flatMap succ).foldl (Rings.mark d) ⟨r.hops, []⟩

/-- Find the ring at distance `d`, and then the following ones, at most the given number of them. -/
def Rings.spread (succ : Nat → List Nat) : Nat → Nat → Rings → Array (Option Nat)
  | 0, _, r => r.hops
  | count + 1, d, r =>
    let outer := r.next succ d
    if outer.ring.isEmpty then outer.hops else outer.spread succ count (d + 1)

/-- The distance of each of the vertices `0, …, n - 1` from `start`; `none` for those out of reach. -/
def hopsFrom (succ : Nat → List Nat) (n start : Nat) : Array (Option Nat) :=
  Rings.spread succ n 1 (Rings.mark 0 ⟨Array.replicate n none, []⟩ start)

end QubitRouting.Graph
