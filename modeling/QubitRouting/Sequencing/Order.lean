import QubitRouting.Graph.DepthFirst
import QubitRouting.Sequencing.Plan

/-!
# The order of the paths

A path that is cut at a crossing must run after the path that it crosses there. These constraints are
the arcs of a graph on the registered paths. If they contradict each other, a cut on the cycle moves,
or a path on it is discarded; once they do not, the paths are rearranged into an order that respects
all of them.
-/

namespace QubitRouting

/-- The path `first` must run before the path `second`, which is cut at their common node. -/
structure Precedence where
  first : PathId
  second : PathId
  node : Qubit
deriving DecidableEq, Repr

namespace Precedence

/-- The paths that must run after `id`, the latest constraint first. -/
def after (arcs : List Precedence) (id : PathId) : List PathId :=
  (arcs.reverse.filter fun a => a.first == id).map (·.second)

/-- Do all constraints hold if the paths run by number? -/
def holdByNumber (arcs : List Precedence) : Bool :=
  arcs.all fun a => decide (a.first < a.second)

end Precedence

namespace Plan

/-- The constraints that the crossing `c` puts on path `id`. -/
def precedencesAt (p : Plan) (id : PathId) (split : Split) (c : Crossing) :
    Except Fault (List Precedence) := do
  match ← fetch p.registry.slots c.path with
  | none => return []
  | some _ => return (c.overlap.filter split.boundAt).map fun x => ⟨c.path, id, x⟩

/-- The constraints on one path, in the order of its crossings. -/
def precedencesOf (p : Plan) (e : PathId × Slot) : Except Fault (List Precedence) := do
  match ← fetch p.splits e.1 with
  | none => return []
  | some split => return (← e.2.crossings.mapM (p.precedencesAt e.1 split)).flatten

/-- All constraints, by number of the later path. -/
def precedences (p : Plan) : Except Fault (List Precedence) :=
  return (← p.registry.entries.mapM p.precedencesOf).flatten

/-- Try to move a cut, for one candidate after the other. -/
def shiftFirst? (p : Plan) : List (PathId × Qubit) → Except Fault (Option Plan)
  | [] => return none
  | (id, x) :: rest => do
    match ← fetch p.splits id with
    | none => p.shiftFirst? rest
    | some split =>
      if split.boundAt x then
        match ← p.shift? id x with
        | some p' => return some p'
        | none => p.shiftFirst? rest
      else p.shiftFirst? rest

/-- Take one constraint out of a cycle by moving a cut, the largest numbers first. If no cut moves,
discard the path with the largest number. -/
def breakCycle (p : Plan) (arcs : List Precedence) (cycle : List PathId) : Except Fault Plan := do
  let inside := arcs.filter fun a => cycle.contains a.first && cycle.contains a.second
  let candidates := sortBy (fun a b => decide (b.1 ≤ a.1)) (inside.map fun a => (a.second, a.node))
  match ← p.shiftFirst? candidates with
  | some p' => return p'
  | none =>
    match cycle.max? with
    | some id => p.discard id
    | none => return p

/-- Fill the listed slots with the wanted paths, one after the other. `held` says which path each of
the slots holds so far, by its number at the start. -/
def arrange : List PathId → List PathId → List PathId → Plan → Except Fault Plan
  | slot :: slots, here :: held, wanted :: order, p =>
    if here = wanted then arrange slots held order p
    else
      match held.idxOf? wanted with
      | none => arrange slots held order p
      | some k => do
        let other ← fetch slots k
        let (p', done) ← p.exchange slot other
        arrange slots (if done then held.set k here else held) order p'
  | _, _, _, p => .ok p

/-- Permute the registered paths, with their splits, into the given order. -/
def reorder (p : Plan) (order : List PathId) : Except Fault Plan :=
  arrange p.registry.ids p.registry.ids order p

/-- Break cycles until there is none, then rearrange, in at most the given number of turns. -/
def orderWithin : Nat → Plan → Except Fault Plan
  | 0, _ => .error .exhausted
  | turns + 1, p => do
    let arcs ← p.precedences
    if Precedence.holdByNumber arcs then return p
    else
      let after := Precedence.after arcs
      match Graph.firstCycle? after p.registry.ids with
      | some cycle => orderWithin turns (← p.breakCycle arcs cycle)
      | none => p.reorder (Graph.latestFirst after p.registry.ids)

/-- A bound on the turns: each one before the last frees a cut for good or discards a path. -/
def orderBound (p : Plan) : Nat :=
  2 * p.registry.slots.length + 1

/-- Bring the paths into an order in which each one runs after all paths that it has to wait for. -/
def order (p : Plan) : Except Fault Plan :=
  orderWithin p.orderBound p

end Plan

end QubitRouting
