import QubitRouting.Sequencing.Plan

/-!
# Conflicts at crossing nodes

A path that is cut at a crossing leaves its qubit there, in the way of the other path. If only one
path is cut at a node, it suffices that it runs after its partners there. If several are, a cut has to
move, or a path is given up.

`Plan.resolve` settles one node after another, the hardest first, until no conflict is left.
-/

namespace QubitRouting

/-- A crossing node and the paths that are cut there, by number. -/
structure Conflict where
  node : Qubit
  bound : List PathId
deriving DecidableEq, Repr

namespace Conflict

/-- Record that path `id` is cut at `x`. A node that is not listed yet is put at the end. -/
def note (x : Qubit) (id : PathId) : List Conflict → List Conflict
  | [] => [⟨x, [id]⟩]
  | c :: rest =>
    if c.node = x then
      { c with bound := if c.bound.contains id then c.bound else c.bound ++ [id] } :: rest
    else c :: note x id rest

/-- The entry with the largest key; of several, the last. -/
def lastLargest? {α : Type} : List ((Nat × Nat) × α) → Option ((Nat × Nat) × α)
  | [] => none
  | e :: rest =>
    match lastLargest? rest with
    | none => some e
    | some best => if lexLe e.1 best.1 then some best else some e

end Conflict

namespace Plan

/-- The nodes at which a path crosses another one, is cut, and that are not settled. -/
def boundNodes (settled : List Qubit) (slot : Slot) (split : Split) : List Qubit :=
  (slot.crossings.flatMap (·.overlap)).filter fun x => !settled.contains x && split.boundAt x

/-- Add the conflicts of one path to those found before it. -/
def noteConflicts (p : Plan) (settled : List Qubit) (found : List Conflict) (e : PathId × Slot) :
    Except Fault (List Conflict) := do
  match ← fetch p.splits e.1 with
  | none => return found
  | some split =>
    return (boundNodes settled e.2 split).foldl (fun found x => Conflict.note x e.1 found) found

/-- All conflicts off the settled nodes, in the order in which the paths show them. -/
def conflicts (p : Plan) (settled : List Qubit) : Except Fault (List Conflict) :=
  p.registry.entries.foldlM (p.noteConflicts settled) []

/-- How hard a conflict is: first by the number of paths, then by their total length. -/
def hardness (p : Plan) (c : Conflict) : Except Fault (Nat × Nat) := do
  let order := c.bound.length
  let total := (c.bound.map p.registry.lengthAt).foldr (· + ·) 0
  return (order, ← subtract (total + 1) order)

/-- The hardest conflict; of equally hard ones the last. -/
def hardest? (p : Plan) (cs : List Conflict) : Except Fault (Option Conflict) := do
  let ranked ← cs.mapM fun c => return (← p.hardness c, c)
  return (Conflict.lastLargest? ranked).map (·.2)

/-- The other paths through `x` that path `id` crosses, by number. -/
def partners (p : Plan) (id : PathId) (x : Qubit) : List PathId :=
  sortBy (fun a b => decide (a ≤ b))
    (((p.registry.crossingsAt id).filter fun c => c.contains x).map (·.path))

/-- Move the path in slot `current` behind each of the listed slots in turn. -/
def moveBehind : List PathId → PathId → Plan → Except Fault Plan
  | [], _, p => .ok p
  | partner :: rest, current, p =>
    if current < partner then do
      let (p', done) ← p.exchange current partner
      moveBehind rest (if done then partner else current) p'
    else moveBehind rest current p

/-- Put path `id` into a slot after all paths that it meets at `x`, so that they run first. -/
def sequenceAfterPartners (p : Plan) (id : PathId) (x : Qubit) : Except Fault Plan :=
  moveBehind (p.partners id x) id p

/-- Several paths are cut at `x`. Move the cut of the longest off it, or else of the next; if neither
moves, discard the one of the two with the larger number. Of equally long paths the larger number
counts as longer. -/
def separate (p : Plan) (x : Qubit) (bound : List PathId) : Except Fault Plan := do
  let ranked := sortBy (fun a b => lexLe b a) (bound.map fun id => (p.registry.lengthAt id, id))
  match ranked with
  | (_, first) :: (_, second) :: _ =>
    match ← p.shift? first x with
    | some p' => return p'
    | none =>
      match ← p.shift? second x with
      | some p' => return p'
      | none => p.discard (max first second)
  | _ => return p

/-- Deal with one conflict. The answer also lists the settled nodes. -/
def settle (p : Plan) (settled : List Qubit) (c : Conflict) : Except Fault (Plan × List Qubit) :=
  match c.bound with
  | [id] => do return (← p.sequenceAfterPartners id c.node, c.node :: settled)
  | bound => do return (← p.separate c.node bound, settled)

/-- Deal with the hardest conflict until none is left, in at most the given number of turns. -/
def resolveWithin : Nat → List Qubit → Plan → Except Fault Plan
  | 0, _, _ => .error .exhausted
  | turns + 1, settled, p => do
    match ← p.hardest? (← p.conflicts settled) with
    | none => return p
    | some c =>
      let (p', settled') ← p.settle settled c
      resolveWithin turns settled' p'

/-- A bound on the turns: each one settles a node, frees a cut for good, or discards a path. -/
def resolveBound (p : Plan) : Nat :=
  p.registry.paths.flatten.length + 2 * p.registry.slots.length + 1

/-- Deal with all conflicts. -/
def resolve (p : Plan) : Except Fault Plan :=
  resolveWithin p.resolveBound [] p

end Plan

end QubitRouting
