import QubitRouting.Fault
import QubitRouting.Registry
import QubitRouting.Sequencing.Split

/-!
# Plans

A plan is a registry together with a split for each of its paths, slot by slot. Sequencing works on
plans: it moves cuts, exchanges slots and discards paths, and always does so to both halves of the
plan at once.
-/

namespace QubitRouting

/-- A registry and, for each slot, where its path is cut. -/
structure Plan where
  registry : Registry
  splits : List (Option Split)
deriving DecidableEq, Repr

namespace Plan

/-- Every registered path is cut in the middle. -/
def start (r : Registry) : Plan :=
  ⟨r, r.slots.map (Option.map fun s => Split.middle s.nodes)⟩

/-- A split stands at exactly the occupied slots, and cuts the path there into two non-empty halves. -/
def Aligned (p : Plan) : Prop :=
  p.splits.length = p.registry.slots.length ∧
    ∀ id : PathId, match p.registry.slot? id, p.splits[id]?.join with
      | some slot, some split => split.nodes = slot.nodes ∧ split.before ≠ [] ∧ split.after ≠ []
      | none, none => True
      | _, _ => False

/-- Does no crossing of the path `id` lie on `x`? -/
def isFree (p : Plan) (id : PathId) (x : Qubit) : Bool :=
  !(p.registry.crossingsAt id).any fun c => c.contains x

/-- Move the cut of path `id` off `x`, if there is a free place for it. -/
def shift? (p : Plan) (id : PathId) (x : Qubit) : Except Fault (Option Plan) := do
  match ← fetch p.splits id with
  | none => return none
  | some split =>
    match split.shift? x (p.isFree id) with
    | none => return none
    | some split' => return some { p with splits := ← store p.splits id (some split') }

/-- The paths in the slots `a` and `b` change places, each with its split. If one of the slots is empty
nothing happens, and the answer says so. -/
def exchange (p : Plan) (a b : PathId) : Except Fault (Plan × Bool) :=
  match p.registry.exchange a b with
  | .error _ => .ok (p, false)
  | .ok registry => do
    let splits ← transpose p.splits a b
    return (⟨registry, splits⟩, true)

/-- Give up the path `id`: it leaves the registry and loses its split. -/
def discard (p : Plan) (id : PathId) : Except Fault Plan :=
  match p.registry.remove id with
  | .error _ => .ok p
  | .ok registry => do
    let splits ← store p.splits id none
    return ⟨registry, splits⟩

/-- The swaps of all splits, slot by slot. -/
def swaps (p : Plan) : List Swap :=
  p.splits.flatMap fun
    | some split => split.swaps
    | none => []

end Plan

end QubitRouting
