import QubitRouting.Crossing
import QubitRouting.Sorting

/-!
# The registry of paths

A registry holds paths over the device that can all be walked in one round. No end of a path lies on
another path, and two paths share at most one node; that node is recorded as a crossing on both.

Paths live in numbered slots. A new path takes the next number, a removed one leaves its slot empty,
and only `Registry.empty` starts the numbering afresh.
-/

namespace QubitRouting

/-- A registered path and the crossings it makes, in the order in which they arose. -/
structure Slot where
  nodes : List Qubit
  crossings : List Crossing
deriving DecidableEq, Repr

/-- The slots by number, and how many of them hold a path. -/
structure Registry where
  slots : List (Option Slot)
  size : Nat
deriving DecidableEq, Repr

/-- Why the registry refuses a request. -/
inductive RegistryError where
  | notFound (id : PathId)
deriving DecidableEq, Repr

namespace RegistryError

/-- The wording of an error. -/
def message : RegistryError → String
  | notFound id => s!"no path with id {id} is registered"

end RegistryError

/-! ## Paths -/

/-- The first and the last node of a path. -/
def pathEnds (p : List Qubit) : List Qubit :=
  p.head?.toList ++ p.getLast?.toList

/-- Does the path join `a` and `b`, in either direction? -/
def joins (a b : Qubit) (p : List Qubit) : Bool :=
  (p.head? == some a && p.getLast? == some b) || (p.head? == some b && p.getLast? == some a)

/-- At least two nodes, none of them twice. -/
def isSimplePath (p : List Qubit) : Bool :=
  decide (2 ≤ p.length) && decide p.Nodup

/-- The nodes of `q` that lie on `p`, in the order of `q`. -/
def sharedNodes (p q : List Qubit) : List Qubit :=
  q.filter p.contains

/-- No end of either path lies on the other one, and they share at most one node. -/
def compatible (p q : List Qubit) : Bool :=
  (pathEnds p).all (fun x => !q.contains x) && (pathEnds q).all (fun x => !p.contains x)
    && decide ((sharedNodes p q).length ≤ 1)

namespace Slot

/-- The number of crossings with more than `n` shared nodes. -/
def countAbove (n : Nat) (s : Slot) : Nat :=
  s.crossings.countP fun c => decide (n < c.order)

/-- The slot after the path `nodes` was registered as number `id`: a crossing is recorded where the
two meet. -/
def meet (id : PathId) (nodes : List Qubit) (s : Slot) : Slot :=
  match sharedNodes nodes s.nodes with
  | [] => s
  | x :: _ => { s with crossings := s.crossings ++ [⟨id, [x]⟩] }

/-- The slot without its crossings against `id`. -/
def forget (id : PathId) (s : Slot) : Slot :=
  { s with crossings := s.crossings.filter fun c => c.path != id }

/-- The slot with the names of its partners changed. -/
def relabel (f : PathId → PathId) (s : Slot) : Slot :=
  { s with crossings := s.crossings.map fun c => { c with path := f c.path } }

end Slot

/-- The exchange of two names. -/
def swapNames (a b : PathId) (i : PathId) : PathId :=
  if i = a then b else if i = b then a else i

namespace Registry

/-- No path, and the numbering starts at zero. -/
def empty : Registry :=
  ⟨[], 0⟩

/-- The occupied slots with their numbers, ascending. -/
def entries (r : Registry) : List (PathId × Slot) :=
  r.slots.zipIdx.filterMap fun e => e.1.map fun s => (e.2, s)

/-- The numbers of the registered paths, ascending. -/
def ids (r : Registry) : List PathId :=
  r.entries.map (·.1)

/-- The slot of a registered path. -/
def slot? (r : Registry) (id : PathId) : Option Slot :=
  r.slots[id]?.join

/-- Is a path registered under `id`? -/
def contains (r : Registry) (id : PathId) : Bool :=
  (r.slot? id).isSome

/-- The nodes of a registered path. -/
def path? (r : Registry) (id : PathId) : Option (List Qubit) :=
  (r.slot? id).map (·.nodes)

/-- The crossings of a registered path. -/
def crossings? (r : Registry) (id : PathId) : Option (List Crossing) :=
  (r.slot? id).map (·.crossings)

/-- The crossings of a path, none if it is not registered. -/
def crossingsAt (r : Registry) (id : PathId) : List Crossing :=
  (r.crossings? id).getD []

/-- The number of nodes of a path, zero if it is not registered. -/
def lengthAt (r : Registry) (id : PathId) : Nat :=
  ((r.path? id).map List.length).getD 0

/-- All registered paths, by number. -/
def paths (r : Registry) : List (List Qubit) :=
  r.entries.map (·.2.nodes)

/-- Every node of every registered path, ascending and once each. -/
def nodes (r : Registry) : List Qubit :=
  ascending r.paths.flatten

/-- The path that joins `a` and `b` in either direction; the lowest number, should there be more. -/
def find? (r : Registry) (a b : Qubit) : Option PathId :=
  (r.entries.find? fun e => joins a b e.2.nodes).map (·.1)

/-- The crossings that a path `p` would make, by number of the other path. -/
def crossingsFor (r : Registry) (p : List Qubit) : List Crossing :=
  r.entries.filterMap fun e => (sharedNodes p e.2.nodes).head?.map fun x => ⟨e.1, [x]⟩

/-- Can `p` be walked in the same round as all registered paths? -/
def accepts (r : Registry) (p : List Qubit) : Bool :=
  isSimplePath p && r.entries.all fun e => compatible p e.2.nodes

/-- Register `p` under the next number, whatever it is. -/
def insert (r : Registry) (p : List Qubit) : Registry where
  slots := r.slots.map (Option.map (Slot.meet r.slots.length p)) ++ [some ⟨p, r.crossingsFor p⟩]
  size := r.size + 1

/-- Register `p` if the registry accepts it. -/
def add? (r : Registry) (p : List Qubit) : Option Registry :=
  if r.accepts p then some (r.insert p) else none

/-- Take a path out, and with it every crossing recorded against it. -/
def remove (r : Registry) (id : PathId) : Except RegistryError Registry :=
  if r.contains id then
    .ok ⟨(r.slots.set id none).map (Option.map (Slot.forget id)), r.size - 1⟩
  else .error (.notFound id)

/-- The contents of the slots `a` and `b` change places; the numbers stay, so every crossing with one
of the two is relabelled. -/
def exchange (r : Registry) (a b : PathId) : Except RegistryError Registry :=
  if !r.contains a then .error (.notFound a)
  else if !r.contains b then .error (.notFound b)
  else if a = b then .ok r
  else
    let moved := (r.slots.set a (r.slot? b)).set b (r.slot? a)
    .ok { r with slots := moved.map (Option.map (Slot.relabel (swapNames a b))) }

/-- The largest number of nodes shared in any crossing, zero if nothing crosses. -/
def maxOrder (r : Registry) : Nat :=
  ((r.entries.flatMap (·.2.crossings)).map Crossing.order).foldl max 0

/-- The paths with crossings of more than `n` nodes: those with the most such crossings first, and of
equally many the larger number first. -/
def offenders (r : Registry) (n : Nat) : List PathId :=
  let ranked := r.entries.filterMap fun e =>
    if 0 < e.2.countAbove n then some (e.2.countAbove n, e.1) else none
  (sortBy (fun a b => lexLe b a) ranked).map (·.2)

/-- Remove the listed paths one by one for as long as some crossing has more than `n` nodes. -/
def shed (n : Nat) : List PathId → Registry → Registry
  | [], r => r
  | id :: rest, r =>
    if n < r.maxOrder then
      match r.remove id with
      | .ok r' => shed n rest r'
      | .error _ => shed n rest r
    else r

/-- Remove paths until no crossing shares more than `n` nodes. -/
def limitOrder (r : Registry) (n : Nat) : Registry :=
  shed n (r.offenders n) r

end Registry

end QubitRouting
