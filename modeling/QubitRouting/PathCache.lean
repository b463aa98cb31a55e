import QubitRouting.Fault
import QubitRouting.Qubit

/-!
# Remembered paths

A part of a shortest path is itself a shortest path. So when a path is added, all its long enough
segments are remembered, one per pair of ends; a pair that is known keeps its path. Paths are stored
from the lower to the higher end and handed out in the direction asked for.
-/

namespace QubitRouting

/-- The number of values of a 64-bit word. -/
def wordCount : Nat :=
  18446744073709551616

/-- A path between two qubits, from the lower to the higher one. -/
structure KnownPath where
  low : Qubit
  high : Qubit
  nodes : List Qubit
deriving DecidableEq, Repr

/-- One path for each pair of ends that is known, and the fewest nodes that a segment must have. -/
structure PathCache where
  threshold : Nat
  known : List KnownPath
deriving DecidableEq, Repr

namespace PathCache

/-- Nothing is remembered. A segment has at least two nodes, whatever is asked for. -/
def empty (threshold : Nat) : PathCache :=
  ⟨max threshold 2, []⟩

/-- The number of pairs of ends with a path. -/
def size (c : PathCache) : Nat :=
  c.known.length

/-- The path between two ends, as it is stored. -/
def find? (c : PathCache) (a b : Qubit) : Option KnownPath :=
  let low := min a b
  let high := max a b
  c.known.find? fun k => k.low == low && k.high == high

/-- Is a path between these ends remembered? -/
def has (c : PathCache) (a b : Qubit) : Bool :=
  (c.find? a b).isSome

/-- The path from `a` to `b`. -/
def get? (c : PathCache) (a b : Qubit) : Option (List Qubit) :=
  (c.find? a b).map fun k => if k.nodes.head? == some a then k.nodes else k.nodes.reverse

/-- Remember one segment, unless a path between its ends is known. -/
def remember (c : PathCache) (p : List Qubit) : PathCache :=
  match p.head?, p.getLast? with
  | some first, some last =>
    if c.has first last then c
    else
      let upward := if first ≤ last then p else p.reverse
      { c with known := ⟨min first last, max first last, upward⟩ :: c.known }
  | _, _ => c

/-- The segments of at least `t` nodes at the start of `p`, the shortest first. -/
def leading (t : Nat) (p : List Qubit) : List (List Qubit) :=
  (List.range (p.length + 1 - t)).map fun k => p.take (t + k)

/-- All segments of at least `t` nodes, by where they start, the shortest first. -/
def segments (t : Nat) : List Qubit → List (List Qubit)
  | [] => []
  | x :: rest => leading t (x :: rest) ++ segments t rest

/-- Remember all long enough segments of `p`. The position of a node plus the threshold must fit a
64-bit word. -/
def add (c : PathCache) (p : List Qubit) : Except Fault PathCache :=
  if p ≠ [] ∧ wordCount ≤ p.length - 1 + c.threshold then .error .overflow
  else .ok ((segments c.threshold p).foldl remember c)

/-- Forget all paths. -/
def clear (c : PathCache) : PathCache :=
  { c with known := [] }

end PathCache

end QubitRouting
