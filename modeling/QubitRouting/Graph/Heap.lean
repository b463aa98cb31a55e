/-!
# A heap of scored vertices

A binary heap in an array, the least score on top: the children of place `i` are the places `2 i + 1`
and `2 i + 2`. Only scores are compared, so entries of equal score can come out in any order; which one
does is fixed by the rules here. Of two equal children the right one moves up, and an entry that has to
find its place after a removal first sinks to the bottom and then rises.
-/

namespace QubitRouting.Graph

/-- A vertex with the score under which it was put on the heap. -/
structure Scored (S : Type) where
  score : S
  vertex : Nat
deriving DecidableEq, Repr

/-- The entries, parents before children. -/
structure Heap (S : Type) where
  entries : Array (Scored S)
deriving DecidableEq, Repr

namespace Heap

variable {S : Type} [LT S] [DecidableLT S] [LE S] [DecidableLE S]

/-- Nothing on the heap. -/
def empty : Heap S :=
  ⟨#[]⟩

/-- Is the score at place `i` below the one at place `j`? -/
def below (h : Heap S) (i j : Nat) : Bool :=
  match h.entries[i]?, h.entries[j]? with
  | some x, some y => decide (x.score < y.score)
  | _, _ => false

/-- Is the score at place `i` at most the one at place `j`? -/
def atMost (h : Heap S) (i j : Nat) : Bool :=
  match h.entries[i]?, h.entries[j]? with
  | some x, some y => decide (x.score ≤ y.score)
  | _, _ => false

/-- The entries at two places change places. -/
def swap (h : Heap S) (i j : Nat) : Heap S :=
  ⟨h.entries.swapIfInBounds i j⟩

/-- Move the entry at place `i` up for as long as it is below its parent. The first argument bounds the
number of moves. -/
def rise : Nat → Nat → Heap S → Heap S
  | 0, _, h => h
  | moves + 1, i, h =>
    let parent := (i - 1) / 2
    if 0 < i && h.below i parent then rise moves parent (h.swap i parent) else h

/-- The child of place `i` that moves up: the one with the smaller score, and of equal ones the
right. -/
def nextChild? (h : Heap S) (i : Nat) : Option Nat :=
  let left := 2 * i + 1
  let right := left + 1
  if right < h.entries.size then some (if h.atMost right left then right else left)
  else if left < h.entries.size then some left
  else none

/-- Move the entry at place `i` down to a place without children, and say where it ends up. -/
def sink : Nat → Nat → Heap S → Heap S × Nat
  | 0, i, h => (h, i)
  | moves + 1, i, h =>
    match h.nextChild? i with
    | some child => sink moves child (h.swap i child)
    | none => (h, i)

/-- Put an entry on the heap. -/
def push (h : Heap S) (x : Scored S) : Heap S :=
  let n := h.entries.size
  rise (n + 1) n ⟨h.entries.push x⟩

/-- Take the top entry off the heap. -/
def pop? (h : Heap S) : Option (Scored S × Heap S) :=
  match h.entries[0]?, h.entries.back? with
  | some top, some last =>
    let rest := h.entries.pop
    let n := rest.size
    let (sunk, i) := sink n 0 ⟨rest.setIfInBounds 0 last⟩
    some (top, rise (i + 1) i sunk)
  | _, _ => none

end Heap

end QubitRouting.Graph
