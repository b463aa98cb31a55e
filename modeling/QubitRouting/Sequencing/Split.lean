import QubitRouting.Qubit

/-!
# Splits

A path is cut in two. The qubit at its start is swapped forwards along the first half, the qubit at
its end backwards along the second half, and the two meet at the cut.

Both halves are kept with the node next to the cut in front, so that moving the cut by one node moves
one list head.
-/

namespace QubitRouting

/-- A path cut in two; `before` runs from the cut back to the start, `after` from the cut to the
end. -/
structure Split where
  before : List Qubit
  after : List Qubit
deriving DecidableEq, Repr

/-- The swaps that walk a qubit along the nodes of `p` from first to last. -/
def walk (p : List Qubit) : List Swap :=
  p.zip p.tail

namespace Split

/-- The path that was cut. -/
def nodes (s : Split) : List Qubit :=
  s.before.reverse ++ s.after

/-- The number of nodes in front of the cut. -/
def cut (s : Split) : Nat :=
  s.before.length

/-- A path cut in the middle, the shorter half first. -/
def middle (p : List Qubit) : Split :=
  ⟨(p.take (p.length / 2)).reverse, p.drop (p.length / 2)⟩

/-- Does one of the halves end on `x` at the cut? -/
def boundAt (s : Split) (x : Qubit) : Bool :=
  s.before.head? == some x || s.after.head? == some x

/-- The cut one node further towards the end, if both nodes next to it are then free. -/
def forward1? (s : Split) (free : Qubit → Bool) : Option Split :=
  match s.after with
  | a :: b :: rest => if free a && free b then some ⟨a :: s.before, b :: rest⟩ else none
  | _ => none

/-- The cut one node further towards the start, if both nodes next to it are then free. -/
def backward1? (s : Split) (free : Qubit → Bool) : Option Split :=
  match s.before with
  | a :: b :: rest => if free b && free a then some ⟨b :: rest, a :: s.after⟩ else none
  | _ => none

/-- The cut two nodes further towards the end, if both nodes next to it are then free. -/
def forward2? (s : Split) (free : Qubit → Bool) : Option Split :=
  match s.after with
  | a :: b :: c :: rest => if free b && free c then some ⟨b :: a :: s.before, c :: rest⟩ else none
  | _ => none

/-- The cut two nodes further towards the start, if both nodes next to it are then free. -/
def backward2? (s : Split) (free : Qubit → Bool) : Option Split :=
  match s.before with
  | a :: b :: c :: rest => if free c && free b then some ⟨c :: rest, b :: a :: s.after⟩ else none
  | _ => none

/-- Move the cut of a split that is bound at `x` by at most two nodes, so that neither half ends on a
node that is not free. The move by one node away from `x` is tried first, then two nodes towards the
start, then two towards the end. A path of fewer than four nodes has no such cut. -/
def shift? (s : Split) (x : Qubit) (free : Qubit → Bool) : Option Split :=
  if s.before.length + s.after.length < 4 then none
  else
    let near := if s.before.head? == some x then s.forward1? free else s.backward1? free
    near.or ((s.backward2? free).or (s.forward2? free))

/-- The swaps of both halves: the start walks forwards, then the end backwards. -/
def swaps (s : Split) : List Swap :=
  walk s.before.reverse ++ walk s.after.reverse

theorem nodes_middle (p : List Qubit) : (middle p).nodes = p := by
  simp [middle, nodes]

theorem nodes_forward1? {s t : Split} {free : Qubit → Bool} (h : s.forward1? free = some t) :
    t.nodes = s.nodes := by
  unfold forward1? at h
  split at h
  · rename_i a b rest heq
    split at h
    · obtain rfl := Option.some.inj h
      simp [nodes, heq]
    · contradiction
  · contradiction

theorem nodes_backward1? {s t : Split} {free : Qubit → Bool} (h : s.backward1? free = some t) :
    t.nodes = s.nodes := by
  unfold backward1? at h
  split at h
  · rename_i a b rest heq
    split at h
    · obtain rfl := Option.some.inj h
      simp [nodes, heq]
    · contradiction
  · contradiction

theorem nodes_forward2? {s t : Split} {free : Qubit → Bool} (h : s.forward2? free = some t) :
    t.nodes = s.nodes := by
  unfold forward2? at h
  split at h
  · rename_i a b c rest heq
    split at h
    · obtain rfl := Option.some.inj h
      simp [nodes, heq]
    · contradiction
  · contradiction

theorem nodes_backward2? {s t : Split} {free : Qubit → Bool} (h : s.backward2? free = some t) :
    t.nodes = s.nodes := by
  unfold backward2? at h
  split at h
  · rename_i a b c rest heq
    split at h
    · obtain rfl := Option.some.inj h
      simp [nodes, heq]
    · contradiction
  · contradiction

/-- Moving the cut does not change the path. -/
theorem nodes_shift? {s t : Split} {x : Qubit} {free : Qubit → Bool}
    (h : s.shift? x free = some t) : t.nodes = s.nodes := by
  unfold shift? at h
  split at h
  · contradiction
  · rw [Option.or_eq_some_iff, Option.or_eq_some_iff] at h
    rcases h with h | ⟨_, h | ⟨_, h⟩⟩
    · split at h
      · exact nodes_forward1? h
      · exact nodes_backward1? h
    · exact nodes_backward2? h
    · exact nodes_forward2? h

end Split

end QubitRouting
