/-!
# Arcs

A graph on numbered vertices is kept as the list of its arcs, in order of creation. An arc is never listed
twice.
-/

namespace QubitRouting.Graph

/-- Add an arc at the end, unless it is there already. -/
def addArc (arcs : List (Nat × Nat)) (a b : Nat) : List (Nat × Nat) :=
  if arcs.contains (a, b) then arcs else arcs ++ [(a, b)]

theorem mem_addArc_iff {arcs : List (Nat × Nat)} {a b : Nat} {e : Nat × Nat} :
    e ∈ addArc arcs a b ↔ e ∈ arcs ∨ e = (a, b) := by
  unfold addArc
  split
  next h =>
    constructor
    · exact .inl
    · intro hcase
      rcases hcase with he | rfl
      · exact he
      · simpa using h
  next => simp

theorem nodup_addArc {arcs : List (Nat × Nat)} (h : arcs.Nodup) (a b : Nat) : (addArc arcs a b).Nodup := by
  unfold addArc
  split
  next => exact h
  next hnot =>
    rw [List.contains_iff_mem] at hnot
    exact List.nodup_append.mpr ⟨h, List.pairwise_singleton _ _, fun x hx y hy heq =>
      hnot (List.mem_singleton.mp hy ▸ heq ▸ hx)⟩

theorem length_addArc_le (arcs : List (Nat × Nat)) (a b : Nat) :
    (addArc arcs a b).length ≤ arcs.length + 1 := by
  unfold addArc
  split
  next => exact Nat.le_succ _
  next => exact Nat.le_of_eq List.length_append

end QubitRouting.Graph
