import QubitRouting.Crossing
import Mathlib.Data.Finset.Card
import Mathlib.Data.List.Perm.Subperm

/-!
# When a crossing compares sets of nodes

`touches` compares the lengths of two lists and tests one of two inclusions. If no node is repeated in the list that
is asked about, this says that the list is the overlap in some order (`touches_iff_perm`), so for an overlap without
repetition it compares the two as sets. With a repetition on either side it does not: an overlap that repeats a node
fails on its own nodes without the repetition (`nodup_of_touches_dedup`), and in the list that is asked about a
repeated node can stand in for one that is missing. The registry records overlaps of one node, to which this makes no
difference.
-/

namespace QubitRouting

namespace Crossing

variable {c : Crossing} {nodes : List Qubit}

theorem touches_of_perm (h : nodes.Perm c.overlap) : c.touches nodes = true :=
  touches_iff.mpr ⟨h.length_eq.symm, fun _ hx => h.subset hx⟩

theorem touches_iff_perm (hnodes : nodes.Nodup) : c.touches nodes = true ↔ nodes.Perm c.overlap := by
  constructor
  · intro h
    obtain ⟨hlength, hsubset⟩ := touches_iff.mp h
    -- as many different nodes as the overlap has leave no room for another one
    have hsubperm : nodes.Subperm c.overlap := List.subperm_of_subset hnodes hsubset
    exact hsubperm.perm_of_length_le hlength.le
  · exact touches_of_perm

theorem touches_iff_toFinset (hc : c.overlap.Nodup) (hnodes : nodes.Nodup) :
    c.touches nodes = true ↔ nodes.toFinset = c.overlap.toFinset := by
  rw [touches_iff_perm hnodes]
  exact ⟨List.toFinset_eq_of_perm _ _, List.perm_of_nodup_nodup_toFinset_eq hnodes hc⟩

/-- An overlap that touches its own nodes, each taken once, has no repetition. -/
theorem nodup_of_touches_dedup (h : c.touches c.overlap.dedup = true) : c.overlap.Nodup :=
  ((touches_iff_perm (List.nodup_dedup _)).mp h).nodup_iff.mp (List.nodup_dedup _)

theorem touches_comm {a b : Crossing} (ha : a.overlap.Nodup) (hb : b.overlap.Nodup) :
    a.touches b.overlap = b.touches a.overlap := by
  rw [Bool.eq_iff_iff, touches_iff_perm hb, touches_iff_perm ha]
  exact List.perm_comm

theorem isWith_iff {id : PathId} : c.isWith id nodes = true ↔ c.path = id ∧ c.touches nodes = true := by
  simp [isWith]

/-- A crossing tells lists of different nodes apart by the set of their nodes if and only if no node of its overlap
is repeated. If so, it also recognizes the other path and the set of nodes together, and of two such crossings each
touches the overlap of the other or none does. -/
theorem touches_sets_exact (c : Crossing) :
    (c.overlap.Nodup ↔ ∀ nodes : List Qubit, nodes.Nodup →
      (c.touches nodes = true ↔ nodes.toFinset = c.overlap.toFinset)) ∧
    (c.overlap.Nodup →
      (∀ (id : PathId) (nodes : List Qubit), nodes.Nodup →
        (c.isWith id nodes = true ↔ c.path = id ∧ nodes.toFinset = c.overlap.toFinset)) ∧
      ∀ b : Crossing, b.overlap.Nodup → c.touches b.overlap = b.touches c.overlap) := by
  refine ⟨⟨fun hc nodes hnodes => touches_iff_toFinset hc hnodes, fun h => ?_⟩, fun hc => ⟨?_, ?_⟩⟩
  · refine nodup_of_touches_dedup ((h c.overlap.dedup (List.nodup_dedup _)).mpr ?_)
    ext x
    rw [List.mem_toFinset, List.mem_toFinset, List.mem_dedup]
  · intro id nodes hnodes
    rw [isWith_iff, touches_iff_toFinset hc hnodes]
  · intro b hb
    exact touches_comm hc hb

/-- Two nodes in either order: each of two crossings touches the overlap of the other. -/
theorem touches_sets_two : (⟨1, [3, 4]⟩ : Crossing).overlap.Nodup ∧
    (⟨1, [3, 4]⟩ : Crossing).isWith 1 [4, 3] = true ∧
    (⟨1, [3, 4]⟩ : Crossing).touches [4, 3] = (⟨2, [4, 3]⟩ : Crossing).touches [3, 4] := by
  have hc : (⟨1, [3, 4]⟩ : Crossing).overlap.Nodup := by decide
  have hb : (⟨2, [4, 3]⟩ : Crossing).overlap.Nodup := by decide
  obtain ⟨hwith, hcomm⟩ := (touches_sets_exact ⟨1, [3, 4]⟩).2 hc
  exact ⟨hc, (hwith 1 [4, 3] hb).mpr ⟨rfl, by decide⟩, hcomm ⟨2, [4, 3]⟩ hb⟩

/-- A repeated node stands in for one that is missing, and the overlap that repeats it does not touch the other one;
nor does a single node touch itself repeated. -/
theorem touches_repeated_node : (⟨1, [3, 4]⟩ : Crossing).touches [3, 3] = true ∧
    [3, 3].toFinset ≠ [3, 4].toFinset ∧ (⟨2, [3, 3]⟩ : Crossing).touches [3, 4] = false ∧
    (⟨1, [3]⟩ : Crossing).touches [3, 3] = false ∧ [3, 3].toFinset = [3].toFinset := by
  decide

end Crossing

end QubitRouting
