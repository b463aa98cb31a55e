import QubitRouting.Proofs.Sequencing.Locality.Blocks
import Mathlib.Data.List.GetD

/-!
# Every path that is left walks its two ends in

What sequencing returns is written out here by positions. A path cut behind its first `k` nodes takes the
swaps `walkIn path k`: its start goes forwards up to position `k - 1`, then its end goes back to position
`k`. The answer of sequencing is one such block for each path that is left, by number of the path, and
nothing else (`generateSwaps_walks_in`).

The cuts of a plan are read off its splits (`Plan.cutPoints`). That each of them belongs to the path in the same
slot and leaves neither half empty is what `Plan.Aligned` says, and every move of sequencing keeps it.
-/

namespace QubitRouting

/-- The swaps that walk the two ends of a path up to the cut behind its first `k` nodes. -/
def walkIn (path : List Qubit) (k : Nat) : List Swap :=
  (List.range (k - 1)).map (fun i => (path.getD i 0, path.getD (i + 1) 0)) ++
    (List.range (path.length - 1 - k)).map fun i =>
      (path.getD (path.length - 1 - i) 0, path.getD (path.length - 2 - i) 0)

/-- There is a node on each side of the cut. -/
def CutsInside (path : List Qubit) (k : Nat) : Prop :=
  1 ≤ k ∧ k ≤ path.length - 1

/-- The two walks together cross every link of the path but the one at the cut. -/
theorem length_walkIn {path : List Qubit} {k : Nat} (h : CutsInside path k) :
    (walkIn path k).length = path.length - 2 := by
  obtain ⟨hpos, hlt⟩ := h
  unfold walkIn
  rw [List.length_append, List.length_map, List.length_map, List.length_range, List.length_range]
  omega

/-- A walk swaps the node at each position with the one at the next. -/
theorem walk_eq_map (p : List Qubit) :
    walk p = (List.range (p.length - 1)).map fun i => (p.getD i 0, p.getD (i + 1) 0) := by
  unfold walk
  refine List.ext_getElem (by simp) fun i hi _ => ?_
  have hnext : i + 1 < p.length := by
    rw [List.length_zip, List.length_tail] at hi
    omega
  have hhere : i < p.length := Nat.lt_of_succ_lt hnext
  rw [List.getElem_zip, List.getElem_tail, List.getElem_map, List.getElem_range,
    List.getD_eq_getElem p 0 hhere, List.getD_eq_getElem p 0 hnext]

namespace Split

theorem getD_nodes_left {s : Split} {i : Nat} (h : i < s.cut) :
    s.nodes.getD i 0 = s.before.reverse.getD i 0 :=
  List.getD_append _ _ _ _ (by rwa [List.length_reverse])

/-- Counted from the end, the path and its second half have the same nodes. -/
theorem getD_nodes_right {s : Split} {i : Nat} (h : i < s.after.length) :
    s.nodes.getD (s.nodes.length - 1 - i) 0 = s.after.reverse.getD i 0 := by
  have hlen : s.nodes.length = s.before.reverse.length + s.after.length := List.length_append
  have hpos : s.before.reverse.length ≤ s.nodes.length - 1 - i := by omega
  have hidx : s.nodes.length - 1 - i - s.before.reverse.length = s.after.length - 1 - i := by omega
  have hright : s.after.length - 1 - i < s.after.length := by omega
  have hleft : i < s.after.reverse.length := by rwa [List.length_reverse]
  rw [List.getD_eq_getElem _ 0 hleft, List.getElem_reverse]
  show (s.before.reverse ++ s.after).getD _ 0 = _
  rw [List.getD_append_right _ _ _ _ hpos, hidx, List.getD_eq_getElem _ 0 hright]

/-- A cut of a path with a node on each side. -/
theorem cutsInside {s : Split} (hbefore : s.before ≠ []) (hafter : s.after ≠ []) :
    CutsInside s.nodes s.cut := by
  have hb := List.length_pos_iff.mpr hbefore
  have ha := List.length_pos_iff.mpr hafter
  have hlen : s.nodes.length = s.before.reverse.length + s.after.length := List.length_append
  rw [List.length_reverse] at hlen
  unfold CutsInside cut
  omega

/-- The swaps of a split by positions on its path. -/
theorem swaps_eq_walkIn (s : Split) : s.swaps = walkIn s.nodes s.cut := by
  have hlen : s.nodes.length = s.cut + s.after.length := by
    unfold nodes cut
    rw [List.length_append, List.length_reverse]
  unfold swaps walkIn
  rw [walk_eq_map, walk_eq_map, List.length_reverse, List.length_reverse]
  have hcount : s.nodes.length - 1 - s.cut = s.after.length - 1 := by omega
  rw [hcount]
  refine congrArg₂ _ (List.map_congr_left fun i hi => ?_) (List.map_congr_left fun i hi => ?_)
  · have hi : i < s.cut - 1 := List.mem_range.mp hi
    rw [getD_nodes_left (by omega), getD_nodes_left (by omega)]
  · have hi : i < s.after.length - 1 := List.mem_range.mp hi
    have hnext : s.nodes.length - 2 - i = s.nodes.length - 1 - (i + 1) := by omega
    rw [hnext, getD_nodes_right (by omega), getD_nodes_right (by omega)]

end Split

namespace Plan

/-- The cuts of the paths, slot by slot. -/
def cutPoints (p : Plan) : List Nat :=
  p.splits.filterMap (Option.map Split.cut)

/-- Slot by slot, the cuts lie inside the paths and the swaps are the blocks of the paths. -/
theorem walkIn_of_fits {slots : List (Option Slot)} {splits : List (Option Split)}
    (h : List.Forall₂ Fits slots splits) :
    List.Forall₂ CutsInside (slots.filterMap (Option.map (·.nodes)))
        (splits.filterMap (Option.map Split.cut)) ∧
      slotSwaps splits = (List.zipWith walkIn (slots.filterMap (Option.map (·.nodes)))
        (splits.filterMap (Option.map Split.cut))).flatten := by
  induction h with
  | nil => exact ⟨.nil, rfl⟩
  | @cons o o' slots splits hfits _ ih =>
    match o, o', hfits with
    | none, none, _ => exact ih
    | some s, some sp, ⟨hnodes, hbefore, hafter⟩ =>
      have hcut : CutsInside s.nodes sp.cut := hnodes ▸ Split.cutsInside hbefore hafter
      refine ⟨.cons hcut ih.1, ?_⟩
      show sp.swaps ++ slotSwaps splits = walkIn s.nodes sp.cut ++ _
      rw [ih.2, sp.swaps_eq_walkIn, hnodes]

theorem Sound.walkIn {p : Plan} (hp : p.Sound) :
    List.Forall₂ CutsInside p.registry.paths p.cutPoints ∧
      p.swaps = (List.zipWith walkIn p.registry.paths p.cutPoints).flatten := by
  rw [Registry.paths_eq]
  exact walkIn_of_fits hp.aligned.forall₂

end Plan

namespace Registry

/-- The swaps walk the two ends of every path of `kept` in, and all these paths are paths of `r`. -/
structure WalksIn (r : Registry) (swaps : List Swap) (kept : Registry) : Prop where
  /-- No path is altered, invented, or there more often than before. -/
  subperm : kept.paths.Subperm r.paths
  /-- There is one block for each path, by number, with a cut inside the path. -/
  blocks : ∃ cuts, List.Forall₂ CutsInside kept.paths cuts ∧
    swaps = (List.zipWith walkIn kept.paths cuts).flatten ∧
    (List.zipWith walkIn kept.paths cuts).map List.length = kept.paths.map fun path => path.length - 2
  /-- The paths are listed by ascending number. -/
  ascending : kept.ids.Pairwise (· < ·) ∧ kept.ids.map kept.path? = kept.paths.map some
  /-- Every swap is between nodes that follow one another on a path that is left. -/
  links : ∀ s ∈ swaps, ∃ path ∈ kept.paths, LinkOf path s
  /-- Nodes of no path that is left are not touched. -/
  untouched : ∀ x, (∀ path ∈ kept.paths, x ∉ path) → ∀ s ∈ swaps, x ≠ s.1 ∧ x ≠ s.2

theorem map_path?_ids (r : Registry) : r.ids.map r.path? = r.paths.map some := by
  unfold ids paths
  rw [List.map_map, List.map_map]
  refine List.map_congr_left fun e he => ?_
  exact path?_eq_some_iff.mpr ⟨e.2, mem_entries_iff.mp he, rfl⟩

theorem map_length_walkIn {paths : List (List Qubit)} {cuts : List Nat}
    (h : List.Forall₂ CutsInside paths cuts) :
    (List.zipWith walkIn paths cuts).map List.length = paths.map fun path => path.length - 2 := by
  induction h with
  | nil => rfl
  | cons hcut _ ih =>
    rw [List.zipWith_cons_cons, List.map_cons, List.map_cons, length_walkIn hcut, ih]

theorem mem_of_linkOf {path : List Qubit} {s : Swap} (h : LinkOf path s) : s.1 ∈ path ∧ s.2 ∈ path := by
  rcases h with h | h
  · exact ⟨h.subset (by simp), h.subset (by simp)⟩
  · exact ⟨h.subset (by simp), h.subset (by simp)⟩

/-- Sequencing returns the walks of the two ends of every path that is left, one path after the other by
number, each up to a cut inside the path. -/
theorem generateSwaps_walks_in {r : Registry} (hr : Reachable r) :
    ∃ swaps kept, r.generateSwaps = .ok (swaps, kept) ∧ r.WalksIn swaps kept := by
  obtain ⟨p, hseq, hfollows, -⟩ := Plan.sequenced_total hr.valid
  obtain ⟨swaps, kept, hgen, hsequenced⟩ := generateSwaps_total hr.valid
  obtain ⟨rfl, rfl⟩ := Prod.mk.inj (Except.ok.inj (hgen.symm.trans (generateSwaps_eq hseq)))
  obtain ⟨hcuts, hswaps⟩ := hfollows.sound.walkIn
  refine ⟨p.swaps, p.registry, hgen, ?_, ⟨p.cutPoints, hcuts, hswaps, map_length_walkIn hcuts⟩,
    ⟨ids_pairwise _, map_path?_ids _⟩, hsequenced.linkOf, fun x hx s hs => ?_⟩
  · -- no path is registered twice, so membership is enough
    exact List.subperm_of_subset hsequenced.valid.paths_nodup hsequenced.paths_subset
  · obtain ⟨path, hpath, hlink⟩ := hsequenced.linkOf s hs
    obtain ⟨hfst, hsnd⟩ := mem_of_linkOf hlink
    exact ⟨fun he => hx path hpath (he ▸ hfst), fun he => hx path hpath (he ▸ hsnd)⟩

/-- Of the three paths one is discarded. The long one is cut behind its third node, the short one behind its
first. -/
theorem crossedTwice_walks_in : Reachable crossedTwice ∧
    crossedTwice.generateSwaps = .ok (walkIn [0, 1, 2, 3] 3 ++ walkIn [4, 1, 5] 1, crossedOnce) ∧
    crossedTwice.WalksIn (walkIn [0, 1, 2, 3] 3 ++ walkIn [4, 1, 5] 1) crossedOnce := by
  obtain ⟨swaps, kept, hgen, hwalks⟩ := generateSwaps_walks_in reachable_crossedTwice
  have hblocks : crossedTwice.generateSwaps =
      .ok (walkIn [0, 1, 2, 3] 3 ++ walkIn [4, 1, 5] 1, crossedOnce) := generateSwaps_crossedTwice
  obtain ⟨rfl, rfl⟩ := Prod.mk.inj (Except.ok.inj (hgen.symm.trans hblocks))
  exact ⟨reachable_crossedTwice, hblocks, hwalks⟩

end Registry

end QubitRouting
