import QubitRouting.SwapDepth
import Mathlib.Data.List.Chain
import Mathlib.Data.List.Induction
import Mathlib.Data.List.Perm.Subperm
import Mathlib.Order.Bounds.Defs

/-!
# The depth of a list of swaps is its critical path

Two swaps that overlap cannot share a layer. So a *chain*, in which every swap overlaps the next one, takes as many
layers as it has members, and no schedule is shorter than any chain (`IsChainOf.length_le`).

The greedy layers keep one number per qubit. `Layers.Measures` says what it is: the length of the longest chain so
far that ends on that qubit. One more swap extends such a chain of one of its two qubits (`Measures.place`). The
layers that are handed out on the way are a schedule (`schedule_assign`), so a longest chain and a shortest schedule
meet in the depth.
-/

namespace QubitRouting

/-- The qubit is one of the two. -/
def Involves (s : Swap) (q : Qubit) : Prop :=
  q = s.1 ∨ q = s.2

/-- The two swaps share a qubit. -/
def Overlap (s t : Swap) : Prop :=
  Involves s t.1 ∨ Involves s t.2

instance (s : Swap) (q : Qubit) : Decidable (Involves s q) :=
  inferInstanceAs (Decidable (_ ∨ _))

instance (s t : Swap) : Decidable (Overlap s t) :=
  inferInstanceAs (Decidable (_ ∨ _))

theorem overlap_iff {s t : Swap} : Overlap s t ↔ ∃ q, Involves s q ∧ Involves t q := by
  constructor
  · rintro (h | h)
    · exact ⟨t.1, h, .inl rfl⟩
    · exact ⟨t.2, h, .inr rfl⟩
  · rintro ⟨q, hs, rfl | rfl⟩
    · exact .inl hs
    · exact .inr hs

/-- Some of the swaps, in their order, each of which overlaps the next one. -/
structure IsChainOf (swaps chain : List Swap) : Prop where
  sublist : chain.Sublist swaps
  overlaps : chain.IsChain Overlap

/-- Every swap has one of the layers `1, …, d`, and of two that overlap the earlier one has the smaller layer. -/
structure IsSchedule (d : Nat) (swaps : List Swap) (layers : List Nat) : Prop where
  length_eq : layers.length = swaps.length
  bounds : ∀ k ∈ layers, 1 ≤ k ∧ k ≤ d
  ordered : (swaps.zip layers).Pairwise fun e e' => Overlap e.1 e'.1 → e.2 < e'.2

/-! ## Chains and schedules -/

/-- The layers of a schedule increase along a chain. -/
theorem IsChainOf.length_le {d : Nat} {swaps chain : List Swap} {layers : List Nat} (h : IsChainOf swaps chain)
    (hsched : IsSchedule d swaps layers) : chain.length ≤ d := by
  have hfst : (swaps.zip layers).map Prod.fst = swaps :=
    List.map_fst_zip (Nat.le_of_eq hsched.length_eq.symm)
  obtain ⟨placed, hplaced, rfl⟩ := List.sublist_map_iff.mp (hfst ▸ h.sublist)
  have hordered := (hsched.ordered.sublist hplaced).isChain
  have hoverlaps := (List.isChain_map Prod.fst).mp h.overlaps
  have hlt : (placed.map Prod.snd).Pairwise (· < ·) := by
    rw [← List.isChain_iff_pairwise, List.isChain_map]
    exact List.isChain_iff_getElem.mpr fun i hi => hordered.getElem i hi (hoverlaps.getElem i hi)
  have hsub : placed.map Prod.snd ⊆ List.range' 1 d := by
    intro k hk
    obtain ⟨e, he, rfl⟩ := List.mem_map.mp hk
    obtain ⟨hpos, hle⟩ := hsched.bounds e.2 (List.of_mem_zip (hplaced.subset he)).2
    exact List.mem_range'_1.mpr ⟨hpos, by omega⟩
  have hnodup : (placed.map Prod.snd).Nodup := hlt.imp fun hab => Nat.ne_of_lt hab
  simpa using (List.subperm_of_subset hnodup hsub).length_le

/-- A chain of a longer list is one of the list before, or such a chain and the last swap. -/
theorem isChainOf_concat_iff {swaps chain : List Swap} {s : Swap} : IsChainOf (swaps ++ [s]) chain ↔
    IsChainOf swaps chain ∨
      ∃ rest, chain = rest ++ [s] ∧ IsChainOf swaps rest ∧ ∀ t ∈ rest.getLast?, Overlap t s := by
  constructor
  · rintro ⟨hsub, hchain⟩
    obtain ⟨rest, last, rfl, hrest, hlast⟩ := List.sublist_append_iff.mp hsub
    rcases List.sublist_singleton.mp hlast with rfl | rfl
    · rw [List.append_nil] at hchain ⊢
      exact .inl ⟨hrest, hchain⟩
    · obtain ⟨hbefore, -, hends⟩ := List.isChain_append.mp hchain
      exact .inr ⟨rest, rfl, ⟨hrest, hbefore⟩, fun t ht => hends t ht s rfl⟩
  · rintro (⟨hsub, hchain⟩ | ⟨rest, rfl, ⟨hsub, hchain⟩, hends⟩)
    · exact ⟨hsub.trans (List.sublist_append_left swaps [s]), hchain⟩
    · refine ⟨hsub.append_right [s], List.isChain_append.mpr ⟨hchain, .singleton s, fun t ht u hu => ?_⟩⟩
      obtain rfl : s = u := by simpa using hu
      exact hends t ht

namespace Layers

variable {l : Layers} {swaps : List Swap} {s t : Swap} {q : Qubit}

/-- The layer that the next swap gets. -/
def layerOf (l : Layers) (s : Swap) : Nat :=
  1 + max (l.latest s.1) (l.latest s.2)

theorem latest_place (l : Layers) (s : Swap) (q : Qubit) :
    (l.place s).latest q = if Involves s q then l.layerOf s else l.latest q := rfl

theorem depth_place (l : Layers) (s : Swap) : (l.place s).depth = max l.depth (l.layerOf s) := rfl

theorem latest_lt_layerOf (h : Involves s q) : l.latest q < l.layerOf s := by
  unfold layerOf
  rcases h with rfl | rfl <;> omega

/-- The number of a qubit never goes down. -/
theorem latest_le_place (l : Layers) (s : Swap) (q : Qubit) : l.latest q ≤ (l.place s).latest q := by
  rw [latest_place]
  split
  next h => exact Nat.le_of_lt (latest_lt_layerOf h)
  next => exact Nat.le_refl _

/-- Swaps that do not overlap can be placed in either order. -/
theorem place_comm (h : ¬ Overlap s t) : (l.place s).place t = (l.place t).place s := by
  have hst : ∀ q, Involves s q → ¬ Involves t q := fun q hs ht => h (overlap_iff.mpr ⟨q, hs, ht⟩)
  have hs : (l.place t).layerOf s = l.layerOf s := by
    unfold layerOf
    rw [latest_place, latest_place, if_neg (hst s.1 (.inl rfl)), if_neg (hst s.2 (.inr rfl))]
  have ht : (l.place s).layerOf t = l.layerOf t := by
    unfold layerOf
    rw [latest_place, latest_place, if_neg fun hs => hst t.1 hs (.inl rfl),
      if_neg fun hs => hst t.2 hs (.inr rfl)]
  have hlatest : ((l.place s).place t).latest = ((l.place t).place s).latest := by
    funext q
    rw [latest_place, latest_place, latest_place, latest_place, hs, ht]
    by_cases hq : Involves s q
    · rw [if_neg (hst q hq), if_pos hq, if_pos hq]
    · rw [if_neg hq, if_neg hq]
  have hdepth : ((l.place s).place t).depth = ((l.place t).place s).depth := by
    rw [depth_place, depth_place, depth_place, depth_place, hs, ht, Nat.max_right_comm]
  show Layers.mk _ _ = Layers.mk _ _
  rw [Layers.mk.injEq]
  exact ⟨hlatest, hdepth⟩

/-! ## What the numbers measure -/

/-- The number of a qubit is the length of a longest chain that ends on it, zero if there is none, and the depth is
the length of a longest chain. -/
structure Measures (l : Layers) (swaps : List Swap) : Prop where
  length_le : ∀ chain t q, IsChainOf swaps chain → t ∈ chain.getLast? → Involves t q → chain.length ≤ l.latest q
  attained : ∀ q, l.latest q = 0 ∨
    ∃ chain, IsChainOf swaps chain ∧ (∃ t ∈ chain.getLast?, Involves t q) ∧ chain.length = l.latest q
  latest_le : ∀ q, l.latest q ≤ l.depth
  depth_attained : ∃ chain, IsChainOf swaps chain ∧ chain.length = l.depth

theorem measures_empty : Measures empty [] where
  length_le := by
    rintro chain t q ⟨hsub, -⟩ ht -
    rw [List.sublist_nil.mp hsub] at ht
    contradiction
  attained := fun _ => .inl rfl
  latest_le := fun _ => Nat.le_refl 0
  depth_attained := ⟨[], ⟨.slnil, .nil⟩, rfl⟩

namespace Measures

/-- A chain that the next swap can be added to is shorter than the layer of that swap. -/
theorem length_lt_layerOf (h : l.Measures swaps) {chain : List Swap} (hchain : IsChainOf swaps chain)
    (hends : ∀ t ∈ chain.getLast?, Overlap t s) : chain.length < l.layerOf s := by
  cases chain using List.reverseRecOn with
  | nil => exact Nat.lt_add_right _ Nat.one_pos
  | append_singleton rest t =>
    have ht : t ∈ (rest ++ [t]).getLast? := by rw [List.getLast?_concat]; rfl
    obtain ⟨q, htq, hsq⟩ := overlap_iff.mp (hends t ht)
    exact Nat.lt_of_le_of_lt (h.length_le _ t q hchain ht htq) (latest_lt_layerOf hsq)

/-- Some chain becomes as long as the layer of the next swap when that swap is added. -/
theorem exists_chain (h : l.Measures swaps) (s : Swap) : ∃ chain, IsChainOf swaps chain ∧
    (∀ t ∈ chain.getLast?, Overlap t s) ∧ chain.length + 1 = l.layerOf s := by
  have hcase : ∃ q, Involves s q ∧ l.layerOf s = 1 + l.latest q := by
    unfold layerOf
    rcases Nat.le_total (l.latest s.1) (l.latest s.2) with hle | hle
    · exact ⟨s.2, .inr rfl, by rw [Nat.max_eq_right hle]⟩
    · exact ⟨s.1, .inl rfl, by rw [Nat.max_eq_left hle]⟩
  obtain ⟨q, hq, hlayer⟩ := hcase
  rw [hlayer, Nat.add_comm 1]
  rcases h.attained q with hzero | ⟨chain, hchain, ⟨t, ht, htq⟩, hlen⟩
  · refine ⟨[], ⟨List.nil_sublist _, .nil⟩, fun t ht => ?_, by rw [hzero]; rfl⟩
    contradiction
  · refine ⟨chain, hchain, fun t' ht' => ?_, by rw [hlen]⟩
    obtain rfl : t = t' := Option.some.inj (ht.symm.trans ht')
    exact overlap_iff.mpr ⟨q, htq, hq⟩

/-- One more swap. -/
theorem place (h : l.Measures swaps) (s : Swap) : (l.place s).Measures (swaps ++ [s]) := by
  obtain ⟨longest, hlongest, hends, hlen⟩ := h.exists_chain s
  have hextended : IsChainOf (swaps ++ [s]) (longest ++ [s]) :=
    isChainOf_concat_iff.mpr (.inr ⟨longest, rfl, hlongest, hends⟩)
  have hextended_length : (longest ++ [s]).length = l.layerOf s := by
    rw [List.length_append, List.length_singleton, hlen]
  refine ⟨fun chain t q hchain ht htq => ?_, fun q => ?_, fun q => ?_, ?_⟩
  · rcases isChainOf_concat_iff.mp hchain with hold | ⟨rest, rfl, hrest, hends'⟩
    · exact Nat.le_trans (h.length_le chain t q hold ht htq) (l.latest_le_place s q)
    · rw [List.getLast?_concat] at ht
      obtain rfl : s = t := Option.some.inj ht
      rw [latest_place, if_pos htq, List.length_append]
      exact h.length_lt_layerOf hrest hends'
  · rw [latest_place]
    split
    next hq =>
      refine .inr ⟨longest ++ [s], hextended, ⟨s, ?_, hq⟩, hextended_length⟩
      rw [List.getLast?_concat]
      rfl
    next =>
      refine (h.attained q).imp_right ?_
      rintro ⟨chain, hchain, hlast, hlength⟩
      exact ⟨chain, isChainOf_concat_iff.mpr (.inl hchain), hlast, hlength⟩
  · rw [latest_place, depth_place]
    split
    next => exact Nat.le_max_right _ _
    next => exact Nat.le_trans (h.latest_le q) (Nat.le_max_left _ _)
  · rw [depth_place]
    rcases Nat.le_total l.depth (l.layerOf s) with hle | hle
    · exact ⟨_, hextended, by rw [hextended_length, Nat.max_eq_right hle]⟩
    · obtain ⟨chain, hchain, hlength⟩ := h.depth_attained
      exact ⟨chain, isChainOf_concat_iff.mpr (.inl hchain), by rw [hlength, Nat.max_eq_left hle]⟩

theorem length_le_depth (h : l.Measures swaps) {chain : List Swap} (hchain : IsChainOf swaps chain) :
    chain.length ≤ l.depth := by
  cases chain using List.reverseRecOn with
  | nil => exact Nat.zero_le _
  | append_singleton rest t =>
    have ht : t ∈ (rest ++ [t]).getLast? := by rw [List.getLast?_concat]; rfl
    exact Nat.le_trans (h.length_le _ t t.1 hchain ht (.inl rfl)) (h.latest_le t.1)

end Measures

/-- The whole list, swap by swap. -/
theorem measures_foldl (swaps : List Swap) : (swaps.foldl place empty).Measures swaps := by
  induction swaps using List.reverseRecOn with
  | nil => exact measures_empty
  | append_singleton swaps s ih =>
    rw [List.foldl_concat]
    exact ih.place s

/-! ## The layers that are handed out -/

/-- The layers of the swaps of a list, one after the other. -/
def assign : Layers → List Swap → List Nat
  | _, [] => []
  | l, s :: rest => l.layerOf s :: assign (l.place s) rest

theorem length_assign (l : Layers) (swaps : List Swap) : (l.assign swaps).length = swaps.length := by
  induction swaps generalizing l with
  | nil => rfl
  | cons s rest ih => rw [assign, List.length_cons, List.length_cons, ih]

theorem depth_le_foldl (l : Layers) (swaps : List Swap) : l.depth ≤ (swaps.foldl place l).depth := by
  induction swaps generalizing l with
  | nil => exact Nat.le_refl _
  | cons s rest ih => exact Nat.le_trans (Nat.le_max_left _ _) (ih (l.place s))

theorem assign_bounds (l : Layers) (swaps : List Swap) :
    ∀ k ∈ l.assign swaps, 1 ≤ k ∧ k ≤ (swaps.foldl place l).depth := by
  induction swaps generalizing l with
  | nil =>
    intro k hk
    contradiction
  | cons s rest ih =>
    intro k hk
    rcases List.mem_cons.mp hk with rfl | hk
    · refine ⟨Nat.le_add_right _ _, Nat.le_trans (Nat.le_max_right l.depth _) ?_⟩
      exact (l.place s).depth_le_foldl rest
    · exact ih (l.place s) k hk

/-- A swap comes after everything that was placed on its qubits. -/
theorem latest_lt_of_mem_assign (l : Layers) (swaps : List Swap) :
    ∀ e ∈ swaps.zip (l.assign swaps), Involves e.1 q → l.latest q < e.2 := by
  induction swaps generalizing l with
  | nil =>
    intro e he
    contradiction
  | cons s rest ih =>
    intro e he hq
    rcases List.mem_cons.mp he with rfl | he
    · exact latest_lt_layerOf hq
    · exact Nat.lt_of_le_of_lt (l.latest_le_place s q) (ih (l.place s) e he hq)

theorem assign_ordered (l : Layers) (swaps : List Swap) :
    (swaps.zip (l.assign swaps)).Pairwise fun e e' => Overlap e.1 e'.1 → e.2 < e'.2 := by
  induction swaps generalizing l with
  | nil => exact .nil
  | cons s rest ih =>
    refine .cons (fun e he hoverlap => ?_) (ih (l.place s))
    obtain ⟨q, hs, hq⟩ := overlap_iff.mp hoverlap
    have hlt := latest_lt_of_mem_assign (l.place s) rest e he hq
    rwa [latest_place, if_pos hs] at hlt

theorem schedule_assign (swaps : List Swap) : IsSchedule (swapDepth swaps) swaps (empty.assign swaps) where
  length_eq := empty.length_assign swaps
  bounds := empty.assign_bounds swaps
  ordered := empty.assign_ordered swaps

end Layers

/-! ## The depth -/

theorem swapDepth_exchange (before after : List Swap) {s t : Swap} (h : ¬ Overlap s t) :
    swapDepth (before ++ t :: s :: after) = swapDepth (before ++ s :: t :: after) := by
  unfold swapDepth
  simp only [List.foldl_append, List.foldl_cons]
  rw [Layers.place_comm h]

/-- The depth is the length of the longest chain of overlapping swaps, and the least number of layers into which the
swaps can be put. Swaps next to each other that do not overlap can be exchanged. -/
theorem swapDepth_critical_path (swaps : List Swap) :
    IsGreatest {n | ∃ chain, IsChainOf swaps chain ∧ chain.length = n} (swapDepth swaps) ∧
    IsLeast {d | ∃ layers, IsSchedule d swaps layers} (swapDepth swaps) ∧
    ∀ before s t after, swaps = before ++ s :: t :: after → ¬ Overlap s t →
      swapDepth (before ++ t :: s :: after) = swapDepth swaps := by
  have hmeasures := Layers.measures_foldl swaps
  obtain ⟨longest, hlongest, hlength⟩ := hmeasures.depth_attained
  refine ⟨⟨⟨longest, hlongest, hlength⟩, ?_⟩, ⟨⟨_, Layers.schedule_assign swaps⟩, ?_⟩, ?_⟩
  · rintro n ⟨chain, hchain, rfl⟩
    exact hmeasures.length_le_depth hchain
  · rintro d ⟨layers, hlayers⟩
    exact Nat.le_trans (Nat.le_of_eq hlength.symm) (hlongest.length_le hlayers)
  · rintro before s t after rfl hoverlap
    exact swapDepth_exchange before after hoverlap

/-- One pair of qubits is swapped twice, around a swap that overlaps neither and one that overlaps both. -/
theorem swapDepth_critical_path_four : swapDepth [(0, 1), (2, 3), (1, 2), (0, 1)] = 3 ∧
    (∀ d layers, IsSchedule d [(0, 1), (2, 3), (1, 2), (0, 1)] layers → 3 ≤ d) ∧
    swapDepth [(2, 3), (0, 1), (1, 2), (0, 1)] = 3 := by
  have hthree : swapDepth [(0, 1), (2, 3), (1, 2), (0, 1)] = 3 := by decide
  obtain ⟨-, hleast, hexchange⟩ := swapDepth_critical_path [(0, 1), (2, 3), (1, 2), (0, 1)]
  rw [hthree] at hleast hexchange
  exact ⟨hthree, fun d layers hlayers => hleast.2 ⟨layers, hlayers⟩, hexchange [] _ _ _ rfl (by decide)⟩

end QubitRouting
