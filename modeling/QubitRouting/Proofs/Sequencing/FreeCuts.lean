import QubitRouting.Proofs.Sequencing.WalkIn

/-!
# A cut moves to a free place nearby, if there is one

A path of `n` nodes can be cut behind its first `k` nodes for `1 ≤ k ≤ n - 1`, and the cut is free
(`FreeCut`) if the nodes at the positions `k - 1` and `k`, on both sides of it, are. A split is told by its
path and its cut (`Split.ext_cut`), so each of the four moves that `Split.shift?` tries is told by how far it
goes: it gives the split of the same path whose cut is that far away, if that cut is free (`Split.MovedTo`).

The moves leave out the places that are no use. A split is moved because one node next to its cut, `x`, is
not free. Then neither is the cut where it stands, nor the one on the other side of `x`; what is left within
two nodes are one step away from `x` and two steps in either direction. So `Split.shifted_exact`: the cut moves
if and only if some cut within two nodes is free.
-/

namespace QubitRouting

/-- The path can be cut behind its first `k` nodes, and the nodes on both sides of that cut are free. -/
def FreeCut (free : Qubit → Bool) (path : List Qubit) (k : Nat) : Prop :=
  CutsInside path k ∧
    ∃ a b, path[k - 1]? = some a ∧ path[k]? = some b ∧ free a = true ∧ free b = true

/-- The node `x` lies on the path at a position that is neither the first nor the last. -/
def OnInside (path : List Qubit) (x : Qubit) : Prop :=
  ∃ i, 1 ≤ i ∧ i + 1 < path.length ∧ path[i]? = some x

theorem exists_cons_cons {α : Type} : ∀ {l : List α}, 2 ≤ l.length → ∃ a b rest, l = a :: b :: rest
  | a :: b :: rest, _ => ⟨a, b, rest, rfl⟩

theorem exists_cons_cons_cons {α : Type} {l : List α} (h : 3 ≤ l.length) :
    ∃ a b c rest, l = a :: b :: c :: rest := by
  obtain ⟨a, b, rest, rfl⟩ := exists_cons_cons (Nat.le_of_succ_le h)
  obtain ⟨c, rest, rfl⟩ := List.exists_cons_of_length_pos (Nat.lt_of_add_lt_add_right (n := 2) h)
  exact ⟨a, b, c, rest, rfl⟩

/-- A node that is not free stands at no side of a free cut. -/
theorem FreeCut.ne {free : Qubit → Bool} {path : List Qubit} {k : Nat} {x : Qubit}
    (h : FreeCut free path k) (hx : free x = false) :
    path[k - 1]? ≠ some x ∧ path[k]? ≠ some x := by
  obtain ⟨-, a, b, ha, hb, hfa, hfb⟩ := h
  constructor
  · intro he
    obtain rfl := Option.some.inj (ha.symm.trans he)
    exact absurd hfa (by simp [hx])
  · intro he
    obtain rfl := Option.some.inj (hb.symm.trans he)
    exact absurd hfb (by simp [hx])

/-- A path with a node inside that is not free and with a free cut has at least four nodes: every cut of a
shorter one is next to that node. -/
theorem FreeCut.four_le_length {free : Qubit → Bool} {path : List Qubit} {k : Nat} {x : Qubit}
    (h : FreeCut free path k) (hx : free x = false) (hin : OnInside path x) : 4 ≤ path.length := by
  obtain ⟨i, hpos, hlt, hi⟩ := hin
  obtain ⟨hleft, hright⟩ := h.ne hx
  obtain ⟨hk, hk'⟩ := h.1
  have hik : i ≠ k := fun he => hright (he ▸ hi)
  have hik' : i ≠ k - 1 := fun he => hleft (he ▸ hi)
  omega

namespace Split

theorem length_nodes (s : Split) : s.nodes.length = s.cut + s.after.length := by
  unfold nodes cut
  rw [List.length_append, List.length_reverse]

/-- A cut inside the path leaves neither half empty. -/
theorem halves_ne_nil {s : Split} (h : CutsInside s.nodes s.cut) : s.before ≠ [] ∧ s.after ≠ [] := by
  obtain ⟨hpos, hlt⟩ := h
  rw [length_nodes] at hlt
  constructor
  · exact List.length_pos_iff.mp hpos
  · exact List.length_pos_iff.mp (by omega)

/-! ## The nodes next to the cut, by position -/

/-- Behind the cut comes the first node of the second half. -/
theorem getElem?_cut (s : Split) : s.nodes[s.cut]? = s.after.head? := by
  have hle : s.before.reverse.length ≤ s.cut := Nat.le_of_eq List.length_reverse
  unfold nodes
  rw [List.getElem?_append_right hle, List.length_reverse, List.head?_eq_getElem?]
  exact congrArg (s.after[·]?) (Nat.sub_self _)

/-- In front of the cut stands the node that the first half ends on. -/
theorem getElem?_cut_pred {s : Split} (h : s.before ≠ []) :
    s.nodes[s.cut - 1]? = s.before.head? := by
  have hpos : 0 < s.before.length := List.length_pos_iff.mpr h
  have hlt : s.cut - 1 < s.before.reverse.length := by
    rw [List.length_reverse]
    exact Nat.sub_one_lt (Nat.ne_of_gt hpos)
  unfold nodes
  rw [List.getElem?_append_left hlt, List.getElem?_reverse (List.length_reverse ▸ hlt),
    List.head?_eq_getElem?]
  refine congrArg (s.before[·]?) ?_
  unfold cut
  omega

/-- A split is told by its path and its cut. -/
theorem ext_cut {s t : Split} (hnodes : s.nodes = t.nodes) (hcut : s.cut = t.cut) : s = t := by
  have hlen : s.before.reverse.length = t.before.reverse.length := by
    rw [List.length_reverse, List.length_reverse]
    exact hcut
  obtain ⟨hbefore, hafter⟩ := List.append_inj hnodes hlen
  show Split.mk s.before s.after = Split.mk t.before t.after
  rw [List.reverse_inj.mp hbefore, hafter]

/-- The split of the path with the cut behind its first `k` nodes. -/
def behind (path : List Qubit) (k : Nat) : Split :=
  ⟨(path.take k).reverse, path.drop k⟩

theorem nodes_behind (path : List Qubit) (k : Nat) : (behind path k).nodes = path := by
  simp [behind, nodes]

theorem cut_behind {path : List Qubit} {k : Nat} (h : CutsInside path k) : (behind path k).cut = k := by
  obtain ⟨-, hk⟩ := h
  unfold behind cut
  rw [List.length_reverse, List.length_take]
  omega

/-! ## The four moves -/

/-- The second split cuts the same path behind its first `k` nodes, where the cut is free. -/
structure MovedTo (s t : Split) (free : Qubit → Bool) (k : Nat) : Prop where
  nodes : t.nodes = s.nodes
  cut : t.cut = k
  freeCut : FreeCut free s.nodes k

section Moves

variable {s t : Split} {free : Qubit → Bool}

theorem freeCut_cons_iff {a b : Qubit} {l r : List Qubit} :
    FreeCut free (nodes ⟨a :: l, b :: r⟩) (l.length + 1) ↔ free a = true ∧ free b = true := by
  have ha : (nodes ⟨a :: l, b :: r⟩)[l.length]? = some a :=
    getElem?_cut_pred (s := ⟨a :: l, b :: r⟩) (List.cons_ne_nil a l)
  have hb : (nodes ⟨a :: l, b :: r⟩)[l.length + 1]? = some b := getElem?_cut ⟨a :: l, b :: r⟩
  constructor
  · intro ⟨_, a', b', ha', hb', hfa, hfb⟩
    obtain rfl := Option.some.inj (ha.symm.trans ha')
    obtain rfl := Option.some.inj (hb.symm.trans hb')
    exact ⟨hfa, hfb⟩
  · intro ⟨hfa, hfb⟩
    have hcut : CutsInside (nodes ⟨a :: l, b :: r⟩) (l.length + 1) :=
      cutsInside (s := ⟨a :: l, b :: r⟩) (List.cons_ne_nil a l) (List.cons_ne_nil b r)
    exact ⟨hcut, a, b, ha, hb, hfa, hfb⟩

/-- A move that puts `a` and `b` next to the cut is made if the cut is free there. -/
theorem ite_eq_some_iff {a b : Qubit} {l r : List Qubit} (hn : nodes ⟨a :: l, b :: r⟩ = s.nodes) :
    (if free a && free b then some (⟨a :: l, b :: r⟩ : Split) else none) = some t ↔
      s.MovedTo t free (l.length + 1) := by
  rw [Option.ite_none_right_eq_some, Bool.and_eq_true, ← freeCut_cons_iff (l := l) (r := r), hn,
    Option.some.injEq]
  constructor
  · rintro ⟨hfree, rfl⟩
    exact ⟨hn, rfl, hfree⟩
  · intro h
    exact ⟨h.freeCut, ext_cut (hn.trans h.nodes.symm) h.cut.symm⟩

theorem forward1?_eq_some_iff : s.forward1? free = some t ↔ s.MovedTo t free (s.cut + 1) := by
  unfold forward1?
  split
  next a b rest hafter => exact ite_eq_some_iff (by simp [nodes, hafter])
  next hshort =>
    refine ⟨fun h => by contradiction, fun h => ?_⟩
    obtain ⟨-, hk⟩ := h.freeCut.1
    rw [length_nodes] at hk
    obtain ⟨a, b, rest, hafter⟩ := exists_cons_cons (l := s.after) (by omega)
    exact (hshort a b rest hafter).elim

theorem forward2?_eq_some_iff : s.forward2? free = some t ↔ s.MovedTo t free (s.cut + 2) := by
  unfold forward2?
  split
  next a b c rest hafter => exact ite_eq_some_iff (by simp [nodes, hafter])
  next hshort =>
    refine ⟨fun h => by contradiction, fun h => ?_⟩
    obtain ⟨-, hk⟩ := h.freeCut.1
    rw [length_nodes] at hk
    obtain ⟨a, b, c, rest, hafter⟩ := exists_cons_cons_cons (l := s.after) (by omega)
    exact (hshort a b c rest hafter).elim

theorem backward1?_eq_some_iff : s.backward1? free = some t ↔ s.MovedTo t free (s.cut - 1) := by
  unfold backward1?
  split
  next a b rest hbefore =>
    have hcut : s.cut - 1 = rest.length + 1 := by simp [cut, hbefore]
    rw [hcut]
    exact ite_eq_some_iff (by simp [nodes, hbefore])
  next hshort =>
    refine ⟨fun h => by contradiction, fun h => ?_⟩
    obtain ⟨hk, -⟩ := h.freeCut.1
    obtain ⟨a, b, rest, hbefore⟩ := exists_cons_cons (l := s.before) (by unfold cut at hk; omega)
    exact (hshort a b rest hbefore).elim

theorem backward2?_eq_some_iff : s.backward2? free = some t ↔ s.MovedTo t free (s.cut - 2) := by
  unfold backward2?
  split
  next a b c rest hbefore =>
    have hcut : s.cut - 2 = rest.length + 1 := by simp [cut, hbefore]
    rw [hcut]
    exact ite_eq_some_iff (by simp [nodes, hbefore])
  next hshort =>
    refine ⟨fun h => by contradiction, fun h => ?_⟩
    obtain ⟨hk, -⟩ := h.freeCut.1
    obtain ⟨a, b, c, rest, hbefore⟩ := exists_cons_cons_cons (l := s.before) (by unfold cut at hk; omega)
    exact (hshort a b c rest hbefore).elim

end Moves

/-! ## Trying them -/

/-- The split after an attempt to move its cut. -/
def shifted (s : Split) (x : Qubit) (free : Qubit → Bool) : Split :=
  (s.shift? x free).getD s

/-- A free cut of the path that is at most two nodes away from the one of the split. -/
def FreeNearby (s : Split) (free : Qubit → Bool) (k : Nat) : Prop :=
  FreeCut free s.nodes k ∧ k ≤ s.cut + 2 ∧ s.cut ≤ k + 2

section Attempt

variable {s t : Split} {x : Qubit} {free : Qubit → Bool}

/-- A cut that has moved is free and at most two nodes away. -/
theorem movedTo_of_shift? (h : s.shift? x free = some t) :
    ∃ k, s.MovedTo t free k ∧ k ≤ s.cut + 2 ∧ s.cut ≤ k + 2 := by
  unfold shift? at h
  split at h
  next => contradiction
  next =>
    rw [Option.or_eq_some_iff, Option.or_eq_some_iff] at h
    rcases h with h | ⟨-, h | ⟨-, h⟩⟩
    · split at h
      next => exact ⟨_, forward1?_eq_some_iff.mp h, by omega, by omega⟩
      next => exact ⟨_, backward1?_eq_some_iff.mp h, by omega, by omega⟩
    · exact ⟨_, backward2?_eq_some_iff.mp h, by omega, by omega⟩
    · exact ⟨_, forward2?_eq_some_iff.mp h, by omega, by omega⟩

/-- A free cut within two nodes is none of those next to the bound node `x`, so one of the moves leads to
it. -/
theorem isSome_shift?_of_freeNearby (hx : OnInside s.nodes x) (hbound : s.boundAt x = true)
    (hfree : free x = false) {k : Nat} (h : s.FreeNearby free k) :
    (s.shift? x free).isSome = true := by
  obtain ⟨hcut, hle, hge⟩ := h
  obtain ⟨hleft, hright⟩ := hcut.ne hfree
  have hlen : ¬ s.before.length + s.after.length < 4 := by
    have hfour := hcut.four_le_length hfree hx
    rw [length_nodes] at hfour
    exact Nat.not_lt_of_le hfour
  have hmoved : s.MovedTo (behind s.nodes k) free k := ⟨nodes_behind _ _, cut_behind hcut.1, hcut⟩
  have hpos := hcut.1.1
  unfold shift?
  rw [if_neg hlen, Option.isSome_or, Option.isSome_or, Bool.or_eq_true, Bool.or_eq_true]
  simp only [Option.isSome_iff_exists]
  by_cases hhead : s.before.head? = some x
  · -- the first half ends on `x`, so the cut is not free where it is, nor one step towards the start
    have hne : s.before ≠ [] := by
      intro hnil
      simp [hnil] at hhead
    have hat : s.nodes[s.cut - 1]? = some x := (getElem?_cut_pred hne).trans hhead
    have hstay : k - 1 ≠ s.cut - 1 := fun he => hleft (he ▸ hat)
    have hback : k ≠ s.cut - 1 := fun he => hright (he ▸ hat)
    rw [if_pos (beq_iff_eq.mpr hhead)]
    obtain rfl | rfl | rfl : k = s.cut + 1 ∨ k = s.cut - 2 ∨ k = s.cut + 2 := by omega
    · exact .inl ⟨_, forward1?_eq_some_iff.mpr hmoved⟩
    · exact .inr (.inl ⟨_, backward2?_eq_some_iff.mpr hmoved⟩)
    · exact .inr (.inr ⟨_, forward2?_eq_some_iff.mpr hmoved⟩)
  · -- the second half starts on `x`, so the cut is not free where it is, nor one step towards the end
    have hat : s.nodes[s.cut]? = some x := by
      rw [getElem?_cut]
      exact (boundAt_iff.mp hbound).resolve_left hhead
    have hstay : k ≠ s.cut := fun he => hright (he ▸ hat)
    have hahead : k - 1 ≠ s.cut := fun he => hleft (he ▸ hat)
    rw [if_neg fun he => hhead (beq_iff_eq.mp he)]
    obtain rfl | rfl | rfl : k = s.cut - 1 ∨ k = s.cut - 2 ∨ k = s.cut + 2 := by omega
    · exact .inl ⟨_, backward1?_eq_some_iff.mpr hmoved⟩
    · exact .inr (.inl ⟨_, backward2?_eq_some_iff.mpr hmoved⟩)
    · exact .inr (.inr ⟨_, forward2?_eq_some_iff.mpr hmoved⟩)

/-- Take any split with a node on each side of the cut, bound at a node `x` inside the path that is not free.
Its cut moves if and only if some cut at most two nodes away is free, and then to such a place. The path is
the same afterwards, neither half is empty, and a cut that does not move leaves the split as it was. -/
theorem shifted_exact (hcut : CutsInside s.nodes s.cut) (hx : OnInside s.nodes x)
    (hbound : s.boundAt x = true) (hfree : free x = false) :
    ((s.shift? x free).isSome = true ↔ ∃ k, s.FreeNearby free k) ∧
      ((s.shift? x free).isSome = true → s.FreeNearby free (s.shifted x free).cut) ∧
      ((s.shift? x free).isSome = false → s.shifted x free = s) ∧
      (s.shifted x free).nodes = s.nodes ∧
      (s.shifted x free).before ≠ [] ∧ (s.shifted x free).after ≠ [] := by
  unfold shifted
  cases hshift : s.shift? x free with
  | none =>
    have hnone : ¬ ∃ k, s.FreeNearby free k := by
      intro ⟨k, hk⟩
      have hsome := isSome_shift?_of_freeNearby hx hbound hfree hk
      rw [hshift] at hsome
      contradiction
    exact ⟨by simpa using hnone, by simp, fun _ => rfl, rfl, halves_ne_nil hcut⟩
  | some t =>
    obtain ⟨k, hmoved, hle, hge⟩ := movedTo_of_shift? hshift
    obtain ⟨hbefore, hafter, -⟩ := shift?_spec hshift
    have hnear : s.FreeNearby free t.cut := by
      rw [hmoved.cut]
      exact ⟨hmoved.freeCut, hle, hge⟩
    exact ⟨iff_of_true rfl ⟨_, hnear⟩, fun _ => hnear, by simp, hmoved.nodes, hbefore, hafter⟩

end Attempt

/-- Six nodes in a row, cut in the middle. -/
def sixInRow : Split :=
  ⟨[2, 1, 0], [3, 4, 5]⟩

/-- All nodes are free but the two in the middle. -/
def freeButMiddle (y : Qubit) : Bool :=
  y != 2 && y != 3

/-- The cut cannot go past node 3, but two nodes back. -/
theorem sixInRow_shifted_exact :
    (CutsInside sixInRow.nodes sixInRow.cut ∧ OnInside sixInRow.nodes 2 ∧ sixInRow.boundAt 2 = true ∧
      freeButMiddle 2 = false) ∧
    sixInRow.shifted 2 freeButMiddle = ⟨[0], [1, 2, 3, 4, 5]⟩ ∧ sixInRow.FreeNearby freeButMiddle 1 := by
  have hcut : CutsInside sixInRow.nodes sixInRow.cut := ⟨by decide, by decide⟩
  have hx : OnInside sixInRow.nodes 2 := ⟨2, by decide⟩
  have hbound : sixInRow.boundAt 2 = true := by decide
  have hfree : freeButMiddle 2 = false := by decide
  have hshifted : sixInRow.shifted 2 freeButMiddle = ⟨[0], [1, 2, 3, 4, 5]⟩ := by decide
  obtain ⟨-, hnear, -⟩ := shifted_exact hcut hx hbound hfree
  rw [hshifted] at hnear
  exact ⟨⟨hcut, hx, hbound, hfree⟩, hshifted, hnear (by decide)⟩

end Split

end QubitRouting
