import QubitRouting.Proofs.Coupling.Links
import QubitRouting.Proofs.Coupling.Metric
import Mathlib.Algebra.Order.BigOperators.Group.List
import Mathlib.Data.Nat.Dist

/-!
# Distances on chains, rings and lattices

For the couplings that are built by shape the distances are known in closed form. A closed form `f` is right if it
*gauges* the links: it is zero between a qubit and itself, a link changes it by at most one, and from any other qubit
some link leads one closer (`Gauges`). Then walks that go closer with every link are as short as `f` says, and no walk
is shorter, since `f` goes up by at most one with every link (`Gauges.isDistance`). Such walks also connect all qubits
to the first one, so the links are accepted (`Coupling.hasDistances_of_gauges`).

What is left for each shape is to gauge its links. On a ring the closed form looks both ways round. The rows and the
columns of a lattice are chains, and their distances add up.
-/

namespace QubitRouting

open Relation (ReflTransGen)

/-- A candidate for the distances: a link changes it by at most one, and some link leads one closer. -/
structure Gauges (n : Nat) (links : List (Qubit × Qubit)) (f : Nat → Nat → Nat) : Prop where
  isLink : ∀ e ∈ links, IsLink n e
  self : ∀ a, f a a = 0
  step : ∀ a < n, ∀ x y, (x, y) ∈ links → f a x ≤ f a y + 1 ∧ f a y ≤ f a x + 1
  closer : ∀ a < n, ∀ b < n, a ≠ b → ∃ x < n, Linked links x b ∧ f a b = f a x + 1

namespace Gauges

variable {n : Nat} {links : List (Qubit × Qubit)} {f : Nat → Nat → Nat} {c : Coupling}

/-- What holds at `a` and is passed on by links holds everywhere, with as many links as the closed form says. -/
theorem closing_in (h : Gauges n links f) {a : Nat} (ha : a < n) {P : Nat → Nat → Prop} (hself : P a 0)
    (hlink : ∀ x b k, Linked links x b → P x k → P b (k + 1)) (b : Nat) (hb : b < n) : P b (f a b) := by
  by_cases hab : a = b
  · rw [← hab, h.self]
    exact hself
  · obtain ⟨x, hx, hlinked, hcloser⟩ := h.closer a ha b hb hab
    rw [hcloser]
    exact hlink x b _ hlinked (h.closing_in ha hself hlink x hx)
termination_by f a b
decreasing_by omega

theorem reaches (h : Gauges n links f) {a b : Nat} (ha : a < n) (hb : b < n) : ReflTransGen (Linked links) a b :=
  h.closing_in (P := fun b _ => ReflTransGen (Linked links) a b) ha .refl (fun _ _ _ hlinked hx => hx.tail hlinked) b hb

theorem exists_walk (h : Gauges n links f) (hc : c.Represents n links) {a b : Nat} (ha : a < n) (hb : b < n) :
    ∃ q, c.IsWalk a b q ∧ q.length = f a b + 1 := by
  refine h.closing_in (P := fun b k => ∃ q, c.IsWalk a b q ∧ q.length = k + 1) ha ?_ ?_ b hb
  · exact ⟨[a], Coupling.isWalk_singleton c a, rfl⟩
  · rintro x b k hlinked ⟨q, hq, hlen⟩
    have hpair := Coupling.isWalk_pair ((hc.coupled_iff x b).mpr hlinked)
    exact ⟨q ++ [b], hq.append hpair, by rw [List.length_append, hlen]; rfl⟩

/-- The closed form goes up by at most one with every link of a walk. -/
theorem le_length (h : Gauges n links f) (hc : c.Represents n links) {a : Nat} (ha : a < n) {q : List Qubit} :
    ∀ {b : Nat}, c.IsWalk a b q → f a b + 1 ≤ q.length := by
  induction q using List.reverseRecOn with
  | nil =>
    intro b hq
    exact absurd rfl hq.ne_nil
  | append_singleton rest y ih =>
    intro b hq
    obtain rfl : y = b := by
      have hlast := hq.last
      rw [List.getLast?_concat] at hlast
      exact Option.some.inj hlast
    rw [List.length_append, List.length_singleton]
    cases hrest : rest.getLast? with
    | none =>
      rw [List.getLast?_eq_none_iff] at hrest
      obtain rfl : y = a := by
        have hhead := hq.head
        rw [hrest] at hhead
        exact Option.some.inj hhead
      rw [h.self]
      omega
    | some x =>
      obtain ⟨before, rfl⟩ := List.getLast?_eq_some_iff.mp hrest
      have hchain := List.isChain_append.mp hq.chain
      have hwalk : c.IsWalk a x (before ++ [x]) := by
        have hhead := hq.head
        rw [List.head?_append_of_ne_nil _ (by simp)] at hhead
        exact ⟨hhead, hrest, hchain.1⟩
      have hle := ih hwalk
      have hlinked := (hc.coupled_iff x y).mp (hchain.2.2 x hrest y rfl)
      have hstep : f a y ≤ f a x + 1 := by
        rcases hlinked with hmem | hmem
        · exact (h.step a ha _ _ hmem).2
        · exact (h.step a ha _ _ hmem).1
      omega

theorem isDistance (h : Gauges n links f) (hc : c.Represents n links) {a b : Nat} (ha : a < n) (hb : b < n) :
    c.IsDistance a b (f a b) where
  attained := h.exists_walk hc ha hb
  least := fun _ => h.le_length hc ha

end Gauges

namespace Coupling

theorem length_arcsOf_le (links : List (Qubit × Qubit)) : (arcsOf links).length ≤ 2 * links.length := by
  unfold arcsOf
  induction links using List.reverseRecOn with
  | nil => exact Nat.le_refl 0
  | append_singleton links e ih =>
    rw [List.foldl_concat, List.length_append, List.length_singleton]
    have hfirst := Graph.length_addArc_le (links.foldl storeLink []) e.1 e.2
    have hsecond : (storeLink (links.foldl storeLink []) e).length ≤ _ := Graph.length_addArc_le _ e.2 e.1
    omega

/-- The distances of `n` qubits are those of a closed form. There are fewer than `4 * n` arcs, so on up to `2 ^ 30`
qubits every qubit and every arc has a number below `2 ^ 32`. -/
structure HasDistances (c : Coupling) (n : Nat) (f : Nat → Nat → Nat) : Prop where
  numQubits_eq : c.numQubits = n
  lt_of_mem_arcs : ∀ e ∈ c.arcs, e.1 < n ∧ e.2 < n
  length_arcs_lt : c.arcs.length < 4 * n
  distance?_eq : ∀ a < n, ∀ b < n, c.distance? a b = some (f a b)

/-- Links that are gauged are accepted, and the closed form is right. -/
theorem hasDistances_of_gauges {n : Nat} {links : List (Qubit × Qubit)} {f : Nat → Nat → Nat} (hpos : 0 < n)
    (hlength : links.length < 2 * n) (h : Gauges n links f) :
    ∃ c, ofLinks n links = .ok c ∧ c.HasDistances n f := by
  have hconnected : (linkGraph n links).Connected :=
    (connected_linkGraph_iff hpos h.isLink).mpr fun b hb => h.reaches hpos hb
  have hok : ofLinks n links = .ok ⟨n, arcsOf links⟩ := ofLinks_eq_ok_iff.mpr ⟨hpos, h.isLink, hconnected, rfl⟩
  refine ⟨_, hok, rfl, fun e he => ?_, ?_, fun a ha b hb => ?_⟩
  · exact (ofLinks_connected hok).lt (coupled_iff.mpr he)
  · have hle := length_arcsOf_le links
    show (arcsOf links).length < 4 * n
    omega
  · obtain ⟨d, hd, hdist⟩ := (ofLinks_connected hok).distance?_eq ha hb
    rw [hd, hdist.unique (h.isDistance (ofLinks_represents hok) ha hb)]

/-- A link that leads up is in range if its end is. -/
theorem isLink_of_lt {n x y : Nat} (hup : x < y) (hlt : y < n) : IsLink n (x, y) :=
  ⟨Nat.lt_trans hup hlt, hlt, Nat.ne_of_lt hup⟩

/-! ## Chains -/

theorem mem_chainLinks_iff {n x y : Nat} : (x, y) ∈ chainLinks n ↔ y = x + 1 ∧ y < n := by
  unfold chainLinks
  rw [List.mem_map]
  constructor
  · rintro ⟨q, hq, heq⟩
    obtain ⟨rfl, rfl⟩ := Prod.mk.inj heq
    have hlt := List.mem_range.mp hq
    exact ⟨rfl, by omega⟩
  · rintro ⟨rfl, hlt⟩
    exact ⟨x, List.mem_range.mpr (by omega), rfl⟩

theorem length_chainLinks (n : Nat) : (chainLinks n).length = n - 1 := by
  unfold chainLinks
  rw [List.length_map, List.length_range]

theorem gauges_chain (n : Nat) : Gauges n (chainLinks n) Nat.dist where
  isLink := by
    rintro ⟨x, y⟩ hlink
    obtain ⟨hsucc, hlt⟩ := mem_chainLinks_iff.mp hlink
    exact isLink_of_lt (by omega) hlt
  self := Nat.dist_self
  step := by
    intro a _ x y hlink
    obtain ⟨rfl, -⟩ := mem_chainLinks_iff.mp hlink
    unfold Nat.dist
    omega
  closer := by
    intro a ha b hb hab
    unfold Nat.dist
    rcases Nat.lt_or_gt_of_ne hab with hlt | hgt
    · exact ⟨b - 1, by omega, .inl (mem_chainLinks_iff.mpr ⟨by omega, hb⟩), by omega⟩
    · exact ⟨b + 1, by omega, .inr (mem_chainLinks_iff.mpr ⟨rfl, by omega⟩), by omega⟩

/-! ## Rings -/

/-- The links of a ring: those of a chain, and one from the last qubit to the first if there are three or more. -/
theorem mem_ringLinks_iff {n x y : Nat} :
    (x, y) ∈ (chainLinks n ++ if 2 < n then [(n - 1, 0)] else []) ↔
      (x, y) ∈ chainLinks n ∨ 2 < n ∧ x = n - 1 ∧ y = 0 := by
  rw [List.mem_append]
  refine or_congr Iff.rfl ?_
  split
  next hn => simp [hn]
  next hn => simp [hn]

theorem gauges_ring (n : Nat) : Gauges n (chainLinks n ++ if 2 < n then [(n - 1, 0)] else [])
    fun a b => min (Nat.dist a b) (n - Nat.dist a b) where
  isLink := by
    rintro ⟨x, y⟩ hlink
    rcases mem_ringLinks_iff.mp hlink with hchain | ⟨hn, rfl, rfl⟩
    · exact (gauges_chain n).isLink _ hchain
    · exact ⟨Nat.sub_one_lt_of_lt hn, Nat.zero_lt_of_lt hn, Nat.sub_ne_zero_of_lt (by omega)⟩
  self := by
    intro a
    rw [Nat.dist_self]
    exact Nat.zero_min _
  step := by
    intro a ha x y hlink
    rcases mem_ringLinks_iff.mp hlink with hchain | ⟨hn, rfl, rfl⟩
    · have hstep := (gauges_chain n).step a ha x y hchain
      omega
    · rw [Nat.dist_zero_right, Nat.dist_eq_sub_of_le (Nat.le_sub_one_of_lt ha)]
      omega
  closer := by
    intro a ha b hb hab
    have hup : ∀ x, x + 1 < n → (x, x + 1) ∈ (chainLinks n ++ if 2 < n then [(n - 1, 0)] else []) := fun x hx =>
      mem_ringLinks_iff.mpr (.inl (mem_chainLinks_iff.mpr ⟨rfl, hx⟩))
    have hclose : 2 < n → (n - 1, 0) ∈ (chainLinks n ++ if 2 < n then [(n - 1, 0)] else []) := fun hn =>
      mem_ringLinks_iff.mpr (.inr ⟨hn, rfl, rfl⟩)
    -- which way round is shorter, and whether it starts with the link that closes the ring
    rcases Nat.lt_or_gt_of_ne hab with hlt | hgt
    · rw [Nat.dist_eq_sub_of_le (Nat.le_of_lt hlt)]
      by_cases hnear : b - a ≤ n - (b - a)
      · obtain ⟨x, rfl⟩ := Nat.exists_eq_add_one_of_ne_zero (Nat.ne_zero_of_lt hlt)
        refine ⟨x, Nat.lt_of_succ_lt hb, .inl (hup x hb), ?_⟩
        rw [Nat.dist_eq_sub_of_le (Nat.le_of_lt_succ hlt)]
        omega
      by_cases hlast : b + 1 = n
      · obtain rfl : b = n - 1 := by omega
        refine ⟨0, Nat.zero_lt_of_lt hb, .inr (hclose (by omega)), ?_⟩
        rw [Nat.dist_zero_right]
        omega
      · refine ⟨b + 1, by omega, .inr (hup b (by omega)), ?_⟩
        rw [Nat.dist_eq_sub_of_le (Nat.le_succ_of_le (Nat.le_of_lt hlt))]
        omega
    · rw [Nat.dist_eq_sub_of_le_right (Nat.le_of_lt hgt)]
      by_cases hnear : a - b ≤ n - (a - b)
      · refine ⟨b + 1, by omega, .inr (hup b (by omega)), ?_⟩
        rw [Nat.dist_eq_sub_of_le_right hgt]
        omega
      rcases b with - | x
      · refine ⟨n - 1, Nat.sub_one_lt_of_lt ha, .inl (hclose (by omega)), ?_⟩
        rw [Nat.dist_eq_sub_of_le (Nat.le_sub_one_of_lt ha)]
        omega
      · refine ⟨x, Nat.lt_of_succ_lt hb, .inl (hup x hb), ?_⟩
        rw [Nat.dist_eq_sub_of_le_right (by omega)]
        omega

/-! ## Lattices -/

/-- The links of a lattice, cell by cell. -/
def latticeLinks (rows cols : Nat) : List (Qubit × Qubit) :=
  (List.range rows).flatMap fun row => (List.range cols).flatMap fun col => cellLinks rows cols row col

/-- A link leads from a cell to the next one of its row or of its column. -/
theorem mem_latticeLinks_iff {rows cols x y : Nat} : (x, y) ∈ latticeLinks rows cols ↔
    ∃ row < rows, ∃ col < cols, x = col + cols * row ∧
      (col + 1 < cols ∧ y = col + 1 + cols * row ∨ row + 1 < rows ∧ y = col + cols * (row + 1)) := by
  unfold latticeLinks
  simp only [List.mem_flatMap, List.mem_range]
  refine exists_congr fun row => and_congr_right fun _ => exists_congr fun col => and_congr_right fun _ => ?_
  unfold cellLinks
  have hright : col + cols * row + 1 = col + 1 + cols * row := Nat.add_right_comm _ _ _
  have hbelow : col + cols * row + cols = col + cols * (row + 1) := by rw [Nat.mul_succ, Nat.add_assoc]
  dsimp only
  rw [List.mem_append, hright, hbelow]
  split <;> split <;> simp [*, and_or_left]

/-- Cells of one row are linked as their columns are. -/
theorem linked_of_columns {rows cols row x y : Nat} (hrow : row < rows) (h : Linked (chainLinks cols) x y) :
    Linked (latticeLinks rows cols) (x + cols * row) (y + cols * row) := by
  have hright : ∀ {col col'}, (col, col') ∈ chainLinks cols →
      (col + cols * row, col' + cols * row) ∈ latticeLinks rows cols := by
    intro col col' hlink
    obtain ⟨rfl, hlt⟩ := mem_chainLinks_iff.mp hlink
    exact mem_latticeLinks_iff.mpr ⟨row, hrow, col, Nat.lt_of_succ_lt hlt, rfl, .inl ⟨hlt, rfl⟩⟩
  exact h.imp hright hright

/-- Cells of one column are linked as their rows are. -/
theorem linked_of_rows {rows cols col x y : Nat} (hcol : col < cols) (h : Linked (chainLinks rows) x y) :
    Linked (latticeLinks rows cols) (col + cols * x) (col + cols * y) := by
  have hbelow : ∀ {row row'}, (row, row') ∈ chainLinks rows →
      (col + cols * row, col + cols * row') ∈ latticeLinks rows cols := by
    intro row row' hlink
    obtain ⟨rfl, hlt⟩ := mem_chainLinks_iff.mp hlink
    exact mem_latticeLinks_iff.mpr ⟨row, Nat.lt_of_succ_lt hlt, col, hcol, rfl, .inr ⟨hlt, rfl⟩⟩
  exact h.imp hbelow hbelow

theorem cell_lt {rows cols row col : Nat} (hrow : row < rows) (hcol : col < cols) :
    col + cols * row < rows * cols := by
  calc col + cols * row < cols + cols * row := Nat.add_lt_add_right hcol _
    _ = cols * (row + 1) := by rw [Nat.mul_succ, Nat.add_comm]
    _ ≤ cols * rows := Nat.mul_le_mul_left cols hrow
    _ = rows * cols := Nat.mul_comm _ _

theorem cell_div {cols row col : Nat} (hcol : col < cols) : (col + cols * row) / cols = row := by
  rw [Nat.add_mul_div_left _ _ (Nat.zero_lt_of_lt hcol), Nat.div_eq_of_lt hcol, Nat.zero_add]

theorem cell_mod {cols row col : Nat} (hcol : col < cols) : (col + cols * row) % cols = col := by
  rw [Nat.add_mul_mod_self_left, Nat.mod_eq_of_lt hcol]

theorem exists_cell {rows cols a : Nat} (ha : a < rows * cols) :
    ∃ row < rows, ∃ col < cols, a = col + cols * row := by
  have hpos : 0 < cols := Nat.pos_of_mul_pos_left (Nat.zero_lt_of_lt ha)
  exact ⟨a / cols, (Nat.div_lt_iff_lt_mul hpos).mpr ha, a % cols, Nat.mod_lt a hpos, (Nat.mod_add_div a cols).symm⟩

theorem gauges_lattice (rows cols : Nat) : Gauges (rows * cols) (latticeLinks rows cols)
    fun a b => Nat.dist (a / cols) (b / cols) + Nat.dist (a % cols) (b % cols) where
  isLink := by
    rintro ⟨x, y⟩ hlink
    obtain ⟨row, hrow, col, hcol, rfl, ⟨hnext, rfl⟩ | ⟨hnext, rfl⟩⟩ := mem_latticeLinks_iff.mp hlink
    · exact isLink_of_lt (by omega) (cell_lt hrow hnext)
    · exact isLink_of_lt (by rw [Nat.mul_succ]; omega) (cell_lt hnext hcol)
  self := by
    intro a
    rw [Nat.dist_self, Nat.dist_self]
  step := by
    intro a ha x y hlink
    obtain ⟨row, hrow, col, hcol, rfl, ⟨hnext, rfl⟩ | ⟨hnext, rfl⟩⟩ := mem_latticeLinks_iff.mp hlink
    · have hstep := (gauges_chain cols).step (a % cols) (Nat.mod_lt a (Nat.zero_lt_of_lt hcol)) col (col + 1)
        (mem_chainLinks_iff.mpr ⟨rfl, hnext⟩)
      rw [cell_div hcol, cell_mod hcol, cell_div hnext, cell_mod hnext]
      omega
    · have hstep := (gauges_chain rows).step (a / cols) (Nat.div_lt_of_lt_mul (Nat.mul_comm .. ▸ ha)) row (row + 1)
        (mem_chainLinks_iff.mpr ⟨rfl, hnext⟩)
      rw [cell_div hcol, cell_mod hcol, cell_div hcol, cell_mod hcol]
      omega
  closer := by
    intro a ha b hb hab
    obtain ⟨row, hrow, col, hcol, rfl⟩ := exists_cell ha
    obtain ⟨row', hrow', col', hcol', rfl⟩ := exists_cell hb
    simp only [cell_div hcol, cell_mod hcol, cell_div hcol', cell_mod hcol']
    -- the rows are brought together first, then the columns
    by_cases hrows : row = row'
    · have hcols : col ≠ col' := fun hcols => hab (by rw [hrows, hcols])
      obtain ⟨next, hnext, hlinked, hcloser⟩ := (gauges_chain cols).closer col hcol col' hcol' hcols
      refine ⟨next + cols * row', cell_lt hrow' hnext, linked_of_columns hrow' hlinked, ?_⟩
      rw [cell_div hnext, cell_mod hnext, hcloser, Nat.add_assoc]
    · obtain ⟨next, hnext, hlinked, hcloser⟩ := (gauges_chain rows).closer row hrow row' hrow' hrows
      refine ⟨col' + cols * next, cell_lt hnext hcol', linked_of_rows hcol' hlinked, ?_⟩
      rw [cell_div hcol', cell_mod hcol', hcloser, Nat.add_right_comm]

/-- A cell has at most two links to later ones, and the last cell of a row at most one. -/
theorem length_latticeLinks_lt {rows cols : Nat} (hrows : 0 < rows) (hcols : 0 < cols) :
    (latticeLinks rows cols).length < 2 * (rows * cols) := by
  have hcell : ∀ row col, (cellLinks rows cols row col).length ≤ 2 := by
    intro row col
    unfold cellLinks
    dsimp only
    split <;> split <;> simp
  have hrow : ∀ row, ((List.range cols).flatMap fun col => cellLinks rows cols row col).length ≤ 2 * cols - 1 := by
    intro row
    obtain ⟨last, rfl⟩ : ∃ last, cols = last + 1 := ⟨cols - 1, by omega⟩
    have hend : (cellLinks rows (last + 1) row last).length ≤ 1 := by
      unfold cellLinks
      dsimp only
      rw [if_neg (Nat.lt_irrefl _)]
      split <;> simp
    have hbefore := List.sum_le_card_nsmul ((List.range last).map fun col =>
      (cellLinks rows (last + 1) row col).length) 2 (by
        intro k hk
        obtain ⟨col, -, rfl⟩ := List.mem_map.mp hk
        exact hcell row col)
    rw [List.length_map, List.length_range, smul_eq_mul] at hbefore
    rw [List.range_succ, List.flatMap_append, List.length_append, List.length_flatMap, List.flatMap_singleton]
    omega
  have hall := List.sum_le_card_nsmul ((List.range rows).map fun row =>
    ((List.range cols).flatMap fun col => cellLinks rows cols row col).length) (2 * cols - 1) (by
      intro k hk
      obtain ⟨row, -, rfl⟩ := List.mem_map.mp hk
      exact hrow row)
  rw [List.length_map, List.length_range, smul_eq_mul] at hall
  unfold latticeLinks
  rw [List.length_flatMap]
  calc _ ≤ rows * (2 * cols - 1) := hall
    _ < rows * (2 * cols) := Nat.mul_lt_mul_of_pos_left (by omega) hrows
    _ = 2 * (rows * cols) := Nat.mul_left_comm _ _ _

/-! ## The three shapes -/

/-- Chains, rings and lattices of any size are couplings. Two qubits of a chain are as far apart as their numbers; on a
ring the shorter way round counts; on a lattice the rows and the columns between them add up. -/
theorem lattices_have_distances :
    (∀ n, 1 ≤ n → ∃ c, line n = .ok c ∧ c.HasDistances n Nat.dist) ∧
    (∀ n, 1 ≤ n → ∃ c, ring n = .ok c ∧
      c.HasDistances n fun a b => min (Nat.dist a b) (n - Nat.dist a b)) ∧
    ∀ rows cols, 1 ≤ rows → 1 ≤ cols → ∃ c, grid rows cols = .ok c ∧
      c.HasDistances (rows * cols) fun a b =>
        Nat.dist (a / cols) (b / cols) + Nat.dist (a % cols) (b % cols) := by
  refine ⟨fun n hn => ?_, fun n hn => ?_, fun rows cols hrows hcols => ?_⟩
  · refine hasDistances_of_gauges hn ?_ (gauges_chain n)
    rw [length_chainLinks]
    omega
  · refine hasDistances_of_gauges hn ?_ (gauges_ring n)
    rw [List.length_append, length_chainLinks]
    split
    next => rw [List.length_singleton]; omega
    next => rw [List.length_nil]; omega
  · exact hasDistances_of_gauges (Nat.mul_pos hrows hcols) (length_latticeLinks_lt hrows hcols)
      (gauges_lattice rows cols)

/-- A ring of two qubits has one link. On a ring of six the way from qubit one to qubit five passes the link that closes
it, and a single row of a lattice is a chain. -/
theorem small_lattices_have_distances :
    (∃ c, ring 2 = .ok c ∧ c.arcs.length < 8 ∧ c.distance? 0 1 = some 1) ∧
    (∃ c, ring 6 = .ok c ∧ c.distance? 1 5 = some 2) ∧
    (∃ c, line 6 = .ok c ∧ c.distance? 1 5 = some 4) ∧
    (∃ c, grid 1 6 = .ok c ∧ c.distance? 1 5 = some 4) ∧
    ∃ c, grid 3 3 = .ok c ∧ c.numQubits = 9 ∧ c.distance? 2 6 = some 4 := by
  obtain ⟨hline, hring, hgrid⟩ := lattices_have_distances
  obtain ⟨c, hc, hdist⟩ := hring 2 (by omega)
  obtain ⟨c', hc', hdist'⟩ := hring 6 (by omega)
  obtain ⟨l, hl, hldist⟩ := hline 6 (by omega)
  obtain ⟨g, hg, hgdist⟩ := hgrid 1 6 (by omega) (by omega)
  obtain ⟨g', hg', hgdist'⟩ := hgrid 3 3 (by omega) (by omega)
  exact ⟨⟨c, hc, hdist.length_arcs_lt, hdist.distance?_eq 0 (by omega) 1 (by omega)⟩,
    ⟨c', hc', hdist'.distance?_eq 1 (by omega) 5 (by omega)⟩,
    ⟨l, hl, hldist.distance?_eq 1 (by omega) 5 (by omega)⟩,
    ⟨g, hg, hgdist.distance?_eq 1 (by omega) 5 (by omega)⟩,
    g', hg', hgdist'.numQubits_eq, hgdist'.distance?_eq 2 (by omega) 6 (by omega)⟩

end Coupling

end QubitRouting
