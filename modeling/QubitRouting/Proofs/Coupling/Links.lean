import QubitRouting.Proofs.Coupling.Connected
import Mathlib.Combinatorics.SimpleGraph.Connectivity.Connected

/-!
# Which lists of links are couplings

A list of links is a coupling if and only if there are qubits, every link joins two different ones in range (`IsLink`)
and the undirected graph of the links is connected. Otherwise the error says which of these fails first, and for
links which link it is (`CouplingError.Explains`).

Every link is stored as two arcs, and an arc is never stored twice: `mem_arcsOf_iff` and `nodup_arcsOf` are all that
there is to say about the stored arcs. Whatever a coupling can be asked for agrees with the list because of these two
(`Coupling.Represents`).
-/

namespace QubitRouting

open Relation (ReflTransGen)

/-- A link joins two different qubits out of `n`. -/
def IsLink (n : Nat) (e : Qubit × Qubit) : Prop :=
  e.1 < n ∧ e.2 < n ∧ e.1 ≠ e.2

instance (n : Nat) (e : Qubit × Qubit) : Decidable (IsLink n e) :=
  inferInstanceAs (Decidable (_ ∧ _))

/-- The link is in the list, in one direction or the other. -/
def Linked (links : List (Qubit × Qubit)) (a b : Qubit) : Prop :=
  (a, b) ∈ links ∨ (b, a) ∈ links

/-- The undirected graph of the links on the qubits `0, …, n - 1`. -/
def linkGraph (n : Nat) (links : List (Qubit × Qubit)) : SimpleGraph (Fin n) :=
  SimpleGraph.fromRel fun a b => (a.val, b.val) ∈ links

/-- The error says what is wrong with the list. If it is about a link, then this is the first one that is not a link
between different qubits in range. -/
def CouplingError.Explains (n : Nat) (links : List (Qubit × Qubit)) : CouplingError → Prop
  | .empty => n = 0
  | .qubitOutOfBounds a b => 0 < n ∧ ∃ done rest, links = done ++ (a, b) :: rest ∧
      (∀ e ∈ done, IsLink n e) ∧ (n ≤ a ∨ n ≤ b)
  | .selfLoop q => 0 < n ∧ ∃ done rest, links = done ++ (q, q) :: rest ∧
      (∀ e ∈ done, IsLink n e) ∧ q < n
  | .disconnected => 0 < n ∧ (∀ e ∈ links, IsLink n e) ∧ ¬ (linkGraph n links).Connected

theorem Linked.symm {links : List (Qubit × Qubit)} {a b : Qubit} (h : Linked links a b) : Linked links b a :=
  Or.symm h

theorem Linked.isLink {n : Nat} {links : List (Qubit × Qubit)} (hlinks : ∀ e ∈ links, IsLink n e) {a b : Qubit}
    (h : Linked links a b) : IsLink n (a, b) := by
  rcases h with h | h
  · exact hlinks (a, b) h
  · obtain ⟨hb, ha, hne⟩ := hlinks (b, a) h
    exact ⟨ha, hb, Ne.symm hne⟩

/-! ## The graph of the links -/

theorem linkGraph_adj_iff {n : Nat} {links : List (Qubit × Qubit)} (hlinks : ∀ e ∈ links, IsLink n e) {x y : Fin n} :
    (linkGraph n links).Adj x y ↔ Linked links x.val y.val := by
  unfold linkGraph
  rw [SimpleGraph.fromRel_adj]
  refine ⟨And.right, fun h => ⟨fun heq => ?_, h⟩⟩
  exact (h.isLink hlinks).2.2 (congrArg Fin.val heq)

/-- Links do not lead out of the range, so the bound on the vertices can be left out. -/
theorem reachable_linkGraph_iff {n : Nat} {links : List (Qubit × Qubit)} (hlinks : ∀ e ∈ links, IsLink n e)
    {a b : Qubit} (ha : a < n) (hb : b < n) :
    (linkGraph n links).Reachable ⟨a, ha⟩ ⟨b, hb⟩ ↔ ReflTransGen (Linked links) a b := by
  rw [SimpleGraph.reachable_iff_reflTransGen]
  constructor
  · intro h
    exact h.lift Fin.val fun _ _ hxy => (linkGraph_adj_iff hlinks).mp hxy
  · intro h
    induction h with
    | refl => exact .refl
    | @tail x y _ hxy ih =>
      have hx : x < n := (hxy.isLink hlinks).1
      exact (ih hx).tail ((linkGraph_adj_iff hlinks).mpr hxy)

/-- All qubits are connected if they are connected to the first one. -/
theorem connected_linkGraph_iff {n : Nat} {links : List (Qubit × Qubit)} (hpos : 0 < n)
    (hlinks : ∀ e ∈ links, IsLink n e) :
    (linkGraph n links).Connected ↔ ∀ b < n, ReflTransGen (Linked links) 0 b := by
  rw [SimpleGraph.connected_iff]
  constructor
  · intro ⟨hconn, _⟩ b hb
    exact (reachable_linkGraph_iff hlinks hpos hb).mp (hconn ⟨0, hpos⟩ ⟨b, hb⟩)
  · intro hzero
    have hreach : ∀ x : Fin n, (linkGraph n links).Reachable ⟨0, hpos⟩ x := fun x =>
      (reachable_linkGraph_iff hlinks hpos x.isLt).mpr (hzero x.val x.isLt)
    exact ⟨fun x y => (hreach x).symm.trans (hreach y), ⟨⟨0, hpos⟩⟩⟩

namespace Coupling

variable {n : Nat} {links : List (Qubit × Qubit)} {c : Coupling}

/-! ## The stored arcs -/

/-- Both directions of a link, unless they are there already. -/
def storeLink (arcs : List (Qubit × Qubit)) (e : Qubit × Qubit) : List (Qubit × Qubit) :=
  Graph.addArc (Graph.addArc arcs e.1 e.2) e.2 e.1

/-- The arcs that are stored for a list of links. -/
def arcsOf (links : List (Qubit × Qubit)) : List (Qubit × Qubit) :=
  links.foldl storeLink []

theorem nodup_arcsOf (links : List (Qubit × Qubit)) : (arcsOf links).Nodup := by
  unfold arcsOf
  induction links using List.reverseRecOn with
  | nil => exact List.nodup_nil
  | append_singleton links e ih =>
    rw [List.foldl_concat]
    exact Graph.nodup_addArc (Graph.nodup_addArc ih _ _) _ _

theorem mem_arcsOf_iff {a b : Qubit} : (a, b) ∈ arcsOf links ↔ Linked links a b := by
  unfold arcsOf
  induction links using List.reverseRecOn with
  | nil => simp [Linked]
  | append_singleton links e ih =>
    rw [List.foldl_concat]
    show (a, b) ∈ Graph.addArc (Graph.addArc _ e.1 e.2) e.2 e.1 ↔ _
    rw [Graph.mem_addArc_iff, Graph.mem_addArc_iff, ih]
    unfold Linked
    simp only [List.mem_append, List.mem_singleton, Prod.ext_iff]
    tauto

/-! ## What is built -/

theorem addLink_of_isLink {e : Qubit × Qubit} (h : IsLink n e) (arcs : List (Qubit × Qubit)) :
    addLink n arcs e = .ok (storeLink arcs e) := by
  obtain ⟨ha, hb, hne⟩ := h
  unfold addLink
  rw [if_neg fun hrange => hrange.elim (Nat.not_le.mpr ha) (Nat.not_le.mpr hb), if_neg hne]
  rfl

/-- A link is refused because it leads out of range or else because it is a loop. -/
theorem addLink_cases (n : Nat) (arcs : List (Qubit × Qubit)) (e : Qubit × Qubit) :
    IsLink n e ∨
    (n ≤ e.1 ∨ n ≤ e.2) ∧ addLink n arcs e = .error (.qubitOutOfBounds e.1 e.2) ∨
    e.1 < n ∧ e.1 = e.2 ∧ addLink n arcs e = .error (.selfLoop e.1) := by
  unfold addLink IsLink
  split
  next hrange => exact .inr (.inl ⟨hrange, rfl⟩)
  next hrange =>
    obtain ⟨ha, hb⟩ := not_or.mp hrange
    split
    next heq => exact .inr (.inr ⟨Nat.lt_of_not_le ha, heq, rfl⟩)
    next hne => exact .inl ⟨Nat.lt_of_not_le ha, Nat.lt_of_not_le hb, hne⟩

theorem foldlM_addLink (h : ∀ e ∈ links, IsLink n e) : links.foldlM (addLink n) [] = .ok (arcsOf links) := by
  obtain ⟨arcs, harcs, rfl⟩ : ∃ arcs, links.foldlM (addLink n) [] = .ok arcs ∧ arcs = arcsOf links := by
    refine foldlM_total (fun done arcs => arcs = arcsOf done) rfl ?_
    rintro done e rest arcs hlinks rfl
    refine ⟨_, addLink_of_isLink (h e (hlinks ▸ List.mem_append_right done List.mem_cons_self)) _, ?_⟩
    unfold arcsOf
    rw [List.foldl_concat]
  exact harcs

theorem isLink_of_foldlM {arcs : List (Qubit × Qubit)} (h : links.foldlM (addLink n) [] = .ok arcs) :
    ∀ e ∈ links, IsLink n e := by
  refine foldlM_invariant h (fun done _ => ∀ e ∈ done, IsLink n e) (fun _ he => absurd he List.not_mem_nil) ?_
  intro done e rest arcs arcs' _ hdone hadd
  refine List.forall_mem_append.mpr ⟨hdone, List.forall_mem_singleton.mpr ?_⟩
  rcases addLink_cases n arcs e with hlink | ⟨-, herror⟩ | ⟨-, -, herror⟩
  · exact hlink
  · rw [hadd] at herror
    contradiction
  · rw [hadd] at herror
    contradiction

/-- The first link that is refused decides. -/
theorem foldlM_addLink_of_error {done rest : List (Qubit × Qubit)} {e : Qubit × Qubit} {error : CouplingError}
    (hdone : ∀ e ∈ done, IsLink n e) (he : ∀ arcs, addLink n arcs e = .error error) :
    (done ++ e :: rest).foldlM (addLink n) [] = .error error := by
  rw [List.foldlM_append, foldlM_addLink hdone, ok_bind, List.foldlM_cons, he]
  rfl

theorem isConnected_arcsOf_iff (hpos : 0 < n) (hlinks : ∀ e ∈ links, IsLink n e) :
    isConnected ⟨n, arcsOf links⟩ = true ↔ (linkGraph n links).Connected := by
  have hlinked : ∀ a b, b ∈ adjacent ⟨n, arcsOf links⟩ a ↔ Linked links a b := fun a b => by
    rw [mem_adjacent_iff, coupled_iff, mem_arcsOf_iff]
  have hrel : (fun a b => b ∈ adjacent ⟨n, arcsOf links⟩ a) = Linked links := by
    funext a b
    exact propext (hlinked a b)
  rw [isConnected_iff hpos, connected_linkGraph_iff hpos hlinks, ← hrel]
  · intro a b hab
    obtain ⟨ha, hb, -⟩ := (mem_arcsOf_iff.mp (coupled_iff.mp hab)).isLink hlinks
    exact ⟨ha, hb⟩

theorem ofLinks_of_isLink (hpos : 0 < n) (hlinks : ∀ e ∈ links, IsLink n e) : ofLinks n links =
    if isConnected ⟨n, arcsOf links⟩ then .ok ⟨n, arcsOf links⟩ else .error .disconnected := by
  unfold ofLinks
  rw [if_neg (Nat.ne_of_gt hpos), foldlM_addLink hlinks]
  rfl

theorem ofLinks_eq_ok_iff : ofLinks n links = .ok c ↔
    0 < n ∧ (∀ e ∈ links, IsLink n e) ∧ (linkGraph n links).Connected ∧ ⟨n, arcsOf links⟩ = c := by
  constructor
  · intro h
    have hpos : 0 < n := numQubits_ofLinks h ▸ (ofLinks_connected h).pos
    have hlinks : ∀ e ∈ links, IsLink n e := by
      unfold ofLinks at h
      rw [if_neg (Nat.ne_of_gt hpos)] at h
      obtain ⟨arcs, hfold, -⟩ := bind_eq_ok_iff.mp h
      exact isLink_of_foldlM hfold
    rw [ofLinks_of_isLink hpos hlinks] at h
    split at h
    next hconn => exact ⟨hpos, hlinks, (isConnected_arcsOf_iff hpos hlinks).mp hconn, Except.ok.inj h⟩
    next => contradiction
  · rintro ⟨hpos, hlinks, hconn, rfl⟩
    rw [ofLinks_of_isLink hpos hlinks, if_pos ((isConnected_arcsOf_iff hpos hlinks).mpr hconn)]

/-- A list is refused with an error if and only if the error explains why. -/
theorem ofLinks_eq_error_iff {error : CouplingError} :
    ofLinks n links = .error error ↔ error.Explains n links := by
  constructor
  · intro h
    rcases Nat.eq_zero_or_pos n with rfl | hpos
    · obtain rfl : .empty = error := Except.error.inj h
      rfl
    by_cases hlinks : ∀ e ∈ links, IsLink n e
    · rw [ofLinks_of_isLink hpos hlinks] at h
      split at h
      next => contradiction
      next hconn =>
        obtain rfl := Except.error.inj h
        exact ⟨hpos, hlinks, mt (isConnected_arcsOf_iff hpos hlinks).mpr hconn⟩
    -- a wrong link stops the fold, so the error is not about connectedness
    · unfold ofLinks at h
      rw [if_neg (Nat.ne_of_gt hpos)] at h
      rcases bind_eq_error_iff.mp h with hfold | ⟨arcs, hfold, -⟩
      · obtain ⟨done, e, rest, arcs, hsplit, hdone, he⟩ := foldlM_eq_error hfold
        obtain ⟨a, b⟩ := e
        rcases addLink_cases n arcs (a, b) with hlink | ⟨hrange, herror⟩ | ⟨hlt, heq, herror⟩
        · rw [addLink_of_isLink hlink] at he
          contradiction
        · obtain rfl := Except.error.inj (he.symm.trans herror)
          exact ⟨hpos, done, rest, hsplit, isLink_of_foldlM hdone, hrange⟩
        · obtain rfl : a = b := heq
          obtain rfl := Except.error.inj (he.symm.trans herror)
          exact ⟨hpos, done, rest, hsplit, isLink_of_foldlM hdone, hlt⟩
      · exact absurd (isLink_of_foldlM hfold) hlinks
  · intro h
    cases error with
    | empty => exact if_pos h
    | qubitOutOfBounds a b =>
      obtain ⟨hpos, done, rest, rfl, hdone, hrange⟩ := h
      have hout : ∀ arcs, addLink n arcs (a, b) = .error (.qubitOutOfBounds a b) := fun _ => if_pos hrange
      unfold ofLinks
      rw [if_neg (Nat.ne_of_gt hpos), foldlM_addLink_of_error hdone hout]
      rfl
    | selfLoop q =>
      obtain ⟨hpos, done, rest, rfl, hdone, hlt⟩ := h
      have hloop : ∀ arcs, addLink n arcs (q, q) = .error (.selfLoop q) := fun arcs => by
        unfold addLink
        rw [if_neg fun h => Nat.not_le.mpr hlt (or_self_iff.mp h), if_pos rfl]
      unfold ofLinks
      rw [if_neg (Nat.ne_of_gt hpos), foldlM_addLink_of_error hdone hloop]
      rfl
    | disconnected =>
      obtain ⟨hpos, hlinks, hconn⟩ := h
      rw [ofLinks_of_isLink hpos hlinks, if_neg (mt (isConnected_arcsOf_iff hpos hlinks).mp hconn)]

/-! ## What a coupling can be asked for -/

/-- A coupling as the list of its links says. -/
structure Represents (c : Coupling) (n : Nat) (links : List (Qubit × Qubit)) : Prop where
  numQubits_eq : c.numQubits = n
  coupled_iff : ∀ a b, c.coupled a b = true ↔ Linked links a b
  coupled_out_of_range : ∀ a b, n ≤ a ∨ n ≤ b → c.coupled a b = false
  coupled_symm : ∀ a b, c.coupled a b = c.coupled b a
  coupled_irrefl : ∀ a, c.coupled a a = false
  neighbors_ascending : ∀ a, (c.neighbors a).Pairwise (· < ·)
  mem_neighbors_iff : ∀ a b, b ∈ c.neighbors a ↔ c.coupled a b = true
  /-- Every link is listed once, the lower qubit first. -/
  links_nodup : c.links.Nodup
  mem_links_iff : ∀ a b, (a, b) ∈ c.links ↔ a < b ∧ c.coupled a b = true
  /-- Every link is stored once in each direction. -/
  count_arcs : ∀ a b, c.coupled a b = true → c.arcs.count (a, b) = 1 ∧ c.arcs.count (b, a) = 1
  length_arcs : c.arcs.length = 2 * c.links.length

theorem nodup_adjacent (h : c.arcs.Nodup) (a : Qubit) : (c.adjacent a).Nodup := by
  unfold adjacent
  refine List.Nodup.map_on ?_ ((List.nodup_reverse.mpr h).filter _)
  intro e he e' he' heq
  have ha := beq_iff_eq.mp (List.mem_filter.mp he).2
  have ha' := beq_iff_eq.mp (List.mem_filter.mp he').2
  exact Prod.ext (ha.trans ha'.symm) heq

theorem neighbors_ascending (h : c.arcs.Nodup) (a : Qubit) : (c.neighbors a).Pairwise (· < ·) := by
  -- ascending from the sort, strictly so because no arc is stored twice
  have hsorted : (c.neighbors a).Pairwise fun x y => decide (x ≤ y) = true := by
    refine pairwise_sortBy (fun x y hxy => ?_) (fun x y z hxy hyz => ?_) _
    · exact decide_eq_true (Nat.le_of_not_le (of_decide_eq_false hxy))
    · exact decide_eq_true (Nat.le_trans (of_decide_eq_true hxy) (of_decide_eq_true hyz))
  have hnodup : (c.neighbors a).Nodup := (sortBy_perm _ _).nodup_iff.mpr (nodup_adjacent h a)
  refine (hsorted.and hnodup).imp fun hxy => ?_
  exact Nat.lt_of_le_of_ne (of_decide_eq_true hxy.1) hxy.2

theorem mem_links_iff {a b : Qubit} : (a, b) ∈ c.links ↔ a < b ∧ c.coupled a b = true := by
  unfold links
  rw [List.mem_filter, Coupling.coupled_iff, decide_eq_true_iff, and_comm]

/-- The arcs that lead down are the links, turned round. -/
theorem length_arcs (hnodup : c.arcs.Nodup) (hsymm : ∀ a b, c.coupled a b = true → c.coupled b a = true)
    (hirrefl : ∀ a, ¬ c.coupled a a = true) : c.arcs.length = 2 * c.links.length := by
  have hup : c.links.Nodup := hnodup.filter _
  have hperm : (c.arcs.filter fun e => !decide (e.1 < e.2)).Perm (c.links.map Prod.swap) := by
    refine (List.perm_ext_iff_of_nodup (hnodup.filter _) (hup.map Prod.swap_injective)).mpr ?_
    rintro ⟨a, b⟩
    have hswap : (a, b) ∈ c.links.map Prod.swap ↔ b < a ∧ c.coupled b a = true := by
      rw [← mem_links_iff]
      exact List.mem_map_of_injective Prod.swap_injective (a := (b, a))
    rw [hswap, List.mem_filter, ← Coupling.coupled_iff, Bool.not_eq_true', decide_eq_false_iff_not]
    constructor
    · rintro ⟨hab, hle⟩
      have hne : a ≠ b := fun heq => hirrefl a (heq ▸ hab)
      exact ⟨Nat.lt_of_le_of_ne (Nat.le_of_not_lt hle) (Ne.symm hne), hsymm a b hab⟩
    · rintro ⟨hlt, hba⟩
      exact ⟨hsymm b a hba, Nat.lt_asymm hlt⟩
  have hdown := hperm.length_eq
  rw [List.length_map] at hdown
  have hsplit := List.length_eq_length_filter_add (l := c.arcs) fun e => decide (e.1 < e.2)
  have hlinks : c.links = c.arcs.filter fun e => decide (e.1 < e.2) := rfl
  rw [← hlinks, hdown] at hsplit
  omega

theorem ofLinks_represents (h : ofLinks n links = .ok c) : c.Represents n links := by
  have hconn := ofLinks_connected h
  obtain ⟨-, hlinks, -, rfl⟩ := ofLinks_eq_ok_iff.mp h
  have hnodup := nodup_arcsOf links
  have hcoupled : ∀ a b, coupled ⟨n, arcsOf links⟩ a b = true ↔ Linked links a b := fun a b => by
    rw [Coupling.coupled_iff, mem_arcsOf_iff]
  refine ⟨rfl, hcoupled, fun a b hrange => ?_, fun a b => ?_, fun a => ?_, neighbors_ascending hnodup,
    fun a b => Coupling.mem_neighbors_iff, hnodup.filter _, fun a b => mem_links_iff, fun a b hab => ?_,
    length_arcs hnodup (fun a b => hconn.symm) hconn.irrefl⟩
  · rw [Bool.eq_false_iff]
    intro hab
    obtain ⟨ha, hb⟩ : a < n ∧ b < n := hconn.lt hab
    omega
  · rw [Bool.eq_iff_iff]
    exact ⟨hconn.symm, hconn.symm⟩
  · exact Bool.eq_false_iff.mpr (hconn.irrefl a)
  · exact ⟨List.count_eq_one_of_mem hnodup (Coupling.coupled_iff.mp hab),
      List.count_eq_one_of_mem hnodup (Coupling.coupled_iff.mp (hconn.symm hab))⟩

/-- A list of links is accepted if and only if it is that of a connected graph without loops on a positive number of
qubits, and what the coupling answers agrees with the list. Otherwise the error says why, and a link is reported if it
is the first wrong one. -/
theorem ofLinks_exact (n : Nat) (links : List (Qubit × Qubit)) :
    ((∃ c, ofLinks n links = .ok c) ↔
      0 < n ∧ (∀ e ∈ links, IsLink n e) ∧ (linkGraph n links).Connected) ∧
    (∀ error, ofLinks n links = .error error ↔ error.Explains n links) ∧
    ∀ c, ofLinks n links = .ok c → c.Represents n links := by
  refine ⟨?_, fun error => ofLinks_eq_error_iff, fun c => ofLinks_represents⟩
  simp only [ofLinks_eq_ok_iff]
  constructor
  · rintro ⟨c, hpos, hlinks, hconn, -⟩
    exact ⟨hpos, hlinks, hconn⟩
  · rintro ⟨hpos, hlinks, hconn⟩
    exact ⟨_, hpos, hlinks, hconn, rfl⟩

/-- A link that is listed three times, in both directions, is one link. A loop is reported before a link that leads out
of range and comes later, and both before the qubit that has no link at all. -/
theorem ofLinks_exact_three : (∃ c, ofLinks 3 [(0, 1), (1, 0), (1, 2), (0, 1)] = .ok c ∧
      c.Represents 3 [(0, 1), (1, 0), (1, 2), (0, 1)] ∧ c.links = [(0, 1), (1, 2)] ∧
      c.arcs.length = 4 ∧ c.neighbors 1 = [0, 2] ∧ c.coupled 2 7 = false) ∧
    ofLinks 3 [(0, 1), (1, 1), (2, 5)] = .error (.selfLoop 1) ∧
    ofLinks 3 [(0, 1)] = .error .disconnected ∧ ¬ (linkGraph 3 [(0, 1)]).Connected := by
  have hbuilt : ofLinks 3 [(0, 1), (1, 0), (1, 2), (0, 1)] = .ok ⟨3, [(0, 1), (1, 0), (1, 2), (2, 1)]⟩ := by
    decide +kernel
  have hrepresents := (ofLinks_exact 3 [(0, 1), (1, 0), (1, 2), (0, 1)]).2.2 _ hbuilt
  have hdisconnected : ofLinks 3 [(0, 1)] = .error .disconnected := by decide +kernel
  obtain ⟨-, -, hnot⟩ := ((ofLinks_exact 3 [(0, 1)]).2.1 .disconnected).mp hdisconnected
  exact ⟨⟨_, hbuilt, hrepresents, rfl, rfl, rfl, hrepresents.coupled_out_of_range 2 7 (by decide)⟩,
    ((ofLinks_exact 3 _).2.1 (.selfLoop 1)).mpr ⟨by decide, [(0, 1)], [(2, 5)], rfl, by decide, by decide⟩,
    hdisconnected, hnot⟩

end Coupling

end QubitRouting
