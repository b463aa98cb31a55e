import QubitRouting.Proofs.Registry.Coherent
import Mathlib.Order.Bounds.Basic

/-!
# Where rearranging puts the paths

Exchanges of slots only move paths about (`Plan.Rearranged`). This module says where they end up, in the two
places where sequencing makes several exchanges in a row.

* `Plan.reorder` fills the occupied slots, in ascending order, with the paths in the order that is asked for
  (`reorder_realizes`).
* `Plan.sequenceAfterPartners` takes a path that meets others at a node into the last of all their slots, and
  each of the others that stood behind it into the slot of the one before (`sequenceAfterPartners_places`).
  The list of the others is made once, and the exchanges move them while it is used. It is ascending, and an
  exchange with one of them leaves those further on in the list where they are.
-/

namespace QubitRouting

/-- The path in slot `i` passes through the node `x`. -/
def Registry.PassesThrough (r : Registry) (i : PathId) (x : Qubit) : Prop :=
  ∃ path, r.path? i = some path ∧ x ∈ path

/-- Two different paths through a node share it. -/
theorem Registry.shares_iff {r : Registry} {i j : PathId} {x : Qubit} :
    r.Shares i j x ↔ i ≠ j ∧ r.PassesThrough i x ∧ r.PassesThrough j x := by
  unfold Shares PassesThrough
  constructor
  · intro ⟨hij, p, q, hp, hq, hxp, hxq⟩
    exact ⟨hij, ⟨p, hp, hxp⟩, ⟨q, hq, hxq⟩⟩
  · intro ⟨hij, ⟨p, hp, hxp⟩, ⟨q, hq, hxq⟩⟩
    exact ⟨hij, p, q, hp, hq, hxp, hxq⟩

namespace Plan

/-- An empty slot has no split. -/
theorem Aligned.split?_eq_none {p : Plan} (h : p.Aligned) {i : PathId}
    (hi : p.registry.slot? i = none) : p.split? i = none := by
  cases hsp : p.split? i with
  | none => rfl
  | some sp =>
    obtain ⟨s, hs, -⟩ := h.slot_of_split hsp
    rw [hi] at hs
    contradiction

/-! ## Into a given order -/

/-- The path in the slot `old` is wanted in the slot `new`: `old` is at the same place in the wanted order as
`new` is among the occupied slots. -/
def WantedIn (p : Plan) (order : List PathId) (old new : PathId) : Prop :=
  ∃ k : Nat, order[k]? = some old ∧ p.registry.ids[k]? = some new

/-- The second plan holds the paths of the first one in the wanted order. -/
structure Reordered (p : Plan) (order : List PathId) (p' : Plan) : Prop where
  /-- A path has the same nodes in its new slot, and the same crossings in the same order, each with the
  partner named by the new slot of the partner. -/
  slot : ∀ old new, p.WantedIn order old new → ∃ s s', p.registry.slot? old = some s ∧
    p'.registry.slot? new = some s' ∧ s'.nodes = s.nodes ∧
    List.Forall₂ (fun c c' => p.WantedIn order c.path c'.path ∧ c'.overlap = c.overlap)
      s.crossings s'.crossings
  /-- The splits have moved with their paths. -/
  split : ∀ old new, p.WantedIn order old new →
    ∃ sp, p.split? old = some sp ∧ p'.split? new = some sp
  /-- Empty slots stay empty. -/
  empty : ∀ i, p.registry.slot? i = none → p'.registry.slot? i = none ∧ p'.split? i = none
  length_slots : p'.registry.slots.length = p.registry.slots.length
  length_splits : p'.splits.length = p.splits.length
  size : p'.registry.size = p.registry.size

/-- If `σ` lists the order along the occupied slots, a path is wanted where `σ` asks for it. -/
theorem wantedIn_iff {p : Plan} {order : List PathId} {σ : Equiv.Perm PathId}
    (h : p.registry.ids.map σ = order) {old new : PathId} :
    p.WantedIn order old new ↔ new ∈ p.registry.ids ∧ σ new = old := by
  subst h
  unfold WantedIn
  simp only [List.getElem?_map, Option.map_eq_some_iff]
  constructor
  · intro ⟨k, ⟨i, hi, hσ⟩, hnew⟩
    obtain rfl : i = new := Option.some.inj (hi.symm.trans hnew)
    exact ⟨List.mem_of_getElem? hi, hσ⟩
  · intro ⟨hnew, hσ⟩
    obtain ⟨k, hk⟩ := List.mem_iff_getElem?.mp hnew
    exact ⟨k, ⟨new, hk, hσ⟩, hk⟩

/-- A rearrangement along `σ` puts the paths into the order that `σ` lists. -/
theorem Rearranged.reordered {p p' : Plan} (hp : p.Sound) {σ : Equiv.Perm PathId}
    (hre : Rearranged p p' σ) {order : List PathId} (hmap : p.registry.ids.map σ = order) :
    p.Reordered order p' := by
  have hocc : ∀ {i}, i ∈ p.registry.ids → ∃ s, p.registry.slot? (σ i) = some s :=
    fun hi => (hre.registry.occupied _).mpr (Registry.mem_ids_iff.mp hi)
  refine ⟨fun old new hwanted => ?_, fun old new hwanted => ?_, fun i hi => ?_,
    hre.registry.length_slots, hre.length_splits, hre.registry.size⟩
  · obtain ⟨hnew, rfl⟩ := (wantedIn_iff hmap).mp hwanted
    obtain ⟨s, hs⟩ := hocc hnew
    refine ⟨s, s.relabel σ.symm, hs, by rw [hre.registry.slot?, hs]; rfl, rfl, ?_⟩
    unfold Slot.relabel
    rw [List.forall₂_map_right_iff, List.forall₂_same]
    intro c hc
    -- a partner is registered, so it is wanted somewhere too
    have hpartner := hp.valid.slot?_of_mem_crossings hs hc
    refine ⟨(wantedIn_iff hmap).mpr ⟨?_, σ.apply_symm_apply c.path⟩, rfl⟩
    rw [Registry.mem_ids_iff, ← hre.registry.occupied, σ.apply_symm_apply]
    exact hpartner
  · obtain ⟨hnew, rfl⟩ := (wantedIn_iff hmap).mp hwanted
    obtain ⟨s, hs⟩ := hocc hnew
    obtain ⟨sp, hsp, -⟩ := hp.aligned.split_of_slot hs
    exact ⟨sp, hsp, (hre.split? new).trans hsp⟩
  · have hempty : p.registry.slot? (σ i) = none := by
      rw [Option.eq_none_iff_forall_ne_some]
      intro s hs
      obtain ⟨t, ht⟩ := (hre.registry.occupied i).mp ⟨s, hs⟩
      rw [hi] at ht
      contradiction
    rw [hre.registry.slot?, hre.split?, hempty]
    exact ⟨rfl, hp.aligned.split?_eq_none hempty⟩

/-- Whatever order of the registered paths is asked for, reordering puts them into it. -/
theorem reorder_realizes {p : Plan} (hreach : p.registry.Reachable) (haligned : p.Aligned)
    {order : List PathId} (hperm : order.Perm p.registry.ids) :
    ∃ p', p.reorder order = .ok p' ∧ p.Reordered order p' := by
  have hp : p.Sound := ⟨hreach.valid, haligned⟩
  obtain ⟨p', σ, h, hre, hmap⟩ := reorder_total hp hperm
  exact ⟨p', h, hre.reordered hp hmap⟩

/-- A path that meets two others; they stand behind an empty slot. -/
def crossedAgain : Plan :=
  start (Registry.crossedOnce.insert [6, 2, 7])

theorem reachable_crossedAgain : crossedAgain.registry.Reachable := by
  have hadd : Registry.crossedOnce.add? [6, 2, 7] = some crossedAgain.registry := by decide
  exact .add Registry.reachable_crossedOnce hadd

/-- Each of the three paths goes to another slot, and the empty slot stays between them. -/
theorem crossedAgain_reordered : crossedAgain.registry.Reachable ∧ crossedAgain.Aligned ∧
    [3, 0, 2].Perm crossedAgain.registry.ids ∧
    ∃ p', crossedAgain.reorder [3, 0, 2] = .ok p' ∧ crossedAgain.Reordered [3, 0, 2] p' ∧
      p'.registry.slots = [some ⟨[6, 2, 7], [⟨2, [2]⟩]⟩, none,
        some ⟨[0, 1, 2, 3], [⟨3, [1]⟩, ⟨0, [2]⟩]⟩, some ⟨[4, 1, 5], [⟨2, [1]⟩]⟩] := by
  have haligned : crossedAgain.Aligned := (sound_start reachable_crossedAgain.valid).aligned
  have hperm : [3, 0, 2].Perm crossedAgain.registry.ids := by decide
  obtain ⟨p', h, hre⟩ := reorder_realizes reachable_crossedAgain haligned hperm
  refine ⟨reachable_crossedAgain, haligned, hperm, p', h, hre, ?_⟩
  have hslots : (crossedAgain.reorder [3, 0, 2]).map (·.registry.slots) =
      .ok [some ⟨[6, 2, 7], [⟨2, [2]⟩]⟩, none,
        some ⟨[0, 1, 2, 3], [⟨3, [1]⟩, ⟨0, [2]⟩]⟩, some ⟨[4, 1, 5], [⟨2, [1]⟩]⟩] := by decide
  rw [h] at hslots
  exact Except.ok.inj hslots

/-! ## Behind all partners -/

/-- Where the paths go when the one in the slot `current` moves behind the listed others. -/
structure PutsLast (place : Equiv.Perm PathId) (current : PathId) (others : List PathId) : Prop where
  /-- It takes the largest of all their slots. -/
  mem : place current ∈ current :: others
  le : ∀ i ∈ current :: others, i ≤ place current
  before : ∀ i ∈ others, place i < place current
  /-- The others stay in the same order among themselves. -/
  in_order : others.Pairwise fun i j => place i < place j
  fixed : ∀ i, i ∉ current :: others → place i = i

namespace PutsLast

variable {place : Equiv.Perm PathId} {current other : PathId} {rest : List PathId}

theorem nil (current : PathId) : PutsLast (Equiv.refl _) current [] where
  mem := List.mem_cons_self
  le := fun _ hi => Nat.le_of_eq (List.mem_singleton.mp hi)
  before := fun _ hi => absurd hi List.not_mem_nil
  in_order := .nil
  fixed := fun _ _ => rfl

/-- The listed slots go to listed slots, because all others are taken. -/
theorem mem_place (h : PutsLast place current rest) {i : PathId} (hi : i ∈ current :: rest) :
    place i ∈ current :: rest := by
  by_contra hout
  have hfix := place.injective (h.fixed _ hout)
  exact hout (by rwa [hfix])

/-- A slot in front of all the listed ones is not touched, and stays in front. -/
theorem of_lt (h : PutsLast place current rest) {i : PathId} (hlt : ∀ k ∈ current :: rest, i < k) :
    place i = i ∧ i < place current ∧ ∀ j ∈ rest, i < place j := by
  refine ⟨h.fixed i fun hi => Nat.lt_irrefl i (hlt i hi), hlt _ h.mem, fun j hj => ?_⟩
  exact hlt _ (h.mem_place (List.mem_cons_of_mem current hj))

/-- A path in front of the one that moves stays where it is. -/
theorem skip (h : PutsLast place current rest) (hlt : ∀ i ∈ current :: rest, other < i) :
    PutsLast place current (other :: rest) := by
  obtain ⟨hstay, hlast, hrest⟩ := h.of_lt hlt
  have hperm : (current :: other :: rest).Perm (other :: current :: rest) := .swap _ _ _
  refine ⟨?_, ?_, ?_, ?_, fun i hi => h.fixed i fun hm => ?_⟩
  · exact hperm.mem_iff.mpr (List.mem_cons_of_mem other h.mem)
  · intro i hi
    rcases List.mem_cons.mp (hperm.mem_iff.mp hi) with rfl | hi'
    · exact Nat.le_of_lt hlast
    · exact h.le i hi'
  · exact List.forall_mem_cons.mpr ⟨by rwa [hstay], h.before⟩
  · exact List.pairwise_cons.mpr ⟨by rwa [hstay], h.in_order⟩
  · exact hi (hperm.mem_iff.mpr (List.mem_cons_of_mem other hm))

/-- The path changes places with the next one behind it, and then moves on from there. -/
theorem step (h : PutsLast place other rest) (hlt : ∀ i ∈ other :: rest, current < i)
    (hnot : other ∉ rest) :
    PutsLast ((Equiv.swap current other).trans place) current (other :: rest) := by
  obtain ⟨hstay, hlast, hrest⟩ := h.of_lt hlt
  have hfirst : (Equiv.swap current other).trans place current = place other := by
    rw [Equiv.trans_apply, Equiv.swap_apply_left]
  -- the next one comes to stand where the path was, and is not moved again
  have hnext : (Equiv.swap current other).trans place other = current := by
    rw [Equiv.trans_apply, Equiv.swap_apply_right, hstay]
  have hlater : ∀ i, i ≠ current → i ≠ other → (Equiv.swap current other).trans place i = place i := by
    intro i hi hi'
    rw [Equiv.trans_apply, Equiv.swap_apply_of_ne_of_ne hi hi']
  have hmem : ∀ i ∈ rest, (Equiv.swap current other).trans place i = place i := by
    intro i hi
    have hi' := hlt i (List.mem_cons_of_mem other hi)
    exact hlater i (Nat.ne_of_gt hi') fun he => hnot (he ▸ hi)
  refine ⟨?_, ?_, ?_, ?_, fun i hi => ?_⟩
  · rw [hfirst]
    exact List.mem_cons_of_mem current h.mem
  · rw [hfirst]
    exact List.forall_mem_cons.mpr ⟨Nat.le_of_lt hlast, h.le⟩
  · rw [hfirst]
    refine List.forall_mem_cons.mpr ⟨by rwa [hnext], fun i hi => ?_⟩
    rw [hmem i hi]
    exact h.before i hi
  · refine List.pairwise_cons.mpr ⟨fun j hj => ?_, h.in_order.imp_of_mem fun hi hj hij => ?_⟩
    · rw [hnext, hmem j hj]
      exact hrest j hj
    · rwa [hmem _ hi, hmem _ hj]
  · have hcurrent : i ≠ current := fun he => hi (he ▸ List.mem_cons_self)
    have hout : i ∉ other :: rest := fun hm => hi (List.mem_cons_of_mem current hm)
    rw [hlater i hcurrent fun he => hout (he ▸ List.mem_cons_self)]
    exact h.fixed i hout

/-- Two of the others, listed in ascending order, keep their order. -/
theorem place_lt_place {others : List PathId} (h : PutsLast place current others)
    (hothers : others.Pairwise (· < ·)) {i j : PathId} (hi : i ∈ others) (hj : j ∈ others) (hij : i < j) :
    place i < place j := by
  obtain ⟨a, ha, rfl⟩ := List.getElem_of_mem hi
  obtain ⟨b, hb, rfl⟩ := List.getElem_of_mem hj
  rcases Nat.lt_trichotomy a b with hab | rfl | hba
  · exact List.pairwise_iff_getElem.mp h.in_order a b ha hb hab
  · exact absurd hij (Nat.lt_irrefl _)
  · exact absurd hij (Nat.lt_asymm (List.pairwise_iff_getElem.mp hothers b a hb ha hba))

end PutsLast

/-- Moving behind a list of slots in ascending order. When one of them is reached, those after it in the list
still hold what they did at the start. -/
theorem moveBehind_places : ∀ (others : List PathId) (current : PathId) {p : Plan}, p.Sound →
    others.Pairwise (· < ·) → current ∉ others →
    (∀ i ∈ current :: others, ∃ s, p.registry.slot? i = some s) →
    ∃ p' place, moveBehind others current p = .ok p' ∧ Rearranged p p' place.symm ∧
      PutsLast place current others
  | [], current, p, _, _, _, _ => ⟨p, Equiv.refl _, rfl, .refl p, .nil current⟩
  | other :: rest, current, p, hp, hpairwise, hnot, hocc => by
    obtain ⟨hother, hrest⟩ := List.pairwise_cons.mp hpairwise
    have hne := List.ne_of_not_mem_cons hnot
    have hnot := List.not_mem_of_not_mem_cons hnot
    obtain ⟨hcur, hocc⟩ := List.forall_mem_cons.mp hocc
    unfold moveBehind
    split
    next hlt =>
      obtain ⟨p₁, h₁, hre₁⟩ := exchange_of_occupied hp hcur (hocc other List.mem_cons_self)
      have hocc₁ : ∀ i ∈ other :: rest, ∃ s, p₁.registry.slot? i = some s := by
        intro i hi
        rw [← Registry.mem_ids_iff, hre₁.registry.ids_eq]
        exact Registry.mem_ids_iff.mpr (hocc i hi)
      have hmem : other ∉ rest := fun hm => Nat.lt_irrefl _ (hother other hm)
      obtain ⟨p', place, h, hre, hlast⟩ := moveBehind_places rest other (hre₁.sound hp) hrest hmem hocc₁
      refine ⟨p', (Equiv.swap current other).trans place, ?_, ?_, hlast.step ?_ hmem⟩
      · rw [h₁, ok_bind]
        exact h
      · exact hre₁.trans hre
      · exact List.forall_mem_cons.mpr ⟨hlt, fun i hi => Nat.lt_trans hlt (hother i hi)⟩
    next hge =>
      have hlt : other < current := Nat.lt_of_le_of_ne (Nat.le_of_not_lt hge) (Ne.symm hne)
      obtain ⟨p', place, h, hre, hlast⟩ := moveBehind_places rest current hp hrest hnot
        (List.forall_mem_cons.mpr ⟨hcur, fun i hi => hocc i (List.mem_cons_of_mem other hi)⟩)
      exact ⟨p', place, h, hre, hlast.skip (List.forall_mem_cons.mpr ⟨hlt, hother⟩)⟩

/-- The partners of a path at one of its nodes are the other paths through that node. -/
theorem mem_partners_iff {p : Plan} (hp : p.Sound) {id i : PathId} {x : Qubit}
    (hx : p.registry.PassesThrough id x) :
    i ∈ p.partners id x ↔ i ≠ id ∧ p.registry.PassesThrough i x := by
  unfold partners
  rw [mem_sortBy, List.mem_map]
  constructor
  · rintro ⟨c, hc, rfl⟩
    obtain ⟨hc, hxc⟩ := List.mem_filter.mp hc
    obtain ⟨y, hshares, ho⟩ := hp.valid.mem_crossingsAt_iff.mp hc
    rw [Crossing.contains_iff, ho, List.mem_singleton] at hxc
    obtain ⟨hne, -, hi⟩ := Registry.shares_iff.mp hshares
    exact ⟨hne.symm, hxc ▸ hi⟩
  · intro ⟨hne, hi⟩
    have hshares : p.registry.Shares id i x := Registry.shares_iff.mpr ⟨hne.symm, hx, hi⟩
    have hc := hp.valid.mem_crossingsAt_iff (c := ⟨i, [x]⟩) |>.mpr ⟨x, hshares, rfl⟩
    exact ⟨_, List.mem_filter.mpr ⟨hc, Crossing.contains_iff.mpr List.mem_cons_self⟩, rfl⟩

theorem mem_cons_partners_iff {p : Plan} (hp : p.Sound) {id i : PathId} {x : Qubit}
    (hx : p.registry.PassesThrough id x) :
    i ∈ id :: p.partners id x ↔ p.registry.PassesThrough i x := by
  rw [List.mem_cons, mem_partners_iff hp hx]
  constructor
  · rintro (rfl | ⟨-, hi⟩)
    · exact hx
    · exact hi
  · intro hi
    by_cases hid : i = id
    · exact .inl hid
    · exact .inr ⟨hid, hi⟩

/-- The partners are listed in ascending order, each once. -/
theorem partners_pairwise {p : Plan} (hp : p.Sound) (id : PathId) (x : Qubit) :
    (p.partners id x).Pairwise (· < ·) := by
  have hnodup : (p.partners id x).Nodup := by
    refine (sortBy_perm _ _).nodup_iff.mpr ?_
    exact (hp.valid.crossingsAt_nodup id).sublist (List.filter_sublist.map _)
  have hsorted : (p.partners id x).Pairwise (· ≤ ·) := by
    refine (pairwise_sortBy (fun a b hab => ?_) (fun a b c hab hbc => ?_) _).imp of_decide_eq_true
    · exact decide_eq_true (Nat.le_of_not_le (of_decide_eq_false hab))
    · exact decide_eq_true (Nat.le_trans (of_decide_eq_true hab) (of_decide_eq_true hbc))
  exact (hsorted.and hnodup).imp fun ⟨hle, hne⟩ => Nat.lt_of_le_of_ne hle hne

/-- The path in slot `id` has been moved behind all others through `x`; `place` says where the content of each
slot is now. -/
structure MovedBehind (p : Plan) (id : PathId) (x : Qubit) (p' : Plan) (place : Equiv.Perm PathId) :
    Prop where
  /-- Every path is found where `place` says, with its partners named by their new slots. -/
  slot? : ∀ i, p'.registry.slot? (place i) = (p.registry.slot? i).map (Slot.relabel place)
  /-- The splits have moved with their paths. -/
  split? : ∀ i, p'.split? (place i) = p.split? i
  /-- Of the slots of the paths through `x`, the path has the largest. -/
  last : IsGreatest {i | p.registry.PassesThrough i x} (place id)
  before : ∀ i, i ≠ id → p.registry.PassesThrough i x → place i < place id
  /-- The others are in the same order as before. -/
  in_order : ∀ i j, i ≠ id → j ≠ id → p.registry.PassesThrough i x → p.registry.PassesThrough j x →
    i < j → place i < place j
  /-- What does not hold a path through `x` is left alone. -/
  fixed : ∀ i, ¬ p.registry.PassesThrough i x → place i = i

/-- A path that is moved behind its partners at one of its nodes takes the last of the slots of all paths
through that node. The others close up, and nothing else moves. -/
theorem sequenceAfterPartners_places {p : Plan} (hreach : p.registry.Reachable) (haligned : p.Aligned)
    {id : PathId} {x : Qubit} (hx : p.registry.PassesThrough id x) :
    ∃ p' place, p.sequenceAfterPartners id x = .ok p' ∧ p.MovedBehind id x p' place := by
  have hp : p.Sound := ⟨hreach.valid, haligned⟩
  have hpairwise := partners_pairwise hp id x
  have hmem := fun i => mem_partners_iff hp hx (i := i)
  have hmem' := fun i => mem_cons_partners_iff hp hx (i := i)
  have hocc : ∀ i ∈ id :: p.partners id x, ∃ s, p.registry.slot? i = some s := by
    intro i hi
    obtain ⟨path, hpath, -⟩ := (hmem' i).mp hi
    obtain ⟨s, hs, -⟩ := Registry.path?_eq_some_iff.mp hpath
    exact ⟨s, hs⟩
  obtain ⟨p', place, h, hre, hlast⟩ := moveBehind_places (p.partners id x) id hp hpairwise
    (fun hm => ((hmem id).mp hm).1 rfl) hocc
  refine ⟨p', place, h, fun i => ?_, fun i => ?_, ⟨?_, fun i hi => ?_⟩, fun i hi hix => ?_,
    fun i j hi hj hix hjx hij => ?_, fun i hi => ?_⟩
  · rw [hre.registry.slot?, place.symm_apply_apply]
    rfl
  · rw [hre.split?, place.symm_apply_apply]
  · exact (hmem' _).mp hlast.mem
  · exact hlast.le i ((hmem' i).mpr hi)
  · exact hlast.before i ((hmem i).mpr ⟨hi, hix⟩)
  · exact hlast.place_lt_place hpairwise ((hmem i).mpr ⟨hi, hix⟩) ((hmem j).mpr ⟨hj, hjx⟩) hij
  · exact hlast.fixed i fun hm => hi ((hmem' i).mp hm)

/-- Three paths through node 1, and one that runs elsewhere. -/
def threeThroughOne : Plan :=
  start ((((Registry.empty.insert [0, 1, 2]).insert [3, 1, 4]).insert [7, 8]).insert [5, 1, 6])

theorem reachable_threeThroughOne : threeThroughOne.registry.Reachable := by
  have hadd : (((Registry.empty.add? [0, 1, 2]).bind (·.add? [3, 1, 4])).bind (·.add? [7, 8])).bind
      (·.add? [5, 1, 6]) = some threeThroughOne.registry := by decide
  obtain ⟨r₃, h₃, h₄⟩ := Option.bind_eq_some_iff.mp hadd
  obtain ⟨r₂, h₂, h₃⟩ := Option.bind_eq_some_iff.mp h₃
  obtain ⟨r₁, h₁, h₂⟩ := Option.bind_eq_some_iff.mp h₂
  exact .add (.add (.add (.add .empty h₁) h₂) h₃) h₄

/-- The path in slot 0 moves to slot 3, behind the two others through node 1. -/
theorem threeThroughOne_places : threeThroughOne.registry.Reachable ∧ threeThroughOne.Aligned ∧
    threeThroughOne.registry.PassesThrough 0 1 ∧
    ∃ p' place, threeThroughOne.sequenceAfterPartners 0 1 = .ok p' ∧
      threeThroughOne.MovedBehind 0 1 p' place ∧
      p'.registry.paths = [[3, 1, 4], [5, 1, 6], [7, 8], [0, 1, 2]] := by
  have haligned : threeThroughOne.Aligned := (sound_start reachable_threeThroughOne.valid).aligned
  have hx : threeThroughOne.registry.PassesThrough 0 1 := ⟨[0, 1, 2], by decide, by decide⟩
  obtain ⟨p', place, h, hmoved⟩ := sequenceAfterPartners_places reachable_threeThroughOne haligned hx
  refine ⟨reachable_threeThroughOne, haligned, hx, p', place, h, hmoved, ?_⟩
  have hpaths : (threeThroughOne.sequenceAfterPartners 0 1).map (·.registry.paths) =
      .ok [[3, 1, 4], [5, 1, 6], [7, 8], [0, 1, 2]] := by decide
  rw [h] at hpaths
  exact Except.ok.inj hpaths

end Plan

end QubitRouting
