import QubitRouting.Proofs.Sequencing.Conflicts
import QubitRouting.Proofs.Sequencing.Order
import QubitRouting.Sequencing.Swaps

/-!
# Sequenced swaps join the ends of every path

`Registry.generateSwaps` has a result for every valid registry, and `Registry.Sequenced` lists what is
known of it. The point is `joined`: replaying all swaps takes the contents of the two ends of every
path that is left onto two nodes that follow one another on that path.

Take the path in slot `i`. The swaps of the slots before `i` do not touch its ends, because no end of a
path lies on another path. Its own swaps walk the ends to the two sides of the cut. The swaps of the
slots after `i` do not touch the cut, because a path that is cut at a crossing runs after its partner
there (`Plan.Ordered`).

`Registry.Reachable` collects the registries that the operations can produce; all of them are valid.
-/

namespace QubitRouting

/-! ## Swaps follow the links of a path -/

/-- The two nodes follow one another on the path, in one direction or the other. -/
def LinkOf (path : List Qubit) (s : Swap) : Prop :=
  [s.1, s.2] <:+: path ∨ [s.2, s.1] <:+: path

theorem infix_of_mem_walk : ∀ {p : List Qubit} {s : Swap}, s ∈ walk p → [s.1, s.2] <:+: p
  | [], _, h => absurd h List.not_mem_nil
  | [_], _, h => absurd h List.not_mem_nil
  | x :: y :: rest, s, h => by
    rw [walk_cons_cons] at h
    rcases List.mem_cons.mp h with rfl | h
    · exact ⟨[], rest, rfl⟩
    · exact (infix_of_mem_walk h).trans (List.suffix_cons x _).isInfix

theorem Split.linkOf_of_mem_swaps {sp : Split} {s : Swap} (h : s ∈ sp.swaps) :
    LinkOf sp.nodes s := by
  rcases List.mem_append.mp h with h | h
  · exact .inl ((infix_of_mem_walk h).trans (List.prefix_append _ _).isInfix)
  · right
    have hrev := List.reverse_infix.mpr (infix_of_mem_walk h)
    rw [List.reverse_reverse] at hrev
    exact hrev.trans (List.suffix_append _ _).isInfix

namespace Plan

/-! ## The swaps of a plan -/

/-- The swaps of the slots in the listed order. -/
def slotSwaps (splits : List (Option Split)) : List Swap :=
  splits.flatMap fun
    | some split => split.swaps
    | none => []

theorem mem_slotSwaps_iff {splits : List (Option Split)} {s : Swap} :
    s ∈ slotSwaps splits ↔ ∃ (i : PathId) (sp : Split), splits[i]? = some (some sp) ∧ s ∈ sp.swaps := by
  unfold slotSwaps
  rw [List.mem_flatMap]
  constructor
  · intro ⟨o, ho, hs⟩
    cases o with
    | none => exact absurd hs List.not_mem_nil
    | some sp =>
      obtain ⟨i, hi⟩ := List.mem_iff_getElem?.mp ho
      exact ⟨i, sp, hi, hs⟩
  · intro ⟨i, sp, hsp, hs⟩
    exact ⟨some sp, List.mem_of_getElem? hsp, hs⟩

theorem mem_swaps_iff {p : Plan} {s : Swap} :
    s ∈ p.swaps ↔ ∃ i sp, p.split? i = some sp ∧ s ∈ sp.swaps := by
  simp only [split?_eq_some_iff]
  exact mem_slotSwaps_iff

/-- The swaps of a plan are those of the slots before `i`, then those of slot `i`, then the rest. -/
theorem swaps_eq_append {p : Plan} {i : PathId} {sp : Split} (h : p.split? i = some sp) :
    p.swaps = slotSwaps (p.splits.take i) ++ sp.swaps ++ slotSwaps (p.splits.drop (i + 1)) := by
  obtain ⟨hi, hget⟩ := List.getElem?_eq_some_iff.mp (split?_eq_some_iff.mp h)
  have hsplits : p.splits = p.splits.take i ++ some sp :: p.splits.drop (i + 1) := by
    rw [← hget, ← List.drop_eq_getElem_cons hi, List.take_append_drop]
  show slotSwaps p.splits = _
  conv => lhs; rw [hsplits]
  unfold slotSwaps
  rw [List.flatMap_append, List.flatMap_cons, ← List.append_assoc]

theorem mem_slotSwaps_take {p : Plan} {i : PathId} {s : Swap} (h : s ∈ slotSwaps (p.splits.take i)) :
    ∃ j sp, j < i ∧ p.split? j = some sp ∧ s ∈ sp.swaps := by
  obtain ⟨j, sp, hj, hs⟩ := mem_slotSwaps_iff.mp h
  rw [List.getElem?_take] at hj
  split at hj
  next hlt => exact ⟨j, sp, hlt, split?_eq_some_iff.mpr hj, hs⟩
  next => contradiction

theorem mem_slotSwaps_drop {p : Plan} {i : PathId} {s : Swap}
    (h : s ∈ slotSwaps (p.splits.drop (i + 1))) :
    ∃ j sp, i < j ∧ p.split? j = some sp ∧ s ∈ sp.swaps := by
  obtain ⟨j, sp, hj, hs⟩ := mem_slotSwaps_iff.mp h
  rw [List.getElem?_drop] at hj
  exact ⟨i + 1 + j, sp, Nat.lt_of_lt_of_le (Nat.lt_succ_self i) (Nat.le_add_right _ _),
    split?_eq_some_iff.mpr hj, hs⟩

section Carried

variable {p : Plan} {i : PathId} {s : Slot} {sp : Split} (hp : p.Sound)
  (hs : p.registry.slot? i = some s) (hsp : p.split? i = some sp) (hn : sp.nodes = s.nodes)
include hp hs

/-- The slots before a path do not touch its ends. -/
theorem carried_take {x : Qubit} (hx : x ∈ pathEnds s.nodes) :
    carried (slotSwaps (p.splits.take i)) x = x := by
  refine carried_of_forall_ne fun w hw => ?_
  obtain ⟨j, spj, hj, hspj, hw⟩ := mem_slotSwaps_take hw
  obtain ⟨t, ht, hnt⟩ := hp.aligned.slot_of_split hspj
  have hxt : x ∉ spj.nodes := by
    rw [hnt]
    exact (hp.valid.apart hs ht (Nat.ne_of_gt hj)).ends_left x hx
  obtain ⟨h₁, h₂⟩ := Split.mem_nodes_of_mem_swaps hw
  exact ⟨fun he => hxt (he ▸ h₁), fun he => hxt (he ▸ h₂)⟩

include hsp hn in
/-- The slots after a path do not touch the nodes next to its cut. -/
theorem carried_drop (hord : p.Ordered) {x : Qubit} (hx : sp.boundAt x = true) :
    carried (slotSwaps (p.splits.drop (i + 1))) x = x := by
  refine carried_of_forall_ne fun w hw => ?_
  obtain ⟨j, spj, hj, hspj, hw⟩ := mem_slotSwaps_drop hw
  obtain ⟨t, ht, hnt⟩ := hp.aligned.slot_of_split hspj
  have hxt : x ∉ spj.nodes := by
    rw [hnt]
    intro hxt
    -- the path in slot `j` would be a partner at the cut, and so come first
    have hc : (⟨j, [x]⟩ : Crossing) ∈ s.crossings :=
      (hp.valid.mem_crossings_iff hs _).mpr
        ⟨Nat.ne_of_gt hj, t, x, ht, hn ▸ Split.mem_nodes_of_boundAt hx, hxt, rfl⟩
    have hlt := hord i s sp hs hsp _ hc x List.mem_cons_self hx
    exact Nat.lt_asymm hlt hj
  obtain ⟨h₁, h₂⟩ := Split.mem_nodes_of_mem_swaps hw
  exact ⟨fun he => hxt (he ▸ h₁), fun he => hxt (he ▸ h₂)⟩

end Carried

/-- All swaps of a plan in order take the ends of each path to the two sides of its cut. -/
theorem carried_swaps_of_ordered {p : Plan} (hp : p.Sound) (hord : p.Ordered) {i : PathId}
    {s : Slot} (hs : p.registry.slot? i = some s) {a b : Qubit} (ha : s.nodes.head? = some a)
    (hb : s.nodes.getLast? = some b) :
    [carried p.swaps a, carried p.swaps b] <:+: s.nodes := by
  obtain ⟨sp, hsp, hn, hbefore, hafter⟩ := hp.aligned.split_of_slot hs
  obtain ⟨x, l, hx⟩ := List.exists_cons_of_ne_nil hbefore
  obtain ⟨y, l', hy⟩ := List.exists_cons_of_ne_nil hafter
  have hx : sp.before.head? = some x := by rw [hx]; rfl
  have hy : sp.after.head? = some y := by rw [hy]; rfl
  have hends : a ∈ pathEnds s.nodes ∧ b ∈ pathEnds s.nodes := by
    unfold pathEnds
    rw [ha, hb]
    exact ⟨List.mem_cons_self, List.mem_cons_of_mem _ List.mem_cons_self⟩
  have hnodup : sp.nodes.Nodup := hn ▸ (hp.valid.simple hs).2
  have hown := Split.carried_swaps hnodup hx hy (hn ▸ ha) (hn ▸ hb)
  have htwo : carried p.swaps a = x ∧ carried p.swaps b = y := by
    rw [swaps_eq_append hsp]
    simp only [carried_append]
    rw [carried_take hp hs hends.1, carried_take hp hs hends.2, hown.1, hown.2]
    exact ⟨carried_drop hp hs hsp hn hord (Split.boundAt_iff.mpr (.inl hx)),
      carried_drop hp hs hsp hn hord (Split.boundAt_iff.mpr (.inr hy))⟩
  rw [htwo.1, htwo.2, ← hn]
  exact Split.infix_nodes hx hy

/-- A plan without crossings is in order. -/
theorem ordered_of_maxOrder {p : Plan} (h : ¬ 0 < p.registry.maxOrder) : p.Ordered := by
  intro i s sp hs _ c hc x hx _
  have hpos : 0 < c.order := List.length_pos_of_mem hx
  exact absurd (Registry.lt_maxOrder_iff.mpr ⟨i, s, hs, c, hc, hpos⟩) h

/-- The plan that is carried out exists and is in order. -/
theorem sequenced_total {r : Registry} (hr : r.Valid) :
    ∃ p, sequenced r = .ok p ∧ Follows (start r) p ∧ p.Ordered := by
  have hstart := sound_start hr
  unfold sequenced
  split
  next =>
    obtain ⟨p₁, h₁, hf₁⟩ := resolve_total hstart
    obtain ⟨p₂, h₂, hf₂, hord⟩ := order_total hf₁.sound
    refine ⟨p₂, ?_, hf₁.trans hf₂, hord⟩
    rw [h₁, ok_bind, h₂]
  next h => exact ⟨start r, rfl, .refl hstart, ordered_of_maxOrder h⟩

end Plan

namespace Registry

/-- What is known of the swaps and the registry that sequencing returns. -/
structure Sequenced (r : Registry) (swaps : List Swap) (kept : Registry) : Prop where
  valid : kept.Valid
  paths_subset : kept.paths ⊆ r.paths
  length_ids_le : kept.ids.length ≤ r.ids.length
  ids_ne_nil : r.ids ≠ [] → kept.ids ≠ []
  /-- The ends of a path that is left are brought together. -/
  joined : ∀ path ∈ kept.paths, ∀ a b, path.head? = some a → path.getLast? = some b →
    [carried swaps a, carried swaps b] <:+: path
  /-- Every swap follows a link of a path that is left. -/
  linkOf : ∀ s ∈ swaps, ∃ path ∈ kept.paths, LinkOf path s
  /-- A path whose ends are not neighbours takes at least one swap. -/
  swaps_ne_nil : ∀ path ∈ kept.paths, 3 ≤ path.length → swaps ≠ []

theorem generateSwaps_total {r : Registry} (hr : r.Valid) :
    ∃ swaps kept, r.generateSwaps = .ok (swaps, kept) ∧ Sequenced r swaps kept := by
  obtain ⟨p, hseq, hf, hord⟩ := Plan.sequenced_total hr
  refine ⟨p.swaps, p.registry, ?_, ?_⟩
  · unfold generateSwaps
    rw [hseq]
    rfl
  refine ⟨hf.sound.valid, hf.paths_subset, hf.length_ids_le, hf.ids_ne_nil, ?_, ?_, ?_⟩
  · intro path hpath a b ha hb
    obtain ⟨i, s, hs, rfl⟩ := mem_paths_iff.mp hpath
    exact Plan.carried_swaps_of_ordered hf.sound hord hs ha hb
  · intro w hw
    obtain ⟨i, sp, hsp, hw⟩ := Plan.mem_swaps_iff.mp hw
    obtain ⟨s, hs, hn⟩ := hf.sound.aligned.slot_of_split hsp
    exact ⟨s.nodes, mem_paths_iff.mpr ⟨i, s, hs, rfl⟩, hn ▸ Split.linkOf_of_mem_swaps hw⟩
  · intro path hpath hlen hnil
    obtain ⟨i, s, hs, rfl⟩ := mem_paths_iff.mp hpath
    obtain ⟨sp, hsp, hn, hbefore, hafter⟩ := hf.sound.aligned.split_of_slot hs
    have hcount := Split.length_swaps hbefore hafter
    rw [hn] at hcount
    have hne : sp.swaps ≠ [] := by
      intro h
      rw [h, List.length_nil] at hcount
      omega
    obtain ⟨w, hw⟩ := List.exists_mem_of_ne_nil _ hne
    have hmem := Plan.mem_swaps_iff.mpr ⟨i, sp, hsp, hw⟩
    rw [hnil] at hmem
    exact absurd hmem List.not_mem_nil

/-! ## Reachable registries -/

/-- The registries that any sequence of operations on an empty one can produce. Requests that are
refused change nothing, and clearing a registry makes it empty again. -/
inductive Reachable : Registry → Prop where
  | empty : Reachable Registry.empty
  | add {r r' : Registry} {p : List Qubit} (h : Reachable r) (hadd : r.add? p = some r') :
      Reachable r'
  | remove {r r' : Registry} {id : PathId} (h : Reachable r) (hrem : r.remove id = .ok r') :
      Reachable r'
  | exchange {r r' : Registry} {a b : PathId} (h : Reachable r) (hex : r.exchange a b = .ok r') :
      Reachable r'
  | limitOrder {r : Registry} (n : Nat) (h : Reachable r) : Reachable (r.limitOrder n)
  | generateSwaps {r kept : Registry} {swaps : List Swap} (h : Reachable r)
      (hgen : r.generateSwaps = .ok (swaps, kept)) : Reachable kept

theorem Reachable.valid {r : Registry} (h : Reachable r) : r.Valid := by
  induction h with
  | empty => exact valid_empty
  | add _ hadd ih => exact ih.add? hadd
  | remove _ hrem ih => exact ih.remove hrem
  | exchange _ hex ih => exact ih.rearranged (exchange_rearranged hex).1
  | limitOrder n _ ih => exact (shed_valid _ ih).1
  | generateSwaps _ hgen ih =>
    obtain ⟨swaps', kept', hgen', hseq⟩ := generateSwaps_total ih
    rw [hgen] at hgen'
    obtain ⟨-, rfl⟩ := Prod.mk.inj (Except.ok.inj hgen')
    exact hseq.valid

/-- Give every node its own token and replay the swaps that sequencing returns: for every path that is
left, the tokens of its first and its last node stand on two nodes that follow one another on it. -/
theorem generateSwaps_joins_paths {r : Registry} (hr : Reachable r) :
    ∃ swaps kept, r.generateSwaps = .ok (swaps, kept) ∧
      ∀ path ∈ kept.paths, ∃ first last x y,
        path.head? = some first ∧ path.getLast? = some last ∧ [x, y] <:+: path ∧
        exchangeAlong (fun node => node) swaps x = first ∧
        exchangeAlong (fun node => node) swaps y = last := by
  obtain ⟨swaps, kept, hgen, hseq⟩ := generateSwaps_total hr.valid
  refine ⟨swaps, kept, hgen, fun path hpath => ?_⟩
  obtain ⟨i, s, hs, rfl⟩ := mem_paths_iff.mp hpath
  have hne : s.nodes ≠ [] := by
    have hlen := (hseq.valid.simple hs).1
    intro h
    rw [h, List.length_nil] at hlen
    omega
  have hhead := List.head?_eq_some_head hne
  have hlast := List.getLast?_eq_some_getLast hne
  exact ⟨_, _, _, _, hhead, hlast, hseq.joined _ hpath _ _ hhead hlast,
    exchangeAlong_carried _ swaps _, exchangeAlong_carried _ swaps _⟩

/-- Two paths that cross where both are cut at first: the longer one is cut elsewhere. -/
def crossingPair : Registry :=
  (empty.insert [0, 1, 2, 3, 4]).insert [5, 2, 6]

/-- Both paths are kept, and after the four swaps the tokens of their ends are neighbours on them. -/
theorem crossingPair_joined : Reachable crossingPair ∧
    ∃ swaps kept, crossingPair.generateSwaps = .ok (swaps, kept) ∧
      swaps = [(4, 3), (3, 2), (2, 1), (6, 2)] ∧ kept.paths = [[0, 1, 2, 3, 4], [5, 2, 6]] ∧
      ∀ path ∈ kept.paths, ∃ first last x y,
        path.head? = some first ∧ path.getLast? = some last ∧ [x, y] <:+: path ∧
        exchangeAlong (fun node => node) swaps x = first ∧
        exchangeAlong (fun node => node) swaps y = last := by
  have hlong : Registry.empty.add? [0, 1, 2, 3, 4] = some (empty.insert [0, 1, 2, 3, 4]) := by decide
  have hshort : (empty.insert [0, 1, 2, 3, 4]).add? [5, 2, 6] = some crossingPair := by decide
  have hreach : Reachable crossingPair := .add (.add .empty hlong) hshort
  have hdone : crossingPair.generateSwaps.toOption.map (fun done => (done.1, done.2.paths)) =
      some ([(4, 3), (3, 2), (2, 1), (6, 2)], [[0, 1, 2, 3, 4], [5, 2, 6]]) := by decide +kernel
  obtain ⟨swaps, kept, hgen, hjoined⟩ := generateSwaps_joins_paths hreach
  rw [hgen] at hdone
  obtain ⟨hswaps, hkept⟩ := Prod.mk.inj (Option.some.inj hdone)
  exact ⟨hreach, swaps, kept, hgen, hswaps, hkept, hjoined⟩

end Registry

end QubitRouting
