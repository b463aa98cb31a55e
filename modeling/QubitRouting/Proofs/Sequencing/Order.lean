import QubitRouting.Proofs.Graph.DepthFirst
import QubitRouting.Proofs.Sequencing.Moves
import QubitRouting.Sequencing.Order

/-!
# Sequencing ends with the paths in order

`Plan.Ordered` is what the swaps rely on: a path that is cut at a crossing stands in a later slot than
the path that it crosses there. `Plan.order` establishes it. Breaking a cycle reduces the plan, so
there are finitely many turns; without a cycle the order in which the search leaves the paths respects
every constraint, and `arrange` puts the paths into exactly that order.
-/

namespace QubitRouting

namespace Plan

/-- A path that is cut at a crossing runs after the path that it crosses there. -/
def Ordered (p : Plan) : Prop :=
  ∀ i s sp, p.registry.slot? i = some s → p.split? i = some sp →
    ∀ c ∈ s.crossings, ∀ x ∈ c.overlap, sp.boundAt x = true → c.path < i

/-! ## The constraints -/

/-- The constraints on a path, if its split is known. -/
def constraintsOf (p : Plan) (e : PathId × Slot) : List Precedence :=
  match p.split? e.1 with
  | none => []
  | some sp => (e.2.crossings.map fun c =>
      (c.overlap.filter sp.boundAt).map fun x => (⟨c.path, e.1, x⟩ : Precedence)).flatten

/-- The constraints on all paths. -/
def constraints (p : Plan) : List Precedence :=
  (p.registry.entries.map p.constraintsOf).flatten

/-- Listing the constraints never faults. -/
theorem precedences_eq {p : Plan} (hp : p.Sound) : p.precedences = .ok p.constraints := by
  unfold precedences
  rw [mapM_eq_ok (g := p.constraintsOf)]
  · rfl
  · intro e he
    have hs := Registry.mem_entries_iff.mp he
    obtain ⟨sp, hsp, -⟩ := hp.aligned.split_of_slot hs
    unfold precedencesOf constraintsOf
    rw [fetch_eq_ok (split?_eq_some_iff.mp hsp), hsp]
    simp only [ok_bind]
    rw [mapM_eq_ok (g := fun c =>
      (c.overlap.filter sp.boundAt).map fun x => (⟨c.path, e.1, x⟩ : Precedence))]
    · rfl
    · intro c hc
      obtain ⟨t, ht⟩ := hp.valid.slot?_of_mem_crossings hs hc
      unfold precedencesAt
      rw [fetch_eq_ok (Registry.slot?_eq_some_iff.mp ht)]
      rfl

/-- The constraints say: the second path is cut where it crosses the first. -/
theorem mem_precedences_iff {p : Plan} (hp : p.Sound) {arcs : List Precedence}
    (h : p.precedences = .ok arcs) {a : Precedence} : a ∈ arcs ↔
    ∃ s sp, p.registry.slot? a.second = some s ∧ p.split? a.second = some sp ∧
      ∃ c ∈ s.crossings, c.path = a.first ∧ a.node ∈ c.overlap ∧ sp.boundAt a.node = true := by
  rw [precedences_eq hp] at h
  obtain rfl := Except.ok.inj h
  rw [constraints, List.mem_flatten]
  constructor
  · intro ⟨l, hl, ha⟩
    obtain ⟨e, he, rfl⟩ := List.mem_map.mp hl
    unfold constraintsOf at ha
    cases hsp : p.split? e.1 with
    | none =>
      rw [hsp] at ha
      exact absurd ha List.not_mem_nil
    | some sp =>
      rw [hsp] at ha
      obtain ⟨l', hl', ha⟩ := List.mem_flatten.mp ha
      obtain ⟨c, hc, rfl⟩ := List.mem_map.mp hl'
      obtain ⟨x, hx, rfl⟩ := List.mem_map.mp ha
      obtain ⟨hxc, hb⟩ := List.mem_filter.mp hx
      exact ⟨e.2, sp, Registry.mem_entries_iff.mp he, hsp, c, hc, rfl, hxc, hb⟩
  · intro ⟨s, sp, hs, hsp, c, hc, hfirst, hx, hb⟩
    refine ⟨_, List.mem_map.mpr ⟨(a.second, s), Registry.mem_entries_iff.mpr hs, rfl⟩, ?_⟩
    unfold constraintsOf
    simp only [hsp]
    refine List.mem_flatten.mpr ⟨_, List.mem_map.mpr ⟨c, hc, rfl⟩, ?_⟩
    refine List.mem_map.mpr ⟨a.node, List.mem_filter.mpr ⟨hx, hb⟩, ?_⟩
    rw [hfirst]

theorem second_of_mem_constraintsOf {p : Plan} {e : PathId × Slot} {a : Precedence}
    (ha : a ∈ p.constraintsOf e) :
    a.second = e.1 := by
  unfold constraintsOf at ha
  split at ha
  next => exact absurd ha List.not_mem_nil
  next =>
    obtain ⟨l, hl, ha⟩ := List.mem_flatten.mp ha
    obtain ⟨c, -, rfl⟩ := List.mem_map.mp hl
    obtain ⟨x, -, rfl⟩ := List.mem_map.mp ha
    rfl

theorem mem_after_iff {arcs : List Precedence} {i j : PathId} :
    j ∈ Precedence.after arcs i ↔ ∃ a ∈ arcs, a.first = i ∧ a.second = j := by
  simp only [Precedence.after, List.mem_map, List.mem_filter, List.mem_reverse, beq_iff_eq,
    and_assoc]

/-- If all constraints hold by number the paths are in order. -/
theorem ordered_of_holdByNumber {p : Plan} (hp : p.Sound) {arcs : List Precedence}
    (harcs : p.precedences = .ok arcs) (h : Precedence.holdByNumber arcs = true) : p.Ordered := by
  intro i s sp hs hsp c hc x hx hb
  have hmem : (⟨c.path, i, x⟩ : Precedence) ∈ arcs :=
    (mem_precedences_iff hp harcs).mpr ⟨s, sp, hs, hsp, c, hc, rfl, hx, hb⟩
  exact of_decide_eq_true (List.all_eq_true.mp h _ hmem)

/-- What breaking a cycle tries to shift: the later paths of its constraints, largest number first. -/
def candidates (arcs : List Precedence) (cycle : List PathId) : List (PathId × Qubit) :=
  sortBy (fun a b => decide (b.1 ≤ a.1))
    ((arcs.filter fun a => cycle.contains a.first && cycle.contains a.second).map
      fun a => (a.second, a.node))

theorem mem_candidates {arcs : List Precedence} {cycle : List PathId} {e : PathId × Qubit}
    (he : e ∈ candidates arcs cycle) : e.1 ∈ cycle ∧ ∃ a ∈ arcs, (a.second, a.node) = e := by
  obtain ⟨a, ha, rfl⟩ := List.mem_map.mp (mem_sortBy.mp he)
  obtain ⟨ha, hcycle⟩ := List.mem_filter.mp ha
  exact ⟨List.contains_iff_mem.mp (Bool.and_eq_true_iff.mp hcycle).2, a, ha, rfl⟩

section Constraints

variable {p : Plan} (hp : p.Sound) {arcs : List Precedence} (harcs : p.precedences = .ok arcs)
include hp harcs

theorem closedUnder_after :
    Graph.ClosedUnder (Precedence.after arcs) p.registry.ids := by
  intro i _ j hj
  obtain ⟨a, ha, -, rfl⟩ := mem_after_iff.mp hj
  obtain ⟨s, -, hs, -⟩ := (mem_precedences_iff hp harcs).mp ha
  exact Registry.mem_ids_iff.mpr ⟨s, hs⟩

theorem irrefl_after : ∀ i ∈ p.registry.ids, i ∉ Precedence.after arcs i := by
  intro i _ hi
  obtain ⟨a, ha, hfirst, hsecond⟩ := mem_after_iff.mp hi
  obtain ⟨s, sp, hs, -, c, hc, hcf, -⟩ := (mem_precedences_iff hp harcs).mp ha
  obtain ⟨hne, -⟩ := (hp.valid.mem_crossings_iff hs c).mp hc
  exact hne (by rw [hcf, hfirst, hsecond])

/-! ## Breaking a cycle -/

/-- Trying candidates that come from constraints never faults, and a move reduces the plan. -/
theorem shiftFirst?_total : ∀ (l : List (PathId × Qubit)),
    (∀ e ∈ l, ∃ a ∈ arcs, (a.second, a.node) = e) →
    ∃ o, p.shiftFirst? l = .ok o ∧ ∀ p', o = some p' → Reduced p p'
  | [], _ => ⟨none, rfl, fun _ h => by contradiction⟩
  | (id, x) :: rest, hl => by
    obtain ⟨a, ha, he⟩ := hl (id, x) List.mem_cons_self
    obtain ⟨rfl, rfl⟩ := Prod.mk.inj he
    obtain ⟨s, sp, hs, hsp, c, hc, -, hx, hb⟩ := (mem_precedences_iff hp harcs).mp ha
    obtain ⟨o, ho, hred⟩ := shift?_total a.node
      (isCut_iff.mpr ⟨s, sp, hs, hsp, c, hc, a.node, hx, hb⟩)
    obtain ⟨o', ho', hred'⟩ := shiftFirst?_total rest
      fun e he => hl e (List.mem_cons_of_mem _ he)
    unfold shiftFirst?
    simp only [fetch_eq_ok (split?_eq_some_iff.mp hsp), hb, ho, ok_bind, if_true]
    cases o with
    | some p' => exact ⟨some p', rfl, hred⟩
    | none => exact ⟨o', ho', hred'⟩

/-- Breaking a cycle of several paths reduces the plan. -/
theorem breakCycle_total {cycle : List PathId} (hlen : 1 < cycle.length)
    (hcycle : cycle ⊆ p.registry.ids) (hnodup : cycle.Nodup) :
    ∃ p', p.breakCycle arcs cycle = .ok p' ∧ Reduced p p' := by
  obtain ⟨o, ho, hred⟩ := shiftFirst?_total hp harcs (candidates arcs cycle)
    fun e he => (mem_candidates he).2
  show ∃ p', p.shiftFirst? (candidates arcs cycle) >>= _ = .ok p' ∧ Reduced p p'
  rw [ho, ok_bind]
  cases o with
  | some p' => exact ⟨p', rfl, hred p' rfl⟩
  | none =>
    have hids : 2 ≤ p.registry.ids.length :=
      Nat.le_trans hlen (List.subperm_of_subset hnodup hcycle).length_le
    dsimp only
    cases hmax : cycle.max? with
    | none =>
      rw [List.max?_eq_none_iff] at hmax
      simp [hmax] at hlen
    | some i => exact discard_total hp (Registry.mem_ids_iff.mp (hcycle (List.max?_mem hmax))) hids

end Constraints

/-! ## Rearranging into an order -/

/-- Exchanging a slot with a later one, in the list of what the later ones hold. -/
theorem set_held {slot other : PathId} {slots : List PathId} {k : Nat} (τ : Equiv.Perm PathId)
    (hslot : slot ∉ slots) (hslots : slots.Nodup) (hother : slots[k]? = some other) :
    (slots.map τ).set k (τ slot) = slots.map ((Equiv.swap slot other).trans τ) := by
  refine List.ext_getElem? fun m => ?_
  rw [List.getElem?_set, List.getElem?_map, List.getElem?_map, List.length_map]
  obtain ⟨hk, hkget⟩ := List.getElem?_eq_some_iff.mp hother
  by_cases hmk : k = m
  · subst hmk
    rw [if_pos rfl, if_pos hk, hother]
    simp
  · rw [if_neg hmk]
    cases hm : slots[m]? with
    | none => rfl
    | some j =>
      have hjslot : j ≠ slot := fun he => hslot (he ▸ List.mem_of_getElem? hm)
      have hjother : j ≠ other := by
        intro he
        obtain ⟨hm', hmget⟩ := List.getElem?_eq_some_iff.mp hm
        exact hmk (hslots.getElem_inj_iff.mp (hkget.trans (he ▸ hmget.symm)))
      simp [Equiv.swap_apply_of_ne_of_ne hjslot hjother]

/-- What is still wanted is what the later slots hold after the exchange. -/
theorem perm_set_held {held order : List PathId} {here wanted : PathId} {k : Nat}
    (hk : held[k]? = some wanted) (hperm : (wanted :: order).Perm (here :: held)) :
    order.Perm (held.set k here) := by
  obtain ⟨hlt, hget⟩ := List.getElem?_eq_some_iff.mp hk
  have hset : (wanted :: held.set k here).Perm (here :: held) :=
    calc (wanted :: held.set k here).Perm (wanted :: here :: held.eraseIdx k) :=
          (List.set_perm_cons_eraseIdx hlt here).cons wanted
      _ |>.Perm (here :: wanted :: held.eraseIdx k) := .swap _ _ _
      _ |>.Perm (here :: held) := by
          rw [← hget]
          exact (List.getElem_cons_eraseIdx_perm hlt).cons _
  exact (hperm.trans hset.symm).cons_inv

/-- `arrange` fills the listed slots with the wanted paths. Here `τ` says which path each slot holds by
its number at the start; the slots that are done hold what they should and are not touched again. -/
theorem arrange_total : ∀ (slots order : List PathId) (τ : Equiv.Perm PathId) {p : Plan}, p.Sound →
    slots.Nodup → (∀ i ∈ slots, ∃ s, p.registry.slot? i = some s) →
    order.Perm (slots.map τ) →
    ∃ p' σ, arrange slots (slots.map τ) order p = .ok p' ∧ Rearranged p p' σ ∧
      (∀ i, i ∉ slots → σ i = i) ∧ slots.map (fun i => τ (σ i)) = order
  | [], order, _, p, _, _, _, hperm => by
    obtain rfl : order = [] := hperm.eq_nil
    exact ⟨p, Equiv.refl _, rfl, .refl p, fun _ _ => rfl, rfl⟩
  | slot :: slots, [], _, _, _, _, _, hperm => by
    have := hperm.length_eq
    simp at this
  | slot :: slots, wanted :: order, τ, p, hp, hnodup, hocc, hperm => by
    obtain ⟨hslot, hslots⟩ := List.nodup_cons.mp hnodup
    have hocc' : ∀ i ∈ slots, ∃ s, p.registry.slot? i = some s :=
      fun i hi => hocc i (List.mem_cons_of_mem slot hi)
    rw [List.map_cons]
    unfold arrange
    split
    next hhere =>
      obtain ⟨p', σ, h, hre, hfix, hmap⟩ := arrange_total slots order τ hp hslots hocc'
        (by rw [List.map_cons, hhere] at hperm; exact hperm.cons_inv)
      refine ⟨p', σ, h, hre, fun i hi => hfix i fun hm => hi (List.mem_cons_of_mem slot hm), ?_⟩
      rw [List.map_cons, hmap, hfix slot hslot, hhere]
    next hhere =>
      -- the wanted path is held by one of the later slots
      have hwanted : wanted ∈ slots.map τ := by
        have hmem : wanted ∈ (slot :: slots).map τ := hperm.mem_iff.mp List.mem_cons_self
        rcases List.mem_cons.mp hmem with h | h
        · exact absurd h.symm hhere
        · exact h
      cases hk : (slots.map τ).idxOf? wanted with
      | none => exact absurd hwanted (List.idxOf?_eq_none_iff.mp hk)
      | some k =>
        have hkτ : (slots.map τ)[k]? = some wanted := by
          obtain ⟨hlt, hget, -⟩ := List.idxOf?_eq_some_iff.mp hk
          rw [List.getElem?_eq_getElem hlt, hget]
        obtain ⟨other, hother, hτ⟩ := Option.map_eq_some_iff.mp (List.getElem?_map ▸ hkτ)
        have hothermem : other ∈ slots := List.mem_of_getElem? hother
        obtain ⟨p₁, h₁, hre₁⟩ := exchange_of_occupied hp (hocc slot List.mem_cons_self)
          (hocc' other hothermem)
        have hheld := set_held τ hslot hslots hother
        have hperm₁ : order.Perm (slots.map ((Equiv.swap slot other).trans τ)) :=
          hheld ▸ perm_set_held hkτ hperm
        obtain ⟨p', σ, h, hre, hfix, hmap⟩ := arrange_total slots order _ (hre₁.sound hp) hslots
          (fun i hi => by
            rw [hre₁.registry.slot?]
            obtain ⟨s, hs⟩ := (hre₁.registry.occupied i).mpr (hocc' i hi)
            exact ⟨_, by rw [hs]; rfl⟩) hperm₁
        refine ⟨p', σ.trans (Equiv.swap slot other), ?_, hre₁.trans hre, ?_, ?_⟩
        · simp only [fetch_eq_ok hother, h₁, ok_bind, if_true, hheld]
          exact h
        · intro i hi
          have hi' : i ∉ slots := fun hm => hi (List.mem_cons_of_mem slot hm)
          rw [Equiv.trans_apply, hfix i hi']
          exact Equiv.swap_apply_of_ne_of_ne (fun he => hi (he ▸ List.mem_cons_self))
            fun he => hi' (he ▸ hothermem)
        · rw [List.map_cons]
          congr 1
          rw [Equiv.trans_apply, hfix slot hslot, Equiv.swap_apply_left, hτ]

/-- A list of the registered paths in any order is one that the plan can be brought into. -/
theorem reorder_total {p : Plan} (hp : p.Sound) {order : List PathId}
    (hperm : order.Perm p.registry.ids) :
    ∃ p' σ, p.reorder order = .ok p' ∧ Rearranged p p' σ ∧ p.registry.ids.map σ = order := by
  obtain ⟨p', σ, h, hre, -, hmap⟩ := arrange_total p.registry.ids order (Equiv.refl _) hp
    p.registry.ids_nodup (fun i hi => Registry.mem_ids_iff.mp hi) (by simpa using hperm)
  refine ⟨p', σ, ?_, hre, hmap⟩
  unfold reorder
  simpa using h

/-- An ascending list of slots, filled in topological order: what waits stands in a later slot. -/
theorem lt_of_topological {succ : PathId → List PathId} {σ : Equiv.Perm PathId} {i j : PathId} :
    ∀ {ids : List PathId}, ids.Pairwise (· < ·) → Graph.Topological succ (ids.map σ) →
      j ∈ ids → σ i ∈ succ (σ j) → j < i
  | [], _, _, hj, _ => absurd hj List.not_mem_nil
  | k :: ids, hids, ⟨hk, htop⟩, hj, hi => by
    obtain ⟨hlt, hids⟩ := List.pairwise_cons.mp hids
    rcases List.mem_cons.mp hj with rfl | hj
    · obtain ⟨i', hi', he⟩ := List.mem_map.mp (hk (σ i) hi)
      exact σ.injective he ▸ hlt i' hi'
    · exact lt_of_topological hids htop hj hi

/-- Rearranged into the order of leaving, the paths of a plan without cycles are in order. -/
theorem ordered_of_rearranged {p p' : Plan} (hp : p.Sound) {arcs : List Precedence}
    (harcs : p.precedences = .ok arcs)
    (hnone : Graph.firstCycle? (Precedence.after arcs) p.registry.ids = none)
    {σ : Equiv.Perm PathId} (hre : Rearranged p p' σ)
    (hmap : p.registry.ids.map σ =
      Graph.latestFirst (Precedence.after arcs) p.registry.ids) : p'.Ordered := by
  have htop := Graph.latestFirst_topological p.registry.ids_nodup (closedUnder_after hp harcs)
    (irrefl_after hp harcs) hnone
  rw [← hmap] at htop
  intro i s sp hs hsp c hc x hx hb
  obtain ⟨t, ht⟩ := (hre.sound hp).valid.slot?_of_mem_crossings hs hc
  obtain ⟨s₀, hs₀, rfl⟩ := hre.registry.slot?_cases hs
  -- the constraint stood in the old plan too, between the old numbers
  have harc : (⟨σ c.path, σ i, x⟩ : Precedence) ∈ arcs :=
    (mem_precedences_iff hp harcs).mpr ⟨s₀, sp, hs₀, (hre.split? i) ▸ hsp, ⟨σ c.path, c.overlap⟩,
      Registry.mem_crossings_relabel.mp hc, rfl, hx, hb⟩
  refine lt_of_topological p.registry.ids_pairwise htop ?_ (mem_after_iff.mpr ⟨_, harc, rfl, rfl⟩)
  rw [← hre.registry.ids_eq]
  exact Registry.mem_ids_iff.mpr ⟨t, ht⟩

/-! ## Bringing the paths into order -/

/-- One turn of the second loop: the constraints have a cycle, and it is broken. -/
def OrderTurn (p p' : Plan) : Prop :=
  ∃ arcs cycle, p.precedences = .ok arcs ∧ Precedence.holdByNumber arcs = false ∧
    Graph.firstCycle? (Precedence.after arcs) p.registry.ids = some cycle ∧
    p.breakCycle arcs cycle = .ok p'

/-- The second loop ends with `p'`: the constraints hold as they are, or they have no cycle and the paths
are rearranged. -/
def OrderEnd (p p' : Plan) : Prop :=
  ∃ arcs, p.precedences = .ok arcs ∧
    (Precedence.holdByNumber arcs = true ∧ p' = p ∨
      Precedence.holdByNumber arcs = false ∧
      Graph.firstCycle? (Precedence.after arcs) p.registry.ids = none ∧
      p.reorder (Graph.latestFirst (Precedence.after arcs) p.registry.ids) = .ok p')

theorem orderWithin_succ_iff {turns : Nat} {p p' : Plan} :
    orderWithin (turns + 1) p = .ok p' ↔
      OrderEnd p p' ∨ ∃ q, OrderTurn p q ∧ orderWithin turns q = .ok p' := by
  unfold OrderEnd OrderTurn
  rw [orderWithin, bind_eq_ok_iff]
  constructor
  · intro ⟨arcs, harcs, h⟩
    split at h
    next hhold => exact .inl ⟨arcs, harcs, .inl ⟨hhold, (Except.ok.inj h).symm⟩⟩
    next hhold =>
      rw [Bool.not_eq_true] at hhold
      dsimp only at h
      split at h
      next cycle hcycle =>
        obtain ⟨q, hbreak, h⟩ := bind_eq_ok_iff.mp h
        exact .inr ⟨q, ⟨arcs, cycle, harcs, hhold, hcycle, hbreak⟩, h⟩
      next hnone => exact .inl ⟨arcs, harcs, .inr ⟨hhold, hnone, h⟩⟩
  · intro h
    rcases h with ⟨arcs, harcs, ⟨hhold, rfl⟩ | ⟨hhold, hnone, h⟩⟩ |
      ⟨q, ⟨arcs, cycle, harcs, hhold, hcycle, hbreak⟩, h⟩
    · exact ⟨arcs, harcs, by rw [if_pos hhold]; rfl⟩
    · refine ⟨arcs, harcs, ?_⟩
      rw [if_neg (by simp [hhold])]
      simp only [hnone, h]
    · refine ⟨arcs, harcs, ?_⟩
      rw [if_neg (by simp [hhold])]
      simp only [hcycle, hbreak, ok_bind, h]

/-- The second loop ends by rearranging the paths, if it changes anything. -/
theorem OrderEnd.rearranged {p p' : Plan} (hp : p.Sound) (h : OrderEnd p p') :
    ∃ σ, Rearranged p p' σ := by
  obtain ⟨arcs, harcs, ⟨-, rfl⟩ | ⟨-, -, hreorder⟩⟩ := h
  · exact ⟨_, .refl p'⟩
  · obtain ⟨p₁, σ, h₁, hre, -⟩ := reorder_total hp
      (Graph.latestFirst_perm p.registry.ids_nodup (closedUnder_after hp harcs))
    obtain rfl := Except.ok.inj (h₁.symm.trans hreorder)
    exact ⟨σ, hre⟩

theorem OrderTurn.reduced {p p' : Plan} (hp : p.Sound) (h : OrderTurn p p') : Reduced p p' := by
  obtain ⟨arcs, cycle, harcs, -, hcycle, hbreak⟩ := h
  obtain ⟨hlen, hsub, hnodup⟩ := Graph.mem_of_firstCycle? hcycle
  obtain ⟨q, hq, hred⟩ := breakCycle_total hp harcs hlen hsub (hnodup p.registry.ids_nodup)
  obtain rfl : p' = q := Except.ok.inj (hbreak.symm.trans hq)
  exact hred

/-- The second loop can go on from any sound plan: it ends with the paths in order, or takes a turn. -/
theorem orderEnd_or_orderTurn {p : Plan} (hp : p.Sound) :
    (∃ p', OrderEnd p p' ∧ Follows p p' ∧ p'.Ordered) ∨ ∃ p', OrderTurn p p' := by
  obtain ⟨arcs, harcs⟩ : ∃ arcs, p.precedences = .ok arcs := ⟨_, precedences_eq hp⟩
  cases hhold : Precedence.holdByNumber arcs with
  | true =>
    exact .inl ⟨p, ⟨arcs, harcs, .inl ⟨hhold, rfl⟩⟩, .refl hp, ordered_of_holdByNumber hp harcs hhold⟩
  | false =>
    cases hcycle : Graph.firstCycle? (Precedence.after arcs) p.registry.ids with
    | some cycle =>
      obtain ⟨hlen, hsub, hnodup⟩ := Graph.mem_of_firstCycle? hcycle
      obtain ⟨p', h, -⟩ := breakCycle_total hp harcs hlen hsub (hnodup p.registry.ids_nodup)
      exact .inr ⟨p', arcs, cycle, harcs, hhold, hcycle, h⟩
    | none =>
      obtain ⟨p', σ, h, hre, hmap⟩ := reorder_total hp
        (Graph.latestFirst_perm p.registry.ids_nodup (closedUnder_after hp harcs))
      exact .inl ⟨p', ⟨arcs, harcs, .inr ⟨hhold, hcycle, h⟩⟩, .of_rearranged hp hre,
        ordered_of_rearranged hp harcs hcycle hre hmap⟩

/-- With more turns than load, the paths are brought into order. -/
theorem orderWithin_total : ∀ (turns : Nat) {p : Plan}, p.Sound → p.load < turns →
    ∃ p', orderWithin turns p = .ok p' ∧ Follows p p' ∧ p'.Ordered := by
  intro turns
  induction turns with
  | zero => exact fun _ h => absurd h (Nat.not_lt_zero _)
  | succ turns ih =>
    intro p hp hload
    rcases orderEnd_or_orderTurn hp with ⟨p', hend, hrest⟩ | ⟨p₁, hturn⟩
    · exact ⟨p', orderWithin_succ_iff.mpr (.inl hend), hrest⟩
    · -- a broken cycle lowers the load, which is what bounds the turns
      have hred := hturn.reduced hp
      have hlt := hred.load_lt hp
      obtain ⟨p₂, h₂, hfollows, hordered⟩ := ih (hred.sound hp) (by omega)
      exact ⟨p₂, orderWithin_succ_iff.mpr (.inr ⟨p₁, hturn, h₂⟩),
        (Follows.of_reduced hp hred).trans hfollows, hordered⟩

/-- The paths of a sound plan are brought into order. -/
theorem order_total {p : Plan} (hp : p.Sound) :
    ∃ p', p.order = .ok p' ∧ Follows p p' ∧ p'.Ordered := by
  refine orderWithin_total p.orderBound hp ?_
  have hload := p.load_le
  unfold orderBound
  omega

end Plan

end QubitRouting
