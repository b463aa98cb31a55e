import QubitRouting.Proofs.Graph.Parts
import QubitRouting.Proofs.Sequencing.Locality.Conflicts
import QubitRouting.Proofs.Sequencing.Order

/-!
# Cycles of a part are broken as if it were alone

The constraints between the paths of a part are constraints of the whole plan, and there are none between
these paths and others (`Part.graph`). So the cycle that is broken next lies outside the part, or it is the
one that the part would break next on its own (`Part.orderTurn`). Only the arrangement at the end looks at all
paths together: it may put the paths of the part into other slots, with the cuts that they have
(`Reshuffled`).
-/

namespace QubitRouting

/-- The constraint under other names. -/
def Precedence.rename (f : PathId → PathId) (a : Precedence) : Precedence :=
  ⟨f a.first, f a.second, a.node⟩

namespace Plan

namespace Part

variable {g : Sector} {q p p' : Plan}

/-! ## The constraints of a part -/

theorem constraintsOf_rename (h : Part g q p) (e : PathId × Slot) :
    p.constraintsOf (g.rename e.1, e.2.relabel g.rename) =
      (q.constraintsOf e).map (Precedence.rename g.rename) := by
  unfold constraintsOf
  rw [h.split?]
  cases q.split? e.1 with
  | none => rfl
  | some sp =>
    dsimp only [Slot.relabel]
    rw [List.map_map, List.map_flatten, List.map_map]
    refine congrArg List.flatten (List.map_congr_left fun c _ => ?_)
    rw [Function.comp_apply, Function.comp_apply, List.map_map]
    rfl

/-- The constraints between paths of the part are the same in both plans. -/
theorem constraints_eq (h : Part g q p) : p.constraints.filter (fun a => g.holds a.second) =
    q.constraints.map (Precedence.rename g.rename) := by
  have hside : ∀ e ∈ p.registry.entries, ∀ a ∈ p.constraintsOf e, g.holds a.second = g.holds e.1 :=
    fun e _ a ha => by rw [second_of_mem_constraintsOf ha]
  unfold constraints
  rw [← List.flatMap_def, ← List.flatMap_def, filter_flatMap hside, h.registry.entries_eq,
    List.flatMap_map, List.map_flatMap]
  exact List.flatMap_congr fun e _ => h.constraintsOf_rename e

/-- A constraint is between two paths of the part or two outside, because only paths that cross constrain
each other. -/
theorem holds_first (h : Part g q p) {a : Precedence} (ha : a ∈ p.constraints) :
    g.holds a.first = g.holds a.second := by
  obtain ⟨s, sp, hs, -, c, hc, hfirst, -⟩ := (mem_precedences_iff h.sound (precedences_eq h.sound)).mp ha
  rw [← hfirst]
  exact h.registry.holds_crossing h.sound.valid hs hc

/-- A selection of constraints that only holds constraints of the part can be made there. -/
theorem filter_constraints (h : Part g q p) (keep keep' : Precedence → Bool)
    (hpart : ∀ a ∈ p.constraints, keep a = true → g.holds a.second = true)
    (hkeep : ∀ a, keep (a.rename g.rename) = keep' a) :
    p.constraints.filter keep = (q.constraints.filter keep').map (Precedence.rename g.rename) := by
  have hsplit : p.constraints.filter keep =
      (p.constraints.filter fun a => g.holds a.second).filter keep := by
    rw [List.filter_filter]
    refine List.filter_congr fun a ha => ?_
    cases hk : keep a with
    | false => rfl
    | true => rw [hpart a ha hk, Bool.and_true]
  rw [hsplit, h.constraints_eq, List.filter_map]
  exact congrArg (List.map _) (List.filter_congr fun a _ => hkeep a)

theorem after_rename (h : Part g q p) (i : PathId) :
    Precedence.after p.constraints (g.rename i) = (Precedence.after q.constraints i).map g.rename := by
  unfold Precedence.after
  have hfilter := h.filter_constraints (fun a => a.first == g.rename i) (fun a => a.first == i) ?_ ?_
  · rw [List.filter_reverse, List.filter_reverse, hfilter, List.map_reverse, List.map_reverse,
      List.map_reverse, List.map_map, List.map_map]
    rfl
  · intro a ha hfirst
    rw [← h.holds_first ha, beq_iff_eq.mp hfirst]
    exact g.holds_rename i
  · intro a
    rw [Bool.eq_iff_iff, beq_iff_eq, beq_iff_eq]
    exact g.injective.eq_iff

/-- The graph of the part's constraints is a part of the graph of all constraints. -/
theorem graph (h : Part g q p) : Graph.PartOf g.rename g.holds (Precedence.after q.constraints)
    (Precedence.after p.constraints) where
  injective := g.injective
  inPart_iff := g.holds_iff
  inside := h.after_rename
  outside := by
    intro j hj k hk
    obtain ⟨a, ha, rfl, rfl⟩ := mem_after_iff.mp hk
    rwa [← h.holds_first ha]

theorem holdByNumber (h : Part g q p) (hhold : Precedence.holdByNumber p.constraints = true) :
    Precedence.holdByNumber q.constraints = true := by
  refine List.all_eq_true.mpr fun a ha => ?_
  have hmem : a.rename g.rename ∈ p.constraints := by
    have hmap := List.mem_map_of_mem (f := Precedence.rename g.rename) ha
    rw [← h.constraints_eq] at hmap
    exact (List.mem_filter.mp hmap).1
  have hlt := of_decide_eq_true (List.all_eq_true.mp hhold _ hmem)
  exact decide_eq_true (g.strictMono.lt_iff_lt.mp hlt)

/-! ## Breaking a cycle -/

/-- The first cut of a cycle in the part that can be moved is the same in both plans. -/
theorem shiftFirst? (h : Part g q p) : ∀ (l : List (PathId × Qubit)),
    (∀ e ∈ l, ∃ a ∈ q.constraints, (a.second, a.node) = e) →
    Together (q.shiftFirst? l) (p.shiftFirst? (l.map fun e => (g.rename e.1, e.2)))
      (Option.Rel (Part g))
  | [], _ => .of_ok .none
  | (i, x) :: rest, hl => by
    obtain ⟨a, ha, he⟩ := hl (i, x) List.mem_cons_self
    obtain ⟨rfl, rfl⟩ := Prod.mk.inj he
    obtain ⟨s, sp, hs, hsp, -⟩ :=
      (mem_precedences_iff h.sound_part (precedences_eq h.sound_part)).mp ha
    have hrest := h.shiftFirst? rest fun e he => hl e (List.mem_cons_of_mem _ he)
    have hsp' : p.split? (g.rename a.second) = some sp := (h.split? _).trans hsp
    rw [List.map_cons]
    unfold Plan.shiftFirst?
    simp only [fetch_eq_ok (split?_eq_some_iff.mp hsp), fetch_eq_ok (split?_eq_some_iff.mp hsp'), ok_bind]
    split
    next =>
      refine (h.shift? hsp a.node).bind fun o o' ho => ?_
      cases ho with
      | some h' => exact .of_ok (.some h')
      | none => exact hrest
    next => exact hrest

/-- Moving a cut of a cycle elsewhere leaves the part as it is. -/
theorem shiftFirst?_outside (h : Part g q p) : ∀ (l : List (PathId × Qubit)),
    (∀ e ∈ l, ∃ a ∈ p.constraints, (a.second, a.node) = e) → (∀ e ∈ l, g.holds e.1 = false) →
    ∃ o, p.shiftFirst? l = .ok o ∧ ∀ p', o = some p' → Part g q p'
  | [], _, _ => ⟨none, rfl, fun _ h => by contradiction⟩
  | (j, x) :: rest, hl, hout => by
    obtain ⟨a, ha, he⟩ := hl (j, x) List.mem_cons_self
    obtain ⟨rfl, rfl⟩ := Prod.mk.inj he
    obtain ⟨s, sp, hs, hsp, -⟩ := (mem_precedences_iff h.sound (precedences_eq h.sound)).mp ha
    obtain ⟨o', ho', hpart'⟩ := h.shiftFirst?_outside rest
      (fun e he => hl e (List.mem_cons_of_mem _ he)) fun e he => hout e (List.mem_cons_of_mem _ he)
    obtain ⟨o, ho, hpart⟩ := h.shift?_outside (hout _ List.mem_cons_self) hsp a.node
    unfold Plan.shiftFirst?
    simp only [fetch_eq_ok (split?_eq_some_iff.mp hsp), ho, ok_bind]
    split
    next =>
      cases o with
      | some p' => exact ⟨some p', rfl, hpart⟩
      | none => exact ⟨o', ho', hpart'⟩
    next => exact ⟨o', ho', hpart'⟩

theorem candidates_rename (h : Part g q p) (cycle : List PathId) :
    candidates p.constraints (cycle.map g.rename) =
      (candidates q.constraints cycle).map fun e => (g.rename e.1, e.2) := by
  have hcontains : ∀ i, (cycle.map g.rename).contains (g.rename i) = cycle.contains i := by
    intro i
    rw [Bool.eq_iff_iff, List.contains_iff_mem, List.contains_iff_mem,
      List.mem_map_of_injective g.injective]
  have hinside := h.filter_constraints
    (fun a => (cycle.map g.rename).contains a.first && (cycle.map g.rename).contains a.second)
    (fun a => cycle.contains a.first && cycle.contains a.second) ?_ ?_
  · have hle : ∀ a b : PathId × Qubit,
        decide (g.rename b.1 ≤ g.rename a.1) = decide (b.1 ≤ a.1) := fun a b =>
      decide_eq_decide.mpr g.strictMono.le_iff_le
    unfold candidates
    rw [hinside, ← sortBy_map (fun a b => decide (b.1 ≤ a.1)) hle, List.map_map, List.map_map]
    rfl
  · intro a _ hcycle
    obtain ⟨-, hsecond⟩ := Bool.and_eq_true_iff.mp hcycle
    obtain ⟨i, -, hi⟩ := List.mem_map.mp (List.contains_iff_mem.mp hsecond)
    rw [← hi]
    exact g.holds_rename i
  · intro a
    exact congrArg₂ _ (hcontains a.first) (hcontains a.second)

/-- A cycle in the part is broken in the same way in both plans. -/
theorem breakCycle (h : Part g q p) {cycle : List PathId} (hcycle : cycle ⊆ q.registry.ids) :
    Together (q.breakCycle q.constraints cycle) (p.breakCycle p.constraints (cycle.map g.rename))
      (Part g) := by
  show Together (q.shiftFirst? (candidates q.constraints cycle) >>= _)
    (p.shiftFirst? (candidates p.constraints (cycle.map g.rename)) >>= _) _
  rw [h.candidates_rename]
  refine (h.shiftFirst? _ fun e he => (mem_candidates he).2).bind fun o o' ho => ?_
  cases ho with
  | some h' => exact .of_ok h'
  | none =>
    dsimp only
    rw [g.max?_map]
    cases hmax : cycle.max? with
    | none => exact .of_ok h
    | some i => exact h.discard (Registry.mem_ids_iff.mp (hcycle (List.max?_mem hmax)))

/-- Breaking a cycle elsewhere leaves the part as it is. -/
theorem breakCycle_outside (h : Part g q p) {cycle : List PathId} (hcycle : cycle ⊆ p.registry.ids)
    (hout : ∀ j ∈ cycle, g.holds j = false) :
    ∃ p', p.breakCycle p.constraints cycle = .ok p' ∧ Part g q p' := by
  show ∃ p', p.shiftFirst? (candidates p.constraints cycle) >>= _ = .ok p' ∧ Part g q p'
  obtain ⟨o, ho, hpart⟩ := h.shiftFirst?_outside (candidates p.constraints cycle)
    (fun e he => (mem_candidates he).2) fun e he => hout e.1 (mem_candidates he).1
  rw [ho, ok_bind]
  cases o with
  | some p' => exact ⟨p', rfl, hpart p' rfl⟩
  | none =>
    dsimp only
    cases hmax : cycle.max? with
    | none => exact ⟨p, rfl, h⟩
    | some j =>
      have hj := List.max?_mem hmax
      exact h.discard_outside (hout j hj) (Registry.mem_ids_iff.mp (hcycle hj))

/-! ## Bringing the paths into order -/

/-- A turn of the whole plan is a turn of the part, or leaves it as it is. -/
theorem orderTurn (h : Part g q p) (hturn : OrderTurn p p') :
    Part g q p' ∨ ∃ q', OrderTurn q q' ∧ Part g q' p' := by
  obtain ⟨arcs, cycle, harcs, -, hcycle, hbreak⟩ := hturn
  obtain rfl := Except.ok.inj ((precedences_eq h.sound).symm.trans harcs)
  have hclosed := closedUnder_after h.sound harcs
  have hclosed' := closedUnder_after h.sound_part (precedences_eq h.sound_part)
  obtain ⟨-, hsub, -⟩ := Graph.mem_of_firstCycle? hcycle
  rcases Graph.firstCycle?_part h.graph hclosed hclosed' h.registry.ids_eq p.registry.ids_nodup
    q.registry.ids_nodup with ⟨cycle', hcycle', hout⟩ | hpart
  · obtain rfl := Option.some.inj (hcycle.symm.trans hcycle')
    obtain ⟨p₁, hbreak', h'⟩ := h.breakCycle_outside hsub hout
    obtain rfl := Except.ok.inj (hbreak'.symm.trans hbreak)
    exact .inl h'
  · rw [hcycle] at hpart
    obtain ⟨cycle', hcycle', rfl⟩ := Option.map_eq_some_iff.mp hpart.symm
    obtain ⟨-, hsub', -⟩ := Graph.mem_of_firstCycle? hcycle'
    obtain ⟨q₁, p₁, hq, hp, h'⟩ := h.breakCycle hsub'
    obtain rfl := Except.ok.inj (hp.symm.trans hbreak)
    refine .inr ⟨q₁, ⟨_, cycle', precedences_eq h.sound_part, ?_, hcycle', hq⟩, h'⟩
    -- constraints that hold by number have no cycle
    rw [Bool.eq_false_iff]
    intro hhold
    have hnone := Graph.firstCycle?_eq_none hclosed' q.registry.ids_nodup fun i j hj => by
      obtain ⟨a, ha, rfl, rfl⟩ := mem_after_iff.mp hj
      exact of_decide_eq_true (List.all_eq_true.mp hhold a ha)
    rw [hnone] at hcycle'
    contradiction

end Part

/-- Rearranged from a plan and a part of it: the paths of the part may stand in other slots. -/
def Reshuffled (g : Sector) (q' p' : Plan) : Prop :=
  ∃ q p σ τ, Part g q p ∧ Rearranged q q' σ ∧ Rearranged p p' τ

namespace Part

variable {g : Sector} {q p p' : Plan}

/-- Where the whole plan has nothing left to break, neither has the part. -/
theorem orderEnd (h : Part g q p) (hend : OrderEnd p p') : ∃ q', OrderEnd q q' ∧ Reshuffled g q' p' := by
  obtain ⟨τ, hp'⟩ := hend.rearranged h.sound
  rcases orderEnd_or_orderTurn h.sound_part with ⟨q', hq', -⟩ | ⟨q', hturn⟩
  · obtain ⟨σ, hre⟩ := hq'.rearranged h.sound_part
    exact ⟨q', hq', q, p, σ, τ, h, hre, hp'⟩
  · obtain ⟨arcs', cycle, harcs', hhold', hcycle, -⟩ := hturn
    obtain rfl := Except.ok.inj ((precedences_eq h.sound_part).symm.trans harcs')
    obtain ⟨arcs, harcs, ⟨hhold, -⟩ | ⟨-, hnone, -⟩⟩ := hend
    · obtain rfl := Except.ok.inj ((precedences_eq h.sound).symm.trans harcs)
      rw [h.holdByNumber hhold] at hhold'
      contradiction
    · obtain rfl := Except.ok.inj ((precedences_eq h.sound).symm.trans harcs)
      rcases Graph.firstCycle?_part h.graph (closedUnder_after h.sound harcs)
        (closedUnder_after h.sound_part harcs') h.registry.ids_eq p.registry.ids_nodup
        q.registry.ids_nodup with ⟨cycle', hcycle', -⟩ | hpart
      · rw [hnone] at hcycle'
        contradiction
      · rw [hnone, hcycle] at hpart
        contradiction

/-- A run on the whole plan has a run on the part inside it. At the end both are
reordered, each for itself. -/
theorem orderWithin : ∀ {turns : Nat} {q p p' : Plan}, Part g q p →
    Plan.orderWithin turns p = .ok p' →
    ∃ turns' q', Plan.orderWithin turns' q = .ok q' ∧ Reshuffled g q' p'
  | 0, _, _, _, _, hrun => by contradiction
  | turns + 1, q, p, p', h, hrun => by
    rcases orderWithin_succ_iff.mp hrun with hend | ⟨p₁, hturn, hrun⟩
    · obtain ⟨q', hend', h'⟩ := h.orderEnd hend
      exact ⟨1, q', orderWithin_succ_iff.mpr (.inl hend'), h'⟩
    · rcases h.orderTurn hturn with h' | ⟨q₁, hturn', h'⟩
      · exact orderWithin h' hrun
      · obtain ⟨turns', q', hrun', h''⟩ := orderWithin h' hrun
        exact ⟨turns' + 1, q', orderWithin_succ_iff.mpr (.inr ⟨q₁, hturn', hrun'⟩), h''⟩

/-- Bringing all paths into order leaves the part with the cuts that it would have on its own. -/
theorem order (h : Part g q p) : Together q.order p.order (Reshuffled g) := by
  obtain ⟨p', hp', -⟩ := order_total h.sound
  obtain ⟨q', hq', -⟩ := order_total h.sound_part
  obtain ⟨turns, q₁, hrun, h'⟩ := h.orderWithin hp'
  have hmore := orderWithin_mono (Nat.le_max_left turns q.orderBound) hrun
  have hmore' := orderWithin_mono (Nat.le_max_right turns q.orderBound) hq'
  obtain rfl := Except.ok.inj (hmore.symm.trans hmore')
  exact ⟨q₁, p', hq', hp', h'⟩

end Part

end Plan

end QubitRouting
