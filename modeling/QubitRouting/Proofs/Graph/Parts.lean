import QubitRouting.Proofs.Graph.DepthFirst

/-!
# Depth-first search on a part of a graph

Where no arc leads into or out of a part of a graph, the search on the whole graph does on the part what a
search on the part alone would do. The part is given as a graph of its own, whose vertices are renamed
(`PartOf`). `latestFirst_part` says it of the order of leaving, and `firstCycle?_part` of the cycle that is
found first: it is outside the part, or the one that the part alone shows first.

`visit` counts down a depth, which is another one for the part. `Walks` is the same search without the
count, and the comparison is an induction on it (`Walks.part`). It also shows that the search meets nothing
but what is reached, so that on a graph without cycles it finds none (`firstCycle?_of_acyclic`).
-/

namespace QubitRouting.Graph

variable {succ succ' : Nat → List Nat} {vertices vertices' : List Nat}

/-! ## The search without a bound -/

/-- Visiting the listed vertices one after the other leads from the first trail to the second. -/
inductive Walks (succ : Nat → List Nat) : Trail → List Nat → Trail → Prop where
  | done (t : Trail) : Walks succ t [] t
  | skip {t t' : Trail} {v : Nat} {vs : List Nat} (hv : v ∈ t.seen) (h : Walks succ t vs t') :
      Walks succ t (v :: vs) t'
  | enter {t t₁ t' : Trail} {v : Nat} {vs : List Nat} (hv : v ∉ t.seen)
      (hsucc : Walks succ { t with seen := v :: t.seen } (succ v) t₁)
      (h : Walks succ { t₁ with left := v :: t₁.left } vs t') : Walks succ t (v :: vs) t'

theorem Walks.unique {t t₁ t₂ : Trail} {vs : List Nat} (h₁ : Walks succ t vs t₁)
    (h₂ : Walks succ t vs t₂) : t₁ = t₂ := by
  induction h₁ generalizing t₂ with
  | done t =>
    cases h₂
    rfl
  | skip hv _ ih =>
    cases h₂ with
    | skip _ h => exact ih h
    | enter hv' => exact absurd hv hv'
  | enter hv _ _ ihsucc ih =>
    cases h₂ with
    | skip hv' => exact absurd hv' hv
    | enter _ hsucc h =>
      obtain rfl := ihsucc hsucc
      exact ih h

/-- With room for all vertices that are not met yet, the bound on the depth is never felt. -/
theorem walks_foldl_visit (hclosed : ClosedUnder succ vertices) : ∀ (depth : Nat) (vs : List Nat)
    (t : Trail), t.OnVertices vertices → vs ⊆ vertices → vertices.length ≤ t.seen.length + depth →
    Walks succ t vs (vs.foldl (visit succ depth) t) := by
  intro depth
  induction depth with
  | zero =>
    intro vs
    induction vs with
    | nil => exact fun t _ _ _ => .done t
    | cons v vs ih =>
      intro t ht hvs hroom
      have hv : v ∈ t.seen := ht.mem_seen hroom (hvs List.mem_cons_self)
      exact .skip hv (ih t ht (fun x hx => hvs (List.mem_cons_of_mem v hx)) hroom)
  | succ depth ihdepth =>
    intro vs
    induction vs with
    | nil => exact fun t _ _ _ => .done t
    | cons v vs ih =>
      intro t ht hvs hroom
      have hv : v ∈ vertices := hvs List.mem_cons_self
      have hrest : vs ⊆ vertices := fun x hx => hvs (List.mem_cons_of_mem v hx)
      obtain ⟨hvisit, -⟩ := visit_explored hclosed (depth + 1) t v ht hv hroom
      have hlen := hvisit.length_le ht
      have hwalk := ih (visit succ (depth + 1) t v) hvisit.onVertices hrest (by omega)
      rw [List.foldl_cons]
      by_cases hmem : v ∈ t.seen
      · have hstay : visit succ (depth + 1) t v = t := if_pos (List.contains_iff_mem.mpr hmem)
        rw [hstay] at hwalk ⊢
        exact .skip hmem hwalk
      · have hgo : visit succ (depth + 1) t v = _ := if_neg fun h => hmem (List.contains_iff_mem.mp h)
        rw [hgo] at hwalk ⊢
        refine .enter hmem (ihdepth (succ v) _ (ht.enter hv hmem) (hclosed v hv) ?_) hwalk
        simp only [List.length_cons]
        omega

theorem walks_search (hclosed : ClosedUnder succ vertices) :
    Walks succ ⟨[], []⟩ vertices (vertices.foldl (visit succ vertices.length) ⟨[], []⟩) :=
  walks_foldl_visit hclosed _ vertices _ onVertices_nil (List.Subset.refl _) (by simp)

theorem walks_reached (hclosed : ClosedUnder succ vertices) {v : Nat} (hv : v ∈ vertices) :
    Walks succ ⟨[], []⟩ [v] (visit succ vertices.length ⟨[], []⟩ v) :=
  walks_foldl_visit hclosed _ [v] _ onVertices_nil (List.cons_subset.mpr ⟨hv, List.nil_subset _⟩) (by simp)

/-- What is met on the way is reached from a vertex that was visited. -/
theorem Walks.reaches {t t' : Trail} {vs : List Nat} (h : Walks succ t vs t') :
    ∀ x ∈ t'.seen, x ∈ t.seen ∨ ∃ v ∈ vs, Reaches succ v x := by
  induction h with
  | done t => exact fun x hx => .inl hx
  | skip _ _ ih =>
    intro x hx
    rcases ih x hx with hx | ⟨w, hw, hwx⟩
    · exact .inl hx
    · exact .inr ⟨w, List.mem_cons_of_mem _ hw, hwx⟩
  | @enter t t₁ t' v vs hv _ _ ihsucc ih =>
    intro x hx
    rcases ih x hx with hx | ⟨w, hw, hwx⟩
    · rcases ihsucc x hx with hx | ⟨w, hw, hwx⟩
      · rcases List.mem_cons.mp hx with rfl | hx
        · exact .inr ⟨x, List.mem_cons_self, .refl⟩
        · exact .inl hx
      · exact .inr ⟨v, List.mem_cons_self, .head hw hwx⟩
    · exact .inr ⟨w, List.mem_cons_of_mem _ hw, hwx⟩

theorem reaches_of_mem_reached (hclosed : ClosedUnder succ vertices) {v w : Nat} (hv : v ∈ vertices)
    (h : w ∈ reached succ vertices.length v) : Reaches succ v w := by
  rcases (walks_reached hclosed hv).reaches w h with hnil | ⟨u, hu, huw⟩
  · exact absurd hnil List.not_mem_nil
  · rwa [List.mem_singleton.mp hu] at huw

/-! ## Inside and outside the part -/

/-- The graph `succ'` is a part of the graph `succ`: `f` gives its vertices the names that they have there,
`inPart` tells these names from others, and no arc joins the part with the rest. -/
structure PartOf (f : Nat → Nat) (inPart : Nat → Bool) (succ' succ : Nat → List Nat) : Prop where
  injective : Function.Injective f
  inPart_iff : ∀ v, inPart v = true ↔ ∃ u, f u = v
  inside : ∀ u, succ (f u) = (succ' u).map f
  outside : ∀ v, inPart v = false → ∀ w ∈ succ v, inPart w = false

variable {f : Nat → Nat} {inPart : Nat → Bool}

namespace PartOf

theorem inPart_apply (h : PartOf f inPart succ' succ) (u : Nat) : inPart (f u) = true :=
  (h.inPart_iff _).mpr ⟨u, rfl⟩

theorem filter_inside (h : PartOf f inPart succ' succ) (u : Nat) :
    (succ (f u)).filter inPart = (succ' u).map f := by
  rw [h.inside, List.filter_eq_self]
  intro w hw
  obtain ⟨u', -, rfl⟩ := List.mem_map.mp hw
  exact h.inPart_apply u'

theorem filter_outside (h : PartOf f inPart succ' succ) {v : Nat} (hv : inPart v = false) :
    (succ v).filter inPart = [] :=
  List.filter_eq_nil_iff.mpr fun w hw => by simp [h.outside v hv w hw]

end PartOf

/-- What is on the trail of the part, under its names in the whole graph, is what is in the part on the
trail of the whole graph. -/
structure Trail.PartOf (f : Nat → Nat) (inPart : Nat → Bool) (t' t : Trail) : Prop where
  seen_eq : t.seen.filter inPart = t'.seen.map f
  left_eq : t.left.filter inPart = t'.left.map f

theorem Trail.partOf_nil : Trail.PartOf f inPart ⟨[], []⟩ ⟨[], []⟩ :=
  ⟨rfl, rfl⟩

theorem mem_of_filter_eq_map (hf : Function.Injective f) (hin : ∀ u, inPart (f u) = true)
    {l l' : List Nat} (h : l.filter inPart = l'.map f) {u : Nat} : f u ∈ l ↔ u ∈ l' := by
  rw [← List.mem_map_of_injective (l := l') hf, ← h, List.mem_filter]
  exact ⟨fun hu => ⟨hu, hin u⟩, And.left⟩

/-- Searching the whole graph is searching the part, as far as the part can tell. -/
theorem Walks.part (h : PartOf f inPart succ' succ) {t t₁ : Trail} {vs : List Nat}
    (hw : Walks succ t vs t₁) : ∀ {s : Trail} (us : List Nat), Trail.PartOf f inPart s t →
    vs.filter inPart = us.map f → ∃ s₁, Walks succ' s us s₁ ∧ Trail.PartOf f inPart s₁ t₁ := by
  induction hw with
  | done t =>
    intro s us ht hvs
    obtain rfl := List.map_eq_nil_iff.mp hvs.symm
    exact ⟨s, .done s, ht⟩
  | @skip t t' v vs hv _ ih =>
    intro s us ht hvs
    cases hpart : inPart v with
    | false =>
      rw [List.filter_cons_of_neg (by simp [hpart])] at hvs
      exact ih us ht hvs
    | true =>
      rw [List.filter_cons_of_pos hpart] at hvs
      obtain ⟨u, us, rfl, rfl, htail⟩ := List.map_eq_cons_iff.mp hvs.symm
      obtain ⟨s₁, hs₁, ht₁⟩ := ih us ht htail.symm
      exact ⟨s₁, .skip ((mem_of_filter_eq_map h.injective h.inPart_apply ht.seen_eq).mp hv) hs₁, ht₁⟩
  | @enter t t₁ t' v vs hv _ _ ihsucc ih =>
    intro s us ht hvs
    cases hpart : inPart v with
    | false =>
      -- nothing of the part is met from here, so its trail stays where it is
      have hneg : ¬ inPart v = true := by simp [hpart]
      rw [List.filter_cons_of_neg hneg] at hvs
      have ht' : Trail.PartOf f inPart s { t with seen := v :: t.seen } :=
        ⟨by rw [List.filter_cons_of_neg hneg]; exact ht.seen_eq, ht.left_eq⟩
      obtain ⟨s₁, hs₁, ht₁⟩ := ihsucc [] ht' (h.filter_outside hpart)
      cases hs₁
      refine ih us ⟨ht₁.seen_eq, ?_⟩ hvs
      rw [List.filter_cons_of_neg hneg]
      exact ht₁.left_eq
    | true =>
      rw [List.filter_cons_of_pos hpart] at hvs
      obtain ⟨u, us, rfl, rfl, htail⟩ := List.map_eq_cons_iff.mp hvs.symm
      have hu : u ∉ s.seen := fun hu =>
        hv ((mem_of_filter_eq_map h.injective h.inPart_apply ht.seen_eq).mpr hu)
      have ht' : Trail.PartOf f inPart { s with seen := u :: s.seen } { t with seen := f u :: t.seen } :=
        ⟨by rw [List.filter_cons_of_pos hpart, ht.seen_eq, List.map_cons], ht.left_eq⟩
      obtain ⟨s₁, hs₁, ht₁⟩ := ihsucc (succ' u) ht' (h.filter_inside u)
      have ht₁' : Trail.PartOf f inPart { s₁ with left := u :: s₁.left } { t₁ with left := f u :: t₁.left } :=
        ⟨ht₁.seen_eq, by rw [List.filter_cons_of_pos hpart, ht₁.left_eq, List.map_cons]⟩
      obtain ⟨s₂, hs₂, ht₂⟩ := ih us ht₁' htail.symm
      exact ⟨s₂, .enter hu hs₁ hs₂, ht₂⟩

/-! ## Order of leaving and cycles -/

section Part

variable (h : PartOf f inPart succ' succ) (hclosed : ClosedUnder succ vertices)
  (hclosed' : ClosedUnder succ' vertices') (hvertices : vertices.filter inPart = vertices'.map f)
include h hclosed hclosed' hvertices

/-- The part is left in the order in which it would be left on its own. -/
theorem latestFirst_part :
    (latestFirst succ vertices).filter inPart = (latestFirst succ' vertices').map f := by
  obtain ⟨s, hs, hpart⟩ := (walks_search hclosed).part h vertices' Trail.partOf_nil hvertices
  obtain rfl := hs.unique (walks_search hclosed')
  exact hpart.left_eq

theorem mem_reached_part {u w : Nat} (hu : u ∈ vertices') :
    f w ∈ reached succ vertices.length (f u) ↔ w ∈ reached succ' vertices'.length u := by
  have hfu : f u ∈ vertices := (mem_of_filter_eq_map h.injective h.inPart_apply hvertices).mpr hu
  obtain ⟨s, hs, hpart⟩ := (walks_reached hclosed hfu).part h [u] Trail.partOf_nil
    (by rw [List.filter_cons_of_pos (h.inPart_apply u)]; rfl)
  obtain rfl := hs.unique (walks_reached hclosed' hu)
  exact mem_of_filter_eq_map h.injective h.inPart_apply hpart.seen_eq

omit hclosed' hvertices in
theorem inPart_of_mem_reached {v w : Nat} (hv : v ∈ vertices) (hw : inPart w = true)
    (hmem : w ∈ reached succ vertices.length v) : inPart v = true := by
  by_contra hpart
  rw [Bool.not_eq_true] at hpart
  obtain ⟨s, hs, hout⟩ := (walks_reached hclosed hv).part h [] Trail.partOf_nil
    (by rw [List.filter_cons_of_neg (by simp [hpart])]; rfl)
  cases hs
  have hnil : w ∈ (reached succ vertices.length v).filter inPart := List.mem_filter.mpr ⟨hmem, hw⟩
  rw [reached, hout.seen_eq] at hnil
  exact List.not_mem_nil hnil

/-- A component with a vertex of the part is a component of the part. -/
theorem component_part {u : Nat} (hu : u ∈ vertices') :
    component succ vertices (f u) = (component succ' vertices' u).map f := by
  have hinside : ∀ w ∈ component succ vertices (f u), inPart w = true := by
    intro w hw
    obtain ⟨hw, -, hback⟩ := mem_component_iff.mp hw
    exact inPart_of_mem_reached h hclosed hw (h.inPart_apply u) hback
  rw [← List.filter_eq_self.mpr hinside]
  unfold component
  rw [List.filter_comm, hvertices, List.filter_map]
  refine congrArg (List.map f) (List.filter_congr fun w hw => ?_)
  rw [Bool.eq_iff_iff]
  simp only [Function.comp_apply, Bool.and_eq_true, List.contains_iff_mem,
    mem_reached_part h hclosed hclosed' hvertices hu, mem_reached_part h hclosed hclosed' hvertices hw]

omit hclosed' hvertices in
theorem inPart_component {v w : Nat} (hv : v ∈ vertices) (hpart : inPart v = false)
    (hw : w ∈ component succ vertices v) : inPart w = false := by
  obtain ⟨-, hahead, -⟩ := mem_component_iff.mp hw
  rw [Bool.eq_false_iff]
  intro hw
  rw [inPart_of_mem_reached h hclosed hv hw hahead] at hpart
  contradiction

theorem any_component_part {u : Nat} (hu : u ∈ vertices') {later later' : List Nat}
    (hlater : later.filter inPart = later'.map f) :
    later.any (component succ vertices (f u)).contains =
      later'.any (component succ' vertices' u).contains := by
  rw [component_part h hclosed hclosed' hvertices hu, Bool.eq_iff_iff, List.any_eq_true, List.any_eq_true]
  constructor
  · rintro ⟨w, hw, hmem⟩
    obtain ⟨u', hu', rfl⟩ := List.mem_map.mp (List.contains_iff_mem.mp hmem)
    exact ⟨u', (mem_of_filter_eq_map h.injective h.inPart_apply hlater).mp hw,
      List.contains_iff_mem.mpr hu'⟩
  · rintro ⟨u', hu', hmem⟩
    exact ⟨f u', (mem_of_filter_eq_map h.injective h.inPart_apply hlater).mpr hu',
      List.contains_iff_mem.mpr (List.mem_map_of_mem (List.contains_iff_mem.mp hmem))⟩

/-- The first cycle that is closed along a list is outside the part, or it is the first one of the part. -/
theorem closedCycle?_part : ∀ {l l' : List Nat}, l ⊆ vertices → l' ⊆ vertices' →
    l.filter inPart = l'.map f →
    (∃ cycle, closedCycle? succ vertices l = some cycle ∧ ∀ v ∈ cycle, inPart v = false) ∨
      closedCycle? succ vertices l = (closedCycle? succ' vertices' l').map (List.map f)
  | [], l', _, _, hl => by
    obtain rfl := List.map_eq_nil_iff.mp hl.symm
    exact .inr rfl
  | v :: later, l', hsub, hsub', hl => by
    have hv : v ∈ vertices := hsub List.mem_cons_self
    have hrest : later ⊆ vertices := fun x hx => hsub (List.mem_cons_of_mem v hx)
    cases hpart : inPart v with
    | false =>
      rw [List.filter_cons_of_neg (by simp [hpart])] at hl
      simp only [closedCycle?]
      split
      next => exact .inl ⟨_, rfl, fun w hw => inPart_component h hclosed hv hpart hw⟩
      next => exact closedCycle?_part hrest hsub' hl
    | true =>
      rw [List.filter_cons_of_pos hpart] at hl
      obtain ⟨u, later', rfl, rfl, htail⟩ := List.map_eq_cons_iff.mp hl.symm
      have hu : u ∈ vertices' := hsub' List.mem_cons_self
      simp only [closedCycle?]
      rw [any_component_part h hclosed hclosed' hvertices hu htail.symm,
        component_part h hclosed hclosed' hvertices hu, List.length_map]
      split
      next => exact .inr rfl
      next => exact closedCycle?_part hrest (fun x hx => hsub' (List.mem_cons_of_mem u hx)) htail.symm

/-- The cycle that is found first is outside the part, or it is the one that the part alone shows first. -/
theorem firstCycle?_part (hnodup : vertices.Nodup) (hnodup' : vertices'.Nodup) :
    (∃ cycle, firstCycle? succ vertices = some cycle ∧ ∀ v ∈ cycle, inPart v = false) ∨
      firstCycle? succ vertices = (firstCycle? succ' vertices').map (List.map f) := by
  have hperm := latestFirst_perm hnodup hclosed
  have hperm' := latestFirst_perm hnodup' hclosed'
  refine closedCycle?_part h hclosed hclosed' hvertices
    (fun x hx => hperm.mem_iff.mp (List.mem_reverse.mp hx))
    (fun x hx => hperm'.mem_iff.mp (List.mem_reverse.mp hx)) ?_
  rw [List.filter_reverse, latestFirst_part h hclosed hclosed' hvertices, List.map_reverse]

end Part

/-! ## Graphs without cycles -/

/-- On a graph without cycles a vertex is a component of its own. -/
theorem length_component_of_acyclic (hclosed : ClosedUnder succ vertices) (hnodup : vertices.Nodup)
    (hacyclic : Acyclic succ vertices) {v : Nat} (hv : v ∈ vertices) :
    (component succ vertices v).length ≤ 1 := by
  have hsub : component succ vertices v ⊆ [v] := by
    intro w hw
    obtain ⟨hw, hahead, hback⟩ := mem_component_iff.mp hw
    have hvw := reaches_of_mem_reached hclosed hv hahead
    have hwv := reaches_of_mem_reached hclosed hw hback
    -- the first arc on the way to another vertex would be part of a cycle
    rcases hvw.cases_head with rfl | ⟨u, hu, huw⟩
    · exact List.mem_cons_self
    · exact absurd (huw.trans hwv) (hacyclic v hv u hu)
  exact (List.subperm_of_subset (hnodup.filter _) hsub).length_le

/-- If there is no cycle the search finds none. -/
theorem firstCycle?_of_acyclic (hclosed : ClosedUnder succ vertices) (hnodup : vertices.Nodup)
    (hacyclic : Acyclic succ vertices) : firstCycle? succ vertices = none := by
  have hnone : ∀ l ⊆ vertices, closedCycle? succ vertices l = none := by
    intro l
    induction l with
    | nil => exact fun _ => rfl
    | cons v later ih =>
      intro hl
      have hlen := length_component_of_acyclic hclosed hnodup hacyclic (hl List.mem_cons_self)
      simp only [closedCycle?]
      rw [if_neg (by simp; omega)]
      exact ih fun x hx => hl (List.mem_cons_of_mem v hx)
  have hperm := latestFirst_perm hnodup hclosed
  exact hnone _ fun x hx => hperm.mem_iff.mp (List.mem_reverse.mp hx)

theorem le_of_reaches (hlt : ∀ v, ∀ w ∈ succ v, v < w) {v w : Nat} (h : Reaches succ v w) : v ≤ w := by
  induction h with
  | refl => exact Nat.le_refl v
  | tail _ hxw ih => exact Nat.le_trans ih (Nat.le_of_lt (hlt _ _ hxw))

/-- If all arcs lead to larger vertices there is no cycle to be found. -/
theorem firstCycle?_eq_none (hclosed : ClosedUnder succ vertices) (hnodup : vertices.Nodup)
    (hlt : ∀ v, ∀ w ∈ succ v, v < w) : firstCycle? succ vertices = none := by
  refine firstCycle?_of_acyclic hclosed hnodup fun v _ w hw hback => ?_
  exact Nat.not_le_of_lt (hlt v w hw) (le_of_reaches hlt hback)

end QubitRouting.Graph
