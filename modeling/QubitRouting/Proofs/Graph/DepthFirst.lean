import QubitRouting.Graph.DepthFirst
import Mathlib.Data.List.Nodup
import Mathlib.Data.List.Perm.Subperm
import Mathlib.Logic.Relation

/-!
# Depth-first search visits everything, and leaves it in order

`Explored t t'` says what a piece of the search does to the trail: nothing is forgotten, everything met
on the way has its successors met too, and exactly the new vertices are left. One visit gives it
(`visit_explored`), and it composes, so a whole search gives it too.

Two results are drawn from it.

* `latestFirst_perm`: every vertex is left exactly once.
* `latestFirst_topological`: if the search finds no cycle, every arc points from an earlier to a later
  entry of `latestFirst`. A vertex that is met and not yet left reaches the current one, so an arc back
  to it would close a cycle.
-/

namespace QubitRouting.Graph

/-- There is a walk along arcs from one vertex to another. -/
abbrev Reaches (succ : Nat → List Nat) : Nat → Nat → Prop :=
  Relation.ReflTransGen fun v w => w ∈ succ v

/-- Each entry has all its successors behind it. -/
def Topological (succ : Nat → List Nat) : List Nat → Prop
  | [] => True
  | v :: rest => (∀ w ∈ succ v, w ∈ rest) ∧ Topological succ rest

/-- A trail on the given vertices: nothing is met or left twice, and only what was met is left. -/
structure Trail.OnVertices (vertices : List Nat) (t : Trail) : Prop where
  seen_nodup : t.seen.Nodup
  seen_subset : t.seen ⊆ vertices
  left_nodup : t.left.Nodup
  left_subset : t.left ⊆ t.seen

/-- What a piece of the search does to a trail. -/
structure Explored (succ : Nat → List Nat) (vertices : List Nat) (t t' : Trail) : Prop where
  onVertices : t'.OnVertices vertices
  seen_subset : t.seen ⊆ t'.seen
  closed : ∀ x ∈ t'.seen, x ∈ t.seen ∨ ∀ w ∈ succ x, w ∈ t'.seen
  mem_left_iff : ∀ x, x ∈ t'.left ↔ x ∈ t.left ∨ x ∈ t'.seen ∧ x ∉ t.seen

/-- A graph on `vertices`: arcs do not lead out of it. -/
def ClosedUnder (succ : Nat → List Nat) (vertices : List Nat) : Prop :=
  ∀ v ∈ vertices, ∀ w ∈ succ v, w ∈ vertices

variable {succ : Nat → List Nat} {vertices : List Nat}

namespace Explored

theorem refl {t : Trail} (h : t.OnVertices vertices) : Explored succ vertices t t where
  onVertices := h
  seen_subset := List.Subset.refl _
  closed := fun _ hx => .inl hx
  mem_left_iff := fun x => by tauto

theorem trans {t₁ t₂ t₃ : Trail} (h₁ : Explored succ vertices t₁ t₂)
    (h₂ : Explored succ vertices t₂ t₃) : Explored succ vertices t₁ t₃ where
  onVertices := h₂.onVertices
  seen_subset := List.Subset.trans h₁.seen_subset h₂.seen_subset
  closed := by
    intro x hx
    rcases h₂.closed x hx with hx₂ | hw
    · rcases h₁.closed x hx₂ with hx₁ | hw
      · exact .inl hx₁
      · exact .inr fun w hxw => h₂.seen_subset (hw w hxw)
    · exact .inr hw
  mem_left_iff := by
    intro x
    have hsub := @h₂.seen_subset x
    have hsub₁ := @h₁.seen_subset x
    rw [h₂.mem_left_iff, h₁.mem_left_iff]
    tauto

/-- The vertices that are met and not left are the same before and after. -/
theorem pending_iff {t t' : Trail} (h : Explored succ vertices t t')
    (ht : t.OnVertices vertices) (x : Nat) :
    (x ∈ t'.seen ∧ x ∉ t'.left) ↔ (x ∈ t.seen ∧ x ∉ t.left) := by
  have hsub := @h.seen_subset x
  have hleft := @ht.left_subset x
  rw [h.mem_left_iff]
  tauto

theorem length_le {t t' : Trail} (h : Explored succ vertices t t')
    (ht : t.OnVertices vertices) : t.seen.length ≤ t'.seen.length :=
  (List.subperm_of_subset ht.seen_nodup h.seen_subset).length_le

end Explored

/-! ## One visit -/

/-- Visits one after the other, if a single one explores. -/
theorem foldl_visit_explored {depth : Nat}
    (hvisit : ∀ (t : Trail) (v : Nat), t.OnVertices vertices → v ∈ vertices →
      vertices.length ≤ t.seen.length + depth →
      Explored succ vertices t (visit succ depth t v) ∧ v ∈ (visit succ depth t v).seen) :
    ∀ (ws : List Nat) (t : Trail), t.OnVertices vertices → ws ⊆ vertices →
      vertices.length ≤ t.seen.length + depth →
      Explored succ vertices t (ws.foldl (visit succ depth) t) ∧
        ws ⊆ (ws.foldl (visit succ depth) t).seen := by
  intro ws
  induction ws with
  | nil => exact fun t ht _ _ => ⟨.refl ht, List.nil_subset _⟩
  | cons w ws ih =>
    intro t ht hws hroom
    obtain ⟨hw, hmem⟩ := hvisit t w ht (hws List.mem_cons_self) hroom
    have hlen := hw.length_le ht
    obtain ⟨hrest, hsub⟩ := ih (visit succ depth t w) hw.onVertices
      (fun x hx => hws (List.mem_cons_of_mem w hx)) (by omega)
    refine ⟨hw.trans hrest, ?_⟩
    intro x hx
    rcases List.mem_cons.mp hx with rfl | hx
    · exact hrest.seen_subset hmem
    · exact hsub hx

/-- If the trail has met as many vertices as there are, it has met all. -/
theorem Trail.OnVertices.mem_seen {t : Trail} (ht : t.OnVertices vertices)
    (hlen : vertices.length ≤ t.seen.length) {v : Nat} (hv : v ∈ vertices) : v ∈ t.seen :=
  ((List.subperm_of_subset ht.seen_nodup ht.seen_subset).perm_of_length_le hlen).mem_iff.mpr hv

/-- Putting a vertex on the trail keeps the trail on the vertices. -/
theorem Trail.OnVertices.enter {t : Trail} (ht : t.OnVertices vertices) {v : Nat}
    (hv : v ∈ vertices) (hnew : v ∉ t.seen) :
    Trail.OnVertices vertices { t with seen := v :: t.seen } where
  seen_nodup := List.nodup_cons.mpr ⟨hnew, ht.seen_nodup⟩
  seen_subset := List.cons_subset.mpr ⟨hv, ht.seen_subset⟩
  left_nodup := ht.left_nodup
  left_subset := fun _ hx => List.mem_cons_of_mem v (ht.left_subset hx)

/-- What the search from `v` does between meeting and leaving it, together with both. -/
theorem Explored.leave {t t' : Trail} {v : Nat} (ht : t.OnVertices vertices) (hnew : v ∉ t.seen)
    (h : Explored succ vertices { t with seen := v :: t.seen } t')
    (hsucc : ∀ w ∈ succ v, w ∈ t'.seen) :
    Explored succ vertices t { t' with left := v :: t'.left } := by
  have hv : v ∈ t'.seen := h.seen_subset List.mem_cons_self
  have hleft : v ∉ t'.left := by
    rw [h.mem_left_iff]
    intro hcase
    rcases hcase with hmem | ⟨-, hmem⟩
    · exact hnew (ht.left_subset hmem)
    · exact hmem List.mem_cons_self
  refine ⟨⟨h.onVertices.seen_nodup, h.onVertices.seen_subset, ?_, ?_⟩, ?_, ?_, ?_⟩
  · exact List.nodup_cons.mpr ⟨hleft, h.onVertices.left_nodup⟩
  · exact List.cons_subset.mpr ⟨hv, h.onVertices.left_subset⟩
  · exact fun x hx => h.seen_subset (List.mem_cons_of_mem v hx)
  · intro x hx
    rcases h.closed x hx with hmem | hw
    · rcases List.mem_cons.mp hmem with rfl | hmem
      · exact .inr hsucc
      · exact .inl hmem
    · exact .inr hw
  · intro x
    have hx := h.mem_left_iff x
    simp only [List.mem_cons, not_or] at hx ⊢
    by_cases hxv : x = v
    · subst hxv
      tauto
    · tauto

/-- A visit explores, and meets its vertex. The number of vertices bounds the depth: each nested visit
has met one vertex more. -/
theorem visit_explored (hclosed : ClosedUnder succ vertices) :
    ∀ (depth : Nat) (t : Trail) (v : Nat), t.OnVertices vertices → v ∈ vertices →
      vertices.length ≤ t.seen.length + depth →
      Explored succ vertices t (visit succ depth t v) ∧ v ∈ (visit succ depth t v).seen := by
  intro depth
  induction depth with
  | zero =>
    intro t v ht hv hroom
    exact ⟨.refl ht, ht.mem_seen hroom hv⟩
  | succ depth ih =>
    intro t v ht hv hroom
    unfold visit
    split
    next hmem => exact ⟨.refl ht, List.contains_iff_mem.mp hmem⟩
    next hmem =>
      have hnew : v ∉ t.seen := fun h => hmem (List.contains_iff_mem.mpr h)
      obtain ⟨hfold, hsucc⟩ := foldl_visit_explored ih (succ v) { t with seen := v :: t.seen }
        (ht.enter hv hnew) (hclosed v hv) (by simp only [List.length_cons]; omega)
      exact ⟨hfold.leave ht hnew hsucc, hfold.seen_subset List.mem_cons_self⟩

/-- The empty trail. -/
theorem onVertices_nil : Trail.OnVertices vertices ⟨[], []⟩ where
  seen_nodup := List.nodup_nil
  seen_subset := List.nil_subset _
  left_nodup := List.nodup_nil
  left_subset := List.nil_subset _

/-- A whole search explores, and meets every vertex. -/
theorem search_explored (hclosed : ClosedUnder succ vertices) :
    Explored succ vertices ⟨[], []⟩ (vertices.foldl (visit succ vertices.length) ⟨[], []⟩) ∧
      vertices ⊆ (vertices.foldl (visit succ vertices.length) ⟨[], []⟩).seen :=
  foldl_visit_explored (visit_explored hclosed vertices.length) vertices ⟨[], []⟩
    onVertices_nil (List.Subset.refl _) (by simp)

/-- Every vertex is left exactly once. -/
theorem latestFirst_perm (hnodup : vertices.Nodup) (hclosed : ClosedUnder succ vertices) :
    (latestFirst succ vertices).Perm vertices := by
  obtain ⟨h, hall⟩ := search_explored hclosed
  refine (List.perm_ext_iff_of_nodup h.onVertices.left_nodup hnodup).mpr fun x => ?_
  constructor
  · exact fun hx => h.onVertices.seen_subset (h.onVertices.left_subset hx)
  · exact fun hx => (h.mem_left_iff x).mpr (.inr ⟨hall hx, List.not_mem_nil⟩)

/-! ## Without cycles, leaving is in order -/

/-- No arc is part of a cycle. -/
def Acyclic (succ : Nat → List Nat) (vertices : List Nat) : Prop :=
  ∀ v ∈ vertices, ∀ w ∈ succ v, ¬ Reaches succ w v

/-- A visit keeps the order of leaving, if every vertex on the way to `v` reaches it. -/
theorem visit_topological (hclosed : ClosedUnder succ vertices) (hacyclic : Acyclic succ vertices) :
    ∀ (depth : Nat) (t : Trail) (v : Nat), t.OnVertices vertices → v ∈ vertices →
      vertices.length ≤ t.seen.length + depth →
      (∀ g ∈ t.seen, g ∉ t.left → Reaches succ g v) → Topological succ t.left →
      Topological succ (visit succ depth t v).left := by
  intro depth
  induction depth with
  | zero => exact fun t v _ _ _ _ htop => htop
  | succ depth ih =>
    intro t v ht hv hroom hpending htop
    unfold visit
    split
    next => exact htop
    next hmem =>
      have hnew : v ∉ t.seen := fun h => hmem (List.contains_iff_mem.mpr h)
      have henter := ht.enter hv hnew
      have hroom' : vertices.length ≤ (v :: t.seen).length + depth := by
        simp only [List.length_cons]
        omega
      -- the vertices on the way, with `v`, reach whatever `v` leads to
      have hway : ∀ g ∈ v :: t.seen, g ∉ t.left → Reaches succ g v := by
        intro g hg hgl
        rcases List.mem_cons.mp hg with rfl | hg
        · exact .refl
        · exact hpending g hg hgl
      have hfold : ∀ (ws : List Nat) (t₁ : Trail), ws ⊆ succ v →
          Explored succ vertices { t with seen := v :: t.seen } t₁ → Topological succ t₁.left →
          Topological succ (ws.foldl (visit succ depth) t₁).left := by
        intro ws
        induction ws with
        | nil => exact fun t₁ _ _ htop₁ => htop₁
        | cons w ws ihw =>
          intro t₁ hws h₁ htop₁
          have hlen := h₁.length_le henter
          have hw : w ∈ succ v := hws List.mem_cons_self
          have hroom₁ : vertices.length ≤ t₁.seen.length + depth :=
            Nat.le_trans hroom' (Nat.add_le_add_right hlen depth)
          have hvisit := visit_explored hclosed depth t₁ w h₁.onVertices (hclosed v hv w hw) hroom₁
          refine ihw (visit succ depth t₁ w) (fun x hx => hws (List.mem_cons_of_mem w hx))
            (h₁.trans hvisit.1) (ih t₁ w h₁.onVertices (hclosed v hv w hw) hroom₁ ?_ htop₁)
          intro g hg hgl
          -- visiting leaves the same vertices on the way
          obtain ⟨hg₀, hgl₀⟩ := (h₁.pending_iff henter g).mp ⟨hg, hgl⟩
          exact (hway g hg₀ hgl₀).tail hw
      obtain ⟨hexp, hsucc⟩ := foldl_visit_explored (visit_explored hclosed depth) (succ v)
        { t with seen := v :: t.seen } henter (hclosed v hv) hroom'
      refine ⟨fun w hw => ?_, hfold (succ v) _ (List.Subset.refl _) (.refl henter) htop⟩
      -- a successor that is not left yet is on the way to `v`: a cycle
      by_contra hwl
      obtain ⟨hw₀, hwl₀⟩ := (hexp.pending_iff henter w).mp ⟨hsucc hw, hwl⟩
      exact hacyclic v hv w hw (hway w hw₀ hwl₀)

/-- On a graph without cycles every arc points forwards in the order of leaving. -/
theorem latestFirst_topological_of_acyclic (hclosed : ClosedUnder succ vertices)
    (hacyclic : Acyclic succ vertices) : Topological succ (latestFirst succ vertices) := by
  suffices h : ∀ (ws : List Nat) (t : Trail), ws ⊆ vertices →
      Explored succ vertices ⟨[], []⟩ t → Topological succ t.left →
      Topological succ (ws.foldl (visit succ vertices.length) t).left from
    h vertices ⟨[], []⟩ (List.Subset.refl _) (.refl onVertices_nil) trivial
  intro ws
  induction ws with
  | nil => exact fun t _ _ htop => htop
  | cons w ws ih =>
    intro t hws ht htop
    have hw : w ∈ vertices := hws List.mem_cons_self
    have hvisit := visit_explored hclosed vertices.length t w ht.onVertices hw (by omega)
    refine ih _ (fun x hx => hws (List.mem_cons_of_mem w hx)) (ht.trans hvisit.1)
      (visit_topological hclosed hacyclic _ t w ht.onVertices hw (by omega) ?_ htop)
    intro g hg hgl
    obtain ⟨hnil, -⟩ := (ht.pending_iff onVertices_nil g).mp ⟨hg, hgl⟩
    exact absurd hnil List.not_mem_nil

/-! ## Finding a cycle -/

/-- The search from `v` meets everything that `v` reaches. -/
theorem mem_reached (hclosed : ClosedUnder succ vertices) {v w : Nat} (hv : v ∈ vertices)
    (h : Reaches succ v w) : w ∈ reached succ vertices.length v := by
  obtain ⟨hexp, hmem⟩ := visit_explored hclosed vertices.length ⟨[], []⟩ v onVertices_nil hv
    (by simp)
  induction h with
  | refl => exact hmem
  | tail _ hxw ih =>
    rcases hexp.closed _ ih with hnil | hw
    · exact absurd hnil List.not_mem_nil
    · exact hw _ hxw

theorem mem_component_iff {v w : Nat} : w ∈ component succ vertices v ↔
    w ∈ vertices ∧ w ∈ reached succ vertices.length v ∧ v ∈ reached succ vertices.length w := by
  simp [component]

/-- Two vertices that reach each other are in one component, which has both as members. -/
theorem one_lt_length_component (hclosed : ClosedUnder succ vertices) {v w : Nat}
    (hv : v ∈ vertices) (hw : w ∈ component succ vertices v) (hne : v ≠ w) :
    1 < (component succ vertices v).length := by
  have hvv : v ∈ component succ vertices v :=
    mem_component_iff.mpr ⟨hv, mem_reached hclosed hv .refl, mem_reached hclosed hv .refl⟩
  have hsub : [v, w] ⊆ component succ vertices v :=
    List.cons_subset.mpr ⟨hvv, List.cons_subset.mpr ⟨hw, List.nil_subset _⟩⟩
  exact (List.subperm_of_subset (by simp [hne]) hsub).length_le

/-- If no component of several vertices is closed along the list, none has a member in it: the last
member in the list would close it. -/
theorem length_component_le_one (hclosed : ClosedUnder succ vertices) :
    ∀ (l : List Nat), l ⊆ vertices → closedCycle? succ vertices l = none →
      ∀ v ∈ l, (component succ vertices v).length ≤ 1 := by
  intro l
  induction l with
  | nil => exact fun _ _ v hv => absurd hv List.not_mem_nil
  | cons x later ih =>
    intro hl hnone v hv
    simp only [closedCycle?] at hnone
    split at hnone
    next => contradiction
    next hopen =>
      have hlater := ih (fun y hy => hl (List.mem_cons_of_mem x hy)) hnone
      rcases List.mem_cons.mp hv with rfl | hv
      · by_contra hlong
        obtain ⟨y, hy, hmem⟩ : ∃ y ∈ later, y ∈ component succ vertices v := by
          simpa [Nat.lt_of_not_le hlong] using hopen
        by_cases hyv : y = v
        · exact hlong (hyv ▸ hlater y hy)
        · have hmem' := mem_component_iff.mp hmem
          have hback : v ∈ component succ vertices y :=
            mem_component_iff.mpr ⟨hl List.mem_cons_self, hmem'.2.2, hmem'.2.1⟩
          have := one_lt_length_component hclosed hmem'.1 hback hyv
          have := hlater y hy
          omega
      · exact hlater v hv

/-- If the search finds no cycle and no vertex has an arc to itself, there is none. -/
theorem acyclic_of_firstCycle? (hnodup : vertices.Nodup) (hclosed : ClosedUnder succ vertices)
    (hirrefl : ∀ v ∈ vertices, v ∉ succ v) (hnone : firstCycle? succ vertices = none) :
    Acyclic succ vertices := by
  intro v hv w hw hback
  have hperm := latestFirst_perm hnodup hclosed
  have hmem : w ∈ component succ vertices v := by
    refine mem_component_iff.mpr ⟨hclosed v hv w hw, ?_, ?_⟩
    · exact mem_reached hclosed hv (.single hw)
    · exact mem_reached hclosed (hclosed v hv w hw) hback
  have hlong := one_lt_length_component hclosed hv hmem fun h => hirrefl v hv (h ▸ hw)
  have hshort := length_component_le_one hclosed (latestFirst succ vertices).reverse
    (fun x hx => hperm.mem_iff.mp (List.mem_reverse.mp hx)) hnone v
    (List.mem_reverse.mpr (hperm.mem_iff.mpr hv))
  omega

/-- If the search finds no cycle, every arc points forwards in the order of leaving. -/
theorem latestFirst_topological (hnodup : vertices.Nodup) (hclosed : ClosedUnder succ vertices)
    (hirrefl : ∀ v ∈ vertices, v ∉ succ v) (hnone : firstCycle? succ vertices = none) :
    Topological succ (latestFirst succ vertices) :=
  latestFirst_topological_of_acyclic hclosed
    (acyclic_of_firstCycle? hnodup hclosed hirrefl hnone)

/-- A cycle that the search finds is a list of several vertices. -/
theorem mem_of_firstCycle? {cycle : List Nat} (h : firstCycle? succ vertices = some cycle) :
    1 < cycle.length ∧ cycle ⊆ vertices ∧ (vertices.Nodup → cycle.Nodup) := by
  suffices hl : ∀ l, closedCycle? succ vertices l = some cycle →
      1 < cycle.length ∧ cycle ⊆ vertices ∧ (vertices.Nodup → cycle.Nodup) from hl _ h
  intro l
  induction l with
  | nil => exact fun h => absurd h (by simp [closedCycle?])
  | cons x later ih =>
    intro h
    simp only [closedCycle?] at h
    split at h
    next hlong =>
      obtain rfl := Option.some.inj h
      simp only [Bool.and_eq_true, decide_eq_true_eq] at hlong
      exact ⟨hlong.1, List.filter_subset_self _, fun hn => hn.filter _⟩
    next => exact ih h

end QubitRouting.Graph
