import QubitRouting.Graph.Cheapest
import QubitRouting.Proofs.Checked
import QubitRouting.Proofs.Graph.DepthFirst
import Mathlib.Data.List.Chain

/-!
# Searches find simple paths

What a search returns is a path without repetitions from the source to the goal, and if the goal can be
reached there is one (`cheapestPath?_total`). None of this depends on the costs: they may be infinite,
and the order on them need not even be an order. Costs only decide which path it is.

* `Search.Labelled` is the invariant: every label holds a simple path back to the source through
  vertices that are done, and a labelled vertex that is not done has an entry on the heap.
* Relaxing an arc and settling a vertex keep it (`relax_total`, `settle_total`).
* `Search.potential`, the size of the heap plus the arcs out of vertices that are not settled, drops at
  every turn of `run`. It is at most the number of arcs plus one at the start.
-/

namespace QubitRouting.Graph

/-! ## The contents of a heap -/

namespace Heap

theorem swap_perm {S : Type} (h : Heap S) (i j : Nat) : (h.swap i j).entries.Perm h.entries := by
  unfold swap
  rw [Array.swapIfInBounds_def]
  by_cases hi : i < h.entries.size
  · by_cases hj : j < h.entries.size
    · rw [dif_pos hi, dif_pos hj]
      exact Array.swap_perm hi hj
    · rw [dif_pos hi, dif_neg hj]
  · rw [dif_neg hi]

theorem sink_perm {S : Type} [LE S] [DecidableLE S] : ∀ (moves i : Nat) (h : Heap S),
    (sink moves i h).1.entries.Perm h.entries
  | 0, _, _ => .rfl
  | moves + 1, i, h => by
    unfold sink
    split
    next => exact (sink_perm moves _ _).trans (swap_perm h _ _)
    next => exact .rfl

variable {S : Type} [LT S] [DecidableLT S]

theorem rise_perm : ∀ (moves i : Nat) (h : Heap S), (rise moves i h).entries.Perm h.entries
  | 0, _, _ => .rfl
  | moves + 1, i, h => by
    unfold rise
    dsimp only
    split
    next => exact (rise_perm moves _ _).trans (swap_perm h _ _)
    next => exact .rfl

theorem push_perm (h : Heap S) (x : Scored S) : (h.push x).entries.Perm (h.entries.push x) :=
  rise_perm _ _ _

theorem mem_push_iff {h : Heap S} {x e : Scored S} :
    e ∈ (h.push x).entries ↔ e ∈ h.entries ∨ e = x := by
  rw [(push_perm h x).mem_iff, Array.mem_push]

theorem size_push (h : Heap S) (x : Scored S) :
    (h.push x).entries.size = h.entries.size + 1 := by
  rw [(push_perm h x).size_eq, Array.size_push]

variable [LE S] [DecidableLE S]

/-- What is taken off the heap and what is left are what was on it. -/
theorem pop?_perm {h h' : Heap S} {top : Scored S} (hpop : h.pop? = some (top, h')) :
    h.entries.Perm (h'.entries.push top) := by
  unfold pop? at hpop
  split at hpop
  next first last hfirst hlast =>
    obtain ⟨rfl, rfl⟩ := Prod.mk.inj (Option.some.inj hpop)
    -- moving entries around does not matter, so look at the array before sinking and rising
    have hmoved := sink_perm h.entries.pop.size 0 ⟨h.entries.pop.setIfInBounds 0 last⟩
    refine Array.Perm.trans ?_ (((rise_perm _ _ _).trans hmoved).symm.push first)
    rw [Array.perm_iff_toList_perm, Array.toList_push, Array.toList_setIfInBounds, Array.toList_pop]
    have hfirst' : h.entries.toList[0]? = some first := by rwa [Array.getElem?_toList]
    have hlast' : h.entries.toList.getLast? = some last := by rwa [Array.getLast?_toList]
    generalize h.entries.toList = l at hfirst' hlast'
    cases l with
    | nil => simp at hfirst'
    | cons x rest =>
      obtain rfl : x = first := by simpa using hfirst'
      rcases List.eq_nil_or_concat rest with rfl | ⟨mid, y, hrest⟩
      · exact .refl _
      · rw [List.concat_eq_append] at hrest
        subst hrest
        obtain rfl : y = last := by
          rw [← List.cons_append, List.getLast?_concat] at hlast'
          exact Option.some.inj hlast'
        have hdrop : (x :: (mid ++ [y])).dropLast = x :: mid := by
          rw [← List.cons_append, List.dropLast_concat]
        rw [hdrop, List.set_cons_zero]
        exact (List.perm_append_singleton x (mid ++ [y])).symm.trans
          ((List.perm_append_singleton y mid).append_right [x])
  next => contradiction

theorem mem_iff_of_pop? {h h' : Heap S} {top : Scored S} (hpop : h.pop? = some (top, h'))
    (e : Scored S) : e ∈ h.entries ↔ e ∈ h'.entries ∨ e = top := by
  rw [(pop?_perm hpop).mem_iff, Array.mem_push]

theorem pop?_eq_none {h : Heap S} (hpop : h.pop? = none) : h.entries = #[] := by
  unfold pop? at hpop
  split at hpop
  next => contradiction
  next hnone =>
    by_cases hsize : h.entries.size = 0
    · exact Array.eq_empty_of_size_eq_zero hsize
    · have hlt : 0 < h.entries.size := Nat.pos_of_ne_zero hsize
      have hback : h.entries.back? = some h.entries[h.entries.size - 1] := by
        rw [Array.back?_eq_getElem?, Array.getElem?_eq_getElem]
      exact absurd hback (hnone _ _ (Array.getElem?_eq_getElem hlt))

end Heap

/-! ## Labels -/

/-- A path from `source`, written from its end `v` backwards; all but its end are done. -/
structure Traced (succ : Nat → List Nat) (source : Nat) (done : Nat → Prop) (v : Nat)
    (trail : List Nat) : Prop where
  head : trail.head? = some v
  last : trail.getLast? = some source
  nodup : trail.Nodup
  chain : trail.IsChain fun y x => y ∈ succ x
  done : ∀ x ∈ trail.tail, done x

theorem Traced.mono {succ : Nat → List Nat} {source v : Nat} {done done' : Nat → Prop}
    {trail : List Nat} (h : Traced succ source done v trail) (himp : ∀ x, done x → done' x) :
    Traced succ source done' v trail :=
  { h with done := fun x hx => himp x (h.done x hx) }

/-- A path is continued by a vertex that is not done. -/
theorem Traced.cons {succ : Nat → List Nat} {source u v : Nat} {done : Nat → Prop}
    {trail : List Nat} (h : Traced succ source done u trail) (hu : done u) (hv : ¬ done v)
    (harc : v ∈ succ u) : Traced succ source done v (v :: trail) := by
  obtain ⟨rest, rfl⟩ := List.head?_eq_some_iff.mp h.head
  have hdone : ∀ x ∈ u :: rest, done x := by
    intro x hx
    rcases List.mem_cons.mp hx with rfl | hx
    · exact hu
    · exact h.done x hx
  refine ⟨rfl, ?_, ?_, ?_, hdone⟩
  · rw [List.getLast?_cons_cons]
    exact h.last
  · exact List.nodup_cons.mpr ⟨fun hmem => hv (hdone v hmem), h.nodup⟩
  · exact List.isChain_cons_cons.mpr ⟨harc, h.chain⟩

namespace Search

section Labels

variable {S : Type}

/-- The vertex has a label. -/
def HasLabel (s : Search S) (v : Nat) : Prop :=
  ∃ l, s.label? v = some l

/-- The vertices that are `done` are those settled, and possibly the one that is being settled. -/
structure Labelled (succ : Nat → List Nat) (n source : Nat) (done : Nat → Prop) (s : Search S) :
    Prop where
  size_labels : s.labels.size = n
  size_settled : s.settled.size = n
  done_of_settled : ∀ v, s.isSettled v = true → done v
  hasLabel_of_done : ∀ v, done v → s.HasLabel v
  hasLabel_of_mem : ∀ e ∈ s.heap.entries, s.HasLabel e.vertex
  mem_of_hasLabel : ∀ v, s.HasLabel v → ¬ done v → ∃ e ∈ s.heap.entries, e.vertex = v
  traced : ∀ v l, s.label? v = some l → Traced succ source done v l.trail

theorem lt_size_of_label? {s : Search S} {v : Nat} {l : Label S} (hl : s.label? v = some l) :
    v < s.labels.size := by
  unfold label? at hl
  cases hget : s.labels[v]? with
  | none => simp [hget] at hl
  | some o => exact (Array.getElem?_eq_some_iff.mp hget).1

theorem Labelled.lt_of_hasLabel {succ : Nat → List Nat} {n source : Nat} {done : Nat → Prop}
    {s : Search S} (h : Labelled succ n source done s) {v : Nat} (hv : s.HasLabel v) : v < n := by
  obtain ⟨l, hl⟩ := hv
  rw [← h.size_labels]
  exact lt_size_of_label? hl

/-- Between two turns: labels lead back through settled vertices, whose neighbours all have one. -/
structure Sound (succ : Nat → List Nat) (n source : Nat) (s : Search S) : Prop where
  labelled : Labelled succ n source (fun v => s.isSettled v = true) s
  closed : ∀ u, s.isSettled u = true → ∀ v ∈ succ u, s.HasLabel v
  source : s.HasLabel source

theorem isSettled_set {settled : Array Bool} {u : Nat} (hu : u < settled.size) (v : Nat) :
    (settled.setIfInBounds u true)[v]?.getD false = true ↔
      v = u ∨ settled[v]?.getD false = true := by
  rw [Array.getElem?_setIfInBounds]
  by_cases huv : u = v
  · subst huv
    simp [hu]
  · rw [if_neg huv]
    exact (or_iff_right (Ne.symm huv)).symm

/-- The heap after an entry was taken off it, while its vertex is being settled. -/
theorem Sound.pop {succ : Nat → List Nat} {n source : Nat} {s : Search S} {top : Scored S}
    {heap : Heap S} (h : Sound succ n source s) (hperm : s.heap.entries.Perm (heap.entries.push top)) :
    Labelled succ n source (fun v => s.isSettled v = true ∨ v = top.vertex) { s with heap } := by
  have hmem : ∀ e, e ∈ s.heap.entries ↔ e ∈ heap.entries ∨ e = top := fun e => by
    rw [hperm.mem_iff, Array.mem_push]
  have htop : s.HasLabel top.vertex := h.labelled.hasLabel_of_mem top ((hmem top).mpr (.inr rfl))
  refine ⟨h.labelled.size_labels, h.labelled.size_settled, fun v hv => .inl hv, ?_, ?_, ?_, ?_⟩
  · intro v hcase
    rcases hcase with hv | rfl
    · exact h.labelled.hasLabel_of_done v hv
    · exact htop
  · exact fun e he => h.labelled.hasLabel_of_mem e ((hmem e).mpr (.inl he))
  · intro v hv hnd
    obtain ⟨e, he, hev⟩ := h.labelled.mem_of_hasLabel v hv fun hs => hnd (.inl hs)
    rcases (hmem e).mp he with he | rfl
    · exact ⟨e, he, hev⟩
    · exact absurd (.inr hev.symm) hnd
  · intro v l hl
    exact (h.labelled.traced v l hl).mono fun x hx => .inl hx

/-- When the heap is empty, everything that can be reached has a label. -/
theorem Sound.hasLabel_of_reaches {succ : Nat → List Nat} {n source v : Nat} {s : Search S}
    (h : Sound succ n source s) (hheap : s.heap.entries = #[]) (hv : Reaches succ source v) :
    s.HasLabel v := by
  induction hv with
  | refl => exact h.source
  | @tail u v _ harc ih =>
    -- nothing is on the heap, so the vertex before is settled
    cases hset : s.isSettled u with
    | true => exact h.closed u hset v harc
    | false =>
      obtain ⟨e, he, -⟩ := h.labelled.mem_of_hasLabel u ih (by simp [hset])
      rw [hheap] at he
      exact absurd he (Array.not_mem_empty e)

end Labels

variable {S : Type} [LT S] [DecidableLT S]

/-- The search after `v` has taken the label `l`. -/
def improved (s : Search S) (v : Nat) (l : Label S) : Search S where
  labels := s.labels.setIfInBounds v (some l)
  settled := s.settled
  heap := s.heap.push ⟨l.score, v⟩

theorem label?_improved {s : Search S} {v : Nat} (hv : v < s.labels.size) (l : Label S) (w : Nat) :
    (s.improved v l).label? w = if w = v then some l else s.label? w := by
  unfold label? improved
  dsimp only
  rw [Array.getElem?_setIfInBounds]
  by_cases hwv : w = v
  · rw [if_pos hwv.symm, if_pos (hwv ▸ hv), if_pos hwv]
    rfl
  · rw [if_neg (Ne.symm hwv), if_neg hwv]

theorem hasLabel_improved_iff {s : Search S} {v : Nat} (hv : v < s.labels.size) {l : Label S}
    {w : Nat} : (s.improved v l).HasLabel w ↔ w = v ∨ s.HasLabel w := by
  unfold HasLabel
  rw [label?_improved hv]
  by_cases hwv : w = v
  · simp [hwv]
  · simp [hwv]

/-- A vertex that is not done may take any path through vertices that are. -/
theorem Labelled.improved {succ : Nat → List Nat} {n source v : Nat} {done : Nat → Prop}
    {s : Search S} {l : Label S} (h : Labelled succ n source done s) (hv : v < n)
    (hl : Traced succ source done v l.trail) : Labelled succ n source done (s.improved v l) := by
  have hv' : v < s.labels.size := h.size_labels ▸ hv
  refine ⟨?_, h.size_settled, h.done_of_settled, fun w hw => ?_, fun e he => ?_,
    fun w hw hwd => ?_, fun w l' hl' => ?_⟩
  · show (s.labels.setIfInBounds v (some l)).size = n
    rw [Array.size_setIfInBounds, h.size_labels]
  · exact (hasLabel_improved_iff hv').mpr (.inr (h.hasLabel_of_done w hw))
  · rw [hasLabel_improved_iff hv']
    rcases Heap.mem_push_iff.mp he with he | rfl
    · exact .inr (h.hasLabel_of_mem e he)
    · exact .inl rfl
  · rcases (hasLabel_improved_iff hv').mp hw with rfl | hw
    · exact ⟨_, Heap.mem_push_iff.mpr (.inr rfl), rfl⟩
    · obtain ⟨e, he, hev⟩ := h.mem_of_hasLabel w hw hwd
      exact ⟨e, Heap.mem_push_iff.mpr (.inl he), hev⟩
  · rw [label?_improved hv'] at hl'
    split at hl'
    next hwv =>
      obtain rfl := Option.some.inj hl'
      rw [hwv]
      exact hl
    next => exact h.traced w l' hl'

section Start

variable [OfNat S 0]

theorem isSettled_start (n source v : Nat) : (start n source : Search S).isSettled v = false := by
  unfold isSettled start
  dsimp only
  rw [Array.getElem?_replicate]
  split <;> rfl

theorem label?_start {n source : Nat} (hsource : source < n) (v : Nat) :
    (start n source : Search S).label? v = if v = source then some ⟨0, [source]⟩ else none := by
  unfold label? start
  dsimp only
  rw [Array.getElem?_setIfInBounds, Array.getElem?_replicate]
  by_cases hv : v = source
  · rw [if_pos hv.symm, if_pos (by simpa [hv] using hsource), if_pos hv]
    rfl
  · rw [if_neg (Ne.symm hv), if_neg hv]
    split <;> rfl

theorem mem_heap_start_iff {n source : Nat} {e : Scored S} :
    e ∈ (start n source : Search S).heap.entries ↔ e = ⟨0, source⟩ := by
  show e ∈ (Heap.empty.push ⟨0, source⟩).entries ↔ e = ⟨0, source⟩
  rw [Heap.mem_push_iff]
  exact or_iff_right (Array.not_mem_empty e)

/-- A search starts from a sound state. -/
theorem sound_start (succ : Nat → List Nat) {n source : Nat} (hsource : source < n) :
    Sound succ n source (start n source : Search S) := by
  have hsettled : ∀ v, ¬ (start n source : Search S).isSettled v = true := by simp [isSettled_start]
  have hlabel := label?_start (S := S) hsource
  have hfirst : (start n source : Search S).HasLabel source := ⟨_, by rw [hlabel, if_pos rfl]⟩
  refine ⟨⟨by simp [start], by simp [start], fun v hv => hv, fun v hv => absurd hv (hsettled v),
    fun e he => ?_, fun v hv _ => ?_, fun v l hl => ?_⟩, fun u hu => absurd hu (hsettled u), hfirst⟩
  · rw [mem_heap_start_iff.mp he]
    exact hfirst
  · obtain ⟨l, hl⟩ := hv
    rw [hlabel] at hl
    split at hl
    next hv => exact ⟨⟨0, source⟩, mem_heap_start_iff.mpr rfl, hv.symm⟩
    next => contradiction
  · rw [hlabel] at hl
    split at hl
    next hv =>
      obtain rfl := Option.some.inj hl
      rw [hv]
      exact ⟨rfl, rfl, by simp, .singleton _, fun x hx => absurd hx List.not_mem_nil⟩
    next => contradiction

end Start

variable [Add S]

/-- Relaxing an arc out of `u` keeps all labels, and leaves a label at its end. -/
theorem relax_total {succ : Nat → List Nat} {cost : Nat → Nat → Except Fault S} {n source u v : Nat}
    {done : Nat → Prop} {s : Search S} {trail : List Nat} {score : S}
    (h : Labelled succ n source done s) (hu : done u)
    (htrail : Traced succ source done u trail) (harc : v ∈ succ u) (hv : v < n)
    (hdone : s.isSettled v = false → ¬ done v) (hcost : ∃ x, cost u v = .ok x) :
    ∃ s', relax cost u score trail s v = .ok s' ∧ Labelled succ n source done s' ∧
      s'.settled = s.settled ∧ (∀ w, s.HasLabel w → s'.HasLabel w) ∧ s'.HasLabel v ∧
      s'.heap.entries.size ≤ s.heap.entries.size + 1 := by
  obtain ⟨x, hx⟩ := hcost
  unfold relax
  cases hset : s.isSettled v with
  | true =>
    refine ⟨s, rfl, h, rfl, fun _ hw => hw, ?_, by omega⟩
    exact h.hasLabel_of_done v (h.done_of_settled v hset)
  | false =>
    simp only [hx, ok_bind, Bool.false_eq_true, if_false]
    cases himp : s.improves v (score + x) with
    | false =>
      refine ⟨s, by simp, h, rfl, fun _ hw => hw, ?_, by omega⟩
      unfold improves at himp
      cases hl : s.label? v with
      | none => simp [hl] at himp
      | some l => exact ⟨l, hl⟩
    | true =>
      have hv' : v < s.labels.size := h.size_labels ▸ hv
      have htrail' := htrail.cons hu (hdone hset) harc
      refine ⟨s.improved v ⟨score + x, v :: trail⟩, rfl, h.improved hv htrail', rfl, ?_, ?_, ?_⟩
      · exact fun w hw => (hasLabel_improved_iff hv').mpr (.inr hw)
      · exact (hasLabel_improved_iff hv').mpr (.inl rfl)
      · exact Nat.le_of_eq (Heap.size_push _ _)

/-! ## Settling a vertex -/

/-- The graph a search can run on: arcs stay among `0, …, n - 1`, none leads back at once, and all have
a cost. -/
structure Searchable (succ : Nat → List Nat) (cost : Nat → Nat → Except Fault S) (n : Nat) : Prop where
  lt : ∀ u < n, ∀ v ∈ succ u, v < n
  irrefl : ∀ u, u ∉ succ u
  cost : ∀ u < n, ∀ v ∈ succ u, ∃ x, cost u v = .ok x

/-- Settling a vertex keeps the search sound, and puts at most one entry on the heap for each of its
neighbours. -/
theorem settle_total {succ : Nat → List Nat} {cost : Nat → Nat → Except Fault S} {n source : Nat}
    (hg : Searchable succ cost n) {s : Search S} {top : Scored S} {heap : Heap S}
    (h : Sound succ n source s) (hperm : s.heap.entries.Perm (heap.entries.push top)) (score : S) :
    ∃ s', settle succ cost { s with heap } top.vertex score = .ok s' ∧ Sound succ n source s' ∧
      s'.settled = s.settled.setIfInBounds top.vertex true ∧
      s'.heap.entries.size ≤ heap.entries.size + (succ top.vertex).length := by
  have hpop := h.pop hperm
  generalize top.vertex = u at hpop
  have hlabel : HasLabel { s with heap } u := hpop.hasLabel_of_done u (.inr rfl)
  have hlt : u < n := hpop.lt_of_hasLabel hlabel
  obtain ⟨l, hl⟩ := hlabel
  have htrail := hpop.traced u l hl
  -- all neighbours visited so far have a label
  have hfold := foldlM_total (f := relax cost u score l.trail) (l := succ u)
    (fun visited s' => Labelled succ n source (fun v => s.isSettled v = true ∨ v = u) s' ∧
      s'.settled = s.settled ∧ (∀ w, s.HasLabel w → s'.HasLabel w) ∧
      (∀ v ∈ visited, s'.HasLabel v) ∧
      s'.heap.entries.size ≤ heap.entries.size + visited.length)
    ⟨hpop, rfl, fun _ hw => hw, fun _ hv => absurd hv List.not_mem_nil, Nat.le_refl _⟩ (by
      intro visited v rest s₁ hsplit ⟨h₁, hset₁, hmono₁, hvisited₁, hsize₁⟩
      have harc : v ∈ succ u := hsplit ▸ List.mem_append_right _ List.mem_cons_self
      have hnd : s₁.isSettled v = false → ¬ (s.isSettled v = true ∨ v = u) := by
        intro hns
        unfold isSettled at hns ⊢
        rw [hset₁] at hns
        intro hcase
        rcases hcase with hv | rfl
        · rw [hns] at hv
          contradiction
        · exact hg.irrefl v harc
      obtain ⟨s₂, hrelax, h₂, hset₂, hmono₂, hv₂, hsize₂⟩ := relax_total h₁ (.inr rfl) htrail harc
        (hg.lt u hlt v harc) hnd (hg.cost u hlt v harc)
      refine ⟨s₂, hrelax, h₂, hset₂.trans hset₁, fun w hw => hmono₂ w (hmono₁ w hw), ?_, ?_⟩
      · intro w hw
        rcases List.mem_append.mp hw with hw | hw
        · exact hmono₂ w (hvisited₁ w hw)
        · rw [List.mem_singleton.mp hw]
          exact hv₂
      · rw [List.length_append, List.length_singleton]
        omega)
  obtain ⟨s₁, hrun, h₁, hset₁, hmono₁, hvisited₁, hsize₁⟩ := hfold
  -- only now is `u` itself marked as settled
  have hiff : ∀ v, isSettled { s₁ with settled := s₁.settled.setIfInBounds u true } v = true ↔
      s.isSettled v = true ∨ v = u := by
    intro v
    unfold isSettled
    dsimp only
    rw [isSettled_set (by rwa [h₁.size_settled]), hset₁, or_comm]
  refine ⟨{ s₁ with settled := s₁.settled.setIfInBounds u true }, ?_, ⟨?_, ?_, ?_⟩, ?_, hsize₁⟩
  · unfold settle
    simp only [hl, Option.map_some, Option.getD_some, hrun, ok_bind, pure_eq_ok]
  · refine ⟨h₁.size_labels, ?_, fun v hv => hv, fun v hv => ?_, h₁.hasLabel_of_mem,
      fun v hv hnd => ?_, fun v l' hl' => ?_⟩
    · show (s₁.settled.setIfInBounds u true).size = n
      rw [Array.size_setIfInBounds, h₁.size_settled]
    · exact h₁.hasLabel_of_done v ((hiff v).mp hv)
    · exact h₁.mem_of_hasLabel v hv fun hd => hnd ((hiff v).mpr hd)
    · exact (h₁.traced v l' hl').mono fun x hx => (hiff x).mpr hx
  · intro v hv w hw
    rcases (hiff v).mp hv with hv | rfl
    · exact hmono₁ w (h.closed v hv w hw)
    · exact hvisited₁ w hw
  · exact hmono₁ source h.source
  · show s₁.settled.setIfInBounds u true = _
    rw [hset₁]

/-! ## Turns -/

/-- The arcs out of vertices that are not settled. -/
def undone (succ : Nat → List Nat) (n : Nat) (settled : Array Bool) : Nat :=
  (List.range n).foldr
    (fun v count => (if settled[v]?.getD false then 0 else (succ v).length) + count) 0

/-- The entries on the heap, and those that may still be put on it. -/
def potential (succ : Nat → List Nat) (n : Nat) (s : Search S) : Nat :=
  s.heap.entries.size + undone succ n s.settled

theorem foldr_add_congr {f g : Nat → Nat} : ∀ {l : List Nat}, (∀ v ∈ l, f v = g v) →
    l.foldr (fun v count => f v + count) 0 = l.foldr (fun v count => g v + count) 0
  | [], _ => rfl
  | v :: l, h => by
    rw [List.foldr_cons, List.foldr_cons, h v List.mem_cons_self,
      foldr_add_congr fun w hw => h w (List.mem_cons_of_mem v hw)]

/-- A sum in which one term becomes zero loses that term. -/
theorem foldr_add_eq_add {f g : Nat → Nat} {u : Nat} (hfg : ∀ v, v ≠ u → f v = g v)
    (hu : g u = 0) : ∀ {l : List Nat}, l.Nodup → u ∈ l →
    l.foldr (fun v count => f v + count) 0 = l.foldr (fun v count => g v + count) 0 + f u
  | [], _, hmem => absurd hmem List.not_mem_nil
  | v :: l, hnodup, hmem => by
    obtain ⟨hv, hnodup⟩ := List.nodup_cons.mp hnodup
    rw [List.foldr_cons, List.foldr_cons]
    rcases List.mem_cons.mp hmem with rfl | hmem
    · have hrest : ∀ w ∈ l, f w = g w := fun w hw => hfg w fun he => hv (he ▸ hw)
      rw [foldr_add_congr hrest, hu]
      omega
    · have hne : v ≠ u := fun he => hv (he ▸ hmem)
      rw [foldr_add_eq_add hfg hu hnodup hmem, hfg v hne]
      omega

/-- A vertex that is settled takes its arcs out of the count. -/
theorem undone_set (succ : Nat → List Nat) {n u : Nat} {settled : Array Bool}
    (hsize : settled.size = n) (hu : u < n) (hnew : settled[u]?.getD false = false) :
    undone succ n settled =
      undone succ n (settled.setIfInBounds u true) + (succ u).length := by
  have hflip := foldr_add_eq_add (u := u)
    (f := fun v => if settled[v]?.getD false then 0 else (succ v).length)
    (g := fun v => if (settled.setIfInBounds u true)[v]?.getD false then 0 else (succ v).length)
    (fun v hv => by
      rw [Array.getElem?_setIfInBounds, if_neg (Ne.symm hv)])
    (by rw [if_pos ((isSettled_set (hsize ▸ hu) u).mpr (.inl rfl))])
    List.nodup_range (List.mem_range.mpr hu)
  unfold undone
  rw [hflip, hnew]
  rfl

theorem undone_replicate (succ : Nat → List Nat) (n : Nat) :
    undone succ n (Array.replicate n false) = arcCount succ n := by
  refine foldr_add_congr fun v hv => ?_
  rw [Array.getElem?_replicate, if_pos (List.mem_range.mp hv)]
  rfl

variable [LE S] [DecidableLE S]

/-- With more turns than potential a search comes to its end. The label of the goal is then a path, and
there is one if the goal can be reached. -/
theorem run_total {succ : Nat → List Nat} {cost : Nat → Nat → Except Fault S} {n source : Nat}
    (hg : Searchable succ cost n) (goal : Nat) : ∀ (turns : Nat) {s : Search S},
    Sound succ n source s → potential succ n s < turns →
    ∃ s', run succ cost goal turns s = .ok s' ∧
      (∀ l, s'.label? goal = some l → Traced succ source (fun _ => True) goal l.trail) ∧
      (Reaches succ source goal → s'.HasLabel goal) := by
  intro turns
  induction turns with
  | zero => exact fun _ h => absurd h (Nat.not_lt_zero _)
  | succ turns ih =>
    intro s h hturns
    have htraced : ∀ l, s.label? goal = some l →
        Traced succ source (fun _ => True) goal l.trail :=
      fun l hl => (h.labelled.traced goal l hl).mono fun _ _ => True.intro
    unfold run
    cases hpop : s.heap.pop? with
    | none => exact ⟨s, rfl, htraced, h.hasLabel_of_reaches (Heap.pop?_eq_none hpop)⟩
    | some popped =>
      obtain ⟨top, heap⟩ := popped
      have hperm := Heap.pop?_perm hpop
      have hsize : s.heap.entries.size = heap.entries.size + 1 := by
        rw [hperm.size_eq, Array.size_push]
      unfold potential at hturns
      dsimp only
      cases hset : isSettled { s with heap } top.vertex with
      | true =>
        -- an entry that has become stale: only the heap changes
        have hrest : Sound succ n source { s with heap } := by
          have hpopped := h.pop hperm
          have hiff : ∀ v, (s.isSettled v = true ∨ v = top.vertex) → s.isSettled v = true := by
            intro v hcase
            rcases hcase with hv | rfl
            · exact hv
            · exact hset
          refine ⟨?_, h.closed, h.source⟩
          exact ⟨hpopped.size_labels, hpopped.size_settled, fun v hv => hv,
            fun v hv => hpopped.hasLabel_of_done v (.inl hv), hpopped.hasLabel_of_mem,
            fun v hv hnd => hpopped.mem_of_hasLabel v hv fun hd => hnd (hiff v hd),
            h.labelled.traced⟩
        simp only [if_true]
        refine ih hrest ?_
        unfold potential
        dsimp only
        omega
      | false =>
        simp only [Bool.false_eq_true, if_false]
        have htop : s.HasLabel top.vertex :=
          h.labelled.hasLabel_of_mem top ((Heap.mem_iff_of_pop? hpop top).mpr (.inr rfl))
        split
        next hgoal =>
          refine ⟨_, rfl, htraced, fun _ => ?_⟩
          rw [← hgoal]
          exact htop
        next =>
          obtain ⟨s', hsettle, h', hsettled, hsize'⟩ := settle_total hg h hperm top.score
          rw [hsettle, ok_bind]
          refine ih h' ?_
          -- `u` leaves the sum of the undone degrees and puts at most its degree on the heap
          have hdrop := undone_set succ h.labelled.size_settled
            (h.labelled.lt_of_hasLabel htop) hset
          unfold potential
          rw [hsettled]
          omega

end Search

/-- A goal that can be reached is reached on a path without repetitions, whatever the costs. -/
theorem cheapestPath?_total {S : Type} [OfNat S 0] [Add S] [LT S] [DecidableLT S] [LE S]
    [DecidableLE S] {succ : Nat → List Nat} {cost : Nat → Nat → Except Fault S} {n source goal : Nat}
    (hg : Search.Searchable succ cost n) (hsource : source < n) (hreach : Reaches succ source goal) :
    ∃ path, cheapestPath? succ cost n source goal = .ok (some path) ∧
      path.head? = some source ∧ path.getLast? = some goal ∧ path.Nodup ∧
      path.IsChain fun x y => y ∈ succ x := by
  have hstart : Search.potential succ n (Search.start n source : Search S) < arcCount succ n + 2 := by
    unfold Search.potential
    show (Heap.push (Heap.empty : Heap S) _).entries.size +
      Search.undone succ n (Array.replicate n false) < _
    rw [Heap.size_push, Search.undone_replicate]
    show 0 + 1 + _ < _
    omega
  obtain ⟨s, hrun, htraced, hlabel⟩ :=
    Search.run_total hg goal (arcCount succ n + 2) (Search.sound_start succ hsource) hstart
  obtain ⟨l, hl⟩ := hlabel hreach
  obtain ⟨hhead, hlast, hnodup, hchain, -⟩ := htraced l hl
  refine ⟨l.trail.reverse, ?_, ?_, ?_, List.nodup_reverse.mpr hnodup, ?_⟩
  · unfold cheapestPath?
    simp only [hrun, ok_bind, hl, Option.map_some, pure_eq_ok]
  · rw [List.head?_reverse, hlast]
  · rw [List.getLast?_reverse, hhead]
  · rw [List.isChain_reverse]
    exact hchain

end QubitRouting.Graph
