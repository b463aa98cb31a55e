import QubitRouting.Proofs.Graph.HeapOrder
import QubitRouting.Proofs.Graph.Walks

/-!
# Searches find cheapest paths

With exact costs, what a search returns is a walk to the goal, and no walk there costs less
(`cheapestPath?_least`).

* `Search.Priced` is the invariant. The score of a label is what its trail costs. What is done costs at most
  `floor`, what waits on the heap at least that. An entry on the heap can be stale, but then it is too high;
  a label that is not done has an entry under its own score. So the vertex taken off the heap is labelled with
  the score of its entry (`Priced.score_eq`).
* `Exact.cut`: follow any walk to where it leaves what is done. Some label there costs no more than the walk.
  The vertex taken off the heap costs no more than that label (`Exact.least`).
-/

namespace QubitRouting.Graph

namespace Search

variable {succ out : Nat → List Nat} {cost : Nat → Nat → Except Fault Nat} {n source floor : Nat}
  {done : Nat → Prop} {s s' : Search Nat}

/-- What the labels and the heap know about costs. The vertices that are `done` are those settled, and
possibly the one that is being settled; `out` lists the arcs out of them that have been relaxed. -/
structure Priced (succ : Nat → List Nat) (cost : Nat → Nat → Except Fault Nat) (source floor : Nat)
    (done : Nat → Prop) (out : Nat → List Nat) (s : Search Nat) : Prop where
  ordered : s.heap.Ordered
  source_eq : ∃ l, s.label? source = some l ∧ l.score = 0
  walk : ∀ v l, s.label? v = some l → l.trail.head? = some v ∧ Walk succ cost source l.trail l.score
  done_le : ∀ v, done v → ∃ l, s.label? v = some l ∧ l.score ≤ floor
  le_entry : ∀ e ∈ s.heap.entries, floor ≤ e.score ∧ ∃ l, s.label? e.vertex = some l ∧ l.score ≤ e.score
  waiting : ∀ v l, s.label? v = some l → ¬ done v → ⟨l.score, v⟩ ∈ s.heap.entries
  relaxed : ∀ u l v x, done u → s.label? u = some l → v ∈ out u → cost u v = .ok x →
    ∃ l', s.label? v = some l' ∧ l'.score ≤ l.score + x

/-! ## Relaxing arcs -/

/-- What relaxing an arc can do: nothing, because its end is settled or has a label that is no worse, or give
its end a better label. -/
theorem relax_cases {u v score : Nat} {trail : List Nat} (h : relax cost u score trail s v = .ok s') :
    s.isSettled v = true ∧ s' = s ∨
    s.isSettled v = false ∧ ∃ x, cost u v = .ok x ∧
      ((∃ l, s.label? v = some l ∧ l.score ≤ score + x) ∧ s' = s ∨
        (∀ l, s.label? v = some l → score + x < l.score) ∧
          s' = s.improved v ⟨score + x, v :: trail⟩) := by
  unfold relax at h
  split at h
  next hset => exact .inl ⟨hset, (Except.ok.inj h).symm⟩
  next hset =>
    refine .inr ⟨Bool.eq_false_iff.mpr hset, ?_⟩
    obtain ⟨x, hx, h⟩ := bind_eq_ok_iff.mp h
    refine ⟨x, hx, ?_⟩
    dsimp only at h
    unfold improves at h
    cases hl : s.label? v with
    | none =>
      rw [hl, if_pos rfl] at h
      exact .inr ⟨fun l hl' => by contradiction, (Except.ok.inj h).symm⟩
    | some l =>
      rw [hl] at h
      dsimp only at h
      split at h
      next hlt =>
        refine .inr ⟨fun l' hl' => ?_, (Except.ok.inj h).symm⟩
        obtain rfl := Option.some.inj hl'
        exact of_decide_eq_true hlt
      next hge =>
        refine .inl ⟨⟨l, rfl, ?_⟩, (Except.ok.inj h).symm⟩
        rw [decide_eq_true_iff] at hge
        omega

/-- A vertex that is not done takes a better label. -/
theorem Priced.improved (h : Priced succ cost source floor done out s) {v : Nat} {l : Label Nat}
    (hv : v < s.labels.size) (hnd : ¬ done v) (hfloor : floor ≤ l.score)
    (hwalk : l.trail.head? = some v ∧ Walk succ cost source l.trail l.score)
    (hbetter : ∀ old, s.label? v = some old → l.score < old.score) :
    Priced succ cost source floor done out (s.improved v l) := by
  have hlabel := label?_improved hv l
  have hself : (s.improved v l).label? v = some l := by rw [hlabel, if_pos rfl]
  have hold : ∀ {w}, w ≠ v → (s.improved v l).label? w = s.label? w := by
    intro w hw
    rw [hlabel, if_neg hw]
  -- no vertex has a worse label than before
  have hmono : ∀ {w lw}, s.label? w = some lw →
      ∃ l', (s.improved v l).label? w = some l' ∧ l'.score ≤ lw.score := by
    intro w lw hlw
    by_cases hwv : w = v
    · subst hwv
      exact ⟨l, hself, Nat.le_of_lt (hbetter lw hlw)⟩
    · exact ⟨lw, (hold hwv).trans hlw, Nat.le_refl _⟩
  have hne : ∀ {w}, done w → w ≠ v := fun hw he => hnd (he ▸ hw)
  refine ⟨h.ordered.push _, ?_, fun w lw hlw => ?_, fun w hw => ?_, fun e he => ?_,
    fun w lw hlw hwd => ?_, fun u lu w x hu hlu hw hx => ?_⟩
  · obtain ⟨l₀, hl₀, hzero⟩ := h.source_eq
    obtain ⟨l', hl', hle⟩ := hmono hl₀
    exact ⟨l', hl', by omega⟩
  · by_cases hwv : w = v
    · subst hwv
      obtain rfl := Option.some.inj (hself.symm.trans hlw)
      exact hwalk
    · exact h.walk w lw ((hold hwv).symm.trans hlw)
  · rw [hold (hne hw)]
    exact h.done_le w hw
  · rcases Heap.mem_push_iff.mp he with he | rfl
    · obtain ⟨hge, le, hle, hscore⟩ := h.le_entry e he
      obtain ⟨l', hl', hle'⟩ := hmono hle
      exact ⟨hge, l', hl', Nat.le_trans hle' hscore⟩
    · exact ⟨hfloor, l, hself, Nat.le_refl _⟩
  · refine Heap.mem_push_iff.mpr ?_
    by_cases hwv : w = v
    · subst hwv
      obtain rfl := Option.some.inj (hself.symm.trans hlw)
      exact .inr rfl
    · exact .inl (h.waiting w lw ((hold hwv).symm.trans hlw) hwd)
  · rw [hold (hne hu)] at hlu
    obtain ⟨lw, hlw, hle⟩ := h.relaxed u lu w x hu hlu hw hx
    obtain ⟨l', hl', hle'⟩ := hmono hlw
    exact ⟨l', hl', Nat.le_trans hle' hle⟩

/-- The arcs relaxed so far while `u` is being settled. -/
def outOf (succ : Nat → List Nat) (u : Nat) (visited : List Nat) (w : Nat) : List Nat :=
  if w = u then visited else succ w

/-- Relaxing an arc out of the vertex that is being settled. -/
theorem Priced.relax {u v : Nat} {l : Label Nat} {visited : List Nat}
    (h : Priced succ cost source floor done (outOf succ u visited) s) (hu : done u)
    (hl : s.label? u = some l) (hfloor : l.score = floor) (hsettled : s.isSettled v = true → done v)
    (hnd : s.isSettled v = false → ¬ done v) (hv : v < s.labels.size) (harc : v ∈ succ u)
    (hrelax : Search.relax cost u l.score l.trail s v = .ok s') :
    Priced succ cost source floor done (outOf succ u (visited ++ [v])) s' ∧
      s'.label? u = some l ∧ s'.settled = s.settled ∧ s'.labels.size = s.labels.size := by
  -- the new arc is settled by a label that is good enough, all others were relaxed before
  have hextend : ∀ {t : Search Nat}, Priced succ cost source floor done (outOf succ u visited) t →
      t.label? u = some l →
      (∀ x, cost u v = .ok x → ∃ l', t.label? v = some l' ∧ l'.score ≤ l.score + x) →
      Priced succ cost source floor done (outOf succ u (visited ++ [v])) t := by
    intro t ht hlt hnew
    refine { ht with relaxed := fun w lw w' x hw hlw hout hx => ?_ }
    unfold outOf at hout
    split at hout
    next hwu =>
      subst hwu
      rcases List.mem_append.mp hout with hout | hout
      · exact ht.relaxed w lw w' x hw hlw (by unfold outOf; rwa [if_pos rfl]) hx
      · obtain rfl := List.mem_singleton.mp hout
        obtain rfl := Option.some.inj (hlt.symm.trans hlw)
        exact hnew x hx
    next hwu => exact ht.relaxed w lw w' x hw hlw (by unfold outOf; rwa [if_neg hwu]) hx
  rcases relax_cases hrelax with ⟨hset, rfl⟩ | ⟨hset, x, hx, ⟨⟨lv, hlv, hle⟩, rfl⟩ | ⟨hbetter, rfl⟩⟩
  · refine ⟨hextend h hl fun x _ => ?_, hl, rfl, rfl⟩
    obtain ⟨lv, hlv, hle⟩ := h.done_le v (hsettled hset)
    exact ⟨lv, hlv, by omega⟩
  · refine ⟨hextend h hl fun y hy => ⟨lv, hlv, ?_⟩, hl, rfl, rfl⟩
    rwa [← Except.ok.inj (hx.symm.trans hy)]
  · have huv : u ≠ v := fun he => hnd hset (he ▸ hu)
    have hlabel := label?_improved hv ⟨l.score + x, v :: l.trail⟩
    obtain ⟨hhead, hwalk⟩ := h.walk u l hl
    obtain ⟨rest, htrail⟩ := List.head?_eq_some_iff.mp hhead
    have hcontinued : Walk succ cost source (v :: l.trail) (l.score + x) := by
      rw [htrail] at hwalk ⊢
      exact hwalk.step harc hx
    have himproved := h.improved (l := ⟨l.score + x, v :: l.trail⟩) hv (hnd hset)
      (by dsimp only; omega) ⟨rfl, hcontinued⟩ hbetter
    have hlu : (s.improved v ⟨l.score + x, v :: l.trail⟩).label? u = some l := by
      rw [hlabel, if_neg huv, hl]
    refine ⟨hextend himproved hlu fun y hy => ⟨_, by rw [hlabel, if_pos rfl], ?_⟩, hlu, rfl, ?_⟩
    · rw [Except.ok.inj (hx.symm.trans hy)]
    · exact Array.size_setIfInBounds

theorem outOf_self (succ : Nat → List Nat) (u : Nat) : outOf succ u (succ u) = succ := by
  funext w
  unfold outOf
  split
  next hw => rw [hw]
  next => rfl

/-- Relaxing all arcs out of `u`, one after the other. -/
theorem Priced.relaxAll (hg : Searchable succ cost n) {u : Nat} {l : Label Nat}
    (h : Priced succ cost source floor (fun v => s.isSettled v = true ∨ v = u) (outOf succ u []) s)
    (hsize : s.labels.size = n) (hl : s.label? u = some l) (hfloor : l.score = floor)
    (hfold : (succ u).foldlM (Search.relax cost u l.score l.trail) s = .ok s') :
    Priced succ cost source floor (fun v => s.isSettled v = true ∨ v = u) succ s' ∧
      s'.settled = s.settled ∧ s'.labels.size = n := by
  have hlt : u < n := hsize ▸ lt_size_of_label? hl
  obtain ⟨hpriced, -, hsettled, hsize'⟩ := foldlM_invariant hfold
    (fun visited t => Priced succ cost source floor (fun v => s.isSettled v = true ∨ v = u)
      (outOf succ u visited) t ∧ t.label? u = some l ∧ t.settled = s.settled ∧ t.labels.size = n)
    ⟨h, hl, rfl, hsize⟩ (by
      intro visited v rest t t' hsplit ⟨ht, htl, htset, htsize⟩ hrelax
      have harc : v ∈ succ u := hsplit ▸ List.mem_append_right _ List.mem_cons_self
      have hsame : t.isSettled v = s.isSettled v := by
        unfold isSettled
        rw [htset]
      have hnd : t.isSettled v = false → ¬ (s.isSettled v = true ∨ v = u) := by
        intro hv hd
        rcases hd with hd | rfl
        · rw [← hsame, hv] at hd
          contradiction
        · exact hg.irrefl v harc
      obtain ⟨ht', htl', htset', htsize'⟩ := ht.relax (.inr rfl) htl hfloor
        (fun hv => .inl (hsame ▸ hv)) hnd (htsize ▸ hg.lt u hlt v harc) harc hrelax
      exact ⟨ht', htl', htset'.trans htset, htsize'.trans htsize⟩)
  rw [outOf_self] at hpriced
  exact ⟨hpriced, hsettled, hsize'⟩

/-! ## Taking a vertex off the heap -/

section Pop

variable {top : Scored Nat} {heap : Heap Nat}

/-- A stale entry is too high, so the entry of a vertex that is not done is not stale when it is the least. -/
theorem Priced.score_eq (h : Priced succ cost source floor done out s)
    (hpop : s.heap.pop? = some (top, heap)) (hnd : ¬ done top.vertex) :
    ∃ l, s.label? top.vertex = some l ∧ l.score = top.score := by
  obtain ⟨-, l, hl, hle⟩ := h.le_entry top ((Heap.mem_iff_of_pop? hpop top).mpr (.inr rfl))
  have hleast := (h.ordered.pop? hpop).2 _ (h.waiting top.vertex l hl hnd)
  exact ⟨l, hl, Nat.le_antisymm hle hleast⟩

theorem Priced.floor_le (h : Priced succ cost source floor done out s)
    (hpop : s.heap.pop? = some (top, heap)) : floor ≤ top.score :=
  (h.le_entry top ((Heap.mem_iff_of_pop? hpop top).mpr (.inr rfl))).1

/-- The heap without its top, while what was on it gets done. -/
theorem Priced.pop (h : Priced succ cost source floor done succ s)
    (hpop : s.heap.pop? = some (top, heap)) {floor' : Nat} {done' : Nat → Prop} {out' : Nat → List Nat}
    (hdone : ∀ v, done v ∨ v = top.vertex → done' v)
    (hdone_le : ∀ v, done' v → ∃ l, s.label? v = some l ∧ l.score ≤ floor') (hfloor : floor' ≤ top.score)
    (hrelaxed : ∀ u v, done' u → v ∈ out' u → done u ∧ v ∈ succ u) :
    Priced succ cost source floor' done' out' { s with heap } := by
  obtain ⟨hordered, hleast⟩ := h.ordered.pop? hpop
  have hmem := Heap.mem_iff_of_pop? hpop
  refine ⟨hordered, h.source_eq, h.walk, hdone_le, fun e he => ?_, fun v l hl hv => ?_,
    fun u l v x hu hl hv hx => ?_⟩
  · have he' := (hmem e).mpr (.inl he)
    exact ⟨Nat.le_trans hfloor (hleast e he'), (h.le_entry e he').2⟩
  · have hwait := h.waiting v l hl fun hd => hv (hdone v (.inl hd))
    refine ((hmem _).mp hwait).resolve_right fun htop => hv (hdone v (.inr ?_))
    rw [← htop]
  · obtain ⟨hu', hv'⟩ := hrelaxed u v hu hv
    exact h.relaxed u l v x hu' hl hv' hx

end Pop

/-- Between two turns: the arcs out of all settled vertices have been relaxed. -/
structure Exact (succ : Nat → List Nat) (cost : Nat → Nat → Except Fault Nat) (n source floor : Nat)
    (s : Search Nat) : Prop where
  size_labels : s.labels.size = n
  size_settled : s.settled.size = n
  priced : Priced succ cost source floor (fun v => s.isSettled v = true) succ s

/-- Settling the vertex on top of the heap. The floor rises to its score. -/
theorem Exact.settle (hg : Searchable succ cost n) (h : Exact succ cost n source floor s) {top : Scored Nat}
    {heap : Heap Nat} (hpop : s.heap.pop? = some (top, heap)) (hset : s.isSettled top.vertex = false)
    (hsettle : Search.settle succ cost { s with heap } top.vertex top.score = .ok s') :
    Exact succ cost n source top.score s' := by
  have hnew : ¬ s.isSettled top.vertex = true := by simp [hset]
  obtain ⟨l, hl, hscore⟩ := h.priced.score_eq hpop hnew
  have hfloor := h.priced.floor_le hpop
  generalize hu : top.vertex = u at hl hset hnew hsettle
  have hpopped : Priced succ cost source top.score
      (fun v => isSettled { s with heap } v = true ∨ v = u) (outOf succ u []) { s with heap } := by
    refine h.priced.pop hpop (fun v hv => hu ▸ hv) (fun v hv => ?_) (Nat.le_refl _) fun w v hw hv => ?_
    · rcases hv with hv | rfl
      · obtain ⟨lv, hlv, hle⟩ := h.priced.done_le v hv
        exact ⟨lv, hlv, Nat.le_trans hle hfloor⟩
      · exact ⟨l, hl, Nat.le_of_eq hscore⟩
    · unfold outOf at hv
      split at hv
      next => exact absurd hv List.not_mem_nil
      next hwu => exact ⟨hw.resolve_right hwu, hv⟩
  unfold Search.settle at hsettle
  have hlabel : label? { s with heap } u = some l := hl
  rw [hlabel, Option.map_some, Option.getD_some, ← hscore] at hsettle
  obtain ⟨s₁, hfold, hdone⟩ := bind_eq_ok_iff.mp hsettle
  obtain rfl := Except.ok.inj hdone
  obtain ⟨hpriced, hsettled, hsize⟩ := hpopped.relaxAll hg h.size_labels hlabel hscore hfold
  -- only now is `u` itself marked as settled
  have hlt : u < n := h.size_labels ▸ lt_size_of_label? hl
  have hiff : ∀ v, isSettled { s₁ with settled := s₁.settled.setIfInBounds u true } v = true ↔
      s.isSettled v = true ∨ v = u := by
    intro v
    unfold isSettled
    dsimp only
    rw [hsettled, isSettled_set (h.size_settled ▸ hlt), or_comm]
  refine ⟨hsize, ?_, ?_⟩
  · show (s₁.settled.setIfInBounds u true).size = n
    rw [Array.size_setIfInBounds, hsettled, h.size_settled]
  · refine ⟨hpriced.ordered, hpriced.source_eq, hpriced.walk, fun v hv => ?_, hpriced.le_entry,
      fun v l hl hv => ?_, fun w l v x hw hl hv hx => ?_⟩
    · exact hpriced.done_le v ((hiff v).mp hv)
    · exact hpriced.waiting v l hl fun hd => hv ((hiff v).mpr hd)
    · exact hpriced.relaxed w l v x ((hiff w).mp hw) hl hv hx

/-! ## The way of a search -/

/-- Every walk ends at a label that costs no more, or has passed a vertex that is still waiting with one. -/
theorem Exact.cut (h : Exact succ cost n source floor s) {nodes : List Nat} {k : Nat}
    (hwalk : Walk succ cost source nodes k) : ∀ v, nodes.head? = some v →
    (∃ l, s.label? v = some l ∧ l.score ≤ k) ∨
      ∃ w l, s.label? w = some l ∧ ¬ s.isSettled w = true ∧ l.score ≤ k := by
  induction hwalk with
  | start =>
    intro v hv
    obtain rfl := Option.some.inj hv
    obtain ⟨l, hl, hzero⟩ := h.priced.source_eq
    exact .inl ⟨l, hl, Nat.le_of_eq hzero⟩
  | @step u v x k rest _ harc hcost ih =>
    intro v' hv'
    obtain rfl := Option.some.inj hv'
    rcases ih u rfl with ⟨l, hl, hle⟩ | ⟨w, l, hl, hw, hle⟩
    · by_cases hset : s.isSettled u = true
      · obtain ⟨l', hl', hle'⟩ := h.priced.relaxed u l v x hset hl harc hcost
        exact .inl ⟨l', hl', by omega⟩
      · exact .inr ⟨u, l, hl, hset, by omega⟩
    · exact .inr ⟨w, l, hl, hw, by omega⟩

/-- The trail of the label leads to `v` at its score, and no walk to `v` costs less. -/
def Cheapest (succ : Nat → List Nat) (cost : Nat → Nat → Except Fault Nat) (source v : Nat)
    (l : Label Nat) : Prop :=
  Walk succ cost source l.trail l.score ∧
    ∀ nodes k, Walk succ cost source nodes k → nodes.head? = some v → l.score ≤ k

/-- If all that waits costs as much, no walk to `v` is cheaper than its trail. -/
theorem Exact.least (h : Exact succ cost n source floor s) {v : Nat} {l : Label Nat}
    (hl : s.label? v = some l)
    (hwaiting : ∀ w lw, s.label? w = some lw → ¬ s.isSettled w = true → l.score ≤ lw.score) :
    Cheapest succ cost source v l := by
  refine ⟨(h.priced.walk v l hl).2, fun nodes k hwalk hhead => ?_⟩
  rcases h.cut hwalk v hhead with ⟨l', hl', hle⟩ | ⟨w, lw, hlw, hw, hle⟩
  · obtain rfl := Option.some.inj (hl.symm.trans hl')
    exact hle
  · exact Nat.le_trans (hwaiting w lw hlw hw) hle

/-- The label of the goal at the end of a search. -/
theorem Exact.run (hg : Searchable succ cost n) {goal : Nat} : ∀ {turns floor : Nat} {s s' : Search Nat},
    Exact succ cost n source floor s → Search.run succ cost goal turns s = .ok s' →
    ∀ l, s'.label? goal = some l → goal < n ∧ Cheapest succ cost source goal l
  | 0, _, _, _, _, hrun => by contradiction
  | turns + 1, floor, s, s', h, hrun => by
    unfold Search.run at hrun
    cases hpop : s.heap.pop? with
    | none =>
      rw [hpop] at hrun
      obtain rfl := Except.ok.inj hrun
      intro l hl
      refine ⟨h.size_labels ▸ lt_size_of_label? hl, h.least hl fun w lw hlw hw => ?_⟩
      -- nothing waits on an empty heap
      have hwait := h.priced.waiting w lw hlw hw
      rw [Heap.pop?_eq_none hpop] at hwait
      exact absurd hwait (Array.not_mem_empty _)
    | some popped =>
      obtain ⟨top, heap⟩ := popped
      rw [hpop] at hrun
      dsimp only at hrun
      split at hrun
      next hset =>
        -- a stale entry: only the heap changes
        have hskip : Exact succ cost n source floor { s with heap } := by
          refine ⟨h.size_labels, h.size_settled, h.priced.pop hpop (fun v hv => ?_) h.priced.done_le
            (h.priced.floor_le hpop) fun u v hu hv => ⟨hu, hv⟩⟩
          rcases hv with hv | rfl
          · exact hv
          · exact hset
        exact hskip.run hg hrun
      next hset =>
        split at hrun
        next hgoal =>
          obtain rfl := Except.ok.inj hrun
          intro l hl
          refine ⟨h.size_labels ▸ lt_size_of_label? hl, h.least hl fun w lw hlw hw => ?_⟩
          -- the goal is next, at its own score
          obtain ⟨l', hl', hscore⟩ := h.priced.score_eq hpop hset
          rw [hgoal] at hl'
          obtain rfl := Option.some.inj (hl'.symm.trans hl)
          have hleast := (h.priced.ordered.pop? hpop).2 _ (h.priced.waiting w lw hlw hw)
          rwa [← hscore] at hleast
        next =>
          obtain ⟨s₁, hsettle, hrun⟩ := bind_eq_ok_iff.mp hrun
          exact (h.settle hg hpop (Bool.eq_false_iff.mpr hset) hsettle).run hg hrun

theorem exact_start {n source : Nat} (hsource : source < n) :
    Exact succ cost n source 0 (start n source) := by
  have hlabel := label?_start (S := Nat) hsource
  have hnone : ∀ v, ¬ (start n source : Search Nat).isSettled v = true := by simp [isSettled_start]
  refine ⟨by simp [start], by simp [start], Heap.ordered_empty.push _, ?_, fun v l hl => ?_,
    fun v hv => absurd hv (hnone v), fun e he => ?_, fun v l hl _ => ?_, fun u _ _ _ hu => absurd hu (hnone u)⟩
  · exact ⟨_, by rw [hlabel, if_pos rfl], rfl⟩
  · rw [hlabel] at hl
    split at hl
    next hv =>
      obtain rfl := Option.some.inj hl
      rw [hv]
      exact ⟨rfl, .start⟩
    next => contradiction
  · obtain rfl := mem_heap_start_iff.mp he
    exact ⟨Nat.zero_le _, _, by rw [hlabel, if_pos rfl], Nat.le_refl _⟩
  · rw [hlabel] at hl
    split at hl
    next hv =>
      obtain rfl := Option.some.inj hl
      rw [hv]
      exact mem_heap_start_iff.mpr rfl
    next => contradiction

end Search

/-- A search from outside the graph finds nothing: its source cannot be labelled, and has no arcs. -/
theorem cheapestPath?_eq_none {succ : Nat → List Nat} {cost : Nat → Nat → Except Fault Nat}
    {n source goal : Nat} (hsource : n ≤ source) (hsucc : succ source = []) :
    cheapestPath? succ cost n source goal = .ok none := by
  have hlabel : (Search.start n source : Search Nat).label? goal = none := by
    unfold Search.label? Search.start
    dsimp only
    rw [Array.setIfInBounds_eq_of_size_le (by simpa using hsource), Array.getElem?_replicate]
    split <;> rfl
  have hpop : (Search.start n source : Search Nat).heap.pop? = some (⟨0, source⟩, Heap.empty) := rfl
  have hrun : ∃ s, Search.run succ cost goal (arcCount succ n + 2) (Search.start n source) = .ok s ∧
      s.label? goal = none := by
    unfold Search.run
    rw [hpop]
    dsimp only
    split
    next hset => exact absurd ((Search.isSettled_start n source source).symm.trans hset) Bool.false_ne_true
    next =>
      split
      next => exact ⟨_, rfl, hlabel⟩
      next =>
        unfold Search.settle
        rw [hsucc]
        exact ⟨_, rfl, hlabel⟩
  obtain ⟨s, hs, hnone⟩ := hrun
  unfold cheapestPath?
  rw [hs, ok_bind, hnone]
  rfl

/-- With exact costs, no walk to the goal costs less than the path that is found. -/
theorem cheapestPath?_least {succ : Nat → List Nat} {cost : Nat → Nat → Except Fault Nat}
    {n source goal : Nat} {path : List Nat} (hg : Search.Searchable succ cost n) (hsource : source < n)
    (h : cheapestPath? succ cost n source goal = .ok (some path)) :
    goal < n ∧ ∃ k, Walk succ cost source path.reverse k ∧
      ∀ nodes j, Walk succ cost source nodes j → nodes.head? = some goal → k ≤ j := by
  unfold cheapestPath? at h
  obtain ⟨s, hrun, h⟩ := bind_eq_ok_iff.mp h
  obtain ⟨l, hl, rfl⟩ := Option.map_eq_some_iff.mp (Except.ok.inj h)
  obtain ⟨hgoal, hwalk, hleast⟩ := (Search.exact_start hsource).run hg hrun l hl
  exact ⟨hgoal, l.score, by rwa [List.reverse_reverse], hleast⟩

end QubitRouting.Graph
