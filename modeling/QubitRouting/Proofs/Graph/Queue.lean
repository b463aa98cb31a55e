import QubitRouting.Proofs.Coupling.Connected
import QubitRouting.Proofs.Graph.Walks

/-!
# Distances from a queue

The distances from a start can also be found with a queue: vertices wait in it with their depth, the one in
front is taken off and its depth written down, and those of its successors that have not been seen yet join at the
end, one deeper. A vertex counts as seen as soon as it waits, so none waits twice.

`sweepFrom` is that loop, and `hopsFrom` fills the same row ring by ring (`sweepFrom_eq_hopsFrom`). The invariant
is `Sweep.Sound`. Its core is that the depths in the queue never fall and differ by at most one: when a vertex at
depth `d` is in front, everything that a walk of at most `d` arcs leads to has been seen
(`Sweep.Sound.seen_of_walk`), so what has not been seen and is a successor of it lies at depth `d + 1`. Every turn
writes a depth for one more vertex, so there are no more turns than vertices.
-/

namespace QubitRouting.Graph

/-- The depths written down so far, which vertices have been seen, and those that wait, with their depths. -/
structure Sweep where
  row : Array (Option Nat)
  seen : Array Bool
  queue : List (Nat × Nat)
deriving Repr

namespace Sweep

/-- Only the start has been seen, and it waits. -/
def start (n source : Nat) : Sweep :=
  ⟨Array.replicate n none, (Array.replicate n false).setIfInBounds source true, [(source, 0)]⟩

/-- Let `v` wait at depth `d`, unless it has been seen already or is no vertex. -/
def meet (d : Nat) (w : Sweep) (v : Nat) : Sweep :=
  if w.seen[v]? = some false then
    { w with seen := w.seen.setIfInBounds v true, queue := w.queue ++ [(v, d)] }
  else w

/-- Write down that `v` has depth `d`, and meet its successors. -/
def visit (succ : Nat → List Nat) (v d : Nat) (w : Sweep) : Sweep :=
  (succ v).foldl (meet (d + 1)) { w with row := w.row.setIfInBounds v (some d) }

/-- Take vertices off the queue until it is empty, at most the given number of them. -/
def run (succ : Nat → List Nat) : Nat → Sweep → Sweep
  | 0, w => w
  | turns + 1, w =>
    match w.queue with
    | [] => w
    | (v, d) :: rest => run succ turns (visit succ v d { w with queue := rest })

end Sweep

/-- The depth of each of the vertices `0, …, n - 1` below `source`; `none` for those out of reach. -/
def sweepFrom (succ : Nat → List Nat) (n source : Nat) : Array (Option Nat) :=
  (Sweep.run succ n (Sweep.start n source)).row

variable {succ : Nat → List Nat} {n source : Nat}

/-- The least cost of a walk to `v`, if every arc costs one. -/
def IsDepth (succ : Nat → List Nat) (source v d : Nat) : Prop :=
  (∃ rest, UnitWalk succ source (v :: rest) d) ∧ ∀ rest k, UnitWalk succ source (v :: rest) k → d ≤ k

theorem IsDepth.unique {v d e : Nat} (h : IsDepth succ source v d) (h' : IsDepth succ source v e) : d = e := by
  obtain ⟨⟨rest, hwalk⟩, hleast⟩ := h
  obtain ⟨⟨rest', hwalk'⟩, hleast'⟩ := h'
  exact Nat.le_antisymm (hleast rest' e hwalk') (hleast' rest d hwalk)

theorem UnitWalk.reaches {v k : Nat} {rest : List Nat} (h : UnitWalk succ source (v :: rest) k) :
    Reaches succ source v := by
  induction rest generalizing v k with
  | nil =>
    cases h
    exact .refl
  | cons u rest ih =>
    cases h with
    | step hu harc _ => exact (ih hu).tail harc

namespace Sweep

open Rings (Marked unmarked not_marked_iff)

/-! ## Meeting successors -/

theorem row_foldl_meet (d : Nat) (l : List Nat) (w : Sweep) : (l.foldl (meet d) w).row = w.row := by
  induction l generalizing w with
  | nil => rfl
  | cons x l ih =>
    rw [List.foldl_cons, ih]
    unfold meet
    split
    next => rfl
    next => rfl

theorem size_foldl_meet (d : Nat) (l : List Nat) (w : Sweep) :
    (l.foldl (meet d) w).seen.size = w.seen.size := by
  induction l generalizing w with
  | nil => rfl
  | cons x l ih =>
    rw [List.foldl_cons, ih]
    unfold meet
    split
    next => exact Array.size_setIfInBounds ..
    next => rfl

/-- Meeting a vertex changes its own entry, and only if it has not been seen. -/
theorem getElem?_meet (d : Nat) (w : Sweep) (x v : Nat) : (meet d w x).seen[v]? =
    if w.seen[v]? = some false ∧ v = x then some true else w.seen[v]? := by
  unfold meet
  split
  next hunseen =>
    obtain ⟨hlt, -⟩ := Array.getElem?_eq_some_iff.mp hunseen
    rw [Array.getElem?_setIfInBounds]
    by_cases hvx : x = v
    · rw [if_pos hvx, if_pos (hvx ▸ hlt), if_pos ⟨hvx ▸ hunseen, hvx.symm⟩]
    · rw [if_neg hvx, if_neg]
      exact fun h => hvx h.2.symm
  next hseen =>
    rw [if_neg]
    exact fun h => hseen (h.2 ▸ h.1)

theorem queue_meet (d : Nat) (w : Sweep) (x : Nat) : (meet d w x).queue =
    if w.seen[x]? = some false then w.queue ++ [(x, d)] else w.queue := by
  unfold meet
  split
  next => rfl
  next => rfl

theorem getElem?_foldl_meet (d : Nat) (l : List Nat) (w : Sweep) (v : Nat) :
    (l.foldl (meet d) w).seen[v]? =
      if w.seen[v]? = some false ∧ v ∈ l then some true else w.seen[v]? := by
  induction l generalizing w with
  | nil => simp
  | cons x l ih =>
    rw [List.foldl_cons, ih, getElem?_meet]
    by_cases hunseen : w.seen[v]? = some false
    · by_cases hvx : v = x
      · subst hvx
        simp [hunseen]
      · simp [hunseen, hvx]
    · simp [hunseen]

/-- Those in the list that have not been seen wait at the end of the queue, each of them once. -/
theorem queue_foldl_meet (d : Nat) (l : List Nat) (w : Sweep) : ∃ new : List Nat,
    (l.foldl (meet d) w).queue = w.queue ++ new.map (fun v => (v, d)) ∧ new.Nodup ∧
      ∀ v : Nat, v ∈ new ↔ w.seen[v]? = some false ∧ v ∈ l := by
  induction l using List.reverseRecOn with
  | nil => exact ⟨[], by simp, List.nodup_nil, by simp⟩
  | append_singleton l x ih =>
    obtain ⟨new, hqueue, hnodup, hnew⟩ := ih
    have hx : (l.foldl (meet d) w).seen[x]? = some false ↔ w.seen[x]? = some false ∧ x ∉ new := by
      rw [getElem?_foldl_meet]
      split
      next hmet => simp [(hnew x).mpr hmet]
      next hmet =>
        rw [hnew]
        exact ⟨fun h => ⟨h, hmet⟩, And.left⟩
    rw [List.foldl_concat, queue_meet, hqueue]
    by_cases hfresh : w.seen[x]? = some false ∧ x ∉ new
    · rw [if_pos (hx.mpr hfresh)]
      refine ⟨new ++ [x], by simp, ?_, fun v => ?_⟩
      · exact List.nodup_append.mpr ⟨hnodup, List.nodup_singleton x, fun y hy z hz heq =>
          hfresh.2 (List.mem_singleton.mp hz ▸ heq ▸ hy)⟩
      · rw [List.mem_append, List.mem_append, hnew, List.mem_singleton, and_or_left]
        exact or_congr_right ⟨fun h => ⟨h ▸ hfresh.1, h⟩, And.right⟩
    · rw [if_neg (mt hx.mp hfresh)]
      refine ⟨new, rfl, hnodup, fun v => ?_⟩
      rw [List.mem_append, List.mem_singleton, and_or_left, ← hnew]
      refine (or_iff_left_of_imp ?_).symm
      rintro ⟨hunseen, rfl⟩
      by_contra hnot
      exact hfresh ⟨hunseen, hnot⟩

/-- What a turn does with `v` at depth `d` in front: it writes the depth down, and those successors of `v` that have
not been seen wait behind the `rest`. -/
structure Turn (succ : Nat → List Nat) (v d : Nat) (rest : List (Nat × Nat)) (w w' : Sweep) : Prop where
  row_eq : w'.row = w.row.setIfInBounds v (some d)
  size_seen : w'.seen.size = w.seen.size
  getElem?_seen : ∀ x : Nat, w'.seen[x]? =
    if w.seen[x]? = some false ∧ x ∈ succ v then some true else w.seen[x]?
  queue_eq : ∃ new : List Nat, w'.queue = rest ++ new.map (fun x => (x, d + 1)) ∧ new.Nodup ∧
    ∀ x : Nat, x ∈ new ↔ w.seen[x]? = some false ∧ x ∈ succ v

theorem turn_visit (succ : Nat → List Nat) (v d : Nat) (rest : List (Nat × Nat)) (w : Sweep) :
    Turn succ v d rest w (visit succ v d { w with queue := rest }) where
  row_eq := row_foldl_meet (d + 1) (succ v) _
  size_seen := size_foldl_meet (d + 1) (succ v) _
  getElem?_seen := getElem?_foldl_meet (d + 1) (succ v) _
  queue_eq := queue_foldl_meet (d + 1) (succ v) _

/-! ## One turn -/

/-- What is known of a sweep between two turns. -/
structure Sound (succ : Nat → List Nat) (n source : Nat) (w : Sweep) : Prop where
  size_row : w.row.size = n
  size_seen : w.seen.size = n
  written : ∀ v d : Nat, w.row[v]? = some (some d) → IsDepth succ source v d
  waiting : ∀ v d, (v, d) ∈ w.queue → IsDepth succ source v d
  /-- The depths in the queue never fall, and differ by at most one. -/
  ordered : w.queue.Pairwise fun e e' => e.2 ≤ e'.2 ∧ e'.2 ≤ e.2 + 1
  nodup : (w.queue.map (·.1)).Nodup
  /-- What has been seen has a depth or waits for it. -/
  seen_iff : ∀ v : Nat, w.seen[v]? = some true ↔ Marked w.row v ∨ v ∈ w.queue.map (·.1)
  unmarked_of_mem : ∀ v ∈ w.queue.map (·.1), ¬ Marked w.row v
  seen_source : w.seen[source]? = some true
  /-- The successors of everything with a depth have been seen. -/
  closed : ∀ u, Marked w.row u → ∀ v ∈ succ u, w.seen[v]? = some true

theorem sound_start (hsource : source < n) : Sound succ n source (start n source) := by
  have hblank : ∀ v : Nat, ¬ Marked (start n source).row v := by
    rintro v ⟨d, hd⟩
    rw [start, Array.getElem?_replicate] at hd
    split at hd
    next => simp at hd
    next => contradiction
  have hseen : ∀ v : Nat, (start n source).seen[v]? = some true ↔ v = source := by
    intro v
    rw [start, Array.getElem?_setIfInBounds, Array.getElem?_replicate, Array.size_replicate]
    by_cases hv : source = v
    · simp [← hv, hsource]
    · simp [hv, Ne.symm hv]
  have hdepth : IsDepth succ source source 0 := ⟨⟨[], .start⟩, fun _ _ _ => Nat.zero_le _⟩
  refine ⟨Array.size_replicate, ?_, fun v d hd => absurd ⟨d, hd⟩ (hblank v), fun v d hmem => ?_,
    List.pairwise_singleton _ _, List.nodup_singleton _, fun v => ?_, fun v _ => hblank v,
    (hseen source).mpr rfl, fun u hu => absurd hu (hblank u)⟩
  · exact (Array.size_setIfInBounds ..).trans Array.size_replicate
  · obtain ⟨rfl, rfl⟩ := Prod.mk.inj (List.mem_singleton.mp hmem)
    exact hdepth
  · rw [hseen, or_iff_right (hblank v)]
    simp [start]

section Front

variable {v d : Nat} {rest : List (Nat × Nat)} {w : Sweep}

/-- Nothing that waits lies above the front of the queue. -/
theorem Sound.le_of_mem_queue (h : Sound succ n source w) (hqueue : w.queue = (v, d) :: rest) {u e : Nat}
    (hmem : (u, e) ∈ w.queue) : d ≤ e ∧ e ≤ d + 1 := by
  have hordered := h.ordered
  rw [hqueue] at hordered hmem
  rcases List.mem_cons.mp hmem with heq | hmem
  · obtain ⟨-, rfl⟩ := Prod.mk.inj heq
    exact ⟨Nat.le_refl e, Nat.le_succ e⟩
  · exact (List.pairwise_cons.mp hordered).1 (u, e) hmem

/-- With depth `d` in front, everything that a walk of at most `d` arcs leads to has been seen. -/
theorem Sound.seen_of_walk (h : Sound succ n source w) (hqueue : w.queue = (v, d) :: rest) :
    ∀ {nodes : List Nat} {x k : Nat}, UnitWalk succ source (x :: nodes) k → k ≤ d → w.seen[x]? = some true := by
  intro nodes
  induction nodes with
  | nil =>
    intro x k hwalk _
    cases hwalk
    exact h.seen_source
  | cons u nodes ih =>
    intro x k hwalk hk
    cases hwalk with
    | @step _ _ _ j _ hu harc hcost =>
      obtain rfl := Except.ok.inj hcost
      rcases (h.seen_iff u).mp (ih hu (by omega)) with hmarked | hwaits
      · exact h.closed u hmarked x harc
      · -- a vertex that waits lies too deep to be left by this walk
        obtain ⟨⟨_, e⟩, hmem, rfl⟩ := List.mem_map.mp hwaits
        have hle := (h.waiting _ e hmem).2 _ j hu
        have hdeep := (h.le_of_mem_queue hqueue hmem).1
        omega

/-- A successor of the front that has not been seen lies one deeper. -/
theorem Sound.isDepth_succ (h : Sound succ n source w) (hqueue : w.queue = (v, d) :: rest) {x : Nat}
    (hx : x ∈ succ v) (hunseen : w.seen[x]? = some false) : IsDepth succ source x (d + 1) := by
  obtain ⟨⟨nodes, hwalk⟩, -⟩ := h.waiting v d (hqueue ▸ List.mem_cons_self)
  refine ⟨⟨v :: nodes, hwalk.cons hx⟩, fun nodes' k hwalk' => ?_⟩
  by_contra hlt
  have hseen := h.seen_of_walk hqueue hwalk' (by omega)
  rw [hseen] at hunseen
  contradiction

/-- The front of the queue is a vertex without a depth. -/
theorem Sound.front (h : Sound succ n source w) (hqueue : w.queue = (v, d) :: rest) :
    v < n ∧ ¬ Marked w.row v := by
  have hmem : v ∈ w.queue.map (·.1) := by simp [hqueue]
  obtain ⟨hlt, -⟩ := Array.getElem?_eq_some_iff.mp ((h.seen_iff v).mpr (.inr hmem))
  exact ⟨h.size_seen ▸ hlt, h.unmarked_of_mem v hmem⟩

/-- What has a depth or waits for it has been seen. -/
theorem Sound.not_unseen (h : Sound succ n source w) {x : Nat}
    (hx : Marked w.row x ∨ x ∈ w.queue.map (·.1)) : w.seen[x]? ≠ some false := by
  rw [(h.seen_iff x).mpr hx]
  simp

theorem marked_set_iff {row : Array (Option Nat)} (hv : v < row.size) (x : Nat) :
    Marked (row.setIfInBounds v (some d)) x ↔ Marked row x ∨ x = v := by
  unfold Marked
  rw [Array.getElem?_setIfInBounds]
  by_cases hx : v = x
  · simp [← hx, hv]
  · simp [hx, Ne.symm hx]

namespace Turn

variable {w' : Sweep} (ht : Turn succ v d rest w w')
include ht

theorem seen_iff (x : Nat) : w'.seen[x]? = some true ↔
    w.seen[x]? = some true ∨ w.seen[x]? = some false ∧ x ∈ succ v := by
  rw [ht.getElem?_seen]
  split
  next hmet => simp [hmet]
  next hmet => simp [hmet]

theorem mem_queue_iff (x : Nat) : x ∈ w'.queue.map (·.1) ↔
    x ∈ rest.map (·.1) ∨ w.seen[x]? = some false ∧ x ∈ succ v := by
  obtain ⟨new, hqueue, -, hnew⟩ := ht.queue_eq
  rw [hqueue, List.map_append, List.mem_append, List.map_map, ← hnew]
  simp

variable (h : Sound succ n source w) (hqueue : w.queue = (v, d) :: rest)
include h hqueue

theorem marked_iff (x : Nat) : Marked w'.row x ↔ Marked w.row x ∨ x = v := by
  rw [ht.row_eq]
  exact marked_set_iff (h.size_row.symm ▸ (h.front hqueue).1) x

/-- The depth that is written down is that of the front. -/
theorem written {x e : Nat} (he : w'.row[x]? = some (some e)) : IsDepth succ source x e := by
  rw [ht.row_eq, Array.getElem?_setIfInBounds] at he
  split at he
  next hx =>
    obtain rfl : d = e := by simpa [h.size_row, (h.front hqueue).1] using he
    exact hx ▸ h.waiting v d (hqueue ▸ List.mem_cons_self)
  next => exact h.written x e he

/-- Those that join the queue wait with their depths. -/
theorem waiting {x e : Nat} (hmem : (x, e) ∈ w'.queue) : IsDepth succ source x e := by
  obtain ⟨new, hqueue', -, hnew⟩ := ht.queue_eq
  rw [hqueue'] at hmem
  rcases List.mem_append.mp hmem with hmem | hmem
  · exact h.waiting x e (hqueue ▸ List.mem_cons_of_mem _ hmem)
  · obtain ⟨y, hy, heq⟩ := List.mem_map.mp hmem
    obtain ⟨rfl, rfl⟩ := Prod.mk.inj heq
    obtain ⟨hunseen, hsuccessor⟩ := (hnew y).mp hy
    exact h.isDepth_succ hqueue hsuccessor hunseen

/-- Those that wait already lie at depth `d` or `d + 1`, so more can wait behind them at depth `d + 1`. -/
theorem ordered : w'.queue.Pairwise fun e e' => e.2 ≤ e'.2 ∧ e'.2 ≤ e.2 + 1 := by
  obtain ⟨new, hqueue', -⟩ := ht.queue_eq
  have hordered := h.ordered
  rw [hqueue] at hordered
  rw [hqueue']
  refine List.pairwise_append.mpr ⟨(List.pairwise_cons.mp hordered).2, ?_, fun e he e' he' => ?_⟩
  · rw [List.pairwise_map]
    exact List.pairwise_of_forall fun _ _ => ⟨Nat.le_refl _, Nat.le_succ _⟩
  · obtain ⟨y, -, rfl⟩ := List.mem_map.mp he'
    obtain ⟨hle, hle'⟩ := h.le_of_mem_queue hqueue (hqueue ▸ List.mem_cons_of_mem _ he : (e.1, e.2) ∈ w.queue)
    exact ⟨hle', Nat.succ_le_succ hle⟩

/-- What waits has been seen, so it is none of those that join the queue because they have not. -/
theorem nodup : (w'.queue.map (·.1)).Nodup := by
  obtain ⟨new, hqueue', hnodup, hnew⟩ := ht.queue_eq
  have hall := h.nodup
  rw [hqueue, List.map_cons] at hall
  rw [hqueue', List.map_append, List.map_map]
  refine List.nodup_append.mpr ⟨(List.nodup_cons.mp hall).2, ?_, fun x hx y hy heq => ?_⟩
  · exact (List.map_id new).symm ▸ hnodup
  · obtain ⟨z, hz, rfl⟩ := List.mem_map.mp hy
    have hwaits : x ∈ w.queue.map (·.1) := hqueue ▸ List.mem_cons_of_mem _ hx
    exact h.not_unseen (.inr hwaits) (heq ▸ ((hnew z).mp hz).1)

/-- Neither what waited behind the front nor what joins the queue has a depth. -/
theorem unmarked_of_mem {x : Nat} (hx : x ∈ w'.queue.map (·.1)) : ¬ Marked w'.row x := by
  have hfront : v ∈ w.queue.map (·.1) := by simp [hqueue]
  rw [ht.marked_iff h hqueue, not_or]
  rcases (ht.mem_queue_iff x).mp hx with hrest | ⟨hunseen, -⟩
  · have hall := h.nodup
    rw [hqueue, List.map_cons] at hall
    refine ⟨h.unmarked_of_mem x ?_, fun heq => (List.nodup_cons.mp hall).1 (heq ▸ hrest)⟩
    exact hqueue ▸ List.mem_cons_of_mem _ hrest
  · exact ⟨fun hmarked => h.not_unseen (.inl hmarked) hunseen,
      fun heq => h.not_unseen (.inr (heq ▸ hfront)) hunseen⟩

/-- The successors of the front have all been seen now. -/
theorem closed (hsucc : ∀ u < n, ∀ v ∈ succ u, v < n) {u : Nat} (hu : Marked w'.row u) :
    ∀ x ∈ succ u, w'.seen[x]? = some true := by
  intro x hx
  rw [ht.seen_iff]
  rcases (ht.marked_iff h hqueue u).mp hu with hu | rfl
  · exact .inl (h.closed u hu x hx)
  · have hlt : x < w.seen.size := h.size_seen.symm ▸ hsucc u (h.front hqueue).1 x hx
    rw [Array.getElem?_eq_getElem hlt]
    cases w.seen[x] with
    | true => exact .inl rfl
    | false => exact .inr ⟨rfl, hx⟩

/-- A turn keeps a sweep sound. -/
theorem sound (hsucc : ∀ u < n, ∀ v ∈ succ u, v < n) : Sound succ n source w' where
  size_row := by rw [ht.row_eq, Array.size_setIfInBounds, h.size_row]
  size_seen := ht.size_seen.trans h.size_seen
  written _ _ := ht.written h hqueue
  waiting _ _ := ht.waiting h hqueue
  ordered := ht.ordered h hqueue
  nodup := ht.nodup h hqueue
  seen_iff x := by
    rw [ht.seen_iff, h.seen_iff, ht.marked_iff h hqueue, ht.mem_queue_iff, hqueue, List.map_cons,
      List.mem_cons, or_assoc, or_assoc, or_assoc]
  unmarked_of_mem _ := ht.unmarked_of_mem h hqueue
  seen_source := (ht.seen_iff source).mpr (.inl h.seen_source)
  closed _ := ht.closed h hqueue hsucc

/-- A turn leaves fewer vertices without a depth. -/
theorem unmarked_lt : unmarked n w'.row < unmarked n w.row := by
  obtain ⟨hv, hfresh⟩ := h.front hqueue
  have hsize : w'.row.size = n := by rw [ht.row_eq, Array.size_setIfInBounds, h.size_row]
  refine countP_lt_countP (List.mem_range.mpr hv) (fun x hx hnone => ?_) ?_ ?_
  · have hxlt := List.mem_range.mp hx
    rw [beq_iff_eq, ← not_marked_iff (by rwa [hsize]), ht.marked_iff h hqueue] at hnone
    rw [beq_iff_eq, ← not_marked_iff (by rwa [h.size_row])]
    exact fun hx => hnone (.inl hx)
  · rw [beq_eq_false_iff_ne, Ne, ← not_marked_iff (by rwa [hsize]), ht.marked_iff h hqueue]
    exact not_not_intro (.inr rfl)
  · rw [beq_iff_eq, ← not_marked_iff (by rwa [h.size_row])]
    exact hfresh

end Turn

end Front

/-! ## A whole sweep -/

/-- With at least as many turns as there are vertices without a depth, the queue is empty at the end. -/
theorem Sound.run (hsucc : ∀ u < n, ∀ v ∈ succ u, v < n) : ∀ (turns : Nat) {w : Sweep},
    Sound succ n source w → unmarked n w.row ≤ turns →
    Sound succ n source (Sweep.run succ turns w) ∧ (Sweep.run succ turns w).queue = []
  | 0, w, h, hturns => by
    refine ⟨h, ?_⟩
    cases hqueue : w.queue with
    | nil => exact hqueue
    | cons e rest =>
      have hlt := (turn_visit succ e.1 e.2 rest w).unmarked_lt h hqueue
      omega
  | turns + 1, w, h, hturns => by
    unfold Sweep.run
    split
    next hqueue => exact ⟨h, hqueue⟩
    next v d rest hqueue =>
      have hturn := turn_visit succ v d rest w
      have hlt := hturn.unmarked_lt h hqueue
      exact (hturn.sound h hqueue hsucc).run hsucc turns (by omega)

/-- When the queue is empty, exactly what can be reached has a depth. -/
theorem Sound.marked_iff {w : Sweep} (h : Sound succ n source w) (hqueue : w.queue = []) (v : Nat) :
    Marked w.row v ↔ Reaches succ source v := by
  have hseen : ∀ x : Nat, w.seen[x]? = some true ↔ Marked w.row x := by simp [h.seen_iff, hqueue]
  constructor
  · intro ⟨d, hd⟩
    obtain ⟨⟨rest, hwalk⟩, -⟩ := h.written v d hd
    exact hwalk.reaches
  · intro hreach
    induction hreach with
    | refl => exact (hseen source).mp h.seen_source
    | @tail u v _ harc ih => exact (hseen v).mp (h.closed u ih v harc)

end Sweep

/-- With at least as many turns as there are vertices the loop comes to its end, and the depths are the distances
that are found ring by ring. -/
theorem run_eq_hopsFrom (hsucc : ∀ u < n, ∀ v ∈ succ u, v < n) (hsource : source < n) {turns : Nat}
    (hturns : n ≤ turns) : (Sweep.run succ turns (Sweep.start n source)).queue = [] ∧
      (Sweep.run succ turns (Sweep.start n source)).row = hopsFrom succ n source := by
  have hcount : Rings.unmarked n (Sweep.start n source).row ≤ turns := by
    refine Nat.le_trans List.countP_le_length ?_
    rwa [List.length_range]
  obtain ⟨h, hqueue⟩ := (Sweep.sound_start hsource).run hsucc turns hcount
  generalize Sweep.run succ turns (Sweep.start n source) = w at h hqueue
  refine ⟨hqueue, Array.ext_getElem? fun v => ?_⟩
  have hsize := size_hopsFrom succ n source
  have hmarked : Rings.Marked w.row v ↔ Rings.Marked (hopsFrom succ n source) v :=
    (h.marked_iff hqueue v).trans (hopsFrom_marked_iff hsucc hsource v).symm
  by_cases hv : v < n
  · by_cases hdepth : Rings.Marked w.row v
    · obtain ⟨d, hd⟩ := hdepth
      obtain ⟨e, he⟩ := hmarked.mp ⟨d, hd⟩
      rw [hd, he, (h.written v d hd).unique (hopsFrom_least hsucc hsource he)]
    · rw [(Rings.not_marked_iff (h.size_row.symm ▸ hv)).mp hdepth,
        (Rings.not_marked_iff (hsize.symm ▸ hv)).mp (mt hmarked.mpr hdepth)]
  · rw [Array.getElem?_eq_none (h.size_row.symm ▸ Nat.le_of_not_lt hv),
      Array.getElem?_eq_none (hsize.symm ▸ Nat.le_of_not_lt hv)]

/-- The loop with a queue fills the row that is found ring by ring. -/
theorem sweepFrom_eq_hopsFrom (hsucc : ∀ u < n, ∀ v ∈ succ u, v < n) (hsource : source < n) :
    sweepFrom succ n source = hopsFrom succ n source :=
  (run_eq_hopsFrom hsucc hsource (Nat.le_refl n)).2

end QubitRouting.Graph

namespace QubitRouting.Coupling

/-- The table of distances is filled by one sweep for each qubit. -/
theorem Connected.distances_eq_sweeps {c : Coupling} (hc : c.Connected) : c.distances =
    ((List.range c.numQubits).map (Graph.sweepFrom c.adjacent c.numQubits)).toArray := by
  unfold distances
  refine congrArg List.toArray (List.map_congr_left fun q hq => ?_)
  refine (Graph.sweepFrom_eq_hopsFrom (fun u _ v hv => ?_) (List.mem_range.mp hq)).symm
  exact (hc.lt (mem_adjacent_iff.mp hv)).2

end QubitRouting.Coupling
