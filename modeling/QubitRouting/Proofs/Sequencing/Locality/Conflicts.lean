import QubitRouting.Proofs.Sequencing.Conflicts
import QubitRouting.Proofs.Sequencing.Parts
import QubitRouting.Proofs.Sequencing.Termination
import Mathlib.Order.MinMax

/-!
# Conflicts of a part are dealt with as if it were alone

The first loop of sequencing picks the hardest conflict of all. If it lies in a part of the plan, it is the
hardest one there as well, because the conflicts of the part are found in the same order
(`Part.nextConflict?_inside`); dealing with it does the same in both plans. If it lies outside, the part does
not notice. So the turns of the whole plan that concern the part are the turns of the part
(`Part.resolve`).
-/

namespace QubitRouting

theorem filter_flatMap {α β : Type} {l : List α} {f : α → List β} {keep : β → Bool} {keep' : α → Bool}
    (h : ∀ a ∈ l, ∀ b ∈ f a, keep b = keep' a) :
    (l.flatMap f).filter keep = (l.filter keep').flatMap f := by
  induction l with
  | nil => rfl
  | cons a l ih =>
    have hrest := ih fun a' ha' => h a' (List.mem_cons_of_mem a ha')
    have hfirst := h a List.mem_cons_self
    rw [List.flatMap_cons, List.filter_append, hrest]
    cases hkeep : keep' a with
    | false =>
      rw [List.filter_cons_of_neg (by simp [hkeep])]
      rw [List.filter_eq_nil_iff.mpr fun b hb => by simp [hfirst b hb, hkeep], List.nil_append]
    | true =>
      rw [List.filter_cons_of_pos hkeep, List.flatMap_cons]
      rw [List.filter_eq_self.mpr fun b hb => by rw [hfirst b hb, hkeep]]

/-! ## Lists of conflicts -/

namespace Conflict

/-- The conflict with its paths under other names. -/
def rename (f : PathId → PathId) (c : Conflict) : Conflict :=
  { c with bound := c.bound.map f }

variable {f : PathId → PathId} {ground : Qubit → Bool}

theorem note_rename (hf : Function.Injective f) (x : Qubit) (i : PathId) (found : List Conflict) :
    note x (f i) (found.map (rename f)) = (note x i found).map (rename f) := by
  induction found with
  | nil => rfl
  | cons c found ih =>
    have hcontains : (c.bound.map f).contains (f i) = c.bound.contains i := by
      rw [Bool.eq_iff_iff, List.contains_iff_mem, List.contains_iff_mem, List.mem_map_of_injective hf]
    simp only [List.map_cons, note]
    by_cases hx : c.node = x
    · rw [if_pos hx, if_pos (show (rename f c).node = x from hx), List.map_cons]
      simp only [rename, hcontains]
      split
      next => rfl
      next => rw [List.map_append]; rfl
    · rw [if_neg hx, if_neg (show ¬ (rename f c).node = x from hx), List.map_cons, ih]

/-- Noting a cut on the ground, seen from the ground. -/
theorem filter_note_pos {x : Qubit} (hx : ground x = true) (i : PathId) (found : List Conflict) :
    (note x i found).filter (fun c => ground c.node) =
      note x i (found.filter fun c => ground c.node) := by
  induction found with
  | nil => simp [note, hx]
  | cons c found ih =>
    by_cases hc : c.node = x
    · simp [note, hc, hx]
    · cases hground : ground c.node with
      | false => simp [note, hc, hground, ih]
      | true => simp [note, hc, hground, ih]

/-- Noting a cut off the ground, seen from the ground. -/
theorem filter_note_neg {x : Qubit} (hx : ground x = false) (i : PathId) (found : List Conflict) :
    (note x i found).filter (fun c => ground c.node) = found.filter fun c => ground c.node := by
  induction found with
  | nil => simp [note, hx]
  | cons c found ih =>
    by_cases hc : c.node = x
    · simp [note, hc, hx]
    · simp [note, List.filter_cons, hc, ih]

theorem lexLe_iff {a b : Nat × Nat} : lexLe a b = true ↔ a.1 < b.1 ∨ a.1 = b.1 ∧ a.2 ≤ b.2 := by
  simp [lexLe]

theorem lastLargest?_eq_none_iff {α : Type} {l : List ((Nat × Nat) × α)} :
    lastLargest? l = none ↔ l = [] := by
  cases l with
  | nil => simp [lastLargest?]
  | cons d rest =>
    simp only [lastLargest?, reduceCtorEq, iff_false]
    cases lastLargest? rest with
    | none => simp
    | some best =>
      dsimp only
      split <;> simp

/-- No entry has a larger key than the one that is picked. -/
theorem le_lastLargest? {α : Type} : ∀ {l : List ((Nat × Nat) × α)} {e : (Nat × Nat) × α},
    lastLargest? l = some e → ∀ d ∈ l, lexLe d.1 e.1 = true
  | [], _, h => by simp [lastLargest?] at h
  | d :: rest, e, h => by
    have hself : lexLe d.1 d.1 = true := by simp [lexLe_iff]
    unfold lastLargest? at h
    intro d' hd'
    split at h
    next hnone =>
      obtain rfl := Option.some.inj h
      rw [lastLargest?_eq_none_iff.mp hnone] at hd'
      rw [List.mem_singleton.mp hd']
      exact hself
    next best hbest =>
      have hrest := le_lastLargest? hbest
      split at h
      next hle =>
        obtain rfl := Option.some.inj h
        rcases List.mem_cons.mp hd' with rfl | hd'
        · exact hle
        · exact hrest d' hd'
      next hlt =>
        obtain rfl := Option.some.inj h
        rcases List.mem_cons.mp hd' with rfl | hd'
        · exact hself
        · have hle := hrest d' hd'
          rw [lexLe_iff] at hle hlt ⊢
          omega

/-- What is picked from a list is picked from any part of it that holds it. -/
theorem lastLargest?_filter {α : Type} (keep : (Nat × Nat) × α → Bool) :
    ∀ {l : List ((Nat × Nat) × α)} {e : (Nat × Nat) × α}, lastLargest? l = some e → keep e = true →
    lastLargest? (l.filter keep) = some e
  | [], _, h, _ => by simp [lastLargest?] at h
  | d :: rest, e, h, hkeep => by
    unfold lastLargest? at h
    split at h
    next hnone =>
      obtain rfl := Option.some.inj h
      rw [lastLargest?_eq_none_iff.mp hnone, List.filter_cons_of_pos hkeep]
      rfl
    next best hbest =>
      split at h
      next hle =>
        obtain rfl := Option.some.inj h
        have hpick := lastLargest?_filter keep hbest hkeep
        cases hd : keep d with
        | false => rwa [List.filter_cons_of_neg (by simp [hd])]
        | true =>
          rw [List.filter_cons_of_pos hd, lastLargest?, hpick]
          exact if_pos hle
      next hlt =>
        obtain rfl := Option.some.inj h
        rw [List.filter_cons_of_pos hkeep, lastLargest?]
        cases hpick : lastLargest? (rest.filter keep) with
        | none => rfl
        | some best' =>
          -- what is picked from fewer entries is no larger
          have hle := le_lastLargest? hbest best' (List.mem_filter.mp (Plan.lastLargest?_mem hpick)).1
          dsimp only
          rw [if_neg]
          rw [lexLe_iff] at hle hlt ⊢
          omega

theorem lastLargest?_map {α β : Type} (f : α → β) : ∀ (l : List ((Nat × Nat) × α)),
    lastLargest? (l.map fun e => (e.1, f e.2)) = (lastLargest? l).map fun e => (e.1, f e.2)
  | [] => rfl
  | d :: rest => by
    simp only [List.map_cons, lastLargest?, lastLargest?_map f rest]
    cases lastLargest? rest with
    | none => rfl
    | some best =>
      dsimp only [Option.map_some]
      split
      · rfl
      · rfl

end Conflict

namespace Plan

theorem noteAll_rename {f : PathId → PathId} (hf : Function.Injective f) (cuts : List (Qubit × PathId))
    (found : List Conflict) : noteAll (cuts.map fun e => (e.1, f e.2)) (found.map (Conflict.rename f)) =
      (noteAll cuts found).map (Conflict.rename f) := by
  induction cuts generalizing found with
  | nil => rfl
  | cons e cuts ih =>
    refine Eq.trans ?_ (ih (Conflict.note e.1 e.2 found))
    rw [← Conflict.note_rename hf]
    rfl

/-- The conflicts on the ground come from the cuts on the ground. -/
theorem filter_noteAll {ground : Qubit → Bool} (cuts : List (Qubit × PathId)) (found : List Conflict) :
    (noteAll cuts found).filter (fun c => ground c.node) =
      noteAll (cuts.filter fun e => ground e.1) (found.filter fun c => ground c.node) := by
  induction cuts generalizing found with
  | nil => rfl
  | cons e cuts ih =>
    refine (ih (Conflict.note e.1 e.2 found)).trans ?_
    cases hground : ground e.1 with
    | false =>
      rw [Conflict.filter_note_neg hground]
      simp [hground]
    | true =>
      rw [Conflict.filter_note_pos hground]
      simp [hground, noteAll]

namespace Part

variable {g : Sector} {q p : Plan}

/-! ## The next conflict -/

/-- The same nodes of the ground are settled. -/
def Agree (g : Sector) (settled' settled : List Qubit) : Prop :=
  ∀ x, g.ground x = true → settled.contains x = settled'.contains x

variable {settled settled' : List Qubit}

theorem boundNodes_eq (hagree : Agree g settled' settled) {s : Slot} {sp : Split}
    (hnodes : ∀ x, sp.boundAt x = true → g.ground x = true) :
    boundNodes settled (s.relabel g.rename) sp = boundNodes settled' s sp := by
  unfold boundNodes
  rw [Slot.relabel, List.flatMap_map]
  refine List.filter_congr fun x _ => ?_
  cases hb : sp.boundAt x with
  | false => rw [Bool.and_false, Bool.and_false]
  | true => rw [hagree x (hnodes x hb)]

/-- The cuts on the ground are those of the part. -/
theorem cuts_eq (h : Part g q p) (hagree : Agree g settled' settled) :
    (p.cuts settled).filter (fun e => g.ground e.1) =
      (q.cuts settled').map fun e => (e.1, g.rename e.2) := by
  have hside : ∀ entry ∈ p.registry.entries, ∀ e ∈ p.cutsOf settled entry,
      g.ground e.1 = g.holds entry.1 := by
    intro entry hentry e he
    have hs := Registry.mem_entries_iff.mp hentry
    obtain ⟨sp, hsp, hnodes, -⟩ := h.sound.aligned.split_of_slot hs
    unfold cutsOf at he
    rw [hsp] at he
    obtain ⟨x, hx, rfl⟩ := List.mem_map.mp he
    refine h.registry.ground_eq hs ?_
    rw [← hnodes]
    exact Split.mem_nodes_of_boundAt (Bool.and_eq_true_iff.mp (List.mem_filter.mp hx).2).2
  unfold cuts
  rw [filter_flatMap hside, h.registry.entries_eq, List.flatMap_map, List.map_flatMap]
  refine List.flatMap_congr fun entry hentry => ?_
  have hs := Registry.mem_entries_iff.mp hentry
  obtain ⟨sp, hsp, hnodes, -⟩ := h.sound_part.aligned.split_of_slot hs
  unfold cutsOf
  rw [h.split?, hsp, List.map_map]
  dsimp only
  rw [boundNodes_eq hagree]
  · rfl
  · intro x hx
    exact h.registry.inside hs x (hnodes ▸ Split.mem_nodes_of_boundAt hx)

/-- The part has the conflicts that the whole plan has on its ground. -/
theorem conflicts_eq (h : Part g q p) (hagree : Agree g settled' settled) :
    (noteAll (p.cuts settled) []).filter (fun c => g.ground c.node) =
      (noteAll (q.cuts settled') []).map (Conflict.rename g.rename) := by
  rw [filter_noteAll, h.cuts_eq hagree, ← noteAll_rename g.injective]
  rfl

/-- A conflict is ranked the same in both plans. -/
theorem rank_rename (h : Part g q p) (c : Conflict) : p.rank (c.rename g.rename) = q.rank c := by
  unfold rank Conflict.rename
  rw [List.length_map, List.map_map]
  have hlen : p.registry.lengthAt ∘ g.rename = q.registry.lengthAt := funext h.lengthAt_rename
  rw [hlen]

/-- If no conflict is left in the whole plan, none is left in the part. -/
theorem nextConflict?_none (h : Part g q p) (hagree : Agree g settled' settled)
    (hnext : p.nextConflict? settled = .ok none) : q.nextConflict? settled' = .ok none := by
  rw [nextConflict?_eq h.sound] at hnext
  have hnone := Option.map_eq_none_iff.mp (Except.ok.inj hnext)
  have hempty := List.map_eq_nil_iff.mp (Conflict.lastLargest?_eq_none_iff.mp hnone)
  have hpart := h.conflicts_eq hagree
  rw [hempty] at hpart
  rw [nextConflict?_eq h.sound_part, List.map_eq_nil_iff.mp hpart.symm]
  rfl

/-- A conflict on the ground that is dealt with next is the next one of the part. -/
theorem nextConflict?_inside (h : Part g q p) (hagree : Agree g settled' settled) {c : Conflict}
    (hnext : p.nextConflict? settled = .ok (some c)) (hground : g.ground c.node = true) :
    ∃ c', c = c'.rename g.rename ∧ q.nextConflict? settled' = .ok (some c') := by
  rw [nextConflict?_eq h.sound] at hnext
  obtain ⟨e, he, rfl⟩ := Option.map_eq_some_iff.mp (Except.ok.inj hnext)
  -- it is the hardest of those on the ground, and these are the conflicts of the part
  have hpick := Conflict.lastLargest?_filter (fun e => g.ground e.2.node) he hground
  have hpart : ((noteAll (p.cuts settled) []).map fun c => (p.rank c, c)).filter
      (fun e => g.ground e.2.node) =
      ((noteAll (q.cuts settled') []).map fun c => (q.rank c, c)).map
        fun e => (e.1, e.2.rename g.rename) := by
    rw [List.filter_map, List.map_map]
    refine (congrArg (List.map _) (h.conflicts_eq hagree)).trans ?_
    rw [List.map_map]
    refine List.map_congr_left fun c _ => ?_
    rw [Function.comp_apply, Function.comp_apply, h.rank_rename]
  rw [hpart, Conflict.lastLargest?_map] at hpick
  obtain ⟨e', he', rfl⟩ := Option.map_eq_some_iff.mp hpick
  refine ⟨e'.2, rfl, ?_⟩
  rw [nextConflict?_eq h.sound_part, he']
  rfl

/-- Paths that are cut off the ground do not belong to the part. -/
theorem holds_of_cutAt (h : Part g q p) {j : PathId} {x : Qubit} (hcut : p.CutAt settled j x) :
    g.holds j = g.ground x := by
  obtain ⟨-, s, sp, hs, hsp, hb, -⟩ := hcut
  obtain ⟨s', hs', hnodes⟩ := h.sound.aligned.slot_of_split hsp
  exact (h.registry.ground_eq hs' (hnodes ▸ Split.mem_nodes_of_boundAt hb)).symm

/-! ## One conflict -/

theorem partners_rename (h : Part g q p) (i : PathId) (x : Qubit) :
    p.partners (g.rename i) x = (q.partners i x).map g.rename := by
  unfold partners
  rw [h.crossingsAt_rename, List.filter_map, List.map_map]
  have hle : ∀ a b, decide (g.rename a ≤ g.rename b) = decide (a ≤ b) := fun a b =>
    decide_eq_decide.mpr g.strictMono.le_iff_le
  rw [← sortBy_map (fun a b => decide (a ≤ b)) hle, List.map_map]
  rfl

/-- Moving a path behind its partners, all of them in the part, is the same move in both plans. -/
theorem moveBehind : ∀ (partners : List PathId) (current : PathId) {q p : Plan}, Part g q p →
    Together (Plan.moveBehind partners current q)
      (Plan.moveBehind (partners.map g.rename) (g.rename current) p) (Part g)
  | [], _, _, _, h => .of_ok h
  | partner :: rest, current, q, p, h => by
    rw [List.map_cons]
    unfold Plan.moveBehind
    by_cases hlt : current < partner
    · rw [if_pos hlt, if_pos (g.strictMono hlt)]
      refine (h.exchange current partner).bind fun x y hxy => ?_
      obtain ⟨q', done⟩ := x
      obtain ⟨p', done'⟩ := y
      obtain ⟨h', rfl⟩ := hxy
      have hcurrent : (if done = true then g.rename partner else g.rename current) =
          g.rename (if done = true then partner else current) := (apply_ite g.rename _ _ _).symm
      dsimp only
      rw [hcurrent]
      exact moveBehind rest _ h'
    · rw [if_neg hlt, if_neg (mt g.strictMono.lt_iff_lt.mp hlt)]
      exact moveBehind rest current h

/-- Moving paths outside behind one another leaves the part as it is. -/
theorem moveBehind_outside : ∀ {partners : List PathId} {current : PathId} {p : Plan}, Part g q p →
    (∀ j ∈ partners, g.holds j = false) → g.holds current = false →
    ∃ p', Plan.moveBehind partners current p = .ok p' ∧ Part g q p'
  | [], _, p, h, _, _ => ⟨p, rfl, h⟩
  | partner :: rest, current, p, h, hpartners, hcurrent => by
    have hpartner := hpartners partner List.mem_cons_self
    have hrest : ∀ j ∈ rest, g.holds j = false :=
      fun j hj => hpartners j (List.mem_cons_of_mem partner hj)
    unfold Plan.moveBehind
    split
    next =>
      obtain ⟨p₁, done, h₁, hpart⟩ := h.exchange_outside hcurrent hpartner
      rw [h₁, ok_bind]
      refine moveBehind_outside hpart hrest ?_
      split
      next => exact hpartner
      next => exact hcurrent
    next => exact moveBehind_outside h hrest hcurrent

/-- The ranking by length is the same: the names only decide between equally long paths. -/
theorem ranked_eq (h : Part g q p) (bound : List PathId) :
    sortBy (fun a b => lexLe b a)
        ((bound.map g.rename).map fun id => (p.registry.lengthAt id, id)) =
      (sortBy (fun a b => lexLe b a) (bound.map fun id => (q.registry.lengthAt id, id))).map
        fun e => (e.1, g.rename e.2) := by
  have hle : ∀ a b : Nat × PathId, lexLe (b.1, g.rename b.2) (a.1, g.rename a.2) = lexLe b a := by
    intro a b
    rw [Bool.eq_iff_iff, Conflict.lexLe_iff, Conflict.lexLe_iff, g.strictMono.le_iff_le]
  rw [← sortBy_map (fun a b => lexLe b a) hle, List.map_map, List.map_map]
  refine congrArg _ (List.map_congr_left fun i _ => ?_)
  rw [Function.comp_apply, Function.comp_apply, h.lengthAt_rename]

/-- Separating the paths of a conflict in the part is the same in both plans. -/
theorem separate (h : Part g q p) {c : Conflict} (hc : q.Genuine settled' c) :
    Together (q.separate c.node c.bound) (p.separate c.node (c.bound.map g.rename)) (Part g) := by
  have hmem := q.mem_of_mem_ranked c.bound
  unfold Plan.separate
  rw [h.ranked_eq]
  generalize sortBy (fun a b => lexLe b a)
    (c.bound.map fun id => (q.registry.lengthAt id, id)) = ranked at hmem ⊢
  match ranked with
  | [] => exact .of_ok h
  | [_] => exact .of_ok h
  | (n₁, first) :: (n₂, second) :: rest =>
    obtain ⟨-, s₁, sp₁, hs₁, hsp₁, -⟩ := hc.cutAt first (hmem _ List.mem_cons_self)
    obtain ⟨-, s₂, sp₂, hs₂, hsp₂, -⟩ :=
      hc.cutAt second (hmem _ (List.mem_cons_of_mem _ List.mem_cons_self))
    refine (h.shift? hsp₁ c.node).bind fun o o' ho => ?_
    cases ho with
    | some h' => exact .of_ok h'
    | none =>
      refine (h.shift? hsp₂ c.node).bind fun o o' ho => ?_
      cases ho with
      | some h' => exact .of_ok h'
      | none =>
        have hmax : max (g.rename first) (g.rename second) = g.rename (max first second) :=
          (g.strictMono.monotone.map_max).symm
        show Together _ (p.discard (max (g.rename first) (g.rename second))) _
        rw [hmax]
        refine h.discard ?_
        rcases Nat.le_total first second with hle | hle
        · rw [Nat.max_eq_right hle]
          exact ⟨s₂, hs₂⟩
        · rw [Nat.max_eq_left hle]
          exact ⟨s₁, hs₁⟩

/-- Separating the paths of a conflict elsewhere leaves the part as it is. -/
theorem separate_outside (h : Part g q p) {c : Conflict} (hc : p.Genuine settled c)
    (hground : g.ground c.node = false) : ∃ p', p.separate c.node c.bound = .ok p' ∧ Part g q p' := by
  have hmem := p.mem_of_mem_ranked c.bound
  have hout : ∀ j ∈ c.bound, g.holds j = false := fun j hj =>
    (h.holds_of_cutAt (hc.cutAt j hj)).trans hground
  unfold Plan.separate
  generalize sortBy (fun a b => lexLe b a)
    (c.bound.map fun id => (p.registry.lengthAt id, id)) = ranked at hmem ⊢
  match ranked with
  | [] => exact ⟨p, rfl, h⟩
  | [_] => exact ⟨p, rfl, h⟩
  | (n₁, first) :: (n₂, second) :: rest =>
    have hfirst := hmem _ List.mem_cons_self
    have hsecond := hmem _ (List.mem_cons_of_mem _ List.mem_cons_self)
    obtain ⟨-, s₁, sp₁, hs₁, hsp₁, -⟩ := hc.cutAt first hfirst
    obtain ⟨-, s₂, sp₂, hs₂, hsp₂, -⟩ := hc.cutAt second hsecond
    obtain ⟨o₁, h₁, hpart₁⟩ := h.shift?_outside (hout first hfirst) hsp₁ c.node
    simp only [h₁, ok_bind]
    cases o₁ with
    | some p' => exact ⟨p', rfl, hpart₁ p' rfl⟩
    | none =>
      obtain ⟨o₂, h₂, hpart₂⟩ := h.shift?_outside (hout second hsecond) hsp₂ c.node
      simp only [h₂, ok_bind]
      cases o₂ with
      | some p' => exact ⟨p', rfl, hpart₂ p' rfl⟩
      | none =>
        rcases Nat.le_total first second with hle | hle
        · rw [Nat.max_eq_right hle]
          exact h.discard_outside (hout second hsecond) ⟨s₂, hs₂⟩
        · rw [Nat.max_eq_left hle]
          exact h.discard_outside (hout first hfirst) ⟨s₁, hs₁⟩

/-- Dealing with a conflict of the part does the same in both plans. -/
theorem settle (h : Part g q p) (hagree : Agree g settled' settled) {c : Conflict}
    (hc : q.Genuine settled' c) :
    Together (q.settle settled' c) (p.settle settled (c.rename g.rename))
      fun x y => Part g x.1 y.1 ∧ Agree g x.2 y.2 := by
  obtain ⟨node, bound⟩ := c
  unfold Plan.settle Conflict.rename
  match bound with
  | [] => exact (h.separate hc).bind fun q' p' h' => .of_ok ⟨h', hagree⟩
  | [i] =>
    show Together (q.sequenceAfterPartners i node >>= fun q' => pure (q', node :: settled'))
      (p.sequenceAfterPartners (g.rename i) node >>= fun p' => pure (p', node :: settled)) _
    unfold sequenceAfterPartners
    rw [h.partners_rename]
    refine (moveBehind _ i h).bind fun q' p' h' => .of_ok ⟨h', fun x hx => ?_⟩
    rw [List.contains_cons, List.contains_cons, hagree x hx]
  | _ :: _ :: _ => exact (h.separate hc).bind fun q' p' h' => .of_ok ⟨h', hagree⟩

/-- Dealing with a conflict off the ground does not touch the part. -/
theorem settle_outside (h : Part g q p) (hagree : Agree g settled' settled) {c : Conflict}
    (hc : p.Genuine settled c) (hground : g.ground c.node = false) :
    ∃ p' settled₁, p.settle settled c = .ok (p', settled₁) ∧ Part g q p' ∧ Agree g settled' settled₁ := by
  unfold Plan.settle
  split
  next i hbound =>
    have hcut := hc.cutAt i (hbound ▸ List.mem_cons_self)
    have hi : g.holds i = false := (h.holds_of_cutAt hcut).trans hground
    have hpartners : ∀ j ∈ p.partners i c.node, g.holds j = false := by
      intro j hj
      obtain ⟨d, hd, rfl⟩ := List.mem_map.mp (mem_sortBy.mp hj)
      obtain ⟨s, hs⟩ := hcut.occupied
      rw [crossingsAt_eq hs] at hd
      exact (h.registry.holds_crossing h.sound.valid hs (List.mem_filter.mp hd).1).trans hi
    obtain ⟨p', hp', hpart⟩ := moveBehind_outside h hpartners hi
    refine ⟨p', c.node :: settled, ?_, hpart, fun x hx => ?_⟩
    · unfold sequenceAfterPartners
      rw [hp']
      rfl
    · have hne : x ≠ c.node := by
        rintro rfl
        rw [hground] at hx
        contradiction
      rw [List.contains_cons, beq_eq_false_iff_ne.mpr hne, Bool.false_or, hagree x hx]
  next =>
    obtain ⟨p', hp', hpart⟩ := h.separate_outside hc hground
    exact ⟨p', settled, by rw [hp']; rfl, hpart, hagree⟩

/-! ## All conflicts -/

/-- A turn of the whole plan is a turn of the part, or leaves it as it is. -/
theorem resolveTurn (h : Part g q p) (hagree : Agree g settled' settled) {b : List Qubit × Plan}
    (hturn : ResolveTurn (settled, p) b) :
    (Part g q b.2 ∧ Agree g settled' b.1) ∨
      ∃ b', ResolveTurn (settled', q) b' ∧ Part g b'.2 b.2 ∧ Agree g b'.1 b.1 := by
  obtain ⟨c, hnext, hsettle⟩ := hturn
  dsimp only at hnext hsettle
  cases hground : g.ground c.node with
  | false =>
    obtain ⟨o, ho, hgenuine⟩ := nextConflict?_total h.sound settled
    have hc := hgenuine c (Except.ok.inj (ho.symm.trans hnext))
    obtain ⟨p', settled₁, hsettle', hpart, hagree'⟩ := h.settle_outside hagree hc hground
    obtain ⟨rfl, rfl⟩ := Prod.mk.inj (Except.ok.inj (hsettle'.symm.trans hsettle))
    exact .inl ⟨hpart, hagree'⟩
  | true =>
    obtain ⟨c', rfl, hnext'⟩ := h.nextConflict?_inside hagree hnext hground
    obtain ⟨o, ho, hgenuine⟩ := nextConflict?_total h.sound_part settled'
    have hc := hgenuine c' (Except.ok.inj (ho.symm.trans hnext'))
    obtain ⟨⟨q', settled₁'⟩, ⟨p', settled₁⟩, hq', hp', hpart, hagree'⟩ := h.settle hagree hc
    obtain ⟨rfl, rfl⟩ := Prod.mk.inj (Except.ok.inj (hp'.symm.trans hsettle))
    exact .inr ⟨(settled₁', q'), ⟨c', hnext', hq'⟩, hpart, hagree'⟩

/-- A run on the whole plan has a run on the part inside it. The part may need fewer turns, because those
spent elsewhere leave it as it is. -/
theorem resolveWithin : ∀ {turns : Nat} {settled settled' : List Qubit} {q p p' : Plan}, Part g q p →
    Agree g settled' settled → Plan.resolveWithin turns settled p = .ok p' →
    ∃ turns' q', Plan.resolveWithin turns' settled' q = .ok q' ∧ Part g q' p'
  | 0, _, _, _, _, _, _, _, hrun => by contradiction
  | turns + 1, settled, settled', q, p, p', h, hagree, hrun => by
    rcases resolveWithin_succ_iff.mp hrun with ⟨hend, rfl⟩ | ⟨b, hturn, hrun⟩
    · exact ⟨1, q, resolveWithin_succ_iff.mpr (.inl ⟨h.nextConflict?_none hagree hend, rfl⟩), h⟩
    · rcases h.resolveTurn hagree hturn with ⟨hpart, hagree'⟩ | ⟨b', hturn', hpart, hagree'⟩
      · exact resolveWithin hpart hagree' hrun
      · obtain ⟨turns', q', hq', hpart'⟩ := resolveWithin hpart hagree' hrun
        exact ⟨turns' + 1, q', resolveWithin_succ_iff.mpr (.inr ⟨b', hturn', hq'⟩), hpart'⟩

/-- When all conflicts are dealt with, the part is what it would be on its own. -/
theorem resolve (h : Part g q p) : Together q.resolve p.resolve (Part g) := by
  obtain ⟨p', hp', -⟩ := resolve_total h.sound
  obtain ⟨q', hq', -⟩ := resolve_total h.sound_part
  have hagree : Agree g [] [] := fun _ _ => rfl
  obtain ⟨turns, q₁, hq₁, hpart⟩ := resolveWithin h hagree hp'
  -- both bounds are large enough, so the answers are the same
  have hmore := resolveWithin_mono (Nat.le_max_left turns q.resolveBound) hq₁
  have hmore' := resolveWithin_mono (Nat.le_max_right turns q.resolveBound) hq'
  obtain rfl := Except.ok.inj (hmore.symm.trans hmore')
  exact ⟨q₁, p', hq', hp', hpart⟩

end Part

end Plan

end QubitRouting
