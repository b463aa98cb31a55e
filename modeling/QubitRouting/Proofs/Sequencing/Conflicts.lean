import QubitRouting.Proofs.Sequencing.Moves
import QubitRouting.Sequencing.Conflicts

/-!
# Conflicts are dealt with in finitely many turns

Every conflict that is found is genuine: the paths it lists are cut at its node, which is a crossing of
theirs. So a turn of `Plan.resolve` either settles a node, and rearranges the plan, or reduces it. The
number of unsettled nodes plus the load of the plan drops in each turn (`ResolveTurn.descends`), and
starts below the bound.
-/

namespace QubitRouting

namespace Plan

/-- The path in slot `i` is cut at the crossing node `x`, which is not settled. -/
def CutAt (p : Plan) (settled : List Qubit) (i : PathId) (x : Qubit) : Prop :=
  x ∉ settled ∧ ∃ s sp, p.registry.slot? i = some s ∧ p.split? i = some sp ∧
    sp.boundAt x = true ∧ ∃ c ∈ s.crossings, x ∈ c.overlap

theorem CutAt.isCut {p : Plan} {settled : List Qubit} {i : PathId} {x : Qubit}
    (h : p.CutAt settled i x) : p.isCut i = true := by
  obtain ⟨-, s, sp, hs, hsp, hb, c, hc, hx⟩ := h
  exact isCut_iff.mpr ⟨s, sp, hs, hsp, c, hc, x, hx, hb⟩

theorem CutAt.occupied {p : Plan} {settled : List Qubit} {i : PathId} {x : Qubit}
    (h : p.CutAt settled i x) : ∃ s, p.registry.slot? i = some s :=
  let ⟨_, s, _, hs, _⟩ := h
  ⟨s, hs⟩

/-- A conflict that lists paths, each once, and only such that are cut at its node. -/
structure Genuine (p : Plan) (settled : List Qubit) (c : Conflict) : Prop where
  ne_nil : c.bound ≠ []
  nodup : c.bound.Nodup
  cutAt : ∀ i ∈ c.bound, p.CutAt settled i c.node

/-! ## Finding conflicts -/

theorem note_genuine {p : Plan} {settled : List Qubit} {i : PathId} {x : Qubit}
    (hx : p.CutAt settled i x) : ∀ {found : List Conflict},
    (∀ c ∈ found, p.Genuine settled c) → ∀ c ∈ Conflict.note x i found, p.Genuine settled c
  | [], _, c, hc => by
    obtain rfl : c = ⟨x, [i]⟩ := by simpa [Conflict.note] using hc
    exact ⟨List.cons_ne_nil _ _, List.nodup_singleton _, fun j hj => by
      rwa [List.mem_singleton.mp hj]⟩
  | d :: rest, hfound, c, hc => by
    have hd := hfound d List.mem_cons_self
    have hrest : ∀ c ∈ rest, p.Genuine settled c :=
      fun c hc => hfound c (List.mem_cons_of_mem d hc)
    unfold Conflict.note at hc
    split at hc
    next hnode =>
      rcases List.mem_cons.mp hc with rfl | hc
      · split
        next => exact hd
        next hmem =>
          have hmem' : i ∉ d.bound := fun h => hmem (List.contains_iff_mem.mpr h)
          refine ⟨by simp, hd.nodup.append (List.nodup_singleton i) ?_, fun j hj => ?_⟩
          · exact fun j hj hj' => hmem' (List.mem_singleton.mp hj' ▸ hj)
          · rcases List.mem_append.mp hj with hj | hj
            · exact hd.cutAt j hj
            · rw [List.mem_singleton.mp hj]
              exact hnode ▸ hx
      · exact hrest c hc
    next =>
      rcases List.mem_cons.mp hc with rfl | hc
      · exact hd
      · exact note_genuine hx hrest c hc

/-- The conflicts that a list of cuts, each a node and a path, amounts to. -/
def noteAll (cuts : List (Qubit × PathId)) (found : List Conflict) : List Conflict :=
  cuts.foldl (fun found e => Conflict.note e.1 e.2 found) found

theorem noteAll_genuine {p : Plan} {settled : List Qubit} :
    ∀ (cuts : List (Qubit × PathId)) {found : List Conflict}, (∀ e ∈ cuts, p.CutAt settled e.2 e.1) →
    (∀ c ∈ found, p.Genuine settled c) → ∀ c ∈ noteAll cuts found, p.Genuine settled c
  | [], _, _, hfound => hfound
  | e :: cuts, _, hcuts, hfound => by
    have hrest : ∀ e' ∈ cuts, p.CutAt settled e'.2 e'.1 :=
      fun e' he' => hcuts e' (List.mem_cons_of_mem e he')
    exact noteAll_genuine cuts hrest (note_genuine (hcuts e List.mem_cons_self) hfound)

/-- The unsettled nodes at which a path is cut, each with the number of the path. -/
def cutsOf (p : Plan) (settled : List Qubit) (e : PathId × Slot) : List (Qubit × PathId) :=
  match p.split? e.1 with
  | none => []
  | some sp => (boundNodes settled e.2 sp).map fun x => (x, e.1)

/-- All cuts at unsettled crossings, path by path. -/
def cuts (p : Plan) (settled : List Qubit) : List (Qubit × PathId) :=
  p.registry.entries.flatMap (p.cutsOf settled)

theorem cutAt_of_mem_cuts {p : Plan} {settled : List Qubit} :
    ∀ e ∈ p.cuts settled, p.CutAt settled e.2 e.1 := by
  intro e he
  obtain ⟨entry, hentry, he⟩ := List.mem_flatMap.mp he
  unfold cutsOf at he
  split at he
  next => exact absurd he List.not_mem_nil
  next sp hsp =>
    obtain ⟨x, hx, rfl⟩ := List.mem_map.mp he
    simp only [boundNodes, List.mem_filter, List.mem_flatMap, Bool.and_eq_true,
      Bool.not_eq_true', List.contains_eq_mem, decide_eq_false_iff_not] at hx
    obtain ⟨⟨c, hc, hxc⟩, hx, hb⟩ := hx
    exact ⟨hx, entry.2, sp, Registry.mem_entries_iff.mp hentry, hsp, hb, c, hc, hxc⟩

/-- Looking for conflicts never faults. -/
theorem conflicts_eq {p : Plan} (hp : p.Sound) (settled : List Qubit) :
    p.conflicts settled = .ok (noteAll (p.cuts settled) []) := by
  obtain ⟨found, hfound, rfl⟩ : ∃ found, p.conflicts settled = .ok found ∧
      found = noteAll (p.cuts settled) [] := by
    refine foldlM_total (fun done found => found = noteAll (done.flatMap (p.cutsOf settled)) []) rfl
      fun done e rest found hl hfound => ?_
    have hs : p.registry.slot? e.1 = some e.2 :=
      Registry.mem_entries_iff.mp (hl ▸ List.mem_append_right _ List.mem_cons_self)
    obtain ⟨sp, hsp, -⟩ := hp.aligned.split_of_slot hs
    refine ⟨noteAll (p.cutsOf settled e) found, ?_, ?_⟩
    · unfold noteConflicts cutsOf noteAll
      rw [fetch_eq_ok (split?_eq_some_iff.mp hsp), hsp]
      simp only [List.foldl_map, ok_bind, pure_eq_ok]
    · rw [hfound, List.flatMap_append, List.flatMap_singleton]
      exact List.foldl_append.symm
  exact hfound

theorem conflicts_genuine (p : Plan) (settled : List Qubit) :
    ∀ c ∈ noteAll (p.cuts settled) [], p.Genuine settled c :=
  noteAll_genuine _ cutAt_of_mem_cuts fun _ hc => absurd hc List.not_mem_nil

/-! ## The hardest conflict -/

theorem lastLargest?_mem {α : Type} : ∀ {l : List ((Nat × Nat) × α)} {e : (Nat × Nat) × α},
    Conflict.lastLargest? l = some e → e ∈ l
  | [], _, h => by simp [Conflict.lastLargest?] at h
  | d :: rest, e, h => by
    unfold Conflict.lastLargest? at h
    split at h
    next =>
      obtain rfl := Option.some.inj h
      exact List.mem_cons_self
    next best hbest =>
      split at h
      next =>
        obtain rfl := Option.some.inj h
        exact List.mem_cons_of_mem d (lastLargest?_mem hbest)
      next =>
        obtain rfl := Option.some.inj h
        exact List.mem_cons_self

/-- Paths of at least one node have at least as many nodes together as there are paths. -/
theorem length_le_total {f : PathId → Nat} : ∀ {l : List PathId}, (∀ i ∈ l, 1 ≤ f i) →
    l.length ≤ (l.map f).foldr (· + ·) 0
  | [], _ => Nat.le_refl _
  | i :: l, h => by
    have hi := h i List.mem_cons_self
    have hl := length_le_total (l := l) fun j hj => h j (List.mem_cons_of_mem i hj)
    simp only [List.length_cons, List.map_cons, List.foldr_cons]
    omega

theorem lengthAt_eq {r : Registry} {i : PathId} {s : Slot} (h : r.slot? i = some s) :
    r.lengthAt i = s.nodes.length := by
  simp [Registry.lengthAt, Registry.path?, h]

/-- How hard a conflict is, if it is one. -/
def rank (p : Plan) (c : Conflict) : Nat × Nat :=
  (c.bound.length, (c.bound.map p.registry.lengthAt).foldr (· + ·) 0 + 1 - c.bound.length)

theorem hardness_eq {p : Plan} (hp : p.Sound) {settled : List Qubit} {c : Conflict}
    (hc : p.Genuine settled c) : p.hardness c = .ok (p.rank c) := by
  have hlen : c.bound.length ≤ (c.bound.map p.registry.lengthAt).foldr (· + ·) 0 := by
    refine length_le_total fun i hi => ?_
    obtain ⟨s, hs⟩ := (hc.cutAt i hi).occupied
    have := (hp.valid.simple hs).1
    rw [lengthAt_eq hs]
    omega
  unfold hardness rank
  simp only [subtract_eq_ok (Nat.le_succ_of_le hlen), ok_bind, pure_eq_ok]

theorem hardest?_eq {p : Plan} (hp : p.Sound) {settled : List Qubit} {found : List Conflict}
    (hfound : ∀ c ∈ found, p.Genuine settled c) : p.hardest? found =
      .ok ((Conflict.lastLargest? (found.map fun c => (p.rank c, c))).map (·.2)) := by
  unfold hardest?
  rw [mapM_eq_ok (g := fun c => (p.rank c, c))]
  · rfl
  · intro c hc
    rw [hardness_eq hp (hfound c hc)]
    rfl

/-! ## Dealing with one conflict -/

/-- Moving a path behind its partners rearranges the plan. -/
theorem moveBehind_total : ∀ (partners : List PathId) (current : PathId) {p : Plan}, p.Sound →
    ∃ p' σ, moveBehind partners current p = .ok p' ∧ Rearranged p p' σ
  | [], _, p, _ => ⟨p, _, rfl, .refl p⟩
  | partner :: rest, current, p, hp => by
    unfold moveBehind
    split
    next =>
      obtain ⟨p₁, done, σ, h₁, hre₁⟩ := exchange_total hp current partner
      obtain ⟨p₂, τ, h₂, hre₂⟩ := moveBehind_total rest (if done then partner else current)
        (hre₁.sound hp)
      exact ⟨p₂, _, by rw [h₁, ok_bind]; exact h₂, hre₁.trans hre₂⟩
    next => exact moveBehind_total rest current hp

theorem mem_of_mem_ranked (p : Plan) (bound : List PathId) : ∀ e ∈ sortBy (fun a b => lexLe b a)
    (bound.map fun id => (p.registry.lengthAt id, id)), e.2 ∈ bound := by
  intro e he
  obtain ⟨i, hi, rfl⟩ := List.mem_map.mp (mem_sortBy.mp he)
  exact hi

/-- Several paths are cut at one node: a cut moves away, or one of the paths goes. -/
theorem separate_total {p : Plan} (hp : p.Sound) {settled : List Qubit} {c : Conflict}
    (hc : p.Genuine settled c) (htwo : 2 ≤ c.bound.length) :
    ∃ p', p.separate c.node c.bound = .ok p' ∧ Reduced p p' := by
  have hids : 2 ≤ p.registry.ids.length := by
    have hsub : c.bound ⊆ p.registry.ids := fun i hi =>
      Registry.mem_ids_iff.mpr (hc.cutAt i hi).occupied
    exact Nat.le_trans htwo (List.subperm_of_subset hc.nodup hsub).length_le
  have hperm := sortBy_perm (fun a b => lexLe b a)
    (c.bound.map fun id => (p.registry.lengthAt id, id))
  have hmem := p.mem_of_mem_ranked c.bound
  unfold separate
  -- the ranking has two entries in front, both of them bound paths
  match hrank : sortBy (fun a b => lexLe b a)
      (c.bound.map fun id => (p.registry.lengthAt id, id)) with
  | [] =>
    rw [hrank] at hperm
    have := hperm.length_eq
    simp only [List.length_nil, List.length_map] at this
    omega
  | [_] =>
    rw [hrank] at hperm
    have := hperm.length_eq
    simp only [List.length_singleton, List.length_map] at this
    omega
  | (n₁, first) :: (n₂, second) :: rest =>
    rw [hrank] at hmem
    have hfirst := hc.cutAt first (hmem _ List.mem_cons_self)
    have hsecond := hc.cutAt second (hmem _ (List.mem_cons_of_mem _ List.mem_cons_self))
    -- the longest path is asked to move its cut, then the second longest, and then one of them goes
    obtain ⟨o₁, h₁, hred₁⟩ := shift?_total c.node hfirst.isCut
    simp only [h₁, ok_bind]
    cases o₁ with
    | some p' => exact ⟨p', rfl, hred₁ p' rfl⟩
    | none =>
      obtain ⟨o₂, h₂, hred₂⟩ := shift?_total c.node hsecond.isCut
      simp only [h₂, ok_bind]
      cases o₂ with
      | some p' => exact ⟨p', rfl, hred₂ p' rfl⟩
      | none =>
        refine discard_total hp ?_ hids
        rcases Nat.le_total first second with h | h
        · rw [Nat.max_eq_right h]
          exact hsecond.occupied
        · rw [Nat.max_eq_left h]
          exact hfirst.occupied

/-- A turn settles a node by rearranging, or reduces the plan. -/
theorem settle_total {p : Plan} (hp : p.Sound) {settled : List Qubit} {c : Conflict}
    (hc : p.Genuine settled c) :
    ∃ p' settled', p.settle settled c = .ok (p', settled') ∧
      ((∃ σ, Rearranged p p' σ) ∧ settled' = c.node :: settled ∨
        Reduced p p' ∧ settled' = settled) := by
  unfold settle
  split
  next id hbound =>
    obtain ⟨p', σ, h, hre⟩ := moveBehind_total (p.partners id c.node) id hp
    refine ⟨p', c.node :: settled, ?_, .inl ⟨⟨σ, hre⟩, rfl⟩⟩
    unfold sequenceAfterPartners
    rw [h]
    rfl
  next hbound =>
    have htwo : 2 ≤ c.bound.length := by
      match hb : c.bound with
      | [] => exact absurd hb hc.ne_nil
      | [i] => exact absurd hb (hbound i)
      | _ :: _ :: l => simp
    obtain ⟨p', h, hred⟩ := separate_total hp hc htwo
    exact ⟨p', settled, by rw [h]; rfl, .inr ⟨hred, rfl⟩⟩

/-! ## One turn -/

/-- The conflict that is dealt with next, if there is one. -/
def nextConflict? (p : Plan) (settled : List Qubit) : Except Fault (Option Conflict) :=
  p.conflicts settled >>= p.hardest?

/-- One turn of the first loop, from the settled nodes and the plan before it to those after it. -/
def ResolveTurn (a b : List Qubit × Plan) : Prop :=
  ∃ c, a.2.nextConflict? a.1 = .ok (some c) ∧ a.2.settle a.1 c = .ok (b.2, b.1)

/-- The first loop ends where no conflict is left, and otherwise takes a turn. -/
theorem resolveWithin_succ_iff {turns : Nat} {settled : List Qubit} {p p' : Plan} :
    resolveWithin (turns + 1) settled p = .ok p' ↔
      p.nextConflict? settled = .ok none ∧ p' = p ∨
        ∃ b, ResolveTurn (settled, p) b ∧ resolveWithin turns b.1 b.2 = .ok p' := by
  unfold ResolveTurn nextConflict?
  rw [resolveWithin, ← bind_assoc, bind_eq_ok_iff]
  constructor
  · intro ⟨o, ho, h⟩
    cases o with
    | none => exact .inl ⟨ho, (Except.ok.inj h).symm⟩
    | some c =>
      obtain ⟨⟨p₁, settled₁⟩, hsettle, h⟩ := bind_eq_ok_iff.mp h
      exact .inr ⟨(settled₁, p₁), ⟨c, ho, hsettle⟩, h⟩
  · intro h
    rcases h with ⟨ho, rfl⟩ | ⟨⟨settled₁, p₁⟩, ⟨c, ho, hsettle⟩, h⟩
    · exact ⟨none, ho, rfl⟩
    · refine ⟨some c, ho, ?_⟩
      simp only [hsettle, ok_bind]
      exact h

theorem nextConflict?_eq {p : Plan} (hp : p.Sound) (settled : List Qubit) :
    p.nextConflict? settled = .ok ((Conflict.lastLargest?
      ((noteAll (p.cuts settled) []).map fun c => (p.rank c, c))).map (·.2)) := by
  unfold nextConflict?
  rw [conflicts_eq hp, ok_bind, hardest?_eq hp (p.conflicts_genuine settled)]

/-- What is dealt with next is a genuine conflict. -/
theorem nextConflict?_total {p : Plan} (hp : p.Sound) (settled : List Qubit) :
    ∃ o, p.nextConflict? settled = .ok o ∧ ∀ c, o = some c → p.Genuine settled c := by
  refine ⟨_, nextConflict?_eq hp settled, fun c hc => ?_⟩
  obtain ⟨e, he, rfl⟩ := Option.map_eq_some_iff.mp hc
  obtain ⟨d, hd, rfl⟩ := List.mem_map.mp (lastLargest?_mem he)
  exact p.conflicts_genuine settled d hd

/-! ## All conflicts -/

/-- All registered paths run on the given nodes. -/
def OnNodes (p : Plan) (nodes : List Qubit) : Prop :=
  ∀ path ∈ p.registry.paths, path ⊆ nodes

theorem CutAt.mem_nodes {p : Plan} (hp : p.Sound) {settled nodes : List Qubit} {i : PathId}
    {x : Qubit} (h : p.CutAt settled i x) (hnodes : p.OnNodes nodes) : x ∈ nodes := by
  obtain ⟨-, s, sp, hs, hsp, hb, -⟩ := h
  obtain ⟨s', hs', hn⟩ := hp.aligned.slot_of_split hsp
  exact hnodes _ (Registry.mem_paths_iff.mpr ⟨i, s', hs', rfl⟩)
    (hn ▸ Split.mem_nodes_of_boundAt hb)

/-- Whichever way a turn deals with its conflict, the number of unsettled nodes plus the load drops. -/
theorem ResolveTurn.descends {settled settled' : List Qubit} {p p' : Plan} (hp : p.Sound)
    (h : ResolveTurn (settled, p) (settled', p')) :
    Follows p p' ∧ ∀ nodes, p.OnNodes nodes →
      nodes.countP (fun x => !settled'.contains x) + p'.load <
        nodes.countP (fun x => !settled.contains x) + p.load := by
  obtain ⟨c, hnext, h⟩ := h
  obtain ⟨o, ho, hgenuine⟩ := nextConflict?_total hp settled
  have hc := hgenuine c (Except.ok.inj (ho.symm.trans hnext))
  obtain ⟨p₁, settled₁, hsettle, hcases⟩ := settle_total hp hc
  obtain ⟨rfl, rfl⟩ := Prod.mk.inj (Except.ok.inj (h.symm.trans hsettle))
  rcases hcases with ⟨⟨σ, hre⟩, rfl⟩ | ⟨hred, rfl⟩
  · refine ⟨.of_rearranged hp hre, fun nodes hnodes => ?_⟩
    -- rearranging leaves the load alone, but the node of the conflict is settled now
    obtain ⟨i, hi⟩ := List.exists_mem_of_ne_nil _ hc.ne_nil
    have hcut := hc.cutAt i hi
    rw [hre.load_eq]
    refine Nat.add_lt_add_right (countP_lt_countP (hcut.mem_nodes hp hnodes) ?_ ?_ ?_) _
    · intro x _ hx
      simp only [List.contains_cons, Bool.not_or, Bool.and_eq_true] at hx
      exact hx.2
    · simp
    · simpa using hcut.1
  · exact ⟨.of_reduced hp hred, fun _ _ => Nat.add_lt_add_left (hred.load_lt hp) _⟩

/-- With more turns than unsettled nodes and load, all conflicts are dealt with. -/
theorem resolveWithin_total {nodes : List Qubit} :
    ∀ (turns : Nat) (settled : List Qubit) {p : Plan}, p.Sound → p.OnNodes nodes →
      nodes.countP (fun x => !settled.contains x) + p.load < turns →
      ∃ p', resolveWithin turns settled p = .ok p' ∧ Follows p p' := by
  intro turns
  induction turns with
  | zero => exact fun _ _ _ _ h => absurd h (Nat.not_lt_zero _)
  | succ turns ih =>
    intro settled p hp hnodes hturns
    obtain ⟨o, ho, hgenuine⟩ := nextConflict?_total hp settled
    cases o with
    | none => exact ⟨p, resolveWithin_succ_iff.mpr (.inl ⟨ho, rfl⟩), .refl hp⟩
    | some c =>
      obtain ⟨p', settled', hsettle, -⟩ := settle_total hp (hgenuine c rfl)
      have hturn : ResolveTurn (settled, p) (settled', p') := ⟨c, ho, hsettle⟩
      obtain ⟨hfollows, hdescends⟩ := hturn.descends hp
      have hlt := hdescends nodes hnodes
      obtain ⟨p'', h, hfollows'⟩ := ih settled' hfollows.sound
        (fun path hpath => hnodes path (hfollows.paths_subset hpath)) (by omega)
      exact ⟨p'', resolveWithin_succ_iff.mpr (.inr ⟨_, hturn, h⟩), hfollows.trans hfollows'⟩

/-- All conflicts of a sound plan are dealt with. -/
theorem resolve_total {p : Plan} (hp : p.Sound) : ∃ p', p.resolve = .ok p' ∧ Follows p p' := by
  have hnodes : p.OnNodes p.registry.paths.flatten :=
    fun path hpath x hx => List.mem_flatten.mpr ⟨path, hpath, hx⟩
  refine resolveWithin_total p.resolveBound [] hp hnodes ?_
  have hload := p.load_le
  have hcount : p.registry.paths.flatten.countP (fun x => !([] : List Qubit).contains x) ≤
      p.registry.paths.flatten.length := List.countP_le_length
  unfold resolveBound
  omega

end Plan

end QubitRouting
