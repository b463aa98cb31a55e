import QubitRouting.Proofs.Registry.Valid
import Mathlib.Data.List.Induction
import Mathlib.Order.MinMax
import Mathlib.Order.WellFounded

/-!
# Parts of a registry

Some of the registered paths may run on nodes that no other path uses. Registered on their own, they make up
a registry of the same paths and crossings under other numbers. A `Sector` says which nodes these are and how
the numbers translate, and `Registry.Part` that one registry is such a part of another.

Registering a path in both, removing it from both and rearranging both in the same way keeps one a part of
the other, and so does anything that is done outside the part.
-/

namespace QubitRouting

/-- Paths on a ground of their own: which nodes belong to it, and the number that the path with a given
number has among all paths. The order of the numbers is the same. -/
structure Sector where
  ground : Qubit → Bool
  rename : Nat → Nat
  strictMono : StrictMono rename

namespace Sector

variable (g : Sector)

/-- Is this the number, among all paths, of a path of the sector? -/
def holds (j : Nat) : Bool :=
  (List.range (j + 1)).any fun i => g.rename i == j

theorem injective : Function.Injective g.rename :=
  g.strictMono.injective

theorem holds_iff (j : Nat) : g.holds j = true ↔ ∃ i, g.rename i = j := by
  unfold holds
  simp only [List.any_eq_true, List.mem_range, beq_iff_eq]
  refine ⟨fun ⟨i, _, hi⟩ => ⟨i, hi⟩, fun ⟨i, hi⟩ => ⟨i, ?_, hi⟩⟩
  exact Nat.lt_succ_of_le (hi ▸ g.strictMono.le_apply)

@[simp] theorem holds_rename (i : Nat) : g.holds (g.rename i) = true :=
  (g.holds_iff _).mpr ⟨i, rfl⟩

theorem rename_ne {j : Nat} (hj : g.holds j = false) (i : Nat) : g.rename i ≠ j := by
  rintro rfl
  rw [g.holds_rename] at hj
  contradiction

/-- Renaming keeps the order of the numbers, so it keeps which of them is the greatest. -/
theorem max?_map : ∀ ids : List Nat, (ids.map g.rename).max? = ids.max?.map g.rename
  | [] => rfl
  | i :: rest => by
    rw [List.map_cons, List.max?_cons', List.max?_cons', List.foldl_map, Option.map_some]
    exact congrArg some (List.foldl_hom g.rename fun _ _ => g.strictMono.monotone.map_max.symm)

/-- The sector after a path outside of it has taken the number that path `m` of the sector would have had
next: from `m` on, the numbers move up by one. -/
def yield (m : Nat) : Sector where
  ground := g.ground
  rename i := if i < m then g.rename i else g.rename i + 1
  strictMono := by
    intro i j hij
    have hlt := g.strictMono hij
    dsimp only
    split <;> split <;> omega

end Sector

namespace Slot

variable {f : PathId → PathId}

theorem forget_relabel (hf : Function.Injective f) (i : PathId) (s : Slot) :
    (s.relabel f).forget (f i) = (s.forget i).relabel f := by
  simp only [relabel, forget, List.filter_map, Slot.mk.injEq, true_and]
  refine congrArg (List.map _) (List.filter_congr fun c _ => ?_)
  simp [bne, hf.eq_iff]

theorem forget_relabel_of_ne {j : PathId} (hj : ∀ i, f i ≠ j) (s : Slot) :
    (s.relabel f).forget j = s.relabel f := by
  simp only [relabel, forget, Slot.mk.injEq, true_and, List.filter_eq_self]
  intro c hc
  obtain ⟨c₀, -, rfl⟩ := List.mem_map.mp hc
  exact bne_iff_ne.mpr (hj c₀.path)

theorem meet_relabel (n : PathId) (path : List Qubit) (s : Slot) :
    (s.relabel f).meet (f n) path = (s.meet n path).relabel f := by
  unfold meet
  rw [nodes_relabel]
  split
  next => rfl
  next => simp [relabel]

/-- A path without a node in common leaves a slot as it is. -/
theorem meet_eq_self {n : PathId} {path : List Qubit} {s : Slot} (h : ∀ x ∈ path, x ∉ s.nodes) :
    s.meet n path = s := by
  have hnone : sharedNodes path s.nodes = [] :=
    List.eq_nil_iff_forall_not_mem.mpr fun x hx => h x (mem_sharedNodes_iff.mp hx).2
      (mem_sharedNodes_iff.mp hx).1
  unfold meet
  rw [hnone]

end Slot

namespace Registry

/-- The paths of `q` are those of `p` on the ground of the sector, with the same crossings. -/
structure Part (g : Sector) (q p : Registry) : Prop where
  slot? : ∀ i, p.slot? (g.rename i) = (q.slot? i).map (Slot.relabel g.rename)
  inside : ∀ {i s}, q.slot? i = some s → ∀ x ∈ s.nodes, g.ground x = true
  outside : ∀ {j s}, p.slot? j = some s → g.holds j = false → ∀ x ∈ s.nodes, g.ground x = false

namespace Part

variable {g : Sector} {q p q' p' : Registry}

theorem slot?_rename (h : Part g q p) {i : PathId} {s : Slot} (hs : q.slot? i = some s) :
    p.slot? (g.rename i) = some (s.relabel g.rename) := by
  rw [h.slot?, hs]
  rfl

theorem slot?_cases (h : Part g q p) {i : PathId} {s : Slot} (hs : p.slot? (g.rename i) = some s) :
    ∃ s₀, q.slot? i = some s₀ ∧ s = s₀.relabel g.rename := by
  rw [h.slot?] at hs
  obtain ⟨s₀, hs₀, rfl⟩ := Option.map_eq_some_iff.mp hs
  exact ⟨s₀, hs₀, rfl⟩

theorem occupied_iff (h : Part g q p) {i : PathId} :
    (∃ s, p.slot? (g.rename i) = some s) ↔ ∃ s, q.slot? i = some s :=
  ⟨fun ⟨_, hs⟩ => let ⟨s₀, hs₀, _⟩ := h.slot?_cases hs; ⟨s₀, hs₀⟩, fun ⟨_, hs⟩ => ⟨_, h.slot?_rename hs⟩⟩

/-- A path of the whole registry lies on the ground if it belongs to the part, and off it if not. -/
theorem ground_eq (h : Part g q p) {j : PathId} {s : Slot} (hs : p.slot? j = some s) {x : Qubit}
    (hx : x ∈ s.nodes) : g.ground x = g.holds j := by
  cases hj : g.holds j with
  | false => exact h.outside hs hj x hx
  | true =>
    obtain ⟨i, rfl⟩ := (g.holds_iff j).mp hj
    obtain ⟨s₀, hs₀, rfl⟩ := h.slot?_cases hs
    exact h.inside hs₀ x hx

/-- No path of the part crosses one outside. -/
theorem holds_crossing (h : Part g q p) (hp : p.Valid) {j : PathId} {s : Slot}
    (hs : p.slot? j = some s) {c : Crossing} (hc : c ∈ s.crossings) : g.holds c.path = g.holds j := by
  obtain ⟨-, t, x, ht, hxs, hxt, -⟩ := (hp.mem_crossings_iff hs c).mp hc
  rw [← h.ground_eq hs hxs, ← h.ground_eq ht hxt]

/-! ## Listing the part -/

/-- The numbers of the part are those of the whole that it holds, in the same order. -/
theorem ids_eq (h : Part g q p) : p.ids.filter g.holds = q.ids.map g.rename := by
  refine eq_of_pairwise_lt ((ids_pairwise p).sublist List.filter_sublist) ?_ fun j => ?_
  · exact List.pairwise_map.mpr ((ids_pairwise q).imp fun hlt => g.strictMono hlt)
  · rw [List.mem_filter, List.mem_map, mem_ids_iff, g.holds_iff]
    constructor
    · rintro ⟨hj, i, rfl⟩
      exact ⟨i, mem_ids_iff.mpr (h.occupied_iff.mp hj), rfl⟩
    · rintro ⟨i, hi, rfl⟩
      exact ⟨h.occupied_iff.mpr (mem_ids_iff.mp hi), i, rfl⟩

end Part

theorem entries_eq (r : Registry) :
    r.entries = r.ids.filterMap fun i => (r.slot? i).map fun s => (i, s) := by
  unfold ids
  rw [List.filterMap_map]
  conv => lhs; rw [← List.filterMap_some (l := r.entries)]
  refine List.filterMap_congr fun e he => ?_
  rw [Function.comp_apply, mem_entries_iff.mp he]
  rfl

namespace Part

variable {g : Sector} {q p q' p' : Registry}

theorem entries_eq (h : Part g q p) : p.entries.filter (fun e => g.holds e.1) =
    q.entries.map fun e => (g.rename e.1, e.2.relabel g.rename) := by
  rw [Registry.entries_eq p, Registry.entries_eq q, List.map_filterMap, List.filter_filterMap]
  have hnames : (p.ids.filter g.holds).filterMap (fun j => (p.slot? j).map fun s => (j, s)) =
      q.ids.filterMap fun i => ((q.slot? i).map fun s => (i, s)).map fun e =>
        (g.rename e.1, e.2.relabel g.rename) := by
    rw [h.ids_eq, List.filterMap_map]
    refine List.filterMap_congr fun i _ => ?_
    rw [Function.comp_apply, h.slot?, Option.map_map, Option.map_map]
    rfl
  rw [← hnames, List.filterMap_filter]
  refine List.filterMap_congr fun j _ => ?_
  cases hj : g.holds j <;> cases p.slot? j <;> simp [hj]

/-! ## What keeps a part a part -/

/-- Both are rearranged in the same way. If the part stays as it is, `σ` is the identity. -/
theorem rearranged (h : Part g q p) {σ τ : Equiv.Perm PathId} (hq : q.Rearranged q' σ)
    (hp : p.Rearranged p' τ) (hτ : ∀ i, τ (g.rename i) = g.rename (σ i)) : Part g q' p' where
  slot? i := by
    have hnames : τ.symm ∘ g.rename = g.rename ∘ σ.symm := by
      funext k
      rw [Function.comp_apply, Function.comp_apply, Equiv.symm_apply_eq, hτ, Equiv.apply_symm_apply]
    rw [hp.slot?, hτ, h.slot?, hq.slot?, Option.map_map, Option.map_map]
    refine congrArg (fun k => Option.map k (q.slot? (σ i))) (funext fun s => ?_)
    rw [Function.comp_apply, Function.comp_apply, Slot.relabel_relabel, Slot.relabel_relabel, hnames]
  inside := by
    intro i s hs
    obtain ⟨s₀, hs₀, rfl⟩ := hq.slot?_cases hs
    exact fun x hx => h.inside hs₀ x hx
  outside := by
    intro j s hs hj
    obtain ⟨s₀, hs₀, rfl⟩ := hp.slot?_cases hs
    refine fun x hx => h.outside hs₀ ?_ x hx
    rw [Bool.eq_false_iff]
    intro hheld
    obtain ⟨i, hi⟩ := (g.holds_iff _).mp hheld
    -- the rearrangement brings names of the part to names of the part
    have hback : g.rename (σ.symm i) = j := by
      rw [← τ.injective.eq_iff, hτ, Equiv.apply_symm_apply, hi]
    exact g.rename_ne hj _ hback

/-- Removing a path of the part from both registries leaves one a part of the other. -/
theorem remove (h : Part g q p) {i : PathId} (hq : q.remove i = .ok q')
    (hp : p.remove (g.rename i) = .ok p') : Part g q' p' where
  slot? k := by
    rw [slot?_remove hp, slot?_remove hq, h.slot?]
    by_cases hk : k = i
    · rw [if_pos (congrArg g.rename hk), if_pos hk]
      rfl
    · rw [if_neg (g.injective.ne hk), if_neg hk, Option.map_map, Option.map_map]
      exact congrArg (fun f => Option.map f (q.slot? k))
        (funext fun s => Slot.forget_relabel g.injective i s)
  inside := by
    intro k s hs
    obtain ⟨-, s₀, hs₀, rfl⟩ := slot?_remove_cases hq hs
    exact fun x hx => h.inside hs₀ x hx
  outside := by
    intro j s hs hj
    obtain ⟨-, s₀, hs₀, rfl⟩ := slot?_remove_cases hp hs
    exact fun x hx => h.outside hs₀ hj x hx

/-- Removing a path outside leaves the part as it is, because no path of the part crosses it. -/
theorem remove_outside (h : Part g q p) {j : PathId} (hp : p.remove j = .ok p')
    (hj : g.holds j = false) : Part g q p' where
  slot? k := by
    rw [slot?_remove hp, if_neg (g.rename_ne hj k), h.slot?, Option.map_map]
    exact congrArg (fun f => Option.map f (q.slot? k))
      (funext fun s => Slot.forget_relabel_of_ne (g.rename_ne hj) s)
  inside := h.inside
  outside := by
    intro k s hs hk
    obtain ⟨-, s₀, hs₀, rfl⟩ := slot?_remove_cases hp hs
    exact fun x hx => h.outside hs₀ hk x hx

end Part

/-! ## Registering paths -/

/-- The next paths of the part take the next numbers in both registries. -/
def Continues (g : Sector) (q p : Registry) : Prop :=
  ∀ k, g.rename (q.slots.length + k) = p.slots.length + k

theorem length_slots_insert (r : Registry) (path : List Qubit) :
    (r.insert path).slots.length = r.slots.length + 1 := by
  simp [insert]

namespace Part

variable {g : Sector} {q p q' p' : Registry} {path : List Qubit}

/-- A path on the ground crosses the paths of the part and no others. -/
theorem crossingsFor_eq (h : Part g q p) (hpath : ∀ x ∈ path, g.ground x = true) :
    p.crossingsFor path = (q.crossingsFor path).map fun c => { c with path := g.rename c.path } := by
  have hoff : ∀ e ∈ p.entries, g.holds e.1 = false → (sharedNodes path e.2.nodes).head? = none := by
    intro e he hout
    rw [List.head?_eq_none_iff, List.eq_nil_iff_forall_not_mem]
    intro x hx
    obtain ⟨hxe, hxp⟩ := mem_sharedNodes_iff.mp hx
    have := h.outside (mem_entries_iff.mp he) hout x hxe
    rw [hpath x hxp] at this
    contradiction
  have hlisted : p.crossingsFor path = (p.entries.filter fun e => g.holds e.1).filterMap fun e =>
      (sharedNodes path e.2.nodes).head?.map fun x => ⟨e.1, [x]⟩ := by
    rw [List.filterMap_filter]
    refine List.filterMap_congr fun e he => ?_
    cases hheld : g.holds e.1 with
    | false => simp [hoff e he hheld]
    | true => simp
  rw [hlisted, h.entries_eq, List.filterMap_map, crossingsFor, List.map_filterMap]
  refine List.filterMap_congr fun e _ => ?_
  rw [Function.comp_apply, Option.map_map]
  rfl

/-- What the whole registry accepts, the part accepts. -/
theorem accepts (h : Part g q p) (hq : q.Valid) (hp : p.Valid) (haccepts : p.accepts path = true) :
    q.accepts path = true := by
  obtain ⟨hsimple, hapart⟩ := (accepts_iff hp).mp haccepts
  exact (accepts_iff hq).mpr ⟨hsimple, fun i s hs =>
    hapart (g.rename i) (s.relabel g.rename) (h.slot?_rename hs)⟩

/-- A path on the ground is registered in both. -/
theorem insert (h : Part g q p) (hnext : Continues g q p) (hpath : ∀ x ∈ path, g.ground x = true) :
    Part g (q.insert path) (p.insert path) ∧ Continues g (q.insert path) (p.insert path) := by
  have hlast : g.rename q.slots.length = p.slots.length := hnext 0
  refine ⟨⟨fun i => ?_, ?_, ?_⟩, fun k => ?_⟩
  · rw [slot?_insert, slot?_insert]
    by_cases hi : i = q.slots.length
    · rw [if_pos (by rw [hi, hlast]), if_pos hi, h.crossingsFor_eq hpath]
      rfl
    · rw [if_neg (by rw [← hlast]; exact g.injective.ne hi), if_neg hi, h.slot?, Option.map_map,
        Option.map_map, ← hlast]
      exact congrArg (fun f => Option.map f (q.slot? i))
        (funext fun s => Slot.meet_relabel _ path s)
  · intro i s hs
    rcases slot?_insert_cases hs with ⟨-, rfl⟩ | ⟨-, s₀, hs₀, rfl⟩
    · exact hpath
    · rw [Slot.nodes_meet]
      exact h.inside hs₀
  · intro j s hs hj
    rcases slot?_insert_cases hs with ⟨rfl, -⟩ | ⟨-, s₀, hs₀, rfl⟩
    · exact absurd hlast (g.rename_ne hj _)
    · rw [Slot.nodes_meet]
      exact h.outside hs₀ hj
  · rw [length_slots_insert, length_slots_insert, Nat.add_right_comm, Nat.add_right_comm p.slots.length]
    exact hnext (k + 1)

/-- A path off the ground is registered in the whole only, and later numbers move up. -/
theorem insert_outside (h : Part g q p) (hq : q.Valid) (hnext : Continues g q p)
    (hpath : ∀ x ∈ path, g.ground x = false) :
    Part (g.yield q.slots.length) q (p.insert path) ∧
      Continues (g.yield q.slots.length) q (p.insert path) := by
  let g' := g.yield q.slots.length
  have hlast : g.rename q.slots.length = p.slots.length := hnext 0
  -- the paths of the part keep their numbers
  have hold : ∀ i < q.slots.length, g'.rename i = g.rename i := fun i hi => if_pos hi
  have hnew : ∀ i, q.slots.length ≤ i → g'.rename i = g.rename i + 1 :=
    fun i hi => if_neg (Nat.not_lt.mpr hi)
  have hrelabel : ∀ {i s}, q.slot? i = some s → s.relabel g'.rename = s.relabel g.rename := by
    intro i s hs
    simp only [Slot.relabel, Slot.mk.injEq, true_and, List.map_inj_left]
    intro c hc
    obtain ⟨t, ht⟩ := hq.slot?_of_mem_crossings hs hc
    rw [hold c.path (lt_length_of_slot? ht)]
  have hbelow : ∀ j, j < p.slots.length → g'.holds j = false → g.holds j = false := by
    intro j hj hout
    rw [Bool.eq_false_iff]
    intro hheld
    obtain ⟨i, rfl⟩ := (g.holds_iff j).mp hheld
    have hi : i < q.slots.length := g.strictMono.lt_iff_lt.mp (hlast ▸ hj)
    exact g'.rename_ne hout i (hold i hi)
  refine ⟨⟨fun i => ?_, h.inside, ?_⟩, fun k => ?_⟩
  · rw [slot?_insert]
    by_cases hi : i < q.slots.length
    · have hlt : g.rename i < p.slots.length := hlast ▸ g.strictMono hi
      rw [hold i hi, if_neg (Nat.ne_of_lt hlt), h.slot?, Option.map_map]
      cases hs : q.slot? i with
      | none => rfl
      | some s =>
        -- the new path meets nothing on the ground
        have hmeet : (s.relabel g.rename).meet p.slots.length path = s.relabel g.rename := by
          refine Slot.meet_eq_self fun x hx hxs => ?_
          have := h.inside hs x hxs
          rw [hpath x hx] at this
          contradiction
        rw [Option.map_some, Option.map_some, Function.comp_apply, hmeet, hrelabel hs]
    · have hge : p.slots.length ≤ g.rename i :=
        hlast ▸ g.strictMono.monotone (Nat.le_of_not_lt hi)
      have hnone : q.slot? i = none := by
        cases hs : q.slot? i with
        | none => rfl
        | some s => exact absurd (lt_length_of_slot? hs) hi
      have hnone' : p.slot? (g.rename i + 1) = none := by
        cases hs : p.slot? (g.rename i + 1) with
        | none => rfl
        | some s => exact absurd (lt_length_of_slot? hs) (Nat.not_lt.mpr (Nat.le_succ_of_le hge))
      rw [hnew i (Nat.le_of_not_lt hi), if_neg (Nat.ne_of_gt (Nat.lt_succ_of_le hge)), hnone, hnone']
      rfl
  · intro j s hs hj
    rcases slot?_insert_cases hs with ⟨-, rfl⟩ | ⟨-, s₀, hs₀, rfl⟩
    · exact hpath
    · rw [Slot.nodes_meet]
      exact h.outside hs₀ (hbelow j (lt_length_of_slot? hs₀) hj)
  · rw [hnew _ (Nat.le_add_right _ _), hnext, length_slots_insert, Nat.add_right_comm]

end Part

/-- The paths registered one after the other, if all of them are accepted. -/
def ofPaths? (paths : List (List Qubit)) : Option Registry :=
  paths.foldlM add? empty

theorem ofPaths?_concat_iff {paths : List (List Qubit)} {path : List Qubit} {r : Registry} :
    ofPaths? (paths ++ [path]) = some r ↔
      ∃ r₀, ofPaths? paths = some r₀ ∧ r₀.accepts path = true ∧ r₀.insert path = r := by
  unfold ofPaths?
  simp only [List.foldlM_append, List.foldlM_cons, List.foldlM_nil, bind_pure, Option.bind_eq_bind,
    Option.bind_eq_some_iff, add?_eq_some_iff]

/-- Paths that are all accepted are registered as they come. -/
theorem ofPaths?_spec {paths : List (List Qubit)} : ∀ {r : Registry}, ofPaths? paths = some r →
    r.Valid ∧ r.paths = paths := by
  induction paths using List.reverseRecOn with
  | nil =>
    intro r h
    obtain rfl := Option.some.inj h
    exact ⟨valid_empty, rfl⟩
  | append_singleton paths path ih =>
    intro r h
    obtain ⟨r₀, h₀, haccepts, rfl⟩ := ofPaths?_concat_iff.mp h
    obtain ⟨hvalid, hpaths⟩ := ih h₀
    exact ⟨hvalid.insert haccepts, by rw [paths_insert, hpaths]⟩

/-- Some of the paths, on nodes of their own, can be registered without the others. They make up a part of
the registry of all paths. -/
theorem ofPaths?_part {ground : Qubit → Bool} {inPart : List Qubit → Bool}
    {paths : List (List Qubit)} : (∀ path ∈ paths, ∀ x ∈ path, ground x = inPart path) →
    ∀ {p : Registry}, ofPaths? paths = some p →
    ∃ g q, ofPaths? (paths.filter inPart) = some q ∧ g.ground = ground ∧ Part g q p ∧ Continues g q p := by
  induction paths using List.reverseRecOn with
  | nil =>
    intro _ p h
    obtain rfl := Option.some.inj h
    refine ⟨⟨ground, id, strictMono_id⟩, empty, rfl, rfl, ⟨fun _ => rfl, ?_, ?_⟩, fun _ => rfl⟩
    · intro i s hs
      contradiction
    · intro j s hs
      contradiction
  | append_singleton paths path ih =>
    intro hground p h
    obtain ⟨p₀, h₀, haccepts, rfl⟩ := ofPaths?_concat_iff.mp h
    obtain ⟨g, q, hq, rfl, hpart, hnext⟩ :=
      ih (fun path' hpath => hground path' (List.mem_append_left _ hpath)) h₀
    have hpath := hground path (List.mem_append_right _ List.mem_cons_self)
    obtain ⟨hvalid, -⟩ := ofPaths?_spec hq
    rw [List.filter_append]
    cases hin : inPart path with
    | true =>
      rw [hin] at hpath
      obtain ⟨hpart', hnext'⟩ := hpart.insert hnext hpath
      refine ⟨g, q.insert path, ?_, rfl, hpart', hnext'⟩
      rw [List.filter_singleton, hin]
      exact ofPaths?_concat_iff.mpr
        ⟨q, hq, hpart.accepts hvalid (ofPaths?_spec h₀).1 haccepts, rfl⟩
    | false =>
      rw [hin] at hpath
      obtain ⟨hpart', hnext'⟩ := hpart.insert_outside hvalid hnext hpath
      refine ⟨g.yield q.slots.length, q, ?_, rfl, hpart', hnext'⟩
      rw [List.filter_singleton, hin]
      exact (List.append_nil (paths.filter inPart)).symm ▸ hq

end Registry

end QubitRouting
