import QubitRouting.Proofs.Registry.Slots

/-!
# What every registry satisfies

`Registry.Valid` is the representation invariant: paths are simple, any two are apart, crossings are
recorded on both sides exactly where two paths share a node, and the size counts the occupied slots.
Each operation keeps it; an exchange of slots does so because it only renames (`Valid.rearranged`).
-/

namespace QubitRouting

namespace Registry

/-- The crossing `c` is what the path in slot `i` has to record: it names another path and the node
that the two share. -/
def Meets (r : Registry) (i : PathId) (s : Slot) (c : Crossing) : Prop :=
  c.path ≠ i ∧ ∃ t x, r.slot? c.path = some t ∧ x ∈ s.nodes ∧ x ∈ t.nodes ∧ c.overlap = [x]

/-- The representation invariant. -/
structure Valid (r : Registry) : Prop where
  simple : ∀ {i s}, r.slot? i = some s → 2 ≤ s.nodes.length ∧ s.nodes.Nodup
  apart : ∀ {i j s t}, r.slot? i = some s → r.slot? j = some t → i ≠ j → Apart s.nodes t.nodes
  mem_crossings_iff : ∀ {i s}, r.slot? i = some s → ∀ c, c ∈ s.crossings ↔ r.Meets i s c
  crossings_nodup : ∀ {i s}, r.slot? i = some s → (s.crossings.map (·.path)).Nodup
  size_eq : r.size = r.ids.length

theorem valid_empty : empty.Valid where
  simple := fun h => absurd h (by simp)
  apart := fun h => absurd h (by simp)
  mem_crossings_iff := fun h => absurd h (by simp)
  crossings_nodup := fun h => absurd h (by simp)
  size_eq := rfl

/-! ## Registering a path -/

/-- A path is accepted if it is simple and compatible with every path that is registered. -/
theorem accepts_iff {r : Registry} (hr : r.Valid) {p : List Qubit} : r.accepts p = true ↔
    (2 ≤ p.length ∧ p.Nodup) ∧ ∀ i s, r.slot? i = some s → Apart p s.nodes := by
  unfold accepts
  rw [Bool.and_eq_true, isSimplePath_iff, List.all_eq_true]
  refine and_congr_right fun _ => ?_
  constructor
  · intro h i s hs
    exact (compatible_iff (hr.simple hs).2).mp (h (i, s) (mem_entries_iff.mpr hs))
  · intro h e he
    have hs := mem_entries_iff.mp he
    exact (compatible_iff (hr.simple hs).2).mpr (h e.1 e.2 hs)

theorem Valid.nodes_ne_nil {r : Registry} (hr : r.Valid) {i : PathId} {s : Slot}
    (hs : r.slot? i = some s) : s.nodes ≠ [] := by
  have hlen := (hr.simple hs).1
  intro h
  rw [h, List.length_nil] at hlen
  omega

/-- No path is registered twice: its ends would lie on the other copy. -/
theorem Valid.paths_nodup {r : Registry} (hr : r.Valid) : r.paths.Nodup := by
  have hentries : r.entries.Nodup := List.Nodup.of_map Prod.fst r.ids_nodup
  refine hentries.map_on fun e he e' he' hnodes => ?_
  have hs := mem_entries_iff.mp he
  have hs' := mem_entries_iff.mp he'
  by_cases hid : e.1 = e'.1
  · rw [hid] at hs
    exact Prod.ext hid (Option.some.inj (hs.symm.trans hs'))
  · have hhead := List.head?_eq_some_head (hr.nodes_ne_nil hs)
    have hend : e.2.nodes.head (hr.nodes_ne_nil hs) ∈ pathEnds e.2.nodes := by
      unfold pathEnds
      rw [hhead]
      exact List.mem_cons_self
    exact absurd (hnodes ▸ List.head_mem _) ((hr.apart hs hs' hid).ends_left _ hend)

theorem ids_insert (r : Registry) (p : List Qubit) :
    (r.insert p).ids = r.ids ++ [r.slots.length] := by
  refine eq_of_pairwise_lt (ids_pairwise _) ?_ fun i => ?_
  · rw [List.pairwise_append]
    refine ⟨ids_pairwise r, List.pairwise_singleton _ _, fun i hi j hj => ?_⟩
    obtain ⟨s, hs⟩ := mem_ids_iff.mp hi
    rw [List.mem_singleton.mp hj]
    exact lt_length_of_slot? hs
  · rw [List.mem_append, List.mem_singleton, mem_ids_iff, mem_ids_iff]
    simp only [slot?_insert]
    by_cases hi : i = r.slots.length
    · simp [hi]
    · simp [hi]

theorem paths_insert (r : Registry) (p : List Qubit) : (r.insert p).paths = r.paths ++ [p] := by
  rw [paths_eq, paths_eq]
  unfold insert
  rw [List.filterMap_append, List.filterMap_map]
  refine congrArg (· ++ [p]) (List.filterMap_congr fun o _ => ?_)
  cases o with
  | none => rfl
  | some s => exact congrArg some (Slot.nodes_meet _ _ _)

/-- The crossings of a new path are those with the registered paths that it meets. -/
theorem mem_crossingsFor_iff {r : Registry} {p : List Qubit}
    (hp : ∀ i s, r.slot? i = some s → Apart p s.nodes) {c : Crossing} :
    c ∈ r.crossingsFor p ↔
      ∃ s x, r.slot? c.path = some s ∧ x ∈ p ∧ x ∈ s.nodes ∧ c.overlap = [x] := by
  unfold crossingsFor
  rw [List.mem_filterMap]
  constructor
  · intro ⟨e, he, hc⟩
    have hs := mem_entries_iff.mp he
    obtain ⟨x, hx, rfl⟩ := Option.map_eq_some_iff.mp hc
    obtain ⟨hxp, hxs⟩ := (head?_sharedNodes_iff (hp e.1 e.2 hs)).mp hx
    exact ⟨e.2, x, hs, hxp, hxs, rfl⟩
  · intro ⟨s, x, hs, hxp, hxs, ho⟩
    refine ⟨(c.path, s), mem_entries_iff.mpr hs, Option.map_eq_some_iff.mpr ⟨x, ?_, ?_⟩⟩
    · exact (head?_sharedNodes_iff (hp c.path s hs)).mpr ⟨hxp, hxs⟩
    · cases c
      simp_all

theorem crossingsFor_nodup (r : Registry) (p : List Qubit) :
    ((r.crossingsFor p).map (·.path)).Nodup := by
  have hids : r.entries.Pairwise fun e e' => e.1 < e'.1 := List.pairwise_map.mp (ids_pairwise r)
  unfold crossingsFor List.Nodup
  rw [List.pairwise_map, List.pairwise_filterMap]
  refine hids.imp ?_
  intro e e' hlt c hc c' hc'
  obtain ⟨x, -, rfl⟩ := Option.map_eq_some_iff.mp hc
  obtain ⟨x', -, rfl⟩ := Option.map_eq_some_iff.mp hc'
  exact Nat.ne_of_lt hlt

/-- A registered path has recorded crossings with paths that are registered too. -/
theorem Valid.slot?_of_mem_crossings {r : Registry} (hr : r.Valid) {i : PathId} {s : Slot}
    (hs : r.slot? i = some s) {c : Crossing} (hc : c ∈ s.crossings) :
    ∃ t, r.slot? c.path = some t :=
  let ⟨_, t, _, ht, _⟩ := (hr.mem_crossings_iff hs c).mp hc
  ⟨t, ht⟩

/-- What stands in a slot after a path was registered: the new path, or an old one with at most one
crossing more. -/
theorem slot?_insert_cases {r : Registry} {p : List Qubit} {i : PathId} {s : Slot}
    (h : (r.insert p).slot? i = some s) :
    i = r.slots.length ∧ s = ⟨p, r.crossingsFor p⟩ ∨
      i ≠ r.slots.length ∧ ∃ s₀, r.slot? i = some s₀ ∧ s = s₀.meet r.slots.length p := by
  rw [slot?_insert] at h
  split at h
  next hi => exact .inl ⟨hi, (Option.some.inj h).symm⟩
  next hi =>
    obtain ⟨s₀, hs₀, rfl⟩ := Option.map_eq_some_iff.mp h
    exact .inr ⟨hi, s₀, hs₀, rfl⟩

/-- The new path stands in the next slot. -/
theorem slot?_insert_self (r : Registry) (p : List Qubit) :
    (r.insert p).slot? r.slots.length = some ⟨p, r.crossingsFor p⟩ := by
  rw [slot?_insert, if_pos rfl]

theorem slot?_insert_old {r : Registry} (p : List Qubit) {i : PathId} {s : Slot}
    (h : r.slot? i = some s) : (r.insert p).slot? i = some (s.meet r.slots.length p) := by
  rw [slot?_insert, if_neg (Nat.ne_of_lt (lt_length_of_slot? h)), h]
  rfl

/-- An accepted path keeps the registry valid: it is entered at every path that it crosses, and they at it. -/
theorem Valid.insert {r : Registry} (hr : r.Valid) {p : List Qubit} (h : r.accepts p = true) :
    (r.insert p).Valid := by
  obtain ⟨hsimple, hp⟩ := (accepts_iff hr).mp h
  refine ⟨?_, ?_, ?_, ?_, ?_⟩
  · intro i s hs
    rcases slot?_insert_cases hs with ⟨-, rfl⟩ | ⟨-, s₀, hs₀, rfl⟩
    · exact hsimple
    · rw [Slot.nodes_meet]
      exact hr.simple hs₀
  · intro i j s t hs ht hij
    rcases slot?_insert_cases hs with ⟨hi, rfl⟩ | ⟨hi, s₀, hs₀, rfl⟩
    · rcases slot?_insert_cases ht with ⟨hj, rfl⟩ | ⟨hj, t₀, ht₀, rfl⟩
      · exact absurd (hi.trans hj.symm) hij
      · rw [Slot.nodes_meet]
        exact hp j t₀ ht₀
    · rcases slot?_insert_cases ht with ⟨hj, rfl⟩ | ⟨hj, t₀, ht₀, rfl⟩
      · rw [Slot.nodes_meet]
        exact (hp i s₀ hs₀).symm
      · rw [Slot.nodes_meet, Slot.nodes_meet]
        exact hr.apart hs₀ ht₀ hij
  · intro i s hs c
    rcases slot?_insert_cases hs with ⟨rfl, rfl⟩ | ⟨hi, s₀, hs₀, rfl⟩
    -- the new path: its crossings are looked up when it is registered
    · rw [mem_crossingsFor_iff hp]
      constructor
      · intro ⟨t, x, ht, hxp, hxt, ho⟩
        exact ⟨Nat.ne_of_lt (lt_length_of_slot? ht), _, x, slot?_insert_old p ht, hxp,
          by rwa [Slot.nodes_meet], ho⟩
      · intro ⟨hne, t, x, ht, hxp, hxt, ho⟩
        rcases slot?_insert_cases ht with ⟨hc, -⟩ | ⟨-, t₀, ht₀, rfl⟩
        · exact absurd hc hne
        · exact ⟨t₀, x, ht₀, hxp, by rwa [Slot.nodes_meet] at hxt, ho⟩
    -- an old path: it keeps its crossings and may get one with the new path
    · rw [Slot.crossings_meet, List.mem_append, hr.mem_crossings_iff hs₀, Option.mem_toList,
        Option.map_eq_some_iff]
      constructor
      · intro hcase
        rcases hcase with ⟨hne, t, x, ht, hxs, hxt, ho⟩ | ⟨x, hx, rfl⟩
        · exact ⟨hne, _, x, slot?_insert_old p ht, by rwa [Slot.nodes_meet],
            by rwa [Slot.nodes_meet], ho⟩
        · obtain ⟨hxp, hxs⟩ := (head?_sharedNodes_iff (hp i s₀ hs₀)).mp hx
          exact ⟨Ne.symm hi, _, x, slot?_insert_self r p, by rwa [Slot.nodes_meet], hxp, rfl⟩
      · intro ⟨hne, t, x, ht, hxs, hxt, ho⟩
        rw [Slot.nodes_meet] at hxs
        rcases slot?_insert_cases ht with ⟨hc, rfl⟩ | ⟨-, t₀, ht₀, rfl⟩
        · refine .inr ⟨x, (head?_sharedNodes_iff (hp i s₀ hs₀)).mpr ⟨hxt, hxs⟩, ?_⟩
          cases c
          simp_all
        · exact .inl ⟨hne, t₀, x, ht₀, hxs, by rwa [Slot.nodes_meet] at hxt, ho⟩
  · intro i s hs
    rcases slot?_insert_cases hs with ⟨-, rfl⟩ | ⟨-, s₀, hs₀, rfl⟩
    · exact crossingsFor_nodup r p
    · rw [Slot.crossings_meet, List.map_append, List.nodup_append]
      refine ⟨hr.crossings_nodup hs₀, ?_, ?_⟩
      · cases (sharedNodes p s₀.nodes).head? <;> simp
      · intro a ha b hb
        obtain ⟨c, hc, rfl⟩ := List.mem_map.mp ha
        -- old crossings name old slots, the new one names the new slot
        obtain ⟨t, ht⟩ := hr.slot?_of_mem_crossings hs₀ hc
        have hb' : b = r.slots.length := by
          cases hsh : (sharedNodes p s₀.nodes).head? <;> simp_all
        rw [hb']
        exact Nat.ne_of_lt (lt_length_of_slot? ht)
  · rw [ids_insert, List.length_append, ← hr.size_eq]
    rfl

theorem add?_eq_some_iff {r r' : Registry} {p : List Qubit} :
    r.add? p = some r' ↔ r.accepts p = true ∧ r.insert p = r' := by
  unfold add?
  split <;> simp [*]

theorem Valid.add? {r r' : Registry} (hr : r.Valid) {p : List Qubit} (h : r.add? p = some r') :
    r'.Valid := by
  obtain ⟨hacc, rfl⟩ := add?_eq_some_iff.mp h
  exact hr.insert hacc

/-! ## Removing a path -/

/-- What is left after a removal was there before, but for crossings with the path that went. -/
theorem slot?_remove_cases {r r' : Registry} {id i : PathId} {s : Slot}
    (hrem : r.remove id = .ok r') (h : r'.slot? i = some s) :
    i ≠ id ∧ ∃ s₀, r.slot? i = some s₀ ∧ s = s₀.forget id := by
  rw [slot?_remove hrem] at h
  split at h
  next => contradiction
  next hi =>
    obtain ⟨s₀, hs₀, rfl⟩ := Option.map_eq_some_iff.mp h
    exact ⟨hi, s₀, hs₀, rfl⟩

theorem ids_remove {r r' : Registry} {id : PathId} (h : r.remove id = .ok r') :
    r'.ids = r.ids.erase id := by
  refine eq_of_pairwise_lt (ids_pairwise r') ((ids_pairwise r).sublist List.erase_sublist)
    fun i => ?_
  rw [(ids_nodup r).mem_erase_iff, mem_ids_iff, mem_ids_iff, slot?_remove h]
  by_cases hi : i = id
  · simp [hi]
  · simp [hi]

theorem length_ids_remove {r r' : Registry} {id : PathId} (h : r.remove id = .ok r') :
    r'.ids.length + 1 = r.ids.length := by
  have hid : id ∈ r.ids := mem_ids_iff.mpr (remove_eq_ok_iff.mp h).1
  rw [ids_remove h, List.length_erase_of_mem hid]
  have := List.length_pos_of_mem hid
  omega

/-- Removing a path keeps the registry valid, because its crossings go from both sides. -/
theorem Valid.remove {r r' : Registry} (hr : r.Valid) {id : PathId} (h : r.remove id = .ok r') :
    r'.Valid := by
  refine ⟨?_, ?_, ?_, ?_, ?_⟩
  · intro i s hs
    obtain ⟨-, s₀, hs₀, rfl⟩ := slot?_remove_cases h hs
    rw [Slot.nodes_forget]
    exact hr.simple hs₀
  · intro i j s t hs ht hij
    obtain ⟨-, s₀, hs₀, rfl⟩ := slot?_remove_cases h hs
    obtain ⟨-, t₀, ht₀, rfl⟩ := slot?_remove_cases h ht
    rw [Slot.nodes_forget, Slot.nodes_forget]
    exact hr.apart hs₀ ht₀ hij
  · intro i s hs c
    obtain ⟨hi, s₀, hs₀, rfl⟩ := slot?_remove_cases h hs
    rw [Slot.mem_crossings_forget, hr.mem_crossings_iff hs₀]
    constructor
    · intro ⟨⟨hne, t, x, ht, hxs, hxt, ho⟩, hid⟩
      refine ⟨hne, t.forget id, x, ?_, hxs, hxt, ho⟩
      rw [slot?_remove h, if_neg hid, ht]
      rfl
    · intro ⟨hne, t, x, ht, hxs, hxt, ho⟩
      obtain ⟨hid, t₀, ht₀, rfl⟩ := slot?_remove_cases h ht
      exact ⟨⟨hne, t₀, x, ht₀, hxs, hxt, ho⟩, hid⟩
  · intro i s hs
    obtain ⟨-, s₀, hs₀, rfl⟩ := slot?_remove_cases h hs
    exact (hr.crossings_nodup hs₀).sublist (List.filter_sublist.map _)
  · have hlen := length_ids_remove h
    obtain ⟨-, hr'⟩ := remove_eq_ok_iff.mp h
    have hsize : r'.size = r.size - 1 := by rw [hr']
    rw [hsize, hr.size_eq]
    omega

/-- A registered path can be removed. -/
theorem remove_total {r : Registry} {id : PathId} (h : ∃ s, r.slot? id = some s) :
    ∃ r', r.remove id = .ok r' :=
  ⟨_, remove_eq_ok_iff.mpr ⟨h, rfl⟩⟩

/-! ## Rearranging paths -/

/-- Where a path of the new registry stood in the old one. -/
theorem Rearranged.slot?_cases {r r' : Registry} {σ : Equiv.Perm PathId} (h : Rearranged r r' σ)
    {i : PathId} {s : Slot} (hs : r'.slot? i = some s) :
    ∃ s₀, r.slot? (σ i) = some s₀ ∧ s = s₀.relabel σ.symm := by
  rw [h.slot?] at hs
  obtain ⟨s₀, hs₀, rfl⟩ := Option.map_eq_some_iff.mp hs
  exact ⟨s₀, hs₀, rfl⟩

theorem mem_crossings_relabel {σ : Equiv.Perm PathId} {s : Slot} {c : Crossing} :
    c ∈ (s.relabel σ.symm).crossings ↔ (⟨σ c.path, c.overlap⟩ : Crossing) ∈ s.crossings := by
  unfold Slot.relabel
  rw [List.mem_map]
  constructor
  · intro hex
    obtain ⟨c₀, hc₀, rfl⟩ := hex
    simpa using hc₀
  · intro h
    exact ⟨_, h, by simp⟩

/-- Exchanges keep the registry valid, because the crossings are renamed together with the slots. -/
theorem Valid.rearranged {r r' : Registry} (hr : r.Valid) {σ : Equiv.Perm PathId}
    (h : Rearranged r r' σ) : r'.Valid := by
  refine ⟨?_, ?_, ?_, ?_, ?_⟩
  · intro i s hs
    obtain ⟨s₀, hs₀, rfl⟩ := h.slot?_cases hs
    rw [Slot.nodes_relabel]
    exact hr.simple hs₀
  · intro i j s t hs ht hij
    obtain ⟨s₀, hs₀, rfl⟩ := h.slot?_cases hs
    obtain ⟨t₀, ht₀, rfl⟩ := h.slot?_cases ht
    rw [Slot.nodes_relabel, Slot.nodes_relabel]
    exact hr.apart hs₀ ht₀ fun he => hij (σ.injective he)
  · intro i s hs c
    obtain ⟨s₀, hs₀, rfl⟩ := h.slot?_cases hs
    rw [mem_crossings_relabel, hr.mem_crossings_iff hs₀]
    constructor
    · intro ⟨hne, t, x, ht, hxs, hxt, ho⟩
      refine ⟨fun he => hne (congrArg σ he), t.relabel σ.symm, x, ?_, hxs, hxt, ho⟩
      rw [h.slot?, ht]
      rfl
    · intro ⟨hne, t, x, ht, hxs, hxt, ho⟩
      obtain ⟨t₀, ht₀, rfl⟩ := h.slot?_cases ht
      exact ⟨fun he => hne (σ.injective he), t₀, x, ht₀, hxs, hxt, ho⟩
  · intro i s hs
    obtain ⟨s₀, hs₀, rfl⟩ := h.slot?_cases hs
    have hmap : (s₀.relabel σ.symm).crossings.map (·.path) =
        (s₀.crossings.map (·.path)).map σ.symm := by
      simp [Slot.relabel]
    rw [hmap]
    exact (hr.crossings_nodup hs₀).map σ.symm.injective
  · rw [h.size, h.ids_eq, hr.size_eq]

/-! ## The order of crossings -/

theorem lt_foldl_max_iff {n : Nat} : ∀ {l : List Nat} {a : Nat},
    n < l.foldl max a ↔ n < a ∨ ∃ x ∈ l, n < x
  | [], a => by simp
  | y :: l, a => by
    rw [List.foldl_cons, lt_foldl_max_iff]
    simp only [List.mem_cons, exists_eq_or_imp]
    rw [← or_assoc]
    exact or_congr_left (by omega)

/-- The order is above a bound if some path has a crossing above it. -/
theorem lt_maxOrder_iff {r : Registry} {n : Nat} : n < r.maxOrder ↔
    ∃ i s, r.slot? i = some s ∧ ∃ c ∈ s.crossings, n < c.order := by
  unfold maxOrder
  rw [lt_foldl_max_iff]
  simp only [Nat.not_lt_zero, false_or, List.mem_map, List.mem_flatMap]
  constructor
  · intro hex
    obtain ⟨-, ⟨c, ⟨e, he, hc⟩, rfl⟩, hlt⟩ := hex
    exact ⟨e.1, e.2, mem_entries_iff.mp he, c, hc, hlt⟩
  · intro ⟨i, s, hs, c, hc, hlt⟩
    exact ⟨_, ⟨c, ⟨(i, s), mem_entries_iff.mpr hs, hc⟩, rfl⟩, hlt⟩

/-- Where some crossing is recorded there are two paths. -/
theorem Valid.two_le_of_maxOrder {r : Registry} (hr : r.Valid) {n : Nat} (h : n < r.maxOrder) :
    2 ≤ r.ids.length := by
  obtain ⟨i, s, hs, c, hc, -⟩ := lt_maxOrder_iff.mp h
  obtain ⟨hne, t, x, ht, -⟩ := (hr.mem_crossings_iff hs c).mp hc
  have hsub : [c.path, i] ⊆ r.ids := by
    intro j hj
    rcases List.mem_cons.mp hj with rfl | hj
    · exact mem_ids_iff.mpr ⟨t, ht⟩
    · rw [List.mem_singleton.mp hj]
      exact mem_ids_iff.mpr ⟨s, hs⟩
  exact (List.subperm_of_subset (by simp [hne]) hsub).length_le

/-- Every path of the second registry is a path of the first, in the same slot. -/
def Thinned (r r' : Registry) : Prop :=
  ∀ i s', r'.slot? i = some s' → ∃ s, r.slot? i = some s ∧ s.nodes = s'.nodes

theorem Thinned.refl (r : Registry) : Thinned r r :=
  fun _ s' h => ⟨s', h, rfl⟩

theorem Thinned.trans {r₁ r₂ r₃ : Registry} (h₁ : Thinned r₁ r₂) (h₂ : Thinned r₂ r₃) :
    Thinned r₁ r₃ := by
  intro i s₃ hs₃
  obtain ⟨s₂, hs₂, he₂⟩ := h₂ i s₃ hs₃
  obtain ⟨s₁, hs₁, he₁⟩ := h₁ i s₂ hs₂
  exact ⟨s₁, hs₁, he₁.trans he₂⟩

/-- Removing a path moves none of the others. -/
theorem thinned_remove {r r' : Registry} {id : PathId} (h : r.remove id = .ok r') :
    Thinned r r' := by
  intro i s' hs'
  obtain ⟨-, s₀, hs₀, rfl⟩ := slot?_remove_cases h hs'
  exact ⟨s₀, hs₀, rfl⟩

/-- Shedding paths keeps the registry valid, only takes paths out, and leaves one: while a crossing is
recorded there are two. -/
theorem shed_valid {n : Nat} : ∀ (l : List PathId) {r : Registry}, r.Valid →
    (shed n l r).Valid ∧ Thinned r (shed n l r) ∧ (shed n l r).ids.length ≤ r.ids.length ∧
      (r.ids ≠ [] → (shed n l r).ids ≠ [])
  | [], r, hr => ⟨hr, .refl r, Nat.le_refl _, id⟩
  | id :: l, r, hr => by
    unfold shed
    split
    next hlt =>
      have htwo := hr.two_le_of_maxOrder hlt
      cases hrem : r.remove id with
      | ok r' =>
        have hlen := length_ids_remove hrem
        obtain ⟨hv, hthin, hle, hne⟩ := shed_valid (n := n) l (hr.remove hrem)
        refine ⟨hv, (thinned_remove hrem).trans hthin, by simp only; omega, fun _ => hne ?_⟩
        intro hnil
        rw [hnil] at hlen
        simp only [List.length_nil] at hlen
        omega
      | error e => exact shed_valid l hr
    next => exact ⟨hr, .refl r, Nat.le_refl _, fun h => h⟩

end Registry

end QubitRouting
