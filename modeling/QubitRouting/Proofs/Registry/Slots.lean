import QubitRouting.Registry
import Mathlib.Data.List.Nodup
import Mathlib.Data.List.Perm.Basic
import Mathlib.Logic.Equiv.Basic

/-!
# Reading a registry slot by slot

`Registry.slot?` is the view through which registries are reasoned about: one equation per operation
says what stands in each slot afterwards, and `ids` lists the occupied ones. Nothing later looks at the
list of slots itself.
-/

namespace QubitRouting

/-! ## Pairs of paths -/

/-- No end of either path lies on the other one, and they share at most one node. -/
structure Apart (p q : List Qubit) : Prop where
  ends_left : ∀ x ∈ pathEnds p, x ∉ q
  ends_right : ∀ x ∈ pathEnds q, x ∉ p
  shared_eq : ∀ {x y}, x ∈ p → x ∈ q → y ∈ p → y ∈ q → x = y

theorem Apart.symm {p q : List Qubit} (h : Apart p q) : Apart q p where
  ends_left := h.ends_right
  ends_right := h.ends_left
  shared_eq := fun hxq hxp hyq hyp => h.shared_eq hxp hxq hyp hyq

theorem mem_sharedNodes_iff {p q : List Qubit} {x : Qubit} :
    x ∈ sharedNodes p q ↔ x ∈ q ∧ x ∈ p := by
  simp [sharedNodes]

theorem isSimplePath_iff {p : List Qubit} :
    isSimplePath p = true ↔ 2 ≤ p.length ∧ p.Nodup := by
  simp [isSimplePath]

/-- A path joins two qubits if they are its ends, in either direction. -/
theorem joins_iff {a b : Qubit} {path : List Qubit} : joins a b path = true ↔
    path.head? = some a ∧ path.getLast? = some b ∨ path.head? = some b ∧ path.getLast? = some a := by
  simp [joins]

/-- A list without repetitions has at most one entry if and only if all its entries are equal. -/
theorem length_le_one_iff_of_nodup {α : Type} {l : List α} (hl : l.Nodup) :
    l.length ≤ 1 ↔ ∀ x ∈ l, ∀ y ∈ l, x = y := by
  match l, hl with
  | [], _ => simp
  | [a], _ => simp
  | a :: b :: l, hl =>
    have hab : a ≠ b := fun h => (List.nodup_cons.mp hl).1 (h ▸ List.mem_cons_self)
    constructor
    · intro h
      simp at h
    · intro h
      exact absurd (h a (by simp) b (by simp)) hab

/-- Two paths are compatible if they share at most one node, and that one is an end of neither. -/
theorem compatible_iff {p q : List Qubit} (hq : q.Nodup) :
    compatible p q = true ↔ Apart p q := by
  have hshared : (sharedNodes p q).length ≤ 1 ↔
      ∀ x ∈ sharedNodes p q, ∀ y ∈ sharedNodes p q, x = y :=
    length_le_one_iff_of_nodup (hq.filter _)
  simp only [mem_sharedNodes_iff] at hshared
  simp only [compatible, Bool.and_eq_true, List.all_eq_true, Bool.not_eq_true',
    List.contains_eq_mem, decide_eq_true_eq, decide_eq_false_iff_not, hshared]
  constructor
  · intro ⟨⟨hl, hr⟩, hs⟩
    exact ⟨hl, hr, fun hxp hxq hyp hyq => hs _ ⟨hxq, hxp⟩ _ ⟨hyq, hyp⟩⟩
  · intro h
    exact ⟨⟨h.ends_left, h.ends_right⟩,
      fun x hx y hy => h.shared_eq hx.2 hx.1 hy.2 hy.1⟩

/-- On paths that share at most one node, the first shared node is the shared node. -/
theorem head?_sharedNodes_iff {p q : List Qubit} (h : Apart p q) {x : Qubit} :
    (sharedNodes p q).head? = some x ↔ x ∈ p ∧ x ∈ q := by
  constructor
  · intro hx
    have := mem_sharedNodes_iff.mp (List.mem_of_head? hx)
    exact ⟨this.2, this.1⟩
  · intro ⟨hp, hq⟩
    have hmem : x ∈ sharedNodes p q := mem_sharedNodes_iff.mpr ⟨hq, hp⟩
    obtain ⟨y, hy⟩ : ∃ y, (sharedNodes p q).head? = some y := by
      cases hs : sharedNodes p q with
      | nil => simp [hs] at hmem
      | cons y l => exact ⟨y, rfl⟩
    have hy' := mem_sharedNodes_iff.mp (List.mem_of_head? hy)
    rw [hy, h.shared_eq hp hq hy'.2 hy'.1]

/-! ## Slots -/

namespace Slot

@[simp] theorem nodes_meet (id : PathId) (p : List Qubit) (s : Slot) :
    (s.meet id p).nodes = s.nodes := by
  unfold meet
  split <;> rfl

@[simp] theorem nodes_forget (id : PathId) (s : Slot) : (s.forget id).nodes = s.nodes := rfl

@[simp] theorem nodes_relabel (f : PathId → PathId) (s : Slot) :
    (s.relabel f).nodes = s.nodes := rfl

/-- Meeting a new path adds the crossing with it, if there is one. -/
theorem crossings_meet (id : PathId) (p : List Qubit) (s : Slot) :
    (s.meet id p).crossings =
      s.crossings ++ ((sharedNodes p s.nodes).head?.map fun x => (⟨id, [x]⟩ : Crossing)).toList := by
  unfold meet
  split
  next h => simp [h]
  next x l h => simp [h]

theorem mem_crossings_forget {id : PathId} {s : Slot} {c : Crossing} :
    c ∈ (s.forget id).crossings ↔ c ∈ s.crossings ∧ c.path ≠ id := by
  simp [forget]

/-- Two renamings of the crossings make one. -/
theorem relabel_relabel (f g : PathId → PathId) (s : Slot) :
    (s.relabel f).relabel g = s.relabel (g ∘ f) := by
  simp [relabel, Function.comp_def]

end Slot

/-- Exchanging two numbers, as a permutation. -/
theorem swapNames_eq (a b : PathId) : swapNames a b = Equiv.swap a b := by
  funext i
  rw [Equiv.swap_apply_def, swapNames]

namespace Registry

theorem slot?_eq_some_iff {r : Registry} {i : PathId} {s : Slot} :
    r.slot? i = some s ↔ r.slots[i]? = some (some s) := by
  unfold slot?
  cases h : r.slots[i]? with
  | none => simp
  | some o => simp

/-- Only slots that exist are occupied. -/
theorem lt_length_of_slot? {r : Registry} {i : PathId} {s : Slot} (h : r.slot? i = some s) :
    i < r.slots.length :=
  (List.getElem?_eq_some_iff.mp (slot?_eq_some_iff.mp h)).1

theorem contains_iff {r : Registry} {i : PathId} :
    r.contains i = true ↔ ∃ s, r.slot? i = some s := by
  simp [contains, Option.isSome_iff_exists]

@[simp] theorem slot?_empty (i : PathId) : empty.slot? i = none := rfl

/-! ## The occupied slots -/

theorem mem_entries_iff {r : Registry} {e : PathId × Slot} :
    e ∈ r.entries ↔ r.slot? e.1 = some e.2 := by
  rw [slot?_eq_some_iff, entries, List.mem_filterMap]
  constructor
  · intro ⟨⟨o, i⟩, hmem, he⟩
    rw [List.mem_zipIdx_iff_getElem?] at hmem
    obtain ⟨s, rfl, rfl⟩ := Option.map_eq_some_iff.mp he
    exact hmem
  · intro h
    exact ⟨(some e.2, e.1), List.mem_zipIdx_iff_getElem?.mpr h, rfl⟩

theorem mem_ids_iff {r : Registry} {i : PathId} : i ∈ r.ids ↔ ∃ s, r.slot? i = some s := by
  unfold ids
  constructor
  · intro h
    obtain ⟨e, he, rfl⟩ := List.mem_map.mp h
    exact ⟨e.2, mem_entries_iff.mp he⟩
  · intro ⟨s, hs⟩
    exact List.mem_map.mpr ⟨(i, s), mem_entries_iff.mpr hs, rfl⟩

/-- The occupied slots are listed by number. -/
theorem ids_pairwise (r : Registry) : r.ids.Pairwise (· < ·) := by
  unfold ids entries
  rw [List.pairwise_map, List.pairwise_filterMap]
  have hidx : (r.slots.zipIdx.map (·.2)).Pairwise (· < ·) := by
    rw [List.zipIdx_map_snd]
    exact List.pairwise_lt_range'
  refine (List.pairwise_map.mp hidx).imp ?_
  intro e e' hlt b hb b' hb'
  obtain ⟨s, -, rfl⟩ := Option.map_eq_some_iff.mp hb
  obtain ⟨s', -, rfl⟩ := Option.map_eq_some_iff.mp hb'
  exact hlt

theorem ids_nodup (r : Registry) : r.ids.Nodup :=
  (ids_pairwise r).imp fun h => Nat.ne_of_lt h

/-- Two ascending lists of numbers with the same members are equal. -/
theorem eq_of_pairwise_lt {l l' : List Nat} (h : l.Pairwise (· < ·)) (h' : l'.Pairwise (· < ·))
    (hmem : ∀ x, x ∈ l ↔ x ∈ l') : l = l' := by
  have hperm : l.Perm l' := (List.perm_ext_iff_of_nodup (h.imp fun h => Nat.ne_of_lt h)
    (h'.imp fun h => Nat.ne_of_lt h)).mpr hmem
  exact hperm.eq_of_pairwise (fun a b _ _ hab hba => absurd hab (Nat.lt_asymm hba)) h h'

/-- Registries that occupy the same slots list the same numbers. -/
theorem ids_congr {r r' : Registry}
    (h : ∀ i, (∃ s, r.slot? i = some s) ↔ ∃ s, r'.slot? i = some s) : r.ids = r'.ids :=
  eq_of_pairwise_lt (ids_pairwise r) (ids_pairwise r') fun i => by
    rw [mem_ids_iff, mem_ids_iff, h i]

theorem mem_paths_iff {r : Registry} {p : List Qubit} :
    p ∈ r.paths ↔ ∃ i s, r.slot? i = some s ∧ s.nodes = p := by
  unfold paths
  rw [List.mem_map]
  constructor
  · intro hex
    obtain ⟨e, he, rfl⟩ := hex
    exact ⟨e.1, e.2, mem_entries_iff.mp he, rfl⟩
  · intro hex
    obtain ⟨i, s, hs, rfl⟩ := hex
    exact ⟨(i, s), mem_entries_iff.mpr hs, rfl⟩

theorem paths_eq (r : Registry) : r.paths = r.slots.filterMap (Option.map (·.nodes)) := by
  unfold paths entries
  rw [List.map_filterMap]
  conv => rhs; rw [← List.zipIdx_map_fst 0 r.slots, List.filterMap_map]
  refine List.filterMap_congr fun e _ => ?_
  rw [Option.map_map]
  rfl

theorem length_ids_le (r : Registry) : r.ids.length ≤ r.slots.length := by
  have hsub : r.ids ⊆ List.range r.slots.length := by
    intro i hi
    obtain ⟨s, hs⟩ := mem_ids_iff.mp hi
    exact List.mem_range.mpr (lt_length_of_slot? hs)
  simpa using (List.subperm_of_subset (ids_nodup r) hsub).length_le

/-! ## One equation per operation -/

/-- The new path takes the next number, and every other slot learns of its crossing with it. -/
theorem slot?_insert (r : Registry) (p : List Qubit) (i : PathId) :
    (r.insert p).slot? i = if i = r.slots.length then some ⟨p, r.crossingsFor p⟩
      else (r.slot? i).map (Slot.meet r.slots.length p) := by
  unfold slot? insert
  simp only [List.getElem?_append, List.length_map, List.getElem?_map]
  by_cases hlt : i < r.slots.length
  · rw [if_pos hlt, if_neg (Nat.ne_of_lt hlt)]
    cases r.slots[i]? with
    | none => rfl
    | some o => cases o <;> rfl
  · rw [if_neg hlt]
    by_cases heq : i = r.slots.length
    · simp [heq]
    · have hge : r.slots.length + 1 ≤ i :=
        Nat.lt_of_le_of_ne (Nat.le_of_not_lt hlt) (Ne.symm heq)
      rw [if_neg heq, List.getElem?_eq_none (Nat.le_of_succ_le hge),
        List.getElem?_eq_none (Nat.le_sub_of_add_le' hge)]
      rfl

/-- Only an occupied slot can be emptied. Its number is not given out again. -/
theorem remove_eq_ok_iff {r r' : Registry} {id : PathId} : r.remove id = .ok r' ↔
    (∃ s, r.slot? id = some s) ∧
      r' = ⟨(r.slots.set id none).map (Option.map (Slot.forget id)), r.size - 1⟩ := by
  unfold remove
  split
  next h =>
    rw [Except.ok.injEq, eq_comm]
    exact (and_iff_right (contains_iff.mp h)).symm
  next h =>
    constructor
    · intro h'
      contradiction
    · intro h'
      exact absurd (contains_iff.mpr h'.1) h

/-- A path that is removed leaves an empty slot, and the others forget their crossing with it. -/
theorem slot?_remove {r r' : Registry} {id : PathId} (h : r.remove id = .ok r') (i : PathId) :
    r'.slot? i = if i = id then none else (r.slot? i).map (Slot.forget id) := by
  obtain ⟨-, rfl⟩ := remove_eq_ok_iff.mp h
  unfold slot?
  simp only [List.getElem?_map, List.getElem?_set]
  by_cases heq : i = id
  · subst heq
    simp only [if_true]
    split <;> rfl
  · rw [if_neg heq, if_neg (Ne.symm heq)]
    cases r.slots[i]? with
    | none => rfl
    | some o => cases o <;> rfl

theorem length_slots_remove {r r' : Registry} {id : PathId} (h : r.remove id = .ok r') :
    r'.slots.length = r.slots.length := by
  obtain ⟨-, rfl⟩ := remove_eq_ok_iff.mp h
  simp

/-- What two registries have in common that hold the same paths in other slots: slot `i` of the second
holds what slot `σ i` of the first does, with the partners renamed. -/
structure Rearranged (r r' : Registry) (σ : Equiv.Perm PathId) : Prop where
  length_slots : r'.slots.length = r.slots.length
  size : r'.size = r.size
  slot? : ∀ i, r'.slot? i = (r.slot? (σ i)).map (Slot.relabel σ.symm)
  occupied : ∀ i, (∃ s, r.slot? (σ i) = some s) ↔ ∃ s, r.slot? i = some s

namespace Rearranged

theorem refl (r : Registry) : Rearranged r r (Equiv.refl _) where
  length_slots := rfl
  size := rfl
  slot? := fun i => by
    cases h : r.slot? i with
    | none => simp [h]
    | some s => simp [h, Slot.relabel]
  occupied := fun _ => Iff.rfl

theorem trans {r₁ r₂ r₃ : Registry} {σ τ : Equiv.Perm PathId} (h₁ : Rearranged r₁ r₂ σ)
    (h₂ : Rearranged r₂ r₃ τ) : Rearranged r₁ r₃ (τ.trans σ) where
  length_slots := h₂.length_slots.trans h₁.length_slots
  size := h₂.size.trans h₁.size
  slot? := fun i => by
    rw [h₂.slot?, h₁.slot?, Option.map_map]
    exact congrArg (fun f => (r₁.slot? (σ (τ i))).map f)
      (funext fun s => Slot.relabel_relabel σ.symm τ.symm s)
  occupied := fun i => by
    have h := h₂.occupied i
    rw [h₁.slot?, h₁.slot?] at h
    simp only [Option.map_eq_some_iff] at h
    rw [← h₁.occupied i]
    constructor
    · intro ⟨s, hs⟩
      obtain ⟨-, t, ht, -⟩ := h.mp ⟨_, s, hs, rfl⟩
      exact ⟨t, ht⟩
    · intro ⟨s, hs⟩
      obtain ⟨-, t, ht, -⟩ := h.mpr ⟨_, s, hs, rfl⟩
      exact ⟨t, ht⟩

/-- Exchanges permute what is in the slots, so the same slots are taken afterwards. -/
theorem ids_eq {r r' : Registry} {σ : Equiv.Perm PathId} (h : Rearranged r r' σ) :
    r'.ids = r.ids := by
  refine ids_congr fun i => ?_
  rw [h.slot?, ← h.occupied i]
  simp only [Option.map_eq_some_iff]
  constructor
  · intro hex
    obtain ⟨_, s, hs, -⟩ := hex
    exact ⟨s, hs⟩
  · intro ⟨s, hs⟩
    exact ⟨_, s, hs, rfl⟩

end Rearranged

/-- Exchanging two slots rearranges, and nothing else makes an exchange fail than an empty slot. -/
theorem exchange_rearranged {r r' : Registry} {a b : PathId} (h : r.exchange a b = .ok r') :
    Rearranged r r' (Equiv.swap a b) ∧ (∃ s, r.slot? a = some s) ∧ ∃ s, r.slot? b = some s := by
  unfold exchange at h
  split at h
  next => contradiction
  next ha =>
    split at h
    next => contradiction
    next hb =>
      obtain ⟨sa, hsa⟩ := contains_iff.mp (by simpa using ha)
      obtain ⟨sb, hsb⟩ := contains_iff.mp (by simpa using hb)
      refine ⟨?_, ⟨sa, hsa⟩, ⟨sb, hsb⟩⟩
      split at h
      next hab =>
        obtain rfl := Except.ok.inj h
        subst hab
        rw [Equiv.swap_self]
        exact .refl r
      next hab =>
        have hla := lt_length_of_slot? hsa
        have hlb := lt_length_of_slot? hsb
        obtain rfl := Except.ok.inj h
        refine ⟨by simp, rfl, fun i => ?_, fun i => ?_⟩
        · rw [Equiv.symm_swap, ← swapNames_eq]
          rw [hsa, hsb]
          unfold slot? swapNames
          simp only [List.getElem?_map, List.getElem?_set, List.length_set]
          -- the two slots that change places, then all others
          by_cases hib : i = b
          · subst hib
            rw [if_neg (Ne.symm hab), if_pos rfl, if_pos rfl, if_pos hlb,
              slot?_eq_some_iff.mp hsa]
            rfl
          · by_cases hia : i = a
            · subst hia
              rw [if_pos rfl, if_neg (Ne.symm hib), if_pos rfl, if_pos hla,
                slot?_eq_some_iff.mp hsb]
              rfl
            · rw [if_neg hia, if_neg hib, if_neg (Ne.symm hib), if_neg (Ne.symm hia)]
              cases r.slots[i]? with
              | none => rfl
              | some o => cases o <;> rfl
        · rw [Equiv.swap_apply_def]
          split
          next hia => simp [hia, hsa, hsb]
          next =>
            split
            next hib => simp [hib, hsa, hsb]
            next => exact Iff.rfl

/-- Two occupied slots can be exchanged. -/
theorem exchange_total {r : Registry} {a b : PathId} (ha : ∃ s, r.slot? a = some s)
    (hb : ∃ s, r.slot? b = some s) : ∃ r', r.exchange a b = .ok r' := by
  unfold exchange
  rw [contains_iff.mpr ha, contains_iff.mpr hb]
  simp only [Bool.not_true, Bool.false_eq_true, if_false]
  split
  next => exact ⟨_, rfl⟩
  next => exact ⟨_, rfl⟩

end Registry

end QubitRouting
