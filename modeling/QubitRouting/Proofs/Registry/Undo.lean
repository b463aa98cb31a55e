import QubitRouting.Proofs.Registry.Acceptance
import QubitRouting.Proofs.Registry.Limit

/-!
# Removing a path undoes its registration

A path that is removed takes with it every record that other paths have of it. Had it never been registered, the
registry would be the same but for one thing: the path has used up a number, so its slot is left over, and the
numbers behind it are one higher (`withGap`).

Paths that were registered in the meantime make no difference, for two reasons. Removing the path can be done before
they are registered (`without_insert`), and what remains then is the registry before with a gap at its end
(`without_insert_self`). A gap stays a gap when paths are registered (`withGap_insert`).
-/

namespace QubitRouting

/-- The numbers with `k` left out. -/
def skip (k i : Nat) : Nat :=
  if i < k then i else i + 1

theorem skip_of_lt {k i : Nat} (h : i < k) : skip k i = i :=
  if_pos h

theorem skip_of_le {k i : Nat} (h : k ≤ i) : skip k i = i + 1 :=
  if_neg (Nat.not_lt.mpr h)

theorem skip_strictMono (k : Nat) : StrictMono (skip k) := by
  intro i j hij
  unfold skip
  split <;> split <;> omega

theorem skip_ne (k i : Nat) : skip k i ≠ k := by
  unfold skip
  split <;> omega

theorem eq_or_exists_skip (k j : Nat) : j = k ∨ ∃ i, skip k i = j := by
  rcases Nat.lt_trichotomy j k with hlt | heq | hgt
  · exact .inr ⟨j, skip_of_lt hlt⟩
  · exact .inl heq
  · exact .inr ⟨j - 1, by rw [skip_of_le (by omega)]; omega⟩

namespace Slot

/-- A path that gets a crossing with the path `n` and one that loses those with the path `k` can do so in either
order. -/
theorem forget_meet {n k : PathId} (hne : n ≠ k) (p : List Qubit) (s : Slot) :
    (s.meet n p).forget k = (s.forget k).meet n p := by
  unfold meet
  rw [nodes_forget]
  split
  next => rfl
  next => simp [forget, hne]

theorem forget_meet_self (k : PathId) (p : List Qubit) (s : Slot) : (s.meet k p).forget k = s.forget k := by
  unfold meet
  split
  next => rfl
  next => simp [forget]

theorem forget_of_forall_ne {k : PathId} {s : Slot} (h : ∀ c ∈ s.crossings, c.path ≠ k) : s.forget k = s := by
  unfold forget
  rw [List.filter_eq_self.mpr fun c hc => bne_iff_ne.mpr (h c hc)]

theorem relabel_of_forall_eq {f : PathId → PathId} {s : Slot} (h : ∀ c ∈ s.crossings, f c.path = c.path) :
    s.relabel f = s := by
  have hmap : (s.crossings.map fun c => { c with path := f c.path }) = s.crossings := by
    rw [List.map_congr_left (g := id) fun c hc => by rw [h c hc]; rfl, List.map_id]
  unfold relabel
  rw [hmap]

end Slot

namespace Registry

variable {r r' : Registry} {p : List Qubit} {k : PathId}

/-- A registry is what stands in its slots. -/
theorem ext_slot? (hlength : r.slots.length = r'.slots.length) (hsize : r.size = r'.size)
    (hslot : ∀ i, r.slot? i = r'.slot? i) : r = r' := by
  have hslots : r.slots = r'.slots := by
    refine List.ext_getElem hlength fun i hi hi' => ?_
    have h := hslot i
    unfold slot? at h
    rwa [List.getElem?_eq_getElem hi, List.getElem?_eq_getElem hi', Option.join_some, Option.join_some] at h
  show Registry.mk _ _ = Registry.mk _ _
  rw [Registry.mk.injEq]
  exact ⟨hslots, hsize⟩

theorem slot?_eq_none_of_le {i : PathId} (h : r.slots.length ≤ i) : r.slot? i = none := by
  unfold slot?
  rw [List.getElem?_eq_none h]
  rfl

/-! ## A registry with a gap -/

/-- The same paths and crossings with an empty slot at `k`: what was numbered `k` or higher is numbered one higher. -/
def withGap (r : Registry) (k : PathId) : Registry where
  slots := (r.slots.map (Option.map (Slot.relabel (skip k)))).insertIdx k none
  size := r.size

theorem length_slots_withGap (hk : k ≤ r.slots.length) : (r.withGap k).slots.length = r.slots.length + 1 := by
  unfold withGap
  rw [List.length_insertIdx_of_le_length (by rwa [List.length_map]), List.length_map]

theorem slot?_withGap_self (r : Registry) (k : PathId) : (r.withGap k).slot? k = none := by
  unfold slot? withGap
  rw [List.getElem?_insertIdx, if_neg (Nat.lt_irrefl k), if_pos rfl]
  split <;> rfl

theorem slot?_withGap_skip (r : Registry) (k i : PathId) :
    (r.withGap k).slot? (skip k i) = (r.slot? i).map (Slot.relabel (skip k)) := by
  have hold : ((r.slots.map (Option.map (Slot.relabel (skip k)))).insertIdx k none)[skip k i]? =
      r.slots[i]?.map (Option.map (Slot.relabel (skip k))) := by
    rw [List.getElem?_insertIdx, ← List.getElem?_map]
    by_cases hi : i < k
    · rw [skip_of_lt hi, if_pos hi]
    · have hle : k ≤ i := Nat.le_of_not_lt hi
      rw [skip_of_le hle, if_neg (Nat.not_lt.mpr (Nat.le_succ_of_le hle)),
        if_neg (Nat.ne_of_gt (Nat.lt_succ_of_le hle)), Nat.add_sub_cancel]
  unfold slot? withGap
  rw [hold]
  cases r.slots[i]? with
  | none => rfl
  | some o => cases o <;> rfl

/-- A registry with the same paths in slots that leave out `k` is the one with a gap there. -/
theorem eq_withGap (hk : k ≤ r.slots.length) (hlength : r'.slots.length = r.slots.length + 1)
    (hsize : r'.size = r.size) (hself : r'.slot? k = none)
    (hskip : ∀ i, r'.slot? (skip k i) = (r.slot? i).map (Slot.relabel (skip k))) : r' = r.withGap k := by
  refine ext_slot? (hlength.trans (length_slots_withGap hk).symm) hsize fun j => ?_
  rcases eq_or_exists_skip k j with rfl | ⟨i, rfl⟩
  · rw [hself, slot?_withGap_self]
  · rw [hskip, slot?_withGap_skip]

/-- The sector of all paths, with `k` left out of their numbers. -/
def skipping (k : Nat) : Sector where
  ground := fun _ => true
  rename := skip k
  strictMono := skip_strictMono k

/-- A registry is a part of the one with a gap, and all of it. -/
theorem part_withGap (r : Registry) (k : PathId) : Part (skipping k) r (r.withGap k) where
  slot? := slot?_withGap_skip r k
  inside := fun _ _ _ => rfl
  outside := by
    intro j s hs hj
    rcases eq_or_exists_skip k j with rfl | ⟨i, rfl⟩
    · rw [slot?_withGap_self] at hs
      contradiction
    · exact absurd rfl ((skipping k).rename_ne hj i)

/-- Registering a path leaves the gap where it is. -/
theorem withGap_insert (hk : k ≤ r.slots.length) (p : List Qubit) :
    (r.withGap k).insert p = (r.insert p).withGap k := by
  have hcontinues : Continues (skipping k) r (r.withGap k) := by
    intro n
    rw [length_slots_withGap hk, Nat.add_right_comm]
    exact skip_of_le (Nat.le_trans hk (Nat.le_add_right _ n))
  have hground : ∀ x ∈ p, (skipping k).ground x = true := fun _ _ => rfl
  have hpart := ((part_withGap r k).insert hcontinues hground).1
  refine eq_withGap ?_ ?_ rfl ?_ hpart.slot?
  · rw [length_slots_insert]
    exact Nat.le_succ_of_le hk
  · rw [length_slots_insert, length_slots_insert, length_slots_withGap hk]
  · rw [slot?_insert, length_slots_withGap hk, if_neg (Nat.ne_of_lt (Nat.lt_succ_of_le hk)),
      slot?_withGap_self]
    rfl

/-! ## Removing and registering -/

theorem without_of_remove (h : r.remove k = .ok r') : r.without k = r' := by
  unfold without
  rw [h]

theorem remove_of_occupied (hk : ∃ s, r.slot? k = some s) : r.remove k = .ok (r.without k) := by
  obtain ⟨r', hr'⟩ := remove_total hk
  rw [without_of_remove hr', hr']

theorem slot?_without (hk : ∃ s, r.slot? k = some s) (i : PathId) :
    (r.without k).slot? i = if i = k then none else (r.slot? i).map (Slot.forget k) :=
  slot?_remove (remove_of_occupied hk) i

theorem length_slots_without (hk : ∃ s, r.slot? k = some s) : (r.without k).slots.length = r.slots.length :=
  length_slots_remove (remove_of_occupied hk)

theorem size_without (hr : r.Valid) (hk : ∃ s, r.slot? k = some s) : (r.without k).size + 1 = r.size := by
  have hrem := remove_of_occupied hk
  rw [(hr.remove hrem).size_eq, hr.size_eq, length_ids_remove hrem]

theorem crossingsFor_eq_filterMap (r : Registry) (p : List Qubit) : r.crossingsFor p =
    r.ids.filterMap fun i => (r.path? i).bind fun q => (sharedNodes p q).head?.map fun x => ⟨i, [x]⟩ := by
  unfold crossingsFor
  rw [entries_eq, List.filterMap_filterMap]
  refine List.filterMap_congr fun i _ => ?_
  unfold path?
  cases r.slot? i <;> rfl

/-- A path meets what is left of the paths that it would have met. -/
theorem crossingsFor_without (hk : ∃ s, r.slot? k = some s) (p : List Qubit) :
    (r.without k).crossingsFor p = (r.crossingsFor p).filter fun c => c.path != k := by
  rw [crossingsFor_eq_filterMap, crossingsFor_eq_filterMap, ids_remove (remove_of_occupied hk),
    (ids_nodup r).erase_eq_filter, List.filterMap_filter, List.filter_filterMap]
  refine List.filterMap_congr fun i _ => ?_
  have hpath : ∀ c : Crossing, ((r.path? i).bind fun q => (sharedNodes p q).head?.map fun x => ⟨i, [x]⟩) = some c →
      c.path = i := by
    intro c hc
    obtain ⟨q, -, hc⟩ := Option.bind_eq_some_iff.mp hc
    obtain ⟨x, -, rfl⟩ := Option.map_eq_some_iff.mp hc
    rfl
  by_cases hi : i = k
  · rw [if_neg (by simp [hi]), eq_comm, Option.filter_eq_none_iff]
    intro c hc
    simp [hpath c hc, hi]
  · rw [if_pos (bne_iff_ne.mpr hi), path?_without_of_ne hi]
    refine Option.ext fun c => ?_
    rw [Option.filter_eq_some_iff]
    exact ⟨fun hc => ⟨hc, by simp [hpath c hc, hi]⟩, And.left⟩

/-- A path can be removed before the next one is registered or afterwards. -/
theorem without_insert (hr : r.Valid) (hk : ∃ s, r.slot? k = some s) (p : List Qubit) :
    (r.insert p).without k = (r.without k).insert p := by
  obtain ⟨s, hs⟩ := hk
  have hne : r.slots.length ≠ k := Nat.ne_of_gt (lt_length_of_slot? hs)
  have hk' : ∃ s, (r.insert p).slot? k = some s := ⟨_, slot?_insert_old p hs⟩
  refine ext_slot? ?_ ?_ fun i => ?_
  · rw [length_slots_without hk', length_slots_insert, length_slots_insert, length_slots_without ⟨s, hs⟩]
  · obtain ⟨-, heq⟩ := remove_eq_ok_iff.mp (remove_of_occupied hk')
    have hsize := size_without hr ⟨s, hs⟩
    rw [heq]
    show r.size + 1 - 1 = (r.without k).size + 1
    omega
  · rw [slot?_without hk', slot?_insert, slot?_insert, slot?_without ⟨s, hs⟩, length_slots_without ⟨s, hs⟩,
      crossingsFor_without ⟨s, hs⟩]
    by_cases hik : i = k
    · rw [if_pos hik, if_pos hik, if_neg fun h => hne (h.symm.trans hik)]
      rfl
    · rw [if_neg hik, if_neg hik]
      split
      next => rfl
      next =>
        rw [Option.map_map, Option.map_map]
        exact congrArg (fun f => (r.slot? i).map f) (funext fun t => Slot.forget_meet hne p t)

/-- What is left of a path that was registered last is its empty slot. -/
theorem without_insert_self (hr : r.Valid) (p : List Qubit) :
    (r.insert p).without r.slots.length = r.withGap r.slots.length := by
  have hk : ∃ s, (r.insert p).slot? r.slots.length = some s := ⟨_, slot?_insert_self r p⟩
  refine eq_withGap (Nat.le_refl _) ?_ ?_ ?_ fun i => ?_
  · rw [length_slots_without hk, length_slots_insert]
  · obtain ⟨-, heq⟩ := remove_eq_ok_iff.mp (remove_of_occupied hk)
    rw [heq]
    rfl
  · rw [slot?_without hk, if_pos rfl]
  · rw [slot?_without hk, if_neg (skip_ne _ i), slot?_insert, if_neg (skip_ne _ i)]
    cases hs : r.slot? i with
    | none =>
      by_cases hi : i < r.slots.length
      · rw [skip_of_lt hi, hs]
        rfl
      · rw [skip_of_le (Nat.le_of_not_lt hi), slot?_eq_none_of_le (Nat.le_succ_of_le (Nat.le_of_not_lt hi))]
        rfl
    | some s =>
      -- the crossings of an old path are with old paths, whose numbers are all below
      have hlt : ∀ c ∈ s.crossings, c.path < r.slots.length := by
        intro c hc
        obtain ⟨t, ht⟩ := hr.slot?_of_mem_crossings hs hc
        exact lt_length_of_slot? ht
      rw [skip_of_lt (lt_length_of_slot? hs), hs, Option.map_some, Option.map_some, Option.map_some,
        Slot.forget_meet_self, Slot.forget_of_forall_ne fun c hc => Nat.ne_of_lt (hlt c hc),
        Slot.relabel_of_forall_eq fun c hc => skip_of_lt (hlt c hc)]

/-! ## Any number of later paths -/

/-- Register paths one after the other, if all of them are accepted. -/
def addAll? (r : Registry) (paths : List (List Qubit)) : Option Registry :=
  paths.foldlM add? r

theorem addAll?_cons_iff {paths : List (List Qubit)} : r.addAll? (p :: paths) = some r' ↔
    r.accepts p = true ∧ (r.insert p).addAll? paths = some r' := by
  unfold addAll?
  rw [List.foldlM_cons, Option.bind_eq_bind, Option.bind_eq_some_iff]
  simp only [add?_eq_some_iff]
  exact ⟨fun ⟨_, ⟨haccepts, rfl⟩, h⟩ => ⟨haccepts, h⟩, fun ⟨haccepts, h⟩ => ⟨_, ⟨haccepts, rfl⟩, h⟩⟩

theorem accepts_without (hr : r.Valid) (hk : ∃ s, r.slot? k = some s) (h : r.accepts p = true) :
    (r.without k).accepts p = true := by
  obtain ⟨hsimple, hapart⟩ := (accepts_iff hr).mp h
  refine (accepts_iff (hr.remove (remove_of_occupied hk))).mpr ⟨hsimple, fun i s hs => ?_⟩
  obtain ⟨-, s₀, hs₀, hnodes, -⟩ := slot?_without_cases hs
  exact hnodes ▸ hapart i s₀ hs₀

/-- Paths that are accepted beside the path `k` are accepted without it. -/
theorem addAll?_without {paths : List (List Qubit)} (hr : r.Valid) (hk : ∃ s, r.slot? k = some s)
    (h : r.addAll? paths = some r') :
    (r.without k).addAll? paths = some (r'.without k) ∧ ∃ s, r'.slot? k = some s := by
  induction paths generalizing r with
  | nil =>
    obtain rfl := Option.some.inj h
    exact ⟨rfl, hk⟩
  | cons p paths ih =>
    obtain ⟨haccepts, hrest⟩ := addAll?_cons_iff.mp h
    obtain ⟨s, hs⟩ := hk
    obtain ⟨hwithout, hkept⟩ := ih (hr.insert haccepts) ⟨_, slot?_insert_old p hs⟩ hrest
    rw [without_insert hr ⟨s, hs⟩] at hwithout
    exact ⟨addAll?_cons_iff.mpr ⟨accepts_without hr ⟨s, hs⟩ haccepts, hwithout⟩, hkept⟩

/-- Paths that are accepted beside a gap are accepted without it. -/
theorem addAll?_withGap {paths : List (List Qubit)} (hr : r.Valid) (hgap : (r.withGap k).Valid)
    (hk : k ≤ r.slots.length) (h : (r.withGap k).addAll? paths = some r') :
    ∃ direct, r.addAll? paths = some direct ∧ r' = direct.withGap k := by
  induction paths generalizing r with
  | nil =>
    obtain rfl := Option.some.inj h
    exact ⟨r, rfl, rfl⟩
  | cons p paths ih =>
    obtain ⟨haccepts, hrest⟩ := addAll?_cons_iff.mp h
    have haccepts' := (part_withGap r k).accepts hr hgap haccepts
    have hgap' := hgap.insert haccepts
    rw [withGap_insert hk] at hrest hgap'
    have hk' : k ≤ (r.insert p).slots.length := by
      rw [length_slots_insert]
      exact Nat.le_succ_of_le hk
    obtain ⟨direct, hdirect, rfl⟩ := ih (hr.insert haccepts') hgap' hk' hrest
    exact ⟨direct, addAll?_cons_iff.mpr ⟨haccepts', hdirect⟩, rfl⟩

/-- An accepted path is registered under the next number and no other. -/
theorem eq_length_of_path?_insert (hr : r.Valid) (h : r.accepts p = true) (hk : (r.insert p).path? k = some p) :
    k = r.slots.length := by
  obtain ⟨⟨hlen, -⟩, hapart⟩ := (accepts_iff_of_path? hr).mp h
  rw [path?_insert] at hk
  split at hk
  next heq => exact heq
  next =>
    -- otherwise its ends would lie on a registered path
    cases p with
    | nil => simp at hlen
    | cons x p => exact absurd List.mem_cons_self ((hapart k _ hk).ends_left x List.mem_cons_self)

/-- A path is registered, other paths after it, and then it is removed: the registry is as if it had never been
there, except for its empty slot and the numbers behind it. Removing a path that is not there is refused and changes
nothing. -/
theorem remove_undoes_add (hr : Reachable r) :
    (∀ p r₁ k later r₂, r.add? p = some r₁ → r₁.path? k = some p → r₁.addAll? later = some r₂ →
      ∃ direct, r.addAll? later = some direct ∧ r₂.remove k = .ok (direct.withGap k)) ∧
    ∀ id, r.path? id = none → r.remove id = .error (.notFound id) ∧ r.without id = r := by
  have hvalid := hr.valid
  refine ⟨fun p r₁ k later r₂ hadd hpath hlater => ?_, fun id hid => ?_⟩
  · obtain ⟨haccepts, rfl⟩ := add?_eq_some_iff.mp hadd
    obtain rfl := eq_length_of_path?_insert hvalid haccepts hpath
    have hk : ∃ s, (r.insert p).slot? r.slots.length = some s := ⟨_, slot?_insert_self r p⟩
    have hgap := (hvalid.insert haccepts).remove (remove_of_occupied hk)
    obtain ⟨hwithout, hkept⟩ := addAll?_without (hvalid.insert haccepts) hk hlater
    rw [without_insert_self hvalid] at hwithout hgap
    obtain ⟨direct, hdirect, heq⟩ := addAll?_withGap hvalid hgap (Nat.le_refl _) hwithout
    exact ⟨direct, hdirect, heq ▸ remove_of_occupied hkept⟩
  · have hrefused : r.remove id = .error (.notFound id) := by
      have hnone : r.slot? id = none := Option.map_eq_none_iff.mp hid
      unfold remove contains
      rw [hnone]
      rfl
    refine ⟨hrefused, ?_⟩
    unfold without
    rw [hrefused]

/-- Path number three crosses an old path, and a later path crosses both of them in the same node. When it is gone,
the later ones have the numbers four and five, and an old path that has crossings with them names them so. -/
theorem crossedOnce_remove_undoes_add : Reachable crossedOnce ∧
    ∃ r₁ r₂ direct, crossedOnce.add? [8, 2, 9] = some r₁ ∧ r₁.path? 3 = some [8, 2, 9] ∧
      r₁.addAll? [[10, 2, 11], [12, 1, 13]] = some r₂ ∧
      crossedOnce.addAll? [[10, 2, 11], [12, 1, 13]] = some direct ∧ r₂.remove 3 = .ok (direct.withGap 3) ∧
      direct.crossingsAt 0 = [⟨2, [1]⟩, ⟨3, [2]⟩, ⟨4, [1]⟩] ∧
      (direct.withGap 3).crossingsAt 0 = [⟨2, [1]⟩, ⟨4, [2]⟩, ⟨5, [1]⟩] ∧
      r₂.remove 1 = .error (.notFound 1) := by
  let r₁ := crossedOnce.insert [8, 2, 9]
  let r₂ := (r₁.insert [10, 2, 11]).insert [12, 1, 13]
  have hadd : crossedOnce.add? [8, 2, 9] = some r₁ := by decide
  have hlater : r₁.addAll? [[10, 2, 11], [12, 1, 13]] = some r₂ := by decide
  have hfirst : r₁.add? [10, 2, 11] = some (r₁.insert [10, 2, 11]) := by decide
  have hsecond : (r₁.insert [10, 2, 11]).add? [12, 1, 13] = some r₂ := by decide
  have hreach : Reachable r₂ := .add (.add (.add reachable_crossedOnce hadd) hfirst) hsecond
  obtain ⟨direct, hdirect, hrem⟩ :=
    (remove_undoes_add reachable_crossedOnce).1 _ r₁ 3 _ r₂ hadd (by decide) hlater
  obtain rfl : (crossedOnce.insert [10, 2, 11]).insert [12, 1, 13] = direct :=
    Option.some.inj ((by decide : _ = _).trans hdirect)
  exact ⟨reachable_crossedOnce, r₁, r₂, _, hadd, by decide, hlater, hdirect, hrem, by decide, by decide,
    ((remove_undoes_add hreach).2 1 (by decide)).1⟩

end Registry

end QubitRouting
