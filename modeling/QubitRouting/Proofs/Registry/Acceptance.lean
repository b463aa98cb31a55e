import QubitRouting.Proofs.Registry.Coherent
import QubitRouting.Proofs.Sequencing.Locality.Blocks

/-!
# Which paths a registry accepts

A path is accepted if and only if it is simple and apart from every registered path. What an accepted path
changes is one number: the next one, which no path had before. A refused path changes nothing
(`tryAdd_exact`).

Being apart does not depend on which of two paths comes first. So a list of paths is accepted as a whole if
and only if all of them are simple and any two are apart (`isSome_ofPaths?_iff`), in whatever order they are
offered.
-/

namespace QubitRouting

namespace Registry

/-- Offer a path: whether it is accepted, and the registry afterwards. -/
def tryAdd (r : Registry) (p : List Qubit) : Bool × Registry :=
  match r.add? p with
  | some r' => (true, r')
  | none => (false, r)

theorem tryAdd_of_accepts {r : Registry} {p : List Qubit} (h : r.accepts p = true) :
    r.tryAdd p = (true, r.insert p) := by
  unfold tryAdd
  rw [add?_eq_some_iff.mpr ⟨h, rfl⟩]

theorem tryAdd_of_not_accepts {r : Registry} {p : List Qubit} (h : r.accepts p = false) :
    r.tryAdd p = (false, r) := by
  unfold tryAdd add?
  rw [h]
  rfl

/-! ## Numbers that were given out -/

/-- Some sequence of operations has led from an empty registry to this one, and registered `n` paths on the
way. Clearing a registry makes it empty, and the count starts afresh. -/
inductive Allocated : Nat → Registry → Prop where
  | empty : Allocated 0 Registry.empty
  | add {n : Nat} {r r' : Registry} {p : List Qubit} (h : Allocated n r) (hadd : r.add? p = some r') :
      Allocated (n + 1) r'
  | remove {n : Nat} {r r' : Registry} {id : PathId} (h : Allocated n r) (hrem : r.remove id = .ok r') :
      Allocated n r'
  | exchange {n : Nat} {r r' : Registry} {a b : PathId} (h : Allocated n r)
      (hex : r.exchange a b = .ok r') : Allocated n r'
  | limitOrder {n : Nat} {r : Registry} (m : Nat) (h : Allocated n r) : Allocated n (r.limitOrder m)
  | generateSwaps {n : Nat} {r kept : Registry} {swaps : List Swap} (h : Allocated n r)
      (hgen : r.generateSwaps = .ok (swaps, kept)) : Allocated n kept

theorem Allocated.reachable {n : Nat} {r : Registry} (h : Allocated n r) : Reachable r := by
  induction h with
  | empty => exact .empty
  | add _ hadd ih => exact .add ih hadd
  | remove _ hrem ih => exact .remove ih hrem
  | exchange _ hex ih => exact .exchange ih hex
  | limitOrder m _ ih => exact .limitOrder m ih
  | generateSwaps _ hgen ih => exact .generateSwaps ih hgen

/-- Every registry that operations lead to has given out some number of ids. -/
theorem Reachable.allocated {r : Registry} (h : Reachable r) : ∃ n, Allocated n r := by
  induction h with
  | empty => exact ⟨0, .empty⟩
  | add _ hadd ih =>
    obtain ⟨n, hn⟩ := ih
    exact ⟨n + 1, .add hn hadd⟩
  | remove _ hrem ih =>
    obtain ⟨n, hn⟩ := ih
    exact ⟨n, .remove hn hrem⟩
  | exchange _ hex ih =>
    obtain ⟨n, hn⟩ := ih
    exact ⟨n, .exchange hn hex⟩
  | limitOrder m _ ih =>
    obtain ⟨n, hn⟩ := ih
    exact ⟨n, .limitOrder m hn⟩
  | generateSwaps _ hgen ih =>
    obtain ⟨n, hn⟩ := ih
    exact ⟨n, .generateSwaps hn hgen⟩

/-- Shedding paths empties slots, but takes none of them away. -/
theorem length_slots_shed {m : Nat} : ∀ (l : List PathId) (r : Registry),
    (shed m l r).slots.length = r.slots.length
  | [], _ => rfl
  | id :: l, r => by
    unfold shed
    split
    next =>
      cases hrem : r.remove id with
      | ok r' => exact (length_slots_shed l r').trans (length_slots_remove hrem)
      | error e => exact length_slots_shed l r
    next => rfl

/-- Only registering a path makes a new slot, so the next number is how many were given out. -/
theorem Allocated.length_slots {n : Nat} {r : Registry} (h : Allocated n r) : r.slots.length = n := by
  induction h with
  | empty => rfl
  | add _ hadd ih =>
    obtain ⟨-, rfl⟩ := add?_eq_some_iff.mp hadd
    rw [length_slots_insert, ih]
  | remove _ hrem ih => rw [length_slots_remove hrem, ih]
  | exchange _ hex ih => rw [(exchange_rearranged hex).1.length_slots, ih]
  | limitOrder m _ ih => rw [← ih]; exact length_slots_shed _ _
  | generateSwaps h hgen ih =>
    obtain ⟨p, hp, hfollows, -⟩ := Plan.sequenced_total h.reachable.valid
    rw [generateSwaps_eq hp] at hgen
    obtain ⟨-, rfl⟩ := Prod.mk.inj (Except.ok.inj hgen)
    rw [hfollows.length_slots, ← ih]
    rfl

/-! ## One path -/

/-- A path that is accepted alone. -/
def Simple (p : List Qubit) : Prop :=
  2 ≤ p.length ∧ p.Nodup

/-- Acceptance in terms of the registered paths alone. -/
theorem accepts_iff_of_path? {r : Registry} (hr : r.Valid) {p : List Qubit} :
    r.accepts p = true ↔ Simple p ∧ ∀ id q, r.path? id = some q → Apart p q := by
  rw [accepts_iff hr]
  refine and_congr_right fun _ => ⟨fun h id q hq => ?_, fun h id s hs => ?_⟩
  · obtain ⟨s, hs, rfl⟩ := path?_eq_some_iff.mp hq
    exact h id s hs
  · exact h id s.nodes (path?_eq_some_iff.mpr ⟨s, hs, rfl⟩)

theorem path?_insert (r : Registry) (p : List Qubit) (i : PathId) :
    (r.insert p).path? i = if i = r.slots.length then some p else r.path? i := by
  unfold path?
  rw [slot?_insert]
  split
  next => rfl
  next =>
    rw [Option.map_map]
    exact congrArg (fun f => (r.slot? i).map f) (funext fun s => Slot.nodes_meet _ _ s)

/-! ## Lists of paths -/

/-- All paths of a list are accepted, one after the other, if each is simple and no two are in the way of
each other. -/
theorem isSome_ofPaths?_iff {paths : List (List Qubit)} :
    (ofPaths? paths).isSome = true ↔ (∀ p ∈ paths, Simple p) ∧ paths.Pairwise Apart := by
  induction paths using List.reverseRecOn with
  | nil => simp [ofPaths?]
  | append_singleton paths path ih =>
    rw [List.forall_mem_append, List.pairwise_append, Option.isSome_iff_exists]
    constructor
    · intro ⟨r, hr⟩
      obtain ⟨r₀, h₀, haccepts, -⟩ := ofPaths?_concat_iff.mp hr
      obtain ⟨hvalid, hpaths⟩ := ofPaths?_spec h₀
      obtain ⟨hsimple, hpairwise⟩ := ih.mp (Option.isSome_iff_exists.mpr ⟨r₀, h₀⟩)
      obtain ⟨hpath, hapart⟩ := (accepts_iff hvalid).mp haccepts
      refine ⟨⟨hsimple, List.forall_mem_singleton.mpr hpath⟩, hpairwise, List.pairwise_singleton _ _, ?_⟩
      intro q hq p hp
      obtain rfl := List.mem_singleton.mp hp
      rw [← hpaths] at hq
      obtain ⟨i, s, hs, rfl⟩ := mem_paths_iff.mp hq
      exact (hapart i s hs).symm
    · rintro ⟨⟨hsimple, hpath⟩, hpairwise, -, hapart⟩
      obtain ⟨r₀, h₀⟩ := Option.isSome_iff_exists.mp (ih.mpr ⟨hsimple, hpairwise⟩)
      obtain ⟨hvalid, hpaths⟩ := ofPaths?_spec h₀
      refine ⟨r₀.insert path, ofPaths?_concat_iff.mpr ⟨r₀, h₀, (accepts_iff hvalid).mpr ⟨?_, ?_⟩, rfl⟩⟩
      · exact hpath path List.mem_cons_self
      · intro i s hs
        have hmem : s.nodes ∈ paths := hpaths ▸ mem_paths_iff.mpr ⟨i, s, hs, rfl⟩
        exact (hapart _ hmem path List.mem_cons_self).symm

/-- Whether all of the paths are accepted does not depend on their order. -/
theorem isSome_ofPaths?_perm {paths paths' : List (List Qubit)} (h : paths.Perm paths') :
    (ofPaths? paths).isSome = (ofPaths? paths').isSome := by
  rw [Bool.eq_iff_iff, isSome_ofPaths?_iff, isSome_ofPaths?_iff, h.pairwise_iff fun hpq => hpq.symm]
  exact and_congr_left fun _ => forall_congr' fun p => by rw [h.mem_iff]

/-- A path is accepted exactly if it is simple and apart from the registered paths. A refusal leaves the
registry as it was; an accepted path gets the number of paths that were registered before it, and the
numbers of the others stay theirs. Whether all paths of a list are accepted does not depend on the order. -/
theorem tryAdd_exact {n : Nat} {r : Registry} (hr : Allocated n r) (p : List Qubit) :
    ((r.tryAdd p).1 = true ↔ Simple p ∧ ∀ id q, r.path? id = some q → Apart p q) ∧
    ((r.tryAdd p).1 = false → (r.tryAdd p).2 = r) ∧
    ((r.tryAdd p).1 = true → r.path? n = none ∧ (r.tryAdd p).2.path? n = some p ∧
      ∀ id, id ≠ n → (r.tryAdd p).2.path? id = r.path? id) ∧
    ∀ paths paths' : List (List Qubit), paths.Perm paths' →
      (ofPaths? paths).isSome = (ofPaths? paths').isSome := by
  have hn := hr.length_slots
  rw [← accepts_iff_of_path? hr.reachable.valid]
  refine ⟨?_, ?_, ?_, fun _ _ => isSome_ofPaths?_perm⟩
  · cases hacc : r.accepts p with
    | true => rw [tryAdd_of_accepts hacc]
    | false => rw [tryAdd_of_not_accepts hacc]
  · intro hrefused
    cases hacc : r.accepts p with
    | true =>
      rw [tryAdd_of_accepts hacc] at hrefused
      contradiction
    | false => rw [tryAdd_of_not_accepts hacc]
  · intro haccepted
    cases hacc : r.accepts p with
    | false =>
      rw [tryAdd_of_not_accepts hacc] at haccepted
      contradiction
    | true =>
      rw [tryAdd_of_accepts hacc]
      refine ⟨?_, ?_, fun id hid => ?_⟩
      · rw [Option.eq_none_iff_forall_ne_some]
        intro q hq
        obtain ⟨s, hs, -⟩ := path?_eq_some_iff.mp hq
        have hlt := lt_length_of_slot? hs
        rw [hn] at hlt
        exact absurd hlt (Nat.lt_irrefl n)
      · rw [path?_insert, if_pos hn.symm]
      · rw [path?_insert, if_neg (hn ▸ hid)]

theorem allocated_crossedOnce : Allocated 3 crossedOnce := by
  obtain ⟨n, hn⟩ := reachable_crossedOnce.allocated
  obtain rfl : n = 3 := hn.length_slots.symm
  exact hn

/-- Three paths were registered and one of them was discarded. The next one is number three, although only
two are left. A path that ends on another one is refused. -/
theorem crossedOnce_tryAdd_exact : Allocated 3 crossedOnce ∧ crossedOnce.size = 2 ∧
    (crossedOnce.tryAdd [8, 2, 9]).2.path? 3 = some [8, 2, 9] ∧
    (crossedOnce.tryAdd [8, 2, 9]).2.path? 2 = some [4, 1, 5] ∧
    (crossedOnce.tryAdd [8, 2]).2 = crossedOnce := by
  obtain ⟨-, -, haccepted, -⟩ := tryAdd_exact allocated_crossedOnce [8, 2, 9]
  obtain ⟨-, hrefused, -⟩ := tryAdd_exact allocated_crossedOnce [8, 2]
  obtain ⟨-, hnew, hold⟩ := haccepted (by decide)
  exact ⟨allocated_crossedOnce, rfl, hnew, hold 2 (by decide), hrefused (by decide)⟩

end Registry

end QubitRouting
