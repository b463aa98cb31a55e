import QubitRouting.Layout
import QubitRouting.Proofs.Checked
import QubitRouting.Proofs.Sequencing.Tokens

/-!
# The two directions of a layout match

`Layout.Matching` says that the two tables of a layout are inverse to one another: `v` sits on `p` if
and only if `p` is occupied by `v`. Every constructor builds such a layout (`Built.matching`), and a
swap of two positions keeps it so and renames the positions of all qubits (`swapPhysical_total`).
-/

namespace QubitRouting

/-- Exchanging two entries of a table renames its indices. -/
theorem getElem?_transposed {α : Type} {xs : List α} {i j : Nat} {x y : α} (hi : xs[i]? = some x)
    (hj : xs[j]? = some y) (k : Nat) : ((xs.set i y).set j x)[k]? = xs[swapNames i j k]? := by
  have hil := (List.getElem?_eq_some_iff.mp hi).1
  have hjl := (List.getElem?_eq_some_iff.mp hj).1
  unfold swapNames
  by_cases hkj : k = j
  · subst hkj
    rw [List.getElem?_set_self (by rwa [List.length_set])]
    by_cases hki : k = i
    · rw [if_pos hki, hki, hi]
    · rw [if_neg hki, if_pos rfl, hi]
  · rw [List.getElem?_set_ne (Ne.symm hkj)]
    by_cases hki : k = i
    · rw [if_pos hki, hki, List.getElem?_set_self hil, hj]
    · rw [if_neg hki, if_neg hkj, List.getElem?_set_ne (Ne.symm hki)]

namespace Layout

/-- A virtual qubit sits on a position if and only if the position is occupied by it. -/
def Matching (l : Layout) : Prop :=
  ∀ (v : VirtualQubit) (p : Qubit), l.position[v]? = some p ↔ l.occupant[p]? = some (some v)

theorem Matching.lt_numPhysical {l : Layout} (hl : l.Matching) {v : VirtualQubit} {p : Qubit}
    (h : l.position[v]? = some p) : p < l.numPhysical :=
  (List.getElem?_eq_some_iff.mp ((hl v p).mp h)).1

theorem Matching.injective {l : Layout} (hl : l.Matching) {v w : VirtualQubit} {p : Qubit}
    (hv : l.position[v]? = some p) (hw : l.position[w]? = some p) : v = w := by
  have h := (hl v p).mp hv
  rw [(hl w p).mp hw] at h
  exact (Option.some.inj (Option.some.inj h)).symm

theorem toPhysical_eq_ok_iff {l : Layout} {v : VirtualQubit} {p : Qubit} :
    l.toPhysical v = .ok p ↔ l.position[v]? = some p :=
  fetch_eq_ok_iff

/-- Every virtual qubit has a position. -/
theorem toPhysical_total {l : Layout} {v : VirtualQubit} (h : v < l.numVirtual) :
    ∃ p, l.toPhysical v = .ok p ∧ l.position[v]? = some p :=
  ⟨_, toPhysical_eq_ok_iff.mpr (List.getElem?_eq_getElem h), List.getElem?_eq_getElem h⟩

/-! ## Swapping positions -/

/-- The table of positions after `relocate`. -/
def relocated (position : List Qubit) (p : Qubit) : Option VirtualQubit → List Qubit
  | none => position
  | some v => position.set v p

theorem relocate_eq_ok {position : List Qubit} {p : Qubit} {o : Option VirtualQubit}
    (h : ∀ v, o = some v → v < position.length) :
    relocate position p o = .ok (relocated position p o) := by
  cases o with
  | none => rfl
  | some v => exact store_eq_ok p (h v rfl)

@[simp] theorem length_relocated (position : List Qubit) (p : Qubit) (o : Option VirtualQubit) :
    (relocated position p o).length = position.length := by
  cases o with
  | none => rfl
  | some v => exact List.length_set

theorem getElem?_relocated {position : List Qubit} {p : Qubit} {o : Option VirtualQubit}
    (h : ∀ v, o = some v → v < position.length) (w : VirtualQubit) :
    (relocated position p o)[w]? = if o = some w then some p else position[w]? := by
  cases o with
  | none => rfl
  | some v =>
    unfold relocated
    by_cases hvw : v = w
    · rw [← hvw, List.getElem?_set_self (h v rfl), if_pos rfl]
    · rw [List.getElem?_set_ne hvw, if_neg fun he => hvw (Option.some.inj he)]

/-- Only virtual qubits that exist occupy a position. -/
theorem Matching.lt_length {l : Layout} (hl : l.Matching) {p : Qubit} {o : Option VirtualQubit}
    (hp : l.occupant[p]? = some o) : ∀ v, o = some v → v < l.position.length := by
  intro v he
  subst he
  exact (List.getElem?_eq_some_iff.mp ((hl v p).mpr hp)).1

/-- What a swap of two positions does to the two tables. -/
theorem swapPhysical_eq {l : Layout} (hl : l.Matching) {a b : Qubit} {oa ob : Option VirtualQubit}
    (hoa : l.occupant[a]? = some oa) (hob : l.occupant[b]? = some ob) :
    l.swapPhysical a b = .ok
      ⟨relocated (relocated l.position a ob) b oa, (l.occupant.set a ob).set b oa⟩ := by
  -- what stands on the two positions afterwards
  have ha' : ((l.occupant.set a ob).set b oa)[a]? = some ob := by
    rw [getElem?_transposed hoa hob, swapNames_left, hob]
  have hb' : ((l.occupant.set a ob).set b oa)[b]? = some oa := by
    rw [getElem?_transposed hoa hob, swapNames_right, hoa]
  have hlt : ∀ v, oa = some v → v < (relocated l.position a ob).length := by
    rw [length_relocated]
    exact hl.lt_length hoa
  unfold swapPhysical
  rw [transpose_eq_ok hoa hob, ok_bind, fetch_eq_ok ha', ok_bind,
    relocate_eq_ok (hl.lt_length hob), ok_bind, fetch_eq_ok hb', ok_bind, relocate_eq_ok hlt]
  rfl

/-- A swap of two positions has a result. The tables still match, and every position is renamed. -/
theorem swapPhysical_total {l : Layout} (hl : l.Matching) {a b : Qubit} (ha : a < l.numPhysical)
    (hb : b < l.numPhysical) : ∃ l', l.swapPhysical a b = .ok l' ∧ l'.Matching ∧
      l'.position = l.position.map (swapNames a b) ∧ l'.numPhysical = l.numPhysical := by
  have hoa : l.occupant[a]? = some l.occupant[a] := List.getElem?_eq_getElem ha
  have hob : l.occupant[b]? = some l.occupant[b] := List.getElem?_eq_getElem hb
  generalize l.occupant[a] = oa at hoa
  generalize l.occupant[b] = ob at hob
  have hocc := getElem?_transposed hoa hob
  have hlt : ∀ v, oa = some v → v < (relocated l.position a ob).length := by
    rw [length_relocated]
    exact hl.lt_length hoa
  have hpos : relocated (relocated l.position a ob) b oa = l.position.map (swapNames a b) := by
    refine List.ext_getElem? fun v => ?_
    rw [getElem?_relocated hlt, getElem?_relocated (hl.lt_length hob), List.getElem?_map]
    -- a qubit moves if and only if it stands on one of the two positions
    have hva : oa = some v ↔ l.position[v]? = some a := by
      rw [hl, hoa, Option.some.injEq]
    have hvb : ob = some v ↔ l.position[v]? = some b := by
      rw [hl, hob, Option.some.injEq]
    by_cases h₁ : oa = some v
    · rw [if_pos h₁, hva.mp h₁, Option.map_some, swapNames_left]
    · rw [if_neg h₁]
      by_cases h₂ : ob = some v
      · rw [if_pos h₂, hvb.mp h₂, Option.map_some, swapNames_right]
      · rw [if_neg h₂]
        cases hp : l.position[v]? with
        | none => rfl
        | some p =>
          rw [hp] at hva hvb
          rw [Option.map_some, swapNames_of_ne (fun he => h₁ (hva.mpr (congrArg some he)))
            fun he => h₂ (hvb.mpr (congrArg some he))]
  refine ⟨_, swapPhysical_eq hl hoa hob, ?_, hpos, by simp [numPhysical]⟩
  intro v p
  show (relocated (relocated l.position a ob) b oa)[v]? = some p ↔
    ((l.occupant.set a ob).set b oa)[p]? = some (some v)
  rw [hpos, hocc, ← hl, List.getElem?_map, Option.map_eq_some_iff]
  constructor
  · intro ⟨q, hq, he⟩
    rw [hq, ← he, swapNames_swapNames]
  · intro h
    exact ⟨_, h, swapNames_swapNames a b p⟩

/-! ## Constructors -/

theorem getElem?_range_eq_some_iff {n i j : Nat} : (List.range n)[i]? = some j ↔ i < n ∧ i = j := by
  rw [List.getElem?_eq_some_iff]
  constructor
  · intro ⟨h, he⟩
    rw [List.getElem_range] at he
    exact ⟨by simpa using h, he⟩
  · intro ⟨h, he⟩
    exact ⟨by simpa using h, by rw [List.getElem_range, he]⟩

theorem trivial_matching (n : Nat) : (trivial n).Matching := by
  intro v p
  show (List.range n)[v]? = some p ↔ ((List.range n).map some)[p]? = some (some v)
  have hmap : ((List.range n).map some)[p]? = some (some v) ↔ (List.range n)[p]? = some v := by
    rw [List.getElem?_map]
    cases (List.range n)[p]? <;> simp
  rw [hmap, getElem?_range_eq_some_iff, getElem?_range_eq_some_iff]
  constructor
  · intro ⟨h, he⟩
    exact ⟨he ▸ h, he.symm⟩
  · intro ⟨h, he⟩
    exact ⟨he ▸ h, he.symm⟩

/-- Occupying a position fails only if there is no such position, or if it is occupied. -/
theorem occupy_ensures (occupant : List (Option VirtualQubit)) (v : VirtualQubit) (p : Qubit) :
    Ensures (occupy occupant v p)
      (fun occupant' => occupant[p]? = some none ∧ occupant' = occupant.set p (some v))
      (occupant.length ≤ p ∨ ∃ u, occupant[p]? = some (some u)) := by
  unfold occupy
  split
  next hnone => exact .inl (List.getElem?_eq_none_iff.mp hnone)
  next u hsome => exact .inr ⟨u, hsome⟩
  next hfree => exact ⟨hfree, rfl⟩

theorem occupy_eq_ok {occupant occupant' : List (Option VirtualQubit)} {v : VirtualQubit}
    {p : Qubit} (h : occupy occupant v p = .ok occupant') :
    occupant[p]? = some none ∧ occupant' = occupant.set p (some v) :=
  (occupy_ensures occupant v p).post_of_eq_ok h

/-- An occupied position keeps its qubit when another one is filled. -/
theorem occupied_set_iff {occupant : List (Option VirtualQubit)} {v w : VirtualQubit} {p q : Qubit}
    (hp : occupant[p]? = some none) : (occupant.set p (some v))[q]? = some (some w) ↔
      q = p ∧ w = v ∨ occupant[q]? = some (some w) := by
  by_cases hqp : q = p
  · subst hqp
    rw [List.getElem?_set_self (List.getElem?_eq_some_iff.mp hp).1, hp]
    simp [eq_comm]
  · rw [List.getElem?_set_ne (Ne.symm hqp)]
    simp [hqp]

theorem occupyAll_matching : ∀ (rest done : List Qubit) {occupant occupant' : List _},
    (∀ (v : VirtualQubit) (p : Qubit), done[v]? = some p ↔ occupant[p]? = some (some v)) →
    occupyAll occupant done.length rest = .ok occupant' →
    ∀ (v : VirtualQubit) (p : Qubit), (done ++ rest)[v]? = some p ↔ occupant'[p]? = some (some v)
  | [], done, occupant, occupant', hmatch, h => by
    obtain rfl : occupant = occupant' := Except.ok.inj h
    rwa [List.append_nil]
  | q :: rest, done, occupant, occupant', hmatch, h => by
    unfold occupyAll at h
    obtain ⟨occupant₁, hocc, hrest⟩ := bind_eq_ok_iff.mp h
    obtain ⟨hq, rfl⟩ := occupy_eq_ok hocc
    have hstep : ∀ (v : VirtualQubit) (p : Qubit), (done ++ [q])[v]? = some p ↔
        (occupant.set q (some done.length))[p]? = some (some v) := by
      intro v p
      rw [occupied_set_iff hq, ← hmatch, getElem?_concat_eq_some_iff]
    have hlen : (done ++ [q]).length = done.length + 1 := by simp
    rw [← hlen] at hrest
    rw [← List.singleton_append, ← List.append_assoc]
    exact occupyAll_matching rest (done ++ [q]) hstep hrest

theorem ofPositions_matching {position : List Qubit} {n : Nat} {l : Layout}
    (h : ofPositions position n = .ok l) : l.Matching := by
  obtain ⟨occupant, hocc, hl⟩ := bind_eq_ok_iff.mp h
  obtain rfl := Except.ok.inj hl
  refine occupyAll_matching position [] (fun v p => ?_) hocc
  simp [List.getElem?_replicate]

/-- The assignments made so far, in both directions. -/
structure Draft.Matching (keys : List VirtualQubit) (d : Draft) : Prop where
  matching : ∀ (v : VirtualQubit) (p : Qubit),
    d.position[v]? = some (some p) ↔ d.occupant[p]? = some (some v)
  mem_keys : ∀ (v : VirtualQubit) (p : Qubit), d.position[v]? = some (some p) → v ∈ keys

/-- An assignment fails only if one of its qubits is out of range, or if its position is occupied. -/
theorem Draft.assign_ensures (d : Draft) (e : VirtualQubit × Qubit) :
    Ensures (d.assign e)
      (fun d' => e.1 < d.position.length ∧ d.occupant[e.2]? = some none ∧
        d' = ⟨d.position.set e.1 (some e.2), d.occupant.set e.2 (some e.1)⟩)
      (d.position.length ≤ e.1 ∨ d.occupant.length ≤ e.2 ∨ ∃ u, d.occupant[e.2]? = some (some u)) := by
  unfold Draft.assign
  split
  next hle => exact .inl hle
  next hlt =>
    refine ((occupy_ensures d.occupant e.1 e.2).weaken .inr).bind fun occupant hoccupant => ?_
    exact ⟨Nat.lt_of_not_le hlt, hoccupant.1, by rw [hoccupant.2]⟩

/-- A qubit without a position gets one, and the others keep theirs. -/
theorem Draft.Matching.placed_set_iff {keys : List VirtualQubit} {d : Draft} (hd : d.Matching keys)
    {e : VirtualQubit × Qubit} (hkey : e.1 ∉ keys) (hlt : e.1 < d.position.length) (v : VirtualQubit)
    (p : Qubit) : (d.position.set e.1 (some e.2))[v]? = some (some p) ↔
      p = e.2 ∧ v = e.1 ∨ d.position[v]? = some (some p) := by
  by_cases hv : v = e.1
  · rw [hv, List.getElem?_set_self hlt]
    have hnone : d.position[e.1]? ≠ some (some p) := fun h => hkey (hd.mem_keys e.1 p h)
    simp [hnone, eq_comm]
  · rw [List.getElem?_set_ne (Ne.symm hv)]
    simp [hv]

theorem Draft.Matching.assign {keys : List VirtualQubit} {d d' : Draft} (hd : d.Matching keys)
    {e : VirtualQubit × Qubit} (hkey : e.1 ∉ keys) (h : d.assign e = .ok d') :
    d'.Matching (keys ++ [e.1]) := by
  obtain ⟨hlt, hfree, rfl⟩ := (Draft.assign_ensures d e).post_of_eq_ok h
  refine ⟨fun v p => ?_, fun v p hv => ?_⟩
  · rw [hd.placed_set_iff hkey hlt, occupied_set_iff hfree, hd.matching]
  · rcases (hd.placed_set_iff hkey hlt v p).mp hv with ⟨-, rfl⟩ | h
    · simp
    · exact List.mem_append_left _ (hd.mem_keys v p h)

/-- A draft is complete unless a virtual qubit has no position. -/
theorem Draft.complete_ensures : ∀ (v : VirtualQubit) (l : List (Option Qubit)),
    Ensures (Draft.complete v l) (fun positions => l = positions.map some) (∃ i : Nat, l[i]? = some none)
  | _, [] => rfl
  | _, none :: _ => ⟨0, rfl⟩
  | v, some p :: rest => by
    have hreason : (∃ i : Nat, rest[i]? = some none) → ∃ i : Nat, (some p :: rest)[i]? = some none :=
      fun ⟨i, hi⟩ => ⟨i + 1, hi⟩
    refine ((Draft.complete_ensures (v + 1) rest).weaken hreason).bind fun positions hpositions => ?_
    rw [hpositions]
    rfl

theorem Draft.complete_eq_ok {l : List (Option Qubit)} {v : VirtualQubit} {ps : List Qubit}
    (h : Draft.complete v l = .ok ps) : l = ps.map some :=
  (Draft.complete_ensures v l).post_of_eq_ok h

theorem ofAssignments_matching {assignments : List (VirtualQubit × Qubit)} {nv np : Nat}
    {l : Layout} (hkeys : (assignments.map (·.1)).Nodup)
    (h : ofAssignments assignments nv np = .ok l) : l.Matching := by
  obtain ⟨d, hd, h⟩ := bind_eq_ok_iff.mp h
  obtain ⟨ps, hps, hl⟩ := bind_eq_ok_iff.mp h
  obtain rfl := Except.ok.inj hl
  have hm : d.Matching (assignments.map (·.1)) := by
    refine foldlM_invariant hd (fun done d => d.Matching (done.map (·.1))) ⟨?_, ?_⟩ ?_
    · intro v p
      simp [List.getElem?_replicate]
    · intro v p hv
      simp [List.getElem?_replicate] at hv
    · intro done e rest d d' hl hd hassign
      rw [List.map_append]
      refine hd.assign (fun hmem => ?_) hassign
      rw [hl, List.map_append] at hkeys
      exact (List.nodup_append.mp hkeys).2.2 _ hmem _ List.mem_cons_self rfl
  intro v p
  rw [← hm.matching, Draft.complete_eq_ok hps, List.getElem?_map]
  cases ps[v]? <;> simp

/-- The layouts that the constructors build; an assignment names each virtual qubit at most once. -/
inductive Built : Layout → Prop where
  | trivial (n : Nat) : Built (Layout.trivial n)
  | ofPositions {position : List Qubit} {n : Nat} {l : Layout}
      (h : Layout.ofPositions position n = .ok l) : Built l
  | ofAssignments {assignments : List (VirtualQubit × Qubit)} {nv np : Nat} {l : Layout}
      (hkeys : (assignments.map (·.1)).Nodup)
      (h : Layout.ofAssignments assignments nv np = .ok l) : Built l

theorem Built.matching {l : Layout} (h : l.Built) : l.Matching := by
  cases h with
  | trivial n => exact trivial_matching n
  | ofPositions h => exact ofPositions_matching h
  | ofAssignments hkeys h => exact ofAssignments_matching hkeys h

end Layout

end QubitRouting
