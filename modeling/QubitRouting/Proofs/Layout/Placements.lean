import QubitRouting.Proofs.Layout.Swaps

/-!
# Which assignments are layouts

An assignment of positions to virtual qubits is a map. It is handed over as a walk through its entries, which
come in no particular order (`Lists`). A layout *realizes* a map if every virtual qubit sits where the map puts
it; there is at most one such layout (`Realizes.unique`).

A walk either leads to the layout that realizes the map, or the map is no placement (`ofAssignments_ensures`).
So what the constructor returns is told by the map alone (`ofAssignments_eq_ok_iff`), and the order of the walk
can only decide which error is reported. A list of positions is the walk from the first virtual qubit to the last
(`ofPositions_eq_ofAssignments`), so that nothing is left to prove about the other constructor.
-/

namespace QubitRouting

namespace Layout

/-- The list holds the entries of the map, each of them once. -/
structure Lists (m : VirtualQubit → Option Qubit) (walk : List (VirtualQubit × Qubit)) : Prop where
  nodup : (walk.map (·.1)).Nodup
  mem_iff : ∀ v p, (v, p) ∈ walk ↔ m v = some p

/-- The map puts the virtual qubits below `numVirtual`, and no others, on positions of their own below
`numPhysical`. -/
structure IsPlacement (m : VirtualQubit → Option Qubit) (numVirtual numPhysical : Nat) : Prop where
  mapped_iff : ∀ v, (∃ p, m v = some p) ↔ v < numVirtual
  lt : ∀ v p, m v = some p → p < numPhysical
  injective : ∀ u v p, m u = some p → m v = some p → u = v

/-- In this layout every virtual qubit sits where the map puts it. -/
structure Realizes (m : VirtualQubit → Option Qubit) (nv np : Nat) (l : Layout) : Prop where
  matching : l.Matching
  position_iff : ∀ v p, l.position[v]? = some p ↔ m v = some p
  numVirtual_eq : l.numVirtual = nv
  numPhysical_eq : l.numPhysical = np

variable {m : VirtualQubit → Option Qubit} {walk walk' : List (VirtualQubit × Qubit)} {nv np : Nat}
  {l l' : Layout}

theorem Lists.perm (h : Lists m walk) (hperm : walk'.Perm walk) : Lists m walk' where
  nodup := (hperm.map (·.1)).nodup_iff.mpr h.nodup
  mem_iff v p := hperm.mem_iff.trans (h.mem_iff v p)

namespace Realizes

theorem isPlacement (h : Realizes m nv np l) : IsPlacement m nv np where
  mapped_iff v := by
    rw [← h.numVirtual_eq]
    constructor
    · intro ⟨p, hp⟩
      exact (List.getElem?_eq_some_iff.mp ((h.position_iff v p).mpr hp)).1
    · intro hv
      obtain ⟨p, -, hp⟩ := toPhysical_total hv
      exact ⟨p, (h.position_iff v p).mp hp⟩
  lt v p hp := h.numPhysical_eq ▸ h.matching.lt_numPhysical ((h.position_iff v p).mpr hp)
  injective u v p hu hv := h.matching.injective ((h.position_iff u p).mpr hu) ((h.position_iff v p).mpr hv)

theorem unique (h : Realizes m nv np l) (h' : Realizes m nv np l') : l = l' := by
  refine h.matching.ext h'.matching (List.ext_getElem? fun v => Option.ext fun p => ?_)
    (h.numPhysical_eq.trans h'.numPhysical_eq.symm)
  rw [h.position_iff, h'.position_iff]

/-- The positions are the values of the map, in the order of the virtual qubits. -/
theorem map_some_position (h : Realizes m nv np l) : l.position.map some = (List.range nv).map m := by
  have hlen : (l.position.map some).length = ((List.range nv).map m).length := by
    rw [List.length_map, List.length_map, List.length_range]
    exact h.numVirtual_eq
  refine List.ext_getElem hlen fun v hv hv' => ?_
  rw [List.getElem_map, List.getElem_map, List.getElem_range]
  exact ((h.position_iff v _).mp (List.getElem?_eq_getElem _)).symm

end Realizes

/-! ## One entry after the other -/

/-- The draft holds the entries that were handled, and nothing else. -/
structure Draft.Records (done : List (VirtualQubit × Qubit)) (nv np : Nat) (d : Draft) : Prop where
  matching : d.Matching (done.map (·.1))
  placed_iff : ∀ v p, d.position[v]? = some (some p) ↔ (v, p) ∈ done
  length_position : d.position.length = nv
  length_occupant : d.occupant.length = np

namespace Draft

theorem records_start (nv np : Nat) :
    Records [] nv np ⟨List.replicate nv none, List.replicate np none⟩ where
  matching := ⟨fun v p => by simp [List.getElem?_replicate], fun v p hv => by
    simp [List.getElem?_replicate] at hv⟩
  placed_iff v p := by simp [List.getElem?_replicate]
  length_position := List.length_replicate
  length_occupant := List.length_replicate

/-- An entry with a new key is recorded, unless one of its qubits is out of range or the position is taken. -/
theorem Records.assign {done : List (VirtualQubit × Qubit)} {d : Draft} (hd : d.Records done nv np)
    {e : VirtualQubit × Qubit} (hkey : e.1 ∉ done.map (·.1)) :
    Ensures (d.assign e) (Records (done ++ [e]) nv np)
      (nv ≤ e.1 ∨ np ≤ e.2 ∨ ∃ u, (u, e.2) ∈ done) := by
  have hstep := (assign_ensures d e).and_eq
  rw [hd.length_position, hd.length_occupant] at hstep
  refine (hstep.mono ?_).weaken (.imp_right (.imp_right ?_))
  · rintro d' ⟨hassign, hlt, -, rfl⟩
    refine ⟨?_, fun v p => ?_, List.length_set.trans hd.length_position,
      List.length_set.trans hd.length_occupant⟩
    · rw [List.map_append]
      exact hd.matching.assign hkey hassign
    · rw [hd.matching.placed_set_iff hkey (hd.length_position ▸ hlt), hd.placed_iff, List.mem_append,
        List.mem_singleton, Prod.ext_iff, and_comm, or_comm]
  · intro ⟨u, hu⟩
    exact ⟨u, (hd.placed_iff u e.2).mp ((hd.matching.matching u e.2).mpr hu)⟩

end Draft

/-- A walk is recorded to its end, unless the map is no placement. -/
theorem foldlM_assign_ensures (h : Lists m walk) (nv np : Nat) :
    Ensures (walk.foldlM Draft.assign ⟨List.replicate nv none, List.replicate np none⟩)
      (Draft.Records walk nv np) (¬ IsPlacement m nv np) := by
  refine Ensures.foldlM (fun done d => Draft.Records done nv np d) (Draft.records_start nv np) ?_
  intro done e rest d hwalk hd
  have hkeys := h.nodup
  rw [hwalk, List.map_append, List.map_cons, List.nodup_append] at hkeys
  have hkey : e.1 ∉ done.map (·.1) := fun hmem => hkeys.2.2 _ hmem _ List.mem_cons_self rfl
  have he : m e.1 = some e.2 := (h.mem_iff e.1 e.2).mp (hwalk ▸ by simp)
  refine (hd.assign hkey).weaken fun hreason hplacement => ?_
  rcases hreason with hvirtual | hphysical | ⟨u, hu⟩
  · exact Nat.not_lt.mpr hvirtual ((hplacement.mapped_iff e.1).mp ⟨e.2, he⟩)
  · exact Nat.not_lt.mpr hphysical (hplacement.lt e.1 e.2 he)
  · -- another key with the same value would be the same key
    have humap : m u = some e.2 := (h.mem_iff u e.2).mp (hwalk ▸ List.mem_append_left _ hu)
    obtain rfl := hplacement.injective u e.1 e.2 humap he
    exact hkey (List.mem_map.mpr ⟨_, hu, rfl⟩)

/-- The record of a whole walk, once it is complete, is the layout that realizes the map. -/
theorem Draft.Records.realizes {d : Draft} (hd : d.Records walk nv np) (h : Lists m walk)
    {positions : List Qubit} (hpositions : d.position = positions.map some) :
    Realizes m nv np ⟨positions, d.occupant⟩ := by
  have hposition : ∀ (v : VirtualQubit) (p : Qubit),
      positions[v]? = some p ↔ d.position[v]? = some (some p) := by
    intro v p
    rw [hpositions, List.getElem?_map]
    cases positions[v]? <;> simp
  refine ⟨fun v p => ?_, fun v p => ?_, ?_, hd.length_occupant⟩
  · rw [← hd.matching.matching]
    exact hposition v p
  · rw [← h.mem_iff, ← hd.placed_iff]
    exact hposition v p
  · rw [← hd.length_position, hpositions, List.length_map]
    rfl

/-- A walk leads to the layout that realizes the map, or the map is no placement. -/
theorem ofAssignments_ensures (h : Lists m walk) (nv np : Nat) :
    Ensures (ofAssignments walk nv np) (Realizes m nv np) (¬ IsPlacement m nv np) := by
  refine (foldlM_assign_ensures h nv np).bind fun d hd => ?_
  refine ((Draft.complete_ensures 0 d.position).weaken ?_).bind fun positions hpositions =>
    hd.realizes h hpositions
  -- a qubit without a position would be missing in the walk, and so in the map
  intro ⟨v, hv⟩ hplacement
  have hlt : v < nv := hd.length_position ▸ (List.getElem?_eq_some_iff.mp hv).1
  obtain ⟨p, hp⟩ := (hplacement.mapped_iff v).mpr hlt
  have hplaced := (hd.placed_iff v p).mpr ((h.mem_iff v p).mpr hp)
  rw [hv] at hplaced
  simp at hplaced

/-- What the constructor returns is told by the map alone. -/
theorem ofAssignments_eq_ok_iff (h : Lists m walk) :
    ofAssignments walk nv np = .ok l ↔ Realizes m nv np l := by
  have hensures := ofAssignments_ensures h nv np
  refine ⟨hensures.post_of_eq_ok, fun hl => ?_⟩
  obtain ⟨l', hok, hl'⟩ := hensures.total (not_not.mpr hl.isPlacement)
  rw [hok, hl.unique hl']

theorem exists_ofAssignments_iff (h : Lists m walk) :
    (∃ l, ofAssignments walk nv np = .ok l) ↔ IsPlacement m nv np := by
  constructor
  · intro ⟨l, hl⟩
    exact ((ofAssignments_eq_ok_iff h).mp hl).isPlacement
  · intro hplacement
    obtain ⟨l, hl, -⟩ := (ofAssignments_ensures h nv np).total (not_not.mpr hplacement)
    exact ⟨l, hl⟩

/-! ## Lists of positions -/

/-- The entries of a list of positions, from virtual qubit `v` on. -/
def entriesFrom (v : VirtualQubit) (positions : List Qubit) : List (VirtualQubit × Qubit) :=
  (positions.zipIdx v).map fun e => (e.2, e.1)

theorem lists_entriesFrom (positions : List Qubit) :
    Lists (fun v => positions[v]?) (entriesFrom 0 positions) where
  nodup := by
    have hkeys : (entriesFrom 0 positions).map (·.1) = List.range' 0 positions.length := by
      rw [entriesFrom, List.map_map]
      exact List.zipIdx_map_snd 0 positions
    rw [hkeys]
    exact List.nodup_range'
  mem_iff v p := by
    rw [entriesFrom, List.mem_map]
    constructor
    · rintro ⟨e, he, heq⟩
      obtain ⟨rfl, rfl⟩ := Prod.mk.inj heq
      exact List.mem_zipIdx_iff_getElem?.mp he
    · intro h
      exact ⟨(p, v), List.mem_zipIdx_iff_getElem?.mpr h, rfl⟩

/-- The walk in the order of the virtual qubits fills a draft from the front. -/
theorem foldlM_assign_entriesFrom : ∀ (rest done : List Qubit) (occupant : List (Option VirtualQubit)),
    (entriesFrom done.length rest).foldlM Draft.assign
        ⟨done.map some ++ List.replicate rest.length none, occupant⟩ =
      (do let occupant' ← occupyAll occupant done.length rest
          return ⟨(done ++ rest).map some, occupant'⟩ : Except LayoutError Draft)
  | [], done, occupant => by
    simp [entriesFrom, occupyAll]
  | p :: rest, done, occupant => by
    have hlt : ¬ (done.map some ++ List.replicate (p :: rest).length none).length ≤ done.length := by
      rw [List.length_append, List.length_map, List.length_replicate, List.length_cons]
      omega
    have hset : (done.map some ++ List.replicate (p :: rest).length none).set done.length (some p) =
        (done ++ [p]).map some ++ List.replicate rest.length none := by
      simp [List.set_append_right, List.replicate_succ]
    have hlen : done.length + 1 = (done ++ [p]).length := by simp
    rw [entriesFrom, List.zipIdx_cons, List.map_cons, List.foldlM_cons, Draft.assign, if_neg hlt, hset,
      occupyAll]
    cases occupy occupant done.length p with
    | error e => rfl
    | ok occupant' =>
      simp only [ok_bind, pure_eq_ok]
      rw [hlen]
      exact (foldlM_assign_entriesFrom rest (done ++ [p]) occupant').trans (by simp)

theorem complete_map_some (v : VirtualQubit) (positions : List Qubit) :
    Draft.complete v (positions.map some) = .ok positions := by
  induction positions generalizing v with
  | nil => rfl
  | cons p rest ih =>
    rw [List.map_cons, Draft.complete, ih]
    rfl

/-- A list of positions is an assignment that is walked in the order of the virtual qubits. -/
theorem ofPositions_eq_ofAssignments (positions : List Qubit) (n : Nat) :
    ofPositions positions n = ofAssignments (entriesFrom 0 positions) positions.length n := by
  have hloop := foldlM_assign_entriesFrom positions [] (List.replicate n none)
  rw [List.map_nil, List.nil_append, List.nil_append, List.length_nil] at hloop
  rw [ofPositions, ofAssignments, hloop]
  cases occupyAll (List.replicate n none) 0 positions with
  | error e => rfl
  | ok occupant =>
    simp only [ok_bind, pure_eq_ok, complete_map_some]

theorem ofPositions_eq_ok_iff {positions : List Qubit} {n : Nat} :
    ofPositions positions n = .ok l ↔ Realizes (fun v => positions[v]?) positions.length n l := by
  rw [ofPositions_eq_ofAssignments, ofAssignments_eq_ok_iff (lists_entriesFrom positions)]

/-- A list is a placement of its own indices if and only if its entries are different and in range. -/
theorem isPlacement_getElem?_iff {positions : List Qubit} {n : Nat} :
    IsPlacement (fun v => positions[v]?) positions.length n ↔
      positions.Nodup ∧ ∀ p ∈ positions, p < n := by
  constructor
  · intro h
    refine ⟨List.nodup_iff_getElem?_ne_getElem?.mpr fun i j hij hj heq => ?_, fun p hp => ?_⟩
    · have hpj := List.getElem?_eq_getElem hj
      exact Nat.ne_of_lt hij (h.injective i j _ (heq.trans hpj) hpj)
    · obtain ⟨v, hv⟩ := List.mem_iff_getElem?.mp hp
      exact h.lt v p hv
  · intro ⟨hnodup, hlt⟩
    refine ⟨fun v => ?_, fun v p hp => hlt p (List.mem_of_getElem? hp), fun u v p hu hv => ?_⟩
    · rw [← Option.isSome_iff_exists, isSome_getElem?]
    · exact (List.getElem?_inj (List.getElem?_eq_some_iff.mp hu).1 hnodup).mp (hu.trans hv.symm)

/-! ## What it comes to -/

/-- Take any map and any walk through it. The walk leads to a layout if and only if the map is a placement, and
any other walk through the map leads to the same layout. It is also the layout that the list of the values of the
map gives. A list of positions gives a layout if and only if its entries are different and in range. -/
theorem accepts_exactly_placements (h : Lists m walk) (nv np : Nat) :
    ((∃ l, ofAssignments walk nv np = .ok l) ↔ IsPlacement m nv np) ∧
    (∀ walk', Lists m walk' → ∀ l,
      ofAssignments walk' nv np = .ok l ↔ ofAssignments walk nv np = .ok l) ∧
    (∀ l, ofAssignments walk nv np = .ok l →
      l.position.map some = (List.range nv).map m ∧ ofPositions l.position np = .ok l) ∧
    ∀ (positions : List Qubit) (n : Nat),
      (∃ l, ofPositions positions n = .ok l) ↔ positions.Nodup ∧ ∀ p ∈ positions, p < n := by
  refine ⟨exists_ofAssignments_iff h, fun walk' h' l => ?_, fun l hl => ?_, fun positions n => ?_⟩
  · rw [ofAssignments_eq_ok_iff h', ofAssignments_eq_ok_iff h]
  · have hrealizes := (ofAssignments_eq_ok_iff h).mp hl
    refine ⟨hrealizes.map_some_position, ofPositions_eq_ok_iff.mpr ?_⟩
    exact ⟨hrealizes.matching, fun v p => Iff.rfl, rfl, hrealizes.numPhysical_eq⟩
  · rw [← isPlacement_getElem?_iff, ← exists_ofAssignments_iff (lists_entriesFrom positions),
      ← ofPositions_eq_ofAssignments]

/-- Three qubits on five positions: two walks through the same map, and the list of its values. -/
theorem scattered_accepted : Lists (fun v => [4, 0, 2][v]?) [(2, 2), (0, 4), (1, 0)] ∧
    IsPlacement (fun v => [4, 0, 2][v]?) 3 5 ∧
    ∃ l, ofAssignments [(2, 2), (0, 4), (1, 0)] 3 5 = .ok l ∧
      ofAssignments [(1, 0), (2, 2), (0, 4)] 3 5 = .ok l ∧ ofPositions [4, 0, 2] 5 = .ok l := by
  have hwalk : Lists (fun v => [4, 0, 2][v]?) [(2, 2), (0, 4), (1, 0)] :=
    (lists_entriesFrom [4, 0, 2]).perm (by decide)
  have hwalk' : Lists (fun v => [4, 0, 2][v]?) [(1, 0), (2, 2), (0, 4)] :=
    (lists_entriesFrom [4, 0, 2]).perm (by decide)
  have hl : ofAssignments [(2, 2), (0, 4), (1, 0)] 3 5 =
      .ok ⟨[4, 0, 2], [some 1, none, some 2, none, some 0]⟩ := by decide
  obtain ⟨haccepts, hwalks, hpositions, -⟩ := accepts_exactly_placements hwalk 3 5
  exact ⟨hwalk, haccepts.mp ⟨_, hl⟩, _, hl, (hwalks _ hwalk' _).mpr hl, (hpositions _ hl).2⟩

end Layout

end QubitRouting
