import QubitRouting.Proofs.Layout.Matching

/-!
# Any run of swaps keeps a layout a two-way matching

A matching layout is determined by the positions of its qubits and the size of the device
(`Matching.ext`). So two ways of changing a layout agree as soon as they agree on positions, and what
one swap does to the positions is known: it renames them. That a swap of positions undoes itself
(`swapPhysical_swapPhysical`) is read off this. A swap of two virtual qubits is the swap of the
positions they sit on (`swapVirtual_eq_swapPhysical`), so there is one step to follow along a run
(`serve_total`).
-/

namespace QubitRouting

namespace Layout

/-! ## One swap -/

/-- The positions determine who sits where. -/
theorem Matching.ext {l l' : Layout} (hl : l.Matching) (hl' : l'.Matching)
    (hposition : l.position = l'.position) (hphysical : l.numPhysical = l'.numPhysical) : l = l' := by
  have hoccupied : ∀ (p : Qubit) (v : VirtualQubit),
      l.occupant[p]? = some (some v) ↔ l'.occupant[p]? = some (some v) := by
    intro p v
    rw [← hl, ← hl', hposition]
  have hoccupant : l.occupant = l'.occupant := by
    refine List.ext_getElem hphysical fun p hp hp' => Option.ext fun v => ?_
    have h := hoccupied p v
    rw [List.getElem?_eq_getElem hp, List.getElem?_eq_getElem hp'] at h
    simpa using h
  cases l
  cases l'
  rw [mk.injEq]
  exact ⟨hposition, hoccupant⟩

/-- After a swap of two positions, each of the two holds what the other one did, occupied or not. -/
theorem toVirtual_swapPhysical {l l' : Layout} (hl : l.Matching) {a b : Qubit}
    (ha : a < l.numPhysical) (hb : b < l.numPhysical) (h : l.swapPhysical a b = .ok l') (p : Qubit) :
    l'.toVirtual p = l.toVirtual (swapNames a b p) := by
  have hoa : l.occupant[a]? = some l.occupant[a] := List.getElem?_eq_getElem ha
  have hob : l.occupant[b]? = some l.occupant[b] := List.getElem?_eq_getElem hb
  obtain rfl := Except.ok.inj (h.symm.trans (swapPhysical_eq hl hoa hob))
  unfold toVirtual fetch
  rw [getElem?_transposed hoa hob]

/-- A swap of two positions is its own inverse. -/
theorem swapPhysical_swapPhysical {l l' : Layout} (hl : l.Matching) {a b : Qubit}
    (ha : a < l.numPhysical) (hb : b < l.numPhysical) (h : l.swapPhysical a b = .ok l') :
    l'.swapPhysical a b = .ok l := by
  obtain ⟨l₁, h₁, hl₁, hposition₁, hphysical₁⟩ := swapPhysical_total hl ha hb
  obtain rfl := Except.ok.inj (h.symm.trans h₁)
  rw [← hphysical₁] at ha hb
  obtain ⟨l₂, h₂, hl₂, hposition₂, hphysical₂⟩ := swapPhysical_total hl₁ ha hb
  have hback : l₂.position = l.position := by
    rw [hposition₂, hposition₁, List.map_map]
    exact (List.map_congr_left fun p _ => swapNames_swapNames a b p).trans (List.map_id _)
  rw [h₂, hl₂.ext hl hback (hphysical₂.trans hphysical₁)]

/-- Two virtual qubits change places by a swap of the positions they sit on. -/
theorem swapVirtual_eq_swapPhysical {l : Layout} (hl : l.Matching) {u v : VirtualQubit} {p q : Qubit}
    (hu : l.position[u]? = some p) (hv : l.position[v]? = some q) :
    l.swapVirtual u v = l.swapPhysical p q := by
  have hpu : l.occupant[p]? = some (some u) := (hl u p).mp hu
  have hqv : l.occupant[q]? = some (some v) := (hl v q).mp hv
  have hp : p < l.occupant.length := (List.getElem?_eq_some_iff.mp hpu).1
  have hq : q < l.occupant.length := (List.getElem?_eq_some_iff.mp hqv).1
  have hu' : ((l.position.set u q).set v p)[u]? = some q := by
    rw [getElem?_transposed hu hv, swapNames_left, hv]
  have hv' : ((l.position.set u q).set v p)[v]? = some p := by
    rw [getElem?_transposed hu hv, swapNames_right, hu]
  rw [swapPhysical_eq hl hpu hqv]
  unfold swapVirtual
  rw [transpose_eq_ok hu hv, ok_bind, fetch_eq_ok hu', ok_bind, store_eq_ok _ hq, ok_bind,
    fetch_eq_ok hv', ok_bind, store_eq_ok _ (by rwa [List.length_set]), ok_bind, pure_eq_ok]
  unfold relocated
  -- both ways write the same two entries, in opposite order
  by_cases huv : u = v
  · subst huv
    obtain rfl : p = q := Option.some.inj (hu.symm.trans hv)
    rfl
  · have hpq : p ≠ q := fun he => huv (hl.injective hu (he ▸ hv))
    rw [List.set_comm _ _ huv, List.set_comm _ _ hpq]

/-! ## Runs of swaps -/

/-- What can be asked of a layout. -/
inductive Request where
  | swapVirtual (a b : VirtualQubit)
  | swapPhysical (a b : Qubit)
deriving DecidableEq, Repr

/-- The request names qubits, or positions, that the layout has. -/
def Request.InRange (l : Layout) : Request → Prop
  | .swapVirtual a b => a < l.numVirtual ∧ b < l.numVirtual
  | .swapPhysical a b => a < l.numPhysical ∧ b < l.numPhysical

/-- Carry out one request. -/
def serve (l : Layout) : Request → Except Fault Layout
  | .swapVirtual a b => l.swapVirtual a b
  | .swapPhysical a b => l.swapPhysical a b

/-- Carry out requests one after the other. -/
def run (l : Layout) (requests : List Request) : Except Fault Layout :=
  requests.foldlM serve l

/-- A request in range has a result: a matching layout of the same qubits on the same positions. -/
theorem serve_total {l : Layout} (hl : l.Matching) {request : Request} (hin : request.InRange l) :
    ∃ l', l.serve request = .ok l' ∧ l'.Matching ∧ l'.numVirtual = l.numVirtual ∧
      l'.numPhysical = l.numPhysical := by
  -- either way it is a swap of two positions
  obtain ⟨a, b, ha, hb, hserve⟩ : ∃ a b, a < l.numPhysical ∧ b < l.numPhysical ∧
      l.serve request = l.swapPhysical a b := by
    cases request with
    | swapVirtual u v =>
      obtain ⟨p, -, hp⟩ := toPhysical_total hin.1
      obtain ⟨q, -, hq⟩ := toPhysical_total hin.2
      exact ⟨p, q, hl.lt_numPhysical hp, hl.lt_numPhysical hq, swapVirtual_eq_swapPhysical hl hp hq⟩
    | swapPhysical a b => exact ⟨a, b, hin.1, hin.2, rfl⟩
  obtain ⟨l', hswap, hl', hposition, hphysical⟩ := swapPhysical_total hl ha hb
  refine ⟨l', hserve.trans hswap, hl', ?_, hphysical⟩
  show l'.position.length = l.position.length
  rw [hposition, List.length_map]

theorem run_total {l : Layout} (hl : l.Matching) {requests : List Request}
    (hin : ∀ request ∈ requests, request.InRange l) :
    ∃ l', l.run requests = .ok l' ∧ l'.Matching ∧ l'.numVirtual = l.numVirtual ∧
      l'.numPhysical = l.numPhysical := by
  refine foldlM_total (fun _ (l' : Layout) => l'.Matching ∧ l'.numVirtual = l.numVirtual ∧
    l'.numPhysical = l.numPhysical) ⟨hl, rfl, rfl⟩ fun done request rest l₁ hl₁ h => ?_
  obtain ⟨hmatching, hvirtual, hphysical⟩ := h
  have hrequest : request.InRange l₁ := by
    have h := hin request (by rw [hl₁]; exact List.mem_append_right _ List.mem_cons_self)
    unfold Request.InRange at h ⊢
    rwa [hvirtual, hphysical]
  obtain ⟨l₂, hserve, hmatching₂, hvirtual₂, hphysical₂⟩ := serve_total hmatching hrequest
  exact ⟨l₂, hserve, hmatching₂, hvirtual₂.trans hvirtual, hphysical₂.trans hphysical⟩

/-! ## What it comes to -/

/-- The two directions of a layout agree, and its swaps do what their names say. -/
structure TwoWay (l : Layout) : Prop where
  toVirtual_toPhysical : ∀ v < l.numVirtual, ∃ p, l.toPhysical v = .ok p ∧ l.toVirtual p = .ok (some v)
  toPhysical_toVirtual : ∀ p v, l.toVirtual p = .ok (some v) → v < l.numVirtual ∧ l.toPhysical v = .ok p
  /-- A swap of two positions, which may be the same or unoccupied, renames the position of every virtual
  qubit, and the same swap again undoes it. -/
  swapPhysical : ∀ a < l.numPhysical, ∀ b < l.numPhysical, ∃ l', l.swapPhysical a b = .ok l' ∧
    l'.swapPhysical a b = .ok l ∧
    (∀ v p, l.toPhysical v = .ok p → l'.toPhysical v = .ok (swapNames a b p)) ∧
    ∀ p, l'.toVirtual p = l.toVirtual (swapNames a b p)
  /-- A swap of two virtual qubits is the swap of their positions. -/
  swapVirtual : ∀ u < l.numVirtual, ∀ v < l.numVirtual, ∃ p q, l.toPhysical u = .ok p ∧
    l.toPhysical v = .ok q ∧ l.swapVirtual u v = l.swapPhysical p q

theorem Matching.twoWay {l : Layout} (hl : l.Matching) : l.TwoWay where
  toVirtual_toPhysical := by
    intro v hv
    obtain ⟨p, hp, hposition⟩ := toPhysical_total hv
    exact ⟨p, hp, fetch_eq_ok ((hl v p).mp hposition)⟩
  toPhysical_toVirtual := by
    intro p v hv
    have hposition := (hl v p).mpr (fetch_eq_ok_iff.mp hv)
    exact ⟨(List.getElem?_eq_some_iff.mp hposition).1, toPhysical_eq_ok_iff.mpr hposition⟩
  swapPhysical := by
    intro a ha b hb
    obtain ⟨l', h, -, hposition, -⟩ := swapPhysical_total hl ha hb
    refine ⟨l', h, swapPhysical_swapPhysical hl ha hb h, fun v p hp => ?_,
      toVirtual_swapPhysical hl ha hb h⟩
    rw [toPhysical_eq_ok_iff] at hp ⊢
    rw [hposition, List.getElem?_map, hp]
    rfl
  swapVirtual := by
    intro u hu v hv
    obtain ⟨p, hp, hup⟩ := toPhysical_total hu
    obtain ⟨q, hq, hvq⟩ := toPhysical_total hv
    exact ⟨p, q, hp, hq, swapVirtual_eq_swapPhysical hl hup hvq⟩

/-- From any layout that the constructors build, any swaps in range lead to a layout of the same qubits on
the same positions whose two directions agree. -/
theorem run_twoWay {l : Layout} (hl : l.Built) {requests : List Request}
    (hin : ∀ request ∈ requests, request.InRange l) :
    ∃ l', l.run requests = .ok l' ∧ l'.numVirtual = l.numVirtual ∧ l'.numPhysical = l.numPhysical ∧
      l'.TwoWay := by
  obtain ⟨l', hrun, hmatching, hvirtual, hphysical⟩ := run_total hl.matching hin
  exact ⟨l', hrun, hvirtual, hphysical, hmatching.twoWay⟩

/-- Two qubits on four positions: a swap into an empty position, one of the two qubits, one of two empty
positions, and one of a position with itself. -/
theorem sparse_twoWay : ∃ l l', ofPositions [0, 2] 4 = .ok l ∧
    l.run [.swapPhysical 0 3, .swapVirtual 0 1, .swapPhysical 0 1, .swapPhysical 2 2] = .ok l' ∧
    l'.numVirtual = 2 ∧ l'.numPhysical = 4 ∧ l'.TwoWay := by
  have hl : ofPositions [0, 2] 4 = .ok ⟨[0, 2], [some 0, none, some 1, none]⟩ := by decide
  have hin : ∀ request ∈ [Request.swapPhysical 0 3, .swapVirtual 0 1, .swapPhysical 0 1, .swapPhysical 2 2],
      request.InRange ⟨[0, 2], [some 0, none, some 1, none]⟩ := by
    simp [Request.InRange, numVirtual, numPhysical]
  obtain ⟨l', hrun, hvirtual, hphysical, htwoWay⟩ := run_twoWay (.ofPositions hl) hin
  exact ⟨_, l', hl, hrun, hvirtual, hphysical, htwoWay⟩

end Layout

end QubitRouting
