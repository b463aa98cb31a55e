import QubitRouting.Proofs.Router.Rounds

/-!
# Routing always succeeds

`runWithin_ensures` follows the rounds of a run to its end. Every round lowers the number of two-qubit
operations that are not executed yet, so there are turns enough and no route is ever forced.

`Router.Used` collects the routers that any history of routing on a device can produce. For all of them
`route_ensures` says what a routed circuit is like, and `route_succeeds` that a circuit is routed
whenever the layout is large enough, with at most one round for each two-qubit operation. What a routed
circuit emits is the whole input, once each and in an order that its qubits allow
(`route_emits_in_order`). Nothing here looks at the decay weights: the search finds a route whatever
they are.
-/

namespace QubitRouting

namespace Router

open Progress (Sound Settled Executable gateAt executable_of_singles)

variable {c : Coupling} {config : Config} {circuit : Circuit} {start : Layout} {r : Router}
  {p : Progress}

/-! ## The rounds of a run -/

/-- The states at which the turns of a run start a round. -/
def callsWithin : Nat → Router → Progress → List (Router × Progress)
  | 0, _, _ => []
  | turns + 1, r, p =>
    if p.frontier.isDone then []
    else (r, p) :: match r.turn p with
      | .ok (p', r') => callsWithin turns r' p'
      | .error _ => []

/-- The states at which routing a circuit starts a round. -/
def roundCalls (r : Router) (circuit : Circuit) (layout : Layout) : List (Router × Progress) :=
  match r.begin circuit layout with
  | .ok p => callsWithin (circuit.size + 1) r p
  | .error _ => []

/-- A round at `p` has a result. It registers some paths, of which sequencing keeps at least one; it
emits at least one swap, and then executes every ready interaction whose path was kept. -/
def Advances (r : Router) (p : Progress) : Prop :=
  ∃ p₁ r₁ swaps kept p' count r' gates, r.gather p = .ok (p₁, r₁) ∧
    r₁.paths.generateSwaps = .ok (swaps, kept) ∧ r.round p = .ok (p', count, r') ∧
    kept.paths ≠ [] ∧ swaps ≠ [] ∧
    p'.ops = p.ops ++ (swaps.map fun s => .swap s.1 s.2) ++ gates ∧
    ∀ i ∈ p.frontier.ready, ∀ a b, p.layout.toPhysical i.left = .ok a →
      p.layout.toPhysical i.right = .ok b → (kept.find? a b).isSome = true → i.op ∈ emitted gates

/-- A round that carries out a path advances. -/
theorem advances_of_rounded {answer : Progress × Nat × Router} (hround : r.round p = .ok answer)
    (h : Rounded c config circuit start r p answer) : Advances r p := by
  obtain ⟨-, p₁, r₁, swaps, kept, hgather, hgen, hout⟩ := h
  obtain ⟨gates, hops, hgates⟩ := hout.ops_eq
  refine ⟨p₁, r₁, swaps, kept, _, _, _, gates, hgather, hgen, hround, hout.kept_ne_nil,
    hout.swaps_ne_nil, hops, fun i hi a b ha hb hfind => hgates i hi ?_⟩
  rwa [Layout.site_eq ha, Layout.site_eq hb]

/-- What is known of the answer of a run from `r` and `p`. -/
structure Finished (c : Coupling) (config : Config) (circuit : Circuit) (start : Layout)
    (calls : List (Router × Progress)) (p : Progress) (answer : Progress × Router) : Prop where
  fits : Fits c config answer.2
  sound : Sound c circuit start answer.1
  drained : answer.1.frontier.completed = []
  done : answer.1.frontier.ready = []
  forcedRoutes_eq : answer.1.stats.forcedRoutes = p.stats.forcedRoutes
  rounds_eq : answer.1.stats.rounds = p.stats.rounds + calls.length
  length_le : calls.length ≤ circuit.outstanding (emitted p.ops)
  advances : ∀ call ∈ calls, Advances call.1 call.2

/-- With more turns than two-qubit operations are outstanding, everything is executed. -/
theorem runWithin_ensures : ∀ (turns : Nat) {r : Router} {p : Progress}, Fits c config r →
    Sound c circuit start p → Settled c p → circuit.outstanding (emitted p.ops) < turns →
    Ensures (runWithin turns r p) (Finished c config circuit start (callsWithin turns r p) p)
      (Overflows c config)
  | 0, _, _, _, _, _, hturns => absurd hturns (Nat.not_lt_zero _)
  | turns + 1, r, p, hr, hp, hsettled, hturns => by
    unfold runWithin callsWithin
    by_cases hdone : p.frontier.isDone = true
    · rw [if_pos hdone, if_pos hdone]
      exact ⟨hr, hp, hsettled.drained, List.isEmpty_iff.mp hdone, rfl, rfl, Nat.zero_le _,
        fun _ h => absurd h List.not_mem_nil⟩
    · rw [if_neg hdone, if_neg hdone]
      have hne : p.frontier.ready ≠ [] := fun h => hdone (List.isEmpty_iff.mpr h)
      refine (turn_ensures hr hp hsettled hne).and_eq.bind fun answer h => ?_
      obtain ⟨p₁, r₁⟩ := answer
      obtain ⟨hturn, count, hround, hrounded⟩ := h
      have hadvances := advances_of_rounded hround hrounded
      obtain ⟨hr₁, p₀, r₀, swaps, kept, -, -, hout⟩ := hrounded
      dsimp only at hr₁ hout hturn ⊢
      -- the round has executed an operation on two qubits, so a turn fewer is enough
      have hlt := hout.outstanding_lt
      rw [hturn]
      dsimp only
      refine (runWithin_ensures turns hr₁ hout.sound hout.settled (by omega)).mono
        fun answer hfin => ?_
      refine ⟨hfin.fits, hfin.sound, hfin.drained, hfin.done,
        hfin.forcedRoutes_eq.trans hout.forcedRoutes_eq, ?_, ?_, ?_⟩
      · rw [hfin.rounds_eq, hout.rounds_eq, List.length_cons]
        omega
      · have hle := hfin.length_le
        rw [List.length_cons]
        omega
      · intro call hcall
        rcases List.mem_cons.mp hcall with rfl | hcall
        · exact hadvances
        · exact hfin.advances call hcall

/-! ## A whole routing -/

/-- The layout covers the device and places every qubit of the circuit. -/
def LayoutFits (c : Coupling) (circuit : Circuit) (layout : Layout) : Prop :=
  layout.numPhysical = c.numQubits ∧ circuit.numQubits ≤ layout.numVirtual

/-- A run begins with what needs no swap, and nothing adjacent is left when the first round starts. -/
theorem begin_total (hr : Fits c config r) (hcircuit : circuit.Linked) {layout : Layout}
    (hmatching : layout.Matching) (hfits : LayoutFits c circuit layout) :
    ∃ p, r.begin circuit layout = .ok p ∧ Sound c circuit layout p ∧ Settled c p ∧
      p.stats = RoutingStats.empty := by
  obtain ⟨f, hstart, hf, hsingles⟩ := Frontier.start_total hcircuit
  let decay := r.config.decay.map (Decay.start r.coupling.numQubits)
  have hdecay : DecayFits c decay := by
    intro d hd
    obtain ⟨policy, hpolicy, rfl⟩ := Option.map_eq_some_iff.mp hd
    rw [hr.config_eq] at hpolicy
    refine ⟨?_, (validate_eq_ok hr.validated).2.2 policy hpolicy⟩
    rw [hr.coupling_eq]
    exact List.length_replicate
  have hp : Sound c circuit layout ⟨f, layout, decay, [], RoutingStats.empty⟩ :=
    ⟨hcircuit, hf, .done layout, hmatching, hfits.1, hfits.2, hdecay⟩
  -- before any swap only operations on one qubit are complete
  have hdone : ∀ k ∈ f.completed, Executable c circuit layout k := executable_of_singles hsingles
  obtain ⟨p, count, hexec, hex⟩ :=
    Progress.executeAdjacent_total (Progress.sound_emitCompleted hp hdone) rfl
  refine ⟨p, ?_, hex.sound, hex.settled, hex.stats_eq⟩
  unfold begin Progress.start
  dsimp only
  rw [hstart, ok_bind, pure_eq_ok, ok_bind, Progress.emitCompleted_total hp hdone, ok_bind,
    hr.coupling_eq, hexec]
  rfl

/-- What is known of a routed circuit. -/
structure Routed (c : Coupling) (config : Config) (circuit : Circuit) (layout : Layout)
    (calls : List (Router × Progress)) (answer : Routing × Router) : Prop where
  fits : Fits c config answer.2
  layoutFits : LayoutFits c circuit layout
  executes : Executes c (circuit.ops.map Op.qubits) layout answer.1.ops answer.1.finalLayout
  scheduled : circuit.Scheduled (emitted answer.1.ops)
  complete : ∀ k < circuit.size, k ∈ emitted answer.1.ops
  forcedRoutes_eq : answer.1.stats.forcedRoutes = 0
  rounds_eq : answer.1.stats.rounds = calls.length
  length_le : calls.length ≤ circuit.ops.countP Op.isPair
  advances : ∀ call ∈ calls, Advances call.1 call.2

/-- The two checks that routing makes before it starts. -/
theorem route_eq_of_not_fits (hr : Fits c config r) {layout : Layout}
    (hfits : ¬ LayoutFits c circuit layout) :
    r.route circuit layout = .error (.layoutWidth layout.numPhysical c.numQubits) ∨
      r.route circuit layout = .error (.layoutTooSmall layout.numVirtual circuit.numQubits) := by
  unfold route
  rw [hr.coupling_eq]
  by_cases hwidth : layout.numPhysical = c.numQubits
  · have hsmall : layout.numVirtual < circuit.numQubits :=
      Nat.lt_of_not_le fun h => hfits ⟨hwidth, h⟩
    right
    rw [if_neg (not_not_intro hwidth)]
    dsimp only
    rw [if_pos hsmall]
    rfl
  · left
    rw [if_pos hwidth]
    rfl

/-- A circuit is routed unless the layout does not fit or the cache overflows. -/
theorem route_ensures (hr : Fits c config r) (hcircuit : circuit.Linked) {layout : Layout}
    (hmatching : layout.Matching) :
    Ensures (r.route circuit layout) (Routed c config circuit layout (r.roundCalls circuit layout))
      (¬ LayoutFits c circuit layout ∨ Overflows c config) := by
  by_cases hfits : LayoutFits c circuit layout
  · obtain ⟨p, hbegin, hp, hsettled, hstats⟩ := begin_total hr hcircuit hmatching hfits
    have hpairs := circuit.outstanding_le (emitted p.ops)
    have hturns : circuit.outstanding (emitted p.ops) < circuit.size + 1 :=
      Nat.lt_succ_of_le (hpairs.trans List.countP_le_length)
    have hrun := (runWithin_ensures _ hr hp hsettled hturns).weaken
      (Or.inr : _ → ¬ LayoutFits c circuit layout ∨ _)
    unfold route roundCalls
    rw [hr.coupling_eq, if_neg (not_not_intro hfits.1)]
    dsimp only
    rw [if_neg (Nat.not_lt.mpr hfits.2), hbegin, liftM_ok, ok_bind]
    refine hrun.bind fun answer hfin => ?_
    obtain ⟨p', r'⟩ := answer
    have hscheduled := hfin.sound.frontier.scheduled
    have hcomplete := hfin.sound.frontier.mem_log_of_isDone hfin.done
    rw [hfin.drained, List.append_nil] at hscheduled hcomplete
    refine ⟨hfin.fits.with_paths _, hfits, hfin.sound.executes, hscheduled, hcomplete, ?_, ?_,
      hfin.length_le.trans hpairs, hfin.advances⟩
    · have hforced := hfin.forcedRoutes_eq
      rwa [hstats] at hforced
    · have hrounds := hfin.rounds_eq
      rw [hstats] at hrounds
      exact hrounds.trans (Nat.zero_add _)
  · rcases route_eq_of_not_fits hr hfits with h | h
    · rw [h]
      exact .inl hfits
    · rw [h]
      exact .inl hfits

/-! ## Any router, any history -/

/-- The routers for a device that routing any circuits before can have led to. A call that is refused
leaves a router as it is. -/
inductive Used (coupling : Coupling) (config : Config) : Router → Prop where
  | made {r : Router} (h : make coupling config = .ok r) : Used coupling config r
  | routed {r r' : Router} {n : Nat} {input : List (List VirtualQubit)} {circuit : Circuit}
      {layout : Layout} {result : Routing} (h : Used coupling config r)
      (hcircuit : Circuit.ofOps n input = .ok circuit) (hlayout : layout.Built)
      (hroute : r.route circuit layout = .ok (result, r')) : Used coupling config r'

/-- Every router that was used fits its device, whatever it has found. -/
theorem Used.fits (hc : c.Connected) (h : Used c config r) : Fits c config r := by
  induction h with
  | made h => exact fits_make hc h
  | routed _ hcircuit hlayout hroute ih =>
    have hlinked := (Circuit.ofOps_linked hcircuit).1
    exact ((route_ensures ih hlinked hlayout.matching).post_of_eq_ok hroute).fits

/-- What is known of a routed circuit, in the terms in which device, circuit and layout were given. -/
theorem Used.routed_of_eq_ok {n m : Nat} {links : List (Qubit × Qubit)}
    {input : List (List VirtualQubit)} {layout : Layout} {answer : Routing × Router}
    (hcoupling : Coupling.ofLinks n links = .ok c) (hr : Used c config r)
    (hcircuit : Circuit.ofOps m input = .ok circuit) (hlayout : layout.Built)
    (hroute : r.route circuit layout = .ok answer) :
    Routed c config circuit layout (r.roundCalls circuit layout) answer :=
  (route_ensures (hr.fits (Coupling.ofLinks_connected hcoupling)) (Circuit.ofOps_linked hcircuit).1
    hlayout.matching).post_of_eq_ok hroute

/-- No word overflows if the threshold leaves room for every position on the device. -/
theorem not_overflows (hr : Fits c config r)
    (h : ∀ position < c.numQubits, position + config.pathLengthThreshold < wordCount) :
    ¬ Overflows c config := by
  have hpos := hr.connected.pos
  have htwo := (validate_eq_ok hr.validated).2.1
  have hlast := h (c.numQubits - 1) (by omega)
  unfold Overflows
  omega

section Line

/-- Four qubits in a line. -/
def line : Coupling :=
  ⟨4, [(0, 1), (1, 0), (1, 2), (2, 1), (2, 3), (3, 2)]⟩

/-- An operation on two distant qubits of the line, one on a single qubit, and one that waits for both. -/
def threeOps : Circuit :=
  ⟨3, [.pair 0 2, .single 1, .pair 0 1], [(0, 2), (1, 2)], [0, 1]⟩

/-- Three qubits on the line. Position 2 is free. -/
def gapped : Layout :=
  ⟨[0, 1, 3], [some 0, some 1, none, some 2]⟩

def lineRouter : Router :=
  ⟨line, Config.standard, line.adjacency, line.distances, Registry.empty, PathCache.empty 3⟩

theorem ofLinks_line : Coupling.ofLinks 4 [(0, 1), (1, 2), (2, 3)] = .ok line := by decide +kernel

theorem ofOps_threeOps : Circuit.ofOps 3 [[0, 2], [1], [0, 1]] = .ok threeOps := by decide

theorem built_gapped : gapped.Built := by
  have h : Layout.ofPositions [0, 1, 3] 4 = .ok gapped := by decide
  exact .ofPositions h

theorem used_lineRouter : Used line Config.standard lineRouter :=
  .made rfl

end Line

/-- Replaying a routed circuit from the first layout works: every swap is between coupled qubits, every
other entry acts where the qubits of its operation are at that point, on coupled ones if there are two,
and the layout at the end is the one that routing returns. -/
theorem route_executes {n m : Nat} {links : List (Qubit × Qubit)} {input : List (List VirtualQubit)}
    {coupling : Coupling} {config : Config} {r r' : Router} {circuit : Circuit} {layout : Layout}
    {result : Routing} (hcoupling : Coupling.ofLinks n links = .ok coupling)
    (hr : Used coupling config r) (hcircuit : Circuit.ofOps m input = .ok circuit)
    (hlayout : layout.Built) (hroute : r.route circuit layout = .ok (result, r')) :
    Executes coupling input layout result.ops result.finalLayout := by
  have hexec := (hr.routed_of_eq_ok hcoupling hcircuit hlayout hroute).executes
  rwa [(Circuit.ofOps_linked hcircuit).2.2] at hexec

/-- A router that is used twice. The second time it emits two swaps and all three operations. -/
theorem lineRouter_executes : ∃ first second r' r'',
    lineRouter.route threeOps gapped = .ok (first, r') ∧
    r'.route threeOps gapped = .ok (second, r'') ∧
    second.ops = [.gate 1 [1], .swap 0 1, .swap 3 2, .gate 0 [1, 2], .gate 2 [1, 0]] ∧
    Executes line [[0, 2], [1], [0, 1]] gapped second.ops second.finalLayout := by
  have hops : (lineRouter.route threeOps gapped >>= fun a => a.2.route threeOps gapped).toOption.map
      (fun answer => answer.1.ops) =
      some [.gate 1 [1], .swap 0 1, .swap 3 2, .gate 0 [1, 2], .gate 2 [1, 0]] := by
    decide +kernel
  have htwice : (lineRouter.route threeOps gapped >>= fun a => a.2.route threeOps gapped).isOk := by
    decide +kernel
  obtain ⟨⟨second, r''⟩, htwice⟩ := exists_of_isOk htwice
  rw [htwice] at hops
  obtain ⟨⟨first, r'⟩, hfirst, hsecond⟩ := bind_eq_ok_iff.mp htwice
  have hused := used_lineRouter.routed ofOps_threeOps built_gapped hfirst
  exact ⟨first, second, r', r'', hfirst, hsecond, Option.some.inj hops,
    route_executes ofLinks_line hused ofOps_threeOps built_gapped hsecond⟩

/-- A routed circuit has an entry for every operation, and only one. Of two operations that share a
qubit, the earlier one comes first. -/
theorem route_emits_in_order {n m : Nat} {links : List (Qubit × Qubit)}
    {input : List (List VirtualQubit)} {coupling : Coupling} {config : Config} {r r' : Router}
    {circuit : Circuit} {layout : Layout} {result : Routing}
    (hcoupling : Coupling.ofLinks n links = .ok coupling) (hr : Used coupling config r)
    (hcircuit : Circuit.ofOps m input = .ok circuit) (hlayout : layout.Built)
    (hroute : r.route circuit layout = .ok (result, r')) :
    (emitted result.ops).Perm (List.range input.length) ∧
      ∀ i j vs ws q, i < j → input[i]? = some vs → input[j]? = some ws → q ∈ vs → q ∈ ws →
        ∃ ps qs, [RoutedOp.gate i ps, RoutedOp.gate j qs].Sublist result.ops := by
  have hrouted := hr.routed_of_eq_ok hcoupling hcircuit hlayout hroute
  obtain ⟨-, -, hinput⟩ := Circuit.ofOps_linked hcircuit
  have hsize : input.length = circuit.size := by
    rw [← hinput, List.length_map]
    rfl
  have hacts : ∀ {k vs q}, input[k]? = some vs → q ∈ vs → ActsOn circuit.ops k q := by
    intro k vs q hk hq
    rw [← hinput, List.getElem?_map] at hk
    obtain ⟨op, hop, rfl⟩ := Option.map_eq_some_iff.mp hk
    exact ⟨op, hop, hq⟩
  refine ⟨?_, fun i j vs ws q hij hi hj hqi hqj => ?_⟩
  · rw [hsize]
    exact hrouted.scheduled.perm_range hrouted.complete
  · have hjq := hacts hj hqj
    exact gates_sublist (hrouted.scheduled.pair_sublist hij (hacts hi hqi) hjq
      (hrouted.complete j hjq.lt_length))

/-- The last operation of the three shares a qubit with each of the others. -/
theorem lineRouter_emits_in_order : ∃ result r',
    lineRouter.route threeOps gapped = .ok (result, r') ∧
    (emitted result.ops).Perm [0, 1, 2] ∧
    (∃ ps qs, [RoutedOp.gate 0 ps, RoutedOp.gate 2 qs].Sublist result.ops) ∧
    ∃ ps qs, [RoutedOp.gate 1 ps, RoutedOp.gate 2 qs].Sublist result.ops := by
  have hok : (lineRouter.route threeOps gapped).isOk = true := by decide +kernel
  obtain ⟨⟨result, r'⟩, hroute⟩ := exists_of_isOk hok
  obtain ⟨hperm, horder⟩ :=
    route_emits_in_order ofLinks_line used_lineRouter ofOps_threeOps built_gapped hroute
  exact ⟨result, r', hroute, hperm, horder 0 2 [0, 2] [0, 1] 0 (by decide) rfl rfl (by decide) (by decide),
    horder 1 2 [1] [0, 1] 1 (by decide) rfl rfl (by decide) (by decide)⟩

/-- Routing never fails on its own account. It has a result exactly if the layout fits, and is refused
with the number that does not fit otherwise; no route is ever forced; every round advances, and there are
as many as the statistics say, at most one for each operation on two qubits. -/
theorem route_succeeds {n m : Nat} {links : List (Qubit × Qubit)} {input : List (List VirtualQubit)}
    {coupling : Coupling} {config : Config} {r : Router} {circuit : Circuit} {layout : Layout}
    (hcoupling : Coupling.ofLinks n links = .ok coupling) (hr : Used coupling config r)
    (hword : ∀ position < coupling.numQubits, position + config.pathLengthThreshold < wordCount)
    (hcircuit : Circuit.ofOps m input = .ok circuit) (hlayout : layout.Built) :
    ((∃ result r', r.route circuit layout = .ok (result, r')) ↔
      layout.numPhysical = coupling.numQubits ∧ circuit.numQubits ≤ layout.numVirtual) ∧
    (∀ e, r.route circuit layout = .error e →
      e = .layoutWidth layout.numPhysical coupling.numQubits ∨
        e = .layoutTooSmall layout.numVirtual circuit.numQubits) ∧
    ∀ result r', r.route circuit layout = .ok (result, r') →
      result.stats.forcedRoutes = 0 ∧
      (∀ call ∈ r.roundCalls circuit layout, Advances call.1 call.2) ∧
      result.stats.rounds = (r.roundCalls circuit layout).length ∧
      result.stats.rounds ≤ input.countP fun qubits => qubits.length == 2 := by
  have hfits := hr.fits (Coupling.ofLinks_connected hcoupling)
  obtain ⟨hlinked, -, hinput⟩ := Circuit.ofOps_linked hcircuit
  have hroute := route_ensures hfits hlinked hlayout.matching
  refine ⟨⟨fun ⟨result, r', h⟩ => ?_, fun h => ?_⟩, fun e he => ?_, fun result r' h => ?_⟩
  · exact (hroute.post_of_eq_ok h).layoutFits
  · obtain ⟨⟨result, r'⟩, hok, -⟩ :=
      hroute.total fun hreason => hreason.elim (fun hmisfit => hmisfit h) (not_overflows hfits hword)
    exact ⟨result, r', hok⟩
  · have hmisfit : ¬ LayoutFits coupling circuit layout := by
      rw [he] at hroute
      exact hroute.resolve_right (not_overflows hfits hword)
    rcases route_eq_of_not_fits hfits hmisfit with he' | he'
    · exact .inl (Except.error.inj (he.symm.trans he'))
    · exact .inr (Except.error.inj (he.symm.trans he'))
  · have hrouted := hroute.post_of_eq_ok h
    refine ⟨hrouted.forcedRoutes_eq, hrouted.advances, hrouted.rounds_eq, ?_⟩
    rw [hrouted.rounds_eq, ← hinput, List.countP_map]
    refine hrouted.length_le.trans (Nat.le_of_eq (List.countP_congr fun op _ => ?_))
    cases op with
    | single q => exact Iff.rfl
    | pair a b => exact Iff.rfl

/-- On the line, one round is enough. -/
theorem lineRouter_succeeds : ∃ result r', lineRouter.route threeOps gapped = .ok (result, r') ∧
    (lineRouter.roundCalls threeOps gapped).length = 1 ∧ result.stats.forcedRoutes = 0 ∧
    (∀ call ∈ lineRouter.roundCalls threeOps gapped, Advances call.1 call.2) ∧
    result.stats.rounds = (lineRouter.roundCalls threeOps gapped).length ∧
    result.stats.rounds ≤ [[0, 2], [1], [0, 1]].countP fun qubits => qubits.length == 2 := by
  obtain ⟨hiff, -, hok⟩ :=
    route_succeeds ofLinks_line used_lineRouter (by decide) ofOps_threeOps built_gapped
  obtain ⟨result, r', h⟩ := hiff.mpr (by decide)
  exact ⟨result, r', h, by decide +kernel, hok result r' h⟩

end Router

end QubitRouting
