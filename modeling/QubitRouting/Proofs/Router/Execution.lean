import QubitRouting.Proofs.Frontier.Consistent
import QubitRouting.Proofs.Layout.Matching
import QubitRouting.Proofs.Router.Offers
import QubitRouting.Router.Progress

/-!
# Routed circuits can be executed

`Executes` replays a routed circuit from a layout: every swap is between coupled qubits and moves the
layout on, and every other entry acts on the positions that the qubits of its operation have at that
point, which are coupled if there are two.

`Progress.Sound` is the invariant of routing: what was emitted so far replays from the first layout to
the present one, and the frontier is that of the operations emitted. Emitting completed operations
(`emitCompleted_total`), executing coupled interactions (`executeWithin_total`) and swapping
(`applySwaps_total`) keep it, and always have a result.
-/

namespace QubitRouting

/-! ## Replaying -/

/-- The numbers of the operations among the entries of a routed circuit. -/
def emitted (ops : List RoutedOp) : List Nat :=
  ops.filterMap fun
    | .gate k _ => some k
    | .swap _ _ => none

/-- The entries can be carried out on the device from the first layout, and lead to the second. -/
inductive Executes (c : Coupling) (input : List (List VirtualQubit)) :
    Layout → List RoutedOp → Layout → Prop where
  | done (l : Layout) : Executes c input l [] l
  | gate {l l' : Layout} {rest : List RoutedOp} {k : Nat} {vs : List VirtualQubit} {qs : List Qubit}
      (hop : input[k]? = some vs) (hqs : vs.mapM l.toPhysical = .ok qs)
      (hpair : ∀ a b, qs = [a, b] → c.coupled a b = true) (hrest : Executes c input l rest l') :
      Executes c input l (.gate k qs :: rest) l'
  | swap {l m l' : Layout} {rest : List RoutedOp} {a b : Qubit} (hab : c.coupled a b = true)
      (hswap : l.swapPhysical a b = .ok m) (hrest : Executes c input m rest l') :
      Executes c input l (.swap a b :: rest) l'

/-- Two runs one after the other, the second from the layout that the first ends with. -/
theorem Executes.append {c : Coupling} {input : List (List VirtualQubit)} {l m l' : Layout}
    {ops ops' : List RoutedOp} (h : Executes c input l ops m) (h' : Executes c input m ops' l') :
    Executes c input l (ops ++ ops') l' := by
  induction h with
  | done => exact h'
  | gate hop hqs hpair _ ih => exact .gate hop hqs hpair (ih h')
  | swap hab hswap _ ih => exact .swap hab hswap (ih h')

theorem emitted_append (ops ops' : List RoutedOp) :
    emitted (ops ++ ops') = emitted ops ++ emitted ops' :=
  List.filterMap_append

theorem emitted_swaps (swaps : List Swap) :
    emitted (swaps.map fun s => .swap s.1 s.2) = [] := by
  unfold emitted
  rw [List.filterMap_map, List.filterMap_eq_nil_iff]
  exact fun _ _ => rfl

/-- What is emitted in front has an entry, and the rest is emitted by the entries after it. -/
theorem emitted_eq_cons {ops : List RoutedOp} {k : Nat} {ks : List Nat}
    (h : emitted ops = k :: ks) :
    ∃ before qs after, ops = before ++ .gate k qs :: after ∧ emitted after = ks := by
  obtain ⟨before, entry, after, rfl, -, hentry, hafter⟩ := List.filterMap_eq_cons_iff.mp h
  cases entry with
  | gate k' qs =>
    obtain rfl : k' = k := Option.some.inj hentry
    exact ⟨before, qs, after, rfl, hafter⟩
  | swap a b => contradiction

/-- Operations that are emitted one after the other stand so among the entries. -/
theorem gates_sublist {ops : List RoutedOp} {i j : Nat} (h : [i, j].Sublist (emitted ops)) :
    ∃ ps qs, [RoutedOp.gate i ps, RoutedOp.gate j qs].Sublist ops := by
  obtain ⟨entries, hsub, hemitted⟩ := List.sublist_filterMap_iff.mp h
  obtain ⟨before, ps, after, rfl, hafter⟩ := emitted_eq_cons hemitted.symm
  obtain ⟨between, qs, rest, rfl, -⟩ := emitted_eq_cons hafter
  refine ⟨ps, qs, List.Sublist.trans ?_ hsub⟩
  have hj : [RoutedOp.gate j qs].Sublist (between ++ .gate j qs :: rest) :=
    List.singleton_sublist.mpr (List.mem_append_right _ List.mem_cons_self)
  exact (hj.cons_cons _).trans (List.sublist_append_right _ _)

/-! ## Where qubits sit -/

namespace Layout

/-- The position of a virtual qubit that has one. -/
def site (l : Layout) (v : VirtualQubit) : Qubit :=
  l.position[v]?.getD 0

theorem position_eq_site {l : Layout} {v : VirtualQubit} (h : v < l.numVirtual) :
    l.position[v]? = some (l.site v) := by
  unfold Layout.site
  rw [List.getElem?_eq_getElem h]
  rfl

theorem toPhysical_eq_site {l : Layout} {v : VirtualQubit} (h : v < l.numVirtual) :
    l.toPhysical v = .ok (l.site v) :=
  toPhysical_eq_ok_iff.mpr (position_eq_site h)

theorem site_eq {l : Layout} {v : VirtualQubit} {p : Qubit} (h : l.toPhysical v = .ok p) :
    l.site v = p := by
  unfold Layout.site
  rw [toPhysical_eq_ok_iff.mp h]
  rfl

theorem Matching.site_lt {l : Layout} (hl : l.Matching) {v : VirtualQubit} (h : v < l.numVirtual) :
    l.site v < l.numPhysical :=
  hl.lt_numPhysical (position_eq_site h)

theorem Matching.site_ne {l : Layout} (hl : l.Matching) {v w : VirtualQubit} (hv : v < l.numVirtual)
    (hw : w < l.numVirtual) (hne : v ≠ w) : l.site v ≠ l.site w := by
  intro he
  refine hne (hl.injective (position_eq_site hv) ?_)
  rw [he]
  exact position_eq_site hw

end Layout

namespace Progress

variable {c : Coupling} {circuit : Circuit} {start : Layout} {p : Progress}

/-- The device and the circuit fit the layout, the layout is one, and what was emitted replays to it. -/
structure Sound (c : Coupling) (circuit : Circuit) (start : Layout) (p : Progress) : Prop where
  linked : circuit.Linked
  frontier : p.frontier.Consistent circuit (emitted p.ops) []
  executes : Executes c (circuit.ops.map Op.qubits) start p.ops p.layout
  matching : p.layout.Matching
  numPhysical : p.layout.numPhysical = c.numQubits
  numVirtual : circuit.numQubits ≤ p.layout.numVirtual
  decay : DecayFits c p.decay

/-- Where the two qubits of an interaction sit. -/
def placeAt (l : Layout) (i : Interaction) : Placed :=
  ⟨i, l.site i.left, l.site i.right⟩

theorem lt_numVirtual (hp : Sound c circuit start p) {k : Nat} {q : VirtualQubit}
    (h : ActsOn circuit.ops k q) : q < p.layout.numVirtual :=
  Nat.lt_of_lt_of_le (hp.linked.qubits_lt h) hp.numVirtual

/-- The qubits of a ready interaction sit on two different positions of the device. -/
theorem placed_lt (hp : Sound c circuit start p) {i : Interaction} (hi : i ∈ p.frontier.ready) :
    (i.left < p.layout.numVirtual ∧ i.right < p.layout.numVirtual) ∧
      p.layout.site i.left < c.numQubits ∧ p.layout.site i.right < c.numQubits ∧
      p.layout.site i.left ≠ p.layout.site i.right := by
  have hleft := lt_numVirtual hp (hp.frontier.actsOn hi List.mem_cons_self)
  have hright := lt_numVirtual hp
    (hp.frontier.actsOn hi (List.mem_cons_of_mem i.left List.mem_cons_self))
  have hne := hp.linked.pair_ne (hp.frontier.ready_op i hi)
  rw [← hp.numPhysical]
  exact ⟨⟨hleft, hright⟩, hp.matching.site_lt hleft, hp.matching.site_lt hright,
    hp.matching.site_ne hleft hright hne⟩

/-- Every ready interaction can be placed, because the layout has a position for each of its qubits. -/
theorem placedReady_eq (hp : Sound c circuit start p) :
    p.placedReady = .ok (p.frontier.ready.map (placeAt p.layout)) := by
  refine mapM_eq_ok fun i hi => ?_
  obtain ⟨⟨hleft, hright⟩, -⟩ := placed_lt hp hi
  unfold place
  rw [Layout.toPhysical_eq_site hleft, ok_bind, Layout.toPhysical_eq_site hright]
  rfl

/-! ## Emitting operations -/

/-- Operation `k` can be carried out at a layout: if it acts on two qubits, they are coupled. -/
def Executable (c : Coupling) (circuit : Circuit) (l : Layout) (k : Nat) : Prop :=
  ∃ op, circuit.ops[k]? = some op ∧ ∀ a b, op = .pair a b → c.coupled (l.site a) (l.site b) = true

/-- Operations on a single qubit can be executed anywhere. -/
theorem executable_of_singles {l : Layout} {new : List Nat} (h : Frontier.Singles circuit new) :
    ∀ k ∈ new, Executable c circuit l k := by
  intro k hk
  obtain ⟨q, hq⟩ := h k hk
  exact ⟨.single q, hq, fun a b he => by contradiction⟩

/-- The qubits of operation `k`, where it acts at a layout. -/
def gateAt (circuit : Circuit) (l : Layout) (k : Nat) : RoutedOp :=
  .gate k (((circuit.ops[k]?.map Op.qubits).getD []).map l.site)

theorem emitted_gateAt (circuit : Circuit) (l : Layout) (ks : List Nat) :
    emitted (ks.map (gateAt circuit l)) = ks := by
  unfold emitted
  rw [List.filterMap_map]
  exact (List.filterMap_congr fun _ _ => rfl).trans List.filterMap_some

/-- Operations that can be carried out are carried out where their qubits sit. -/
theorem executes_gateAt {l : Layout} (hlt : ∀ k q, ActsOn circuit.ops k q → q < l.numVirtual) :
    ∀ (ks : List Nat), (∀ k ∈ ks, Executable c circuit l k) →
    Executes c (circuit.ops.map Op.qubits) l (ks.map (gateAt circuit l)) l
  | [], _ => .done l
  | k :: ks, h => by
    obtain ⟨op, hop, hpair⟩ := h k List.mem_cons_self
    have hrest := executes_gateAt hlt ks fun j hj => h j (List.mem_cons_of_mem k hj)
    have hgate : gateAt circuit l k = .gate k (op.qubits.map l.site) := by
      unfold gateAt
      rw [hop]
      rfl
    have hop' : (circuit.ops.map Op.qubits)[k]? = some op.qubits := by
      rw [List.getElem?_map, hop]
      rfl
    rw [List.map_cons, hgate]
    refine .gate hop' ?_ (fun a b hab => ?_) hrest
    · exact mapM_eq_ok fun q hq => Layout.toPhysical_eq_site (hlt k q ⟨op, hop, hq⟩)
    · cases op with
      | single q => simp [Op.qubits] at hab
      | pair x y =>
        obtain ⟨rfl, rfl⟩ : l.site x = a ∧ l.site y = b := by simpa [Op.qubits] using hab
        exact hpair x y rfl

/-- What the frontier has completed is emitted at the present layout. -/
theorem emitCompleted_total (hp : Sound c circuit start p)
    (hdone : ∀ k ∈ p.frontier.completed, Executable c circuit p.layout k) :
    p.emitCompleted = .ok { p with
      frontier := { p.frontier with completed := [] }
      ops := p.ops ++ p.frontier.completed.map (gateAt circuit p.layout) } := by
  have hgates : p.frontier.completed.mapM p.gate =
      .ok (p.frontier.completed.map (gateAt circuit p.layout)) := by
    refine mapM_eq_ok fun k hk => ?_
    obtain ⟨op, hop, -⟩ := hdone k hk
    have hqs : op.qubits.mapM p.layout.toPhysical = .ok (op.qubits.map p.layout.site) :=
      mapM_eq_ok fun q hq => Layout.toPhysical_eq_site (lt_numVirtual hp ⟨op, hop, hq⟩)
    unfold gate gateAt
    rw [hp.frontier.circuit_eq, fetch_eq_ok hop, ok_bind, hqs, hop]
    rfl
  unfold emitCompleted Frontier.drain
  dsimp only
  rw [hgates]
  rfl

/-- Emitting completed operations keeps the progress sound, if all of them can be executed where they are. -/
theorem sound_emitCompleted (hp : Sound c circuit start p)
    (hdone : ∀ k ∈ p.frontier.completed, Executable c circuit p.layout k) :
    Sound c circuit start { p with
      frontier := { p.frontier with completed := [] }
      ops := p.ops ++ p.frontier.completed.map (gateAt circuit p.layout) } := by
  have hlog : emitted (p.ops ++ p.frontier.completed.map (gateAt circuit p.layout)) =
      emitted p.ops ++ p.frontier.completed := by
    rw [emitted_append, emitted_gateAt]
  have hgates := executes_gateAt (fun k q h => lt_numVirtual hp h) p.frontier.completed hdone
  refine { hp with
    frontier := ?_
    executes := hp.executes.append hgates }
  show Frontier.Consistent circuit (emitted (p.ops ++ _)) [] _
  rw [hlog]
  exact hp.frontier.drain

/-! ## Executing interactions -/

/-- The two qubits of the interaction are coupled where they sit. -/
def Adjacent (c : Coupling) (l : Layout) (i : Interaction) : Prop :=
  c.coupled (l.site i.left) (l.site i.right) = true

/-- An interaction between neighbours can be executed. -/
theorem executable_of_adjacent {l : Layout} {i : Interaction}
    (hop : circuit.ops[i.op]? = some (.pair i.left i.right)) (hi : Adjacent c l i) :
    Executable c circuit l i.op := by
  refine ⟨_, hop, fun a b he => ?_⟩
  obtain ⟨rfl, rfl⟩ := Op.pair.inj he
  exact hi

/-- Ready interactions are resolved one after the other: resolving one leaves the others ready. -/
theorem resolveAll_total {log : List Nat} {l : Layout} (hc : circuit.Linked) :
    ∀ (is : List Interaction) {f : Frontier} {n : Nat}, f.Consistent circuit log [] → is.Nodup →
    (∀ i ∈ is, i ∈ f.ready ∧ Adjacent c l i) →
    ∃ f' new, is.foldlM resolveOne (f, n) = .ok (f', n + is.length) ∧
      f'.Consistent circuit log [] ∧ f'.completed = f.completed ++ new ∧
      (∀ i ∈ is, i.op ∈ new) ∧ ∀ k ∈ new, Executable c circuit l k
  | [], f, n, hf, _, _ =>
    ⟨f, [], rfl, hf, (List.append_nil _).symm, fun _ h => absurd h List.not_mem_nil,
      fun _ h => absurd h List.not_mem_nil⟩
  | i :: is, f, n, hf, hnodup, his => by
    obtain ⟨hnot, hnodup⟩ := List.nodup_cons.mp hnodup
    obtain ⟨hi, hadj⟩ := his i List.mem_cons_self
    obtain ⟨f₁, new₁, hresolve, hf₁, hcompleted₁, hsingles, hready⟩ :=
      Frontier.resolve?_total hc hf hi (Frontier.isOn_self i)
    -- the others are still ready, so they can be resolved in turn
    have hrest : ∀ j ∈ is, j ∈ f₁.ready ∧ Adjacent c l j := by
      intro j hj
      obtain ⟨hjr, hja⟩ := his j (List.mem_cons_of_mem i hj)
      exact ⟨hready j hjr fun he => hnot (he ▸ hj), hja⟩
    obtain ⟨f₂, new₂, hfold, hf₂, hcompleted₂, hops, hexec⟩ := resolveAll_total hc is hf₁ hnodup hrest
    have hone : resolveOne (f, n) i = .ok (f₁, n + 1) := by
      unfold resolveOne
      rw [hresolve]
      rfl
    refine ⟨f₂, i.op :: new₁ ++ new₂, ?_, hf₂, ?_, ?_, ?_⟩
    · rw [List.foldlM_cons, hone, ok_bind, hfold, List.length_cons]
      congr 2
      omega
    · rw [hcompleted₂, hcompleted₁, List.append_assoc]
    · intro j hj
      rcases List.mem_cons.mp hj with rfl | hj
      · exact List.mem_append_left _ List.mem_cons_self
      · exact List.mem_append_right _ (hops j hj)
    · intro k hk
      rcases List.mem_append.mp hk with hk | hk
      · rcases List.mem_cons.mp hk with rfl | hk
        · exact executable_of_adjacent (hf.ready_op i hi) hadj
        · exact executable_of_singles hsingles k hk
      · exact hexec k hk

/-- Nothing is left to emit or to execute before the next swap. -/
structure Settled (c : Coupling) (p : Progress) : Prop where
  drained : p.frontier.completed = []
  apart : ∀ i ∈ p.frontier.ready, ¬ Adjacent c p.layout i

/-- What is known of progress after executing what could be executed, and of the number executed. -/
structure Executed (c : Coupling) (circuit : Circuit) (start : Layout) (p p' : Progress)
    (count : Nat) : Prop where
  sound : Sound c circuit start p'
  settled : Settled c p'
  layout_eq : p'.layout = p.layout
  stats_eq : p'.stats = p.stats
  gates : ∃ ks : List Nat, p'.ops = p.ops ++ ks.map (gateAt circuit p.layout)
  executed : ∀ i ∈ p.frontier.ready, Adjacent c p.layout i → i.op ∈ emitted p'.ops
  count_ne_zero : ∀ i ∈ p.frontier.ready, Adjacent c p.layout i → count ≠ 0

theorem emitted_gates {p' : Progress} {l : Layout} {ks : List Nat}
    (h : p'.ops = p.ops ++ ks.map (gateAt circuit l)) : emitted p'.ops = emitted p.ops ++ ks := by
  rw [h, emitted_append, emitted_gateAt]

/-- The ready interactions that can be executed at once. -/
def adjacentReady (c : Coupling) (p : Progress) : List Interaction :=
  p.frontier.ready.filter fun i => c.coupled (p.layout.site i.left) (p.layout.site i.right)

theorem mem_adjacentReady_iff {i : Interaction} :
    i ∈ adjacentReady c p ↔ i ∈ p.frontier.ready ∧ Adjacent c p.layout i :=
  List.mem_filter

/-- One turn: the adjacent interactions are resolved, and what that completes is emitted. -/
theorem executeTurn_total (hp : Sound c circuit start p) (hdrained : p.frontier.completed = []) :
    ∃ (f : Frontier) (p' : Progress) (ks : List Nat), (adjacentReady c p).foldlM resolveOne (p.frontier, 0) =
        .ok (f, (adjacentReady c p).length) ∧
      { p with frontier := f }.emitCompleted = .ok p' ∧ Sound c circuit start p' ∧
      p'.frontier.completed = [] ∧ p'.layout = p.layout ∧ p'.stats = p.stats ∧
      p'.ops = p.ops ++ ks.map (gateAt circuit p.layout) ∧ ∀ i ∈ adjacentReady c p, i.op ∈ ks := by
  have hnodup : (adjacentReady c p).Nodup := by
    have hops := hp.frontier.nodup
    rw [List.append_nil] at hops
    exact (hops.of_map _).filter _
  obtain ⟨f, ks, hfold, hf, hcompleted, hops, hexec⟩ :=
    resolveAll_total (n := 0) hp.linked (adjacentReady c p) hp.frontier hnodup
      fun i hi => mem_adjacentReady_iff.mp hi
  rw [hdrained, List.nil_append] at hcompleted
  rw [Nat.zero_add] at hfold
  have hp' : Sound c circuit start { p with frontier := f } := { hp with frontier := hf }
  have hdone : ∀ k ∈ f.completed, Executable c circuit p.layout k := hcompleted ▸ hexec
  refine ⟨f, _, ks, hfold, emitCompleted_total hp' hdone, sound_emitCompleted hp' hdone, rfl, rfl, rfl,
    ?_, hops⟩
  rw [← hcompleted]

/-- Executing what is adjacent ends, because each turn emits an operation, and leaves nothing adjacent. -/
theorem executeWithin_total : ∀ (turns : Nat) {p : Progress}, Sound c circuit start p →
    p.frontier.completed = [] → circuit.size < turns + (emitted p.ops).length →
    ∃ p' count, executeWithin c turns p = .ok (p', count) ∧ Executed c circuit start p p' count
  | 0, p, hp, _, hturns => by
    -- no more operations are emitted than the circuit has
    have hlen := hp.frontier.length_le
    rw [List.length_append] at hlen
    omega
  | turns + 1, p, hp, hdrained, hturns => by
    have hadj : ((p.frontier.ready.map (placeAt p.layout)).filter fun i => c.coupled i.a i.b) =
        (adjacentReady c p).map (placeAt p.layout) := List.filter_map
    have hinter : ((adjacentReady c p).map (placeAt p.layout)).map (·.interaction) =
        adjacentReady c p := by
      rw [List.map_map]
      exact List.map_id _
    unfold executeWithin
    rw [placedReady_eq hp, ok_bind, hadj]
    dsimp only
    rw [hinter, List.isEmpty_map]
    by_cases hnil : adjacentReady c p = []
    · have hapart : ∀ i ∈ p.frontier.ready, ¬ Adjacent c p.layout i := by
        intro i hi h
        have hmem := mem_adjacentReady_iff.mpr ⟨hi, h⟩
        rw [hnil] at hmem
        exact absurd hmem List.not_mem_nil
      refine ⟨p, 0, by rw [hnil]; rfl, hp, ⟨hdrained, hapart⟩, rfl, rfl, ⟨[], ?_⟩, ?_, ?_⟩
      · exact (List.append_nil _).symm
      · exact fun i hi h => absurd h (hapart i hi)
      · exact fun i hi h => absurd h (hapart i hi)
    · obtain ⟨f, p₁, ks, hfold, hemit, hp₁, hdrained₁, hlayout, hstats, hops, hks⟩ :=
        executeTurn_total hp hdrained
      have hlog := emitted_gates hops
      obtain ⟨i₀, hi₀⟩ := List.exists_mem_of_ne_nil _ hnil
      -- something was emitted, so there are turns enough for the rest
      have hpos : 0 < ks.length := List.length_pos_of_mem (hks i₀ hi₀)
      obtain ⟨p₂, more, hexec, hex⟩ := executeWithin_total turns hp₁ hdrained₁ (by
        rw [hlog, List.length_append]
        omega)
      obtain ⟨ks', hops'⟩ := hex.gates
      rw [hlayout, hops, List.append_assoc, ← List.map_append] at hops'
      refine ⟨p₂, (adjacentReady c p).length + more, ?_, hex.sound, hex.settled,
        hex.layout_eq.trans hlayout, hex.stats_eq.trans hstats, ⟨_, hops'⟩, ?_, ?_⟩
      · rw [if_neg (by simpa using hnil), hfold, ok_bind]
        dsimp only
        rw [hemit, ok_bind, hexec]
        rfl
      · intro i hi h
        rw [emitted_gates hops']
        exact List.mem_append_right _ (List.mem_append_left _ (hks i (mem_adjacentReady_iff.mpr ⟨hi, h⟩)))
      · intro i hi h
        have := List.length_pos_of_mem (mem_adjacentReady_iff.mpr ⟨hi, h⟩)
        omega

/-- There are turns enough to execute everything. -/
theorem executeAdjacent_total (hp : Sound c circuit start p) (hdrained : p.frontier.completed = []) :
    ∃ p' count, p.executeAdjacent c = .ok (p', count) ∧ Executed c circuit start p p' count := by
  unfold executeAdjacent
  rw [hp.frontier.circuit_eq]
  exact executeWithin_total _ hp hdrained (by omega)

/-! ## Swapping -/

/-- What is known of progress after some swaps: every position is renamed, and nothing is executed. -/
structure Moved (c : Coupling) (circuit : Circuit) (start : Layout) (p : Progress)
    (swaps : List Swap) (p' : Progress) : Prop where
  sound : Sound c circuit start p'
  frontier_eq : p'.frontier = p.frontier
  stats_eq : p'.stats = p.stats
  ops_eq : p'.ops = p.ops ++ swaps.map fun s => .swap s.1 s.2
  position_eq : p'.layout.position = p.layout.position.map (carried swaps)

/-- Swaps carry a qubit to where they carry its position. -/
theorem Moved.site_eq {p' : Progress} {swaps : List Swap} (h : Moved c circuit start p swaps p')
    {v : VirtualQubit} (hv : v < p.layout.numVirtual) :
    p'.layout.site v = carried swaps (p.layout.site v) := by
  refine Layout.site_eq (Layout.toPhysical_eq_ok_iff.mpr ?_)
  rw [h.position_eq, List.getElem?_map, Layout.position_eq_site hv]
  rfl

theorem registerSwap_total {d : Decay} (hd : DecayFits c (some d)) {s : Swap}
    (h₁ : s.1 < c.numQubits) (h₂ : s.2 < c.numQubits) :
    ∃ d', d.registerSwap s = .ok d' ∧ DecayFits c (some d') := by
  obtain ⟨hlen, hreset⟩ := hd d rfl
  have hfits : ∀ {weights : List Float} {steps : Nat}, weights.length = c.numQubits →
      DecayFits c (some ⟨d.policy, weights, steps⟩) := by
    intro weights steps hw d' he
    obtain rfl := Option.some.inj he
    exact ⟨hw, hreset⟩
  have hraise : ∀ {e : Decay} {q : Qubit}, e.weights.length = c.numQubits → q < c.numQubits →
      ∃ weights, e.raise q = .ok { e with weights } ∧ weights.length = c.numQubits := by
    intro e q he hq
    have hq' : q < e.weights.length := he ▸ hq
    refine ⟨e.weights.set q (e.weights[q] + e.policy.increment), ?_, (List.length_set).trans he⟩
    unfold Decay.raise Decay.weight
    rw [fetch_eq_ok (List.getElem?_eq_getElem hq'), ok_bind, store_eq_ok _ hq']
    rfl
  unfold Decay.registerSwap
  rw [if_neg hreset]
  split
  next => exact ⟨_, rfl, hfits (by rw [List.length_replicate, hlen])⟩
  next =>
    obtain ⟨w, hw, hwlen⟩ := hraise (e := ⟨d.policy, d.weights, d.steps + 1⟩) hlen h₁
    obtain ⟨w', hw', hwlen'⟩ := hraise (e := ⟨d.policy, w, d.steps + 1⟩) hwlen h₂
    exact ⟨_, by rw [hw, ok_bind, hw'], hfits hwlen'⟩

/-- A swap of coupled qubits can be carried out. It moves qubits, and executes nothing. -/
theorem applySwap_total (hc : c.Connected) (hp : Sound c circuit start p) {s : Swap}
    (hs : c.coupled s.1 s.2 = true) :
    ∃ p', p.applySwap s = .ok p' ∧ Moved c circuit start p [s] p' := by
  obtain ⟨h₁, h₂⟩ := hc.lt hs
  have hphys := hp.numPhysical
  obtain ⟨l, hswap, hmatch, hpos, hnum⟩ :=
    Layout.swapPhysical_total hp.matching (hphys ▸ h₁) (hphys ▸ h₂)
  -- the layout always changes the same way; the weights change only if there are any
  have happly : ∃ decay, p.applySwap s = .ok { p with
      layout := l
      decay := decay
      ops := p.ops ++ [.swap s.1 s.2] } ∧ DecayFits c decay := by
    have hfits := hp.decay
    unfold applySwap
    rw [hswap, ok_bind]
    cases hd : p.decay with
    | none => exact ⟨none, rfl, fun _ h => by contradiction⟩
    | some d =>
      rw [hd] at hfits
      obtain ⟨d', hreg, hd'⟩ := registerSwap_total hfits h₁ h₂
      exact ⟨some d', by dsimp only; rw [hreg]; rfl, hd'⟩
  obtain ⟨decay, happly, hfits⟩ := happly
  have hlog : emitted (p.ops ++ [.swap s.1 s.2]) = emitted p.ops := by
    rw [emitted_append]
    exact List.append_nil _
  refine ⟨_, happly, ⟨?_, rfl, rfl, rfl, hpos⟩⟩
  exact {
    linked := hp.linked
    frontier := hlog ▸ hp.frontier
    executes := hp.executes.append (.swap hs hswap (.done l))
    matching := hmatch
    numPhysical := hnum.trans hphys
    numVirtual := by
      show circuit.numQubits ≤ l.position.length
      rw [hpos, List.length_map]
      exact hp.numVirtual
    decay := hfits }

/-- Swaps of coupled qubits are carried out one after the other. -/
theorem applySwaps_total (hc : c.Connected) (hp : Sound c circuit start p) {swaps : List Swap}
    (hswaps : ∀ s ∈ swaps, c.coupled s.1 s.2 = true) :
    ∃ p', swaps.foldlM applySwap p = .ok p' ∧ Moved c circuit start p swaps p' := by
  refine foldlM_total (fun done p' => Moved c circuit start p done p') ?_ ?_
  · exact ⟨hp, rfl, rfl, (List.append_nil _).symm, (List.map_id _).symm⟩
  · intro done s rest p₁ hsplit h₁
    have hs := hswaps s (by simp [hsplit])
    obtain ⟨p₂, happly, h₂⟩ := applySwap_total hc h₁.sound hs
    refine ⟨p₂, happly, h₂.sound, h₂.frontier_eq.trans h₁.frontier_eq,
      h₂.stats_eq.trans h₁.stats_eq, ?_, ?_⟩
    · rw [h₂.ops_eq, h₁.ops_eq, List.map_append, List.append_assoc]
    · rw [h₂.position_eq, h₁.position_eq, List.map_map]
      refine List.map_congr_left fun x _ => ?_
      rw [carried_append]
      rfl

end Progress

end QubitRouting
