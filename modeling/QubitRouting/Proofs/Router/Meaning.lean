import QubitRouting.Proofs.Circuit.Schedules
import QubitRouting.Proofs.Router.Runs

/-!
# Routing keeps the meaning of a circuit

Put the values of the virtual qubits into the registers where a layout places them and run a routed
circuit on the registers. `Executes.simulates` says that the registers keep holding the values: an
operation changes registers as it changes values, and a swap moves the contents of two registers as it
moves two positions. What the values go through is the schedule of the emitted operations, which has the
effect of the circuit itself (`Interpretation.run_of_scheduled`).
-/

namespace QubitRouting

namespace Interpretation

variable {V : Type} (I : Interpretation V)

/-- An entry of a routed circuit acts on the registers of the device. -/
def actRouted (file : Qubit → V) : RoutedOp → Qubit → V
  | .gate k qubits => I.act k file qubits
  | .swap a b => exchangeContents file (a, b)

/-- The entries of a routed circuit act one after the other. -/
def runRouted (ops : List RoutedOp) (file : Qubit → V) : Qubit → V :=
  ops.foldl I.actRouted file

end Interpretation

namespace Layout

variable {V : Type}

/-- The register where a virtual qubit sits holds its value. -/
def Holds (l : Layout) (file : Qubit → V) (values : VirtualQubit → V) : Prop :=
  ∀ (v : VirtualQubit) (p : Qubit), l.position[v]? = some p → file p = values v

/-- An operation does to the registers what it does to the values. -/
theorem Holds.act {I : Interpretation V} {l : Layout} {file : Qubit → V} {values : VirtualQubit → V}
    (hl : l.Matching) (h : l.Holds file values) {k : Nat} {vs : List VirtualQubit} {qs : List Qubit}
    (hqs : List.Forall₂ (fun v q => l.position[v]? = some q) vs qs) :
    l.Holds (I.act k file qs) (I.act k values vs) := by
  intro v p hv
  -- different qubits have different registers, so an update hits `p` exactly if it hits `v`
  have hiff : ∀ {w q}, l.position[w]? = some q → (p = q ↔ v = w) := by
    intro w q hw
    constructor
    · intro he
      exact hl.injective hv (he ▸ hw)
    · intro he
      rw [he, hw] at hv
      exact (Option.some.inj hv).symm
  have hold := h v p hv
  cases hqs with
  | nil => exact hold
  | cons hw hqs =>
    cases hqs with
    | nil =>
      simp only [Interpretation.act, Function.update_apply, hold, h _ _ hw, hiff hw]
    | cons hw' hqs =>
      cases hqs with
      | nil =>
        simp only [Interpretation.act, Function.update_apply, hold, h _ _ hw, h _ _ hw', hiff hw,
          hiff hw']
      | cons => exact hold

/-- A swap moves the contents of two registers as it moves two positions. -/
theorem Holds.swap {l m : Layout} {file : Qubit → V} {values : VirtualQubit → V}
    (h : l.Holds file values) {a b : Qubit} (hm : m.position = l.position.map (swapNames a b)) :
    m.Holds (exchangeContents file (a, b)) values := by
  intro v p hp
  rw [hm, List.getElem?_map] at hp
  obtain ⟨q, hq, rfl⟩ := Option.map_eq_some_iff.mp hp
  show file (swapNames a b (swapNames a b q)) = values v
  rw [swapNames_swapNames]
  exact h v q hq

end Layout

/-- While a routed circuit runs, every value is where the layout of the moment says. -/
theorem Executes.simulates {V : Type} (I : Interpretation V) {c : Coupling} (hc : c.Connected)
    {input : List (List VirtualQubit)} {l l' : Layout} {ops : List RoutedOp}
    (h : Executes c input l ops l') : l.Matching → l.numPhysical = c.numQubits →
    ∀ {file : Qubit → V} {values : VirtualQubit → V}, l.Holds file values →
      l'.Holds (I.runRouted ops file) (I.run input (emitted ops) values) ∧
        l'.numVirtual = l.numVirtual := by
  induction h with
  | done l => exact fun _ _ _ _ hold => ⟨hold, rfl⟩
  | @gate l l' rest k vs qs hop hqs hpair hrest ih =>
    intro hmatch hnum file values hold
    have hplaced : List.Forall₂ (fun v q => l.position[v]? = some q) vs qs :=
      (forall₂_of_mapM hqs).imp fun _ _ h => Layout.toPhysical_eq_ok_iff.mp h
    have hstep := ih hmatch hnum (hold.act (I := I) (k := k) hmatch hplaced)
    have hrun : I.run input (emitted (.gate k qs :: rest)) values =
        I.run input (emitted rest) (I.act k values vs) := by
      show I.run input (emitted rest) (I.act k values (input[k]?.getD [])) = _
      rw [hop]
      rfl
    rw [hrun]
    exact hstep
  | @swap l m l' rest a b hab hswap hrest ih =>
    intro hmatch hnum file values hold
    obtain ⟨ha, hb⟩ := hc.lt hab
    obtain ⟨m', hm', hmatch', hpos, hnum'⟩ :=
      Layout.swapPhysical_total hmatch (hnum ▸ ha) (hnum ▸ hb)
    obtain rfl : m = m' := Except.ok.inj (hswap.symm.trans hm')
    obtain ⟨hstep, hvirtual⟩ := ih hmatch' (hnum'.trans hnum) (hold.swap hpos)
    refine ⟨hstep, hvirtual.trans ?_⟩
    show m.position.length = l.position.length
    rw [hpos, List.length_map]

namespace Router

/-- Start with the value of every virtual qubit in the register where the layout places it. The routed
circuit leaves in the register of the final layout what the operations of the circuit, in the given
order, make of the value. This holds for any meaning of the operations, and also for virtual qubits that
the circuit does not use. -/
theorem route_preserves_meaning {V : Type} (I : Interpretation V) {n m : Nat}
    {links : List (Qubit × Qubit)} {input : List (List VirtualQubit)} {coupling : Coupling}
    {config : Config} {r r' : Router} {circuit : Circuit} {layout : Layout} {result : Routing}
    (hcoupling : Coupling.ofLinks n links = .ok coupling) (hr : Used coupling config r)
    (hcircuit : Circuit.ofOps m input = .ok circuit) (hlayout : layout.Built)
    (hroute : r.route circuit layout = .ok (result, r')) {values : VirtualQubit → V}
    {file : Qubit → V} (hfile : ∀ v p, layout.toPhysical v = .ok p → file p = values v) :
    ∀ v < layout.numVirtual, ∃ p, result.finalLayout.toPhysical v = .ok p ∧
      I.runRouted result.ops file p = I.runAll input values v := by
  have hc := Coupling.ofLinks_connected hcoupling
  obtain ⟨-, -, hinput⟩ := Circuit.ofOps_linked hcircuit
  have hrouted := hr.routed_of_eq_ok hcoupling hcircuit hlayout hroute
  have hholds : layout.Holds file values :=
    fun v p hp => hfile v p (Layout.toPhysical_eq_ok_iff.mpr hp)
  obtain ⟨hend, hvirtual⟩ := 
    hrouted.executes.simulates I hc hlayout.matching hrouted.layoutFits.1 hholds
  have hrun := I.run_of_scheduled hrouted.scheduled hrouted.complete values
  rw [hrun, hinput] at hend
  intro v hv
  obtain ⟨p, hp, hpos⟩ := Layout.toPhysical_total (hvirtual ▸ hv)
  exact ⟨p, hp, hend v p hpos⟩

/-- Values that record which operations have acted on them, and on which of the two qubits. -/
def recording : Interpretation (List Nat) where
  one := fun k x => k :: x
  two := fun k x => (k :: x.1 ++ x.2, k :: x.2)

theorem lineRouter_preserves_meaning :
    ∃ result r', lineRouter.route threeOps gapped = .ok (result, r') ∧
      ∀ v < gapped.numVirtual, ∃ p, result.finalLayout.toPhysical v = .ok p ∧
        recording.runRouted result.ops (fun q => [q]) p =
          recording.runAll [[0, 2], [1], [0, 1]] (fun v => [gapped.site v]) v := by
  have hok : (lineRouter.route threeOps gapped).isOk = true := by decide +kernel
  obtain ⟨⟨result, r'⟩, hroute⟩ := exists_of_isOk hok
  refine ⟨result, r', hroute, ?_⟩
  refine route_preserves_meaning recording ofLinks_line used_lineRouter ofOps_threeOps built_gapped
    hroute fun v p hp => ?_
  rw [Layout.site_eq hp]

end Router

end QubitRouting
