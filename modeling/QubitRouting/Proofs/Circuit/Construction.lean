import QubitRouting.Proofs.Circuit.Dependencies
import Mathlib.Data.List.Nodup
import Mathlib.Logic.Relation

/-!
# Which lists of operations are circuits

A list of operations is a circuit if and only if each of them acts on one qubit or on two different ones, all in
range (`Admissible`). Otherwise the error is about the first operation for which this fails, and says what is
wrong with it (`CircuitError.Describes`).

`Circuit.Wired` says what a circuit is in terms of the list that it was built from. An arc leads from one
operation to another if they share a qubit that nothing between them acts on; whatever is connected by a chain of
shared qubits is connected by arcs, since the operations on one qubit follow one another
(`transGen_depends_of_shared`).
-/

namespace QubitRouting

/-! ## Operations that are refused -/

/-- An operation may act on one qubit or on two different ones, out of `n`. -/
def Admissible (n : Nat) : List VirtualQubit → Prop
  | [q] => q < n
  | [a, b] => a ≠ b ∧ a < n ∧ b < n
  | _ => False

instance (n : Nat) : DecidablePred (Admissible n)
  | [] => inferInstanceAs (Decidable False)
  | [q] => inferInstanceAs (Decidable (q < n))
  | [a, b] => inferInstanceAs (Decidable (a ≠ b ∧ a < n ∧ b < n))
  | _ :: _ :: _ :: _ => inferInstanceAs (Decidable False)

/-- The error is about operation `k` and is true of it, if these are its qubits. -/
def CircuitError.Describes (n k : Nat) (qubits : List VirtualQubit) : CircuitError → Prop
  | .qubitOutOfRange op q m => op = k ∧ m = n ∧ q ∈ qubits ∧ n ≤ q
  | .noQubits op => op = k ∧ qubits = []
  | .tooManyQubits op count => op = k ∧ count = qubits.length ∧ 2 < count
  | .repeatedQubit op q => op = k ∧ qubits = [q, q]

variable {n k : Nat} {qubits : List VirtualQubit} {input : List (List VirtualQubit)}

theorem Admissible.lt (h : Admissible n qubits) : ∀ q ∈ qubits, q < n := by
  intro q hq
  match qubits, h with
  | [x], h =>
    rw [List.mem_singleton.mp hq]
    exact h
  | [x, y], ⟨_, hx, hy⟩ =>
    rcases List.mem_cons.mp hq with rfl | hq
    · exact hx
    · rw [List.mem_singleton.mp hq]
      exact hy

/-- Nothing true can be said against an operation that is admissible. -/
theorem CircuitError.Describes.not_admissible {e : CircuitError} (h : e.Describes n k qubits) :
    ¬ Admissible n qubits := by
  intro hadm
  cases e with
  | qubitOutOfRange op q m =>
    obtain ⟨-, -, hq, hle⟩ := h
    exact Nat.not_lt.mpr hle (hadm.lt q hq)
  | noQubits op =>
    obtain ⟨-, rfl⟩ := h
    exact hadm
  | tooManyQubits op count =>
    obtain ⟨-, rfl, hlt⟩ := h
    match qubits, hadm with
    | [x], _ => exact absurd hlt (by simp)
    | [x, y], _ => exact absurd hlt (by simp)
  | repeatedQubit op q =>
    obtain ⟨-, rfl⟩ := h
    exact hadm.1 rfl

theorem admissible_of_ofQubits {op : Op} (h : Op.ofQubits n k qubits = .ok op) :
    Admissible n qubits := by
  obtain ⟨rfl, hlt, hne⟩ := Circuit.ofQubits_eq_ok h
  cases op with
  | single q => exact hlt q List.mem_cons_self
  | pair a b =>
    exact ⟨hne a b rfl, hlt a List.mem_cons_self, hlt b (List.mem_cons_of_mem a List.mem_cons_self)⟩

theorem describes_of_find? {op : Op} {e : CircuitError}
    (h : (match qubits.find? fun q => decide (n ≤ q) with
      | some q => throw (.qubitOutOfRange k q n)
      | none => return op : Except CircuitError Op) = .error e) : e.Describes n k qubits := by
  split at h
  next q hfind =>
    obtain rfl := Except.error.inj h
    have hle : decide (n ≤ q) = true := List.find?_some (p := fun q => decide (n ≤ q)) hfind
    exact ⟨rfl, rfl, List.mem_of_find?_eq_some hfind, of_decide_eq_true hle⟩
  next => contradiction

theorem describes_of_ofQubits {e : CircuitError} (h : Op.ofQubits n k qubits = .error e) :
    e.Describes n k qubits := by
  unfold Op.ofQubits at h
  dsimp only at h
  split at h
  next =>
    obtain rfl := Except.error.inj h
    exact ⟨rfl, rfl⟩
  next q => exact describes_of_find? h
  next a b =>
    split at h
    next hab =>
      obtain rfl := Except.error.inj h
      exact ⟨rfl, by rw [hab]⟩
    next => exact describes_of_find? h
  next hnil hone htwo =>
    obtain rfl := Except.error.inj h
    refine ⟨rfl, rfl, ?_⟩
    match qubits, hnil, hone, htwo with
    | [], hnil, _, _ => exact absurd rfl hnil
    | [q], _, hone, _ => exact absurd rfl (hone q)
    | [a, b], _, _, htwo => exact absurd rfl (htwo a b)
    | _ :: _ :: _ :: _, _, _, _ => simp

/-- An operation is accepted if and only if it is admissible. -/
theorem ofQubits_total (k : Nat) (h : Admissible n qubits) : ∃ op, Op.ofQubits n k qubits = .ok op := by
  cases hop : Op.ofQubits n k qubits with
  | ok op => exact ⟨op, rfl⟩
  | error e => exact absurd h (describes_of_ofQubits hop).not_admissible

/-! ## Chains of shared qubits -/

open Relation (TransGen)

/-- Between two operations on one qubit there is a chain of dependencies: each operation on the qubit depends on the
one before it. -/
theorem transGen_depends_of_shared {ops : List Op} {q : VirtualQubit} {i j : Nat} (hij : i < j)
    (hi : ActsOn ops i q) (hj : ActsOn ops j q) : TransGen (Depends ops) i j := by
  induction j using Nat.strongRecOn with
  | ind j ih =>
    obtain ⟨m, hm, hle⟩ := exists_lastOn hij hi
    have hlast : Depends ops m j := ⟨q, hj, hm⟩
    by_cases heq : i = m
    · rw [heq]
      exact .single hlast
    · exact (ih m hm.1 (by omega) hm.2.1).tail hlast

theorem transGen_depends_iff {ops : List Op} {i j : Nat} : TransGen (Depends ops) i j ↔
    TransGen (fun x y => x < y ∧ ∃ q, ActsOn ops x q ∧ ActsOn ops y q) i j := by
  constructor
  · refine TransGen.mono (fun x y h => ?_) i j
    obtain ⟨q, hy, hlt, hx, -⟩ := h
    exact ⟨hlt, q, hx, hy⟩
  · refine TransGen.closed (fun x y h => ?_) i j
    obtain ⟨hlt, q, hx, hy⟩ := h
    exact transGen_depends_of_shared hlt hx hy

/-! ## Circuits from lists -/

/-- Operation `k` of the list names the qubit `q`. -/
def Uses (input : List (List VirtualQubit)) (k : Nat) (q : VirtualQubit) : Prop :=
  ∃ qubits, input[k]? = some qubits ∧ q ∈ qubits

theorem uses_map_qubits_iff {ops : List Op} {q : VirtualQubit} :
    Uses (ops.map Op.qubits) k q ↔ ActsOn ops k q := by
  unfold Uses ActsOn
  simp only [List.getElem?_map, Option.map_eq_some_iff]
  constructor
  · rintro ⟨_, ⟨op, hop, rfl⟩, hq⟩
    exact ⟨op, hop, hq⟩
  · rintro ⟨op, hop, hq⟩
    exact ⟨op.qubits, ⟨op, hop, rfl⟩, hq⟩

namespace Circuit

/-- The circuit has the listed operations, and their order on each qubit. -/
structure Wired (n : Nat) (input : List (List VirtualQubit)) (c : Circuit) : Prop where
  numQubits_eq : c.numQubits = n
  /-- Operation `k` is the one at position `k` of the list. -/
  qubits_eq : c.ops.map Op.qubits = input
  /-- An arc leads from an operation to the next one on one of its qubits. -/
  mem_arcs_iff : ∀ i j, (i, j) ∈ c.arcs ↔
    i < j ∧ ∃ q, Uses input i q ∧ Uses input j q ∧ ∀ m, i < m → m < j → ¬ Uses input m q
  count_arcs : ∀ i j, (i, j) ∈ c.arcs → c.arcs.count (i, j) = 1
  /-- Arcs connect what a chain of shared qubits connects. -/
  connected_iff : ∀ i j, TransGen (fun x y => (x, y) ∈ c.arcs) i j ↔
    TransGen (fun x y => x < y ∧ ∃ q, Uses input x q ∧ Uses input y q) i j
  firstLayer_ascending : c.firstLayer.Pairwise (· < ·)
  mem_firstLayer_iff : ∀ k, k ∈ c.firstLayer ↔ k < input.length ∧ ∀ i, (i, k) ∉ c.arcs

/-- An operation is entered into the first layer after all those that are there. -/
theorem Draft.firstLayer_append_ascending {d : Draft} (op : Op)
    (h : d.circuit.firstLayer.Pairwise (· < ·) ∧ ∀ k ∈ d.circuit.firstLayer, k < d.circuit.ops.length) :
    (d.append op).circuit.firstLayer.Pairwise (· < ·) ∧
      ∀ k ∈ (d.append op).circuit.firstLayer, k < (d.append op).circuit.ops.length := by
  obtain ⟨hascending, hlt⟩ := h
  have hlen : (d.append op).circuit.ops.length = d.circuit.ops.length + 1 := List.length_append
  rw [hlen]
  show (if (d.wiring op).isFirst then _ else _ : List Nat).Pairwise (· < ·) ∧
    ∀ k ∈ (if (d.wiring op).isFirst then _ else _ : List Nat), k < d.circuit.ops.length + 1
  split
  next =>
    refine ⟨List.pairwise_append.mpr ⟨hascending, List.pairwise_singleton _ _, ?_⟩, fun k hk => ?_⟩
    · intro k hk j hj
      rw [List.mem_singleton.mp hj]
      exact hlt k hk
    · rcases List.mem_append.mp hk with hk | hk
      · exact Nat.lt_succ_of_lt (hlt k hk)
      · rw [List.mem_singleton.mp hk]
        exact Nat.lt_succ_self _
  next => exact ⟨hascending, fun k hk => Nat.lt_succ_of_lt (hlt k hk)⟩

theorem ofOps_firstLayer_ascending {c : Circuit} (h : ofOps n input = .ok c) :
    c.firstLayer.Pairwise (· < ·) := by
  obtain ⟨d, hd, hc⟩ := bind_eq_ok_iff.mp h
  obtain rfl := Except.ok.inj hc
  refine (foldlM_invariant hd (fun _ (d : Draft) => d.circuit.firstLayer.Pairwise (· < ·) ∧
    ∀ k ∈ d.circuit.firstLayer, k < d.circuit.ops.length) ⟨.nil, by simp⟩ ?_).1
  intro done qubits rest d d' _ hinv hext
  obtain ⟨op, -, hd'⟩ := bind_eq_ok_iff.mp hext
  obtain rfl := Except.ok.inj hd'
  exact Draft.firstLayer_append_ascending op hinv

theorem ofOps_wired {c : Circuit} (h : ofOps n input = .ok c) : c.Wired n input := by
  obtain ⟨hlinked, hn, rfl⟩ := ofOps_linked h
  refine ⟨hn, rfl, fun i j => ?_, fun i j hmem => ?_, fun i j => ?_, ofOps_firstLayer_ascending h,
    fun k => ?_⟩
  · rw [hlinked.mem_arcs_iff]
    simp only [uses_map_qubits_iff]
    constructor
    · rintro ⟨q, hj, hlt, hi, hlast⟩
      exact ⟨hlt, q, hi, hj, hlast⟩
    · rintro ⟨hlt, q, hi, hj, hlast⟩
      exact ⟨q, hj, hlt, hi, hlast⟩
  · exact List.count_eq_one_of_mem hlinked.arcs_nodup hmem
  · simp only [hlinked.mem_arcs_iff, uses_map_qubits_iff]
    exact transGen_depends_iff
  · rw [hlinked.mem_firstLayer_iff, List.length_map]
    simp only [hlinked.mem_arcs_iff]
    rfl

/-! ## Success and failure -/

theorem admissible_of_ofOps {c : Circuit} (h : ofOps n input = .ok c) :
    ∀ qubits ∈ input, Admissible n qubits := by
  obtain ⟨d, hd, -⟩ := bind_eq_ok_iff.mp h
  have hinv : d.circuit.numQubits = n ∧ ∀ qubits ∈ input, Admissible n qubits := by
    refine foldlM_invariant hd (fun done (d : Draft) => d.circuit.numQubits = n ∧
      ∀ qubits ∈ done, Admissible n qubits) ⟨rfl, by simp⟩ ?_
    intro done qubits rest d d' _ ⟨hn, hdone⟩ hext
    obtain ⟨op, hop, hd'⟩ := bind_eq_ok_iff.mp hext
    obtain rfl := Except.ok.inj hd'
    refine ⟨hn, fun qubits' hmem => ?_⟩
    rcases List.mem_append.mp hmem with hmem | hmem
    · exact hdone qubits' hmem
    · rw [List.mem_singleton.mp hmem, ← hn]
      exact admissible_of_ofQubits hop
  exact hinv.2

theorem ofOps_total (h : ∀ qubits ∈ input, Admissible n qubits) : ∃ c, ofOps n input = .ok c := by
  have htotal : ∃ d, input.foldlM Draft.extend ⟨⟨n, [], [], []⟩, List.replicate n none⟩ = .ok d ∧
      d.circuit.numQubits = n := by
    refine foldlM_total (fun _ (d : Draft) => d.circuit.numQubits = n) rfl ?_
    intro done qubits rest d hinput hn
    have hadm : Admissible d.circuit.numQubits qubits := by
      rw [hn]
      exact h qubits (hinput ▸ List.mem_append_right done List.mem_cons_self)
    obtain ⟨op, hop⟩ := ofQubits_total d.circuit.ops.length hadm
    exact ⟨d.append op, bind_eq_ok_iff.mpr ⟨op, hop, rfl⟩, hn⟩
  obtain ⟨d, hd, -⟩ := htotal
  exact ⟨d.circuit, bind_eq_ok_iff.mpr ⟨d, hd, rfl⟩⟩

/-- The error is about the first operation that is refused. -/
theorem ofOps_eq_error {e : CircuitError} (h : ofOps n input = .error e) :
    ∃ done qubits rest, input = done ++ qubits :: rest ∧ (∀ earlier ∈ done, Admissible n earlier) ∧
      e.Describes n done.length qubits := by
  have hfold : input.foldlM Draft.extend ⟨⟨n, [], [], []⟩, List.replicate n none⟩ = .error e := by
    rcases bind_eq_error_iff.mp h with hfold | ⟨_, _, hpure⟩
    · exact hfold
    · contradiction
  obtain ⟨done, qubits, rest, d, hinput, hdone, hbad⟩ := foldlM_eq_error hfold
  -- the operations before it are a circuit, so they are admissible and it has their number
  have hcircuit : ofOps n done = .ok d.circuit := bind_eq_ok_iff.mpr ⟨d, hdone, rfl⟩
  obtain ⟨-, hn, hops⟩ := ofOps_linked hcircuit
  have hlen : d.circuit.ops.length = done.length := by rw [← hops, List.length_map]
  refine ⟨done, qubits, rest, hinput, admissible_of_ofOps hcircuit, ?_⟩
  rcases bind_eq_error_iff.mp hbad with hop | ⟨_, _, hpure⟩
  · rw [hn, hlen] at hop
    exact describes_of_ofQubits hop
  · contradiction

/-- A list becomes a circuit if and only if all of its operations are admissible, and the circuit is wired as the
list says. Otherwise the error describes the first operation that is not. -/
theorem ofOps_builds (n : Nat) (input : List (List VirtualQubit)) :
    ((∃ c, ofOps n input = .ok c) ↔ ∀ qubits ∈ input, Admissible n qubits) ∧
      (∀ c, ofOps n input = .ok c → c.Wired n input) ∧
      ∀ e, ofOps n input = .error e → ∃ k qubits, input[k]? = some qubits ∧ ¬ Admissible n qubits ∧
        (∀ j < k, ∀ earlier, input[j]? = some earlier → Admissible n earlier) ∧
        e.Describes n k qubits := by
  refine ⟨⟨fun ⟨c, hc⟩ => admissible_of_ofOps hc, ofOps_total⟩, fun c => ofOps_wired, fun e he => ?_⟩
  obtain ⟨done, qubits, rest, rfl, hdone, hdesc⟩ := ofOps_eq_error he
  refine ⟨done.length, qubits, by simp, hdesc.not_admissible, fun j hj earlier hearlier => ?_, hdesc⟩
  rw [List.getElem?_append_left hj] at hearlier
  exact hdone earlier (List.mem_of_getElem? hearlier)

/-- The second operation on a pair waits for the first one by a single arc, though it shares two qubits with it. A
repeated qubit is reported before a qubit out of range that comes later. -/
theorem ofOps_builds_pair_twice : (∃ c, ofOps 3 [[0, 1], [2], [1, 0]] = .ok c ∧
      c.Wired 3 [[0, 1], [2], [1, 0]] ∧ c.arcs = [(0, 2)] ∧ c.firstLayer = [0, 1]) ∧
    (¬ ∃ c, ofOps 3 [[0], [1, 1], [5]] = .ok c) ∧
    ofOps 3 [[0], [1, 1], [5]] = .error (.repeatedQubit 1 1) ∧
    ∃ k qubits, [[0], [1, 1], [5]][k]? = some qubits ∧ ¬ Admissible 3 qubits ∧
      (CircuitError.repeatedQubit 1 1).Describes 3 k qubits := by
  obtain ⟨haccepted, -, herror⟩ := ofOps_builds 3 [[0], [1, 1], [5]]
  refine ⟨⟨_, rfl, (ofOps_builds 3 [[0, 1], [2], [1, 0]]).2.1 _ rfl, rfl, rfl⟩,
    mt haccepted.mp (by decide), rfl, ?_⟩
  obtain ⟨k, qubits, hk, hbad, -, hdesc⟩ := herror _ rfl
  exact ⟨k, qubits, hk, hbad, hdesc⟩

end Circuit

end QubitRouting
