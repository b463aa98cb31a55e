import QubitRouting.Circuit
import QubitRouting.Proofs.Checked
import Mathlib.Data.List.Induction
import Mathlib.Data.List.Nodup

/-!
# What waits for what in a circuit

An operation depends on the last operation before it on each of its qubits (`Depends`). `Circuit.Linked`
says that the arcs of a circuit are exactly these dependencies, each listed once, and that the first
layer holds the operations without one. `ofOps_linked` shows that every circuit is built so: an operation is
entered qubit by qubit, and `Wiring.After` says how far that has come.

Dependencies order any two operations that share a qubit: whatever contains the dependencies of `j` and
of each of its own members contains every earlier operation that shares a qubit with `j`
(`mem_of_shared`).
-/

namespace QubitRouting

/-! ## Dependencies in a list of operations -/

/-- Operation `k` of the list acts on `q`. -/
def ActsOn (ops : List Op) (k : Nat) (q : VirtualQubit) : Prop :=
  ∃ op, ops[k]? = some op ∧ q ∈ op.qubits

/-- Operation `k` is the last one before `bound` that acts on `q`. -/
def LastOn (ops : List Op) (k bound : Nat) (q : VirtualQubit) : Prop :=
  k < bound ∧ ActsOn ops k q ∧ ∀ m, k < m → m < bound → ¬ ActsOn ops m q

/-- Operation `k` waits for operation `p`, the last one before it on one of its qubits. -/
def Depends (ops : List Op) (p k : Nat) : Prop :=
  ∃ q, ActsOn ops k q ∧ LastOn ops p k q

theorem ActsOn.lt_length {ops : List Op} {k : Nat} {q : VirtualQubit} (h : ActsOn ops k q) :
    k < ops.length :=
  let ⟨_, hop, _⟩ := h
  (List.getElem?_eq_some_iff.mp hop).1

theorem actsOn_concat_iff {ops : List Op} {op : Op} {k : Nat} {q : VirtualQubit} :
    ActsOn (ops ++ [op]) k q ↔ k = ops.length ∧ q ∈ op.qubits ∨ ActsOn ops k q := by
  unfold ActsOn
  simp only [getElem?_concat_eq_some_iff]
  constructor
  · intro hex
    rcases hex with ⟨op', ⟨rfl, hk⟩ | hop, hq⟩
    · exact .inl ⟨hk, hq⟩
    · exact .inr ⟨op', hop, hq⟩
  · intro hcase
    rcases hcase with ⟨hk, hq⟩ | ⟨op', hop, hq⟩
    · exact ⟨op, .inl ⟨rfl, hk⟩, hq⟩
    · exact ⟨op', .inr hop, hq⟩

theorem actsOn_concat_of_lt {ops : List Op} {op : Op} {k : Nat} {q : VirtualQubit}
    (h : k < ops.length) : ActsOn (ops ++ [op]) k q ↔ ActsOn ops k q := by
  rw [actsOn_concat_iff]
  exact or_iff_right fun h' => Nat.ne_of_lt h h'.1

/-- What comes after the bound does not matter. -/
theorem lastOn_concat_iff {ops : List Op} {op : Op} {k bound : Nat} {q : VirtualQubit}
    (h : bound ≤ ops.length) : LastOn (ops ++ [op]) k bound q ↔ LastOn ops k bound q := by
  unfold LastOn
  refine and_congr_right fun hk => ?_
  rw [actsOn_concat_of_lt (by omega)]
  refine and_congr_right fun _ => forall_congr' fun m => ?_
  refine imp_congr_right fun _ => imp_congr_right fun hm => ?_
  rw [actsOn_concat_of_lt (by omega)]

/-- A further operation is the last one on its qubits, and changes nothing for the others. -/
theorem lastOn_concat_length_iff {ops : List Op} {op : Op} {k : Nat} {q : VirtualQubit} :
    LastOn (ops ++ [op]) k (ops.length + 1) q ↔
      if q ∈ op.qubits then k = ops.length else LastOn ops k ops.length q := by
  split
  next hq =>
    constructor
    · intro ⟨hk, _, hlast⟩
      by_cases hlt : k < ops.length
      · exact absurd (actsOn_concat_iff.mpr (.inl ⟨rfl, hq⟩)) (hlast ops.length hlt (by omega))
      · omega
    · intro hk
      exact ⟨by omega, actsOn_concat_iff.mpr (.inl ⟨hk, hq⟩), fun m h₁ h₂ => by omega⟩
  next hq =>
    constructor
    · intro ⟨hk, hacts, hlast⟩
      have hold : ActsOn ops k q :=
        (actsOn_concat_iff.mp hacts).resolve_left fun h => hq h.2
      refine ⟨hold.lt_length, hold, fun m h₁ h₂ hm => ?_⟩
      exact hlast m h₁ (by omega) (actsOn_concat_iff.mpr (.inr hm))
    · intro ⟨hk, hacts, hlast⟩
      refine ⟨by omega, actsOn_concat_iff.mpr (.inr hacts), fun m h₁ _ hm => ?_⟩
      have hold : ActsOn ops m q := (actsOn_concat_iff.mp hm).resolve_left fun h => hq h.2
      exact hlast m h₁ hold.lt_length hold

theorem depends_concat_iff {ops : List Op} {op : Op} {p k : Nat} : Depends (ops ++ [op]) p k ↔
    k = ops.length ∧ (∃ q ∈ op.qubits, LastOn ops p ops.length q) ∨ Depends ops p k := by
  unfold Depends
  constructor
  · intro ⟨q, hacts, hlast⟩
    rcases actsOn_concat_iff.mp hacts with ⟨rfl, hq⟩ | hacts
    · exact .inl ⟨rfl, q, hq, (lastOn_concat_iff (Nat.le_refl _)).mp hlast⟩
    · exact .inr ⟨q, hacts, (lastOn_concat_iff (Nat.le_of_lt hacts.lt_length)).mp hlast⟩
  · intro hcase
    rcases hcase with ⟨rfl, q, hq, hlast⟩ | ⟨q, hacts, hlast⟩
    · exact ⟨q, actsOn_concat_iff.mpr (.inl ⟨rfl, hq⟩),
        (lastOn_concat_iff (Nat.le_refl _)).mpr hlast⟩
    · exact ⟨q, actsOn_concat_iff.mpr (.inr hacts),
        (lastOn_concat_iff (Nat.le_of_lt hacts.lt_length)).mpr hlast⟩

/-- Before an operation on `q` that comes after another one there is a last one. -/
theorem exists_lastOn {ops : List Op} {q : VirtualQubit} : ∀ {bound i : Nat}, i < bound →
    ActsOn ops i q → ∃ m, LastOn ops m bound q ∧ i ≤ m
  | bound + 1, i, hi, hacts => by
    by_cases hlast : ActsOn ops bound q
    · exact ⟨bound, ⟨by omega, hlast, fun m h₁ h₂ => by omega⟩, by omega⟩
    · have hne : i ≠ bound := fun h => hlast (h ▸ hacts)
      obtain ⟨m, ⟨hm, hm', hbetween⟩, hle⟩ := exists_lastOn (by omega : i < bound) hacts
      refine ⟨m, ⟨by omega, hm', fun n h₁ h₂ => ?_⟩, hle⟩
      by_cases hn : n = bound
      · rwa [hn]
      · exact hbetween n h₁ (by omega)

/-- A set that contains what its members wait for, and what `j` waits for, contains every operation
before `j` that shares a qubit with it. -/
theorem mem_of_shared {ops : List Op} (done : Nat → Prop) {q : VirtualQubit}
    (hdone : ∀ k, done k → ∀ p, Depends ops p k → done p) :
    ∀ {i j : Nat}, (∀ p, Depends ops p j → done p) → i < j → ActsOn ops i q → ActsOn ops j q →
      done i := by
  intro i j
  -- the last operation on the qubit before `j` is done, and `i` is that one or comes before it
  induction j using Nat.strongRecOn with
  | ind j ih =>
    intro hj hij hi hq
    obtain ⟨m, hm, hle⟩ := exists_lastOn hij hi
    have hmdone : done m := hj m ⟨q, hq, hm⟩
    by_cases heq : i = m
    · rwa [heq]
    · exact ih m hm.1 (hdone m hmdone) (by omega) hi hm.2.1

/-! ## Circuits -/

namespace Circuit

/-- The arcs are the dependencies, once each, and the first layer holds what waits for nothing. -/
structure Linked (c : Circuit) : Prop where
  qubits_lt : ∀ {k q}, ActsOn c.ops k q → q < c.numQubits
  pair_ne : ∀ {k : Nat} {a b}, c.ops[k]? = some (.pair a b) → a ≠ b
  mem_arcs_iff : ∀ {p k}, (p, k) ∈ c.arcs ↔ Depends c.ops p k
  arcs_nodup : c.arcs.Nodup
  mem_firstLayer_iff : ∀ {k}, k ∈ c.firstLayer ↔ k < c.size ∧ ∀ p, ¬ Depends c.ops p k
  firstLayer_nodup : c.firstLayer.Nodup

/-- A draft knows the last operation on each qubit. -/
structure Draft.Linked (d : Draft) : Prop where
  circuit : d.circuit.Linked
  length_latest : d.latest.length = d.circuit.numQubits
  latest_iff : ∀ (q : VirtualQubit) (k : Nat), d.latest[q]? = some (some k) ↔
    LastOn d.circuit.ops k d.circuit.ops.length q

/-! ### One more operation -/

/-- The wiring of operation `k` when it has acted on the qubits `done`: it waits for the latest operation of
the draft on each of them, and has become the latest itself. -/
structure Wiring.After (d : Draft) (k : Nat) (done : List VirtualQubit) (w : Wiring) : Prop where
  mem_arcs_iff : ∀ {p j}, (p, j) ∈ w.arcs ↔
    (p, j) ∈ d.circuit.arcs ∨ j = k ∧ ∃ q ∈ done, d.latest[q]? = some (some p)
  arcs_nodup : w.arcs.Nodup
  isFirst_iff : w.isFirst = true ↔ ∀ q ∈ done, ∀ p, d.latest[q]? ≠ some (some p)
  length_latest : w.latest.length = d.latest.length
  latest_eq : ∀ q : VirtualQubit, w.latest[q]? = if q ∈ done then some (some k) else d.latest[q]?

/-- One more qubit. It is different from those before it, so what is read there is what the draft has. -/
theorem Wiring.After.connect {d : Draft} {k : Nat} {done : List VirtualQubit} {w : Wiring} {q : VirtualQubit}
    (h : After d k done w) (hnew : q ∉ done) (hlt : q < d.latest.length) :
    After d k (done ++ [q]) (w.connect k q) := by
  have hread : w.latest[q]? = d.latest[q]? := by rw [h.latest_eq, if_neg hnew]
  have hlength : (w.latest.set q (some k)).length = d.latest.length := by
    rw [List.length_set, h.length_latest]
  have hwrite : ∀ x : VirtualQubit, (w.latest.set q (some k))[x]? =
      if x ∈ done ++ [q] then some (some k) else d.latest[x]? := by
    intro x
    by_cases hx : x = q
    · rw [hx, List.getElem?_set_self (h.length_latest ▸ hlt), if_pos (by simp)]
    · rw [List.getElem?_set_ne (Ne.symm hx), h.latest_eq]
      simp [hx]
  unfold Wiring.connect
  rw [hread]
  cases hlast : d.latest[q]?.join with
  | some p =>
    have hq : ∀ p', d.latest[q]? = some (some p') ↔ p' = p := by
      intro p'
      rw [Option.join_eq_some_iff.mp hlast, Option.some.injEq, Option.some.injEq, eq_comm]
    refine ⟨fun {p' j} => ?_, Graph.nodup_addArc h.arcs_nodup p k, ?_, hlength, hwrite⟩
    · simp only [Graph.mem_addArc_iff, h.mem_arcs_iff, List.mem_append, List.mem_singleton, or_and_right,
        exists_or, exists_eq_left, hq, Prod.mk.injEq]
      rw [and_or_left, or_assoc, and_comm (a := p' = p)]
    · refine iff_of_false Bool.false_ne_true fun hnone => ?_
      exact hnone q (by simp) p ((hq p).mpr rfl)
  | none =>
    have hq : ∀ p', d.latest[q]? ≠ some (some p') := by
      intro p' hp'
      rw [Option.join_eq_some_iff.mpr hp'] at hlast
      contradiction
    refine ⟨fun {p' j} => ?_, h.arcs_nodup, ?_, hlength, hwrite⟩
    · simp only [h.mem_arcs_iff, List.mem_append, List.mem_singleton, or_and_right, exists_or,
        exists_eq_left, hq, or_false]
    · simp only [h.isFirst_iff, List.mem_append, List.mem_singleton, or_imp, forall_and, forall_eq, hq,
        ne_eq, not_false_eq_true, implies_true, and_true]

theorem Draft.firstLayer_append_nodup {d : Draft} (hd : d.Linked) (op : Op) :
    (d.append op).circuit.firstLayer.Nodup := by
  show (if (d.wiring op).isFirst then _ else _ : List Nat).Nodup
  split
  next =>
    rw [List.nodup_append]
    refine ⟨hd.circuit.firstLayer_nodup, by simp, fun k hk j hj he => ?_⟩
    have hk' := (hd.circuit.mem_firstLayer_iff.mp hk).1
    rw [he, List.mem_singleton.mp hj] at hk'
    exact Nat.lt_irrefl _ hk'
  next => exact hd.circuit.firstLayer_nodup

section Append

variable {d : Draft} (hd : d.Linked) {op : Op} (hlt : ∀ q ∈ op.qubits, q < d.circuit.numQubits)
  (hne : ∀ a b, op = .pair a b → a ≠ b)
include hd hlt hne

theorem Draft.after_wiring : Wiring.After d d.circuit.ops.length op.qubits (d.wiring op) := by
  have hnodup : op.qubits.Nodup := by
    cases op with
    | single q => exact List.nodup_singleton q
    | pair a b => simpa [Op.qubits] using hne a b rfl
  rw [← hd.length_latest] at hlt
  unfold Draft.wiring
  generalize op.qubits = qs at hnodup hlt
  -- the loop, one qubit after the other
  induction qs using List.reverseRecOn with
  | nil => exact ⟨by simp, hd.circuit.arcs_nodup, by simp, rfl, by simp⟩
  | append_singleton qs q ih =>
    obtain ⟨hqs, -, hnew⟩ := List.nodup_append.mp hnodup
    rw [List.foldl_concat]
    refine (ih hqs fun x hx => hlt x (List.mem_append_left _ hx)).connect (fun hq => ?_) (hlt q (by simp))
    exact hnew q hq q (List.mem_singleton_self q) rfl

/-- The new arcs come from the latest operations on the qubits of the new one. -/
theorem Draft.mem_arcs_append_iff {p k : Nat} :
    (p, k) ∈ (d.append op).circuit.arcs ↔ Depends (d.circuit.ops ++ [op]) p k := by
  show (p, k) ∈ (d.wiring op).arcs ↔ _
  rw [(Draft.after_wiring hd hlt hne).mem_arcs_iff, depends_concat_iff, hd.circuit.mem_arcs_iff, or_comm]
  simp only [hd.latest_iff]

/-- The new operation waits for nothing if and only if no qubit has led to another one. -/
theorem Draft.not_depends_length_iff :
    (∀ p, ¬ Depends (d.circuit.ops ++ [op]) p d.circuit.ops.length) ↔ (d.wiring op).isFirst = true := by
  have hold : ∀ p, ¬ Depends d.circuit.ops p d.circuit.ops.length := fun p ⟨_, hacts, _⟩ =>
    Nat.lt_irrefl _ hacts.lt_length
  rw [(Draft.after_wiring hd hlt hne).isFirst_iff]
  simp only [depends_concat_iff, hold, hd.latest_iff, true_and, or_false, not_exists, not_and, ne_eq]
  exact ⟨fun h q hq p => h p q hq, fun h p q hq => h q hq p⟩

theorem Draft.mem_firstLayer_append_iff {k : Nat} : k ∈ (d.append op).circuit.firstLayer ↔
    k < d.circuit.ops.length + 1 ∧ ∀ p, ¬ Depends (d.circuit.ops ++ [op]) p k := by
  show k ∈ (if (d.wiring op).isFirst then _ else _) ↔ _
  by_cases hk : k = d.circuit.ops.length
  · rw [hk, Draft.not_depends_length_iff hd hlt hne]
    have hnot : d.circuit.ops.length ∉ d.circuit.firstLayer := fun h =>
      Nat.lt_irrefl _ (hd.circuit.mem_firstLayer_iff.mp h).1
    by_cases hfirst : (d.wiring op).isFirst = true
    · rw [if_pos hfirst]
      simp [hfirst]
    · rw [if_neg hfirst]
      simp [hfirst, hnot]
  · -- the other operations depend on what they depended on before
    have hdep : ∀ p, Depends (d.circuit.ops ++ [op]) p k ↔ Depends d.circuit.ops p k := fun p =>
      depends_concat_iff.trans (or_iff_right fun h => hk h.1)
    have hother : k ∈ d.circuit.firstLayer ↔ k < d.circuit.ops.length + 1 ∧
        ∀ p, ¬ Depends (d.circuit.ops ++ [op]) p k := by
      rw [hd.circuit.mem_firstLayer_iff, Circuit.size]
      simp only [hdep]
      refine and_congr_left fun _ => ?_
      omega
    split
    next => simp [hk, hother]
    next => exact hother

theorem Draft.latest_append_iff (q : VirtualQubit) (k : Nat) :
    (d.append op).latest[q]? = some (some k) ↔
      LastOn (d.circuit.ops ++ [op]) k (d.circuit.ops.length + 1) q := by
  show (d.wiring op).latest[q]? = some (some k) ↔ _
  rw [lastOn_concat_length_iff, (Draft.after_wiring hd hlt hne).latest_eq]
  split
  next => simp [eq_comm]
  next => exact hd.latest_iff q k

/-- Adding an operation on different qubits of the circuit keeps a draft linked. -/
theorem Draft.Linked.append : (d.append op).Linked := by
  have hwiring := Draft.after_wiring hd hlt hne
  have hlen : (d.circuit.ops ++ [op]).length = d.circuit.ops.length + 1 := by simp
  refine ⟨⟨fun {k q} h => ?_, fun {k a b} h => ?_, Draft.mem_arcs_append_iff hd hlt hne,
    hwiring.arcs_nodup, fun {k} => ?_, Draft.firstLayer_append_nodup hd op⟩,
    hwiring.length_latest.trans hd.length_latest, fun q k => ?_⟩
  · rcases actsOn_concat_iff.mp h with ⟨-, hq⟩ | h
    · exact hlt q hq
    · exact hd.circuit.qubits_lt h
  · rcases getElem?_concat_eq_some_iff.mp h with ⟨h, -⟩ | h
    · exact hne a b h.symm
    · exact hd.circuit.pair_ne h
  · show k ∈ (d.append op).circuit.firstLayer ↔ k < (d.circuit.ops ++ [op]).length ∧ _
    rw [hlen]
    exact Draft.mem_firstLayer_append_iff hd hlt hne
  · show _ ↔ LastOn (d.circuit.ops ++ [op]) k (d.circuit.ops ++ [op]).length q
    rw [hlen]
    exact Draft.latest_append_iff hd hlt hne q k

end Append

theorem lt_of_find? {n k : Nat} {qubits : List VirtualQubit} {op op' : Op}
    (h : (match qubits.find? fun q => decide (n ≤ q) with
      | some q => throw (.qubitOutOfRange k q n)
      | none => return op' : Except CircuitError Op) = .ok op) :
    op' = op ∧ ∀ q ∈ qubits, q < n := by
  split at h
  next => contradiction
  next hfind =>
    refine ⟨Except.ok.inj h, fun q hq => ?_⟩
    have := List.find?_eq_none.mp hfind q hq
    simpa using this

/-- An accepted operation has the listed qubits, all in range and different from one another. -/
theorem ofQubits_eq_ok {n k : Nat} {qubits : List VirtualQubit} {op : Op}
    (h : Op.ofQubits n k qubits = .ok op) :
    op.qubits = qubits ∧ (∀ q ∈ qubits, q < n) ∧ ∀ a b, op = .pair a b → a ≠ b := by
  unfold Op.ofQubits at h
  dsimp only at h
  split at h
  next => contradiction
  next q =>
    obtain ⟨rfl, hlt⟩ := lt_of_find? h
    exact ⟨rfl, hlt, fun a b h => by contradiction⟩
  next a b =>
    split at h
    next => contradiction
    next hab =>
      obtain ⟨rfl, hlt⟩ := lt_of_find? h
      refine ⟨rfl, hlt, fun a' b' h => ?_⟩
      obtain ⟨rfl, rfl⟩ := Op.pair.inj h
      exact hab
  next => contradiction

theorem Draft.linked_start (n : Nat) :
    Draft.Linked ⟨⟨n, [], [], []⟩, List.replicate n none⟩ := by
  have hno : ∀ {k q}, ¬ ActsOn [] k q := fun h => absurd h.lt_length (Nat.not_lt_zero _)
  refine ⟨⟨fun h => absurd h hno, fun h => ?_, ?_, List.nodup_nil, ?_, List.nodup_nil⟩, by simp, ?_⟩
  · simp at h
  · intro p k
    refine ⟨fun h => absurd h List.not_mem_nil, fun ⟨q, h, _⟩ => absurd h hno⟩
  · intro k
    refine ⟨fun h => absurd h List.not_mem_nil, fun h => absurd h.1 (Nat.not_lt_zero _)⟩
  · intro q k
    refine ⟨fun h => ?_, fun h => absurd h.2.1 hno⟩
    simp [List.getElem?_replicate] at h

/-- A circuit has the listed operations, and its arcs are their dependencies. -/
theorem ofOps_linked {n : Nat} {input : List (List VirtualQubit)} {c : Circuit}
    (h : ofOps n input = .ok c) :
    c.Linked ∧ c.numQubits = n ∧ c.ops.map Op.qubits = input := by
  obtain ⟨d, hd, hc⟩ := bind_eq_ok_iff.mp h
  obtain rfl := Except.ok.inj hc
  have hinv : d.Linked ∧ d.circuit.numQubits = n ∧ d.circuit.ops.map Op.qubits = input := by
    refine foldlM_invariant hd (fun done (d : Draft) => d.Linked ∧ d.circuit.numQubits = n ∧
      d.circuit.ops.map Op.qubits = done) ⟨Draft.linked_start n, rfl, rfl⟩ ?_
    intro done qubits rest d d' _ ⟨hlinked, hn, hops⟩ hext
    obtain ⟨op, hop, hd'⟩ := bind_eq_ok_iff.mp hext
    obtain rfl := Except.ok.inj hd'
    obtain ⟨hqubits, hrange, hne⟩ := ofQubits_eq_ok hop
    refine ⟨hlinked.append (hqubits ▸ hrange) hne, hn, ?_⟩
    show (d.circuit.ops ++ [op]).map Op.qubits = done ++ [qubits]
    rw [List.map_append, hops, ← hqubits]
    rfl
  exact ⟨hinv.1.circuit, hinv.2⟩

end Circuit

end QubitRouting
