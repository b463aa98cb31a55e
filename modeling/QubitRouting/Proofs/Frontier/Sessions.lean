import QubitRouting.Proofs.Frontier.Consistent

/-!
# The frontier in use

A session is a frontier together with what its user has seen of it: the operations that it answered to
requests to resolve, and the operations that were drained. Whatever is requested of the frontier of a
circuit, it never faults on a qubit of the circuit, and its counts, its ready list, its table of qubits
and its list of completed operations keep agreeing with each other and with the circuit
(`Session.run_exact`).

The invariant is `Frontier.Consistent`, which each request keeps (`Session.serve_total`). `Session.Exact`
spells out what it comes to, in terms of the arcs of the circuit.
-/

namespace QubitRouting

/-! ## Predecessors -/

namespace Circuit

/-- The operations that operation `k` waits for, once each. -/
def predecessors (c : Circuit) (k : Nat) : List Nat :=
  (List.range c.size).filter fun p => c.arcs.contains (p, k)

/-- Does operation `k` act on two qubits? -/
def isPair (c : Circuit) (k : Nat) : Bool :=
  (c.ops[k]?.bind Op.interaction?).isSome

theorem predecessors_nodup (c : Circuit) (k : Nat) : (c.predecessors k).Nodup :=
  List.nodup_range.filter _

variable {c : Circuit} (hc : c.Linked)
include hc

theorem mem_predecessors_iff {p k : Nat} : p ∈ c.predecessors k ↔ Depends c.ops p k := by
  unfold predecessors
  rw [List.mem_filter, List.mem_range, List.contains_iff_mem, hc.mem_arcs_iff]
  refine and_iff_right_of_imp fun h => ?_
  obtain ⟨hlt, hlen⟩ := depends_lt h
  exact Nat.lt_trans hlt hlen

theorem available_iff {log : List Nat} {k : Nat} :
    c.Available log k ↔ k < c.size ∧ k ∉ log ∧ c.predecessors k ⊆ log := by
  unfold Available
  simp only [List.subset_def, mem_predecessors_iff hc]

/-- There is one arc for each predecessor, so counting arcs counts predecessors. -/
theorem unmet_eq_length (log : List Nat) (k : Nat) :
    c.unmet log k = ((c.predecessors k).filter fun p => !log.contains p).length := by
  have hperm : ((c.arcs.filter fun e => e.2 == k && !log.contains e.1).map (·.1)).Perm
      ((c.predecessors k).filter fun p => !log.contains p) := by
    refine (List.perm_ext_iff_of_nodup ?_ ((c.predecessors_nodup k).filter _)).mpr fun p => ?_
    · refine List.Nodup.map_on (fun e he e' he' heq => Prod.ext heq ?_) (hc.arcs_nodup.filter _)
      simp only [List.mem_filter, Bool.and_eq_true, beq_iff_eq] at he he'
      exact he.2.1.trans he'.2.1.symm
    · rw [List.mem_filter, mem_predecessors_iff hc, ← hc.mem_arcs_iff, List.mem_map]
      constructor
      · intro ⟨e, he, hp⟩
        simp only [List.mem_filter, Bool.and_eq_true, beq_iff_eq] at he
        obtain ⟨he, rfl, hlog⟩ := he
        exact ⟨hp ▸ he, hp ▸ hlog⟩
      · intro ⟨harc, hlog⟩
        exact ⟨(p, k), List.mem_filter.mpr ⟨harc, by simpa using hlog⟩, rfl⟩
  rw [unmet, List.countP_eq_length_filter, ← hperm.length_eq, List.length_map]

end Circuit

namespace Frontier

theorem filter_isPair_of_singles {c : Circuit} {l : List Nat} (h : Singles c l) :
    l.filter c.isPair = [] := by
  refine List.filter_eq_nil_iff.mpr fun k hk => ?_
  obtain ⟨q, hop⟩ := h k hk
  simp [Circuit.isPair, hop, Op.interaction?]

end Frontier

/-! ## Sessions -/

/-- What can be requested of a frontier. -/
inductive Request where
  | resolve (a b : VirtualQubit)
  | drain
deriving DecidableEq, Repr

/-- A frontier in use. -/
structure Session where
  frontier : Frontier
  /-- The operations answered to requests to resolve. -/
  resolved : List Nat
  /-- The operations that were drained. -/
  drained : List Nat
deriving DecidableEq, Repr

namespace Session

open Frontier (Consistent qubitsOf)

/-- The completed operations: those drained, and those that the frontier still lists. -/
def log (s : Session) : List Nat :=
  s.drained ++ s.frontier.completed

/-- Answer one request. -/
def serve (s : Session) : Request → Except Fault Session
  | .resolve a b => do
    match ← s.frontier.resolve? a b with
    | some (k, frontier) => return { s with frontier, resolved := s.resolved ++ [k] }
    | none => return s
  | .drain =>
    .ok { s with frontier := s.frontier.drain.2, drained := s.drained ++ s.frontier.drain.1 }

/-- Answer requests to the frontier of a circuit, one after the other. -/
def run (c : Circuit) (requests : List Request) : Except Fault Session := do
  let f ← Frontier.start c
  requests.foldlM serve ⟨f, [], []⟩

/-! ## What each request keeps -/

/-- A request that is refused changes nothing. -/
theorem serve_of_resolve?_none {s : Session} {a b : VirtualQubit}
    (h : s.frontier.resolve? a b = .ok none) : s.serve (.resolve a b) = .ok s := by
  simp only [serve, h, ok_bind, pure_eq_ok]

/-- The frontier is the one after everything completed, and of that exactly the operations on two qubits
were resolved. -/
structure Sound (c : Circuit) (s : Session) : Prop where
  consistent : Consistent c s.drained [] s.frontier
  resolved_eq : s.resolved = s.log.filter c.isPair

/-- Any request can be served, and leaves the session sound. -/
theorem serve_total {c : Circuit} (hc : c.Linked) {s : Session} (hs : s.Sound c) (request : Request)
    (hin : ∀ a b, request = .resolve a b → a < c.numQubits) :
    ∃ s', s.serve request = .ok s' ∧ s'.Sound c := by
  cases request with
  | resolve a b =>
    by_cases hex : ∃ i ∈ s.frontier.ready, i.isOn a b = true
    · obtain ⟨i, hi, hon⟩ := hex
      obtain ⟨f, new, hresolve, hf, hcompleted, hnew, -⟩ :=
        Frontier.resolve?_total hc hs.consistent hi hon
      refine ⟨⟨f, s.resolved ++ [i.op], s.drained⟩, ?_, hf, ?_⟩
      · simp only [serve, hresolve, ok_bind, pure_eq_ok]
      · -- of what was completed, only the interaction itself acts on two qubits
        have hpair : c.isPair i.op = true := by
          simp [Circuit.isPair, hs.consistent.ready_op i hi, Op.interaction?]
        show s.resolved ++ [i.op] = (s.drained ++ f.completed).filter c.isPair
        rw [hcompleted, ← List.append_assoc, List.filter_append, List.filter_cons_of_pos hpair,
          Frontier.filter_isPair_of_singles hnew, hs.resolved_eq]
        rfl
    · have hno : ∀ i ∈ s.frontier.ready, i.isOn a b = false := by simpa using hex
      have hnone := Frontier.resolve?_eq_none hs.consistent (hin a b rfl) hno
      exact ⟨s, serve_of_resolve?_none hnone, hs⟩
  | drain =>
    refine ⟨_, rfl, hs.consistent.drain, ?_⟩
    have hlog := hs.resolved_eq
    simpa [log, Frontier.drain] using hlog

/-- So can any requests, one after the other. -/
theorem run_total {c : Circuit} (hc : c.Linked) (requests : List Request)
    (hin : ∀ a b, Request.resolve a b ∈ requests → a < c.numQubits) :
    ∃ s, run c requests = .ok s ∧ s.Sound c := by
  obtain ⟨f, hstart, hf, hsingles⟩ := Frontier.start_total hc
  unfold run
  rw [hstart, ok_bind]
  refine foldlM_total (fun _ (s : Session) => s.Sound c)
    ⟨hf, (Frontier.filter_isPair_of_singles hsingles).symm⟩ fun done request rest s hl hs => ?_
  refine serve_total hc hs request fun a b hrequest => hin a b ?_
  rw [hl, hrequest]
  exact List.mem_append_right _ List.mem_cons_self

/-! ## What it comes to -/

/-- The state of a frontier in use is exact. -/
structure Exact (c : Circuit) (s : Session) : Prop where
  /-- Ready are the operations on two qubits that are not completed, but whose predecessors are. -/
  mem_ready_iff : ∀ i : Interaction, i ∈ s.frontier.ready ↔
    c.ops[i.op]? = some (.pair i.left i.right) ∧ i.op ∉ s.log ∧ c.predecessors i.op ⊆ s.log
  ready_nodup : s.frontier.ready.Nodup
  /-- An operation on one qubit does not wait once its predecessors are completed. -/
  single_mem_log : ∀ (k : Nat) (q : VirtualQubit), c.ops[k]? = some (.single q) →
    c.predecessors k ⊆ s.log → k ∈ s.log
  /-- The counts are those of the predecessors that are not completed. -/
  waiting_eq : s.frontier.waiting = (List.range c.size).map fun k =>
    ((c.predecessors k).filter fun p => !s.log.contains p).length
  qubits_disjoint : ∀ i ∈ s.frontier.ready, ∀ j ∈ s.frontier.ready, i ≠ j →
    (qubitsOf i).Disjoint (qubitsOf j)
  interactionOn_eq_some : ∀ i ∈ s.frontier.ready, ∀ q ∈ qubitsOf i,
    s.frontier.interactionOn q = .ok (some i.op)
  interactionOn_eq_none : ∀ q < c.numQubits, (∀ i ∈ s.frontier.ready, q ∉ qubitsOf i) →
    s.frontier.interactionOn q = .ok none
  /-- A ready interaction is resolved, whichever of its qubits is named first. -/
  resolve_eq_some : ∀ i ∈ s.frontier.ready, ∀ a b, i.isOn a b = true →
    ∃ f, s.frontier.resolve? a b = .ok (some (i.op, f))
  /-- Any other request to resolve is refused, and changes nothing. -/
  resolve_eq_none : ∀ a < c.numQubits, ∀ b, (∀ i ∈ s.frontier.ready, i.isOn a b = false) →
    s.frontier.resolve? a b = .ok none ∧ s.serve (.resolve a b) = .ok s
  log_nodup : s.log.Nodup
  log_lt : ∀ k ∈ s.log, k < c.size
  /-- What is completed has all its predecessors before it. -/
  predecessors_first : ∀ before k after, s.log = before ++ k :: after → c.predecessors k ⊆ before
  /-- The completed operations on two qubits are those that were resolved, in this order. -/
  resolved_eq : s.resolved = s.log.filter c.isPair
  isDone_iff : s.frontier.isDone = true ↔ ∀ k < c.size, k ∈ s.log

section Exact

variable {c : Circuit} (hc : c.Linked) {s : Session} (hs : s.Sound c)
include hs

/-- An operation whose requirements are met waits as a ready interaction. Had it a single qubit, it would be
done. -/
theorem Sound.exists_ready {k : Nat} (h : c.Available s.log k) : ∃ i ∈ s.frontier.ready, i.op = k := by
  have hmem := (hs.consistent.available_iff k).mpr h
  rwa [List.append_nil, List.mem_map] at hmem

include hc

/-- Ready are exactly the interactions that are not done and whose requirements are. -/
theorem Sound.mem_ready_iff (i : Interaction) : i ∈ s.frontier.ready ↔
    c.ops[i.op]? = some (.pair i.left i.right) ∧ i.op ∉ s.log ∧ c.predecessors i.op ⊆ s.log := by
  constructor
  · intro hi
    have havailable := (Circuit.available_iff hc).mp (hs.consistent.available_of_mem_ready hi)
    exact ⟨hs.consistent.ready_op i hi, havailable.2⟩
  · intro ⟨hop, hrest⟩
    obtain ⟨hlt, -⟩ := List.getElem?_eq_some_iff.mp hop
    obtain ⟨j, hj, hji⟩ := hs.exists_ready ((Circuit.available_iff hc).mpr ⟨hlt, hrest⟩)
    -- the operation with that number has only these two qubits
    have hop' := hs.consistent.ready_op j hj
    rw [hji, hop, Option.some.injEq, Op.pair.injEq] at hop'
    obtain rfl : i = j := by
      cases i
      cases j
      simp_all
    exact hj

/-- An operation on a single qubit is done as soon as its requirements are. -/
theorem Sound.single_mem_log {k : Nat} {q : VirtualQubit} (hop : c.ops[k]? = some (.single q))
    (hmet : c.predecessors k ⊆ s.log) : k ∈ s.log := by
  by_contra hnot
  obtain ⟨hlt, -⟩ := List.getElem?_eq_some_iff.mp hop
  obtain ⟨i, hi, hik⟩ := hs.exists_ready ((Circuit.available_iff hc).mpr ⟨hlt, hnot, hmet⟩)
  have hop' := hs.consistent.ready_op i hi
  rw [hik, hop] at hop'
  simp at hop'

/-- The count kept for an operation is the number of its requirements that are not done. -/
theorem Sound.waiting_eq : s.frontier.waiting = (List.range c.size).map fun k =>
    ((c.predecessors k).filter fun p => !s.log.contains p).length := by
  obtain ⟨hlen, hget⟩ := hs.consistent.counts
  refine List.ext_getElem? fun k => ?_
  rw [List.getElem?_map]
  by_cases hk : k < c.size
  · rw [hget k hk, List.getElem?_range hk, Circuit.unmet_eq_length hc]
    rfl
  · rw [List.getElem?_eq_none (by omega), List.getElem?_eq_none (by simpa using hk)]
    rfl

omit hc in
theorem Sound.interactionOn_eq_none {q : VirtualQubit} (hq : q < c.numQubits)
    (hno : ∀ i ∈ s.frontier.ready, q ∉ qubitsOf i) : s.frontier.interactionOn q = .ok none := by
  have hlt : q < s.frontier.holder.length := hs.consistent.length_holder ▸ hq
  have hget := List.getElem?_eq_getElem hlt
  cases hholder : s.frontier.holder[q] with
  | none => exact fetch_eq_ok (hholder ▸ hget)
  | some k =>
    obtain ⟨i, hi, -, hqi⟩ := (hs.consistent.holder_iff q k).mp (hholder ▸ hget)
    exact absurd hqi (hno i hi)

omit hc in
/-- A session is over when every operation is done. -/
theorem Sound.isDone_iff : s.frontier.isDone = true ↔ ∀ k < c.size, k ∈ s.log := by
  unfold Frontier.isDone
  rw [List.isEmpty_iff]
  refine ⟨hs.consistent.mem_log_of_isDone, fun hall => List.eq_nil_iff_forall_not_mem.mpr ?_⟩
  intro i hi
  obtain ⟨hlt, hnot, -⟩ := hs.consistent.available_of_mem_ready hi
  exact hnot (hall i.op hlt)

theorem Sound.exact : s.Exact c where
  mem_ready_iff := hs.mem_ready_iff hc
  ready_nodup := List.Nodup.of_map _ (List.append_nil _ ▸ hs.consistent.nodup)
  single_mem_log _ _ := hs.single_mem_log hc
  waiting_eq := hs.waiting_eq hc
  qubits_disjoint := by
    intro i hi j hj hne q hqi hqj
    have hsame := hs.consistent.scheduled.eq_of_available (hs.consistent.available_of_mem_ready hi)
      (hs.consistent.available_of_mem_ready hj) (hs.consistent.actsOn hi hqi)
      (hs.consistent.actsOn hj hqj)
    exact hne (hs.consistent.eq_of_op_eq hi hj hsame)
  interactionOn_eq_some i hi q hq :=
    fetch_eq_ok ((hs.consistent.holder_iff q i.op).mpr ⟨i, hi, rfl, hq⟩)
  interactionOn_eq_none _ := hs.interactionOn_eq_none
  resolve_eq_some := by
    intro i hi a b hon
    obtain ⟨f, -, hresolve, -⟩ := Frontier.resolve?_total hc hs.consistent hi hon
    exact ⟨f, hresolve⟩
  resolve_eq_none := by
    intro a ha b hno
    have hnone := Frontier.resolve?_eq_none hs.consistent ha hno
    exact ⟨hnone, serve_of_resolve?_none hnone⟩
  log_nodup := hs.consistent.scheduled.nodup
  log_lt := hs.consistent.scheduled.lt_size
  predecessors_first := by
    intro before k after hlog
    obtain ⟨-, havailable⟩ := hs.consistent.scheduled.available_of_eq_append hlog
    exact ((Circuit.available_iff hc).mp havailable).2.2
  resolved_eq := hs.resolved_eq
  isDone_iff := hs.isDone_iff

end Exact

/-- Whatever is requested, the frontier answers, and its state is exact. -/
theorem run_exact {n : Nat} {input : List (List VirtualQubit)} {c : Circuit}
    (hc : Circuit.ofOps n input = .ok c) (requests : List Request)
    (hin : ∀ a b, Request.resolve a b ∈ requests → a < n) :
    ∃ s, run c requests = .ok s ∧ s.Exact c := by
  obtain ⟨hlinked, rfl, -⟩ := Circuit.ofOps_linked hc
  obtain ⟨s, hrun, hs⟩ := run_total hlinked requests hin
  exact ⟨s, hrun, hs.exact hlinked⟩

/-- Two interactions, with operations on one qubit before the first and between the two. -/
def fiveOps : Circuit where
  numQubits := 3
  ops := [.single 0, .pair 0 1, .single 2, .single 1, .pair 1 2]
  arcs := [(0, 1), (1, 3), (3, 4), (2, 4)]
  firstLayer := [0, 2]

theorem ofOps_fiveOps : Circuit.ofOps 3 [[0], [0, 1], [2], [1], [1, 2]] = .ok fiveOps := by decide

/-- The first request names the qubits of an interaction in the other order, the second one is refused. -/
theorem fiveOps_exact : ∃ s, run fiveOps [.drain, .resolve 1 0, .resolve 0 2] = .ok s ∧
    s.Exact fiveOps ∧ s.drained = [0, 2] ∧ s.frontier.completed = [1, 3] ∧ s.resolved = [1] := by
  have hin : ∀ a b, Request.resolve a b ∈ [.drain, .resolve 1 0, .resolve 0 2] → a < 3 := by
    intro a b h
    have hcases : a = 1 ∧ b = 0 ∨ a = 0 ∧ b = 2 := by simpa using h
    rcases hcases with ⟨rfl, -⟩ | ⟨rfl, -⟩ <;> decide
  obtain ⟨s, hrun, hexact⟩ := run_exact ofOps_fiveOps [.drain, .resolve 1 0, .resolve 0 2] hin
  have hseen : (run fiveOps [.drain, .resolve 1 0, .resolve 0 2]).map
      (fun s => (s.drained, s.frontier.completed, s.resolved)) = .ok ([0, 2], [1, 3], [1]) := by decide
  rw [hrun] at hseen
  simp only [Except.map, Except.ok.injEq, Prod.mk.injEq] at hseen
  exact ⟨s, hrun, hexact, hseen⟩

end Session

end QubitRouting
