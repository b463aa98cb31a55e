import QubitRouting.Frontier
import QubitRouting.Proofs.Circuit.Schedules
import Mathlib.Data.List.Nodup

/-!
# The frontier is exact

`Frontier.Consistent c emitted queue f` relates a frontier to the circuit that it is the frontier of.
The operations completed so far are those taken out before, `emitted`, and those still listed by the
frontier; together they are a schedule (`log`). The ready interactions and the operations in `queue`
are exactly the ones that are available after that schedule.

One lemma for each step, each also saying that the step has a result: an operation that is completed
(`Consistent.complete`), one that becomes ready (`Consistent.enter`), the walk forwards
(`advance_total`), the start (`start_total`) and a resolved interaction (`resolve?_total`). When nothing
is ready, everything is completed (`Consistent.mem_log_of_isDone`).
-/

namespace QubitRouting

/-! ## What an operation still waits for -/

namespace Circuit

/-- The number of operations outside the schedule that operation `k` waits for. -/
def unmet (c : Circuit) (log : List Nat) (k : Nat) : Nat :=
  c.arcs.countP fun e => e.2 == k && !log.contains e.1

/-- Completing an operation meets one more requirement of each operation with an arc from it. -/
theorem countP_unmet_concat {log : List Nat} {k j : Nat} (hk : k ∉ log) :
    ∀ {arcs : List (Nat × Nat)}, arcs.Nodup →
    arcs.countP (fun e => e.2 == j && !log.contains e.1) =
      arcs.countP (fun e => e.2 == j && !(log ++ [k]).contains e.1) +
        if (k, j) ∈ arcs then 1 else 0
  | [], _ => by simp
  | e :: arcs, hnodup => by
    obtain ⟨hnot, hnodup⟩ := List.nodup_cons.mp hnodup
    rw [List.countP_cons, List.countP_cons, countP_unmet_concat hk hnodup]
    by_cases he : e = (k, j)
    · subst he
      simp [hnot, hk]
    · have hmem : (k, j) ∈ e :: arcs ↔ (k, j) ∈ arcs := by
        rw [List.mem_cons]
        exact or_iff_right (Ne.symm he)
      have hsame : (e.2 == j && !(log ++ [k]).contains e.1) = (e.2 == j && !log.contains e.1) := by
        by_cases hj : e.2 = j
        · have hek : e.1 ≠ k := fun h => he (Prod.ext h hj)
          simp [hek]
        · rw [beq_eq_false_iff_ne.mpr hj]
          rfl
      rw [hsame]
      simp only [hmem]
      omega

/-- An operation that is done counts once for each operation that waits for it. -/
theorem unmet_concat {c : Circuit} (hc : c.Linked) {log : List Nat} {k : Nat} (hk : k ∉ log)
    (j : Nat) : c.unmet log j = c.unmet (log ++ [k]) j + if (k, j) ∈ c.arcs then 1 else 0 :=
  countP_unmet_concat hk hc.arcs_nodup

/-- Nothing is unmet if everything that the operation depends on is done. -/
theorem unmet_eq_zero_iff {c : Circuit} (hc : c.Linked) {log : List Nat} {k : Nat} :
    c.unmet log k = 0 ↔ ∀ p, Depends c.ops p k → p ∈ log := by
  unfold unmet
  rw [List.countP_eq_zero]
  constructor
  · intro h p hp
    have := h (p, k) (hc.mem_arcs_iff.mpr hp)
    simpa using this
  · intro h e he hcount
    obtain ⟨p, j⟩ := e
    simp only [Bool.and_eq_true, beq_iff_eq, Bool.not_eq_true', List.contains_eq_mem,
      decide_eq_false_iff_not] at hcount
    obtain ⟨rfl, hp⟩ := hcount
    exact hp (h p (hc.mem_arcs_iff.mp he))

theorem mem_successors_iff {c : Circuit} {k j : Nat} : j ∈ c.successors k ↔ (k, j) ∈ c.arcs := by
  unfold successors
  rw [List.mem_map]
  constructor
  · intro ⟨e, he, hj⟩
    obtain ⟨hmem, hk⟩ := List.mem_filter.mp he
    rw [List.mem_reverse] at hmem
    rwa [← hj, ← beq_iff_eq.mp hk]
  · intro h
    exact ⟨(k, j), List.mem_filter.mpr ⟨List.mem_reverse.mpr h, beq_self_eq_true k⟩, rfl⟩

theorem successors_nodup {c : Circuit} (hc : c.Linked) (k : Nat) : (c.successors k).Nodup := by
  have hfilter : (c.arcs.reverse.filter fun e => e.1 == k).Nodup :=
    (List.nodup_reverse.mpr hc.arcs_nodup).filter _
  unfold successors List.Nodup
  rw [List.pairwise_map]
  refine hfilter.imp_of_mem fun {e e'} he he' hne heq => hne (Prod.ext ?_ heq)
  rw [beq_iff_eq.mp (List.mem_filter.mp he).2, beq_iff_eq.mp (List.mem_filter.mp he').2]

theorem depends_lt {ops : List Op} {p k : Nat} (h : Depends ops p k) : p < k ∧ k < ops.length :=
  let ⟨_, hacts, hlast⟩ := h
  ⟨hlast.1, hacts.lt_length⟩

/-- What is available once `k` is done: what was before, apart from `k` itself, and what waited for `k`
and for nothing else. -/
theorem available_concat_iff {c : Circuit} {log : List Nat} (h : c.Scheduled log) {k j : Nat}
    (hk : c.Available log k) : c.Available (log ++ [k]) j ↔
      c.Available log j ∧ j ≠ k ∨ Depends c.ops k j ∧ ∀ p, Depends c.ops p j → p ∈ log ++ [k] := by
  constructor
  · intro ⟨hlt, hnot, hmet⟩
    by_cases hdep : Depends c.ops k j
    · exact .inr ⟨hdep, hmet⟩
    · have hjk : j ≠ k := fun he => hnot (List.mem_append_right _ (by simp [he]))
      refine .inl ⟨⟨hlt, fun hm => hnot (List.mem_append_left _ hm), fun p hp => ?_⟩, hjk⟩
      rcases List.mem_append.mp (hmet p hp) with hmem | hmem
      · exact hmem
      · exact absurd hp (List.mem_singleton.mp hmem ▸ hdep)
  · intro hcase
    rcases hcase with ⟨⟨hlt, hnot, hmet⟩, hjk⟩ | ⟨hdep, hmet⟩
    · refine ⟨hlt, fun hj => ?_, fun p hp => List.mem_append_left _ (hmet p hp)⟩
      exact (List.mem_append.mp hj).elim hnot fun hj => hjk (List.mem_singleton.mp hj)
    · -- `j` cannot be in the log, since `k` is not
      refine ⟨(depends_lt hdep).2, fun hj => ?_, hmet⟩
      rcases List.mem_append.mp hj with hj | hj
      · exact hk.2.1 (h.mem_of_depends j hj k hdep)
      · exact Nat.lt_irrefl k (List.mem_singleton.mp hj ▸ (depends_lt hdep).1)

end Circuit

namespace Frontier

open Circuit (Scheduled Available unmet)

/-! ## Counting down -/

/-- The table of counts agrees with the schedule. -/
def Counts (c : Circuit) (log waiting : List Nat) : Prop :=
  waiting.length = c.size ∧ ∀ k < c.size, waiting[k]? = some (c.unmet log k)

/-- Completing operation `k` brings the counts up to date and frees exactly the operations that waited
for nothing else. -/
theorem complete_total {c : Circuit} (hc : c.Linked) {f : Frontier} (hf : f.circuit = c)
    {log : List Nat} {k : Nat} (hk : k ∉ log) (hcounts : Counts c log f.waiting) :
    ∃ waiting freed,
      f.complete k = .ok ({ f with completed := f.completed ++ [k], waiting }, freed) ∧
      Counts c (log ++ [k]) waiting ∧ freed.Nodup ∧
      ∀ j, j ∈ freed ↔ (k, j) ∈ c.arcs ∧ c.unmet (log ++ [k]) j = 0 := by
  -- the counts of the successors already visited are up to date, the others are not
  have hfold : ∃ state, f.complete k = .ok state ∧
      ∃ waiting, state = ({ f with completed := f.completed ++ [k], waiting },
          (c.successors k).filter fun j => c.unmet (log ++ [k]) j == 0) ∧
        waiting.length = c.size ∧ ∀ j < c.size, waiting[j]? =
          some (if j ∈ c.successors k then c.unmet (log ++ [k]) j else c.unmet log j) := by
    have hsucc : f.circuit.successors k = c.successors k := by rw [hf]
    unfold complete
    rw [hsucc]
    refine foldlM_total (fun done state =>
      ∃ waiting, state = ({ f with completed := f.completed ++ [k], waiting },
          done.filter fun j => c.unmet (log ++ [k]) j == 0) ∧
        waiting.length = c.size ∧ ∀ j < c.size, waiting[j]? =
          some (if j ∈ done then c.unmet (log ++ [k]) j else c.unmet log j)) ?_ ?_
    · exact ⟨f.waiting, rfl, hcounts.1, fun j hj => by simpa using hcounts.2 j hj⟩
    · intro done j rest _ hl hex
      obtain ⟨waiting, rfl, hlen, hget⟩ := hex
      have harc : (k, j) ∈ c.arcs :=
        Circuit.mem_successors_iff.mp (hl ▸ List.mem_append_right _ List.mem_cons_self)
      have hj : j < c.size := (Circuit.depends_lt (hc.mem_arcs_iff.mp harc)).2
      have hnot : j ∉ done := by
        have hnodup := Circuit.successors_nodup hc k
        rw [hl, List.nodup_append] at hnodup
        exact fun h => hnodup.2.2 j h j List.mem_cons_self rfl
      have hold := hget j hj
      rw [if_neg hnot, Circuit.unmet_concat hc hk j, if_pos harc] at hold
      refine ⟨_, ?_, waiting.set j (c.unmet (log ++ [k]) j), rfl, by rwa [List.length_set], ?_⟩
      · unfold countDown
        simp only [fetch_eq_ok hold, ok_bind, subtract_eq_ok (Nat.le_add_left 1 _),
          Nat.add_sub_cancel, store_eq_ok _ (hlen ▸ hj), pure_eq_ok, List.filter_append]
        congr 2
        by_cases hzero : c.unmet (log ++ [k]) j = 0
        · simp [hzero]
        · simp [hzero]
      · intro i hi
        by_cases hij : i = j
        · rw [hij, List.getElem?_set_self (hlen ▸ hj), if_pos (by simp)]
        · rw [List.getElem?_set_ne (Ne.symm hij), hget i hi]
          simp [hij]
  obtain ⟨_, hcomplete, waiting, rfl, hlen, hget⟩ := hfold
  refine ⟨waiting, _, hcomplete, ⟨hlen, fun j hj => ?_⟩, (Circuit.successors_nodup hc k).filter _,
    fun j => ?_⟩
  · rw [hget j hj]
    by_cases harc : j ∈ c.successors k
    · rw [if_pos harc]
    · rw [if_neg harc, Circuit.unmet_concat hc hk j,
        if_neg fun h => harc (Circuit.mem_successors_iff.mpr h), Nat.add_zero]
  · rw [List.mem_filter, Circuit.mem_successors_iff, beq_iff_eq]

/-! ## The invariant -/

/-- The two qubits of an interaction. -/
def qubitsOf (i : Interaction) : List VirtualQubit :=
  [i.left, i.right]

theorem isOn_iff {i : Interaction} {a b : VirtualQubit} :
    i.isOn a b = true ↔ i.left = a ∧ i.right = b ∨ i.left = b ∧ i.right = a := by
  simp [Interaction.isOn]

theorem isOn_self (i : Interaction) : i.isOn i.left i.right = true :=
  isOn_iff.mpr (.inl ⟨rfl, rfl⟩)

theorem mem_qubitsOf_of_isOn {i : Interaction} {a b : VirtualQubit} (h : i.isOn a b = true) :
    a ∈ qubitsOf i ∧ b ∈ qubitsOf i := by
  rcases isOn_iff.mp h with ⟨rfl, rfl⟩ | ⟨rfl, rfl⟩
  · simp [qubitsOf]
  · simp [qubitsOf]

/-- The frontier `f` is that of `c` after the schedule `emitted ++ f.completed`, except that the
operations in `queue` have not been looked at. -/
structure Consistent (c : Circuit) (emitted queue : List Nat) (f : Frontier) : Prop where
  circuit_eq : f.circuit = c
  scheduled : c.Scheduled (emitted ++ f.completed)
  counts : Counts c (emitted ++ f.completed) f.waiting
  available_iff : ∀ k, k ∈ f.ready.map (·.op) ++ queue ↔
    c.Available (emitted ++ f.completed) k
  nodup : (f.ready.map (·.op) ++ queue).Nodup
  ready_op : ∀ i ∈ f.ready, c.ops[i.op]? = some (.pair i.left i.right)
  length_holder : f.holder.length = c.numQubits
  holder_iff : ∀ (q : VirtualQubit) (k : Nat), f.holder[q]? = some (some k) ↔
    ∃ i ∈ f.ready, i.op = k ∧ q ∈ qubitsOf i

namespace Consistent

variable {c : Circuit} {emitted queue : List Nat} {f : Frontier}

theorem available_of_mem_ready (h : Consistent c emitted queue f) {i : Interaction}
    (hi : i ∈ f.ready) : c.Available (emitted ++ f.completed) i.op :=
  (h.available_iff i.op).mp (List.mem_append_left _ (List.mem_map.mpr ⟨i, hi, rfl⟩))

theorem actsOn (h : Consistent c emitted queue f) {i : Interaction} (hi : i ∈ f.ready)
    {q : VirtualQubit} (hq : q ∈ qubitsOf i) : ActsOn c.ops i.op q :=
  ⟨_, h.ready_op i hi, hq⟩

/-- Ready interactions with the same number are the same. -/
theorem eq_of_op_eq (h : Consistent c emitted queue f) {i j : Interaction} (hi : i ∈ f.ready)
    (hj : j ∈ f.ready) (hop : i.op = j.op) : i = j := by
  have hi' := h.ready_op i hi
  rw [hop, h.ready_op j hj, Option.some.injEq, Op.pair.injEq] at hi'
  cases i
  cases j
  simp_all

/-- No operation is done, ready and queued at once, so there are no more of them than the circuit has. -/
theorem length_le (h : Consistent c emitted queue f) :
    (emitted ++ f.completed).length + f.ready.length + queue.length ≤ c.size := by
  have hsub : (emitted ++ f.completed) ++ (f.ready.map (·.op) ++ queue) ⊆ List.range c.size := by
    intro k hk
    rw [List.mem_range]
    rcases List.mem_append.mp hk with hk | hk
    · exact h.scheduled.lt_size k hk
    · exact ((h.available_iff k).mp hk).1
  have hnodup : ((emitted ++ f.completed) ++ (f.ready.map (·.op) ++ queue)).Nodup := by
    rw [List.nodup_append]
    refine ⟨h.scheduled.nodup, h.nodup, fun a ha b hb he => ?_⟩
    exact ((h.available_iff b).mp hb).2.1 (he ▸ ha)
  have hlen := (List.subperm_of_subset hnodup hsub).length_le
  simp only [List.length_append, List.length_map, List.length_range] at hlen ⊢
  omega

/-- A ready operation is completed: what it frees joins the queue. -/
theorem complete (hc : c.Linked) {k : Nat} (h : Consistent c emitted (k :: queue) f) :
    ∃ f' freed, f.complete k = .ok (f', freed) ∧ Consistent c emitted (queue ++ freed) f' ∧
      f'.completed = f.completed ++ [k] ∧ f'.ready = f.ready := by
  have hk : c.Available (emitted ++ f.completed) k :=
    (h.available_iff k).mp (List.mem_append_right _ List.mem_cons_self)
  obtain ⟨waiting, freed, hcomplete, hcounts, hfreed, hmem⟩ :=
    complete_total hc h.circuit_eq hk.2.1 h.counts
  have hlog : emitted ++ (f.completed ++ [k]) = (emitted ++ f.completed) ++ [k] :=
    (List.append_assoc _ _ _).symm
  have hrest : ∀ j, j ∈ f.ready.map (·.op) ++ queue ↔
      c.Available (emitted ++ f.completed) j ∧ j ≠ k := by
    have hnodup := (List.perm_middle.nodup_iff).mp h.nodup
    intro j
    rw [← h.available_iff, List.perm_middle.mem_iff, List.mem_cons]
    refine ⟨fun hj => ⟨.inr hj, fun he => (List.nodup_cons.mp hnodup).1 (he ▸ hj)⟩, fun hj => ?_⟩
    exact hj.1.resolve_left hj.2
  refine ⟨_, freed, hcomplete, ?_, rfl, rfl⟩
  refine ⟨h.circuit_eq, ?_, ?_, fun j => ?_, ?_, h.ready_op, h.length_holder, h.holder_iff⟩
  · show c.Scheduled (emitted ++ (f.completed ++ [k]))
    rw [hlog]
    exact h.scheduled.snoc hk
  · show Counts c (emitted ++ (f.completed ++ [k])) waiting
    rw [hlog]
    exact hcounts
  · show j ∈ f.ready.map (·.op) ++ (queue ++ freed) ↔
      c.Available (emitted ++ (f.completed ++ [k])) j
    rw [hlog, Circuit.available_concat_iff h.scheduled hk, ← hrest, ← List.append_assoc,
      List.mem_append, hmem, Circuit.unmet_eq_zero_iff hc, hc.mem_arcs_iff]
  · show (f.ready.map (·.op) ++ (queue ++ freed)).Nodup
    rw [← List.append_assoc, List.nodup_append]
    have hnodup := (List.perm_middle.nodup_iff).mp h.nodup
    refine ⟨(List.nodup_cons.mp hnodup).2, hfreed, fun a ha b hb he => ?_⟩
    -- what was freed waited for `k`, so it was not available before
    have hdep := hc.mem_arcs_iff.mp ((hmem b).mp hb).1
    exact hk.2.1 (((hrest a).mp ha).1.2.2 k (he ▸ hdep))

/-- An available operation on two qubits becomes ready. -/
theorem enter (hc : c.Linked) {k : Nat} {a b : VirtualQubit}
    (h : Consistent c emitted (k :: queue) f) (hop : c.ops[k]? = some (.pair a b)) :
    ∃ f', f.enter k a b = .ok f' ∧ Consistent c emitted queue f' ∧
      f'.completed = f.completed ∧ f'.ready = f.ready ++ [⟨k, a, b⟩] := by
  have hk : c.Available (emitted ++ f.completed) k :=
    (h.available_iff k).mp (List.mem_append_right _ List.mem_cons_self)
  have hacts : ∀ {q}, q ∈ [a, b] → ActsOn c.ops k q := fun hq => ⟨_, hop, hq⟩
  have ha : a < f.holder.length := by
    rw [h.length_holder]
    exact hc.qubits_lt (hacts List.mem_cons_self)
  have hb : b < f.holder.length := by
    rw [h.length_holder]
    exact hc.qubits_lt (hacts (List.mem_cons_of_mem a List.mem_cons_self))
  have hnodup := h.nodup
  rw [List.nodup_append, List.nodup_cons] at hnodup
  refine ⟨{ f with
    holder := (f.holder.set a (some k)).set b (some k)
    ready := f.ready ++ [⟨k, a, b⟩] }, ?_, ?_, rfl, rfl⟩
  · unfold Frontier.enter
    rw [store_eq_ok _ ha, ok_bind, store_eq_ok _ (by rwa [List.length_set])]
    rfl
  refine ⟨h.circuit_eq, h.scheduled, h.counts, fun j => ?_, ?_, ?_, by simp [h.length_holder], ?_⟩
  · rw [← h.available_iff]
    simp
  · show ((f.ready ++ [(⟨k, a, b⟩ : Interaction)]).map (·.op) ++ queue).Nodup
    rw [List.map_append, List.append_assoc]
    exact h.nodup
  · intro i hi
    rcases List.mem_append.mp hi with hi | hi
    · exact h.ready_op i hi
    · rw [List.mem_singleton.mp hi]
      exact hop
  · intro q j
    -- no other ready interaction acts on the two qubits
    have hfree : q ∈ [a, b] → ∀ i ∈ f.ready, q ∉ qubitsOf i := by
      intro hq i hi hqi
      have hsame := h.scheduled.eq_of_available (h.available_of_mem_ready hi) hk
        (h.actsOn hi hqi) (hacts hq)
      exact hnodup.2.2 i.op (List.mem_map.mpr ⟨i, hi, rfl⟩) k List.mem_cons_self hsame
    have hset : ((f.holder.set a (some k)).set b (some k))[q]? =
        if q ∈ [a, b] then some (some k) else f.holder[q]? := by
      rw [List.getElem?_set, List.getElem?_set, List.length_set, if_pos ha, if_pos hb]
      by_cases hqb : b = q
      · simp [hqb]
      · by_cases hqa : a = q
        · simp [hqa, hqb]
        · simp [hqa, hqb, Ne.symm hqa, Ne.symm hqb]
    show ((f.holder.set a (some k)).set b (some k))[q]? = some (some j) ↔
      ∃ i ∈ f.ready ++ [⟨k, a, b⟩], i.op = j ∧ q ∈ qubitsOf i
    rw [hset]
    split
    next hq =>
      constructor
      · intro he
        obtain rfl : k = j := by simpa using he
        exact ⟨⟨k, a, b⟩, List.mem_append_right _ List.mem_cons_self, rfl, hq⟩
      · intro hex
        obtain ⟨i, hi, rfl, hqi⟩ := hex
        rcases List.mem_append.mp hi with hi | hi
        · exact absurd hqi (hfree hq i hi)
        · rw [List.mem_singleton.mp hi]
    next hq =>
      rw [h.holder_iff]
      constructor
      · intro ⟨i, hi, hrest⟩
        exact ⟨i, List.mem_append_left _ hi, hrest⟩
      · intro ⟨i, hi, hop', hqi⟩
        rcases List.mem_append.mp hi with hi | hi
        · exact ⟨i, hi, hop', hqi⟩
        · rw [List.mem_singleton.mp hi] at hqi
          exact absurd hqi hq

/-- Taking what was completed moves it from one part of the log to the other. -/
theorem drain (h : Consistent c emitted queue f) :
    Consistent c (emitted ++ f.completed) queue f.drain.2 where
  circuit_eq := h.circuit_eq
  scheduled := by simpa [Frontier.drain] using h.scheduled
  counts := by simpa [Frontier.drain] using h.counts
  available_iff := by simpa [Frontier.drain] using h.available_iff
  nodup := h.nodup
  ready_op := h.ready_op
  length_holder := h.length_holder
  holder_iff := h.holder_iff

/-- If nothing is ready and nothing is left to look at, everything is completed. -/
theorem mem_log_of_isDone (h : Consistent c emitted [] f) (hdone : f.ready = []) :
    ∀ k < c.size, k ∈ emitted ++ f.completed := by
  intro k
  induction k using Nat.strongRecOn with
  | ind k ih =>
    intro hk
    by_cases hmem : k ∈ emitted ++ f.completed
    · exact hmem
    · have hmet : ∀ p, Depends c.ops p k → p ∈ emitted ++ f.completed := by
        intro p hp
        obtain ⟨hlt, hlen⟩ := Circuit.depends_lt hp
        exact ih p hlt (Nat.lt_trans hlt hlen)
      have hready := (h.available_iff k).mpr ⟨hk, hmem, hmet⟩
      rw [hdone] at hready
      exact absurd hready List.not_mem_nil

end Consistent

/-! ## Walking forwards -/

/-- All listed operations act on one qubit. -/
def Singles (c : Circuit) (l : List Nat) : Prop :=
  ∀ k ∈ l, ∃ q, c.ops[k]? = some (.single q)

/-- With a turn for each operation that is neither completed nor ready, the walk looks at the whole
queue. It completes operations on one qubit only, and what is ready stays ready. -/
theorem advance_total {c : Circuit} (hc : c.Linked) {emitted : List Nat} :
    ∀ (turns : Nat) {queue : List Nat} {f : Frontier}, Consistent c emitted queue f →
      c.size ≤ turns + (emitted ++ f.completed).length + f.ready.length →
      ∃ f' new, advance turns queue f = .ok f' ∧ Consistent c emitted [] f' ∧
        f'.completed = f.completed ++ new ∧ Singles c new ∧ f.ready <+: f'.ready := by
  intro turns
  induction turns with
  | zero =>
    intro queue f h hturns
    cases queue with
    | nil =>
      exact ⟨f, [], rfl, h, (List.append_nil _).symm, fun _ hk => absurd hk List.not_mem_nil,
        List.prefix_refl _⟩
    | cons k queue =>
      -- no turn is left, but neither is an operation that could be in the queue
      have hlen := h.length_le
      rw [List.length_cons] at hlen
      omega
  | succ turns ih =>
    intro queue f h hturns
    cases queue with
    | nil =>
      exact ⟨f, [], rfl, h, (List.append_nil _).symm, fun _ hk => absurd hk List.not_mem_nil,
        List.prefix_refl _⟩
    | cons k queue =>
      have hk := ((h.available_iff k).mp (List.mem_append_right _ List.mem_cons_self)).1
      have hop : c.ops[k]? = some c.ops[k] := List.getElem?_eq_getElem hk
      unfold advance
      rw [h.circuit_eq, fetch_eq_ok hop, ok_bind]
      cases hcase : c.ops[k] with
      | single q =>
        rw [hcase] at hop
        obtain ⟨f₁, freed, hcomplete, h₁, hcompleted, hready⟩ := h.complete hc
        have hcount : c.size ≤ turns + (emitted ++ f₁.completed).length + f₁.ready.length := by
          rw [hcompleted, hready]
          simp only [List.length_append, List.length_singleton] at hturns ⊢
          omega
        obtain ⟨f₂, new, hadvance, h₂, hcompleted₂, hnew, hprefix⟩ := ih h₁ hcount
        refine ⟨f₂, k :: new, ?_, h₂, ?_, ?_, hready ▸ hprefix⟩
        · simp only [Op.interaction?, hcomplete, ok_bind]
          exact hadvance
        · rw [hcompleted₂, hcompleted, List.append_assoc]
          rfl
        · intro j hj
          rcases List.mem_cons.mp hj with rfl | hj
          · exact ⟨q, hop⟩
          · exact hnew j hj
      | pair a b =>
        rw [hcase] at hop
        obtain ⟨f₁, henter, h₁, hcompleted, hready⟩ := h.enter hc hop
        have hcount : c.size ≤ turns + (emitted ++ f₁.completed).length + f₁.ready.length := by
          rw [hcompleted, hready]
          simp only [List.length_append, List.length_singleton] at hturns ⊢
          omega
        obtain ⟨f₂, new, hadvance, h₂, hcompleted₂, hnew, hprefix⟩ := ih h₁ hcount
        refine ⟨f₂, new, ?_, h₂, hcompleted ▸ hcompleted₂, hnew, ?_⟩
        · simp only [Op.interaction?, henter, ok_bind]
          exact hadvance
        · rw [hready] at hprefix
          exact (List.prefix_append _ _).trans hprefix

/-- The frontier before anything is resolved. -/
theorem start_total {c : Circuit} (hc : c.Linked) :
    ∃ f, start c = .ok f ∧ Consistent c [] [] f ∧ Singles c f.completed := by
  have hunmet : c.unmet [] = c.indegree := by
    funext k
    unfold Circuit.unmet Circuit.indegree
    simp
  have hfirst : Consistent c [] c.firstLayer
      { circuit := c
        waiting := (List.range c.size).map c.indegree
        ready := []
        holder := List.replicate c.numQubits none
        completed := [] } := by
    refine ⟨rfl, .nil, ⟨by simp, fun k hk => ?_⟩, fun k => ?_, hc.firstLayer_nodup,
      fun i hi => absurd hi List.not_mem_nil, by simp, fun q k => ?_⟩
    · show ((List.range c.size).map c.indegree)[k]? = some (c.unmet [] k)
      rw [List.getElem?_map, List.getElem?_range hk, hunmet]
      rfl
    · show k ∈ c.firstLayer ↔ c.Available [] k
      rw [hc.mem_firstLayer_iff]
      unfold Circuit.Available
      simp
    · simp [List.getElem?_replicate]
  obtain ⟨f, new, hadvance, h, hcompleted, hnew, -⟩ := advance_total hc c.size hfirst (by simp)
  refine ⟨f, hadvance, h, ?_⟩
  rw [hcompleted]
  exact hnew

/-! ## Resolving an interaction -/

/-- A ready interaction is found by its number. -/
theorem find?_ready {c : Circuit} {emitted : List Nat} {f : Frontier}
    (h : Consistent c emitted [] f) {i : Interaction} (hi : i ∈ f.ready) :
    f.ready.find? (fun j => j.op == i.op) = some i := by
  have hsome : (f.ready.find? fun j => j.op == i.op).isSome :=
    List.find?_isSome.mpr ⟨i, hi, beq_self_eq_true i.op⟩
  obtain ⟨j, hj⟩ := Option.isSome_iff_exists.mp hsome
  have hop := List.find?_some hj
  rw [hj, h.eq_of_op_eq (List.mem_of_find?_eq_some hj) hi (beq_iff_eq.mp hop)]

/-- A ready interaction is found by its qubits, in either order. -/
theorem findReady?_eq {c : Circuit} {emitted : List Nat} {f : Frontier}
    (h : Consistent c emitted [] f) {i : Interaction} (hi : i ∈ f.ready) {a b : VirtualQubit}
    (hon : i.isOn a b = true) : f.findReady? a b = .ok (some i) := by
  have hholder := (h.holder_iff a i.op).mpr ⟨i, hi, rfl, (mem_qubitsOf_of_isOn hon).1⟩
  unfold findReady?
  rw [fetch_eq_ok hholder, ok_bind]
  simp [find?_ready h hi, hon]

theorem findReady?_eq_none {c : Circuit} {emitted : List Nat} {f : Frontier}
    (h : Consistent c emitted [] f) {a b : VirtualQubit} (ha : a < c.numQubits)
    (hno : ∀ i ∈ f.ready, i.isOn a b = false) : f.findReady? a b = .ok none := by
  have hlt : a < f.holder.length := h.length_holder ▸ ha
  have hget := List.getElem?_eq_getElem hlt
  unfold findReady?
  rw [fetch_eq_ok hget, ok_bind]
  cases hholder : f.holder[a] with
  | none => rfl
  | some k =>
    -- the qubit is held, but by an interaction with another partner
    obtain ⟨i, hi, rfl, -⟩ := (h.holder_iff a k).mp (hholder ▸ hget)
    simp [find?_ready h hi, hno i hi]

/-- An interaction that is taken off the ready list, with its qubits. -/
theorem Consistent.release {c : Circuit} {emitted : List Nat} {f : Frontier}
    (hc : c.Linked) (h : Consistent c emitted [] f) {i : Interaction} (hi : i ∈ f.ready) :
    Consistent c emitted [i.op] { f with
      holder := (f.holder.set i.left none).set i.right none
      ready := f.ready.filter fun r => r.op != i.op } := by
  have hlt : ∀ q ∈ qubitsOf i, q < f.holder.length := by
    intro q hq
    rw [h.length_holder]
    exact hc.qubits_lt (h.actsOn hi hq)
  have hops : (f.ready.filter fun r => r.op != i.op).map (·.op) =
      (f.ready.map (·.op)).erase i.op := by
    have hnodup := h.nodup
    rw [List.append_nil] at hnodup
    rw [hnodup.erase_eq_filter, List.filter_map]
    rfl
  have hmem : i.op ∈ f.ready.map (·.op) := List.mem_map.mpr ⟨i, hi, rfl⟩
  have hperm : ((f.ready.map (·.op)).erase i.op ++ [i.op]).Perm (f.ready.map (·.op) ++ []) := by
    rw [List.append_nil]
    exact List.perm_append_comm.trans (List.perm_cons_erase hmem).symm
  refine ⟨h.circuit_eq, h.scheduled, h.counts, fun k => ?_, ?_, ?_, by simp [h.length_holder], ?_⟩
  · rw [hops, hperm.mem_iff]
    exact h.available_iff k
  · rw [hops, hperm.nodup_iff]
    exact h.nodup
  · exact fun j hj => h.ready_op j (List.mem_filter.mp hj).1
  · intro q k
    show ((f.holder.set i.left none).set i.right none)[q]? = some (some k) ↔
      ∃ j ∈ f.ready.filter fun r => r.op != i.op, j.op = k ∧ q ∈ qubitsOf j
    by_cases hq : q ∈ qubitsOf i
    -- ready interactions share no qubit, so nobody else holds those of `i`
    · have hnone : ((f.holder.set i.left none).set i.right none)[q]? = some none := by
        rcases List.mem_cons.mp hq with rfl | hq
        · by_cases heq : i.right = i.left
          · rw [heq, List.getElem?_set_self (by rw [List.length_set]; exact hlt _ (by simp [qubitsOf]))]
          · rw [List.getElem?_set_ne heq, List.getElem?_set_self (hlt _ List.mem_cons_self)]
        · rw [List.mem_singleton.mp hq, List.getElem?_set_self]
          rw [List.length_set]
          exact hlt _ (by simp [qubitsOf])
      rw [hnone]
      constructor
      · intro he
        simp at he
      · intro hex
        obtain ⟨j, hj, -, hqj⟩ := hex
        obtain ⟨hj, hne⟩ := List.mem_filter.mp hj
        have hsame := h.scheduled.eq_of_available (h.available_of_mem_ready hj)
          (h.available_of_mem_ready hi) (h.actsOn hj hqj) (h.actsOn hi hq)
        simp [hsame] at hne
    · have hother : ((f.holder.set i.left none).set i.right none)[q]? = f.holder[q]? := by
        have hql : q ≠ i.left ∧ q ≠ i.right := by simpa [qubitsOf] using hq
        rw [List.getElem?_set_ne (Ne.symm hql.2), List.getElem?_set_ne (Ne.symm hql.1)]
      rw [hother, h.holder_iff]
      constructor
      · intro ⟨j, hj, hop, hqj⟩
        refine ⟨j, List.mem_filter.mpr ⟨hj, ?_⟩, hop, hqj⟩
        have hne : j.op ≠ i.op := fun he => hq (h.eq_of_op_eq hj hi he ▸ hqj)
        simpa using hne
      · intro ⟨j, hj, hrest⟩
        exact ⟨j, (List.mem_filter.mp hj).1, hrest⟩

/-- Resolving a ready interaction completes it, and after it operations on one qubit only. All other
ready interactions stay ready. -/
theorem resolve?_total {c : Circuit} (hc : c.Linked) {emitted : List Nat} {f : Frontier}
    (h : Consistent c emitted [] f) {i : Interaction} (hi : i ∈ f.ready) {a b : VirtualQubit}
    (hon : i.isOn a b = true) :
    ∃ f' new, f.resolve? a b = .ok (some (i.op, f')) ∧ Consistent c emitted [] f' ∧
      f'.completed = f.completed ++ i.op :: new ∧ Singles c new ∧
      ∀ j ∈ f.ready, j ≠ i → j ∈ f'.ready := by
  obtain ⟨f₁, freed, hcomplete, h₁, hcompleted, hready⟩ := (h.release hc hi).complete hc
  rw [List.nil_append] at h₁
  have hcount : c.size ≤ c.size + (emitted ++ f₁.completed).length + f₁.ready.length := by omega
  obtain ⟨f₂, new, hadvance, h₂, hcompleted₂, hnew, hprefix⟩ := advance_total hc c.size h₁ hcount
  have hlt : ∀ q ∈ qubitsOf i, q < f.holder.length := by
    intro q hq
    rw [h.length_holder]
    exact hc.qubits_lt (h.actsOn hi hq)
  obtain ⟨hqa, hqb⟩ := mem_qubitsOf_of_isOn hon
  -- the order of the two qubits does not matter for the table
  have hholder : (f.holder.set a none).set b none =
      (f.holder.set i.left none).set i.right none := by
    rcases isOn_iff.mp hon with ⟨rfl, rfl⟩ | ⟨rfl, rfl⟩
    · rfl
    · exact List.set_comm _ _ (hc.pair_ne (h.ready_op i hi)).symm
  refine ⟨f₂, new, ?_, h₂, ?_, hnew, fun j hj hne => ?_⟩
  · unfold resolve?
    rw [findReady?_eq h hi hon, ok_bind]
    simp only [store_eq_ok (none : Option Nat) (hlt a hqa), ok_bind,
      store_eq_ok (none : Option Nat) ((List.length_set ..).symm ▸ hlt b hqb), hholder, hcomplete]
    rw [h.circuit_eq, hadvance]
    rfl
  · rw [hcompleted₂, hcompleted, List.append_assoc]
    rfl
  · refine hprefix.subset ?_
    rw [hready]
    refine List.mem_filter.mpr ⟨hj, ?_⟩
    have hop : j.op ≠ i.op := fun he => hne (h.eq_of_op_eq hj hi he)
    simpa using hop

/-- Where no ready interaction acts on the two qubits, nothing is resolved. -/
theorem resolve?_eq_none {c : Circuit} {emitted : List Nat} {f : Frontier}
    (h : Consistent c emitted [] f) {a b : VirtualQubit} (ha : a < c.numQubits)
    (hno : ∀ i ∈ f.ready, i.isOn a b = false) : f.resolve? a b = .ok none := by
  unfold resolve?
  rw [findReady?_eq_none h ha hno]
  rfl

end Frontier

end QubitRouting
