import QubitRouting.Proofs.Circuit.Dependencies
import Mathlib.Data.List.Perm.Subperm
import Mathlib.Logic.Function.Basic

/-!
# Schedules

A schedule lists operations of a circuit, each at most once and after everything it waits for. What
operations do to the values of their qubits is left open (`Interpretation`); whatever it is, a schedule
of all operations has the effect of the operations in their given order (`run_of_scheduled`).

The proof moves operation `n` to the end of the part of the schedule that holds the operations up to
`n`. What it passes does not share a qubit with it: an earlier operation that does would come first.
-/

namespace QubitRouting

namespace Circuit

/-- Operation `k` is not done, but everything it waits for is. -/
def Available (c : Circuit) (done : List Nat) (k : Nat) : Prop :=
  k < c.size ∧ k ∉ done ∧ ∀ p, Depends c.ops p k → p ∈ done

/-- Each listed operation was available when its turn came. -/
inductive Scheduled (c : Circuit) : List Nat → Prop where
  | nil : Scheduled c []
  | snoc {log : List Nat} {k : Nat} (h : Scheduled c log) (hk : c.Available log k) :
      Scheduled c (log ++ [k])

namespace Scheduled

variable {c : Circuit} {log : List Nat}

theorem nodup (h : Scheduled c log) : log.Nodup := by
  induction h with
  | nil => exact List.nodup_nil
  | snoc _ hk ih =>
    rw [List.nodup_append]
    refine ⟨ih, by simp, fun a ha b hb he => hk.2.1 ?_⟩
    rwa [← List.mem_singleton.mp hb, ← he]

theorem lt_size (h : Scheduled c log) : ∀ k ∈ log, k < c.size := by
  induction h with
  | nil => exact fun _ h => absurd h List.not_mem_nil
  | snoc _ hk ih =>
    intro j hj
    rcases List.mem_append.mp hj with hj | hj
    · exact ih j hj
    · rw [List.mem_singleton.mp hj]
      exact hk.1

theorem mem_of_depends (h : Scheduled c log) :
    ∀ k, k ∈ log → ∀ p, Depends c.ops p k → p ∈ log := by
  induction h with
  | nil => exact fun _ h => absurd h List.not_mem_nil
  | snoc _ hk ih =>
    intro j hj p hp
    rcases List.mem_append.mp hj with hj | hj
    · exact List.mem_append_left _ (ih j hj p hp)
    · rw [List.mem_singleton.mp hj] at hp
      exact List.mem_append_left _ (hk.2.2 p hp)

/-- The part of a schedule before an operation is a schedule that makes it available. -/
theorem available_of_eq_append (h : Scheduled c log) : ∀ {pre post : List Nat} {k : Nat},
    log = pre ++ k :: post → Scheduled c pre ∧ c.Available pre k := by
  induction h with
  | nil => intro pre post k he; simp at he
  | @snoc log j h hj ih =>
    intro pre post k he
    rcases List.eq_nil_or_concat post with rfl | ⟨post', x, rfl⟩
    · obtain ⟨rfl, hjk⟩ := List.append_inj' he rfl
      obtain rfl : j = k := by simpa using hjk
      exact ⟨h, hj⟩
    · have he' : log ++ [j] = (pre ++ k :: post') ++ [x] := by simpa using he
      exact ih (List.append_inj' he' rfl).1

/-- Of two operations that share a qubit, the earlier one comes first. -/
theorem mem_of_actsOn (h : Scheduled c log) {pre post : List Nat} {i j : Nat} {q : VirtualQubit}
    (he : log = pre ++ j :: post) (hij : i < j) (hi : ActsOn c.ops i q) (hj : ActsOn c.ops j q) :
    i ∈ pre := by
  obtain ⟨hpre, hjpre⟩ := h.available_of_eq_append he
  exact mem_of_shared (· ∈ pre) hpre.mem_of_depends hjpre.2.2 hij hi hj

/-- Operations that are available at the same time act on different qubits. -/
theorem eq_of_available (h : Scheduled c log) {i j : Nat} {q : VirtualQubit}
    (hi : c.Available log i) (hj : c.Available log j) (hiq : ActsOn c.ops i q)
    (hjq : ActsOn c.ops j q) : i = j := by
  rcases Nat.lt_trichotomy i j with hlt | heq | hlt
  · exact absurd (mem_of_shared (· ∈ log) h.mem_of_depends hj.2.2 hlt hiq hjq) hi.2.1
  · exact heq
  · exact absurd (mem_of_shared (· ∈ log) h.mem_of_depends hi.2.2 hlt hjq hiq) hj.2.1

/-- In a schedule with the later of two operations that share a qubit, the earlier one comes before it. -/
theorem pair_sublist (h : Scheduled c log) {i j : Nat} {q : VirtualQubit} (hij : i < j)
    (hi : ActsOn c.ops i q) (hj : ActsOn c.ops j q) (hmem : j ∈ log) : [i, j].Sublist log := by
  obtain ⟨pre, post, rfl⟩ := List.append_of_mem hmem
  have hpre : i ∈ pre := h.mem_of_actsOn rfl hij hi hj
  exact (List.singleton_sublist.mpr hpre).append
    (List.singleton_sublist.mpr List.mem_cons_self)

/-- A schedule of all operations lists each of them once. -/
theorem perm_range (h : Scheduled c log) (hall : ∀ k < c.size, k ∈ log) :
    log.Perm (List.range c.size) := by
  refine (List.perm_ext_iff_of_nodup h.nodup List.nodup_range).mpr fun k => ?_
  rw [List.mem_range]
  exact ⟨h.lt_size k, hall k⟩

/-- A schedule is no longer than the circuit. -/
theorem length_le (h : Scheduled c log) : log.length ≤ c.size := by
  have hsub : log ⊆ List.range c.size := fun k hk => List.mem_range.mpr (h.lt_size k hk)
  simpa using (List.subperm_of_subset h.nodup hsub).length_le

end Scheduled

end Circuit

/-! ## The effect of operations -/

/-- What the numbered operations do to the values of one register or of two. -/
structure Interpretation (V : Type) where
  one : Nat → V → V
  two : Nat → V × V → V × V

namespace Interpretation

variable {V : Type} (I : Interpretation V)

/-- Operation `k` acts on the listed registers, in this order. -/
def act (k : Nat) (file : Nat → V) : List Nat → Nat → V
  | [q] => Function.update file q (I.one k (file q))
  | [a, b] =>
    let values := I.two k (file a, file b)
    Function.update (Function.update file a values.1) b values.2
  | _ => file

/-- Operations act one after the other, each under its number in `ops`. -/
def run (ops : List (List Nat)) (order : List Nat) (file : Nat → V) : Nat → V :=
  order.foldl (fun file k => I.act k file (ops[k]?.getD [])) file

/-- All operations act in the given order. -/
def runAll (ops : List (List Nat)) (file : Nat → V) : Nat → V :=
  I.run ops (List.range ops.length) file

theorem act_of_not_mem {k : Nat} {file : Nat → V} {qs : List Nat} {x : Nat} (h : x ∉ qs) :
    I.act k file qs x = file x := by
  unfold act
  split
  next q => exact Function.update_of_ne (by simpa using h) _ _
  next a b =>
    have hab : x ≠ a ∧ x ≠ b := by simpa using h
    rw [Function.update_of_ne hab.2, Function.update_of_ne hab.1]
  next => rfl

/-- An operation only sees the registers that it acts on. -/
theorem act_congr {k : Nat} {file file' : Nat → V} {qs : List Nat}
    (h : ∀ x ∈ qs, file x = file' x) {x : Nat} (hx : x ∈ qs) :
    I.act k file qs x = I.act k file' qs x := by
  unfold act
  split
  next q =>
    rw [List.mem_singleton.mp hx, Function.update_self, Function.update_self,
      h q List.mem_cons_self]
  next a b =>
    have hvalues : (file a, file b) = (file' a, file' b) :=
      Prod.ext (h a List.mem_cons_self) (h b (List.mem_cons_of_mem a List.mem_cons_self))
    rw [hvalues]
    by_cases hxb : x = b
    · rw [hxb, Function.update_self, Function.update_self]
    · have hxa : x = a := by
        rcases List.mem_cons.mp hx with hx | hx
        · exact hx
        · exact absurd (List.mem_singleton.mp hx) hxb
      rw [Function.update_of_ne hxb, Function.update_of_ne hxb, hxa, Function.update_self,
        Function.update_self]
  next => exact h x hx

/-- Operations on different registers can change places. -/
theorem act_comm {k k' : Nat} {file : Nat → V} {qs qs' : List Nat}
    (h : ∀ x ∈ qs, x ∉ qs') :
    I.act k (I.act k' file qs') qs = I.act k' (I.act k file qs) qs' := by
  funext x
  by_cases hx : x ∈ qs
  · rw [I.act_of_not_mem (h x hx)]
    exact I.act_congr (fun y hy => I.act_of_not_mem (h y hy)) hx
  · rw [I.act_of_not_mem hx]
    by_cases hx' : x ∈ qs'
    · exact I.act_congr (fun y hy => (I.act_of_not_mem fun hy' => h y hy' hy).symm) hx'
    · rw [I.act_of_not_mem hx', I.act_of_not_mem hx', I.act_of_not_mem hx]

theorem run_append (ops : List (List Nat)) (l l' : List Nat) (file : Nat → V) :
    I.run ops (l ++ l') file = I.run ops l' (I.run ops l file) :=
  List.foldl_append

/-- An operation can move behind operations on other registers. -/
theorem run_cons_eq {ops : List (List Nat)} {k : Nat} : ∀ {post : List Nat} (file : Nat → V),
    (∀ m ∈ post, ∀ x ∈ ops[k]?.getD [], x ∉ ops[m]?.getD []) →
    I.run ops (k :: post) file = I.run ops (post ++ [k]) file
  | [], _, _ => rfl
  | m :: post, file, h => by
    have hm := h m List.mem_cons_self
    calc I.run ops (k :: m :: post) file
        = I.run ops post (I.act m (I.act k file (ops[k]?.getD [])) (ops[m]?.getD [])) := rfl
      _ = I.run ops (k :: post) (I.act m file (ops[m]?.getD [])) := by
          rw [← I.act_comm hm]
          rfl
      _ = I.run ops (post ++ [k]) (I.act m file (ops[m]?.getD [])) :=
          run_cons_eq _ fun n hn => h n (List.mem_cons_of_mem m hn)

theorem filter_lt_succ_of_not_mem {n : Nat} {l : List Nat} (h : n ∉ l) :
    l.filter (fun k => decide (k < n + 1)) = l.filter fun k => decide (k < n) := by
  refine List.filter_congr fun k hk => ?_
  have hne : k ≠ n := fun he => h (he ▸ hk)
  rw [decide_eq_decide]
  omega

/-- The operations below `n`, in the order of a schedule of all operations, have the effect that they
have in the given order. -/
theorem run_filter_of_scheduled {c : Circuit} {log : List Nat} (h : c.Scheduled log)
    (hall : ∀ k < c.size, k ∈ log) (file : Nat → V) : ∀ n ≤ c.size,
    I.run (c.ops.map Op.qubits) (log.filter fun k => decide (k < n)) file =
      I.run (c.ops.map Op.qubits) (List.range n) file := by
  intro n
  induction n with
  | zero =>
    intro _
    have hnil : (log.filter fun k => decide (k < 0)) = [] := by
      rw [List.filter_eq_nil_iff]
      simp
    rw [hnil]
    rfl
  | succ n ih =>
    intro hn
    obtain ⟨pre, post, rfl⟩ := List.append_of_mem (hall n (by omega))
    have hnodup := h.nodup
    rw [List.nodup_append] at hnodup
    have hpre : n ∉ pre := fun hmem => hnodup.2.2 n hmem n List.mem_cons_self rfl
    have hpost : n ∉ post := (List.nodup_cons.mp hnodup.2.1).1
    -- what comes later in the schedule but has a smaller number acts on other qubits
    have hfree : ∀ m ∈ post.filter (fun k => decide (k < n)),
        ∀ x ∈ (c.ops.map Op.qubits)[n]?.getD [], x ∉ (c.ops.map Op.qubits)[m]?.getD [] := by
      intro m hm x hx hx'
      obtain ⟨hmem, hlt⟩ := List.mem_filter.mp hm
      have hacts : ∀ {k}, x ∈ (c.ops.map Op.qubits)[k]?.getD [] → ActsOn c.ops k x := by
        intro k hk
        rw [List.getElem?_map] at hk
        cases hop : c.ops[k]? with
        | none => simp [hop] at hk
        | some op =>
          rw [hop] at hk
          exact ⟨op, hop, hk⟩
      have hmpre := h.mem_of_actsOn rfl (of_decide_eq_true hlt) (hacts hx') (hacts hx)
      exact hnodup.2.2 m hmpre m (List.mem_cons_of_mem n hmem) rfl
    -- so `n` can move behind them, to the end of the operations below `n + 1`
    have hfilter : (pre ++ n :: post).filter (fun k => decide (k < n)) =
        pre.filter (fun k => decide (k < n)) ++ post.filter fun k => decide (k < n) := by
      rw [List.filter_append, List.filter_cons_of_neg (by simp)]
    have hfilter' : (pre ++ n :: post).filter (fun k => decide (k < n + 1)) =
        pre.filter (fun k => decide (k < n)) ++ n :: post.filter fun k => decide (k < n) := by
      rw [List.filter_append, List.filter_cons_of_pos (by simp), filter_lt_succ_of_not_mem hpre,
        filter_lt_succ_of_not_mem hpost]
    rw [hfilter']
    generalize pre.filter (fun k => decide (k < n)) = before at *
    generalize post.filter (fun k => decide (k < n)) = behind at *
    calc I.run (c.ops.map Op.qubits) (before ++ n :: behind) file
        = I.run (c.ops.map Op.qubits) (behind ++ [n]) (I.run (c.ops.map Op.qubits) before file) := by
          rw [run_append, I.run_cons_eq _ hfree]
      _ = I.run (c.ops.map Op.qubits) ((before ++ behind) ++ [n]) file := by
          rw [← run_append, List.append_assoc]
      _ = I.run (c.ops.map Op.qubits) (List.range n ++ [n]) file := by
          rw [run_append, ← hfilter, ih (by omega), ← run_append]
      _ = I.run (c.ops.map Op.qubits) (List.range (n + 1)) file := by
          rw [List.range_succ]

/-- A schedule of all operations has the effect of the operations in the given order. -/
theorem run_of_scheduled {c : Circuit} {log : List Nat} (h : c.Scheduled log)
    (hall : ∀ k < c.size, k ∈ log) (file : Nat → V) :
    I.run (c.ops.map Op.qubits) log file = I.runAll (c.ops.map Op.qubits) file := by
  have hfilter : (log.filter fun k => decide (k < c.size)) = log := by
    rw [List.filter_eq_self]
    exact fun k hk => decide_eq_true (h.lt_size k hk)
  have hrun := I.run_filter_of_scheduled h hall file c.size (Nat.le_refl _)
  rw [hfilter] at hrun
  rw [hrun, runAll, List.length_map]
  rfl

end Interpretation

end QubitRouting
