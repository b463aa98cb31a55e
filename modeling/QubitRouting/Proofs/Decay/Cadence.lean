import QubitRouting.Decay
import QubitRouting.Proofs.Checked
import Mathlib.Logic.Function.Iterate

/-!
# The weights follow a cadence

All weights are set back when someone asks for it, and by every swap that completes a period. Swaps are numbered
from the start and nothing restarts the count, so whether a request sets the weights back depends on everything
that came before it (`Resets`). `Since` splits a history at its latest reset, and there is one way to do so
(`Since.unique`).

After any history the weight of a qubit is one, raised as often as the qubit was an end of a swap since that reset
(`Follows`). What one request does to this is `Follows.serve`. Weights are floating-point numbers: nothing is said
about the value of a sum, only which sums are made, and in which order.
-/

namespace QubitRouting

namespace Decay

/-! ## Histories -/

/-- What can be asked of the weights. -/
inductive Request where
  | registerSwap (s : Swap)
  | resetAll
deriving DecidableEq, Repr

/-- A swap is one of two qubits that have a weight. -/
def Request.InRange (n : Nat) : Request → Prop
  | .registerSwap s => s.1 < n ∧ s.2 < n
  | .resetAll => True

/-- The ends of the swap, if the request registers one. -/
def Request.ends : Request → List Qubit
  | .registerSwap s => [s.1, s.2]
  | .resetAll => []

/-- Does the request register a swap? -/
def Request.isSwap : Request → Bool
  | .registerSwap _ => true
  | .resetAll => false

/-- Carry out one request. -/
def serve (d : Decay) : Request → Except Fault Decay
  | .registerSwap s => d.registerSwap s
  | .resetAll => .ok d.resetAll

/-- Weights for `n` qubits, after the requests. -/
def run (n : Nat) (policy : DecayPolicy) (requests : List Request) : Except Fault Decay :=
  requests.foldlM serve (start n policy)

/-- Coming after the requests in `past`, this one sets all weights back: it asks for that, or it registers a swap
whose number, counted from one since the start, is a multiple of the period. -/
def Resets (period : Nat) (past : List Request) : Request → Prop
  | .registerSwap _ => period ∣ past.countP Request.isSwap + 1
  | .resetAll => True

instance (period : Nat) (past : List Request) : DecidablePred (Resets period past)
  | .registerSwap _ => inferInstanceAs (Decidable (period ∣ past.countP Request.isSwap + 1))
  | .resetAll => inferInstanceAs (Decidable True)

/-- Of a history `earlier ++ recent`, the part `recent` is what came after the latest reset. -/
structure Since (period : Nat) (earlier recent : List Request) : Prop where
  /-- The earlier part ends with a reset, unless there never was one. -/
  ends_in_reset : earlier = [] ∨ ∃ past request, earlier = past ++ [request] ∧ Resets period past request
  /-- No reset came after that. -/
  quiet : ∀ before request, before ++ [request] <+: recent → ¬ Resets period (earlier ++ before) request

namespace Since

variable {period : Nat} {earlier earlier' recent recent' past : List Request} {request : Request}

theorem nil (period : Nat) : Since period [] [] :=
  ⟨.inl rfl, fun before request h => absurd (List.prefix_nil.mp h) (by simp)⟩

theorem of_resets (h : Resets period past request) : Since period (past ++ [request]) [] :=
  ⟨.inr ⟨past, request, rfl, h⟩, fun before request h => absurd (List.prefix_nil.mp h) (by simp)⟩

theorem concat (h : Since period earlier recent) (hquiet : ¬ Resets period (earlier ++ recent) request) :
    Since period earlier (recent ++ [request]) := by
  refine ⟨h.ends_in_reset, fun before request' hprefix => ?_⟩
  rcases List.prefix_concat_iff.mp hprefix with hlast | hprefix
  · obtain ⟨rfl, hrequest⟩ := List.append_inj' hlast rfl
    obtain rfl := List.singleton_inj.mp hrequest
    exact hquiet
  · exact h.quiet before request' hprefix

/-- A later split would end in a reset that the first one excludes. -/
theorem eq_of_append {between : List Request} (h : Since period earlier (between ++ recent))
    (h' : Since period (earlier ++ between) recent) : between = [] := by
  rcases List.eq_nil_or_concat' between with hnil | ⟨before, request, rfl⟩
  · exact hnil
  · rcases h'.ends_in_reset with hempty | ⟨past, request', hlast, hresets⟩
    · simp at hempty
    · rw [← List.append_assoc] at hlast
      obtain ⟨rfl, hrequest⟩ := List.append_inj' hlast rfl
      obtain rfl := List.singleton_inj.mp hrequest
      exact absurd hresets (h.quiet before request (List.prefix_append _ _))

theorem unique (h : Since period earlier recent) (h' : Since period earlier' recent')
    (heq : earlier ++ recent = earlier' ++ recent') : earlier = earlier' ∧ recent = recent' := by
  rcases List.append_eq_append_iff.mp heq with ⟨between, rfl, rfl⟩ | ⟨between, rfl, rfl⟩
  · obtain rfl := h.eq_of_append h'
    simp
  · obtain rfl := h'.eq_of_append h
    simp

end Since

/-! ## Weights -/

/-- The number one, with the increment added to it `k` times, one after the other. -/
def raised (increment : Float) (k : Nat) : Float :=
  (fun weight => weight + increment)^[k] 1.0

theorem raised_succ (increment : Float) (k : Nat) :
    raised increment (k + 1) = raised increment k + increment :=
  Function.iterate_succ_apply' _ _ _

/-- The weights of `n` qubits, each raised as often as it occurs in the list. -/
def table (n : Nat) (increment : Float) (ends : List Qubit) : List Float :=
  (List.range n).map fun q => raised increment (ends.count q)

variable {n : Nat} {increment : Float} {ends : List Qubit} {q : Qubit} {d : Decay}

@[simp] theorem length_table : (table n increment ends).length = n := by
  simp [table]

theorem getElem?_table (hq : q < n) :
    (table n increment ends)[q]? = some (raised increment (ends.count q)) := by
  simp [table, hq]

theorem table_nil : table n increment [] = List.replicate n 1.0 := by
  refine List.eq_replicate_iff.mpr ⟨length_table, fun w hw => ?_⟩
  obtain ⟨q, -, rfl⟩ := List.mem_map.mp hw
  rfl

/-- Raising one weight adds one occurrence. -/
theorem set_table (n : Nat) (increment : Float) (ends : List Qubit) (q : Qubit) :
    (table n increment ends).set q (raised increment (ends.count q) + increment) =
      table n increment (ends ++ [q]) := by
  refine List.ext_getElem (by simp) fun i hi hi' => ?_
  rw [List.getElem_set]
  by_cases hiq : q = i
  · rw [if_pos hiq]
    simp [table, hiq, List.count_append, raised_succ]
  · rw [if_neg hiq]
    simp [table, List.count_append, List.count_singleton, hiq]

theorem raise_eq_ok (hd : d.weights = table n d.policy.increment ends) (hq : q < n) :
    d.raise q = .ok { d with weights := table n d.policy.increment (ends ++ [q]) } := by
  have hweight : d.weights[q]? = some (raised d.policy.increment (ends.count q)) := by
    rw [hd, getElem?_table hq]
  have hlt : q < d.weights.length := by rwa [hd, length_table]
  unfold raise weight
  rw [fetch_eq_ok hweight, ok_bind, store_eq_ok _ hlt, hd, set_table]
  rfl

/-- A swap that completes a period sets all weights back and adds nothing. -/
theorem registerSwap_of_dvd (hperiod : 0 < d.policy.reset) (hdvd : d.policy.reset ∣ d.steps + 1) (s : Swap) :
    d.registerSwap s = .ok (resetAll { d with steps := d.steps + 1 }) := by
  have hmod : (d.steps + 1) % d.policy.reset = 0 := Nat.mod_eq_zero_of_dvd hdvd
  unfold registerSwap
  rw [if_neg (by omega), if_pos hmod]

/-- Any other swap raises the weights of its two ends. -/
theorem registerSwap_of_not_dvd (hperiod : 0 < d.policy.reset) (hdvd : ¬ d.policy.reset ∣ d.steps + 1)
    (hd : d.weights = table n d.policy.increment ends) {s : Swap} (hfirst : s.1 < n) (hsecond : s.2 < n) :
    d.registerSwap s = .ok { d with
      steps := d.steps + 1
      weights := table n d.policy.increment (ends ++ [s.1] ++ [s.2]) } := by
  have hmod : ¬ (d.steps + 1) % d.policy.reset = 0 := fun h => hdvd (Nat.dvd_of_mod_eq_zero h)
  have hraise := raise_eq_ok (d := { d with steps := d.steps + 1 }) hd hfirst
  unfold registerSwap
  dsimp only
  rw [if_neg (by omega), if_neg hmod, hraise, ok_bind, raise_eq_ok rfl hsecond]

/-! ## One request, and any number -/

/-- What the weights are after the requests. -/
structure Follows (n : Nat) (policy : DecayPolicy) (requests : List Request) (d : Decay) : Prop where
  policy_eq : d.policy = policy
  steps_eq : d.steps = requests.countP Request.isSwap
  weights_eq : ∃ earlier recent, requests = earlier ++ recent ∧ Since policy.reset earlier recent ∧
    d.weights = table n policy.increment (recent.flatMap Request.ends)

namespace Follows

variable {policy : DecayPolicy} {requests : List Request} {request : Request}

theorem start (n : Nat) (policy : DecayPolicy) : Follows n policy [] (start n policy) :=
  ⟨rfl, rfl, [], [], rfl, .nil _, table_nil.symm⟩

/-- A reset ends the history so far. -/
theorem reset (h : Follows n policy requests d) (hresets : Resets policy.reset requests request) {steps : Nat}
    (hsteps : steps = (requests ++ [request]).countP Request.isSwap) :
    Follows n policy (requests ++ [request]) (resetAll { d with steps }) := by
  obtain ⟨_, _, -, -, hweights⟩ := h.weights_eq
  refine ⟨h.policy_eq, hsteps, _, [], (List.append_nil _).symm, .of_resets hresets, ?_⟩
  show List.replicate d.weights.length 1.0 = table n policy.increment []
  rw [hweights, length_table, table_nil]

theorem serve (h : Follows n policy requests d) (hperiod : 0 < policy.reset) (hin : request.InRange n) :
    ∃ d', d.serve request = .ok d' ∧ Follows n policy (requests ++ [request]) d' := by
  obtain rfl := h.policy_eq
  cases request with
  | resetAll =>
    have hresets : Resets d.policy.reset requests .resetAll := trivial
    have hcount : d.steps = (requests ++ [Request.resetAll]).countP Request.isSwap := by
      rw [List.countP_append, h.steps_eq]
      rfl
    exact ⟨d.resetAll, rfl, h.reset hresets hcount⟩
  | registerSwap s =>
    have hdvd : Resets d.policy.reset requests (.registerSwap s) ↔ d.policy.reset ∣ d.steps + 1 := by
      rw [h.steps_eq]
      rfl
    have hcount : d.steps + 1 = (requests ++ [Request.registerSwap s]).countP Request.isSwap := by
      rw [List.countP_append, h.steps_eq]
      rfl
    by_cases hresets : Resets d.policy.reset requests (.registerSwap s)
    · exact ⟨_, registerSwap_of_dvd hperiod (hdvd.mp hresets) s, h.reset hresets hcount⟩
    · obtain ⟨earlier, recent, rfl, hsince, hweights⟩ := h.weights_eq
      refine ⟨_, registerSwap_of_not_dvd hperiod (hdvd.not.mp hresets) hweights hin.1 hin.2, rfl, hcount,
        earlier, recent ++ [.registerSwap s], List.append_assoc .., hsince.concat hresets, ?_⟩
      rw [List.flatMap_append, List.append_assoc]
      rfl

theorem run (hperiod : 0 < policy.reset) (hin : ∀ request ∈ requests, request.InRange n) :
    ∃ d, run n policy requests = .ok d ∧ Follows n policy requests d := by
  refine foldlM_total (fun done d => Follows n policy done d) (.start n policy) ?_
  intro done request rest d hrequests h
  exact h.serve hperiod (hin request (by simp [hrequests]))

end Follows

/-- Start with any number of qubits and any policy with a period, and make any requests in range. Split what was
requested at the latest reset, which can be done. Then the weight of every qubit is one, with the increment added
once for each time that the qubit was an end of a swap after the reset. -/
theorem run_follows_cadence {n : Nat} {policy : DecayPolicy} (hperiod : 1 ≤ policy.reset)
    {requests : List Request} (hin : ∀ request ∈ requests, request.InRange n) :
    ∃ d, run n policy requests = .ok d ∧
      (∃ earlier recent, requests = earlier ++ recent ∧ Since policy.reset earlier recent) ∧
      ∀ earlier recent, requests = earlier ++ recent → Since policy.reset earlier recent →
        ∀ q < n, d.weight q =
          .ok ((fun weight => weight + policy.increment)^[(recent.flatMap Request.ends).count q] 1.0) := by
  obtain ⟨d, hrun, h⟩ := Follows.run hperiod hin
  obtain ⟨earlier, recent, hsplit, hsince, hweights⟩ := h.weights_eq
  refine ⟨d, hrun, ⟨earlier, recent, hsplit, hsince⟩, fun earlier' recent' hsplit' hsince' q hq => ?_⟩
  obtain ⟨-, rfl⟩ := hsince.unique hsince' (hsplit.symm.trans hsplit')
  refine fetch_eq_ok ?_
  rw [hweights]
  exact getElem?_table hq

/-- The third swap completes a period, although a reset was asked for before it. Of the two swaps after it one is
of a qubit with itself. -/
def sixRequests : List Request :=
  [.registerSwap (0, 1), .resetAll, .registerSwap (1, 2), .registerSwap (2, 3), .registerSwap (2, 2),
    .registerSwap (2, 3)]

/-- Only the last two requests count: qubit 2 is raised three times and qubit 3 once. -/
theorem sixRequests_cadence : ∃ d, run 4 ⟨0.5, 3⟩ sixRequests = .ok d ∧ d.weight 0 = .ok 1.0 ∧
    d.weight 1 = .ok 1.0 ∧ d.weight 2 = .ok 2.5 ∧ d.weight 3 = .ok 1.5 := by
  have hreset : Since 3 ([.registerSwap (0, 1), .resetAll, .registerSwap (1, 2)] ++ [.registerSwap (2, 3)]) [] :=
    .of_resets (by decide)
  have hsince : Since 3 _ ([] ++ [.registerSwap (2, 2)] ++ [.registerSwap (2, 3)]) :=
    (hreset.concat (by decide)).concat (by decide)
  have hin : ∀ request ∈ sixRequests, request.InRange 4 := by
    simp [sixRequests, Request.InRange]
  have hperiod : 1 ≤ (⟨0.5, 3⟩ : DecayPolicy).reset := by decide
  obtain ⟨d, hrun, -, hweights⟩ := run_follows_cadence hperiod hin
  have hweight := hweights _ _ rfl hsince
  refine ⟨d, hrun, (hweight 0 (by decide)).trans ?_, (hweight 1 (by decide)).trans ?_,
    (hweight 2 (by decide)).trans ?_, (hweight 3 (by decide)).trans ?_⟩
  all_goals decide +kernel

end Decay

end QubitRouting
