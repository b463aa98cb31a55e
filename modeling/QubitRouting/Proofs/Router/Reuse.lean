import QubitRouting.Proofs.Router.Runs
import QubitRouting.Proofs.Router.Searches

/-!
# A router without a cache in use keeps no memory

A router carries two things over to the next circuit: the paths that are still registered, and those in its
cache. Weights and statistics belong to a single run.

What is still registered is never read. A round clears the registry before it offers a path, a forced route
before it adds one, and a run ends by clearing it. So routers that agree but for what is registered, that is
once both are cleared, route every circuit alike (`route_congr`).

With decay, or with caching turned off, nothing is read from the cache or written to it, so finding a path
hands back the router it was given (`path_keeps`). Routing does nothing else to a router than to find and
register paths, and neither do calls that fail. So any history of calls leaves a fresh router fresh, but for
what is registered (`Calls.clear_eq`).
-/

namespace QubitRouting

namespace Router

variable {r r' : Router} {decay : Option Decay}

/-! ## What is registered is cleared before it is read -/

/-- What is offered does not depend on what was registered before. -/
theorem offered_congr (h : r.clear = r'.clear) (p : Progress) : r.offered p = r'.offered p := by
  unfold offered
  rw [h]

theorem gather_congr (h : r.clear = r'.clear) (p : Progress) : r.gather p = r'.gather p := by
  unfold gather
  rw [offered_congr h]

/-- Rounds of routers that agree but for what is registered have the same answer. -/
theorem round_congr (h : r.clear = r'.clear) (p : Progress) : r.round p = r'.round p := by
  unfold round
  rw [gather_congr h]

theorem turn_congr (h : r.clear = r'.clear) (p : Progress) : r.turn p = r'.turn p := by
  unfold turn
  rw [round_congr h]

/-- Runs of routers that agree but for what is registered have the same answer. A run without a turn hands
back the router as it was, so the two agree at the end as they did before. -/
theorem runWithin_congr (h : r.clear = r'.clear) (turns : Nat) (p : Progress) :
    (runWithin turns r p).map (fun answer => (answer.1, answer.2.clear)) =
      (runWithin turns r' p).map fun answer => (answer.1, answer.2.clear) := by
  cases turns with
  | zero => rfl
  | succ turns =>
    unfold runWithin
    split
    next => exact congrArg (fun cleared => Except.ok (p, cleared)) h
    next => rw [turn_congr h]

/-- Routers that agree but for what is registered route every circuit alike: with the same result and the same
router afterwards, or with the same error. -/
theorem route_congr (h : r.clear = r'.clear) (circuit : Circuit) (layout : Layout) :
    r.route circuit layout = r'.route circuit layout := by
  have hcoupling : r.coupling = r'.coupling := congrArg (·.coupling) h
  have hbegin : r.begin circuit layout = r'.begin circuit layout :=
    congrArg (·.begin circuit layout) h
  unfold route
  rw [hcoupling, hbegin]
  split
  next => rfl
  next =>
    split
    next => rfl
    next =>
      cases r'.begin circuit layout with
      | error fault => rfl
      | ok p =>
        -- a run is followed by clearing the router, so only that is needed of the router at its end
        exact bind_congr_of_map (runWithin_congr h (circuit.size + 1) p)
          fun answer => .ok (Routing.mk answer.1.ops answer.1.layout answer.1.stats, answer.2)

/-! ## Without the cache nothing else changes -/

/-- Without the cache, finding a path changes nothing. -/
theorem path_keeps (h : r.usesCache decay = false) (a b : Qubit) :
    Ensures (r.path decay a b) (fun found => found.2 = r) True := by
  unfold path searchAndRemember
  simp only [h, Bool.false_eq_true, if_false]
  cases r.search decay a b with
  | error e => trivial
  | ok o =>
    cases o with
    | none => trivial
    | some path => exact rfl

/-- With weights, or with caching turned off, one step changes no more than what is registered. -/
theorem Change.clear_eq {weighted : Bool} (h : Change weighted r r')
    (hunused : weighted = true ∨ r.config.caching = false) : r'.clear = r.clear := by
  cases h with
  | registered paths => rfl
  | @found decay a b path _ hdecay hpath =>
    have hcache : r.usesCache decay = false := by
      unfold usesCache
      rw [← Option.not_isSome, hdecay]
      rcases hunused with hweighted | hcaching
      · rw [hweighted]
        rfl
      · rw [hcaching, Bool.and_false]
    exact congrArg clear ((path_keeps hcache a b).post_of_eq_ok hpath)

/-- With weights, or with caching turned off, any number of steps change no more than what is registered. -/
theorem Finds.clear_eq {weighted : Bool} (h : Finds weighted r r')
    (hunused : weighted = true ∨ r.config.caching = false) : r'.clear = r.clear := by
  induction h with
  | refl => rfl
  | tail _ hstep ih =>
    refine (hstep.clear_eq ?_).trans ih
    exact hunused.imp_right fun hcaching => (congrArg (·.config.caching) ih).trans hcaching

/-! ## Any history -/

/-- What a router may have become after the listed calls, one after the other. After a call that fails it may be
anything that finding and registering paths leads to. That covers a call that is refused at the start, which
leaves the router as it was, and one that stops half way. -/
inductive Calls : Router → List (Circuit × Layout) → Router → Prop where
  | none (r : Router) : Calls r [] r
  | routed {r r₁ r' : Router} {circuit : Circuit} {layout : Layout} {result : Routing}
      {rest : List (Circuit × Layout)} (hroute : r.route circuit layout = .ok (result, r₁))
      (hrest : Calls r₁ rest r') : Calls r ((circuit, layout) :: rest) r'
  | failed {r r₁ r' : Router} {circuit : Circuit} {layout : Layout} {e : RoutingError}
      {rest : List (Circuit × Layout)} (hroute : r.route circuit layout = .error e)
      (hleft : Finds r.config.decay.isSome r r₁) (hrest : Calls r₁ rest r') :
      Calls r ((circuit, layout) :: rest) r'

/-- Any calls can be made: each of them is routed or fails. -/
theorem exists_calls (history : List (Circuit × Layout)) : ∀ r : Router, ∃ r', Calls r history r' := by
  induction history with
  | nil => exact fun r => ⟨r, .none r⟩
  | cons call rest ih =>
    intro r
    obtain ⟨circuit, layout⟩ := call
    cases hroute : r.route circuit layout with
    | ok answer =>
      obtain ⟨r', hrest⟩ := ih answer.2
      exact ⟨r', .routed hroute hrest⟩
    | error e =>
      obtain ⟨r', hrest⟩ := ih r
      exact ⟨r', .failed hroute .refl hrest⟩

/-- With decay, or with caching turned off, calls change no more than what is registered. -/
theorem Calls.clear_eq {history : List (Circuit × Layout)} (h : Calls r history r')
    (hunused : r.config.decay.isSome = true ∨ r.config.caching = false) : r'.clear = r.clear := by
  -- after one call the settings are the same, so the rest of the calls starts as this one did
  have hcall : ∀ {r r₁ r' : Router}, (r₁.config.decay.isSome = true ∨ r₁.config.caching = false →
      r'.clear = r₁.clear) → Finds r.config.decay.isSome r r₁ →
      r.config.decay.isSome = true ∨ r.config.caching = false → r'.clear = r.clear := by
    intro r r₁ r' hrest hfinds hunused
    have hclear := hfinds.clear_eq hunused
    have hconfig : r₁.config = r.config := congrArg (·.config) hclear
    exact (hrest (hconfig ▸ hunused)).trans hclear
  induction h with
  | none => rfl
  | routed hroute _ ih => exact hcall ih (route_finds hroute) hunused
  | failed _ hleft _ ih => exact hcall ih hleft hunused

/-- A fresh router routes a circuit the way `routeCircuit` does. -/
theorem routeCircuit_eq {coupling : Coupling} {config : Config} (hmake : make coupling config = .ok r)
    (circuit : Circuit) (layout : Layout) :
    routeCircuit coupling circuit layout config = (r.route circuit layout).map (·.1) := by
  unfold routeCircuit
  rw [hmake]
  show (r.route circuit layout >>= fun answer => pure answer.1) = _
  cases r.route circuit layout with
  | ok answer => rfl
  | error e => rfl

/-- With decay, or with caching turned off, a router that was used before answers every call as a fresh one
would, whatever is still registered and whatever became of the earlier calls: with the same circuit, layout
and statistics, or with the same error. -/
theorem route_after_calls {coupling : Coupling} {config : Config} {r : Router}
    (hmake : make coupling config = .ok r)
    (hunused : config.decay.isSome = true ∨ config.caching = false) (history : List (Circuit × Layout))
    (circuit : Circuit) (layout : Layout) :
    (∃ r', Calls r history r') ∧ ∀ r', Calls r history r' →
      (r'.route circuit layout).map (·.1) = routeCircuit coupling circuit layout config := by
  have hconfig : r.config = config := by
    obtain ⟨⟨⟩, -, hr⟩ := bind_eq_ok_iff.mp hmake
    obtain rfl := Except.ok.inj hr
    rfl
  refine ⟨exists_calls history r, fun r' hcalls => ?_⟩
  rw [route_congr (hcalls.clear_eq (hconfig ▸ hunused)), routeCircuit_eq hmake]

/-- The history holds a routed circuit, a layout of the wrong width, and one that is too small. At the end a path
across the whole line is registered, as if the last call had left it there. It would keep out every other path. -/
theorem lineRouter_after_calls : ∃ result r₁ left,
    lineRouter.route threeOps gapped = .ok (result, r₁) ∧
    r₁.route threeOps (Layout.trivial 3) = .error (.layoutWidth 3 4) ∧
    r₁.route threeOps ⟨[1], [none, some 0, none, none]⟩ = .error (.layoutTooSmall 1 3) ∧
    Registry.empty.add? [0, 1, 2, 3] = some left ∧
    (route { r₁ with paths := left } threeOps gapped).map (·.1) =
      routeCircuit line threeOps gapped Config.standard := by
  have hok : (lineRouter.route threeOps gapped).isOk = true := by decide +kernel
  obtain ⟨⟨result, r₁⟩, hroute⟩ := exists_of_isOk hok
  have hclear : r₁.clear = lineRouter.clear := (route_finds hroute).clear_eq (.inl rfl)
  have hwidth : r₁.route threeOps (Layout.trivial 3) = .error (.layoutWidth 3 4) := route_congr hclear _ _
  have hsmall : r₁.route threeOps ⟨[1], [none, some 0, none, none]⟩ = .error (.layoutTooSmall 1 3) :=
    route_congr hclear _ _
  have hcalls : Calls lineRouter [(threeOps, gapped), (threeOps, Layout.trivial 3),
      (threeOps, ⟨[1], [none, some 0, none, none]⟩)] { r₁ with paths := Registry.empty.insert [0, 1, 2, 3] } :=
    .routed hroute (.failed hwidth .refl (.failed hsmall (.single (.registered _)) (.none _)))
  exact ⟨result, r₁, _, hroute, hwidth, hsmall, by decide,
    (route_after_calls rfl (.inl rfl) _ threeOps gapped).2 _ hcalls⟩

end Router

end QubitRouting
