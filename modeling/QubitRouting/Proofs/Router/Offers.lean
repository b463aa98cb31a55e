import QubitRouting.Proofs.Graph.Cheapest
import QubitRouting.Proofs.PathCache.Routes
import QubitRouting.Router.Paths

/-!
# Offered paths are routes

A router *fits* a device and its settings if its tables are those of the device and its cache holds
routes only. Finding, remembering and offering paths keeps that (`offer_ensures`), and every path that
gets registered is a route between the two qubits of a pair it was offered for. An empty registry accepts
any offer, so a round with something to route has a path.

The one way in which any of this can fail is a cache threshold so large that adding a position to it
overflows a word; `Overflows` is that condition.
-/

namespace QubitRouting

namespace Ensures

variable {α : Type} {x : Except Fault α} {post : α → Prop} {reason : Prop}

theorem lift (h : Ensures x post reason) :
    Ensures (liftM x : Except RoutingError α) post reason := by
  cases x with
  | ok a => exact h
  | error e => exact h

end Ensures

@[simp] theorem liftM_ok {α : Type} (a : α) :
    (liftM (Except.ok a : Except Fault α) : Except RoutingError α) = .ok a := rfl

/-- The weights cover the device, and the period of the resets is not empty. -/
def DecayFits (c : Coupling) (decay : Option Decay) : Prop :=
  ∀ d, decay = some d → d.weights.length = c.numQubits ∧ d.policy.reset ≠ 0

/-- A position on a path plus the cache threshold may not fit a word. -/
def Overflows (c : Coupling) (config : Config) : Prop :=
  wordCount ≤ c.numQubits - 1 + max config.pathLengthThreshold 2

namespace Router

/-- The router is one for this device with these settings, and has remembered nothing but routes. -/
structure Fits (c : Coupling) (config : Config) (r : Router) : Prop where
  coupling_eq : r.coupling = c
  config_eq : r.config = config
  connected : c.Connected
  adjacency_eq : r.adjacency = c.adjacency
  distances_eq : r.distances = c.distances
  remembers : r.cache.Remembers c
  threshold_eq : r.cache.threshold = max config.pathLengthThreshold 2
  validated : config.validate = .ok ()

/-- A new router fits. -/
theorem fits_make {c : Coupling} {config : Config} {r : Router} (hc : c.Connected)
    (h : make c config = .ok r) : Fits c config r := by
  obtain ⟨⟨⟩, hvalid, hr⟩ := bind_eq_ok_iff.mp h
  obtain rfl := Except.ok.inj hr
  exact ⟨rfl, rfl, hc, rfl, rfl, PathCache.remembers_empty c _, rfl, hvalid⟩

theorem Fits.with_paths {c : Coupling} {config : Config} {r : Router} (h : Fits c config r)
    (paths : Registry) : Fits c config { r with paths } :=
  { h with }

/-- What validation guarantees about the limit on paths, the threshold and the period of the resets. -/
theorem validate_eq_ok {config : Config} (h : config.validate = .ok ()) :
    config.maxPathsPerRound ≠ some 0 ∧ 2 ≤ config.pathLengthThreshold ∧
      ∀ policy, config.decay = some policy → policy.reset ≠ 0 := by
  have hsettings : (∀ policy, config.decay = some policy → policy.validate = .ok ()) ∧
      (do Config.validateThreshold config.pathLengthThreshold
          Config.validateMaxPaths config.maxPathsPerRound) = .ok () := by
    unfold Config.validate at h
    dsimp only at h
    cases hdecay : config.decay with
    | none =>
      rw [hdecay] at h
      exact ⟨fun _ h => by contradiction, h⟩
    | some policy =>
      rw [hdecay] at h
      obtain ⟨⟨⟩, hpolicy, h⟩ := bind_eq_ok_iff.mp h
      exact ⟨fun policy' he => Option.some.inj he ▸ hpolicy, h⟩
  obtain ⟨hpolicy, h⟩ := hsettings
  obtain ⟨⟨⟩, hthreshold, hpaths⟩ := bind_eq_ok_iff.mp h
  refine ⟨fun hzero => ?_, ?_, fun policy he hreset => ?_⟩
  · unfold Config.validateMaxPaths at hpaths
    rw [if_pos hzero] at hpaths
    contradiction
  · unfold Config.validateThreshold at hthreshold
    split at hthreshold
    next => contradiction
    next => omega
  · have hvalid := hpolicy policy he
    unfold DecayPolicy.validate at hvalid
    rw [if_pos hreset] at hvalid
    split at hvalid
    next => contradiction
    next => contradiction

variable {c : Coupling} {config : Config} {r : Router} {decay : Option Decay} {a b : Qubit}

/-! ## Finding a path -/

/-- The links of a coupling can be searched at any costs that are defined on all of them. -/
theorem searchable {S : Type} {cost : Nat → Nat → Except Fault S} (hc : c.Connected)
    (hcost : ∀ u < c.numQubits, ∀ v < c.numQubits, ∃ x, cost u v = .ok x) :
    Graph.Search.Searchable c.adjacent cost c.numQubits where
  lt := fun _ _ _ hv => (hc.lt (Coupling.mem_adjacent_iff.mp hv)).2
  irrefl := fun u hu => hc.irrefl u (Coupling.mem_adjacent_iff.mp hu)
  cost := fun u hu v hv => hcost u hu v (hc.lt (Coupling.mem_adjacent_iff.mp hv)).2

/-- Costs that are defined on all links lead to a route, whatever they are. -/
theorem cheapestPath?_isRoute {S : Type} [OfNat S 0] [Add S] [LT S] [DecidableLT S] [LE S]
    [DecidableLE S] (hc : c.Connected) {cost : Nat → Nat → Except Fault S}
    (hcost : ∀ u < c.numQubits, ∀ v < c.numQubits, ∃ x, cost u v = .ok x) (ha : a < c.numQubits)
    (hb : b < c.numQubits) :
    ∃ path, Graph.cheapestPath? c.adjacent cost c.numQubits a b = .ok (some path) ∧
      c.IsRoute a b path := by
  obtain ⟨path, hpath, hhead, hlast, hnodup, hchain⟩ :=
    Graph.cheapestPath?_total (searchable hc hcost) ha (hc.reaches ha hb)
  exact ⟨path, hpath, hhead, hlast, hnodup,
    hchain.imp fun _ _ hxy => Coupling.mem_adjacent_iff.mp hxy⟩

theorem linkCost_total {d : Decay} (hd : DecayFits c (some d)) :
    ∀ u < c.numQubits, ∀ v < c.numQubits, ∃ x, d.linkCost u v = .ok x := by
  obtain ⟨hlen, -⟩ := hd d rfl
  have hweight : ∀ q < c.numQubits, ∃ w, d.weight q = .ok w := fun q hq =>
    ⟨_, fetch_eq_ok (List.getElem?_eq_getElem (hlen ▸ hq))⟩
  intro u hu v hv
  obtain ⟨wu, hwu⟩ := hweight u hu
  obtain ⟨wv, hwv⟩ := hweight v hv
  refine ⟨Decay.heavier wu wv, ?_⟩
  unfold Decay.linkCost
  rw [hwu, ok_bind, hwv]
  rfl

theorem Fits.succ_eq (hr : Fits c config r) : (fun q => r.adjacency[q]?.getD []) = c.adjacent := by
  funext q
  rw [hr.adjacency_eq, hr.connected.adjacency_eq]

/-- A search finds a route, with decay or without. -/
theorem search_total (hr : Fits c config r) (hd : DecayFits c decay) (ha : a < c.numQubits)
    (hb : b < c.numQubits) :
    ∃ path, r.search decay a b = .ok (some path) ∧ c.IsRoute a b path := by
  unfold search
  simp only [hr.succ_eq, hr.coupling_eq]
  cases decay with
  | none =>
    -- every link counts one
    exact cheapestPath?_isRoute hr.connected (fun _ _ _ _ => ⟨1, rfl⟩) ha hb
  | some d => exact cheapestPath?_isRoute hr.connected (linkCost_total hd) ha hb

/-- Finding a path registers none. -/
theorem paths_path {found : List Qubit × Router} (h : r.path decay a b = .ok found) :
    found.2.paths = r.paths := by
  unfold path at h
  split at h
  next =>
    obtain rfl := Except.ok.inj h
    rfl
  next =>
    unfold searchAndRemember at h
    obtain ⟨o, -, h⟩ := bind_eq_ok_iff.mp h
    cases o with
    | none => contradiction
    | some path =>
      dsimp only at h
      split at h
      next =>
        obtain ⟨cache, -, h⟩ := bind_eq_ok_iff.mp h
        obtain rfl := Except.ok.inj h
        rfl
      next =>
        obtain rfl := Except.ok.inj h
        rfl

/-- A path is found, in the cache or by a search, unless remembering it overflows. -/
theorem path_ensures (hr : Fits c config r) (hd : DecayFits c decay) (ha : a < c.numQubits)
    (hb : b < c.numQubits) :
    Ensures (r.path decay a b) (fun found => c.IsRoute a b found.1 ∧ Fits c config found.2)
      (Overflows c config) := by
  unfold path
  split
  next path hget =>
    split at hget
    next => exact ⟨hr.remembers.get? hr.connected hget, hr⟩
    next => contradiction
  next =>
    obtain ⟨path, hsearch, hroute⟩ := search_total hr hd ha hb
    unfold searchAndRemember
    rw [hsearch, liftM_ok, ok_bind]
    dsimp only
    split
    next =>
      have hadd := hr.remembers.add hr.connected hroute
      have hlen := hroute.length_le hr.connected ha
      rw [hr.threshold_eq] at hadd
      refine Ensures.bind (hadd.lift.weaken fun hover => ?_) fun cache hcache => ?_
      · unfold Overflows
        omega
      · exact ⟨hroute, { hr with
          remembers := hcache.1
          threshold_eq := hcache.2 }⟩
    next => exact ⟨hroute, hr⟩

/-! ## Offering it -/

/-- Adding a path registers it beside those that were there. -/
theorem mem_paths_add? {paths paths' : Registry} {p : List Qubit} (h : paths.add? p = some paths') :
    p ∈ paths'.paths ∧ (∀ q ∈ paths'.paths, q = p ∨ q ∈ paths.paths) ∧ paths'.ids ≠ [] := by
  obtain ⟨-, rfl⟩ := Registry.add?_eq_some_iff.mp h
  refine ⟨?_, fun q hq => ?_, ?_⟩
  · exact Registry.mem_paths_iff.mpr ⟨_, _, Registry.slot?_insert_self paths p, rfl⟩
  · obtain ⟨i, s, hs, rfl⟩ := Registry.mem_paths_iff.mp hq
    rcases Registry.slot?_insert_cases hs with ⟨-, rfl⟩ | ⟨-, s₀, hs₀, rfl⟩
    · exact .inl rfl
    · exact .inr (Registry.mem_paths_iff.mpr ⟨i, s₀, hs₀, by rw [Slot.nodes_meet]⟩)
  · rw [Registry.ids_insert]
    simp

/-- A registered path visits no node twice. -/
theorem nodup_of_add? {paths paths' : Registry} {p : List Qubit} (h : paths.add? p = some paths') :
    p.Nodup := by
  obtain ⟨haccepts, -⟩ := Registry.add?_eq_some_iff.mp h
  unfold Registry.accepts at haccepts
  exact (isSimplePath_iff.mp (Bool.and_eq_true_iff.mp haccepts).1).2

/-- A detour leads from `a` to `b`: its search starts or ends one link away. -/
structure Detour.Joins (c : Coupling) (a b : Qubit) (d : Detour) : Prop where
  source_lt : d.source < c.numQubits
  target_lt : d.target < c.numQubits
  isRoute : ∀ middle, c.IsRoute d.source d.target middle → (d.lead ++ middle ++ d.trail).Nodup →
    c.IsRoute a b (d.lead ++ middle ++ d.trail)

/-- Every way through a neighbour leads from `a` to `b`, if it visits no qubit twice. -/
theorem joins_of_mem_detours (hr : Fits c config r) (ha : a < c.numQubits) (hb : b < c.numQubits) :
    ∀ d ∈ r.detours a b, Detour.Joins c a b d := by
  intro d hd
  unfold detours at hd
  rw [hr.coupling_eq] at hd
  rcases List.mem_append.mp hd with hd | hd
  · obtain ⟨q, hq, rfl⟩ := List.mem_map.mp hd
    have haq := Coupling.mem_neighbors_iff.mp (List.mem_filter.mp hq).1
    refine ⟨(hr.connected.lt haq).2, hb, fun middle hmiddle hnodup => ?_⟩
    obtain ⟨rest, rfl⟩ := List.head?_eq_some_iff.mp hmiddle.head
    refine ⟨rfl, ?_, hnodup, ?_⟩
    · have hlast := hmiddle.last
      simpa using hlast
    · rw [List.append_nil]
      exact List.isChain_cons_cons.mpr ⟨haq, hmiddle.chain⟩
  · obtain ⟨q, hq, rfl⟩ := List.mem_map.mp hd
    have hbq := Coupling.mem_neighbors_iff.mp (List.mem_filter.mp hq).1
    refine ⟨ha, (hr.connected.lt hbq).2, fun middle hmiddle hnodup => ?_⟩
    refine ⟨?_, ?_, hnodup, ?_⟩
    · rw [List.nil_append, List.head?_append_of_ne_nil _ hmiddle.ne_nil, hmiddle.head]
    · rw [List.nil_append, List.getLast?_concat]
    · rw [List.nil_append, List.isChain_append]
      -- the only new link is the one from the neighbour to `b`
      refine ⟨hmiddle.chain, .singleton _, fun x hx y hy => ?_⟩
      rw [hmiddle.last] at hx
      obtain rfl : q = x := by simpa using hx
      obtain rfl : b = y := by simpa using hy
      exact hr.connected.symm hbq

/-- The answer of an attempt to register a path from `a` to `b` beside `paths`. -/
structure Added (c : Coupling) (config : Config) (a b : Qubit) (paths : Registry)
    (answer : Bool × Router) : Prop where
  fits : Fits c config answer.2
  accepted : answer.1 = true → ∃ p, c.IsRoute a b p ∧ paths.add? p = some answer.2.paths
  refused : answer.1 = false → answer.2.paths = paths

theorem added_of_add? {paths' : Registry} {p : List Qubit} (hr : Fits c config r)
    (hroute : c.IsRoute a b p) (hadd : r.paths.add? p = some paths') :
    Added c config a b r.paths (true, { r with paths := paths' }) :=
  ⟨hr.with_paths paths', fun _ => ⟨p, hroute, hadd⟩, fun h => by contradiction⟩

theorem added_none (hr : Fits c config r) : Added c config a b r.paths (false, r) :=
  ⟨hr, fun h => by contradiction, fun _ => rfl⟩

/-- Of the detours from `a` to `b`, one is registered if one fits. -/
theorem addDetour_ensures (hd : DecayFits c decay) : ∀ (l : List Detour) {r : Router},
    Fits c config r → (∀ d ∈ l, Detour.Joins c a b d) →
    Ensures (addDetour decay l r) (Added c config a b r.paths) (Overflows c config)
  | [], _, hr, _ => added_none hr
  | d :: l, r, hr, hl => by
    have hjoins := hl d List.mem_cons_self
    unfold addDetour
    refine (path_ensures hr hd hjoins.source_lt hjoins.target_lt).and_eq.bind fun found hfound => ?_
    obtain ⟨middle, r'⟩ := found
    obtain ⟨hpath, hroute, hr'⟩ := hfound
    dsimp only at hroute hr' ⊢
    rw [← paths_path hpath]
    split
    next paths' hadd => exact added_of_add? hr' (hjoins.isRoute middle hroute (nodup_of_add? hadd)) hadd
    next => exact addDetour_ensures hd l hr' fun d' hd' => hl d' (List.mem_cons_of_mem d hd')

/-- A path from `a` to `b` is registered if one fits, and an empty registry takes any. -/
theorem addPath_ensures (hr : Fits c config r) (hd : DecayFits c decay) (hvalid : r.paths.Valid)
    (ha : a < c.numQubits) (hb : b < c.numQubits) (hab : a ≠ b) :
    Ensures (r.addPath decay a b)
      (fun answer => Added c config a b r.paths answer ∧ (r.paths.ids = [] → answer.1 = true))
      (Overflows c config) := by
  unfold addPath
  refine (path_ensures hr hd ha hb).and_eq.bind fun found hfound => ?_
  obtain ⟨direct, r'⟩ := found
  obtain ⟨hpath, hroute, hr'⟩ := hfound
  dsimp only at hroute hr' ⊢
  rw [← paths_path hpath] at hvalid ⊢
  split
  next paths' hadd => exact ⟨added_of_add? hr' hroute hadd, fun _ => rfl⟩
  next hnone =>
    -- nothing in an empty registry stands against a route
    have hsome : r'.paths.ids ≠ [] := by
      intro hempty
      have haccepts : r'.paths.accepts direct = true := by
        refine (Registry.accepts_iff hvalid).mpr ⟨⟨hroute.two_le_length hab, hroute.nodup⟩, ?_⟩
        intro i s hs
        have hi := Registry.mem_ids_iff.mpr ⟨s, hs⟩
        rw [hempty] at hi
        exact absurd hi List.not_mem_nil
      have hadd := Registry.add?_eq_some_iff.mpr ⟨haccepts, rfl⟩
      rw [hnone] at hadd
      contradiction
    split
    next =>
      refine (addDetour_ensures hd _ hr' (joins_of_mem_detours hr' ha hb)).mono ?_
      exact fun answer h => ⟨h, fun hempty => absurd hempty hsome⟩
    next => exact ⟨added_none hr', fun hempty => absurd hempty hsome⟩

/-- A valid registry of routes between the listed pairs. -/
def Serves (c : Coupling) (pairs : List (Qubit × Qubit)) (paths : Registry) : Prop :=
  paths.Valid ∧ ∀ path ∈ paths.paths, ∃ e ∈ pairs, c.IsRoute e.1 e.2 path

theorem Serves.of_subset {pairs : List (Qubit × Qubit)} {paths paths' : Registry}
    (h : Serves c pairs paths) (hvalid : paths'.Valid) (hsub : paths'.paths ⊆ paths.paths) :
    Serves c pairs paths' :=
  ⟨hvalid, fun path hpath => h.2 path (hsub hpath)⟩

/-- With nothing registered there is room for a path, because the limit on paths is not zero. -/
theorem isFull_of_ids_nil (hr : Fits c config r) (hvalid : r.paths.Valid)
    (hempty : r.paths.ids = []) : r.isFull = false := by
  unfold isFull
  rw [hr.config_eq]
  have hsize : r.paths.size = 0 := by rw [hvalid.size_eq, hempty, List.length_nil]
  have hlimit := (validate_eq_ok hr.validated).1
  cases hmax : config.maxPathsPerRound with
  | none => rfl
  | some limit =>
    have hne : limit ≠ 0 := fun h => hlimit (by rw [hmax, h])
    dsimp only
    rw [decide_eq_false_iff_not, hsize]
    omega

/-- Offering paths for pairs of different qubits: what is registered are routes between them, and if
there is a pair there is a path. -/
theorem offer_ensures (hd : DecayFits c decay) {pairs : List (Qubit × Qubit)}
    (hpairs : ∀ e ∈ pairs, e.1 < c.numQubits ∧ e.2 < c.numQubits ∧ e.1 ≠ e.2) :
    ∀ (l : List (Qubit × Qubit)) {r : Router} {deferred : Nat}, l ⊆ pairs → Fits c config r →
    Serves c pairs r.paths →
    Ensures (offer decay l r deferred)
      (fun answer => Serves c pairs answer.2.paths ∧ Fits c config answer.2 ∧
        (l ≠ [] ∨ r.paths.ids ≠ [] → answer.2.paths.ids ≠ []))
      (Overflows c config)
  | [], _, _, _, hr, hserves => ⟨hserves, hr, fun h => h.resolve_left fun hne => hne rfl⟩
  | e :: l, r, deferred, hl, hr, hserves => by
    unfold offer
    split
    next hfull =>
      refine ⟨hserves, hr, fun _ hempty => ?_⟩
      rw [isFull_of_ids_nil hr hserves.1 hempty] at hfull
      contradiction
    next =>
      have he := hl List.mem_cons_self
      obtain ⟨ha, hb, hab⟩ := hpairs e he
      have hrest : l ⊆ pairs := fun x hx => hl (List.mem_cons_of_mem e hx)
      refine (addPath_ensures hr hd hserves.1 ha hb hab).bind fun answer hanswer => ?_
      obtain ⟨added, r'⟩ := answer
      obtain ⟨⟨hr', haccepted, hrefused⟩, hfirst⟩ := hanswer
      cases added with
      | true =>
        obtain ⟨p, hroute, hadd⟩ := haccepted rfl
        obtain ⟨-, hmem, hids⟩ := mem_paths_add? hadd
        have hserves' : Serves c pairs r'.paths := by
          refine ⟨hserves.1.add? hadd, fun path hpath => ?_⟩
          rcases hmem path hpath with rfl | hpath
          · exact ⟨e, he, hroute⟩
          · exact hserves.2 path hpath
        refine (offer_ensures hd hpairs l hrest hr' hserves').mono fun answer h => ?_
        exact ⟨h.1, h.2.1, fun _ => h.2.2 (.inr hids)⟩
      | false =>
        have hpaths : r'.paths = r.paths := hrefused rfl
        -- a refusal means that something is registered already
        have hids : r'.paths.ids ≠ [] := fun hempty => by
          rw [hpaths] at hempty
          exact Bool.false_ne_true (hfirst hempty)
        refine (offer_ensures hd hpairs l hrest hr' (hpaths ▸ hserves)).mono fun answer h => ?_
        exact ⟨h.1, h.2.1, fun _ => h.2.2 (.inr hids)⟩

end Router

end QubitRouting
