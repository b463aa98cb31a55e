import QubitRouting.Proofs.Coupling.Shortest
import QubitRouting.Proofs.Graph.Optimal
import QubitRouting.Proofs.Router.Reuse

/-!
# Paths without decay are shortest

Without weights every link costs one. So a search finds a shortest route (`search_shortest`), and what is
remembered of shortest routes is shortest. Hence a router that has found any paths, with weights or without,
has only shortest routes in its cache (`Precise`, kept by every path that is found: `Precise.path`,
`Precise.finds`): with weights the cache is not in use.

Whether it comes from the cache or from a search, a path without weights then has one node more than the
distance of its ends in the table (`path_shortest`).
-/

namespace QubitRouting

namespace PathCache

theorem hereditary_isShortest {c : Coupling} (hc : c.Connected) : Hereditary c.IsShortest where
  head := fun h => h.isRoute.head
  reverse := fun h => h.reverse hc
  of_infix := fun h => h.of_infix

end PathCache

namespace Router

variable {c : Coupling} {config : Config} {r r' : Router} {a b : Qubit}

theorem decayFits_none : DecayFits c none :=
  fun _ h => by contradiction

/-! ## Finding one path -/

/-- What a search without weights finds is shortest; it finds nothing off the device. -/
theorem search_shortest {path : List Qubit} (hr : Fits c config r)
    (h : r.search none a b = .ok (some path)) :
    a < c.numQubits ∧ b < c.numQubits ∧ c.IsShortest a b path := by
  have hsearch := h
  unfold search at hsearch
  simp only [hr.succ_eq, hr.coupling_eq] at hsearch
  have ha : a < c.numQubits := by
    by_contra hge
    have hnone : c.adjacent a = [] := List.eq_nil_iff_forall_not_mem.mpr fun v hv =>
      hge (hr.connected.lt (Coupling.mem_adjacent_iff.mp hv)).1
    rw [Graph.cheapestPath?_eq_none (Nat.le_of_not_lt hge) hnone] at hsearch
    exact Option.some_ne_none path (Except.ok.inj hsearch).symm
  obtain ⟨hb, k, hwalk, hleast⟩ :=
    Graph.cheapestPath?_least (searchable hr.connected fun _ _ _ _ => ⟨1, rfl⟩) ha hsearch
  obtain ⟨found, hfound, hroute⟩ := search_total hr decayFits_none ha hb
  obtain rfl := Option.some.inj (Except.ok.inj (hfound.symm.trans h))
  refine ⟨ha, hb, hroute, fun q hq => ?_⟩
  have hle := hleast q.reverse _ (Coupling.unitWalk_of_isWalk hq) (hq.reverse hr.connected).head
  have hlen := Graph.UnitWalk.length_eq hwalk
  have hpos := List.length_pos_iff.mpr hq.ne_nil
  rw [List.length_reverse] at hlen
  omega

/-- A router for the device that has remembered shortest routes only. -/
structure Precise (c : Coupling) (config : Config) (r : Router) : Prop where
  fits : Fits c config r
  holds : r.cache.Holds c.IsShortest

/-- A path without weights is shortest, and so is all that is remembered afterwards. -/
theorem Precise.path {path : List Qubit} (hr : Precise c config r)
    (h : r.path none a b = .ok (path, r')) : c.IsShortest a b path ∧ Precise c config r' := by
  have hkind := PathCache.hereditary_isShortest hr.fits.connected
  have hpath := h
  unfold Router.path at hpath
  split at hpath
  next known hget =>
    obtain ⟨rfl, rfl⟩ := Prod.mk.inj (Except.ok.inj hpath)
    split at hget
    next => exact ⟨hr.holds.get? hkind hget, hr⟩
    next => contradiction
  next =>
    unfold searchAndRemember at hpath
    obtain ⟨o, hsearch, hpath⟩ := bind_eq_ok_iff.mp hpath
    cases o with
    | none => contradiction
    | some found =>
      obtain ⟨ha, hb, hshortest⟩ := search_shortest hr.fits (liftM_eq_ok_iff.mp hsearch)
      obtain ⟨-, hfits⟩ := (path_ensures hr.fits decayFits_none ha hb).post_of_eq_ok h
      dsimp only at hpath hfits
      split at hpath
      next =>
        obtain ⟨cache, hadd, hpath⟩ := bind_eq_ok_iff.mp hpath
        obtain ⟨rfl, rfl⟩ := Prod.mk.inj (Except.ok.inj hpath)
        refine ⟨hshortest, hfits, ?_⟩
        exact ((hr.holds.add hkind hshortest).post_of_eq_ok (liftM_eq_ok_iff.mp hadd)).1
      next =>
        obtain ⟨rfl, rfl⟩ := Prod.mk.inj (Except.ok.inj hpath)
        exact ⟨hshortest, hr⟩

/-- Without weights a path is found, unless the cache is in use and overflows. -/
theorem path_total (hr : Fits c config r) (ha : a < c.numQubits) (hb : b < c.numQubits)
    (hword : config.caching = true → ¬ Overflows c config) : ∃ found, r.path none a b = .ok found := by
  cases hcaching : config.caching with
  | true =>
    obtain ⟨found, h, -⟩ := (path_ensures hr decayFits_none ha hb).total (hword hcaching)
    exact ⟨found, h⟩
  | false =>
    have hunused : r.usesCache none = false := by
      unfold usesCache
      rw [hr.config_eq, hcaching, Bool.and_false]
    obtain ⟨path, hsearch, -⟩ := search_total hr decayFits_none ha hb
    refine ⟨(path, r), ?_⟩
    unfold Router.path searchAndRemember
    simp only [hunused, Bool.false_eq_true, if_false, hsearch, liftM_ok, ok_bind]
    rfl

/-! ## Any number of paths, any history -/

/-- Finding a path with weights leaves the cache alone, finding one without adds shortest routes, and what is
registered does not matter. -/
theorem Precise.change {weighted : Bool} (hr : Precise c config r) (h : Change weighted r r') :
    Precise c config r' := by
  cases h with
  | registered paths => exact ⟨hr.fits.with_paths paths, hr.holds⟩
  | @found decay a b path _ hdecay hpath =>
    cases decay with
    | none => exact (hr.path hpath).2
    | some d =>
      obtain rfl : r' = r := (path_keeps rfl a b).post_of_eq_ok hpath
      exact hr

theorem Precise.finds {weighted : Bool} (hr : Precise c config r) (h : Finds weighted r r') :
    Precise c config r' := by
  induction h with
  | refl => exact hr
  | tail _ hstep ih => exact ih.change hstep

theorem Used.precise (hc : c.Connected) (h : Used c config r) : Precise c config r := by
  induction h with
  | made h =>
    have hfits := fits_make hc h
    obtain ⟨⟨⟩, -, hr⟩ := bind_eq_ok_iff.mp h
    obtain rfl := Except.ok.inj hr
    exact ⟨hfits, PathCache.holds_empty _ _⟩
  | routed _ _ _ hroute ih => exact ih.finds (route_finds hroute)

/-- Take a router that was used before, at any point of its next run: whatever paths it has found since, the
path without weights between two qubits exists, leads from one to the other along links, and has one node
more than their distance in the table. No walk between them is shorter. The cache must be able to handle the
threshold, if it is in use: no position on the device plus the threshold may overflow a word. -/
theorem path_shortest {n : Nat} {links : List (Qubit × Qubit)} {coupling : Coupling} {config : Config}
    {r₀ r : Router} {weighted : Bool} {a b : Qubit} (hcoupling : Coupling.ofLinks n links = .ok coupling)
    (hused : Used coupling config r₀) (hfinds : Finds weighted r₀ r)
    (hword : config.caching = true →
      ∀ position < coupling.numQubits, position + config.pathLengthThreshold < wordCount)
    (ha : a < coupling.numQubits) (hb : b < coupling.numQubits) :
    ∃ path r' row d, r.path none a b = .ok (path, r') ∧ coupling.distances[a]? = some row ∧
      row[b]? = some (some d) ∧ path.length = d + 1 ∧ coupling.IsShortest a b path := by
  have hc := Coupling.ofLinks_connected hcoupling
  have hprecise := (hused.precise hc).finds hfinds
  obtain ⟨⟨path, r'⟩, hpath⟩ := path_total hprecise.fits ha hb fun hcaching =>
    not_overflows hprecise.fits (hword hcaching)
  obtain ⟨hshortest, -⟩ := hprecise.path hpath
  obtain ⟨row, d, hrow, hd, hlen⟩ := hshortest.length_eq hc ha hb
  exact ⟨path, r', row, d, hpath, hrow, hd, hlen, hshortest⟩

/-- The line without decay. -/
def steadyRouter : Router :=
  { lineRouter with config := { Config.standard with decay := none } }

/-- A path that was found in one direction is handed out of the cache in the other. -/
theorem steadyRouter_path_shortest : ∃ r,
    steadyRouter.path none 0 3 = .ok ([0, 1, 2, 3], r) ∧ r.cache.get? 3 0 = some [3, 2, 1, 0] ∧
    ∃ path r' row d, r.path none 3 0 = .ok (path, r') ∧ line.distances[3]? = some row ∧
      row[0]? = some (some d) ∧ path.length = d + 1 ∧ line.IsShortest 3 0 path := by
  have hok : (steadyRouter.path none 0 3).isOk = true := by decide +kernel
  obtain ⟨⟨path, r⟩, hpath⟩ := exists_of_isOk hok
  have hcached : (steadyRouter.path none 0 3).toOption.map (fun found =>
      (found.1, found.2.cache.get? 3 0)) = some ([0, 1, 2, 3], some [3, 2, 1, 0]) := by decide +kernel
  rw [hpath] at hcached
  obtain ⟨rfl, hget⟩ := Prod.mk.inj (Option.some.inj hcached)
  have hused : Used line steadyRouter.config steadyRouter := .made rfl
  exact ⟨r, hpath, hget, path_shortest ofLinks_line hused (finds_of_path hpath) (by decide) (by decide)
    (by decide)⟩

end Router

end QubitRouting
