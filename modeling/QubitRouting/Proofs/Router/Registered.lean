import QubitRouting.Proofs.Registry.Coherent
import QubitRouting.Proofs.Router.Statistics

/-!
# Every registered path joins a ready interaction

A path is found by a search, or taken from the cache in one direction or the other, or put together from a
link and the way on from there. Whatever it is, when it is registered it is a route between the positions of
a ready interaction (`offered_joins_ready`). The interaction is the only one that it joins, and no other
registered path joins it.

This holds at the start of every round of every run, by what one turn keeps (`callsWithin_sound`). Costs do
not matter: nothing here looks at the weights.
-/

namespace QubitRouting

namespace Progress

/-- The path is a route between the positions of the two qubits of the interaction. -/
def Joins (c : Coupling) (p : Progress) (i : Interaction) (path : List Qubit) : Prop :=
  ∃ a b, p.layout.toPhysical i.left = .ok a ∧ p.layout.toPhysical i.right = .ok b ∧ c.IsRoute a b path

/-- The registered paths and the ready interactions that they join. -/
structure Matched (c : Coupling) (p : Progress) (paths : Registry) : Prop where
  /-- A registered path joins one ready interaction. -/
  owner : ∀ id path, paths.path? id = some path → ∃! i, i ∈ p.frontier.ready ∧ p.Joins c i path
  /-- Different registered paths join different interactions. -/
  distinct : ∀ i id id' path path', paths.path? id = some path → paths.path? id' = some path' →
    p.Joins c i path → p.Joins c i path' → id = id'

variable {c : Coupling} {circuit : Circuit} {start : Layout} {p : Progress}

theorem Joins.isRoute {i : Interaction} {path : List Qubit} (h : p.Joins c i path) :
    c.IsRoute (p.layout.site i.left) (p.layout.site i.right) path := by
  obtain ⟨a, b, ha, hb, hroute⟩ := h
  rwa [Layout.site_eq ha, Layout.site_eq hb]

theorem joins_of_isRoute (hp : Sound c circuit start p) {i : Interaction} (hi : i ∈ p.frontier.ready)
    {path : List Qubit} (h : c.IsRoute (p.layout.site i.left) (p.layout.site i.right) path) :
    p.Joins c i path := by
  obtain ⟨⟨hleft, hright⟩, -⟩ := placed_lt hp hi
  exact ⟨_, _, Layout.toPhysical_eq_site hleft, Layout.toPhysical_eq_site hright, h⟩

/-- A valid registry of routes between ready pairs matches paths with interactions. -/
theorem matched_of_serves (hp : Sound c circuit start p) {paths : Registry}
    (hserves : Router.Serves c p.readyPairs paths) : Matched c p paths := by
  refine ⟨fun id path hpath => ?_, fun i id id' path path' hpath hpath' hjoins hjoins' => ?_⟩
  · obtain ⟨s, hs, rfl⟩ := Registry.path?_eq_some_iff.mp hpath
    obtain ⟨e, he, hroute⟩ := hserves.2 s.nodes (Registry.mem_paths_iff.mpr ⟨id, s, hs, rfl⟩)
    obtain ⟨i, hi, rfl⟩ := List.mem_map.mp he
    refine ⟨i, ⟨hi, joins_of_isRoute hp hi hroute⟩, fun j hj => ?_⟩
    -- both start where the path starts
    have hsite := Option.some.inj (hj.2.isRoute.head.symm.trans hroute.head)
    exact eq_of_site_eq hp hj.1 hi (by simp [Frontier.qubitsOf]) (by simp [Frontier.qubitsOf]) hsite
  · by_contra hne
    -- the paths would have the same first node, which is an end of both
    have happart := hserves.1.apart_of_path? hne hpath hpath'
    have hend := hjoins.isRoute.head
    refine happart.ends_left (p.layout.site i.left) ?_ (List.mem_of_head? hjoins'.isRoute.head)
    unfold pathEnds
    rw [hend]
    exact List.mem_append_left _ List.mem_cons_self

end Progress

namespace Router

open Progress (Sound Settled Matched matched_of_serves)

variable {c : Coupling} {config : Config} {circuit : Circuit} {start : Layout} {r : Router}
  {p : Progress}

/-- Every round of a run starts with a router for the device and a sound progress. -/
theorem callsWithin_sound : ∀ (turns : Nat) {r : Router} {p : Progress}, Fits c config r →
    Sound c circuit start p → Settled c p →
    ∀ call ∈ callsWithin turns r p, Fits c config call.1 ∧ Sound c circuit start call.2
  | 0, _, _, _, _, _ => fun _ h => absurd h List.not_mem_nil
  | turns + 1, r, p, hr, hp, hsettled => by
    unfold callsWithin
    split
    next => exact fun _ h => absurd h List.not_mem_nil
    next hdone =>
      intro call hcall
      rcases List.mem_cons.mp hcall with rfl | hcall
      · exact ⟨hr, hp⟩
      · split at hcall
        next p' r' hturn =>
          have hne : p.frontier.ready ≠ [] := fun h => hdone (List.isEmpty_iff.mpr h)
          obtain ⟨_, _, hfits, _, _, _, _, _, _, hout⟩ :=
            (turn_ensures hr hp hsettled hne).post_of_eq_ok hturn
          exact callsWithin_sound turns hfits hout.sound hout.settled call hcall
        next => exact absurd hcall List.not_mem_nil

/-- At every round of every run, each path that was registered for it is a route along links, without
repetitions, between the positions of one ready interaction, and no two belong to the same one. Paths are
offered whenever no position on the device plus the cache threshold overflows a word. A run starts no round
unless the layout fits. -/
theorem offered_joins_ready {n m : Nat} {links : List (Qubit × Qubit)} {input : List (List VirtualQubit)}
    {coupling : Coupling} {config : Config} {r : Router} {circuit : Circuit} {layout : Layout}
    (hcoupling : Coupling.ofLinks n links = .ok coupling) (hr : Used coupling config r)
    (hcircuit : Circuit.ofOps m input = .ok circuit) (hlayout : layout.Built)
    (hfits : LayoutFits coupling circuit layout) :
    ∀ call ∈ r.roundCalls circuit layout,
      (∀ deferred r', call.1.offered call.2 = .ok (deferred, r') → Matched coupling call.2 r'.paths) ∧
      ((∀ position < coupling.numQubits, position + config.pathLengthThreshold < wordCount) →
        ∃ deferred r', call.1.offered call.2 = .ok (deferred, r')) := by
  intro call hcall
  have hused := hr.fits (Coupling.ofLinks_connected hcoupling)
  obtain ⟨p, hbegin, hp, hsettled, -⟩ :=
    begin_total hused (Circuit.ofOps_linked hcircuit).1 hlayout.matching hfits
  unfold roundCalls at hcall
  rw [hbegin] at hcall
  obtain ⟨hcallFits, hcallSound⟩ := callsWithin_sound _ hused hp hsettled call hcall
  have hoffered := offered_ensures hcallFits hcallSound
  refine ⟨fun deferred r' h => matched_of_serves hcallSound (hoffered.post_of_eq_ok h).1, fun hword => ?_⟩
  obtain ⟨⟨deferred, r'⟩, h, -⟩ := hoffered.total (not_overflows hused hword)
  exact ⟨deferred, r', h⟩

/-- The first round of two operations that get in each other's way registers a path for one of them. -/
theorem overlapping_joins_ready : LayoutFits line overlapping (Layout.trivial 4) ∧
    ∃ call ∈ lineRouter.roundCalls overlapping (Layout.trivial 4), ∃ deferred r',
      call.1.offered call.2 = .ok (deferred, r') ∧ r'.paths.path? 0 = some [0, 1, 2] ∧
      Matched line call.2 r'.paths := by
  have hfits : LayoutFits line overlapping (Layout.trivial 4) := ⟨rfl, Nat.le_refl 4⟩
  have hfirst : (lineRouter.roundCalls overlapping (Layout.trivial 4)).head?.bind (fun call =>
      (call.1.offered call.2).toOption.bind fun answer => answer.2.paths.path? 0) = some [0, 1, 2] := by
    decide +kernel
  obtain ⟨call, hhead, hpath⟩ := Option.bind_eq_some_iff.mp hfirst
  have hcall := List.mem_of_head? hhead
  obtain ⟨hmatched, htotal⟩ := offered_joins_ready ofLinks_line used_lineRouter ofOps_overlapping
    (.trivial 4) hfits call hcall
  obtain ⟨deferred, r', hoffered⟩ := htotal (by decide)
  rw [hoffered] at hpath
  exact ⟨hfits, call, hcall, deferred, r', hoffered, hpath, hmatched deferred r' hoffered⟩

end Router

end QubitRouting
