import QubitRouting.Proofs.Router.Frames
import Mathlib.Logic.Relation

/-!
# A router changes only when it finds or registers paths

Everything that a run does to a router it does in two ways: it finds a path, which may go into the cache, or
it changes what is registered (`Router.Change`). A round finds paths for the pairs it offers and for their
detours, a forced route finds one. All of them are found with weights or all without, because a run that
started with weights has weights throughout. So what these two steps keep, routing keeps (`route_finds`).
-/

namespace QubitRouting

namespace Router

variable {r r' : Router} {p p' : Progress} {decay : Option Decay}

/-- A router finds a path, with weights or without, or has other paths registered than before. -/
inductive Change (weighted : Bool) (r : Router) : Router → Prop where
  | found {decay : Option Decay} {a b : Qubit} {path : List Qubit} {r' : Router}
      (hdecay : decay.isSome = weighted) (hpath : r.path decay a b = .ok (path, r')) : Change weighted r r'
  | registered (paths : Registry) : Change weighted r { r with paths }

/-- What a router becomes when paths are found one after the other, all with weights or all without, and
what is registered changes in between. -/
def Finds (weighted : Bool) : Router → Router → Prop :=
  Relation.ReflTransGen (Change weighted)

/-- A path that is found is one that was found with the weights that there are. -/
theorem finds_of_path {a b : Qubit} {found : List Qubit × Router} (h : r.path decay a b = .ok found) :
    Finds decay.isSome r found.2 :=
  .single (.found rfl h)

/-- Any paths may be registered after the last one was found. -/
theorem Finds.with_paths {weighted : Bool} (h : Finds weighted r r') (paths : Registry) :
    Finds weighted r { r' with paths } :=
  h.tail (.registered paths)

/-- Clearing the registry finds nothing. -/
theorem finds_clear (weighted : Bool) (r : Router) : Finds weighted r r.clear :=
  .single (.registered Registry.empty)

/-! ## Offering paths -/

/-- Trying detours finds a path for each of them, up to the one that is registered. -/
theorem addDetour_finds : ∀ {l : List Detour} {r : Router} {answer : Bool × Router},
    addDetour decay l r = .ok answer → Finds decay.isSome r answer.2
  | [], _, _, h => by
    obtain rfl := Except.ok.inj h
    exact .refl
  | d :: l, r, answer, h => by
    unfold addDetour at h
    obtain ⟨⟨middle, r₁⟩, hpath, h⟩ := bind_eq_ok_iff.mp h
    have hfirst := finds_of_path hpath
    dsimp only at h
    split at h
    next paths _ =>
      obtain rfl := Except.ok.inj h
      exact hfirst.with_paths paths
    next => exact hfirst.trans (addDetour_finds h)

/-- One pair: the direct path is found first, and then those of the detours if it does not fit. -/
theorem addPath_finds {a b : Qubit} {answer : Bool × Router} (h : r.addPath decay a b = .ok answer) :
    Finds decay.isSome r answer.2 := by
  unfold addPath at h
  obtain ⟨⟨direct, r₁⟩, hpath, h⟩ := bind_eq_ok_iff.mp h
  have hfirst := finds_of_path hpath
  dsimp only at h
  split at h
  next paths _ =>
    obtain rfl := Except.ok.inj h
    exact hfirst.with_paths paths
  next =>
    split at h
    next => exact hfirst.trans (addDetour_finds h)
    next =>
      obtain rfl := Except.ok.inj h
      exact hfirst

/-- Offering paths for a list of pairs finds those of one pair after the other. -/
theorem offer_finds : ∀ {l : List (Qubit × Qubit)} {r : Router} {n : Nat} {answer : Nat × Router},
    offer decay l r n = .ok answer → Finds decay.isSome r answer.2
  | [], _, _, _, h => by
    obtain rfl := Except.ok.inj h
    exact .refl
  | e :: l, r, n, answer, h => by
    unfold offer at h
    split at h
    next =>
      obtain rfl := Except.ok.inj h
      exact .refl
    next =>
      obtain ⟨⟨added, r₁⟩, hadd, h⟩ := bind_eq_ok_iff.mp h
      have hfirst := addPath_finds hadd
      cases added with
      | true => exact hfirst.trans (offer_finds h)
      | false => exact hfirst.trans (offer_finds h)

/-! ## Rounds and runs -/

/-- A step of a run has found paths, with weights if there were any, and there are as before. -/
def Steps (r : Router) (p p' : Progress) (r' : Router) : Prop :=
  Finds p.decay.isSome r r' ∧ p'.decay.isSome = p.decay.isSome

theorem Steps.trans {p₁ p₂ p₃ : Progress} {r₁ r₂ r₃ : Router} (h : Steps r₁ p₁ p₂ r₂)
    (h' : Steps r₂ p₂ p₃ r₃) : Steps r₁ p₁ p₃ r₃ := by
  obtain ⟨hfinds, hdecay⟩ := h
  obtain ⟨hfinds', hdecay'⟩ := h'
  rw [hdecay] at hfinds' hdecay'
  exact ⟨Relation.ReflTransGen.trans hfinds hfinds', hdecay'⟩

/-- Carrying out paths finds none. It only empties the registry. -/
theorem carryOut_finds {count : Nat} (h : r.carryOut p = .ok (p', count, r')) : Steps r p p' r' := by
  obtain ⟨rfl, hdecay, -⟩ := carryOut_eq_ok h
  exact ⟨finds_clear _ r, hdecay⟩

/-- Gathering paths clears the registry, finds those that are offered, and drops some of them again. -/
theorem gather_finds (h : r.gather p = .ok (p', r')) : Steps r p p' r' := by
  obtain ⟨deferred, r₁, hoffered, -, hr', hp'⟩ := gather_eq_ok h
  obtain ⟨placed, -, hoffer⟩ := offered_eq_ok hoffered
  dsimp only at hr' hp'
  subst hr' hp'
  have hfinds : Finds p.decay.isSome r r₁ := (finds_clear _ r).trans (offer_finds hoffer)
  exact ⟨hfinds.with_paths r₁.withinOrder, rfl⟩

theorem round_finds {count : Nat} (h : r.round p = .ok (p', count, r')) : Steps r p p' r' := by
  obtain ⟨p₁, r₁, hgather, hcarry⟩ := round_eq_ok h
  exact (gather_finds hgather).trans (carryOut_finds hcarry)

/-- A forced route finds the path of the closest interaction, and registers nothing else. -/
theorem forceClosest_finds {count : Nat} (h : r.forceClosest p = .ok (p', count, r')) :
    Steps r p p' r' := by
  obtain ⟨placed, -, h⟩ := bind_eq_ok_iff.mp h
  cases placed with
  | nil =>
    obtain ⟨rfl, hrest⟩ := Prod.mk.inj (Except.ok.inj h)
    obtain ⟨-, rfl⟩ := Prod.mk.inj hrest
    exact ⟨finds_clear _ r, rfl⟩
  | cons i rest =>
    obtain ⟨⟨path, r₁⟩, hpath, h⟩ := bind_eq_ok_iff.mp h
    dsimp only at h
    split at h
    next => contradiction
    next paths _ =>
      have hfinds : Finds p.decay.isSome r r₁ := (finds_clear _ r).trans (finds_of_path hpath)
      have hfirst : Steps r p p { r₁ with paths } := ⟨hfinds.with_paths paths, rfl⟩
      exact hfirst.trans (carryOut_finds (liftM_eq_ok_iff.mp h))

/-- A turn is a round, or a round and a forced route. -/
theorem turn_finds (h : r.turn p = .ok (p', r')) : Steps r p p' r' := by
  unfold turn at h
  obtain ⟨⟨p₁, executed, r₁⟩, hround, h⟩ := bind_eq_ok_iff.mp h
  have hsteps := round_finds hround
  dsimp only at h
  split at h
  next =>
    obtain ⟨⟨p₂, executed', r₂⟩, hforce, h⟩ := bind_eq_ok_iff.mp h
    dsimp only at h
    split at h
    next => contradiction
    next =>
      obtain ⟨rfl, rfl⟩ := Prod.mk.inj (Except.ok.inj h)
      -- a forced route starts from the progress of the round, but for a counter
      have hforced := forceClosest_finds hforce
      exact hsteps.trans ⟨hforced.1, hforced.2⟩
  next =>
    obtain ⟨rfl, rfl⟩ := Prod.mk.inj (Except.ok.inj h)
    exact hsteps

/-- A run finds what its turns find. -/
theorem runWithin_finds : ∀ {turns : Nat} {r r' : Router} {p p' : Progress},
    runWithin turns r p = .ok (p', r') → Steps r p p' r'
  | 0, _, _, _, _, h => by contradiction
  | turns + 1, r, r', p, p', h => by
    unfold runWithin at h
    split at h
    next =>
      obtain ⟨rfl, rfl⟩ := Prod.mk.inj (Except.ok.inj h)
      exact ⟨.refl, rfl⟩
    next =>
      obtain ⟨⟨p₁, r₁⟩, hturn, h⟩ := bind_eq_ok_iff.mp h
      exact (turn_finds hturn).trans (runWithin_finds h)

/-- Routing a circuit only finds paths, with weights if the settings have decay, and registers some of them
for a time. -/
theorem route_finds {circuit : Circuit} {layout : Layout} {result : Routing}
    (h : r.route circuit layout = .ok (result, r')) : Finds r.config.decay.isSome r r' := by
  obtain ⟨p, p', r₁, hbegin, hrun, -, rfl⟩ := route_eq_ok h
  have hfinds := (runWithin_finds hrun).1
  rw [(begin_eq_ok hbegin).2.2, Option.isSome_map] at hfinds
  exact hfinds.trans (finds_clear _ r₁)

end Router

end QubitRouting
