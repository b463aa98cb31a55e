import QubitRouting.Proofs.Router.Runs

/-!
# The statistics balance

Every swap, every round and every ready interaction is accounted for. `Accounted` says it for one round:
each ready interaction is deferred, discarded or routed, and these are the numbers that a round adds to the
statistics. `Booked.balanced` carries the books from one round to the next, and `runWithin_balanced` to the
end of a run.

What makes the numbers of a round agree is `countP_find?`: looking up the ready interactions in a registry
finds each of its paths once. Two ready interactions have no qubit in common, and two registered paths have
no end in common.
-/

namespace QubitRouting

/-! ## Counting in a tally -/

namespace Tally

variable {κ : Type} {t : Tally κ} {before : κ → κ → Bool}

/-- All keys, each as often as it occurred, added up. -/
def weighted (t : Tally Nat) : Nat :=
  t.foldr (fun e n => e.1 * e.2 + n) 0

/-- The keys ascend, so that no key has two entries. -/
def Ascending (before : κ → κ → Bool) (t : Tally κ) : Prop :=
  (t.map (·.1)).Pairwise fun a b => before a b = true

theorem get_cons [DecidableEq κ] (e : κ × Nat) (k : κ) :
    get (e :: t) k = if k = e.1 then e.2 else get t k := by
  unfold get
  rw [List.lookup_cons]
  split
  next h => rw [if_pos (beq_iff_eq.mp h), Option.getD_some]
  next h => rw [if_neg (beq_eq_false_iff_ne.mp h)]

/-- Counting a key adds it to the weighted sum, whether it has been counted before or not. -/
theorem weighted_count (before : Nat → Nat → Bool) (k : Nat) (t : Tally Nat) :
    (t.count before k).weighted = t.weighted + k := by
  induction t with
  | nil => simp [count, weighted]
  | cons e rest ih =>
    unfold count
    split
    next h =>
      simp only [weighted, List.foldr_cons, h, Nat.mul_add, Nat.mul_one]
      omega
    next =>
      split
      · simp only [weighted, List.foldr_cons, Nat.mul_one]
        omega
      · simp only [weighted, List.foldr_cons] at ih ⊢
        omega

theorem mem_keys_count [DecidableEq κ] {k x : κ} (h : x ∈ (t.count before k).map (·.1)) :
    x = k ∨ x ∈ t.map (·.1) := by
  induction t with
  | nil => simpa [count] using h
  | cons e rest ih =>
    unfold count at h
    split at h
    next he => simpa [he] using h
    next =>
      split at h
      next => simpa using h
      next =>
        rcases List.mem_cons.mp h with rfl | h
        · exact .inr List.mem_cons_self
        · exact (ih h).imp id (List.mem_cons_of_mem _)

/-- The order of the keys is strict and decides between any two. -/
structure IsOrder (before : κ → κ → Bool) : Prop where
  irrefl : ∀ a, before a a = false
  trans : ∀ {a b c}, before a b = true → before b c = true → before a c = true
  connex : ∀ {a b}, a ≠ b → before a b = false → before b a = true

section Order

variable (hb : IsOrder before)
include hb

theorem Ascending.before_of_mem {e : κ × Nat} {k x : κ} (h : Ascending before (e :: t))
    (hk : before k e.1 = true) (hx : x ∈ (e :: t).map (·.1)) : before k x = true := by
  rcases List.mem_cons.mp hx with rfl | hx
  · exact hk
  · exact hb.trans hk ((List.pairwise_cons.mp h).1 x hx)

variable [DecidableEq κ]

/-- Counting keeps the keys in order. -/
theorem Ascending.count (h : Ascending before t) (k : κ) : Ascending before (t.count before k) := by
  induction t with
  | nil => exact List.pairwise_singleton _ k
  | cons e rest ih =>
    obtain ⟨hfirst, hrest⟩ := List.pairwise_cons.mp h
    unfold Tally.count
    split
    next he => exact List.pairwise_cons.mpr ⟨he ▸ hfirst, hrest⟩
    next hne =>
      split
      next hk => exact List.pairwise_cons.mpr ⟨fun x hx => h.before_of_mem hb hk hx, h⟩
      next hk =>
        refine List.pairwise_cons.mpr ⟨fun x hx => ?_, ih hrest⟩
        rcases mem_keys_count hx with rfl | hx
        · exact hb.connex (Ne.symm hne) (Bool.eq_false_iff.mpr hk)
        · exact hfirst x hx

/-- In an ascending tally one key is counted and the others are not. -/
theorem Ascending.get_count (h : Ascending before t) (k x : κ) :
    (t.count before k).get x = t.get x + if x = k then 1 else 0 := by
  induction t with
  | nil =>
    rw [Tally.count, get_cons]
    exact (Nat.zero_add _).symm
  | cons e rest ih =>
    unfold Tally.count
    split
    next he =>
      rw [get_cons, get_cons, he]
      split <;> rfl
    next hne =>
      split
      next hk =>
        rw [get_cons]
        split
        next hx =>
          -- everything in the tally comes after `k`, so `k` did not occur
          have hnone : (e :: rest).lookup k = none := by
            rw [List.lookup_eq_none_iff]
            intro e' he'
            have hbefore := h.before_of_mem hb hk (List.mem_map_of_mem (f := (·.1)) he')
            rw [bne_iff_ne]
            rintro rfl
            rw [hb.irrefl] at hbefore
            contradiction
          rw [show x = k from hx, get, hnone]
          rfl
        next => rfl
      next =>
        rw [get_cons, get_cons, ih (List.pairwise_cons.mp h).2]
        split
        next hx => rw [if_neg (hx ▸ hne), Nat.add_zero]
        next => rfl

end Order

end Tally

/-! ## Counting pairs of qubits -/

/-- The order of the keys in the tally of pairs. -/
def pairBefore (a b : Nat × Nat) : Bool :=
  !lexLe b a

theorem pairBefore_iff {a b : Nat × Nat} :
    pairBefore a b = true ↔ a.1 < b.1 ∨ a.1 = b.1 ∧ a.2 < b.2 := by
  unfold pairBefore lexLe
  simp only [Bool.not_eq_true', Bool.or_eq_false_iff, decide_eq_false_iff_not, Bool.and_eq_false_iff,
    beq_eq_false_iff_ne, ne_eq]
  omega

theorem isOrder_pairBefore : Tally.IsOrder pairBefore where
  irrefl a := by
    rw [Bool.eq_false_iff, Ne, pairBefore_iff]
    omega
  trans := by
    intro a b c hab hbc
    rw [pairBefore_iff] at hab hbc ⊢
    omega
  connex := by
    intro a b hne hab
    rw [Bool.eq_false_iff, Ne, pairBefore_iff] at hab
    rw [Ne, Prod.ext_iff] at hne
    rw [pairBefore_iff]
    omega

namespace RoutingStats

variable {t : Tally (VirtualQubit × VirtualQubit)}

theorem total_countPairs (is : List Interaction) (t : Tally (VirtualQubit × VirtualQubit)) :
    (countPairs is t).total = t.total + is.length := by
  induction is generalizing t with
  | nil => rfl
  | cons i is ih =>
    refine (ih _).trans ?_
    rw [Tally.total_count, List.length_cons]
    omega

theorem ascending_countPairs (is : List Interaction) (h : t.Ascending pairBefore) :
    (countPairs is t).Ascending pairBefore := by
  induction is generalizing t with
  | nil => exact h
  | cons i is ih => exact ih (h.count isOrder_pairBefore _)

/-- Each pair is counted as often as it was routed, in whatever order its qubits came. -/
theorem get_countPairs (is : List Interaction) (h : t.Ascending pairBefore)
    (pair : VirtualQubit × VirtualQubit) :
    (countPairs is t).get pair =
      t.get pair + is.countP fun i => pair == (min i.left i.right, max i.left i.right) := by
  induction is generalizing t with
  | nil => rfl
  | cons i is ih =>
    refine (ih (h.count isOrder_pairBefore _)).trans ?_
    rw [h.get_count isOrder_pairBefore, List.countP_cons]
    simp only [beq_iff_eq]
    omega

end RoutingStats

/-! ## Finding the path of an interaction -/

theorem mem_pathEnds_of_joins {a b : Qubit} {path : List Qubit} (h : joins a b path = true) :
    a ∈ pathEnds path ∧ b ∈ pathEnds path := by
  unfold pathEnds
  rcases joins_iff.mp h with ⟨hhead, hlast⟩ | ⟨hhead, hlast⟩
  · simp [hhead, hlast]
  · simp [hhead, hlast]

theorem mem_of_mem_pathEnds {x : Qubit} {path : List Qubit} (h : x ∈ pathEnds path) : x ∈ path := by
  unfold pathEnds at h
  rcases List.mem_append.mp h with h | h
  · exact List.mem_of_mem_head? (Option.mem_toList.mp h)
  · exact List.mem_of_getLast? (Option.mem_toList.mp h)

/-- Only one registered path can join two given qubits. -/
theorem Registry.Valid.find?_eq_some_iff {r : Registry} (hr : r.Valid) {a b : Qubit} {id : PathId} :
    r.find? a b = some id ↔ ∃ s, r.slot? id = some s ∧ joins a b s.nodes = true := by
  have hfound : ∀ {id}, r.find? a b = some id → ∃ s, r.slot? id = some s ∧ joins a b s.nodes = true := by
    intro id h
    obtain ⟨e, he, rfl⟩ := Option.map_eq_some_iff.mp h
    have hjoins := List.find?_some he
    exact ⟨e.2, Registry.mem_entries_iff.mp (List.mem_of_find?_eq_some he), hjoins⟩
  refine ⟨hfound, fun ⟨s, hs, hjoins⟩ => ?_⟩
  have hsome : (r.find? a b).isSome = true :=
    Registry.isSome_find?_iff.mpr ⟨s.nodes, Registry.mem_paths_iff.mpr ⟨id, s, hs, rfl⟩, hjoins⟩
  obtain ⟨id', hid'⟩ := Option.isSome_iff_exists.mp hsome
  obtain ⟨t, ht, hjoins'⟩ := hfound hid'
  by_cases heq : id' = id
  · rw [hid', heq]
  · -- an end of one path would lie on the other
    exact absurd (mem_of_mem_pathEnds (mem_pathEnds_of_joins hjoins').1)
      ((hr.apart hs ht (Ne.symm heq)).ends_left a (mem_pathEnds_of_joins hjoins).1)

namespace Progress

variable {c : Coupling} {circuit : Circuit} {start : Layout} {p : Progress}

/-- Ready interactions that share the position of a qubit are the same. -/
theorem eq_of_site_eq (hp : Sound c circuit start p) {i j : Interaction} (hi : i ∈ p.frontier.ready)
    (hj : j ∈ p.frontier.ready) {u v : VirtualQubit} (hu : u ∈ Frontier.qubitsOf i)
    (hv : v ∈ Frontier.qubitsOf j) (hsite : p.layout.site u = p.layout.site v) : i = j := by
  have hui := hp.frontier.actsOn hi hu
  have hvj := hp.frontier.actsOn hj hv
  have huv : u = v := by
    by_contra hne
    exact hp.matching.site_ne (lt_numVirtual hp hui) (lt_numVirtual hp hvj) hne hsite
  rw [huv] at hui
  have hop := hp.frontier.scheduled.eq_of_available (hp.frontier.available_of_mem_ready hi)
    (hp.frontier.available_of_mem_ready hj) hui hvj
  exact hp.frontier.eq_of_op_eq hi hj hop

/-- Looking up all ready interactions finds every path of a registry, and each of them once. -/
theorem countP_find? (hp : Sound c circuit start p) {paths : Registry}
    (hserves : Router.Serves c p.readyPairs paths) :
    (p.frontier.ready.map (placeAt p.layout)).countP (fun i => (paths.find? i.a i.b).isSome) =
      paths.size := by
  let number (i : Interaction) := paths.find? (p.layout.site i.left) (p.layout.site i.right)
  have hready : p.frontier.ready.Nodup := by
    have h := hp.frontier.nodup
    rw [List.append_nil] at h
    exact h.of_map
  have hinj : ∀ i ∈ p.frontier.ready.filter fun i => (number i).isSome,
      ∀ j ∈ p.frontier.ready.filter fun i => (number i).isSome, number i = number j → i = j := by
    intro i hi j hj hij
    obtain ⟨hi, hsome⟩ := List.mem_filter.mp hi
    obtain ⟨hj, -⟩ := List.mem_filter.mp hj
    obtain ⟨id, hid⟩ := Option.isSome_iff_exists.mp hsome
    obtain ⟨s, hs, hjoins⟩ := hserves.1.find?_eq_some_iff.mp hid
    obtain ⟨s', hs', hjoins'⟩ := hserves.1.find?_eq_some_iff.mp (hij.symm.trans hid)
    obtain rfl : s = s' := Option.some.inj (hs.symm.trans hs')
    -- the path starts at a qubit of each
    rcases joins_iff.mp hjoins with ⟨h, -⟩ | ⟨h, -⟩ <;>
      rcases joins_iff.mp hjoins' with ⟨h', -⟩ | ⟨h', -⟩ <;>
      exact eq_of_site_eq hp hi hj (by simp [Frontier.qubitsOf]) (by simp [Frontier.qubitsOf])
        (Option.some.inj (h.symm.trans h'))
  have hperm : ((p.frontier.ready.filter fun i => (number i).isSome).map number).Perm
      (paths.ids.map some) := by
    refine (List.perm_ext_iff_of_nodup ((hready.filter _).map_on hinj)
      (List.Nodup.map (Option.some_injective _) (Registry.ids_nodup paths))).mpr fun o => ?_
    simp only [List.mem_map, List.mem_filter]
    constructor
    · rintro ⟨i, ⟨-, hsome⟩, rfl⟩
      obtain ⟨id, hid⟩ := Option.isSome_iff_exists.mp hsome
      obtain ⟨s, hs, -⟩ := hserves.1.find?_eq_some_iff.mp hid
      exact ⟨id, Registry.mem_ids_iff.mpr ⟨s, hs⟩, hid.symm⟩
    · rintro ⟨id, hid, rfl⟩
      obtain ⟨s, hs⟩ := Registry.mem_ids_iff.mp hid
      obtain ⟨e, he, hroute⟩ := hserves.2 s.nodes (Registry.mem_paths_iff.mpr ⟨id, s, hs, rfl⟩)
      obtain ⟨i, hi, rfl⟩ := List.mem_map.mp he
      have hnumber : number i = some id := hserves.1.find?_eq_some_iff.mpr
        ⟨s, hs, joins_iff.mpr (.inl ⟨hroute.head, hroute.last⟩)⟩
      exact ⟨i, ⟨hi, by rw [hnumber]; rfl⟩, hnumber⟩
  have hlen := hperm.length_eq
  rw [List.length_map, List.length_map, ← List.countP_eq_length_filter] at hlen
  rw [List.countP_map, hserves.1.size_eq, ← hlen]
  rfl

end Progress

/-! ## What a round adds to the books -/

namespace Router

open Progress (Sound Settled CarriedOut placeAt placedReady_eq carriedStats carriedStats_eq countP_find?)

variable {c : Coupling} {config : Config} {circuit : Circuit} {start : Layout} {r : Router}
  {p : Progress} {decay : Option Decay}

theorem size_add? {paths paths' : Registry} {path : List Qubit} (h : paths.add? path = some paths') :
    paths'.size = paths.size + 1 := by
  obtain ⟨-, rfl⟩ := Registry.add?_eq_some_iff.mp h
  rfl

/-- The registry grows by one path if a detour was registered, and else not at all. -/
theorem size_addDetour : ∀ {l : List Detour} {r r' : Router} {added : Bool},
    addDetour decay l r = .ok (added, r') → r'.paths.size = r.paths.size + added.toNat
  | [], r, r', added, h => by
    obtain ⟨rfl, rfl⟩ := Prod.mk.inj (Except.ok.inj h)
    rfl
  | d :: l, r, r', added, h => by
    unfold addDetour at h
    obtain ⟨⟨middle, r₁⟩, hpath, h⟩ := bind_eq_ok_iff.mp h
    rw [← paths_path hpath]
    dsimp only at h ⊢
    split at h
    next paths hadd =>
      obtain ⟨rfl, rfl⟩ := Prod.mk.inj (Except.ok.inj h)
      exact size_add? hadd
    next => exact size_addDetour h

/-- The registry grows by one path if the pair got one, directly or by a detour. -/
theorem size_addPath {a b : Qubit} {r' : Router} {added : Bool}
    (h : r.addPath decay a b = .ok (added, r')) : r'.paths.size = r.paths.size + added.toNat := by
  unfold addPath at h
  obtain ⟨⟨direct, r₁⟩, hpath, h⟩ := bind_eq_ok_iff.mp h
  rw [← paths_path hpath]
  dsimp only at h ⊢
  split at h
  next paths hadd =>
    obtain ⟨rfl, rfl⟩ := Prod.mk.inj (Except.ok.inj h)
    exact size_add? hadd
  next =>
    split at h
    next => exact size_addDetour h
    next =>
      obtain ⟨rfl, rfl⟩ := Prod.mk.inj (Except.ok.inj h)
      rfl

/-- Every pair is either deferred or gets a path. -/
theorem size_offer : ∀ {l : List (Qubit × Qubit)} {r r' : Router} {n m : Nat},
    offer decay l r n = .ok (m, r') → m + r'.paths.size = n + r.paths.size + l.length
  | [], r, r', n, m, h => by
    obtain ⟨rfl, rfl⟩ := Prod.mk.inj (Except.ok.inj h)
    rfl
  | e :: l, r, r', n, m, h => by
    unfold offer at h
    split at h
    next =>
      -- the limit is reached, and all the others are deferred together
      obtain ⟨rfl, rfl⟩ := Prod.mk.inj (Except.ok.inj h)
      rw [List.length_cons]
      omega
    next =>
      obtain ⟨⟨added, r₁⟩, hadd, h⟩ := bind_eq_ok_iff.mp h
      have hsize := size_addPath hadd
      rw [List.length_cons]
      cases added with
      | true =>
        have hrest := size_offer h
        rw [Bool.toNat_true] at hsize
        omega
      | false =>
        have hrest := size_offer h
        rw [Bool.toNat_false] at hsize
        omega

/-- The ready interactions of a round by what became of them. The differences are those of sizes that
really drop. -/
structure Accounted (placed : List Placed) (deferred : Nat) (offers paths kept : Registry) : Prop where
  size_le : paths.size ≤ offers.size
  kept_le : kept.size ≤ paths.size
  /-- The deferred ones are those that got no path. -/
  deferred_eq : deferred = placed.countP fun i => (offers.find? i.a i.b).isNone
  /-- The discarded ones are those that got a path and lost it. -/
  discarded_eq : (offers.size - paths.size) + (paths.size - kept.size) =
    placed.countP fun i => (offers.find? i.a i.b).isSome && (kept.find? i.a i.b).isNone
  /-- The routed ones are those that have a path at the end. -/
  routed_eq : kept.size = placed.countP fun i => (kept.find? i.a i.b).isSome
  /-- There are no others. -/
  length_eq : placed.length =
    deferred + ((offers.size - paths.size) + (paths.size - kept.size)) + kept.size

theorem countP_add_countP_isNone {α β : Type} {l : List α} (f : α → Option β) :
    l.countP (fun x => (f x).isSome) + l.countP (fun x => (f x).isNone) = l.length := by
  rw [List.length_eq_countP_add_countP fun x => (f x).isSome]
  exact congrArg _ (List.countP_congr fun x _ => by simp)

theorem isSome_find?_of_subset {paths kept : Registry} (hsub : kept.paths ⊆ paths.paths) {a b : Qubit}
    (h : (kept.find? a b).isSome = true) : (paths.find? a b).isSome = true := by
  obtain ⟨path, hpath, hjoins⟩ := Registry.isSome_find?_iff.mp h
  exact Registry.isSome_find?_iff.mpr ⟨path, hsub hpath, hjoins⟩

/-- Every ready interaction without a path is deferred, every path that goes is discarded, and the rest are
routed. -/
theorem accounted (hp : Sound c circuit start p) {placed : List Placed}
    (hperm : placed.Perm (p.frontier.ready.map (placeAt p.layout))) {deferred : Nat}
    {offers paths kept : Registry} {swaps : List Swap}
    (hoffers : deferred + offers.size = placed.length)
    (hserves : Serves c p.readyPairs offers) (hvalid : paths.Valid)
    (hsub : paths.paths ⊆ offers.paths) (hsize : paths.size ≤ offers.size)
    (hseq : paths.Sequenced swaps kept) : Accounted placed deferred offers paths kept := by
  have hkept : kept.paths ⊆ offers.paths := List.Subset.trans hseq.paths_subset hsub
  have hcount := countP_find? hp hserves
  have hcount' := countP_find? hp (hserves.of_subset hseq.valid hkept)
  rw [← hperm.countP_eq] at hcount hcount'
  have hle : kept.size ≤ paths.size := by
    rw [hvalid.size_eq, hseq.valid.size_eq]
    exact hseq.length_ids_le
  refine ⟨hsize, hle, ?_, ?_, hcount'.symm, by omega⟩
  · have hall := countP_add_countP_isNone (l := placed) fun i => offers.find? i.a i.b
    omega
  · -- a path that is left was offered, so those that lost theirs are the rest
    have hsplit := List.countP_eq_countP_filter_add placed
      (fun i => (offers.find? i.a i.b).isSome) fun i => (kept.find? i.a i.b).isSome
    have hboth : placed.countP (fun i => (offers.find? i.a i.b).isSome &&
        (kept.find? i.a i.b).isSome) = kept.size := by
      rw [← hcount']
      refine List.countP_congr fun i _ => ?_
      rw [Bool.and_eq_true]
      exact ⟨And.right, fun h => ⟨isSome_find?_of_subset hkept h, h⟩⟩
    rw [List.countP_filter, List.countP_filter, hcount, hboth] at hsplit
    simp only [Option.not_isSome] at hsplit
    omega

/-- What a round at `p` has put on the books; `r₁` is the router with the paths that were offered. -/
structure Booked (c : Coupling) (circuit : Circuit) (start : Layout) (r : Router) (p : Progress)
    (answer : Progress × Nat × Router) (placed : List Placed) (deferred : Nat) (r₁ : Router)
    (swaps : List Swap) (kept : Registry) : Prop where
  closest_eq : r.closestFirst p = .ok placed
  placed_perm : placed.Perm (p.frontier.ready.map (placeAt p.layout))
  offered_eq : r.offered p = .ok (deferred, r₁)
  swaps_eq : r₁.withinOrder.generateSwaps = .ok (swaps, kept)
  accounted : Accounted placed deferred r₁.paths r₁.withinOrder kept
  carriedOut : CarriedOut c circuit start p answer.1 swaps kept answer.2.1
  swapsOf_eq : swapsOf answer.1.ops = swapsOf p.ops ++ swaps
  stats_eq : answer.1.stats = carriedStats
    { p.stats with
      deferredInteractions := p.stats.deferredInteractions + deferred
      discardedPaths := p.stats.discardedPaths + (r₁.paths.size - r₁.withinOrder.size) }
    (p.frontier.ready.map (placeAt p.layout)) r₁.withinOrder kept swaps

/-- A round enters on the books what it offers, sheds and carries out. -/
theorem Rounded.booked (hr : Fits c config r) (hp : Sound c circuit start p)
    {answer : Progress × Nat × Router} (hround : r.round p = .ok answer)
    (h : Rounded c config circuit start r p answer) :
    ∃ placed deferred r₁ swaps kept,
      Booked c circuit start r p answer placed deferred r₁ swaps kept := by
  obtain ⟨p', count, r'⟩ := answer
  obtain ⟨-, p₁, r₂, swaps, kept, hgather, hgen, hout⟩ := h
  obtain ⟨deferred, r₁, hoffered, -, hr₂, hp₁⟩ := gather_eq_ok hgather
  obtain ⟨placed, hplaced, hoffer⟩ := offered_eq_ok hoffered
  dsimp only at hr₂ hp₁
  -- the two readings of the round, as steps and as what is known of it, are of the same round
  obtain ⟨p₁', r₂', hgather', hcarry⟩ := round_eq_ok hround
  obtain ⟨rfl, rfl⟩ := Prod.mk.inj (Except.ok.inj (hgather'.symm.trans hgather))
  obtain ⟨-, -, swaps', kept', ready, hgen', -, hready, hstats, hswaps⟩ := carryOut_eq_ok hcarry
  obtain ⟨rfl, rfl⟩ := Prod.mk.inj (Except.ok.inj (hgen'.symm.trans hgen))
  subst hp₁ hr₂
  obtain rfl := Except.ok.inj (hready.symm.trans (placedReady_eq (hp.with_stats _)))
  obtain ⟨placed', hplaced', hperm⟩ := closestFirst_total hr hp
  obtain rfl := Except.ok.inj (hplaced'.symm.trans hplaced)
  obtain ⟨hserves, -⟩ := (offered_ensures hr hp).post_of_eq_ok hoffered
  obtain ⟨hvalid, hsub, hsize, -⟩ := withinOrder_valid hserves.1
  obtain ⟨swaps'', kept'', hgen'', hseq⟩ := Registry.generateSwaps_total hvalid
  obtain ⟨rfl, rfl⟩ := Prod.mk.inj (Except.ok.inj (hgen''.symm.trans hgen))
  have hlen := size_offer hoffer
  rw [List.length_map] at hlen
  exact ⟨placed', deferred, r₁, _, _, hplaced, hperm, hoffered, hgen,
    accounted hp hperm (hlen.trans (Nat.zero_add _)) hserves hvalid hsub hsize hseq, hout, hswaps, hstats⟩

/-! ## From round to round -/

/-- Does the operation act on exactly the qubits `a` and `b`? -/
def onPair (a b : VirtualQubit) (qubits : List VirtualQubit) : Bool :=
  qubits == [a, b] || qubits == [b, a]

/-- The qubits of the operations that have been emitted. -/
def actedOn (circuit : Circuit) (ops : List RoutedOp) : List (List VirtualQubit) :=
  (emitted ops).map fun k => ((circuit.ops.map Op.qubits)[k]?).getD []

/-- The ready interactions at the start of each round, all together. -/
def readyCount (calls : List (Router × Progress)) : Nat :=
  calls.foldr (fun call n => call.2.frontier.ready.length + n) 0

theorem readyCount_concat (calls : List (Router × Progress)) (call : Router × Progress) :
    readyCount (calls ++ [call]) = readyCount calls + call.2.frontier.ready.length := by
  induction calls with
  | nil => simp [readyCount]
  | cons call' calls ih =>
    simp only [readyCount, List.cons_append, List.foldr_cons] at ih ⊢
    omega

/-- Each ready interaction of a round at `p` is deferred, discarded or routed, and the sizes that the
round subtracts never grow. -/
def Splits (r : Router) (p : Progress) : Prop :=
  ∃ placed deferred r' swaps kept, r.closestFirst p = .ok placed ∧
    (placed.map (·.interaction)).Perm p.frontier.ready ∧ r.offered p = .ok (deferred, r') ∧
    r'.withinOrder.generateSwaps = .ok (swaps, kept) ∧
    Accounted placed deferred r'.paths r'.withinOrder kept

/-- The books are balanced after the rounds `calls`, in which `ops` were emitted; `acted` are the qubits
of the operations among them. -/
structure Balanced (acted : List (List VirtualQubit)) (calls : List (Router × Progress))
    (ops : List RoutedOp) (stats : RoutingStats) : Prop where
  swaps_eq : stats.swaps = (swapsOf ops).length
  weighted_eq : stats.swaps = stats.swapsPerRound.weighted
  depths_eq : stats.rounds = stats.swapDepths.total
  perRound_eq : stats.rounds = stats.swapsPerRound.total
  ready_eq : readyCount calls =
    stats.deferredInteractions + stats.discardedPaths + stats.interactions.total
  splits : ∀ call ∈ calls, Splits call.1 call.2
  /-- Every pair has one entry. -/
  ascending : stats.interactions.Ascending pairBefore
  get_le : ∀ a b, stats.interactions.get (a, b) ≤ acted.countP (onPair a b)

section Booked

variable {answer : Progress × Nat × Router} {placed : List Placed} {deferred : Nat} {r₁ : Router}
  {swaps : List Swap} {kept : Registry}

/-- Sorting by distance neither loses nor repeats a ready interaction. -/
theorem Booked.interactions_perm (h : Booked c circuit start r p answer placed deferred r₁ swaps kept) :
    (placed.map (·.interaction)).Perm p.frontier.ready := by
  have hperm := h.placed_perm.map (·.interaction)
  rw [List.map_map] at hperm
  exact hperm.trans (.of_eq (List.map_id _))

/-- The ready interactions whose path is among those that are left. -/
def routed (p : Progress) (kept : Registry) : List Interaction :=
  p.frontier.ready.filter fun i => (kept.find? (p.layout.site i.left) (p.layout.site i.right)).isSome

theorem routed_eq (p : Progress) (kept : Registry) :
    ((p.frontier.ready.map (placeAt p.layout)).filter fun i => (kept.find? i.a i.b).isSome).map
      (·.interaction) = routed p kept := by
  rw [List.filter_map, List.map_map]
  exact List.map_id _

/-- A pair is routed at most as often as operations on it are executed in the same round. -/
theorem Booked.countP_routed_le (hp : Sound c circuit start p)
    (h : Booked c circuit start r p answer placed deferred r₁ swaps kept) (a b : VirtualQubit) :
    (actedOn circuit p.ops).countP (onPair a b) +
        (routed p kept).countP (fun i => (a, b) == (min i.left i.right, max i.left i.right)) ≤
      (actedOn circuit answer.1.ops).countP (onPair a b) := by
  obtain ⟨gates, hops, hgates⟩ := h.carriedOut.ops_eq
  unfold actedOn
  rw [hops, emitted_append, emitted_append, emitted_swaps, List.append_nil, List.map_append,
    List.countP_append, List.countP_map (l := emitted gates)]
  refine Nat.add_le_add_left ?_ _
  -- the routed operations are different ones, and all of them are executed
  have hnodup : ((routed p kept).map (·.op)).Nodup := by
    have hready := hp.frontier.nodup
    rw [List.append_nil] at hready
    exact (List.filter_sublist.map _).nodup hready
  have hsub : (routed p kept).map (·.op) ⊆ emitted gates := by
    intro k hk
    obtain ⟨i, hi, rfl⟩ := List.mem_map.mp hk
    obtain ⟨hi, hfind⟩ := List.mem_filter.mp hi
    exact hgates i hi hfind
  refine Nat.le_trans ?_ ((List.subperm_of_subset hnodup hsub).countP_le _)
  rw [List.countP_map]
  refine List.countP_mono_left fun i hi hpair => ?_
  have hop := hp.frontier.ready_op i (List.mem_filter.mp hi).1
  obtain ⟨rfl, rfl⟩ := Prod.mk.inj (beq_iff_eq.mp hpair)
  simp only [Function.comp_apply, List.getElem?_map, hop, Option.map_some, Option.getD_some, Op.qubits]
  unfold onPair
  rcases Nat.le_total i.left i.right with hle | hle
  · simp [hle]
  · simp [hle]

/-- One round keeps the books balanced. -/
theorem Booked.balanced (hp : Sound c circuit start p)
    (h : Booked c circuit start r p answer placed deferred r₁ swaps kept) {calls : List (Router × Progress)}
    (hb : Balanced (actedOn circuit p.ops) calls p.ops p.stats) :
    Balanced (actedOn circuit answer.1.ops) (calls ++ [(r, p)]) answer.1.ops answer.1.stats := by
  have hready := h.interactions_perm.length_eq
  have hroutedLen : kept.size = (routed p kept).length := by
    rw [h.accounted.routed_eq, h.placed_perm.countP_eq, List.countP_map, List.countP_eq_length_filter]
    rfl
  have hlen := h.accounted.length_eq
  have hsplits : Splits r p := ⟨placed, deferred, r₁, swaps, kept, h.closest_eq, h.interactions_perm,
    h.offered_eq, h.swaps_eq, h.accounted⟩
  have hstats := h.stats_eq
  rw [carriedStats_eq _ _ _ _ h.carriedOut.swaps_ne_nil, routed_eq] at hstats
  rw [hstats]
  refine ⟨?_, ?_, ?_, ?_, ?_, ?_, ?_, fun a b => ?_⟩
  · rw [h.swapsOf_eq, List.length_append, ← hb.swaps_eq]
  · rw [Tally.weighted_count, ← hb.weighted_eq]
  · rw [Tally.total_count, ← hb.depths_eq]
  · rw [Tally.total_count, ← hb.perRound_eq]
  · have hbooks := hb.ready_eq
    rw [readyCount_concat, RoutingStats.total_countPairs]
    rw [List.length_map] at hready
    dsimp only
    omega
  · intro call hcall
    rcases List.mem_append.mp hcall with hcall | hcall
    · exact hb.splits call hcall
    · rw [List.mem_singleton.mp hcall]
      exact hsplits
  · exact RoutingStats.ascending_countPairs _ hb.ascending
  · rw [RoutingStats.get_countPairs _ hb.ascending]
    exact (Nat.add_le_add_right (hb.get_le a b) _).trans (h.countP_routed_le hp a b)

end Booked

/-- A run keeps the books balanced. -/
theorem runWithin_balanced : ∀ {turns : Nat} {r r' : Router} {p p' : Progress}
    {calls : List (Router × Progress)}, Fits c config r → Sound c circuit start p → Settled c p →
    Balanced (actedOn circuit p.ops) calls p.ops p.stats → runWithin turns r p = .ok (p', r') →
    Balanced (actedOn circuit p'.ops) (calls ++ callsWithin turns r p) p'.ops p'.stats
  | 0, _, _, _, _, _, _, _, _, _, hrun => by contradiction
  | turns + 1, r, r', p, p', calls, hr, hp, hsettled, hb, hrun => by
    unfold runWithin at hrun
    unfold callsWithin
    by_cases hdone : p.frontier.isDone = true
    · rw [if_pos hdone] at hrun ⊢
      obtain ⟨rfl, -⟩ := Prod.mk.inj (Except.ok.inj hrun)
      rw [List.append_nil]
      exact hb
    · rw [if_neg hdone] at hrun ⊢
      have hne : p.frontier.ready ≠ [] := fun h => hdone (List.isEmpty_iff.mpr h)
      obtain ⟨⟨p₁, r₁⟩, hturn, hrun⟩ := bind_eq_ok_iff.mp hrun
      obtain ⟨count, hround, hrounded⟩ := (turn_ensures hr hp hsettled hne).post_of_eq_ok hturn
      obtain ⟨placed, deferred, r₀, swaps, kept, hbooked⟩ := hrounded.booked hr hp hround
      have hout := hbooked.carriedOut
      have hrest := runWithin_balanced hrounded.1 hout.sound hout.settled (hbooked.balanced hp hb) hrun
      rw [hturn]
      rwa [List.append_assoc] at hrest

/-- Before the first round there is nothing on the books. -/
theorem balanced_empty (acted : List (List VirtualQubit)) {ops : List RoutedOp} (h : swapsOf ops = []) :
    Balanced acted [] ops RoutingStats.empty where
  swaps_eq := by rw [h]; rfl
  weighted_eq := rfl
  depths_eq := rfl
  perRound_eq := rfl
  ready_eq := rfl
  splits _ hcall := absurd hcall List.not_mem_nil
  ascending := List.Pairwise.nil
  get_le _ _ := Nat.zero_le _

/-- When all operations have been emitted, they are those of the input. -/
theorem actedOn_perm {ops : List RoutedOp} (h : (emitted ops).Perm (List.range circuit.size)) :
    (actedOn circuit ops).Perm (circuit.ops.map Op.qubits) := by
  refine (h.map _).trans (.of_eq (List.ext_getElem? fun k => ?_))
  rw [List.getElem?_map]
  by_cases hk : k < circuit.size
  · rw [List.getElem?_range hk, Option.map_some, List.getElem?_map, List.getElem?_eq_getElem hk]
    rfl
  · have hops : circuit.ops.length ≤ k := Nat.le_of_not_lt hk
    rw [List.getElem?_eq_none (by simpa using hk), List.getElem?_eq_none (by simpa using hops)]
    rfl

/-- The statistics of a routed circuit balance: swaps against the emitted ones and against the rounds by
number of swaps, rounds against both tallies of rounds, and the ready interactions of all rounds against
those deferred, discarded and routed. No pair of qubits is routed more often than the input acts on it. -/
theorem route_balances {n m : Nat} {links : List (Qubit × Qubit)} {input : List (List VirtualQubit)}
    {coupling : Coupling} {config : Config} {r r' : Router} {circuit : Circuit} {layout : Layout}
    {result : Routing} (hcoupling : Coupling.ofLinks n links = .ok coupling)
    (hr : Used coupling config r) (hcircuit : Circuit.ofOps m input = .ok circuit)
    (hlayout : layout.Built) (hroute : r.route circuit layout = .ok (result, r')) :
    Balanced input (r.roundCalls circuit layout) result.ops result.stats := by
  have hrouted := hr.routed_of_eq_ok hcoupling hcircuit hlayout hroute
  obtain ⟨hlinked, -, hinput⟩ := Circuit.ofOps_linked hcircuit
  have hfits := hr.fits (Coupling.ofLinks_connected hcoupling)
  obtain ⟨p, p', r₁, hbegin, hrun, rfl, -⟩ := route_eq_ok hroute
  obtain ⟨p₀, hbegin₀, hp, hsettled, hstats⟩ :=
    begin_total hfits hlinked hlayout.matching hrouted.layoutFits
  obtain rfl := Except.ok.inj (hbegin₀.symm.trans hbegin)
  have hstart : Balanced (actedOn circuit p₀.ops) [] p₀.ops p₀.stats := by
    rw [hstats]
    exact balanced_empty _ (begin_eq_ok hbegin).2.1
  have hb := runWithin_balanced hfits hp hsettled hstart hrun
  have hperm := actedOn_perm (hrouted.scheduled.perm_range hrouted.complete)
  rw [hinput] at hperm
  unfold roundCalls
  rw [hbegin]
  refine { hb with get_le := fun a b => ?_ }
  exact (hb.get_le a b).trans (Nat.le_of_eq (hperm.countP_eq _))

/-- Two operations whose paths on the line get in each other's way. -/
def overlapping : Circuit :=
  ⟨4, [.pair 0 2, .pair 1 3], [], [0, 1]⟩

theorem ofOps_overlapping : Circuit.ofOps 4 [[0, 2], [1, 3]] = .ok overlapping := by decide

/-- The second operation is deferred. The swap for the first one makes it executable, so that it is never
routed. -/
theorem overlapping_balances : ∃ result r',
    lineRouter.route overlapping (Layout.trivial 4) = .ok (result, r') ∧
    readyCount (lineRouter.roundCalls overlapping (Layout.trivial 4)) = 2 ∧
    result.stats.deferredInteractions = 1 ∧ result.stats.interactions = [((0, 2), 1)] ∧
    Balanced [[0, 2], [1, 3]] (lineRouter.roundCalls overlapping (Layout.trivial 4)) result.ops
      result.stats := by
  have hcounts : (lineRouter.route overlapping (Layout.trivial 4)).toOption.map (fun answer =>
      (answer.1.stats.deferredInteractions, answer.1.stats.interactions)) = some (1, [((0, 2), 1)]) := by
    decide +kernel
  have hok : (lineRouter.route overlapping (Layout.trivial 4)).isOk = true := by decide +kernel
  obtain ⟨⟨result, r'⟩, hroute⟩ := exists_of_isOk hok
  rw [hroute] at hcounts
  obtain ⟨hdeferred, hpairs⟩ := Prod.mk.inj (Option.some.inj hcounts)
  exact ⟨result, r', hroute, by decide +kernel, hdeferred, hpairs,
    route_balances ofLinks_line used_lineRouter ofOps_overlapping (.trivial 4) hroute⟩

end Router

end QubitRouting
