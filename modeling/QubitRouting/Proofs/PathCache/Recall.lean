import QubitRouting.Proofs.PathCache.Routes
import QubitRouting.Proofs.Registry.Slots
import Mathlib.Data.Set.Card
import Mathlib.Data.Sym.Sym2

/-!
# What a cache recalls

Whatever paths were added to a cache since it was cleared, its answer for two ends is the first segment between
them, in the order in which the segments were offered, turned to start at the end that was asked for first
(`Recalls`). So a pair has an answer if and only if some path covers it, and since the first segment of a list
stays the first when the list grows, an answer never changes until the cache is cleared.

The pairs of ends are unordered. Each of them is stored under one key (`Keyed`), so that the size of the cache is
the number of pairs that are covered.
-/

namespace QubitRouting

namespace PathCache

variable {c : PathCache} {a b x y : Qubit} {p s : List Qubit} {t : Nat}

/-! ## Segments -/

theorem mem_leading_iff : s ∈ leading t p ↔ s <+: p ∧ t ≤ s.length := by
  unfold leading
  rw [List.mem_map]
  constructor
  · rintro ⟨k, hk, rfl⟩
    have hlt := List.mem_range.mp hk
    refine ⟨List.take_prefix _ _, ?_⟩
    rw [List.length_take]
    omega
  · rintro ⟨hstart, hlen⟩
    have hle := hstart.length_le
    refine ⟨s.length - t, List.mem_range.mpr (by omega), ?_⟩
    rw [show t + (s.length - t) = s.length by omega]
    exact (List.prefix_iff_eq_take.mp hstart).symm

theorem mem_segments_iff (ht : 0 < t) : s ∈ segments t p ↔ s <:+: p ∧ t ≤ s.length := by
  induction p with
  | nil =>
    refine ⟨fun h => absurd h List.not_mem_nil, fun ⟨hpart, hlen⟩ => ?_⟩
    rw [List.infix_nil.mp hpart, List.length_nil] at hlen
    omega
  | cons x p ih =>
    show s ∈ leading t (x :: p) ++ segments t p ↔ _
    rw [List.mem_append, mem_leading_iff, ih, List.infix_cons_iff, or_and_right]

/-- The ends of a segment stand in the path as far apart as the segment is long. -/
theorem getElem?_of_infix (h : s <:+: p) (hs : s ≠ []) :
    ∃ i, p[i]? = s.head? ∧ p[i + (s.length - 1)]? = s.getLast? := by
  obtain ⟨before, after, rfl⟩ := h
  have hpos := List.length_pos_iff.mpr hs
  refine ⟨before.length, ?_, ?_⟩
  · rw [List.append_assoc, List.getElem?_append_right (by omega), Nat.sub_self,
      List.getElem?_append_left hpos, List.head?_eq_getElem?]
  · rw [List.append_assoc, List.getElem?_append_right (by omega), Nat.add_sub_cancel_left,
      List.getElem?_append_left (by omega), List.getLast?_eq_getElem?]

/-- What stands between two positions of a path, with both ends, is a segment. -/
theorem exists_infix {i j : Nat} (hij : i ≤ j) (hi : p[i]? = some x) (hj : p[j]? = some y) :
    ∃ s, s <:+: p ∧ s.length = j - i + 1 ∧ s.head? = some x ∧ s.getLast? = some y := by
  have hlt := (List.getElem?_eq_some_iff.mp hj).1
  have hlen : ((p.drop i).take (j - i + 1)).length = j - i + 1 := by
    rw [List.length_take, List.length_drop]
    omega
  refine ⟨(p.drop i).take (j - i + 1), ?_, hlen, ?_, ?_⟩
  · exact (List.take_prefix _ _).isInfix.trans (List.drop_suffix _ _).isInfix
  · rw [List.head?_eq_getElem?, List.getElem?_take_of_lt (by omega), List.getElem?_drop]
    exact hi
  · rw [List.getLast?_eq_getElem?, hlen, List.getElem?_take_of_lt (by omega), List.getElem?_drop]
    rwa [show i + (j - i + 1 - 1) = j by omega]

/-- One of the paths has `a` and `b`, in either order, at two positions with at least `t` nodes from the one to
the other, both included. -/
def Covers (t : Nat) (paths : List (List Qubit)) (a b : Qubit) : Prop :=
  ∃ p ∈ paths, ∃ i j : Nat, i < j ∧ t ≤ j - i + 1 ∧
    (p[i]? = some a ∧ p[j]? = some b ∨ p[i]? = some b ∧ p[j]? = some a)

theorem covers_iff {paths : List (List Qubit)} (ht : 2 ≤ t) :
    Covers t paths a b ↔ ∃ s ∈ paths.flatMap (segments t), joins a b s = true := by
  simp only [List.mem_flatMap, mem_segments_iff (show 0 < t by omega), joins_iff]
  constructor
  · rintro ⟨p, hp, i, j, hij, hlong, ⟨hi, hj⟩ | ⟨hi, hj⟩⟩
    · obtain ⟨s, hs, hlen, hhead, hlast⟩ := exists_infix (by omega) hi hj
      exact ⟨s, ⟨p, hp, hs, by omega⟩, .inl ⟨hhead, hlast⟩⟩
    · obtain ⟨s, hs, hlen, hhead, hlast⟩ := exists_infix (by omega) hi hj
      exact ⟨s, ⟨p, hp, hs, by omega⟩, .inr ⟨hhead, hlast⟩⟩
  · rintro ⟨s, ⟨p, hp, hs, hlong⟩, hends⟩
    have hne : s ≠ [] := List.length_pos_iff.mp (by omega)
    obtain ⟨i, hi, hj⟩ := getElem?_of_infix hs hne
    refine ⟨p, hp, i, i + (s.length - 1), by omega, by omega, ?_⟩
    rwa [hi, hj]

/-! ## One segment -/

/-- The path turned round, unless it starts at `a`. -/
def facing (a : Qubit) (p : List Qubit) : List Qubit :=
  if p.head? == some a then p else p.reverse

theorem facing_eq_self (h : p.head? = some a) : facing a p = p := by
  simp [facing, h]

theorem facing_eq_reverse (h : p.head? ≠ some a) : facing a p = p.reverse := by
  simp [facing, h]

/-- Which way round a path is kept does not matter to one who asks for it from one of its ends. -/
theorem facing_reverse (hx : s.head? = some x) (hy : s.getLast? = some y) (hne : x ≠ y)
    (ha : a = x ∨ a = y) : facing a s.reverse = facing a s := by
  have hrev : s.reverse.head? = some y := by rw [List.head?_reverse, hy]
  rcases ha with rfl | rfl
  · rw [facing_eq_self hx, facing_eq_reverse (by simpa [hrev] using hne.symm), List.reverse_reverse]
  · rw [facing_eq_self hrev, facing_eq_reverse (by simpa [hx] using hne)]

/-- Two numbers are the same two, in either order, if the lower one and the higher one are the same. -/
theorem min_max_eq_iff {i j k l : Nat} :
    min i j = min k l ∧ max i j = max k l ↔ i = k ∧ j = l ∨ i = l ∧ j = k := by
  omega

theorem joins_iff_key (hx : s.head? = some x) (hy : s.getLast? = some y) :
    joins a b s = true ↔ min x y = min a b ∧ max x y = max a b := by
  rw [joins_iff, hx, hy, Option.some.injEq, Option.some.injEq, Option.some.injEq, Option.some.injEq,
    min_max_eq_iff]

theorem has_eq_isSome (c : PathCache) (a b : Qubit) : c.has a b = (c.get? a b).isSome := by
  unfold has get?
  rw [Option.isSome_map]

/-- A segment answers for its ends unless there was an answer before. -/
theorem get?_remember (c : PathCache) (hs : s ≠ []) (a b : Qubit) :
    (c.remember s).get? a b = (c.get? a b).or (if joins a b s then some (facing a s) else none) := by
  have hx := List.head?_eq_some_head hs
  have hy := List.getLast?_eq_some_getLast hs
  generalize s.head hs = x at hx
  generalize s.getLast hs = y at hy
  have hkey := joins_iff_key (a := a) (b := b) hx hy
  unfold remember
  rw [hx, hy]
  dsimp only
  by_cases hjoins : joins a b s = true
  · obtain ⟨hmin, hmax⟩ := hkey.mp hjoins
    have hsame : c.find? x y = c.find? a b := by
      unfold find?
      rw [hmin, hmax]
    rw [if_pos hjoins]
    split
    next hknown =>
      have hsome : (c.get? a b).isSome = true := by
        rw [← has_eq_isSome]
        unfold has
        rwa [← hsame]
      obtain ⟨path, hpath⟩ := Option.isSome_iff_exists.mp hsome
      rw [hpath, Option.some_or]
    next hnew =>
      have hnone : c.find? a b = none := by
        rw [← hsame]
        unfold has at hnew
        simpa using hnew
      have hget : c.get? a b = none := by
        unfold get?
        rw [hnone]
        rfl
      rw [hget, Option.none_or]
      unfold get? find?
      rw [List.find?_cons_of_pos (by simp [hmin, hmax])]
      show some (facing a (if x ≤ y then s else s.reverse)) = some (facing a s)
      split
      next => rfl
      next hle =>
        have hends : a = x ∨ a = y :=
          (min_max_eq_iff.mp ⟨hmin, hmax⟩).imp (fun h => h.1.symm) fun h => h.2.symm
        rw [facing_reverse hx hy (fun he => hle (Nat.le_of_eq he)) hends]
  · rw [if_neg hjoins, Option.or_none]
    split
    next => rfl
    next =>
      unfold get? find?
      rw [List.find?_cons_of_neg]
      simpa using fun hmin hmax => hjoins (hkey.mpr ⟨hmin, hmax⟩)

/-- Of many segments the first one between two ends answers for them. -/
theorem get?_foldl_remember (a b : Qubit) : ∀ (segs : List (List Qubit)) (c : PathCache),
    (∀ s ∈ segs, s ≠ []) → (segs.foldl remember c).get? a b =
      (c.get? a b).or ((segs.find? (joins a b)).map (facing a))
  | [], c, _ => by rw [List.foldl_nil, List.find?_nil, Option.map_none, Option.or_none]
  | s :: segs, c, h => by
    rw [List.foldl_cons, get?_foldl_remember a b segs _ fun s' hs' => h s' (List.mem_cons_of_mem s hs'),
      get?_remember c (h s List.mem_cons_self), Option.or_assoc, List.find?_cons]
    by_cases hjoins : joins a b s = true
    · rw [if_pos hjoins, hjoins, Option.some_or]
      rfl
    · rw [if_neg hjoins, Bool.eq_false_iff.mpr hjoins, Option.none_or]

theorem threshold_foldl_remember : ∀ (segs : List (List Qubit)) (c : PathCache),
    (segs.foldl remember c).threshold = c.threshold
  | [], _ => rfl
  | s :: segs, c => (threshold_foldl_remember segs _).trans (threshold_remember c s)

/-! ## Keys -/

/-- The unordered pair of ends under which a path is kept. -/
def key (k : KnownPath) : Sym2 Qubit :=
  s(k.low, k.high)

/-- Every path is kept under its lower and its higher end, and no two under the same ends. -/
structure Keyed (c : PathCache) : Prop where
  low_le : ∀ k ∈ c.known, k.low ≤ k.high
  nodup : (c.known.map key).Nodup

theorem Keyed.has_iff (h : Keyed c) : c.has a b = true ↔ s(a, b) ∈ c.known.map key := by
  unfold has find?
  rw [List.find?_isSome, List.mem_map]
  refine exists_congr fun k => and_congr_right fun hk => ?_
  rw [Bool.and_eq_true, beq_iff_eq, beq_iff_eq, key, Sym2.eq_iff, ← min_max_eq_iff,
    Nat.min_eq_left (h.low_le k hk), Nat.max_eq_right (h.low_le k hk)]

theorem Keyed.remember (h : Keyed c) (s : List Qubit) : Keyed (c.remember s) := by
  unfold PathCache.remember
  split
  next x y _ _ =>
    split
    next => exact h
    next hnew =>
      refine ⟨fun k hk => ?_, ?_⟩
      · rcases List.mem_cons.mp hk with rfl | hk
        · exact Nat.le_trans (Nat.min_le_left x y) (Nat.le_max_left x y)
        · exact h.low_le k hk
      · rw [List.map_cons, List.nodup_cons]
        refine ⟨fun hmem => hnew (h.has_iff.mpr ?_), h.nodup⟩
        rwa [show s(x, y) = s(min x y, max x y) from Sym2.eq_iff.mpr (min_max_eq_iff.mp (by simp))]
  next => exact h

theorem Keyed.foldl_remember : ∀ (segs : List (List Qubit)) {c : PathCache}, Keyed c →
    Keyed (segs.foldl PathCache.remember c)
  | [], _, h => h
  | s :: segs, _, h => (h.remember s).foldl_remember segs

/-- The size of a cache is the number of unordered pairs that have an answer. -/
theorem Keyed.encard_eq (h : Keyed c) {covered : Qubit → Qubit → Prop}
    (hcovered : ∀ a b, c.has a b = true ↔ covered a b) :
    Set.encard {e : Sym2 Qubit | ∃ a b, e = s(a, b) ∧ covered a b} = c.size := by
  have hset : {e : Sym2 Qubit | ∃ a b, e = s(a, b) ∧ covered a b} =
      ((c.known.map key).toFinset : Set (Sym2 Qubit)) := by
    ext e
    rw [Set.mem_ofPred_eq, Finset.mem_coe, List.mem_toFinset]
    constructor
    · rintro ⟨a, b, rfl, hab⟩
      exact h.has_iff.mp ((hcovered a b).mpr hab)
    · intro he
      induction e with
      | h a b => exact ⟨a, b, rfl, (hcovered a b).mp (h.has_iff.mpr he)⟩
  rw [hset, Set.encard_coe_eq_coe_finsetCard, List.toFinset_card_of_nodup h.nodup, List.length_map]
  rfl

/-! ## Any number of paths -/

/-- What a cache with threshold `t` answers when the given paths have been added to it, in this order. -/
structure Recalls (t : Nat) (paths : List (List Qubit)) (c : PathCache) : Prop where
  threshold_eq : c.threshold = t
  keyed : Keyed c
  get?_eq : ∀ a b, c.get? a b = ((paths.flatMap (segments t)).find? (joins a b)).map (facing a)

namespace Recalls

variable {paths : List (List Qubit)}

theorem empty (t : Nat) : Recalls (max t 2) [] (PathCache.empty t) where
  threshold_eq := rfl
  keyed := ⟨fun _ hk => absurd hk List.not_mem_nil, List.nodup_nil⟩
  get?_eq _ _ := rfl

theorem clear (h : Recalls t paths c) : Recalls t [] c.clear where
  threshold_eq := h.threshold_eq
  keyed := ⟨fun _ hk => absurd hk List.not_mem_nil, List.nodup_nil⟩
  get?_eq _ _ := rfl

theorem add (h : Recalls t paths c) (ht : 0 < t) (hfits : p.length + t < wordCount) :
    ∃ c', c.add p = .ok c' ∧ Recalls t (paths ++ [p]) c' := by
  refine ⟨(segments t p).foldl PathCache.remember c, ?_, ?_, h.keyed.foldl_remember _, fun a b => ?_⟩
  · unfold PathCache.add
    rw [h.threshold_eq, if_neg (by omega)]
  · rw [threshold_foldl_remember, h.threshold_eq]
  · have hne : ∀ s ∈ segments t p, s ≠ [] := by
      intro s hs
      have hlen := ((mem_segments_iff ht).mp hs).2
      exact List.length_pos_iff.mp (by omega)
    rw [get?_foldl_remember a b _ c hne, h.get?_eq, ← Option.map_or, ← List.find?_append,
      List.flatMap_append, List.flatMap_singleton]

/-- Every answer is a segment, or one turned round, that leads from `a` to `b`. -/
theorem get?_eq_some (h : Recalls t paths c) (ht : 0 < t) (hget : c.get? a b = some p) :
    t ≤ p.length ∧ p.head? = some a ∧ p.getLast? = some b ∧
      ∃ path ∈ paths, p <:+: path ∨ p.reverse <:+: path := by
  rw [h.get?_eq] at hget
  obtain ⟨s, hfind, rfl⟩ := Option.map_eq_some_iff.mp hget
  obtain ⟨path, hpath, hs⟩ := List.mem_flatMap.mp (List.mem_of_find?_eq_some hfind)
  obtain ⟨hpart, hlen⟩ := (mem_segments_iff ht).mp hs
  by_cases hhead : s.head? = some a
  · rw [facing_eq_self hhead]
    refine ⟨hlen, hhead, ?_, path, hpath, .inl hpart⟩
    rcases joins_iff.mp (List.find?_some hfind) with ⟨-, hlast⟩ | ⟨hb, hlast⟩
    · exact hlast
    · rw [hlast, ← hhead, hb]
  · obtain ⟨hb, hlast⟩ := (joins_iff.mp (List.find?_some hfind)).resolve_left fun h => hhead h.1
    rw [facing_eq_reverse hhead]
    refine ⟨by rwa [List.length_reverse], ?_, ?_, path, hpath, .inr ?_⟩
    · rw [List.head?_reverse, hlast]
    · rw [List.getLast?_reverse, hb]
    · rwa [List.reverse_reverse]

/-- Asked the other way round, the cache answers with the path turned round. -/
theorem get?_swap (h : Recalls t paths c) (hab : a ≠ b) : c.get? b a = (c.get? a b).map List.reverse := by
  have hsame : joins b a = joins a b := by
    funext s
    exact Bool.or_comm _ _
  rw [h.get?_eq, h.get?_eq, hsame]
  cases hfind : (paths.flatMap (segments t)).find? (joins a b) with
  | none => rfl
  | some s =>
    show some (facing b s) = some (facing a s).reverse
    rcases joins_iff.mp (List.find?_some hfind) with ⟨hhead, -⟩ | ⟨hhead, -⟩
    · rw [facing_eq_self hhead, facing_eq_reverse (by simpa [hhead] using hab)]
    · rw [facing_eq_self hhead, facing_eq_reverse (by simpa [hhead] using hab.symm), List.reverse_reverse]

theorem has_iff (h : Recalls t paths c) (ht : 2 ≤ t) : c.has a b = true ↔ Covers t paths a b := by
  rw [has_eq_isSome, h.get?_eq, Option.isSome_map, List.find?_isSome, covers_iff ht]

/-- More paths do not change an answer. -/
theorem get?_append {c' : PathCache} {later : List (List Qubit)} (h : Recalls t paths c)
    (h' : Recalls t (paths ++ later) c') (hab : c.has a b = true) : c'.get? a b = c.get? a b := by
  rw [has_eq_isSome, h.get?_eq, Option.isSome_map] at hab
  obtain ⟨s, hs⟩ := Option.isSome_iff_exists.mp hab
  rw [h.get?_eq, h'.get?_eq, List.flatMap_append, List.find?_append, hs, Option.some_or]

end Recalls

/-! ## Caches in use -/

/-- What can be requested of a cache. -/
inductive Request where
  | add (path : List Qubit)
  | clear
deriving DecidableEq, Repr

/-- Answer one request. -/
def serve (c : PathCache) : Request → Except Fault PathCache
  | .add path => c.add path
  | .clear => .ok c.clear

/-- A new cache with the given threshold, after the requests. -/
def run (t : Nat) (requests : List Request) : Except Fault PathCache :=
  requests.foldlM serve (empty t)

/-- The paths that count after a request, if these counted before. -/
def Request.after (paths : List (List Qubit)) : Request → List (List Qubit)
  | .add path => paths ++ [path]
  | .clear => []

/-- The paths added since the last time that the cache was cleared. -/
def added (requests : List Request) : List (List Qubit) :=
  requests.foldl Request.after []

theorem added_concat (requests : List Request) (request : Request) :
    added (requests ++ [request]) = request.after (added requests) :=
  List.foldl_concat ..

theorem added_append_adds (requests : List Request) (later : List (List Qubit)) :
    added (requests ++ later.map .add) = added requests ++ later := by
  induction later using List.reverseRecOn with
  | nil => rw [List.map_nil, List.append_nil, List.append_nil]
  | append_singleton later path ih =>
    rw [List.map_append, ← List.append_assoc, List.map_singleton, added_concat, ih, ← List.append_assoc]
    rfl

theorem run_recalls {requests : List Request}
    (hfits : ∀ path, Request.add path ∈ requests → path.length + max t 2 < wordCount) :
    ∃ c, run t requests = .ok c ∧ Recalls (max t 2) (added requests) c := by
  refine foldlM_total (fun done c => Recalls (max t 2) (added done) c) (Recalls.empty t) ?_
  intro done request rest c hrequests h
  rw [added_concat]
  cases request with
  | add path => exact h.add (by omega) (hfits path (by simp [hrequests]))
  | clear => exact ⟨c.clear, rfl, h.clear⟩

/-- Take any cache, after any requests that fit a word. It has an answer for two ends if and only if a path added
since it was last cleared covers them. The answer is the first long enough segment between the two, turned to
start at the first of them; paths added later do not change it. The ends in the other order have the same answer
turned round, and the size is the number of unordered pairs of ends that are covered. -/
theorem recalls_segments {t : Nat} {requests : List Request}
    (hfits : ∀ path, Request.add path ∈ requests → path.length + max t 2 < wordCount) :
    ∃ c, run t requests = .ok c ∧
      (∀ a b, c.has a b = true ↔ Covers (max t 2) (added requests) a b) ∧
      (∀ a b, c.get? a b =
        (((added requests).flatMap (segments (max t 2))).find? (joins a b)).map (facing a)) ∧
      (∀ a b, c.has a b = true → ∃ path, c.get? a b = some path ∧ max t 2 ≤ path.length ∧
        path.head? = some a ∧ path.getLast? = some b ∧
        ∃ source ∈ added requests, path <:+: source ∨ path.reverse <:+: source) ∧
      (∀ later : List (List Qubit), (∀ path ∈ later, path.length + max t 2 < wordCount) →
        ∃ c', run t (requests ++ later.map .add) = .ok c' ∧
          ∀ a b, c.has a b = true → c'.get? a b = c.get? a b) ∧
      (∀ a b, a ≠ b → c.get? b a = (c.get? a b).map List.reverse) ∧
      Set.encard {e : Sym2 Qubit | ∃ a b, e = s(a, b) ∧ Covers (max t 2) (added requests) a b} = c.size := by
  obtain ⟨c, hrun, h⟩ := run_recalls hfits
  have htwo : 2 ≤ max t 2 := Nat.le_max_right t 2
  refine ⟨c, hrun, fun a b => h.has_iff htwo, h.get?_eq, fun a b hab => ?_, fun later hlater => ?_,
    fun a b => h.get?_swap, h.keyed.encard_eq fun a b => h.has_iff htwo⟩
  · rw [has_eq_isSome] at hab
    obtain ⟨path, hpath⟩ := Option.isSome_iff_exists.mp hab
    exact ⟨path, hpath, h.get?_eq_some (by omega) hpath⟩
  · have hfits' : ∀ path, Request.add path ∈ requests ++ later.map .add →
        path.length + max t 2 < wordCount := by
      intro path hpath
      rcases List.mem_append.mp hpath with hpath | hpath
      · exact hfits path hpath
      · obtain ⟨path', hpath', heq⟩ := List.mem_map.mp hpath
        obtain rfl := Request.add.inj heq
        exact hlater path' hpath'
    obtain ⟨c', hrun', h'⟩ := run_recalls hfits'
    rw [added_append_adds] at h'
    exact ⟨c', hrun', fun a b => h.get?_append h'⟩

/-- A path that is forgotten, and two that both lead from qubit 1 to qubit 4. -/
def detours : List Request :=
  [.add [7, 8, 9], .clear, .add [4, 2, 0, 1], .add [1, 3, 4, 2]]

/-- The first path between qubits 1 and 4 is recalled, from either end, also after a shorter one was added. -/
theorem detours_recalled : ∃ c, run 3 detours = .ok c ∧ c.get? 1 4 = some [1, 0, 2, 4] ∧
    c.get? 4 1 = some [4, 2, 0, 1] ∧ ¬ c.has 7 9 = true ∧
    ∃ c', run 3 (detours ++ [[4, 9, 1]].map .add) = .ok c' ∧ c'.get? 1 4 = some [1, 0, 2, 4] := by
  have hfits : ∀ path, Request.add path ∈ detours → path.length + max 3 2 < wordCount := by
    intro path hpath
    have hcases : path = [7, 8, 9] ∨ path = [4, 2, 0, 1] ∨ path = [1, 3, 4, 2] := by
      simpa [detours] using hpath
    rcases hcases with rfl | rfl | rfl <;> decide
  obtain ⟨c, hrun, -, hget, -, hlater, hswap, -⟩ := recalls_segments (t := 3) hfits
  have hfirst : c.get? 1 4 = some [1, 0, 2, 4] := (hget 1 4).trans (by decide)
  have hforgotten : c.get? 7 9 = none := (hget 7 9).trans (by decide)
  obtain ⟨c', hrun', hkept⟩ := hlater [[4, 9, 1]] (by decide)
  refine ⟨c, hrun, hfirst, ?_, ?_, c', hrun', ?_⟩
  · rw [hswap 1 4 (by decide), hfirst]
    rfl
  · rw [has_eq_isSome, hforgotten]
    decide
  · rw [hkept 1 4 (by rw [has_eq_isSome, hfirst]; rfl), hfirst]

end PathCache

end QubitRouting
