import QubitRouting.PathCache
import QubitRouting.Proofs.Coupling.Connected

/-!
# Remembered paths are routes

A cache keeps the segments of the paths that are added to it, and hands them out in either direction. So if
all paths added are of a kind that passes to segments and to the path turned round, what the cache hands out
is of that kind, between the ends that were asked for (`Holds.get?`). Adding a path can only fail because a
sum does not fit a word (`Holds.add`).

Routes are such a kind (`hereditary_isRoute`).
-/

namespace QubitRouting

namespace PathCache

theorem infix_of_mem_segments {t : Nat} : ∀ {p s : List Qubit}, s ∈ segments t p → s <:+: p
  | [], _, h => absurd h List.not_mem_nil
  | x :: p, s, h => by
    unfold segments at h
    rcases List.mem_append.mp h with h | h
    · obtain ⟨k, -, rfl⟩ := List.mem_map.mp h
      exact (List.take_prefix _ _).isInfix
    · exact (infix_of_mem_segments h).trans (List.suffix_cons x p).isInfix

/-! ## Any family of paths -/

/-- Paths between two ends of a kind that segments of a path and the path turned round have as well. -/
structure Hereditary (kind : Qubit → Qubit → List Qubit → Prop) : Prop where
  head : ∀ {a b p}, kind a b p → p.head? = some a
  reverse : ∀ {a b p}, kind a b p → kind b a p.reverse
  of_infix : ∀ {a b p s x y}, kind a b p → s <:+: p → s.head? = some x → s.getLast? = some y → kind x y s

/-- Every remembered path, from its lower to its higher end, is of the given kind. -/
def Holds (kind : Qubit → Qubit → List Qubit → Prop) (cache : PathCache) : Prop :=
  ∀ k ∈ cache.known, kind k.low k.high k.nodes

theorem threshold_remember (cache : PathCache) (p : List Qubit) :
    (cache.remember p).threshold = cache.threshold := by
  unfold remember
  split
  next => split <;> rfl
  next => rfl

section Holds

variable {kind : Qubit → Qubit → List Qubit → Prop} {cache : PathCache} {a b : Qubit} {p : List Qubit}
  (hkind : Hereditary kind)

theorem holds_empty (kind : Qubit → Qubit → List Qubit → Prop) (t : Nat) : Holds kind (empty t) :=
  fun _ h => absurd h List.not_mem_nil

include hkind

theorem Holds.remember (h : Holds kind cache)
    (hp : ∀ x y, p.head? = some x → p.getLast? = some y → kind x y p) :
    Holds kind (cache.remember p) := by
  unfold PathCache.remember
  split
  next first last hfirst hlast =>
    split
    next => exact h
    next =>
      intro k hk
      rcases List.mem_cons.mp hk with rfl | hk
      · have hpath := hp first last hfirst hlast
        -- a path is kept from its lower end, so it may have to be turned round
        by_cases hle : first ≤ last
        · simpa [hle] using hpath
        · have hle' : last ≤ first := Nat.le_of_not_le hle
          simpa [hle, Nat.min_eq_right hle', Nat.max_eq_left hle'] using hkind.reverse hpath
      · exact h k hk
  next => exact h

theorem Holds.foldl_remember : ∀ (l : List (List Qubit)) {cache : PathCache}, Holds kind cache →
    (∀ s ∈ l, ∀ x y, s.head? = some x → s.getLast? = some y → kind x y s) →
    Holds kind (l.foldl PathCache.remember cache) ∧
      (l.foldl PathCache.remember cache).threshold = cache.threshold
  | [], _, h, _ => ⟨h, rfl⟩
  | s :: l, cache, h, hl => by
    have hs := h.remember hkind (hl s List.mem_cons_self)
    obtain ⟨hrem, hthr⟩ := hs.foldl_remember l fun t ht => hl t (List.mem_cons_of_mem s ht)
    exact ⟨hrem, hthr.trans (threshold_remember cache s)⟩

/-- A path can be added unless its last position and the threshold do not fit a word. -/
theorem Holds.add (h : Holds kind cache) (hp : kind a b p) :
    Ensures (cache.add p) (fun cache' => Holds kind cache' ∧ cache'.threshold = cache.threshold)
      (wordCount ≤ p.length - 1 + cache.threshold) := by
  unfold PathCache.add
  split
  next hover => exact hover.2
  next =>
    refine h.foldl_remember hkind _ fun s hs x y hx hy => ?_
    exact hkind.of_infix hp (infix_of_mem_segments hs) hx hy

/-- The path between two ends is handed out in the direction asked for. -/
theorem Holds.get? (h : Holds kind cache) (hget : cache.get? a b = some p) : kind a b p := by
  obtain ⟨k, hfind, rfl⟩ := Option.map_eq_some_iff.mp hget
  unfold find? at hfind
  have hpath := h k (List.mem_of_find?_eq_some hfind)
  have hends := List.find?_some hfind
  simp only [Bool.and_eq_true, beq_iff_eq] at hends
  rw [hends.1, hends.2] at hpath
  by_cases hle : a ≤ b
  · rw [Nat.min_eq_left hle, Nat.max_eq_right hle] at hpath
    simpa [hkind.head hpath] using hpath
  · have hle' : b ≤ a := Nat.le_of_not_le hle
    rw [Nat.min_eq_right hle', Nat.max_eq_left hle'] at hpath
    have hne : b ≠ a := fun he => hle (Nat.le_of_eq he.symm)
    simpa [hkind.head hpath, hne] using hkind.reverse hpath

end Holds

/-! ## Routes -/

/-- Every remembered path is a route of the coupling from its lower to its higher end. -/
def Remembers (c : Coupling) (cache : PathCache) : Prop :=
  ∀ k ∈ cache.known, c.IsRoute k.low k.high k.nodes

variable {c : Coupling} {cache : PathCache} {a b : Qubit} {p : List Qubit}

theorem hereditary_isRoute (hc : c.Connected) : Hereditary c.IsRoute where
  head := fun h => h.head
  reverse := fun h => h.reverse hc
  of_infix := fun h => h.of_infix

theorem remembers_empty (c : Coupling) (t : Nat) : Remembers c (empty t) :=
  holds_empty c.IsRoute t

/-- A route can be added unless its last position and the threshold do not fit a word. -/
theorem Remembers.add (hc : c.Connected) (h : Remembers c cache) (hp : c.IsRoute a b p) :
    Ensures (cache.add p) (fun cache' => Remembers c cache' ∧ cache'.threshold = cache.threshold)
      (wordCount ≤ p.length - 1 + cache.threshold) :=
  Holds.add (hereditary_isRoute hc) h hp

theorem Remembers.get? (hc : c.Connected) (h : Remembers c cache)
    (hget : cache.get? a b = some p) : c.IsRoute a b p :=
  Holds.get? (hereditary_isRoute hc) h hget

end PathCache

end QubitRouting
