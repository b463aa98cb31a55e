/-!
# Stable sorting

`sortBy` inserts from the right, so equal entries keep their order; `ascending` keeps one of equal
numbers. The lists sorted here are short, and the structural recursion lets closed terms reduce.
-/

namespace QubitRouting

/-- Put `x` in front of the first entry that it may precede. -/
def insertBy {α : Type} (le : α → α → Bool) (x : α) : List α → List α
  | [] => [x]
  | y :: ys => if le x y then x :: y :: ys else y :: insertBy le x ys

/-- The entries in the order of `le`, equal ones as they stood. -/
def sortBy {α : Type} (le : α → α → Bool) : List α → List α
  | [] => []
  | x :: xs => insertBy le x (sortBy le xs)

/-- Put a number into an ascending list, unless it is there. -/
def insertAscending (x : Nat) : List Nat → List Nat
  | [] => [x]
  | y :: ys => if x < y then x :: y :: ys else if x = y then y :: ys else y :: insertAscending x ys

/-- The numbers of a list, ascending and once each. -/
def ascending (xs : List Nat) : List Nat :=
  xs.foldr insertAscending []

/-- The lexicographic order on pairs of numbers. -/
def lexLe (a b : Nat × Nat) : Bool :=
  a.1 < b.1 || (a.1 == b.1 && a.2 ≤ b.2)

theorem insertBy_perm {α : Type} (le : α → α → Bool) (x : α) (ys : List α) :
    (insertBy le x ys).Perm (x :: ys) := by
  induction ys with
  | nil => exact .refl _
  | cons y ys ih =>
    unfold insertBy
    split
    · exact .refl _
    · exact (ih.cons y).trans (.swap x y ys)

/-- Sorting rearranges and neither drops nor invents. -/
theorem sortBy_perm {α : Type} (le : α → α → Bool) (xs : List α) : (sortBy le xs).Perm xs := by
  induction xs with
  | nil => exact .refl _
  | cons x xs ih => exact (insertBy_perm le x _).trans (ih.cons x)

theorem mem_sortBy {α : Type} {le : α → α → Bool} {x : α} {xs : List α} :
    x ∈ sortBy le xs ↔ x ∈ xs :=
  (sortBy_perm le xs).mem_iff

theorem pairwise_insertBy {α : Type} {le : α → α → Bool} (total : ∀ a b, le a b = false → le b a = true)
    (trans : ∀ a b c, le a b = true → le b c = true → le a c = true) (x : α) {ys : List α}
    (h : ys.Pairwise fun a b => le a b = true) : (insertBy le x ys).Pairwise fun a b => le a b = true := by
  induction ys with
  | nil => exact List.pairwise_singleton _ _
  | cons y ys ih =>
    obtain ⟨hy, hys⟩ := List.pairwise_cons.mp h
    unfold insertBy
    split
    next hxy =>
      refine List.pairwise_cons.mpr ⟨fun z hz => ?_, h⟩
      rcases List.mem_cons.mp hz with rfl | hz
      · exact hxy
      · exact trans x y z hxy (hy z hz)
    next hxy =>
      refine List.pairwise_cons.mpr ⟨fun z hz => ?_, ih hys⟩
      rcases List.mem_cons.mp ((insertBy_perm le x ys).mem_iff.mp hz) with rfl | hz
      · exact total z y (Bool.eq_false_iff.mpr hxy)
      · exact hy z hz

/-- By a total order the entries come out in order. -/
theorem pairwise_sortBy {α : Type} {le : α → α → Bool} (total : ∀ a b, le a b = false → le b a = true)
    (trans : ∀ a b c, le a b = true → le b c = true → le a c = true) (xs : List α) :
    (sortBy le xs).Pairwise fun a b => le a b = true := by
  induction xs with
  | nil => exact .nil
  | cons x xs ih => exact pairwise_insertBy total trans x ih

theorem mem_insertAscending {x z : Nat} {ys : List Nat} :
    z ∈ insertAscending x ys ↔ z = x ∨ z ∈ ys := by
  induction ys with
  | nil => simp [insertAscending]
  | cons y ys ih =>
    unfold insertAscending
    split
    · simp
    · split
      · simp [*]
      · simp [ih]
        exact or_left_comm

theorem mem_ascending {z : Nat} {xs : List Nat} : z ∈ ascending xs ↔ z ∈ xs := by
  induction xs with
  | nil => simp [ascending]
  | cons x xs ih =>
    have h : ascending (x :: xs) = insertAscending x (ascending xs) := rfl
    rw [h, mem_insertAscending, ih, List.mem_cons]

theorem length_sortBy {α : Type} (le : α → α → Bool) (xs : List α) :
    (sortBy le xs).length = xs.length :=
  (sortBy_perm le xs).length_eq

theorem insertBy_map {α β : Type} {le : α → α → Bool} {le' : β → β → Bool} {f : α → β}
    (h : ∀ a b, le' (f a) (f b) = le a b) (x : α) (ys : List α) :
    insertBy le' (f x) (ys.map f) = (insertBy le x ys).map f := by
  induction ys with
  | nil => rfl
  | cons y ys ih =>
    simp only [List.map_cons, insertBy, h]
    split
    · rfl
    · rw [ih, List.map_cons]

/-- Renaming that respects the order can be done before sorting or after it. -/
theorem sortBy_map {α β : Type} {le : α → α → Bool} (le' : β → β → Bool) {f : α → β}
    (h : ∀ a b, le' (f a) (f b) = le a b) (xs : List α) :
    sortBy le' (xs.map f) = (sortBy le xs).map f := by
  induction xs with
  | nil => rfl
  | cons x xs ih =>
    simp only [List.map_cons, sortBy]
    rw [ih, insertBy_map h]

end QubitRouting
