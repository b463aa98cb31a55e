/-!
# Tallies

A tally counts how often each key occurred, in ascending order of the keys.
-/

namespace QubitRouting

/-- Keys with their counts, ascending. -/
abbrev Tally (κ : Type) := List (κ × Nat)

namespace Tally

/-- Count one more occurrence of `k`; `before` is the order of the keys. -/
def count {κ : Type} [DecidableEq κ] (before : κ → κ → Bool) (k : κ) : Tally κ → Tally κ
  | [] => [(k, 1)]
  | e :: rest =>
    if e.1 = k then (k, e.2 + 1) :: rest
    else if before k e.1 then (k, 1) :: e :: rest
    else e :: count before k rest

/-- The number of occurrences of all keys together. -/
def total {κ : Type} (t : Tally κ) : Nat :=
  t.foldr (fun e n => e.2 + n) 0

/-- How often `k` occurred. -/
def get {κ : Type} [DecidableEq κ] (t : Tally κ) (k : κ) : Nat :=
  (t.lookup k).getD 0

theorem total_count {κ : Type} [DecidableEq κ] (before : κ → κ → Bool) (k : κ) (t : Tally κ) :
    (t.count before k).total = t.total + 1 := by
  induction t with
  | nil => rfl
  | cons e rest ih =>
    unfold count
    split
    · simp only [total, List.foldr_cons]
      omega
    · split
      · simp only [total, List.foldr_cons]
        omega
      · simp only [total, List.foldr_cons] at ih ⊢
        omega

end Tally

end QubitRouting
