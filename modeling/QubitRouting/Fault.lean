/-!
# Faults and checked tables

Some steps only make sense under a promise: an index lies inside its table, a divisor is not zero, a
counter does not go below zero. Such a step answers in `Except Fault`, so that "the promise is kept"
is a statement about the answer and not a remark in a comment.
-/

namespace QubitRouting

/-- Why a step has no result. -/
inductive Fault where
  /-- An index outside its table. -/
  | outOfRange
  /-- A remainder by zero. -/
  | zeroDivisor
  /-- A sum that does not fit a 64-bit word. -/
  | overflow
  /-- A difference below zero. -/
  | underflow
  /-- A loop that used up its bound on the number of turns. -/
  | exhausted
deriving DecidableEq, Repr

namespace Fault

/-- The wording of a fault. -/
def message : Fault → String
  | outOfRange => "an index lies outside its table"
  | zeroDivisor => "a remainder by zero"
  | overflow => "a sum does not fit a 64-bit word"
  | underflow => "a difference below zero"
  | exhausted => "a loop used up its bound"

end Fault

/-- The entry of a table at `i`. -/
def fetch {table α : Type} {valid : table → Nat → Prop} [GetElem? table Nat α valid]
    (xs : table) (i : Nat) : Except Fault α :=
  match xs[i]? with
  | some x => .ok x
  | none => .error .outOfRange

/-- The list with the entry at `i` replaced. -/
def store {α : Type} (xs : List α) (i : Nat) (x : α) : Except Fault (List α) :=
  if i < xs.length then .ok (xs.set i x) else .error .outOfRange

/-- The list with the entries at `i` and `j` exchanged. -/
def transpose {α : Type} (xs : List α) (i j : Nat) : Except Fault (List α) := do
  let x ← fetch xs i
  let y ← fetch xs j
  return (xs.set i y).set j x

/-- The difference of two numbers, if it is one. -/
def subtract (a b : Nat) : Except Fault Nat :=
  if b ≤ a then .ok (a - b) else .error .underflow

/-- A computation in two steps succeeds if and only if both steps do. -/
theorem bind_eq_ok_iff {ε α β : Type} {x : Except ε α} {f : α → Except ε β} {b : β} :
    (x >>= f) = .ok b ↔ ∃ a, x = .ok a ∧ f a = .ok b := by
  cases x with
  | error e => simp [bind, Except.bind]
  | ok a => simp [bind, Except.bind]

theorem fetch_eq_ok_iff {α : Type} {xs : List α} {i : Nat} {x : α} :
    fetch xs i = .ok x ↔ xs[i]? = some x := by
  unfold fetch
  cases xs[i]? <;> simp

theorem store_eq_ok_iff {α : Type} {xs ys : List α} {i : Nat} {x : α} :
    store xs i x = .ok ys ↔ i < xs.length ∧ xs.set i x = ys := by
  unfold store
  split <;> simp [*]

theorem subtract_eq_ok_iff {a b d : Nat} : subtract a b = .ok d ↔ b ≤ a ∧ a - b = d := by
  unfold subtract
  split <;> simp [*]

end QubitRouting
