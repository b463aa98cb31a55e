import QubitRouting.Fault
import Mathlib.Data.List.Basic

/-!
# Reasoning about checked steps

Every step that can fail answers in `Except`. Below a step is either *total* under its promise, stated
as `∃ y, step x = .ok y ∧ …`, or it can fail for one known reason, stated as `Ensures step … reason`.

* `foldlM_total`: a loop is total if each turn is, with an invariant on the part of the list that is
  behind it.
* `foldlM_eq_error`, `foldlM_fails`: a loop that fails has handled what comes before the entry that it fails at,
  and an entry at which it must fail makes it fail.
* `mapM_eq_ok`: a table of total steps.
* `Ensures.bind`, `Ensures.foldlM`: one step after the other, and a loop of them.
* `Together.bind`: the same for two computations that are compared.
-/

namespace QubitRouting

/-! ## Results of steps -/

@[simp] theorem ok_bind {ε α β : Type} (a : α) (f : α → Except ε β) :
    (Except.ok a >>= f) = f a := rfl

@[simp] theorem pure_eq_ok {ε α : Type} (a : α) : (pure a : Except ε α) = .ok a := rfl

theorem bind_eq_error_iff {ε α β : Type} {x : Except ε α} {f : α → Except ε β} {e : ε} :
    (x >>= f) = .error e ↔ x = .error e ∨ ∃ a, x = .ok a ∧ f a = .error e := by
  cases x with
  | ok a => simp
  | error e' => simp [bind, Except.bind]

/-- Two results of which the rest reads the same part go on alike. -/
theorem bind_congr_of_map {ε α β γ : Type} {x y : Except ε α} {f : α → β} (h : x.map f = y.map f)
    (g : β → Except ε γ) : (x >>= fun a => g (f a)) = y >>= fun a => g (f a) := by
  have hread : ∀ z : Except ε α, (z >>= fun a => g (f a)) = z.map f >>= g := by
    intro z
    cases z with
    | ok a => rfl
    | error e => rfl
  rw [hread, hread, h]

theorem exists_of_isOk {ε α : Type} {x : Except ε α} (h : x.isOk = true) : ∃ a, x = .ok a := by
  cases x with
  | ok a => exact ⟨a, rfl⟩
  | error e => contradiction

/-- A loop whose turns are all total: the invariant `P` speaks of the entries already handled. -/
theorem foldlM_total {ε α β : Type} {f : α → β → Except ε α} {l : List β} {init : α}
    (P : List β → α → Prop) (start : P [] init)
    (step : ∀ done x rest a, l = done ++ x :: rest → P done a →
      ∃ a', f a x = .ok a' ∧ P (done ++ [x]) a') :
    ∃ a, l.foldlM f init = .ok a ∧ P l a := by
  -- generalise to a list with a handled part in front
  suffices h : ∀ (rest done : List β) (a : α), l = done ++ rest → P done a →
      ∃ a', rest.foldlM f a = .ok a' ∧ P l a' from h l [] init rfl start
  intro rest
  induction rest with
  | nil =>
    intro done a hl ha
    rw [List.append_nil] at hl
    exact ⟨a, rfl, hl ▸ ha⟩
  | cons x rest ih =>
    intro done a hl ha
    obtain ⟨a₁, h₁, hP₁⟩ := step done x rest a hl ha
    obtain ⟨a₂, h₂, hP₂⟩ := ih (done ++ [x]) a₁ (by simp [hl]) hP₁
    exact ⟨a₂, by rw [List.foldlM_cons, h₁, ok_bind, h₂], hP₂⟩

/-- A loop whose turns never fail is a loop without checks. -/
theorem foldlM_eq_ok {ε α β : Type} {f : α → β → Except ε α} {g : α → β → α} {l : List β} (init : α)
    (h : ∀ x ∈ l, ∀ a, f a x = .ok (g a x)) : l.foldlM f init = .ok (l.foldl g init) := by
  have hloop : ∃ a, l.foldlM f init = .ok a ∧ a = l.foldl g init := by
    refine foldlM_total (fun done a => a = done.foldl g init) rfl fun done x rest a hl ha => ?_
    refine ⟨g a x, h x (by simp [hl]) a, ?_⟩
    rw [List.foldl_concat, ha]
  obtain ⟨a, hloop, rfl⟩ := hloop
  exact hloop

/-- What every turn of a loop keeps holds at its end, if it comes to one. -/
theorem foldlM_invariant {ε α β : Type} {f : α → β → Except ε α} {l : List β} {init a : α}
    (h : l.foldlM f init = .ok a) (P : List β → α → Prop) (start : P [] init)
    (step : ∀ done x rest a a', l = done ++ x :: rest → P done a → f a x = .ok a' →
      P (done ++ [x]) a') : P l a := by
  suffices hgen : ∀ (rest done : List β) (a₀ : α), l = done ++ rest → P done a₀ →
      rest.foldlM f a₀ = .ok a → P l a from hgen l [] init rfl start h
  intro rest
  induction rest with
  | nil =>
    intro done a₀ hl ha h
    rw [List.append_nil] at hl
    obtain rfl : a₀ = a := Except.ok.inj h
    exact hl ▸ ha
  | cons x rest ih =>
    intro done a₀ hl ha h
    rw [List.foldlM_cons, bind_eq_ok_iff] at h
    obtain ⟨a₁, h₁, h₂⟩ := h
    exact ih (done ++ [x]) a₁ (by simp [hl]) (step done x rest a₀ a₁ hl ha h₁) h₂

/-- A loop that fails does so at one of its entries, and has handled those before it. -/
theorem foldlM_eq_error {ε α β : Type} {f : α → β → Except ε α} {e : ε} : ∀ {l : List β} {init : α},
    l.foldlM f init = .error e →
    ∃ done x rest a, l = done ++ x :: rest ∧ done.foldlM f init = .ok a ∧ f a x = .error e
  | [], _, h => by contradiction
  | x :: l, init, h => by
    rw [List.foldlM_cons] at h
    cases hx : f init x with
    | error e' =>
      rw [hx] at h
      obtain rfl := Except.error.inj h
      exact ⟨[], x, l, init, rfl, rfl, hx⟩
    | ok a =>
      rw [hx, ok_bind] at h
      obtain ⟨done, y, rest, a', rfl, hdone, hy⟩ := foldlM_eq_error h
      exact ⟨x :: done, y, rest, a', rfl, by rw [List.foldlM_cons, hx, ok_bind, hdone], hy⟩

/-- A loop fails if one of its entries makes it fail, and all others fail in the same way or not at all. -/
theorem foldlM_fails {ε α β : Type} {f : α → β → Except ε α} {e : ε} (P : α → Prop) :
    ∀ {l : List β} {init : α}, P init →
    (∀ x ∈ l, ∀ a, P a → (∃ a', f a x = .ok a' ∧ P a') ∨ f a x = .error e) →
    (∃ x ∈ l, ∀ a, P a → f a x = .error e) → l.foldlM f init = .error e
  | [], _, _, _, hfails => by
    obtain ⟨x, hx, -⟩ := hfails
    contradiction
  | x :: l, init, hinit, hstep, hfails => by
    rw [List.foldlM_cons]
    rcases hstep x List.mem_cons_self init hinit with ⟨a, hx, ha⟩ | hx
    · obtain ⟨y, hy, hyfails⟩ := hfails
      rcases List.mem_cons.mp hy with rfl | hy
      · rw [hyfails init hinit] at hx
        contradiction
      · rw [hx, ok_bind]
        exact foldlM_fails P ha (fun z hz => hstep z (List.mem_cons_of_mem x hz)) ⟨y, hy, hyfails⟩
    · rw [hx]
      rfl

/-- Steps that are all total fill a table. -/
theorem mapM_eq_ok {ε α β : Type} {f : α → Except ε β} {g : α → β} {l : List α}
    (h : ∀ x ∈ l, f x = .ok (g x)) : l.mapM f = .ok (l.map g) := by
  induction l with
  | nil => rfl
  | cons x l ih =>
    rw [List.mapM_cons, h x List.mem_cons_self,
      ih fun y hy => h y (List.mem_cons_of_mem x hy)]
    rfl

theorem forall₂_of_mapM {ε α β : Type} {f : α → Except ε β} : ∀ {l : List α} {ys : List β},
    l.mapM f = .ok ys → List.Forall₂ (fun x y => f x = .ok y) l ys
  | [], ys, h => by
    obtain rfl : [] = ys := Except.ok.inj h
    exact .nil
  | x :: l, ys, h => by
    rw [List.mapM_cons, bind_eq_ok_iff] at h
    obtain ⟨y, hy, h⟩ := h
    obtain ⟨ys', hys', h⟩ := bind_eq_ok_iff.mp h
    obtain rfl := Except.ok.inj h
    exact .cons hy (forall₂_of_mapM hys')

/-! ## Checked tables -/

theorem fetch_eq_ok {table α : Type} {valid : table → Nat → Prop} [GetElem? table Nat α valid]
    {xs : table} {i : Nat} {x : α} (h : xs[i]? = some x) : fetch xs i = .ok x := by
  unfold fetch
  rw [h]

theorem store_eq_ok {α : Type} {xs : List α} {i : Nat} (x : α) (h : i < xs.length) :
    store xs i x = .ok (xs.set i x) :=
  store_eq_ok_iff.mpr ⟨h, rfl⟩

theorem transpose_eq_ok {α : Type} {xs : List α} {i j : Nat} {x y : α} (hi : xs[i]? = some x)
    (hj : xs[j]? = some y) : transpose xs i j = .ok ((xs.set i y).set j x) := by
  unfold transpose
  rw [fetch_eq_ok hi, ok_bind, fetch_eq_ok hj]
  rfl

theorem subtract_eq_ok {a b : Nat} (h : b ≤ a) : subtract a b = .ok (a - b) :=
  subtract_eq_ok_iff.mpr ⟨h, rfl⟩

theorem getElem?_concat_eq_some_iff {α : Type} {xs : List α} {x y : α} {i : Nat} :
    (xs ++ [x])[i]? = some y ↔ y = x ∧ i = xs.length ∨ xs[i]? = some y := by
  by_cases hlt : i < xs.length
  · rw [List.getElem?_append_left hlt]
    simp [Nat.ne_of_lt hlt]
  · rw [List.getElem?_eq_none (l := xs) (by omega)]
    by_cases heq : i = xs.length
    · rw [heq, List.getElem?_concat_length]
      simp [eq_comm]
    · rw [List.getElem?_eq_none (by rw [List.length_append, List.length_singleton]; omega)]
      simp [heq]

/-! ## Counts that bound loops -/

/-- A count drops if the condition gets stronger and one of the counted entries no longer meets it. -/
theorem countP_lt_countP {α : Type} {f g : α → Bool} {l : List α} {a : α} (ha : a ∈ l)
    (himp : ∀ x ∈ l, f x = true → g x = true) (hf : f a = false) (hg : g a = true) :
    l.countP f < l.countP g := by
  obtain ⟨l₁, l₂, rfl⟩ := List.append_of_mem ha
  have h₁ : l₁.countP f ≤ l₁.countP g :=
    List.countP_mono_left fun x hx => himp x (List.mem_append_left _ hx)
  have h₂ : l₂.countP f ≤ l₂.countP g :=
    List.countP_mono_left fun x hx =>
      himp x (List.mem_append_right _ (List.mem_cons_of_mem a hx))
  simp only [List.countP_append, List.countP_cons, hf, hg]
  simp only [Bool.false_eq_true, if_false, if_true]
  omega

/-! ## Steps that may fail for a known reason -/

/-- A result of `x` satisfies `post`, and `x` has no result only if `reason` holds. -/
def Ensures {ε α : Type} (x : Except ε α) (post : α → Prop) (reason : Prop) : Prop :=
  match x with
  | .ok a => post a
  | .error _ => reason

namespace Ensures

variable {ε α β : Type} {x : Except ε α} {post : α → Prop} {reason : Prop}

theorem of_ok {a : α} (h : x = .ok a) (ha : post a) : Ensures x post reason := by
  rw [h]
  exact ha

theorem bind {f : α → Except ε β} {post' : β → Prop} (h : Ensures x post reason)
    (hf : ∀ a, post a → Ensures (f a) post' reason) : Ensures (x >>= f) post' reason := by
  cases x with
  | ok a => exact hf a h
  | error e => exact h

theorem mono {post' : α → Prop} (h : Ensures x post reason) (hp : ∀ a, post a → post' a) :
    Ensures x post' reason := by
  cases x with
  | ok a => exact hp a h
  | error e => exact h

theorem weaken {reason' : Prop} (h : Ensures x post reason) (hr : reason → reason') :
    Ensures x post reason' := by
  cases x with
  | ok a => exact h
  | error e => exact hr h

/-- The result may be named in what is known of it. -/
theorem and_eq (h : Ensures x post reason) : Ensures x (fun a => x = .ok a ∧ post a) reason := by
  cases x with
  | ok a => exact ⟨rfl, h⟩
  | error e => exact h

/-- What is known of a result, once there is one. -/
theorem post_of_eq_ok {a : α} (h : Ensures x post reason) (ha : x = .ok a) : post a := by
  rw [ha] at h
  exact h

theorem reason_of_eq_error {e : ε} (h : Ensures x post reason) (he : x = .error e) : reason := by
  rw [he] at h
  exact h

/-- If the reason does not apply there is a result. -/
theorem total (h : Ensures x post reason) (hr : ¬ reason) : ∃ a, x = .ok a ∧ post a := by
  cases x with
  | ok a => exact ⟨a, rfl, h⟩
  | error e => exact absurd h hr

/-- A loop fails only for the reason for which one of its turns does. -/
theorem foldlM {f : α → β → Except ε α} {l : List β} {init : α} (P : List β → α → Prop)
    (start : P [] init)
    (step : ∀ done x rest a, l = done ++ x :: rest → P done a →
      Ensures (f a x) (P (done ++ [x])) reason) :
    Ensures (l.foldlM f init) (P l) reason := by
  cases hl : l.foldlM f init with
  | ok a =>
    exact foldlM_invariant hl P start fun done x rest a a' hsplit ha hx =>
      (step done x rest a hsplit ha).post_of_eq_ok hx
  | error e =>
    obtain ⟨before, x, after, a, hsplit, hbefore, hx⟩ := foldlM_eq_error hl
    have ha : P before a := by
      refine foldlM_invariant hbefore P start fun done y rest b b' hdone hb hy => ?_
      refine (step done y (rest ++ x :: after) b ?_ hb).post_of_eq_ok hy
      rw [hsplit, hdone, List.append_assoc, List.cons_append]
    exact (step before x after a hsplit ha).reason_of_eq_error hx

end Ensures

/-! ## Two computations side by side -/

/-- Both computations have a result, and the results are related. -/
def Together {ε α β : Type} (x : Except ε α) (y : Except ε β) (rel : α → β → Prop) : Prop :=
  ∃ a b, x = .ok a ∧ y = .ok b ∧ rel a b

namespace Together

variable {ε α β α' β' : Type} {x : Except ε α} {y : Except ε β} {rel : α → β → Prop}

theorem of_ok {a : α} {b : β} (h : rel a b) : Together (.ok a : Except ε α) (.ok b) rel :=
  ⟨a, b, rfl, rfl, h⟩

theorem bind {f : α → Except ε α'} {g : β → Except ε β'} {rel' : α' → β' → Prop}
    (h : Together x y rel) (hfg : ∀ a b, rel a b → Together (f a) (g b) rel') :
    Together (x >>= f) (y >>= g) rel' := by
  obtain ⟨a, b, rfl, rfl, hab⟩ := h
  exact hfg a b hab

end Together

end QubitRouting
