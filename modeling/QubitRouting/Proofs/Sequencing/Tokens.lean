import QubitRouting.Proofs.Registry.Slots
import QubitRouting.Sequencing.Split

/-!
# What swaps carry where

Give every node a content and carry out swaps: `exchangeAlong` is what the nodes hold afterwards, and
`carried` is where the content of a node ends up. A walk along a path takes the content of its first
node to its last one (`carried_walk`) and leaves all other nodes alone, so the two halves of a split
bring the contents of both ends to the two sides of the cut (`Split.carried_swaps`).
-/

namespace QubitRouting

/-- The contents of two nodes change places. -/
def exchangeContents {V : Type} (file : Qubit → V) (s : Swap) : Qubit → V :=
  fun x => file (swapNames s.1 s.2 x)

/-- What the nodes hold after a list of swaps. -/
def exchangeAlong {V : Type} (file : Qubit → V) (swaps : List Swap) : Qubit → V :=
  swaps.foldl exchangeContents file

/-- Where the content of a node is after a list of swaps. -/
def carried (swaps : List Swap) (x : Qubit) : Qubit :=
  swaps.foldl (fun y s => swapNames s.1 s.2 y) x

@[simp] theorem swapNames_left (a b : PathId) : swapNames a b a = b := by
  simp [swapNames]

@[simp] theorem swapNames_right (a b : PathId) : swapNames a b b = a := by
  unfold swapNames
  split
  next h => exact h
  next => rw [if_pos rfl]

theorem swapNames_of_ne {a b i : PathId} (ha : i ≠ a) (hb : i ≠ b) : swapNames a b i = i := by
  simp [swapNames, ha, hb]

@[simp] theorem swapNames_swapNames (a b i : PathId) : swapNames a b (swapNames a b i) = i := by
  rw [swapNames_eq]
  exact Equiv.congr_fun (Equiv.swap_swap a b) i

/-- The content that was on `x` at the start is found where it was carried. -/
theorem exchangeAlong_carried {V : Type} (file : Qubit → V) (swaps : List Swap) (x : Qubit) :
    exchangeAlong file swaps (carried swaps x) = file x := by
  induction swaps generalizing file x with
  | nil => rfl
  | cons s swaps ih =>
    show exchangeAlong (exchangeContents file s) swaps (carried swaps (swapNames s.1 s.2 x)) = file x
    rw [ih, exchangeContents, swapNames_swapNames]

theorem carried_append (l l' : List Swap) (x : Qubit) :
    carried (l ++ l') x = carried l' (carried l x) :=
  List.foldl_append

/-- Swaps on other nodes leave a content where it is. -/
theorem carried_of_forall_ne {swaps : List Swap} {x : Qubit}
    (h : ∀ s ∈ swaps, x ≠ s.1 ∧ x ≠ s.2) : carried swaps x = x := by
  induction swaps with
  | nil => rfl
  | cons s swaps ih =>
    obtain ⟨h₁, h₂⟩ := h s List.mem_cons_self
    show carried swaps (swapNames s.1 s.2 x) = x
    rw [swapNames_of_ne h₁ h₂]
    exact ih fun t ht => h t (List.mem_cons_of_mem s ht)

/-! ## Walks -/

theorem walk_cons_cons (x y : Qubit) (rest : List Qubit) :
    walk (x :: y :: rest) = (x, y) :: walk (y :: rest) := rfl

/-- A walk only swaps nodes of its path. -/
theorem mem_of_mem_walk {p : List Qubit} {s : Swap} (h : s ∈ walk p) : s.1 ∈ p ∧ s.2 ∈ p := by
  obtain ⟨h₁, h₂⟩ := List.of_mem_zip h
  exact ⟨h₁, List.mem_of_mem_tail h₂⟩

/-- A walk takes the content of the first node to the last one. -/
theorem carried_walk : ∀ {p : List Qubit} {x y : Qubit}, p.head? = some x → p.getLast? = some y →
    carried (walk p) x = y
  | [], x, y, hx, _ => by simp at hx
  | [z], x, y, hx, hy => by
    simp only [List.head?_cons, List.getLast?_singleton, Option.some.injEq] at hx hy
    rw [← hx, hy]
    rfl
  | z :: w :: rest, x, y, hx, hy => by
    obtain rfl : z = x := by simpa using hx
    rw [walk_cons_cons]
    show carried (walk (w :: rest)) (swapNames z w z) = y
    rw [swapNames_left]
    exact carried_walk rfl (by simpa using hy)

theorem carried_walk_of_not_mem {p : List Qubit} {x : Qubit} (h : x ∉ p) :
    carried (walk p) x = x := by
  refine carried_of_forall_ne fun s hs => ?_
  obtain ⟨h₁, h₂⟩ := mem_of_mem_walk hs
  exact ⟨fun he => h (he ▸ h₁), fun he => h (he ▸ h₂)⟩

/-! ## Splits -/

namespace Split

theorem mem_nodes_iff {s : Split} {x : Qubit} : x ∈ s.nodes ↔ x ∈ s.before ∨ x ∈ s.after := by
  simp [nodes]

/-- The swaps of a split stay on its path. -/
theorem mem_nodes_of_mem_swaps {s : Split} {w : Swap} (h : w ∈ s.swaps) :
    w.1 ∈ s.nodes ∧ w.2 ∈ s.nodes := by
  rw [mem_nodes_iff, mem_nodes_iff]
  rcases List.mem_append.mp h with h | h
  · obtain ⟨h₁, h₂⟩ := mem_of_mem_walk h
    exact ⟨.inl (List.mem_reverse.mp h₁), .inl (List.mem_reverse.mp h₂)⟩
  · obtain ⟨h₁, h₂⟩ := mem_of_mem_walk h
    exact ⟨.inr (List.mem_reverse.mp h₁), .inr (List.mem_reverse.mp h₂)⟩

theorem boundAt_iff {s : Split} {x : Qubit} :
    s.boundAt x = true ↔ s.before.head? = some x ∨ s.after.head? = some x := by
  simp [boundAt]

theorem mem_nodes_of_boundAt {s : Split} {x : Qubit} (h : s.boundAt x = true) : x ∈ s.nodes := by
  rw [mem_nodes_iff]
  exact (boundAt_iff.mp h).imp List.mem_of_head? List.mem_of_head?

/-- The ends of the path come to stand on the two sides of the cut, which follow one another on the
path. -/
theorem carried_swaps {s : Split} (hnodup : s.nodes.Nodup) {x y a b : Qubit}
    (hx : s.before.head? = some x) (hy : s.after.head? = some y)
    (ha : s.nodes.head? = some a) (hb : s.nodes.getLast? = some b) :
    carried s.swaps a = x ∧ carried s.swaps b = y := by
  have hdisj : ∀ z, z ∈ s.before → z ∉ s.after := fun z hz hz' =>
    (List.nodup_append.mp hnodup).2.2 z (List.mem_reverse.mpr hz) z hz' rfl
  have hbefore : s.before ≠ [] := by
    intro h
    simp [h] at hx
  have hafter : s.after ≠ [] := by
    intro h
    simp [h] at hy
  have ha' : s.before.reverse.head? = some a := by
    rwa [nodes, List.head?_append_of_ne_nil _ (by simpa using hbefore)] at ha
  have hb' : s.after.reverse.head? = some b := by
    rwa [nodes, List.getLast?_append_of_ne_nil _ hafter, ← List.head?_reverse] at hb
  have hxmem : x ∈ s.before := List.mem_of_head? hx
  have hbmem : b ∈ s.after := List.mem_reverse.mp (List.mem_of_head? hb')
  rw [swaps, carried_append, carried_append]
  constructor
  · rw [carried_walk ha' (by simpa using hx)]
    exact carried_walk_of_not_mem fun h => hdisj x hxmem (List.mem_reverse.mp h)
  · rw [carried_walk_of_not_mem fun h => hdisj b (List.mem_reverse.mp h) hbmem]
    exact carried_walk hb' (by simpa using hy)

/-- The nodes on the two sides of the cut follow one another on the path. -/
theorem infix_nodes {s : Split} {x y : Qubit} (hx : s.before.head? = some x)
    (hy : s.after.head? = some y) : [x, y] <:+: s.nodes := by
  obtain ⟨before, hbefore⟩ := List.head?_eq_some_iff.mp hx
  obtain ⟨after, hafter⟩ := List.head?_eq_some_iff.mp hy
  exact ⟨before.reverse, after, by simp [nodes, hbefore, hafter]⟩

/-- A walk along `n` nodes has `n - 1` swaps. -/
theorem length_swaps {s : Split} (hb : s.before ≠ []) (ha : s.after ≠ []) :
    s.swaps.length + 2 = s.nodes.length := by
  have hb' := List.length_pos_iff.mpr hb
  have ha' := List.length_pos_iff.mpr ha
  simp only [swaps, walk, nodes, List.length_append, List.length_zip, List.length_tail,
    List.length_reverse]
  omega

end Split

end QubitRouting
