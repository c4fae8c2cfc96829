import Mathlib

namespace lib

/-- The nodes of a null-terminated singly linked list, front to back: `head` is
the value of the pointer to the first node and `next` reads a node's link.
Node zero is the null pointer and is never on a list. -/
def Chain (next : Nat → Nat) : Nat → List Nat → Prop
  | head, [] => head = 0
  | head, x :: xs => head = x ∧ x ≠ 0 ∧ Chain next (next x) xs

namespace Chain

/-- Following at most `fuel` links from `head`, up to the null pointer. -/
def walk (next : Nat → Nat) : Nat → Nat → List Nat
  | 0, _ => []
  | fuel + 1, head => if head = 0 then [] else head :: walk next fuel (next head)

variable {next next' : Nat → Nat} {head x : Nat} {xs : List Nat}

@[simp] theorem nil_iff : Chain next head [] ↔ head = 0 := Iff.rfl

@[simp] theorem cons_iff :
    Chain next head (x :: xs) ↔ head = x ∧ x ≠ 0 ∧ Chain next (next x) xs := Iff.rfl

theorem ne_zero_of_mem (h : Chain next head xs) (hx : x ∈ xs) : x ≠ 0 := by
  induction xs generalizing head with
  | nil => cases hx
  | cons y ys ih =>
    obtain ⟨-, hy, htail⟩ := h
    rcases List.mem_cons.mp hx with rfl | hx
    · exact hy
    · exact ih htail hx

theorem head_eq_zero_iff (h : Chain next head xs) : head = 0 ↔ xs = [] := by
  cases xs with
  | nil => simpa using h
  | cons y ys =>
    obtain ⟨rfl, hy, -⟩ := h
    simp [hy]

/-- A list is read through the links of its own nodes only. -/
theorem congr (h : Chain next head xs) (hnext : ∀ x ∈ xs, next' x = next x) :
    Chain next' head xs := by
  induction xs generalizing head with
  | nil => exact h
  | cons y ys ih =>
    obtain ⟨rfl, hy, htail⟩ := h
    refine ⟨rfl, hy, ?_⟩
    rw [hnext head (by simp)]
    exact ih htail fun x hx => hnext x (by simp [hx])

/-- Enough steps from the head visit exactly the nodes of the list. -/
theorem walk_eq {fuel : Nat} (h : Chain next head xs) (hfuel : xs.length ≤ fuel) :
    walk next fuel head = xs := by
  induction xs generalizing head fuel with
  | nil =>
    have hzero : head = 0 := h
    cases fuel with
    | zero => rfl
    | succ fuel => rw [walk, if_pos hzero]
  | cons x xs ih =>
    obtain ⟨rfl, hx, htail⟩ := h
    cases fuel with
    | zero => simp at hfuel
    | succ fuel =>
      rw [walk, if_neg hx, ih htail]
      simpa using hfuel

/-- A head and its links are the start of at most one list. -/
theorem unique {ys : List Nat} (h : Chain next head xs) (h' : Chain next head ys) : xs = ys := by
  rw [← h.walk_eq (Nat.le_max_left xs.length ys.length), h'.walk_eq (Nat.le_max_right ..)]

/-- Redirecting the link of the node in front of `x` to the node behind `x`
takes `x` off the list. -/
theorem remove {pre : List Nat} {p : Nat}
    (h : Chain next head (pre ++ p :: x :: xs))
    (hp : next' p = next x) (hnext : ∀ y ∈ pre ++ p :: xs, y ≠ p → next' y = next y)
    (hnodup : (pre ++ p :: x :: xs).Nodup) :
    Chain next' head (pre ++ p :: xs) := by
  induction pre generalizing head with
  | nil =>
    obtain ⟨rfl, hp0, -, hx, htail⟩ := h
    simp only [List.nil_append, List.nodup_cons, List.mem_cons, not_or] at hnodup
    refine ⟨rfl, hp0, ?_⟩
    rw [hp]
    apply htail.congr
    intro y hy
    apply hnext y (by simp [hy])
    rintro rfl
    exact hnodup.1.2 hy
  | cons y ys ih =>
    obtain ⟨rfl, hy, htail⟩ := h
    rw [List.cons_append, List.nodup_cons] at hnodup
    have hne : head ≠ p := by
      rintro rfl
      exact hnodup.1 (by simp)
    refine ⟨rfl, hy, ?_⟩
    rw [hnext head (by simp) hne]
    exact ih htail (fun z hz hzp => hnext z (by simp at hz ⊢; tauto) hzp) hnodup.2

end Chain

end lib
