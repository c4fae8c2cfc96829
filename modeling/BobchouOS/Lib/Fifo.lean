import Mathlib

namespace lib

variable {α : Type}

/-- A ring of `cap` slots between a producer and a consumer that count what they
wrote and read modulo `m`. The entries of `xs` are written and not yet read;
nothing is said about the other slots. -/
structure Fifo (m cap : Nat) (ring : Nat → α) (produced consumed : Nat) (xs : List α) : Prop where
  consumed_lt : consumed < m
  produced_eq : produced = (consumed + xs.length) % m
  slots : ∀ j, (hj : j < xs.length) → ring ((consumed + j) % cap) = xs[j]

namespace Fifo

variable {m cap produced consumed : Nat} {ring : Nat → α} {x : α} {xs : List α}

theorem nil (h : consumed < m) : Fifo m cap ring consumed consumed [] := by
  refine ⟨h, ?_, by simp⟩
  rw [List.length_nil, Nat.add_zero, Nat.mod_eq_of_lt h]

/-- The counters meet exactly when nothing is unread. -/
theorem counters_eq_iff (h : Fifo m cap ring produced consumed xs) (hlen : xs.length < m) :
    consumed = produced ↔ xs = [] := by
  have hlt := h.consumed_lt
  rw [h.produced_eq]
  constructor
  · intro heq
    apply List.length_eq_zero_iff.mp
    by_cases hwrap : consumed + xs.length < m
    · rw [Nat.mod_eq_of_lt hwrap] at heq
      omega
    · rw [Nat.mod_eq_sub_mod (by omega), Nat.mod_eq_of_lt (by omega)] at heq
      omega
  · intro hnil
    rw [hnil, List.length_nil, Nat.add_zero, Nat.mod_eq_of_lt hlt]

/-- Below the capacity the slot that is written next is not an unread one. Both
counters may have wrapped, since `cap` divides their period. -/
theorem slot_ne {j : Nat} (h : Fifo m cap ring produced consumed xs) (hdvd : cap ∣ m)
    (hroom : xs.length < cap) (hj : j < xs.length) : (consumed + j) % cap ≠ produced % cap := by
  rw [h.produced_eq, Nat.mod_mod_of_dvd _ hdvd]
  intro heq
  have hmod : j % cap = xs.length % cap := Nat.ModEq.add_left_cancel' consumed heq
  rw [Nat.mod_eq_of_lt (by omega), Nat.mod_eq_of_lt hroom] at hmod
  omega

/-- A producer that keeps to the capacity overwrites no unread slot. -/
theorem push (h : Fifo m cap ring produced consumed xs) (hdvd : cap ∣ m) (hroom : xs.length < cap) (x : α) :
    Fifo m cap (Function.update ring (produced % cap) x) ((produced + 1) % m) consumed (xs ++ [x]) := by
  have hprod : produced % cap = (consumed + xs.length) % cap := by
    rw [h.produced_eq, Nat.mod_mod_of_dvd _ hdvd]
  refine ⟨h.consumed_lt, ?_, ?_⟩
  · rw [h.produced_eq, List.length_append, List.length_singleton, Nat.mod_add_mod, Nat.add_assoc]
  · intro j hj
    rw [List.length_append, List.length_singleton] at hj
    by_cases hlast : j = xs.length
    · subst hlast
      rw [hprod, Function.update_self, List.getElem_concat_length rfl]
    · have hold : j < xs.length := by omega
      rw [Function.update_of_ne (h.slot_ne hdvd hroom hold), List.getElem_append_left hold]
      exact h.slots j hold

/-- The consumer reads the entries in the order they were written. -/
theorem pop (h : Fifo m cap ring produced consumed (x :: xs)) (hdvd : cap ∣ m) :
    ring (consumed % cap) = x ∧ Fifo m cap ring produced ((consumed + 1) % m) xs := by
  refine ⟨h.slots 0 (by simp), Nat.mod_lt _ (Nat.zero_lt_of_lt h.consumed_lt), ?_, ?_⟩
  · rw [h.produced_eq, List.length_cons, Nat.mod_add_mod]
    congr 1
    omega
  · intro j hj
    have hnext := h.slots (j + 1) (by simpa using hj)
    have hslot : ((consumed + 1) % m + j) % cap = (consumed + (j + 1)) % cap := by
      rw [← Nat.mod_add_mod, Nat.mod_mod_of_dvd _ hdvd, Nat.mod_add_mod]
      congr 1
      omega
    rw [hslot, hnext, List.getElem_cons_succ]

end Fifo

end lib
