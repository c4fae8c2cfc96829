import Mathlib

namespace bobchouos

/-! Constants of `riscv.h` and `mem_layout.h`. -/

def PG_SHIFT : Nat := 12
def PG_SIZE : Nat := 4096

def KERN_BASE : Nat := 0x80000000
def PHYS_STOP : Nat := 0x88000000

/-- `PG_ROUND_UP` in 64-bit arithmetic: the sum wraps before it is masked. -/
def PG_ROUND_UP (a : Nat) : Nat := ((a + PG_SIZE - 1) % 2 ^ 64).ldiff (PG_SIZE - 1)

def PG_ROUND_DOWN (a : Nat) : Nat := a.ldiff (PG_SIZE - 1)

/-- Clearing the low `k` bits. -/
theorem ldiff_mask (a k : Nat) : a.ldiff (2 ^ k - 1) = a / 2 ^ k * 2 ^ k := by
  apply Nat.eq_of_testBit_eq
  intro i
  rw [Nat.testBit_ldiff, Nat.testBit_two_pow_sub_one, Nat.testBit_mul_two_pow, Nat.testBit_div_two_pow]
  by_cases hi : i < k
  · simp [hi]
  · simp [hi, Nat.sub_add_cancel (Nat.le_of_not_lt hi), Nat.le_of_not_lt hi]

theorem PG_ROUND_DOWN_eq (a : Nat) : PG_ROUND_DOWN a = a / PG_SIZE * PG_SIZE := ldiff_mask a 12

theorem PG_ROUND_UP_eq {a : Nat} (h : a + PG_SIZE ≤ 2 ^ 64) :
    PG_ROUND_UP a = (a + PG_SIZE - 1) / PG_SIZE * PG_SIZE := by
  unfold PG_ROUND_UP
  rw [Nat.mod_eq_of_lt (by simp only [PG_SIZE] at *; omega)]
  exact ldiff_mask _ 12

theorem PG_ROUND_UP_aligned (a : Nat) : PG_ROUND_UP a % PG_SIZE = 0 ∧ PG_ROUND_UP a < 2 ^ 64 := by
  unfold PG_ROUND_UP
  rw [show PG_SIZE - 1 = 2 ^ 12 - 1 from rfl, ldiff_mask, PG_SIZE]
  omega

theorem PG_ROUND_DOWN_aligned (a : Nat) : PG_ROUND_DOWN a % PG_SIZE = 0 ∧ PG_ROUND_DOWN a ≤ a := by
  rw [PG_ROUND_DOWN_eq, PG_SIZE]
  omega

end bobchouos
