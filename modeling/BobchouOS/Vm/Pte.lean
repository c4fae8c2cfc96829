import BobchouOS.Layout

namespace bobchouos

/-! Page table entries and the user address space, from `vm.h` and `mem_layout.h`. -/

def PTE_V : Nat := 1 <<< 0
def PTE_R : Nat := 1 <<< 1
def PTE_W : Nat := 1 <<< 2
def PTE_X : Nat := 1 <<< 3
def PTE_U : Nat := 1 <<< 4
def PTE_A : Nat := 1 <<< 6
def PTE_D : Nat := 1 <<< 7
def PTE_COW : Nat := 1 <<< 8

def MAX_VA : Nat := 1 <<< 38
def TRAMPOLINE : Nat := MAX_VA - PG_SIZE
def TRAPFRAME : Nat := TRAMPOLINE - PG_SIZE
def USER_STACK_TOP : Nat := TRAPFRAME - PG_SIZE
def STACK_MAX_PAGES : Nat := 16
def USER_STACK_BOT : Nat := USER_STACK_TOP - STACK_MAX_PAGES * PG_SIZE
def HEAP_MAX : Nat := USER_STACK_BOT - PG_SIZE

/-- `pa_to_pte`. -/
def pa_to_pte (pa : Nat) : Nat := (pa >>> 12) <<< 10

/-- `pte_to_pa`, a 64-bit shift. -/
def pte_to_pa (pte : Nat) : Nat := (pte >>> 10) <<< 12 % 2 ^ 64

/-- `pte_flags`. -/
def pte_flags (pte : Nat) : Nat := pte &&& 0x3FF

/-- `PX`. -/
def PX (level va : Nat) : Nat := (va >>> (PG_SHIFT + 9 * level)) &&& 0x1FF

/-- `pte & flag` as a condition. -/
def Has (pte flag : Nat) : Prop := pte &&& flag ≠ 0

instance (pte flag : Nat) : Decidable (Has pte flag) := inferInstanceAs (Decidable (_ ≠ _))

theorem has_bit (x i : Nat) : Has x (1 <<< i) ↔ x.testBit i = true := by
  unfold Has
  rw [Nat.one_shiftLeft, Nat.and_two_pow]
  cases x.testBit i <;> simp

theorem has_or (x y f : Nat) : Has (x ||| y) f ↔ Has x f ∨ Has y f := by
  unfold Has
  rw [Nat.and_or_distrib_right]
  constructor
  · intro h
    by_contra hnone
    push Not at hnone
    exact h (by rw [hnone.1, hnone.2, Nat.or_self])
  · intro h hzero
    have hx := Nat.or_eq_zero_iff.mp hzero
    tauto

theorem has_ldiff (x y i : Nat) : Has (x.ldiff y) (1 <<< i) ↔ Has x (1 <<< i) ∧ ¬ Has y (1 <<< i) := by
  simp [has_bit, Nat.testBit_ldiff]

theorem has_and (x y i : Nat) : Has (x &&& y) (1 <<< i) ↔ Has x (1 <<< i) ∧ Has y (1 <<< i) := by
  simp [has_bit]

section Bits

variable {pte pa f : Nat}

theorem PX_zero (va : Nat) : PX 0 va = va / PG_SIZE % 512 := by
  rw [PX, Nat.shiftRight_eq_div_pow]
  exact Nat.and_two_pow_sub_one_eq_mod _ 9

theorem PX_one (va : Nat) : PX 1 va = va / PG_SIZE / 512 % 512 := by
  rw [PX, Nat.shiftRight_eq_div_pow, Nat.div_div_eq_div_mul]
  exact Nat.and_two_pow_sub_one_eq_mod _ 9

theorem PX_two (va : Nat) : PX 2 va = va / PG_SIZE / 512 / 512 % 512 := by
  rw [PX, Nat.shiftRight_eq_div_pow, Nat.div_div_eq_div_mul, Nat.div_div_eq_div_mul]
  exact Nat.and_two_pow_sub_one_eq_mod _ 9

theorem PX_lt (level va : Nat) : PX level va < 512 :=
  Nat.lt_of_le_of_lt (Nat.and_le_right) (by decide)

theorem pte_flags_eq (pte : Nat) : pte_flags pte = pte % 1024 := Nat.and_two_pow_sub_one_eq_mod pte 10

theorem pte_flags_lt (pte : Nat) : pte_flags pte < 1024 := by
  rw [pte_flags_eq]
  exact Nat.mod_lt _ (by decide)

/-- A condition on a flag looks at the flag bits only. -/
theorem and_flag (hf : f < 1024) : pte &&& f = pte_flags pte &&& f := by
  have hlt : pte &&& f < 1024 := Nat.lt_of_le_of_lt Nat.and_le_right hf
  rw [← Nat.mod_eq_of_lt hlt, show (1024 : Nat) = 2 ^ 10 from rfl, Nat.and_mod_two_pow, pte_flags_eq,
    Nat.mod_eq_of_lt hf]

theorem has_flags (hf : f < 1024) : Has (pte_flags pte) f ↔ Has pte f := by
  unfold Has
  rw [@and_flag pte f hf]

theorem pa_to_pte_eq (pa : Nat) : pa_to_pte pa = pa / 4096 * 1024 := by
  rw [pa_to_pte, Nat.shiftLeft_eq, Nat.shiftRight_eq_div_pow]

theorem pte_to_pa_eq (pte : Nat) : pte_to_pa pte = pte / 1024 * 4096 % 2 ^ 64 := by
  rw [pte_to_pa, Nat.shiftLeft_eq, Nat.shiftRight_eq_div_pow]

/-- An address and flags put together, and taken apart again. -/
theorem pte_of_parts (hpa : pa % PG_SIZE = 0) (hlt : pa < 2 ^ 56) (hf : f < 1024) :
    pte_to_pa (pa_to_pte pa ||| f) = pa ∧ pte_flags (pa_to_pte pa ||| f) = f ∧ pa_to_pte pa ||| f < 2 ^ 64 := by
  have hsum : pa_to_pte pa ||| f = pa / 4096 * 1024 + f := by
    rw [pa_to_pte, ← Nat.shiftLeft_add_eq_or_of_lt hf, Nat.shiftLeft_eq, Nat.shiftRight_eq_div_pow]
  rw [pte_to_pa_eq, pte_flags_eq, hsum]
  simp only [PG_SIZE] at hpa
  refine ⟨?_, ?_, ?_⟩ <;> omega

theorem or_flag (hf : f < 1024) : pte ||| f = pte / 1024 * 1024 + (pte_flags pte ||| f) := by
  have hsplit : pte = (pte / 1024) <<< 10 ||| pte_flags pte := by
    rw [← Nat.shiftLeft_add_eq_or_of_lt (pte_flags_lt pte), Nat.shiftLeft_eq, pte_flags_eq]
    omega
  have hor : pte_flags pte ||| f < 2 ^ 10 := Nat.or_lt_two_pow (pte_flags_lt pte) hf
  conv_lhs => rw [hsplit]
  rw [Nat.or_assoc, ← Nat.shiftLeft_add_eq_or_of_lt hor, Nat.shiftLeft_eq]

theorem ldiff_flag (hf : f < 1024) : pte.ldiff f = pte / 1024 * 1024 + (pte_flags pte).ldiff f := by
  have hlow : (pte_flags pte).ldiff f < 2 ^ 10 := by
    apply Nat.lt_pow_two_of_testBit
    intro i hi
    rw [Nat.testBit_ldiff, Nat.testBit_lt_two_pow (Nat.lt_of_lt_of_le (pte_flags_lt pte)
      (Nat.pow_le_pow_right (by decide) hi : 2 ^ 10 ≤ 2 ^ i))]
    rfl
  rw [show pte / 1024 * 1024 = (pte / 1024) <<< 10 by rw [Nat.shiftLeft_eq],
    Nat.shiftLeft_add_eq_or_of_lt hlow]
  apply Nat.eq_of_testBit_eq
  intro i
  rw [Nat.testBit_ldiff, Nat.testBit_or, Nat.testBit_shiftLeft, Nat.testBit_ldiff, pte_flags_eq,
    show (1024 : Nat) = 2 ^ 10 from rfl, Nat.testBit_mod_two_pow, Nat.testBit_div_two_pow]
  by_cases hi : i < 10
  · simp [hi, Nat.not_le.mpr hi]
  · have hge : 10 ≤ i := Nat.le_of_not_lt hi
    have hfi : f.testBit i = false := Nat.testBit_lt_two_pow
      (Nat.lt_of_lt_of_le hf (Nat.pow_le_pow_right (by decide) hge : 2 ^ 10 ≤ 2 ^ i))
    simp [hi, hge, hfi, Nat.sub_add_cancel hge]

/-- Setting flag bits keeps the address. -/
theorem pte_or (hf : f < 1024) :
    pte_to_pa (pte ||| f) = pte_to_pa pte ∧ pte_flags (pte ||| f) = pte_flags pte ||| f := by
  have hor : pte_flags pte ||| f < 2 ^ 10 := Nat.or_lt_two_pow (pte_flags_lt pte) hf
  rw [pte_to_pa_eq, pte_to_pa_eq, pte_flags_eq (pte ||| f), or_flag hf]
  refine ⟨?_, ?_⟩
  · congr 2
    omega
  · omega

/-- Clearing flag bits keeps the address. -/
theorem pte_ldiff (hf : f < 1024) :
    pte_to_pa (pte.ldiff f) = pte_to_pa pte ∧ pte_flags (pte.ldiff f) = (pte_flags pte).ldiff f := by
  have hlow : (pte_flags pte).ldiff f < 1024 := by
    have hle : (pte_flags pte).ldiff f ≤ pte_flags pte := by
      apply Nat.le_of_testBit
      intro i hi
      rw [Nat.testBit_ldiff, Bool.and_eq_true] at hi
      exact hi.1
    exact Nat.lt_of_le_of_lt hle (pte_flags_lt pte)
  rw [pte_to_pa_eq, pte_to_pa_eq, pte_flags_eq (pte.ldiff f), ldiff_flag hf]
  refine ⟨?_, ?_⟩
  · congr 2
    omega
  · omega

end Bits

end bobchouos
