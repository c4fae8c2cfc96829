import BobchouOS.Syscall.Model
import BobchouOS.Vm.Programs
import BobchouOS.Vm.Progress

open lib

namespace bobchouos

namespace Vm

variable {k : Symbols} {binaries : List Binary} {s s' s'' : Kmem} {own own' : Nat → Option Owner} {p : Proc} {rest : List Proc}
  {va uargv max v n rounds : Nat} {f : Mem} {str : Bytes} {args : List Bytes} {argv : List Nat} {kargv_buf : Bytes}

/-- The string at an address, without its NUL. -/
def IsString (f : Mem) (va : Nat) (str : Bytes) : Prop := 0 ∉ str ∧ f.loadBytes va (str.length + 1) = str ++ [0]

instance (f : Mem) (va : Nat) (str : Bytes) : Decidable (IsString f va str) := inferInstanceAs (Decidable (_ ∧ _))

/-- An array of pointers to strings, with a null pointer behind them. -/
def UserArgv (f : Mem) : Nat → List Bytes → Prop
  | va, [] => va < MAX_VA ∧ f.loadWord va = 0
  | va, arg :: args => va < MAX_VA ∧ f.loadWord va ≠ 0 ∧ (f.loadWord va).toNat < MAX_VA ∧
      IsString f (f.loadWord va).toNat arg ∧ UserArgv f (va + 8) args

instance decidableUserArgv (f : Mem) : (va : Nat) → (args : List Bytes) → Decidable (UserArgv f va args)
  | _, [] => inferInstanceAs (Decidable (_ ∧ _))
  | va, _ :: args =>
    have := decidableUserArgv f (va + 8) args
    inferInstanceAs (Decidable (_ ∧ _ ∧ _ ∧ _ ∧ _))

/-- What a read leaves behind: a page is as it was, or it grants loads. -/
def ReadIn (s s' : Kmem) (p : Proc) : Prop :=
  ∀ u < 2 ^ 26, Access.load.Grants (s'.leafPte p.pagetable u) ∨ s'.leafPte p.pagetable u = s.leafPte p.pagetable u

namespace ReadIn

theorem trans (h : ReadIn s s' p) (h' : ReadIn s' s'' p) : ReadIn s s'' p := by
  intro u hu
  rcases h' u hu with hgrants | hsame
  · exact .inl hgrants
  · rw [hsame]
    exact h u hu

end ReadIn

namespace IsString

theorem nul (h : IsString f va str) : f (va + str.length) = 0 ∧ ∀ j < str.length, f (va + j) ≠ 0 := by
  have hget : ∀ j < str.length + 1, f (va + j) = (str ++ [0]).getD j 0 := by
    intro j hj
    rw [← h.2, Mem.getD_loadBytes _ hj]
  refine ⟨by simp [hget], fun j hj hz => h.1 ?_⟩
  rw [hget j (by omega), List.getD_append _ _ _ _ hj, List.getD_eq_getElem _ _ hj] at hz
  exact hz ▸ List.getElem_mem hj

/-- A first NUL ends the string. -/
theorem length_eq (h : IsString f va str) (hnul : f (va + n) = 0) (hbefore : ∀ j < n, f (va + j) ≠ 0) : n = str.length := by
  obtain ⟨hend, hall⟩ := h.nul
  rcases Nat.lt_trichotomy n str.length with hlt | heq | hgt
  · exact absurd hnul (hall n hlt)
  · exact heq
  · exact absurd hend (hbefore _ hgt)

end IsString

namespace Machine

variable {m : Machine} {i : Nat}

end Machine

end Vm

end bobchouos
