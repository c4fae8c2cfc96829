import BobchouOS.Vm.Proc
import BobchouOS.Vm.Refs

open lib

namespace bobchouos

/-- The permission bits that an area may have. -/
def USER_PERMS : Nat := PTE_R ||| PTE_W ||| PTE_X ||| PTE_U

namespace Vma

def Covers (a : Vma) (x : Nat) : Prop := a.start ≤ x ∧ x < a.end_

instance (a : Vma) (x : Nat) : Decidable (a.Covers x) := inferInstanceAs (Decidable (_ ∧ _))

/-- What holds of every area of every process, whatever image it came from. An
area that is not empty ends below the trapframe or is out of reach of `walk`. -/
structure Ok (a : Vma) : Prop where
  start_aligned : a.start % PG_SIZE = 0
  end_aligned : a.end_ % PG_SIZE = 0
  start_lt : a.start < 2 ^ 64
  end_lt : a.end_ < 2 ^ 64
  perm : a.perm &&& USER_PERMS = a.perm
  user : Has a.perm PTE_U
  range : a.start < a.end_ → a.end_ ≤ TRAPFRAME ∨ MAX_VA ≤ a.start

end Vma

/-- The flags of a leaf are those of its area. The right to write is either there
or deferred until the page is no longer shared. -/
structure Agrees (perm x : Nat) : Prop where
  valid : Has x PTE_V
  accessed : Has x PTE_A
  dirty : Has x PTE_D
  read : Has x PTE_R ↔ Has perm PTE_R
  exec : Has x PTE_X ↔ Has perm PTE_X
  user : Has x PTE_U ↔ Has perm PTE_U
  write : Has perm PTE_W ↔ Has x PTE_W ∨ Has x PTE_COW
  not_both : ¬ (Has x PTE_W ∧ Has x PTE_COW)

/-- The address space of a user process: its top two pages, and areas that cover
all its other pages and agree with them. -/
structure AddrSpace (k : Symbols) (s : Kmem) (r trapframe : Nat) (vmas : List Vma) : Prop where
  trampoline_leaf : s.leafPte r (TRAMPOLINE / PG_SIZE) = pa_to_pte k.user_vec ||| leafFlags (PTE_R ||| PTE_X)
  trapframe_leaf : s.leafPte r (TRAPFRAME / PG_SIZE) = pa_to_pte trapframe ||| leafFlags (PTE_R ||| PTE_W)
  covered : ∀ v < USER_VPNS, Has (s.leafPte r v) PTE_V →
    ∃ a ∈ vmas, a.Covers (v * PG_SIZE) ∧ Agrees a.perm (s.leafPte r v)
  areas : ∀ a ∈ vmas, a.Ok

section perms

variable {perm old x pa : Nat}

theorem perm_lt (hperm : perm &&& USER_PERMS = perm) : perm < 1024 := by
  rw [← hperm]
  exact Nat.lt_of_le_of_lt Nat.and_le_right (by decide)

theorem not_has_perm (hperm : perm &&& USER_PERMS = perm) {f : Nat} (hf : USER_PERMS &&& f = 0) : ¬ Has perm f := by
  unfold Has
  rw [← hperm, Nat.and_assoc, hf, Nat.and_zero]
  simp

theorem agrees_new (hpa : pa % PG_SIZE = 0) (hlt : pa < 2 ^ 56) (hperm : perm &&& USER_PERMS = perm) :
    Agrees perm (pa_to_pte pa ||| leafFlags perm) := by
  have hhas := fun {f : Nat} (hf : f < 1024) => has_leaf hpa hlt (perm_lt hperm) hf
  have hcow : ¬ Has perm PTE_COW := not_has_perm hperm (by decide)
  have hother : ∀ f ∈ [PTE_R, PTE_W, PTE_X, PTE_U, PTE_COW], ¬ (Has PTE_V f ∨ Has PTE_A f ∨ Has PTE_D f) := by decide
  have hiff : ∀ f ∈ [PTE_R, PTE_W, PTE_X, PTE_U, PTE_COW],
      (Has (pa_to_pte pa ||| leafFlags perm) f ↔ Has perm f) := by
    intro f hf
    have hlt : ∀ f ∈ [PTE_R, PTE_W, PTE_X, PTE_U, PTE_COW], f < 1024 := by decide
    rw [hhas (hlt f hf)]
    exact or_iff_left (hother f hf)
  refine ⟨?_, ?_, ?_, hiff _ (by simp), hiff _ (by simp), hiff _ (by simp), ?_, ?_⟩
  · exact (hhas (by decide)).mpr (.inr (by decide))
  · exact (hhas (by decide)).mpr (.inr (by decide))
  · exact (hhas (by decide)).mpr (.inr (by decide))
  · rw [hiff PTE_W (by simp), hiff PTE_COW (by simp)]
    exact (or_iff_left hcow).symm
  · rw [hiff PTE_COW (by simp)]
    exact fun hboth => hcow hboth.2

theorem not_cow_new (hpa : pa % PG_SIZE = 0) (hlt : pa < 2 ^ 56) (hperm : perm &&& USER_PERMS = perm) :
    ¬ Has (pa_to_pte pa ||| leafFlags perm) PTE_COW := by
  rw [has_leaf hpa hlt (perm_lt hperm) (by decide)]
  have hcow : ¬ Has perm PTE_COW := not_has_perm hperm (by decide)
  simp only [hcow, false_or]
  decide

theorem Agrees.upgraded (h : Agrees perm old) (hup : Upgraded old x) (hwrite : Has perm PTE_W) : Agrees perm x := by
  refine ⟨?_, ?_, ?_, ?_, ?_, ?_, iff_of_true hwrite (.inl hup.write), fun hboth => hup.not_cow hboth.2⟩
  · exact (hup.other 0 (by decide) (by decide)).mpr h.valid
  · exact (hup.other 6 (by decide) (by decide)).mpr h.accessed
  · exact (hup.other 7 (by decide) (by decide)).mpr h.dirty
  · exact (hup.other 1 (by decide) (by decide)).trans h.read
  · exact (hup.other 3 (by decide) (by decide)).trans h.exec
  · exact (hup.other 4 (by decide) (by decide)).trans h.user

/-- The leaf of a page once it is shared. -/
theorem Agrees.shared (h : Agrees perm old) (hW : Has old PTE_W) : Agrees perm (old.ldiff PTE_W ||| PTE_COW) := by
  have hother : ∀ i < 8, i ≠ 2 → (Has (old.ldiff PTE_W ||| PTE_COW) (1 <<< i) ↔ Has old (1 <<< i)) := by
    intro i hi hne
    have hcow : ∀ i < 8, ¬ Has PTE_COW (1 <<< i) := by decide
    rw [has_or, has_ldiff]
    simp only [hcow i hi, or_false, not_has_write i hi hne, not_false_eq_true, and_true]
  have hcow : Has (old.ldiff PTE_W ||| PTE_COW) PTE_COW := (has_or _ _ _).mpr (.inr (by decide))
  refine ⟨?_, ?_, ?_, ?_, ?_, ?_, iff_of_true (h.write.mpr (.inl hW)) (.inr hcow), ?_⟩
  · exact (hother 0 (by decide) (by decide)).mpr h.valid
  · exact (hother 6 (by decide) (by decide)).mpr h.accessed
  · exact (hother 7 (by decide) (by decide)).mpr h.dirty
  · exact (hother 1 (by decide) (by decide)).trans h.read
  · exact (hother 3 (by decide) (by decide)).trans h.exec
  · exact (hother 4 (by decide) (by decide)).trans h.user
  · rintro ⟨hw, -⟩
    rw [has_or, PTE_W, has_ldiff] at hw
    rcases hw with hw | hw
    · exact hw.2 (by decide)
    · exact absurd hw (by decide)

/-- `map_pages` sets no other flags on a leaf that already has them. -/
theorem Agrees.flags (h : Agrees perm x) (hy : ∀ i < 10, (Has pa (1 <<< i) ↔ Has x (1 <<< i))) : Agrees perm pa :=
  ⟨(hy 0 (by decide)).mpr h.valid, (hy 6 (by decide)).mpr h.accessed, (hy 7 (by decide)).mpr h.dirty,
    (hy 1 (by decide)).trans h.read, (hy 3 (by decide)).trans h.exec, (hy 4 (by decide)).trans h.user,
    h.write.trans (or_congr (hy 2 (by decide)) (hy 8 (by decide))).symm,
    fun hboth => h.not_both ⟨(hy 2 (by decide)).mp hboth.1, (hy 8 (by decide)).mp hboth.2⟩⟩

/-- The leaf that `map_pages` writes with the flags of another one. -/
theorem Agrees.copied (h : Agrees perm x) (hpa : pa % PG_SIZE = 0) (hlt : pa < 2 ^ 56) {i : Nat} (hi : i < 10) :
    Has (pa_to_pte pa ||| leafFlags (pte_flags x)) (1 <<< i) ↔ Has x (1 <<< i) := by
  have hflags : pte_flags x < 1024 := Nat.lt_of_le_of_lt Nat.and_le_right (by decide)
  have hbit : 1 <<< i < 1024 := by
    rw [Nat.one_shiftLeft]
    exact Nat.pow_lt_pow_right (by decide) hi
  have hidx : ∀ i < 10, (Has PTE_V (1 <<< i) → i = 0) ∧ (Has PTE_A (1 <<< i) → i = 6) ∧ (Has PTE_D (1 <<< i) → i = 7) := by
    decide
  rw [has_leaf hpa hlt hflags hbit, has_flags hbit]
  refine ⟨?_, .inl⟩
  rintro (hx | hv | ha | hd)
  · exact hx
  · rw [(hidx i hi).1 hv]
    exact h.valid
  · rw [(hidx i hi).2.1 ha]
    exact h.accessed
  · rw [(hidx i hi).2.2 hd]
    exact h.dirty

end perms

namespace AddrSpace

variable {k : Symbols} {s s' : Kmem} {r trapframe v : Nat} {vmas vmas' : List Vma}

theorem topUsed (h : AddrSpace k s r trapframe vmas) : TopUsed s r := by
  intro v hlo hhi
  have hor : v = TRAPFRAME / PG_SIZE ∨ v = TRAMPOLINE / PG_SIZE := by
    simp only [USER_VPNS, TRAPFRAME, TRAMPOLINE, MAX_VA, PG_SIZE] at *
    omega
  rcases hor with rfl | rfl
  · rw [h.trapframe_leaf]
    exact (has_or _ _ _).mpr (.inr (by decide))
  · rw [h.trampoline_leaf]
    exact (has_or _ _ _).mpr (.inr (by decide))

theorem congr (h : AddrSpace k s r trapframe vmas) (hleaf : ∀ v < 2 ^ 26, s'.leafPte r v = s.leafPte r v) :
    AddrSpace k s' r trapframe vmas := by
  refine ⟨?_, ?_, fun v hv hvalid => ?_, h.areas⟩
  · rw [hleaf _ (by decide), h.trampoline_leaf]
  · rw [hleaf _ (by decide), h.trapframe_leaf]
  · rw [hleaf v (USER_VPNS_lt hv)] at hvalid ⊢
    exact h.covered v hv hvalid

/-- One leaf of user memory changes: it is cleared, or agrees with an area. -/
theorem setLeaf {x : Nat} (h : AddrSpace k s r trapframe vmas) (hv : v < USER_VPNS)
    (hleaf : ∀ v' < 2 ^ 26, s'.leafPte r v' = if v' = v then x else s.leafPte r v')
    (hx : Has x PTE_V → ∃ a ∈ vmas, a.Covers (v * PG_SIZE) ∧ Agrees a.perm x) :
    AddrSpace k s' r trapframe vmas := by
  have hne : ∀ top, USER_VPNS ≤ top → top ≠ v := by omega
  refine ⟨?_, ?_, fun v' hv' hvalid => ?_, h.areas⟩
  · rw [hleaf _ (by decide), if_neg (hne _ (by decide)), h.trampoline_leaf]
  · rw [hleaf _ (by decide), if_neg (hne _ (by decide)), h.trapframe_leaf]
  · rw [hleaf v' (USER_VPNS_lt hv')] at hvalid ⊢
    by_cases hvv : v' = v
    · rw [if_pos hvv] at hvalid ⊢
      rw [hvv]
      exact hx hvalid
    · rw [if_neg hvv] at hvalid ⊢
      exact h.covered v' hv' hvalid

end AddrSpace

/-- An address in reach of `walk` that an area covers is below the trapframe. -/
theorem Vma.Ok.vpn_lt {a : Vma} (h : a.Ok) {x : Nat} (hcov : a.Covers x) (hx : x < MAX_VA) :
    x / PG_SIZE < USER_VPNS := by
  have hrange := h.range (Nat.lt_of_le_of_lt hcov.1 hcov.2)
  have hlo := hcov.1
  have hhi := hcov.2
  simp only [USER_VPNS, TRAPFRAME, TRAMPOLINE, MAX_VA, PG_SIZE] at *
  omega

/-- An area covers whole pages. -/
theorem Vma.Ok.covers_page {a : Vma} (h : a.Ok) {x : Nat} : a.Covers (x / PG_SIZE * PG_SIZE) ↔ a.Covers x := by
  have hstart := h.start_aligned
  have hend := h.end_aligned
  simp only [Vma.Covers, PG_SIZE] at *
  omega

/-- The pages that a loop from `start` to `end_` visits. -/
theorem mem_pages {start end_ : Nat} (hstart : start % PG_SIZE = 0) (hend : end_ % PG_SIZE = 0) (y : Nat) :
    start ≤ y ∧ y < end_ ↔ start / PG_SIZE ≤ y / PG_SIZE ∧ y / PG_SIZE < start / PG_SIZE + nrPages start end_ := by
  simp only [nrPages, PG_SIZE] at *
  omega

/-- The pages of an area. -/
theorem Vma.Ok.pages {a : Vma} (ha : a.Ok) (u : Nat) : a.Covers (u * PG_SIZE) ↔
    a.start / PG_SIZE ≤ u ∧ u < a.start / PG_SIZE + nrPages a.start a.end_ := by
  have hmem := mem_pages ha.start_aligned ha.end_aligned (u * PG_SIZE)
  rwa [Nat.mul_div_cancel _ (by decide)] at hmem

theorem Vma.Ok.start_eq {a : Vma} (ha : a.Ok) : a.start = a.start / PG_SIZE * PG_SIZE :=
  (Nat.div_mul_cancel (Nat.dvd_of_mod_eq_zero ha.start_aligned)).symm

theorem Vma.Ok.vpn_le {a : Vma} (ha : a.Ok) (hpos : a.start < a.end_) (hle : a.end_ ≤ TRAPFRAME) :
    a.start / PG_SIZE + nrPages a.start a.end_ ≤ USER_VPNS := by
  have hstart := ha.start_aligned
  have hend := ha.end_aligned
  simp only [nrPages, USER_VPNS, TRAPFRAME, TRAMPOLINE, MAX_VA, PG_SIZE] at *
  omega

theorem Vma.Ok.nrPages_pos {a : Vma} (ha : a.Ok) (hpos : a.start < a.end_) : ∃ n, nrPages a.start a.end_ = n + 1 := by
  have hstart := ha.start_aligned
  have hend := ha.end_aligned
  refine Nat.exists_eq_succ_of_ne_zero ?_
  simp only [nrPages, PG_SIZE] at *
  omega

theorem vma_find_some {vmas : List Vma} {x : Nat} {a : Vma} (h : vma_find vmas x = some a) :
    a ∈ vmas ∧ a.Covers x := by
  refine ⟨List.mem_of_find?_eq_some h, ?_⟩
  have hcond := List.find?_some h
  simpa [Vma.Covers] using hcond

theorem vma_find_none {vmas : List Vma} {x : Nat} (h : vma_find vmas x = none) : ∀ a ∈ vmas, ¬ a.Covers x := by
  intro a ha hcov
  have hcond := List.find?_eq_none.mp h a ha
  simp [Vma.Covers] at hcond hcov
  omega

end bobchouos
