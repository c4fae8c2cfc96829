import BobchouOS.Vm.Fault

open lib

namespace bobchouos

namespace Vm

variable {E : Halt → Prop} {k : Symbols} {s s' : Kmem} {own own' : Nat → Option Owner} {roots : List Nat}
  {r trapframe va v : Nat} {vmas : List Vma} {a : Vma} {acc : Access} {p : Proc}

/-- The hardware and `walk` agree on which entries of directories point to tables. -/
theorem nextTable_eq {path : List Nat} {t i : Nat} (h : PageTable s own r) (hpath : IsPath (path ++ [i]))
    (ht : s.tableAt r path = some t) : nextTable s t i = s.child t i := by
  unfold nextTable Kmem.child
  by_cases hv : Has (s.pte (pteAddr t i)) PTE_V
  · have hflags := h.dirs path t i hpath ht hv
    have hnone : ∀ f ∈ [PTE_R, PTE_W, PTE_X], ¬ Has (s.pte (pteAddr t i)) f := by
      intro f hf
      have hlt : ∀ f ∈ [PTE_R, PTE_W, PTE_X], f < 1024 ∧ ¬ Has PTE_V f := by decide
      rw [← has_flags (hlt f hf).1, hflags]
      exact (hlt f hf).2
    rw [if_pos ⟨hv, hnone _ (by simp), hnone _ (by simp), hnone _ (by simp)⟩, if_pos hv]
  · rw [if_neg fun hall => hv hall.1, if_neg hv]

theorem translate_eq (h : PageTable s own r) :
    translate s r va acc = if va < MAX_VA ∧ acc.Usable (s.leafPte r (va / PG_SIZE)) then
      some (pte_to_pa (s.leafPte r (va / PG_SIZE)) + va % PG_SIZE) else none := by
  unfold translate
  by_cases hva : va < MAX_VA
  · have hpath : vpnPath (va / PG_SIZE) = [PX 2 va, PX 1 va] := by rw [vpnPath, ← PX_one, ← PX_two]
    have htwo := isPath_vpnPath (va / PG_SIZE)
    rw [hpath] at htwo
    have hone : IsPath ([] ++ [PX 2 va]) := ⟨by simp, by simpa using PX_lt 2 va⟩
    have hleaf : s.leafPte r (va / PG_SIZE) = (((s.child r (PX 2 va)).bind fun t => s.child t (PX 1 va)).map
        fun t => s.pte (pteAddr t (PX 0 va))).getD 0 := by
      rw [Kmem.leafPte, Kmem.leafSlot, hpath, PX_zero, Option.map_map]
      simp [Kmem.tableAt, Function.comp_def]
    have hzero : ¬ acc.Usable 0 := fun husable => husable.1 (by decide)
    rw [hleaf, nextTable_eq h hone rfl]
    simp only [hva, guard, if_true, true_and]
    cases h1 : s.child r (PX 2 va) with
    | none => simp [hzero]
    | some t =>
      have ht : s.tableAt r [PX 2 va] = some t := by
        simpa [Kmem.tableAt] using h1
      have hnext := nextTable_eq h htwo ht
      simp only [Option.bind_some, hnext, pure_bind, Option.bind_eq_bind]
      cases h0 : s.child t (PX 1 va) with
      | none => simp [hzero]
      | some t' =>
        simp only [Option.bind_some, Option.map_some, Option.getD_some]
        by_cases hus : acc.Usable (s.pte (pteAddr t' (PX 0 va)))
        · rw [if_pos hus, if_pos hus]
          rfl
        · rw [if_neg hus, if_neg hus]
          rfl
  · simp [hva, guard]

/-- The access of a process: the page it ends at, or the reason why it is killed. -/
structure Accessed (k : Symbols) (s s' : Kmem) (own own' : Nat → Option Owner) (roots : List Nat) (p : Proc)
    (va : Nat) (acc : Access) (pa : Nat) : Prop
    extends Faulted k s s' own own' roots p.pagetable p.trapframe p.vma_list (va / PG_SIZE) where
  entry : ∃ q w, s'.entry p.pagetable (va / PG_SIZE) = some (q, w) ∧ pa = q + va % PG_SIZE ∧ (acc = .store → w = true)
  allowed : ∃ a ∈ p.vma_list, a.Covers va ∧ acc.Allowed a.perm

theorem allowed_of_agrees {perm x : Nat} (h : Agrees perm x) (hacc : acc.Allowed x) : acc.Allowed perm := by
  cases acc with
  | load => exact ⟨h.user.mp hacc.1, h.read.mp hacc.2⟩
  | store => exact ⟨h.user.mp hacc.1, h.read.mp hacc.2.1, h.write.mpr (.inl hacc.2.2)⟩

/-- An area that permits an access has a leaf that does, unless it is shared. -/
theorem usable_of_agrees {perm x : Nat} (h : Agrees perm x) (hacc : acc.Allowed perm)
    (hcow : ¬ (acc = .store ∧ Has x PTE_COW)) : acc.Usable x := by
  refine ⟨h.valid, h.accessed, h.dirty, ?_⟩
  cases acc with
  | load => exact ⟨h.user.mpr hacc.1, h.read.mpr hacc.2⟩
  | store =>
    refine ⟨h.user.mpr hacc.1, h.read.mpr hacc.2.1, (h.write.mp hacc.2.2).resolve_right fun hx => hcow ⟨rfl, hx⟩⟩

/-- The leaves above user memory are not open to the process and not shared. -/
theorem vpn_lt_of_has {f : Nat} (hsp : AddrSpace k s r trapframe vmas) (hv : v < 2 ^ 26)
    (htf : trapframe % PG_SIZE = 0 ∧ trapframe < 2 ^ 56) (hf : f = PTE_U ∨ f = PTE_COW) (hleaf : Has (s.leafPte r v) f) :
    v < USER_VPNS := by
  by_contra hge
  have hflag : f < 1024 := by rcases hf with rfl | rfl <;> decide
  have hor : v = TRAPFRAME / PG_SIZE ∨ v = TRAMPOLINE / PG_SIZE := by
    simp only [USER_VPNS, TRAPFRAME, TRAMPOLINE, MAX_VA, PG_SIZE] at *
    omega
  rcases hor with rfl | rfl
  · rw [hsp.trapframe_leaf, has_leaf htf.1 htf.2 (by decide) hflag] at hleaf
    rcases hf with rfl | rfl <;> exact absurd hleaf (by decide)
  · have hvec := k.user_vec_lt
    have hend := k.kernel_end_le
    rw [hsp.trampoline_leaf, has_leaf k.user_vec_aligned (by simp only [PHYS_STOP] at hend; omega) (by decide) hflag]
      at hleaf
    rcases hf with rfl | rfl <;> exact absurd hleaf (by decide)

/-- No leaf above user memory can be used. -/
theorem vpn_lt_of_usable (hsp : AddrSpace k s r trapframe vmas) (hv : v < 2 ^ 26)
    (htf : trapframe % PG_SIZE = 0 ∧ trapframe < 2 ^ 56) (husable : acc.Usable (s.leafPte r v)) : v < USER_VPNS := by
  refine vpn_lt_of_has hsp hv htf (.inl rfl) ?_
  cases acc with
  | load => exact husable.2.2.2.1
  | store => exact husable.2.2.2.1

theorem access_of_translate {pa : Nat} (h : Spaces s own roots) (hr : p.pagetable ∈ roots)
    (hsp : AddrSpace k s p.pagetable p.trapframe p.vma_list)
    (htf : p.trapframe % PG_SIZE = 0 ∧ p.trapframe < 2 ^ 56) (htr : translate s p.pagetable va acc = some pa) :
    Accessed k s s own own roots p va acc pa := by
  rw [translate_eq (h.tables _ hr)] at htr
  split at htr
  · rename_i hcond
    cases htr
    have hv : va / PG_SIZE < 2 ^ 26 := by
      have hva := hcond.1
      simp only [MAX_VA, PG_SIZE] at hva ⊢
      omega
    have hlt := vpn_lt_of_usable hsp hv htf hcond.2
    obtain ⟨a, ha, hcov, hagrees⟩ := hsp.covered _ hlt hcond.2.1
    refine ⟨.refl h hsp _, ⟨_, _, entry_eq hlt hcond.2.1, rfl, ?_⟩, a, ha, (hsp.areas a ha).covers_page.mp hcov, ?_⟩
    · rintro rfl
      simpa using hcond.2.2.2.2.2.2
    · exact allowed_of_agrees hagrees hcond.2.2.2.2
  · cases htr

/-- An access that the hardware refuses although a leaf is there and cannot be
upgraded is not permitted. -/
theorem not_permits_of_stuck (h : PageTable s own r) (hsp : AddrSpace k s r trapframe vmas) (hva : va < MAX_VA)
    (hvalid : Has (s.leafPte r (va / PG_SIZE)) PTE_V) (hcow : ¬ (acc = .store ∧ Has (s.leafPte r (va / PG_SIZE)) PTE_COW))
    (hnone : translate s r va acc = none) : ¬ Permits vmas va acc := by
  rintro ⟨⟨b, hb, hbcov⟩, hall⟩
  have hv := (hsp.areas b hb).vpn_lt hbcov hva
  obtain ⟨a, ha, hcov, hagrees⟩ := hsp.covered _ hv hvalid
  have husable := usable_of_agrees hagrees (hall a ha ((hsp.areas a ha).covers_page.mp hcov)) hcow
  rw [translate_eq h, if_pos ⟨hva, husable⟩] at hnone
  cases hnone

/-- A fault on a leaf that is there and cannot be upgraded is not resolved. -/
theorem handle_page_fault_stuck (h : Spaces s own roots) (hr : p.pagetable ∈ roots) (hva : va < MAX_VA)
    (hvalid : Has (s.leafPte p.pagetable (va / PG_SIZE)) PTE_V)
    (hcow : ¬ (acc = .store ∧ Has (s.leafPte p.pagetable (va / PG_SIZE)) PTE_COW)) :
    wp (handle_page_fault p acc.cause va) (fun ret s' => ret = -1 ∧ s' = s) s := by
  have hstore : acc.cause = EXC_STORE_PAGE ↔ acc = .store := by cases acc <;> decide
  unfold handle_page_fault
  cases hfind : vma_find p.vma_list va with
  | none => exact wp_pure.mpr ⟨rfl, rfl⟩
  | some a =>
    simp only [wp_bind]
    refine wp_mono (walk_read h.toPageTables hr hva) ?_
    rintro pte s1 ⟨rfl, hslot, hiff⟩
    have hpte : pte ≠ 0 := fun hzero => hiff.mp (.inl hzero) hvalid
    rw [leafPte_of_slot (hslot hpte)] at hcow
    simp only [wp_get, wp_ite, wp_pure, hiff, hstore]
    exact ⟨fun hno => absurd hvalid hno, fun _ => ⟨fun hyes => absurd hyes hcow, fun _ => ⟨trivial, trivial⟩⟩⟩

/-- Two faults are enough for every access: after the first one that is resolved,
the access succeeds or is not permitted. -/
theorem access_spec {fuel : Nat} (h : Spaces s own roots) (hr : p.pagetable ∈ roots)
    (hsp : AddrSpace k s p.pagetable p.trapframe p.vma_list)
    (htf : p.trapframe % PG_SIZE = 0 ∧ p.trapframe < 2 ^ 56)
    (hhigh : MAX_VA ≤ va → E (.panic "walk: va >= MAX_VA")) :
    wpe E (access p va acc (fuel + 2)) (fun res s' => ∃ own', match res with
      | some pa => Accessed k s s' own own' roots p va acc pa
      | none => Faulted k s s' own own' roots p.pagetable p.trapframe p.vma_list (va / PG_SIZE) ∧
          (¬ Permits p.vma_list va acc ∨ Low s')) s := by
  rw [access]
  simp only [wpe_bind, wpe_get]
  cases htr : translate s p.pagetable va acc with
  | some pa => exact ⟨own, access_of_translate h hr hsp htf htr⟩
  | none =>
    simp only [wpe_bind]
    refine wpe_mono (handle_page_fault_spec h hr hsp hhigh) ?_
    rintro ret s1 ⟨own1, hfault, ⟨rfl, -, hreason⟩ | ⟨rfl, hva, -, -, a, ha, hcov, hagrees, hW⟩⟩
    · rw [if_pos (by decide), wpe_pure]
      refine ⟨own1, hfault, ?_⟩
      rcases hreason with ⟨hno, -⟩ | hlow | ⟨-, hva, hvalid, hcow⟩
      · exact .inl hno.not_permits
      · exact .inr hlow
      · exact .inl (not_permits_of_stuck (h.tables _ hr) hsp hva hvalid hcow htr)
    · rw [if_neg (by decide), access]
      simp only [wpe_bind, wpe_get]
      cases htr1 : translate s1 p.pagetable va acc with
      | some pa =>
        have hdone := access_of_translate hfault.spaces hr hfault.space htf htr1
        exact ⟨own1, ⟨hfault.trans hdone.toFaulted, hdone.entry, hdone.allowed⟩⟩
      | none =>
        have hcow : ¬ (acc = .store ∧ Has (s1.leafPte p.pagetable (va / PG_SIZE)) PTE_COW) := fun hboth =>
          hagrees.not_both ⟨hW hboth.1, hboth.2⟩
        simp only [wpe_bind]
        refine wpe_mono (handle_page_fault_stuck hfault.spaces hr hva hagrees.valid hcow).wpe ?_
        rintro ret s2 ⟨rfl, rfl⟩
        rw [if_pos (by decide), wpe_pure]
        exact ⟨own1, hfault, .inl (not_permits_of_stuck (hfault.spaces.tables _ hr) hfault.space hva hagrees.valid
          hcow htr1)⟩

end Vm

end bobchouos
