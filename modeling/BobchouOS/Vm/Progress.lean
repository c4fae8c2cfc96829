import BobchouOS.Vm.System

open lib

namespace bobchouos

namespace Vm

namespace Machine

variable {E : Halt → Prop} {k : Symbols} {binaries : List Binary} {m : Machine} {own own' : Nat → Option Owner} {s s' : Kmem}
  {p q : Proc} {rest : List Proc} {i va : Nat} {acc : Access}

theorem rest_views (h : World k s own (p :: rest)) (heff : Effect (Owner.InSpace p.pagetable) (rootsOf (p :: rest)) s s' own own')
    (hq : q ∈ rest) (hne : q.pagetable ≠ 0) : s'.view q.pagetable = s.view q.pagetable := by
  refine heff.views _ (root_mem (List.mem_cons_of_mem _ hq) hne) ?_
  rintro path (⟨path', heq⟩ | ⟨v, heq⟩)
  · exact (h.head_ne hq).2 hne (Owner.table.inj heq).1
  · cases heq

/-- A store to a copy-on-write page is resolved as long as a page is free or nobody
shares it. -/
theorem cow_upgrade_spec (h : World k s own (p :: rest)) (hp : p.pagetable ≠ 0) (hva : va < MAX_VA)
    (hfind : (vma_find p.vma_list va).isSome) (hvalid : Has (s.leafPte p.pagetable (va / PG_SIZE)) PTE_V)
    (hcow : Has (s.leafPte p.pagetable (va / PG_SIZE)) PTE_COW)
    (hfree : Exhausted s → (s.pa_to_page (pte_to_pa (s.leafPte p.pagetable (va / PG_SIZE)))).refcount = 1) :
    wp (handle_page_fault p Access.store.cause va) (fun r s' => r = 0 ∧ s'.view p.pagetable = s.view p.pagetable ∧
      ∃ own', Spaces s' own' (rootsOf (p :: rest)) ∧
        Upgraded (s.leafPte p.pagetable (va / PG_SIZE)) (s'.leafPte p.pagetable (va / PG_SIZE))) s := by
  have hr : p.pagetable ∈ rootsOf (p :: rest) := root_mem (by simp) hp
  have hsp := ((h.proc p (by simp)).user hp).2
  have hv : va / PG_SIZE < USER_VPNS :=
    vpn_lt_of_has hsp (by simp only [MAX_VA, PG_SIZE] at *; omega) (h.trapframe_range hp) (.inr rfl) hcow
  obtain ⟨a, hfind⟩ := Option.isSome_iff_exists.mp hfind
  unfold handle_page_fault
  simp only [hfind, wp_bind]
  refine wp_mono (walk_read h.memory.spaces.toPageTables hr hva) ?_
  rintro pte s1 ⟨rfl, hslot, hempty⟩
  have hpte : pte ≠ 0 := fun hzero => hempty.mp (.inl hzero) hvalid
  have hslot := hslot hpte
  have hleaf := leafPte_of_slot hslot
  simp only [wp_get, if_neg (mt hempty.mp (not_not.mpr hvalid))]
  rw [if_pos ⟨rfl, hleaf ▸ hcow⟩]
  refine wp_mono (cow_copy_spec h.memory.spaces hr (entry_eq hv hvalid) hslot) ?_
  rintro r s2 (⟨-, -, hex, hshared⟩ | ⟨rfl, own', x, howned, hup, -⟩)
  · exact absurd (hfree hex) hshared
  · refine ⟨rfl, howned.view, own', howned.spaces, ?_⟩
    rw [howned.leaf _ (USER_VPNS_lt hv), if_pos rfl]
    exact hup

end Machine

end Vm

end bobchouos
