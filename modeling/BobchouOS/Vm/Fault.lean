import BobchouOS.Vm.Areas

open lib

namespace bobchouos

namespace Vm

variable {E : Halt → Prop} {k : Symbols} {s s' : Kmem} {own own' : Nat → Option Owner} {roots : List Nat}
  {r trapframe va v : Nat} {vmas : List Vma} {a : Vma} {acc : Access} {p : Proc}

/-- Every area at an address permits the access, and there is one. -/
def Permits (vmas : List Vma) (x : Nat) (acc : Access) : Prop :=
  (∃ a ∈ vmas, a.Covers x) ∧ ∀ a ∈ vmas, a.Covers x → acc.Allowed a.perm

/-- The area that `handle_page_fault` finds, if any, is not for the access. -/
def Denied (vmas : List Vma) (x : Nat) (acc : Access) : Prop :=
  ∀ a, vma_find vmas x = some a → acc = .store ∧ ¬ Has a.perm PTE_W

theorem Denied.not_permits {x : Nat} (h : Denied vmas x acc) : ¬ Permits vmas x acc := by
  rintro ⟨⟨a, ha, hcov⟩, hall⟩
  cases hfind : vma_find vmas x with
  | none => exact vma_find_none hfind a ha hcov
  | some b =>
    obtain ⟨hb, hbcov⟩ := vma_find_some hfind
    obtain ⟨rfl, hno⟩ := h b hfind
    exact hno (hall b hb hbcov).2.2

/-- What a page fault at virtual page `v` leaves behind: the process sees the same
bytes, no other page of it changed, and what was mapped is mapped. -/
structure Faulted (k : Symbols) (s s' : Kmem) (own own' : Nat → Option Owner) (roots : List Nat) (r trapframe : Nat)
    (vmas : List Vma) (v : Nat) : Prop where
  spaces : Spaces s' own' roots
  effect : Effect (Owner.InSpace r) roots s s' own own'
  view : s'.view r = s.view r
  space : AddrSpace k s' r trapframe vmas
  other : ∀ v' < 2 ^ 26, v' ≠ v → s'.leafPte r v' = s.leafPte r v'
  kept : Has (s.leafPte r v) PTE_V → Has (s'.leafPte r v) PTE_V

theorem Faulted.refl (h : Spaces s own roots) (hsp : AddrSpace k s r trapframe vmas) (v : Nat) :
    Faulted k s s own own roots r trapframe vmas v := ⟨h, .refl _ roots s own, rfl, hsp, fun _ _ _ => rfl, id⟩

theorem Faulted.trans {s'' : Kmem} {own'' : Nat → Option Owner} (h : Faulted k s s' own own' roots r trapframe vmas v)
    (h' : Faulted k s' s'' own' own'' roots r trapframe vmas v) :
    Faulted k s s'' own own'' roots r trapframe vmas v :=
  ⟨h'.spaces, h.effect.trans h'.effect, h'.view.trans h.view, h'.space,
    fun v' hv hne => (h'.other v' hv hne).trans (h.other v' hv hne), fun hvalid => h'.kept (h.kept hvalid)⟩

theorem Faulted.of_grown (h : Spaces s own roots) (hr : r ∈ roots)
    (hsp : AddrSpace k s r trapframe vmas) (hg : Grown s s' own own' r) (v : Nat) :
    Faulted k s s' own own' roots r trapframe vmas v := by
  obtain ⟨hsp', heff⟩ := h.grown hr hg
  refine ⟨hsp', heff.mono fun _ => .inl, ?_, hsp.congr fun v _ => by rw [hg.leaf], fun v' _ _ => by rw [hg.leaf],
    fun hvalid => by rwa [hg.leaf]⟩
  exact h.view_of_leafPte hr hg.touches (user_not_table r) hg.leaf

/-- `walk` without `alloc` in an address space. -/
theorem walk_read (h : PageTables s own roots) (hr : r ∈ roots) (hva : va < MAX_VA) :
    wp (walk r va false) (fun pte s' => s' = s ∧ (pte ≠ 0 → s.leafSlot r (va / PG_SIZE) = some pte) ∧
      (pte = 0 ∨ ¬ Has (s.pte pte) PTE_V ↔ ¬ Has (s.leafPte r (va / PG_SIZE)) PTE_V)) s := by
  refine wp_of_ok (walk_false s r hva) ?_
  cases hslot : s.leafSlot r (va / PG_SIZE) with
  | none =>
    refine ⟨rfl, by simp, ?_⟩
    rw [Kmem.leafPte, hslot]
    simp [Has]
  | some slot =>
    have hne := (h.tables r hr).slot_ne_zero h.pages hslot
    refine ⟨rfl, fun _ => rfl, ?_⟩
    rw [leafPte_of_slot hslot]
    simp [hne]

theorem lazy_alloc_spec (h : Spaces s own roots) (hr : r ∈ roots) (hsp : AddrSpace k s r trapframe vmas)
    (ha : a ∈ vmas) (hcov : a.Covers va) (hva : va < MAX_VA) (hempty : ¬ Has (s.leafPte r (va / PG_SIZE)) PTE_V) :
    wp (lazy_alloc r va a) (fun ret s' => ∃ own', Faulted k s s' own own' roots r trapframe vmas (va / PG_SIZE) ∧
      ((ret = -1 ∧ Low s' ∧ Grown s s' own own' r) ∨ ret = 0 ∧ Agrees a.perm (s'.leafPte r (va / PG_SIZE)) ∧
        ¬ Has (s'.leafPte r (va / PG_SIZE)) PTE_COW ∧ own (pte_to_pa (s'.leafPte r (va / PG_SIZE))) = none)) s := by
  have hdown := PG_ROUND_DOWN_eq va
  have hpage : PG_ROUND_DOWN va / PG_SIZE = va / PG_SIZE := by
    rw [hdown, Nat.mul_div_cancel _ (by decide)]
  have hperm := (hsp.areas a ha).perm
  simp only [lazy_alloc, wp_bind, wp_ite, wp_pure]
  refine wp_mono h.pages.kalloc_spec ?_
  rintro pg s1 (⟨rfl, rfl, hex⟩ | hf)
  · exact ⟨fun _ => ⟨own, .refl h hsp _, .inl ⟨trivial, hex.low h.pages h.small, .refl h.pages (h.tables r hr)⟩⟩,
      fun hne => absurd rfl hne⟩
  refine ⟨fun hz => absurd hz hf.ne_zero, fun _ => ?_⟩
  refine wp_mono (wp_of_wpe (h.map_new_spec hr hsp.topUsed hf.toHeld (perm_lt hperm) ?_ ?_ ?_)) ?_
  · rw [hdown]
    exact Nat.mul_mod_left _ _
  · intro hge
    have hle : PG_ROUND_DOWN va ≤ va := by
      rw [hdown]
      exact Nat.div_mul_le_self _ _
    omega
  · rw [hpage]
    exact hempty
  rw [hpage]
  rintro ret s2 (⟨rfl, hfree⟩ | ⟨rfl, own', hent⟩)
  · refine ⟨fun _ => ?_, fun hge => absurd (by decide) hge⟩
    refine wp_mono hfree ?_
    rintro _ s3 ⟨hlow, own', hg⟩
    exact ⟨own', Faulted.of_grown h hr hsp hg _, .inl ⟨trivial, hlow, hg⟩⟩
  · refine ⟨fun hlt => absurd hlt (by decide), fun _ => ?_⟩
    have hrange := hent.spaces.pages.range_of hent.owner
    have hlt : pg < 2 ^ 56 := by
      simp only [PHYS_STOP] at hrange
      omega
    have hagrees : Agrees a.perm (pa_to_pte pg ||| leafFlags a.perm) := agrees_new hrange.1 hlt hperm
    refine ⟨own', ⟨hent.spaces, hent.effect, ?_, ?_, fun v' hv' hne => ?_, fun hvalid => absurd hvalid hempty⟩,
      .inr ⟨trivial, ?_⟩⟩
    · funext y
      rw [hent.view]
      split
      · rename_i hy
        rw [hf.zero _ (Nat.le_add_right _ _) (Nat.add_lt_add_left (Nat.mod_lt _ (by decide)) _), Kmem.view, hy,
          entry_none hempty]
      · rfl
    · refine hsp.setLeaf hent.vpn_lt hent.leaf fun _ => ⟨a, ha, ?_, hagrees⟩
      exact (hsp.areas a ha).covers_page.mpr hcov
    · rw [hent.leaf v' hv', if_neg hne]
    · rw [hent.leaf _ (USER_VPNS_lt hent.vpn_lt), if_pos rfl]
      refine ⟨hagrees, not_cow_new hrange.1 hlt hperm, ?_⟩
      rw [(pte_of_parts hrange.1 hlt (leafFlags_lt (perm_lt hperm))).1]
      exact hf.was_free

theorem cow_copy_spec {pa slot : Nat} {w : Bool} (h : Spaces s own roots) (hr : r ∈ roots)
    (he : s.entry r v = some (pa, w)) (hslot : s.leafSlot r v = some slot) :
    wp (cow_copy slot) (fun ret s' => (ret = -1 ∧ s' = s ∧ Exhausted s ∧ (s.pa_to_page pa).refcount ≠ 1) ∨
      ret = 0 ∧ ∃ own' x, Owned s s' own own' roots r v x ∧ Upgraded (s.leafPte r v) x ∧
        (pte_to_pa x = pa ∨ own (pte_to_pa x) = none)) s := by
  obtain ⟨hv, hvalid, hpa, -⟩ := entry_some he
  have hleaf := leafPte_of_slot hslot
  rw [hleaf] at hvalid hpa ⊢
  have hown := h.entry_owned hr he
  have hlt := pte_lt s slot
  simp only [cow_copy, wp_bind, wp_get, wp_ite, wp_pure, wp_modify, hpa]
  refine ⟨fun hone => .inr ⟨trivial, ?_⟩, fun hne => ?_⟩
  · obtain ⟨hup, hsame⟩ := upgrade_in_place (s.pte slot)
    have hx : (s.pte slot).ldiff PTE_COW ||| PTE_W < 2 ^ 64 := by
      apply Nat.or_lt_two_pow _ (by decide)
      refine Nat.lt_of_le_of_lt (Nat.le_of_testBit fun i hi => ?_) hlt
      rw [Nat.testBit_ldiff, Bool.and_eq_true] at hi
      exact hi.1
    obtain ⟨hsp, ht, hview, -, hleafs⟩ :=
      h.setFlags hr he hslot hx (hsame.trans hpa) (hup.valid hvalid) fun _ => hone
    refine ⟨own, _, ⟨hsp, ⟨ht.mono fun _ => .inl, fun r' hr' _ => hview r' hr'⟩, fun v' hv' => ?_, hview r hr⟩, hup,
      .inl (hsame.trans hpa)⟩
    rw [hleafs r hr v' hv']
    simp [setAt]
  · refine wp_mono h.pages.kalloc_spec ?_
    rintro pg s1 (⟨rfl, rfl, hex⟩ | hf)
    · exact ⟨fun _ => .inl ⟨trivial, rfl, hex, hne⟩, fun hz => absurd rfl hz⟩
    refine ⟨fun hz => absurd hz hf.ne_zero, fun _ => ?_⟩
    have hrange := (hf.pages .loose rfl).range_of (Function.update_self ..)
    have hparange := h.pages.range_of hown
    have hpane : pa ≠ pg := by
      rintro rfl
      rw [hf.was_free] at hown
      cases hown
    have hapart := (hf.pages .loose rfl).apart_of (by rw [Function.update_of_ne hpane, hown]) (Function.update_self ..) hpane
    have hheld : Held 0 s { s1 with mem := s1.mem.memcpy pg pa PG_SIZE } own pg :=
      hf.toHeld.write fun x hx => Mem.memcpy_of_outside _ _ _ (by omega)
    have hcopy : ∀ i < PG_SIZE, s1.mem.memcpy pg pa PG_SIZE (pg + i) = s.mem (pa + i) := by
      intro i hi
      rw [Mem.memcpy_of_inside _ _ _ (by omega) (by omega), Nat.add_sub_cancel_left]
      exact (hf.same pa (by rw [hown]; simp)).mem _ (by omega) (by omega)
    -- the tables are not in the new page, so the copy reads the entry as it was
    have hpte : Kmem.pte { s1 with mem := s1.mem.memcpy pg pa PG_SIZE } slot = s.pte slot := by
      obtain ⟨t, htown, -, rfl⟩ := (h.tables r hr).leafSlot_some hslot
      exact (hheld.same t (by rw [htown]; simp)).pte (Nat.mod_lt _ (by decide))
    rw [hpte]
    obtain ⟨hup, hxpa, hx⟩ := upgrade_copy hrange.1 (by simp only [PHYS_STOP] at hrange; omega) (s.pte slot)
    refine wp_mono (h.copy hr he hslot hne hheld hcopy hx hxpa (hup.valid hvalid)) ?_
    rintro _ s2 ⟨own', howned⟩
    exact .inr ⟨trivial, own', _, howned, hup, .inr (by rw [hxpa, hf.was_free])⟩

/-- A page fault is resolved, or there is a reason in the areas of the process, in
its leaf or in the state of memory. -/
theorem handle_page_fault_spec (h : Spaces s own roots) (hr : p.pagetable ∈ roots)
    (hsp : AddrSpace k s p.pagetable p.trapframe p.vma_list)
    (hhigh : MAX_VA ≤ va → E (.panic "walk: va >= MAX_VA")) :
    wpe E (handle_page_fault p acc.cause va) (fun ret s' =>
      ∃ own', Faulted k s s' own own' roots p.pagetable p.trapframe p.vma_list (va / PG_SIZE) ∧
        ((ret = -1 ∧ Grown s s' own own' p.pagetable ∧ (Denied p.vma_list va acc ∧
              (Has (s.leafPte p.pagetable (va / PG_SIZE)) PTE_V → vma_find p.vma_list va = none) ∨ Low s' ∨
            s' = s ∧ va < MAX_VA ∧ Has (s.leafPte p.pagetable (va / PG_SIZE)) PTE_V ∧
              ¬ (acc = .store ∧ Has (s.leafPte p.pagetable (va / PG_SIZE)) PTE_COW))) ∨
          ret = 0 ∧ va < MAX_VA ∧
            (¬ Has (s.leafPte p.pagetable (va / PG_SIZE)) PTE_V → ¬ Denied p.vma_list va acc) ∧
            (∀ pa w, s'.entry p.pagetable (va / PG_SIZE) = some (pa, w) →
              (s.entry p.pagetable (va / PG_SIZE)).map Prod.fst = some pa ∨ own pa = none) ∧
            ∃ a ∈ p.vma_list, a.Covers va ∧ Agrees a.perm (s'.leafPte p.pagetable (va / PG_SIZE)) ∧
            (acc = .store → Has (s'.leafPte p.pagetable (va / PG_SIZE)) PTE_W))) s := by
  have hrefl := Faulted.refl h hsp (va / PG_SIZE)
  have hgrown := Grown.refl h.pages (h.tables _ hr)
  have hstore : acc.cause = EXC_STORE_PAGE ↔ acc = .store := by cases acc <;> decide
  unfold handle_page_fault
  cases hfind : vma_find p.vma_list va with
  | none =>
    rw [wpe_pure]
    refine ⟨own, hrefl, .inl ⟨rfl, hgrown, .inl ⟨fun a ha => ?_, fun _ => rfl⟩⟩⟩
    rw [hfind] at ha
    cases ha
  | some a =>
    obtain ⟨ha, hcov⟩ := vma_find_some hfind
    simp only [wpe_bind]
    by_cases hmax : MAX_VA ≤ va
    · unfold walk
      rw [if_pos hmax, wpe_panic]
      exact hhigh hmax
    replace hmax : va < MAX_VA := by omega
    refine wpe_mono (walk_read h.toPageTables hr hmax).wpe ?_
    rintro pte s1 ⟨rfl, hslot, hvalid⟩
    simp only [wpe_get, wpe_ite, wpe_pure, hvalid, not_not, hstore]
    refine ⟨fun hempty => ⟨fun hno => ⟨own, hrefl, .inl ⟨trivial, hgrown, .inl ⟨fun b hb => ?_, fun hvalid => absurd hvalid hempty⟩⟩⟩, fun hyes => ?_⟩,
      fun hleaf => ⟨fun hcow => ?_, fun hno => ?_⟩⟩
    · rw [hfind] at hb
      cases hb
      exact hno
    · refine wpe_mono (lazy_alloc_spec h hr hsp ha hcov hmax hempty).wpe ?_
      rintro ret s2 ⟨own', hfault, ⟨rfl, hlow, hg⟩ | ⟨rfl, hagrees, hnocow, hfresh⟩⟩
      · exact ⟨own', hfault, .inl ⟨rfl, hg, .inr (.inl hlow)⟩⟩
      · refine ⟨own', hfault, .inr ⟨rfl, hmax, fun _ hdenied => hyes (hdenied a hfind), fun pa w he => .inr ?_, a, ha, hcov,
          hagrees, fun hacc => ?_⟩⟩
        · rw [← (entry_some he).2.2.1, hfresh]
        have hperm : Has a.perm PTE_W := by
          by_contra hno
          exact hyes ⟨hacc, hno⟩
        exact (hagrees.write.mp hperm).resolve_right hnocow
    · have hpte : pte ≠ 0 := fun hzero => hvalid.mp (.inl hzero) hleaf
      have hslot := hslot hpte
      have hv := (hsp.areas a ha).vpn_lt hcov hmax
      rw [← leafPte_of_slot hslot] at hcow
      refine wpe_mono (cow_copy_spec h hr (entry_eq hv hleaf) hslot).wpe ?_
      rintro ret s2 (⟨rfl, rfl, hex, -⟩ | ⟨rfl, own', x, howned, hup, hpage⟩)
      · exact ⟨own, hrefl, .inl ⟨rfl, hgrown, .inr (.inl (hex.low h.pages h.small))⟩⟩
      · obtain ⟨b, hb, hbcov, hagrees⟩ := hsp.covered _ hv hleaf
        have hagrees' := hagrees.upgraded hup (hagrees.write.mpr (.inr hcow.2))
        have hnew := howned.leaf _ (USER_VPNS_lt hv)
        rw [if_pos rfl] at hnew
        refine ⟨own', ⟨howned.spaces, howned.effect, howned.view, ?_, fun v' hv' hne => ?_, fun _ => hnew ▸ hagrees'.valid⟩,
          .inr ⟨rfl, hmax, fun hempty => absurd hleaf hempty, fun pa w he => ?_, b, hb, ?_, ?_, ?_⟩⟩
        · exact hsp.setLeaf hv howned.leaf fun _ => ⟨b, hb, hbcov, hagrees'⟩
        · rw [howned.leaf v' hv', if_neg hne]
        · rw [← (entry_some he).2.2.1, hnew, entry_eq hv hleaf]
          exact hpage.imp (fun heq => by rw [heq]; rfl) id
        · exact (hsp.areas b hb).covers_page.mp hbcov
        · rwa [hnew]
        · rw [hnew]
          exact fun _ => hup.write
    · have hpte : pte ≠ 0 := fun hzero => hvalid.mp (.inl hzero) hleaf
      rw [← leafPte_of_slot (hslot hpte)] at hno
      exact ⟨own, hrefl, .inl ⟨trivial, hgrown, .inr (.inr ⟨trivial, hmax, hleaf, hno⟩)⟩⟩

end Vm

end bobchouos
