import BobchouOS.Vm.Areas

open lib

namespace bobchouos

variable {E : Halt → Prop} {k : Symbols} {s s' : Kmem} {own own' : Nat → Option Owner} {roots : List Nat}
  {r root va pa perm trapframe : Nat} {T : Owner → Prop}

/-- A step that touches more owners than `U` has is a step of `U` when the others
have no page before and after it. -/
theorem Touches.confine {U : Owner → Prop} (h : Touches T s s' own own') (hslab : ∀ c, T (.slab c) → U (.slab c))
    (hbefore : ∀ pa o, own pa = some o → T o → U o) (hafter : ∀ pa o, own' pa = some o → T o → U o) :
    Touches U s s' own own' := by
  refine ⟨fun pa o ho => ?_, fun pa o hpa ho => h.same pa o hpa fun hT => ho (hbefore pa o hpa hT), h.free_start,
    fun hU => h.classes fun c hT => hU c (hslab c hT)⟩
  by_cases hT : T o
  · exact iff_of_false (fun hpa => ho (hafter pa o hpa hT)) fun hpa => ho (hbefore pa o hpa hT)
  · exact h.owner pa o hT

/-- What happened only to pages that nobody had before and nobody has afterwards. -/
theorem Touches.nothing (h : Touches T s s' own own') (hslab : ∀ c, ¬ T (.slab c))
    (hbefore : ∀ pa o, own pa = some o → ¬ T o) (hafter : ∀ pa o, own' pa = some o → ¬ T o) :
    own' = own ∧ Touches (fun _ => False) s s' own own := by
  have hnone : Touches (fun _ => False) s s' own own' := h.confine hslab hbefore hafter
  have heq : own' = own := by
    funext pa
    exact Option.ext fun o => hnone.owner pa o not_false
  exact ⟨heq, heq ▸ hnone⟩

theorem isTable_not_slab (r c : Nat) : ¬ Owner.IsTable r (.slab c) := by
  rintro ⟨path, heq⟩
  cases heq

theorem isTable_of_ne {r' : Nat} (hne : r' ≠ r) (path : List Nat) : ¬ Owner.IsTable r (.table r' path) := by
  rintro ⟨path', heq⟩
  cases heq
  exact hne rfl

namespace Spaces

/-- An empty address space whose root is a fresh page. -/
theorem start (h : Spaces s own roots) (hf : Fresh s s' own root) :
    root ∉ roots ∧ Spaces s' (Function.update own root (some (.table root []))) (root :: roots) ∧
      Touches (Owner.IsTable root) s s' own (Function.update own root (some (.table root []))) ∧
      ∀ v, s'.leafPte root v = 0 := by
  have hnew : root ∉ roots := by
    intro hr
    have howned := h.root_owned hr
    rw [hf.was_free] at howned
    cases howned
  obtain ⟨htable, hleaf⟩ := PageTable.of_fresh hf fun pa path hpa => hnew (h.rooted pa root path hpa)
  have ht : Touches (Owner.IsTable root) s s' own (Function.update own root (some (.table root []))) :=
    .of_held hf.toHeld ⟨[], rfl⟩
  have htables : PageTables s' (Function.update own root (some (.table root []))) (root :: roots) :=
    h.toPageTables.retable (hf.pages _ rfl) ht (fun r' hne => by simp [hne]) (fun _ => htable) fun _ _ _ => by simp
  refine ⟨hnew, ⟨htables, ?_⟩, ht, hleaf⟩
  refine (ht.sharing (user_not_table root) (fun r hr v => entry_congr ?_) h.sharing).join hnew fun v => ?_
  · rw [h.leafPte_frame ht (isTable_of_ne (by rintro rfl; exact hnew hr)) hr]
  · exact entry_none (by rw [hleaf]; simp [Has])

/-- `map_pages` of one page above user memory. -/
theorem map_top_spec (h : Spaces s own roots) (hr : r ∈ roots) (hva : va % PG_SIZE = 0) (hmax : va < MAX_VA)
    (htop : USER_VPNS ≤ va / PG_SIZE) (hpa : pa % PG_SIZE = 0) (hlt : pa < 2 ^ 56) (hperm : perm < 1024)
    (hempty : ¬ Has (s.leafPte r (va / PG_SIZE)) PTE_V) :
    wp (map_pages r va PG_SIZE pa perm) (fun ret s' => ∃ own', Spaces s' own' roots ∧
      Touches (Owner.IsTable r) s s' own own' ∧ (ret = 0 ∨ ret = -1) ∧ ∀ v < 2 ^ 26,
        s'.leafPte r v = if v = va / PG_SIZE ∧ ret = 0 then pa_to_pte pa ||| leafFlags perm else s.leafPte r v) s := by
  refine wp_mono (wp_of_wpe (map_page_spec h.pages (h.tables r hr) hva hpa (fun hge => by omega) hempty)) ?_
  rintro ret s' ⟨-, s1, own1, hg, ⟨rfl, rfl, -⟩ | ⟨rfl, -, a, ha, rfl⟩⟩
  · refine ⟨own1, (h.grown hr hg).1, hg.touches, .inr rfl, fun v _ => ?_⟩
    rw [if_neg (by simp), hg.leaf]
  obtain ⟨-, -, hx⟩ := leaf_parts hpa hlt hperm
  obtain ⟨hsp1, -⟩ := h.grown hr hg
  have hv : va / PG_SIZE < 2 ^ 26 := by
    simp only [MAX_VA, PG_SIZE] at hmax ⊢
    omega
  obtain ⟨htab, ht, -, hleaf⟩ := hsp1.toPageTables.setLeaf hr hv hx ha
  refine ⟨own1, ⟨htab, ht.sharing (user_not_table r) (fun r' hr' v => ?_) hsp1.sharing⟩, hg.touches.trans ht, .inl rfl,
    fun v hv => ?_⟩
  · by_cases hlt : v < USER_VPNS
    · exact entry_congr (by rw [hleaf r' hr' v (USER_VPNS_lt hlt), setAt_of_ne _ _ (.inr (by omega))])
    · rw [Kmem.entry, Kmem.entry, if_neg fun h => hlt h.1, if_neg fun h => hlt h.1]
  · rw [hleaf r hr v hv, ← hg.leaf]
    simp [setAt]

end Spaces

/-- Freeing the tables of an address space that no longer takes part in sharing. -/
theorem PageTables.free_spec (h : PageTables s own (r :: roots)) (hr : r ∉ roots)
    (hsharing : Sharing roots s.entry (home own) fun pa => (s.pa_to_page pa).refcount) :
    wp (proc_free_pagetable r) (fun _ s' => ∃ own', Spaces s' own' roots ∧
      (∀ pa path, own' pa ≠ some (.table r path)) ∧ Touches (Owner.IsTable r) s s' own own') s := by
  refine wp_mono (proc_free_pagetable_spec h.pages (h.tables r (by simp))) ?_
  rintro _ s' ⟨own', hp, hgone, ht⟩
  refine ⟨own', ⟨h.retable hp ht (fun r' hne => by simp [hne]) (fun hmem => absurd hmem hr)
    fun pa path hpa => absurd hpa (hgone pa path), ht.sharing (user_not_table r) (fun r' hr' v => ?_) hsharing⟩, hgone, ht⟩
  have hne : r' ≠ r := by
    rintro rfl
    exact hr hr'
  exact entry_congr (by rw [h.leafPte_frame ht (isTable_of_ne hne) (by simp [hr'])])

/-- Freeing an address space that has no user memory left. -/
theorem Spaces.free_spec (h : Spaces s own (r :: roots)) (hnone : ∀ v, s.entry r v = none) :
    wp (proc_free_pagetable r) (fun _ s' => ∃ own', Spaces s' own' roots ∧
      (∀ pa path, own' pa ≠ some (.table r path)) ∧ Touches (Owner.IsTable r) s s' own own') s := by
  have hnodup := List.nodup_cons.mp h.sharing.nodup
  refine h.toPageTables.free_spec hnodup.1 ?_
  have hleave : Sharing ((r :: roots).erase r) s.entry (home own) fun pa => (s.pa_to_page pa).refcount :=
    h.sharing.leave (List.mem_cons_self ..) (by simp [hnone]) fun _ _ => rfl
  rwa [List.erase_cons_head] at hleave

theorem AddrSpace.entry_none (h : AddrSpace k s r trapframe []) (v : Nat) : s.entry r v = none := by
  rw [Kmem.entry, if_neg]
  rintro ⟨hv, hvalid⟩
  obtain ⟨a, ha, -⟩ := h.covered v hv hvalid
  cases ha

namespace Vm

/-- A new address space has nothing but its top two pages. A failed call leaves
no page behind. -/
theorem proc_pagetable_spec (h : Spaces s own roots) (htf : trapframe % PG_SIZE = 0) (hlt : trapframe < 2 ^ 56) :
    wp (proc_pagetable k trapframe) (fun root s' =>
      (root = 0 ∧ Spaces s' own roots ∧ Touches (fun _ => False) s s' own own) ∨
      root ≠ 0 ∧ own root = none ∧ root ∉ roots ∧ ∃ own', Spaces s' own' (root :: roots) ∧
        Touches (Owner.IsTable root) s s' own own' ∧ AddrSpace k s' root trapframe []) s := by
  have hvec := k.user_vec_lt
  have hend := k.kernel_end_le
  have huser : k.user_vec < 2 ^ 56 := by
    simp only [PHYS_STOP] at hend
    omega
  simp only [proc_pagetable, wp_bind, wp_ite, wp_pure]
  refine wp_mono h.pages.kalloc_spec ?_
  rintro root s1 (⟨rfl, rfl, -⟩ | hf)
  · exact ⟨fun _ => .inl ⟨trivial, h, .refl _ s1 own⟩, fun hne => absurd rfl hne⟩
  refine ⟨fun hz => absurd hz hf.ne_zero, fun _ => ?_⟩
  obtain ⟨hnew, hsp1, ht1, hleaf1⟩ := h.start hf
  have hzero : ¬ Has 0 PTE_V := by decide
  refine wp_mono (hsp1.map_top_spec (List.mem_cons_self ..) (by decide) (by decide) (by decide) k.user_vec_aligned
    huser (by decide) (by rw [hleaf1]; exact hzero)) ?_
  rintro ret s2 ⟨own2, hsp2, ht2, hret, hleaf2⟩
  refine wp_mono (hsp2.map_top_spec (List.mem_cons_self ..) (by decide) (by decide) (by decide) htf hlt (by decide) ?_) ?_
  · rw [hleaf2 _ (by decide), if_neg (by rintro ⟨heq, -⟩; exact absurd heq (by decide)), hleaf1]
    exact hzero
  rintro ret' s3 ⟨own3, hsp3, ht3, hret', hleaf3⟩
  have ht := (ht1.trans ht2).trans ht3
  -- the leaves of user memory are those of the fresh root
  have huserLeaf : ∀ v < USER_VPNS, s3.leafPte root v = 0 := by
    intro v hv
    have hne : v ≠ TRAMPOLINE / PG_SIZE ∧ v ≠ TRAPFRAME / PG_SIZE := by
      simp only [USER_VPNS, TRAPFRAME, TRAMPOLINE, MAX_VA, PG_SIZE] at *
      omega
    rw [hleaf3 v (USER_VPNS_lt hv), if_neg (by tauto), hleaf2 v (USER_VPNS_lt hv), if_neg (by tauto), hleaf1]
  refine ⟨fun _ => ?_, fun hok => ?_⟩
  · refine wp_mono (hsp3.free_spec fun v => ?_) ?_
    · rw [Kmem.entry, if_neg]
      rintro ⟨hv, hvalid⟩
      rw [huserLeaf v hv] at hvalid
      exact hzero hvalid
    rintro _ s4 ⟨own4, hsp4, hgone, ht4⟩
    obtain ⟨rfl, hsame⟩ := (ht.trans ht4).nothing (isTable_not_slab root)
      (by rintro pa _ hpa ⟨path, rfl⟩; exact hnew (h.rooted pa root path hpa))
      (by rintro pa _ hpa ⟨path, rfl⟩; exact hgone pa path hpa)
    exact .inl ⟨trivial, hsp4, hsame⟩
  · rw [not_or, not_not, not_not] at hok
    refine .inr ⟨hf.ne_zero, hf.was_free, hnew, own3, hsp3, ht, ?_, ?_, fun v hv hvalid => ?_, by simp⟩
    · rw [hleaf3 _ (by decide), if_neg (by rintro ⟨heq, -⟩; exact absurd heq (by decide)), hleaf2 _ (by decide),
        if_pos ⟨rfl, hok.1⟩]
    · rw [hleaf3 _ (by decide), if_pos ⟨rfl, hok.2⟩]
    · rw [huserLeaf v hv] at hvalid
      exact absurd hvalid hzero

end Vm

end bobchouos
