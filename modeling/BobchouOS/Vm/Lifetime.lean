import BobchouOS.Vm.Roots
import BobchouOS.Vm.World

open lib

namespace bobchouos

namespace Vm

variable {E : Halt → Prop} {k : Symbols} {s s' : Kmem} {own own' : Nat → Option Owner} {procs rest : List Proc}
  {p p' q : Proc} {T : Owner → Prop} {pg r : Nat}

/-- Taking down an address space, with its areas. -/
theorem release_spec {roots others addrs : List Nat} {trapframe : Nat} {vmas : List Vma}
    (h : KernelMemory s own (r :: roots) (vmas.map Vma.addr ++ others) addrs)
    (hsp : AddrSpace k s r trapframe vmas)
    (hhigh : ∀ a ∈ vmas, MAX_VA ≤ a.start → a.start < a.end_ → E (.panic "walk: va >= MAX_VA")) :
    wpe E (vma_free_all r vmas) (fun _ s1 => wp (proc_free_pagetable r) (fun _ s' => ∃ own',
      KernelMemory s' own' roots others addrs ∧ Effect (OfAreas r) roots s s' own own' ∧
      ∀ pa path, own' pa ≠ some (.table r path)) s1) s := by
  refine wpe_mono (vma_free_all_spec h (List.mem_cons_self ..) hsp.areas hhigh) ?_
  rintro _ s1 ⟨own1, hrel⟩
  have hnone : ∀ v, s1.entry r v = none := by
    intro v
    by_contra hne
    obtain ⟨hv, hvalid⟩ := entry_ne_none.mp hne
    by_cases hcov : ∃ a ∈ vmas, a.Covers (v * PG_SIZE)
    · exact hrel.gone v (USER_VPNS_lt hv) hcov hvalid
    · have hkept := hrel.kept v (USER_VPNS_lt hv) fun a ha hacov => hcov ⟨a, ha, hacov⟩
      rw [hkept] at hvalid
      obtain ⟨a, ha, hacov, -⟩ := hsp.covered v hv hvalid
      exact hcov ⟨a, ha, hacov⟩
  refine wp_mono (hrel.memory.spaces.free_spec hnone) ?_
  rintro _ s' ⟨own', hspaces, hgone, ht⟩
  have htables : Effect (Owner.IsTable r) (r :: roots) s1 s' own1 own' := by
    refine hrel.memory.spaces.effect_of_touches ht ?_
    rintro _ ⟨_, rfl⟩ ⟨_, heq⟩
    cases heq
  refine ⟨own', ⟨hspaces, hrel.memory.objects.frame ht (isTable_not_slab r)⟩, ?_, hgone⟩
  exact (hrel.effect.trans (htables.mono fun o ho => .inl (.inl ho))).sub fun r' hr' => by simp [hr']

/-- What creating or freeing the process at address `a` may touch. -/
def OfProc (a : Nat) (o : Owner) : Prop := o = .slab PROC_CLASS ∨ o = .kstack a ∨ o = .trapframe a

namespace World

/-- One process changes in any way. -/
theorem change (h : World k s own (p :: rest))
    (hmem : KernelMemory s' own' (rootsOf (p' :: rest)) (areasOf (p' :: rest)) ((p' :: rest).map Proc.addr))
    (ht : Touches T s s' own own') (hkstack : ∀ a, T (.kstack a) → a = p.addr)
    (htrapframe : ∀ a, T (.trapframe a) → a = p.addr)
    (hT : ∀ q ∈ rest, q.pagetable ≠ 0 → ∀ path, ¬ T (.table q.pagetable path)) (haddr : p'.addr = p.addr)
    (hp' : ProcOk k s' own' p') (hkpage : ∀ pa, own' pa = some (.kstack p.addr) → p'.kstack = pa)
    (htpage : ∀ pa, own' pa = some (.trapframe p.addr) → p'.trapframe = pa) : World k s' own' (p' :: rest) := by
  refine ⟨hmem, fun q hq => ?_, fun pa a hpa => ?_, fun pa a hpa => ?_⟩
  · rcases List.mem_cons.mp hq with rfl | hq
    · exact hp'
    · exact h.frame_rest ht hkstack htrapframe hT q hq
  · by_cases ha : a = p.addr
    · exact ⟨p', by simp, haddr.trans ha.symm, hkpage pa (ha ▸ hpa)⟩
    · obtain ⟨q, hq, hqa, hqk⟩ := h.kstack pa a ((ht.owner _ _ fun hTa => ha (hkstack a hTa)).mp hpa)
      rcases List.mem_cons.mp hq with rfl | hq
      · exact absurd hqa.symm ha
      · exact ⟨q, by simp [hq], hqa, hqk⟩
  · by_cases ha : a = p.addr
    · exact ⟨p', by simp, haddr.trans ha.symm, htpage pa (ha ▸ hpa)⟩
    · obtain ⟨q, hq, hqa, hqt⟩ := h.trapframe pa a ((ht.owner _ _ fun hTa => ha (htrapframe a hTa)).mp hpa)
      rcases List.mem_cons.mp hq with rfl | hq
      · exact absurd hqa.symm ha
      · exact ⟨q, by simp [hq], hqa, hqt⟩

/-- One process goes away. -/
theorem remove (h : World k s own (p :: rest))
    (hmem : KernelMemory s' own' (rootsOf rest) (areasOf rest) (rest.map Proc.addr))
    (ht : Touches T s s' own own') (hkstack : ∀ a, T (.kstack a) → a = p.addr)
    (htrapframe : ∀ a, T (.trapframe a) → a = p.addr)
    (hT : ∀ q ∈ rest, q.pagetable ≠ 0 → ∀ path, ¬ T (.table q.pagetable path))
    (hkpage : ∀ pa, own' pa ≠ some (.kstack p.addr)) (htpage : ∀ pa, own' pa ≠ some (.trapframe p.addr)) :
    World k s' own' rest := by
  refine ⟨hmem, h.frame_rest ht hkstack htrapframe hT, fun pa a hpa => ?_, fun pa a hpa => ?_⟩
  · have ha : a ≠ p.addr := by
      rintro rfl
      exact hkpage pa hpa
    obtain ⟨q, hq, hqa, hqk⟩ := h.kstack pa a ((ht.owner _ _ fun hTa => ha (hkstack a hTa)).mp hpa)
    rcases List.mem_cons.mp hq with rfl | hq
    · exact absurd hqa.symm ha
    · exact ⟨q, hq, hqa, hqk⟩
  · have ha : a ≠ p.addr := by
      rintro rfl
      exact htpage pa hpa
    obtain ⟨q, hq, hqa, hqt⟩ := h.trapframe pa a ((ht.owner _ _ fun hTa => ha (htrapframe a hTa)).mp hpa)
    rcases List.mem_cons.mp hq with rfl | hq
    · exact absurd hqa.symm ha
    · exact ⟨q, hq, hqa, hqt⟩

/-- A process is added. -/
theorem add (h : World k s own procs)
    (hmem : KernelMemory s' own' (rootsOf (p :: procs)) (areasOf (p :: procs)) ((p :: procs).map Proc.addr))
    (ht : Touches T s s' own own') (hkstack : ∀ a, T (.kstack a) → a = p.addr)
    (htrapframe : ∀ a, T (.trapframe a) → a = p.addr)
    (hT : ∀ q ∈ procs, q.pagetable ≠ 0 → ∀ path, ¬ T (.table q.pagetable path)) (hp : ProcOk k s' own' p)
    (hkpage : ∀ pa, own' pa = some (.kstack p.addr) → p.kstack = pa)
    (htpage : ∀ pa, own' pa = some (.trapframe p.addr) → p.trapframe = pa) : World k s' own' (p :: procs) := by
  have hnew : ∀ q ∈ procs, q.addr ≠ p.addr := by
    have hnodup := (List.nodup_append.mp hmem.objects.slabs.nodup).2.1
    rw [List.map_cons, List.nodup_cons] at hnodup
    intro q hq heq
    exact hnodup.1 (heq ▸ List.mem_map_of_mem hq)
  refine ⟨hmem, fun q hq => ?_, fun pa a hpa => ?_, fun pa a hpa => ?_⟩
  · rcases List.mem_cons.mp hq with rfl | hq
    · exact hp
    · exact (h.proc q hq).frame h.memory.spaces.toPageTables (root_mem hq) ht (fun hTk => hnew q hq (hkstack _ hTk))
        (fun hTt => hnew q hq (htrapframe _ hTt)) (hT q hq)
  · by_cases ha : a = p.addr
    · exact ⟨p, by simp, ha.symm, hkpage pa (ha ▸ hpa)⟩
    · obtain ⟨q, hq, hqa, hqk⟩ := h.kstack pa a ((ht.owner _ _ fun hTa => ha (hkstack a hTa)).mp hpa)
      exact ⟨q, by simp [hq], hqa, hqk⟩
  · by_cases ha : a = p.addr
    · exact ⟨p, by simp, ha.symm, htpage pa (ha ▸ hpa)⟩
    · obtain ⟨q, hq, hqa, hqt⟩ := h.trapframe pa a ((ht.owner _ _ fun hTa => ha (htrapframe a hTa)).mp hpa)
      exact ⟨q, by simp [hq], hqa, hqt⟩

end World

/-- A kernel stack or trapframe is no other kind of page. -/
theorem single_kind {o : Owner} (ho : o.IsSingle) :
    o.order = 0 ∧ ((∀ r, ¬ o.IsTable r) ∧ ¬ o.IsUser) ∧ ∀ c, Owner.slab c ≠ o := by
  rcases ho with ⟨a, rfl⟩ | ⟨a, rfl⟩
  all_goals
    refine ⟨rfl, ⟨?_, ?_⟩, fun c => by simp⟩
    · rintro r ⟨_, heq⟩
      cases heq
    · rintro ⟨_, heq⟩
      cases heq

namespace KernelMemory

variable {roots vmas addrs : List Nat} {o : Owner}

/-- A page that is neither a table nor user memory nor a slab: nothing else changes. -/
theorem take (h : KernelMemory s own roots vmas addrs) (hh : Held 0 s s' own pg) (horder : o.order = 0)
    (hkind : (∀ r, ¬ o.IsTable r) ∧ ¬ o.IsUser) (hslab : ∀ c, Owner.slab c ≠ o)
    (hnone : o.IsSingle → ∀ pa, own pa ≠ some o) :
    KernelMemory s' (Function.update own pg (some o)) roots vmas addrs ∧
      Touches (· = o) s s' own (Function.update own pg (some o)) := by
  have ht : Touches (· = o) s s' own (Function.update own pg (some o)) := .of_held hh rfl
  refine ⟨⟨h.spaces.frame (hh.pages o horder) ht ?_ ?_ ?_, h.objects.frame ht hslab⟩, ht⟩
  · rintro _ rfl
    exact hkind
  · rintro _ rfl
    exact horder
  · rintro pa _ rfl hpa hsingle
    by_cases heq : pa = pg
    · rw [heq, hh.refcount]
    · rw [Function.update_of_ne heq] at hpa
      exact absurd hpa (hnone hsingle pa)

/-- A page for a process. -/
theorem single (h : KernelMemory s own roots vmas addrs) (hh : Held 0 s s' own pg) (ho : o.IsSingle)
    (hnone : ∀ pa, own pa ≠ some o) :
    KernelMemory s' (Function.update own pg (some o)) roots vmas addrs ∧
      Touches (· = o) s s' own (Function.update own pg (some o)) := by
  obtain ⟨horder, hkind, hslab⟩ := single_kind ho
  exact h.take hh horder hkind hslab fun _ => hnone

/-- A page for a driver or for the kernel's own tables. -/
theorem kernel (h : KernelMemory s own roots vmas addrs) (hh : Held 0 s s' own pg) :
    KernelMemory s' (Function.update own pg (some .kernel)) roots vmas addrs ∧
      Touches (· = .kernel) s s' own (Function.update own pg (some .kernel)) := by
  refine h.take hh rfl ⟨?_, ?_⟩ (fun c => by simp) ?_
  · rintro r ⟨path, heq⟩
    cases heq
  · rintro ⟨v, heq⟩
    cases heq
  · rintro (⟨a, heq⟩ | ⟨a, heq⟩) <;> cases heq

/-- A page of a process is freed. -/
theorem kfree_single_spec (h : KernelMemory s own roots vmas addrs) (hpg : own pg = some o) (ho : o.IsSingle)
    (honly : ∀ pa, own pa = some o → pa = pg) :
    wp (kfree pg) (fun _ s' => ∃ own', KernelMemory s' own' roots vmas addrs ∧ Touches (· = o) s s' own own' ∧
      ∀ pa, own' pa ≠ some o) s := by
  obtain ⟨horder, hkind, hslab⟩ := single_kind ho
  refine wp_mono (h.spaces.pages.kfree_spec hpg horder (h.spaces.single pg o hpg ho)) ?_
  rintro _ s' ⟨hp, hsame, hstart, hclasses⟩
  have ht : Touches (· = o) s s' own (Function.update own pg none) := .of_kfree hpg rfl hsame hstart hclasses
  have hgone : ∀ pa, Function.update own pg none pa ≠ some o := by
    intro pa hpa
    by_cases heq : pa = pg
    · rw [heq, Function.update_self] at hpa
      cases hpa
    · rw [Function.update_of_ne heq] at hpa
      exact heq (honly pa hpa)
  refine ⟨_, ⟨h.spaces.frame hp ht ?_ ?_ ?_, h.objects.frame ht hslab⟩, ht, hgone⟩
  · rintro _ rfl
    exact hkind
  · rintro _ rfl
    exact horder
  · rintro pa _ rfl hpa -
    exact absurd hpa (hgone pa)

end KernelMemory

namespace World

/-- The kernel stack and the trapframe of a process are single pages. -/
theorem kstack_only (h : World k s own (p :: rest)) {pa : Nat} (hpa : own pa = some (.kstack p.addr)) : pa = p.kstack := by
  obtain ⟨q, hq, hqa, rfl⟩ := h.kstack pa _ hpa
  rcases List.mem_cons.mp hq with rfl | hq
  · rfl
  · exact absurd hqa (h.head_ne hq).1

theorem trapframe_only (h : World k s own (p :: rest)) {pa : Nat} (hpa : own pa = some (.trapframe p.addr)) :
    pa = p.trapframe := by
  obtain ⟨q, hq, hqa, rfl⟩ := h.trapframe pa _ hpa
  rcases List.mem_cons.mp hq with rfl | hq
  · rfl
  · exact absurd hqa (h.head_ne hq).1

theorem proc_create_spec (h : World k s own procs) (name : Bytes) :
    wp (proc_create name) (fun res s' => ∃ own', match res with
      | none => World k s' own' procs ∧ Touches (· = .slab PROC_CLASS) s s' own own'
      | some p => World k s' own' (p :: procs) ∧ Touches (OfProc p.addr) s s' own own' ∧
          p = { addr := p.addr, kstack := p.kstack, name := name.take (PROC_NAME_LEN - 1) }) s := by
  simp only [proc_create, wp_bind, wp_ite, wp_pure]
  refine wp_mono h.memory.kmalloc_proc_spec ?_
  rintro x s1 (⟨rfl, rfl, -⟩ | ⟨hx, own1, hmem1, ht1⟩)
  · exact ⟨fun _ => ⟨own, h, .refl _ s1 own⟩, fun hne => absurd rfl hne⟩
  refine ⟨fun hz => absurd hz hx, fun _ => ?_⟩
  have hnew : ∀ q ∈ procs, q.addr ≠ x := by
    have hnodup := (List.nodup_append.mp hmem1.objects.slabs.nodup).2.1
    rw [List.nodup_cons] at hnodup
    intro q hq heq
    exact hnodup.1 (heq ▸ List.mem_map_of_mem hq)
  refine wp_mono hmem1.spaces.pages.kalloc_spec ?_
  rintro pg s2 (⟨rfl, rfl, -⟩ | hf)
  · refine ⟨fun _ => wp_mono hmem1.kmfree_proc_spec ?_, fun hne => absurd rfl hne⟩
    rintro _ s3 ⟨own3, hmem3, ht3⟩
    exact ⟨own3, h.frame hmem3 (ht1.trans ht3) (by simp) (by simp) (by simp), ht1.trans ht3⟩
  refine ⟨fun hz => absurd hz hf.ne_zero, fun _ => ?_⟩
  have hnostack : ∀ pa, own1 pa ≠ some (.kstack x) := by
    intro pa hpa
    obtain ⟨q, hq, hqa, -⟩ := h.kstack pa x ((ht1.owner pa _ (by simp)).mp hpa)
    exact hnew q hq hqa
  have hnoframe : ∀ pa, own1 pa ≠ some (.trapframe x) := by
    intro pa hpa
    obtain ⟨q, hq, hqa, -⟩ := h.trapframe pa x ((ht1.owner pa _ (by simp)).mp hpa)
    exact hnew q hq hqa
  obtain ⟨hmem2, ht2⟩ := hmem1.single hf.toHeld (.inl ⟨x, rfl⟩) hnostack
  have ht : Touches (OfProc x) s s2 own (Function.update own1 pg (some (.kstack x))) :=
    (ht1.mono fun _ => .inl).trans (ht2.mono fun _ ho => .inr (.inl ho))
  refine ⟨Function.update own1 pg (some (.kstack x)), ?_, ht, trivial⟩
  refine h.add hmem2 ht ?_ ?_ ?_ ⟨⟨fun hne => absurd rfl hne, fun _ => rfl, fun a ha => ?_⟩, Function.update_self ..,
    fun hne => absurd rfl hne⟩ (fun pa hpa => ?_) fun pa hpa => ?_
  · rintro a (heq | heq | heq) <;> cases heq
    rfl
  · rintro a (heq | heq | heq) <;> cases heq
    rfl
  · rintro q - - path (heq | heq | heq) <;> cases heq
  · cases ha
  · by_contra hne
    rw [Function.update_of_ne fun heq => hne heq.symm] at hpa
    exact hnostack pa hpa
  · by_cases heq : pa = pg
    · rw [heq, Function.update_self] at hpa
      cases hpa
    · rw [Function.update_of_ne heq] at hpa
      exact absurd hpa (hnoframe pa)

/-- A kernel thread gets a trapframe. -/
theorem addTrapframe (h : World k s own (p :: rest)) (htf : p.trapframe = 0) (hh : Held 0 s s' own pg) :
    World k s' (Function.update own pg (some (.trapframe p.addr))) ({ p with trapframe := pg } :: rest) ∧
      Touches (· = .trapframe p.addr) s s' own (Function.update own pg (some (.trapframe p.addr))) := by
  have hp := h.proc p (by simp)
  have hroot : p.pagetable = 0 := by
    by_contra hne
    exact (hp.user hne).1 htf
  have hnone : ∀ pa, own pa ≠ some (.trapframe p.addr) := by
    intro pa hpa
    have hrange := h.memory.spaces.pages.range_of hpa
    rw [h.trapframe_only hpa, htf] at hrange
    simp only [KERN_BASE] at hrange
    omega
  obtain ⟨hmem, ht⟩ := h.memory.single hh (.inr ⟨p.addr, rfl⟩) hnone
  refine ⟨h.change hmem ht ?_ ?_ ?_ rfl ⟨⟨fun hne => absurd hroot hne, hp.kernel, hp.heap⟩, ?_, fun _ => ?_⟩ ?_ ?_, ht⟩
  · rintro a heq
    cases heq
  · rintro a heq
    cases heq
    rfl
  · rintro q - - path heq
    cases heq
  · exact (ht.owner _ _ (by simp)).mpr hp.kstack
  · exact Function.update_self ..
  · intro pa hpa
    exact (h.kstack_only ((ht.owner _ _ (by simp)).mp hpa)).symm
  · intro pa hpa
    by_contra hne
    rw [Function.update_of_ne fun heq => hne heq.symm] at hpa
    exact hnone pa hpa

/-- A kernel thread with a trapframe gets an empty address space. -/
theorem addSpace (h : World k s own (p :: rest)) (hp : p.pagetable = 0) (htf : p.trapframe ≠ 0) (hr : r ≠ 0)
    (hnew : r ∉ rootsOf (p :: rest)) (hspaces : Spaces s' own' (r :: rootsOf (p :: rest)))
    (ht : Touches (Owner.IsTable r) s s' own own') (hsp : AddrSpace k s' r p.trapframe []) :
    World k s' own' ({ p with pagetable := r } :: rest) := by
  have hvmas := (h.proc p (by simp)).kernel hp
  have hroots : rootsOf ({ p with pagetable := r } :: rest) = r :: rootsOf (p :: rest) := by
    rw [rootsOf_user hr, rootsOf_kernel hp]
  refine h.replace ⟨?_, ?_⟩ ht ?_ ?_ ?_ rfl rfl rfl ⟨fun _ => ⟨htf, ?_⟩, fun hz => absurd hz hr, ?_⟩
  · rw [hroots]
    exact hspaces
  · exact h.memory.objects.frame ht (isTable_not_slab r)
  · rintro a ⟨_, heq⟩
    cases heq
  · rintro a ⟨_, heq⟩
    cases heq
  · rintro q hq hne path
    refine isTable_of_ne ?_ path
    rintro rfl
    exact hnew (root_mem (by simp [hq]) hne)
  · show AddrSpace k s' r p.trapframe p.vma_list
    rw [hvmas]
    exact hsp
  · exact (h.proc p (by simp)).heap

/-- The trapframe of a process without an address space is freed. -/
theorem kfree_trapframe_spec (h : World k s own (p :: rest)) (hp : p.pagetable = 0) (htf : p.trapframe ≠ 0) :
    wp (kfree p.trapframe) (fun _ s' => ∃ own', World k s' own' ({ p with trapframe := 0 } :: rest) ∧
      Touches (· = .trapframe p.addr) s s' own own') s := by
  have hok := h.proc p (by simp)
  refine wp_mono (h.memory.kfree_single_spec (hok.trapframe htf) (.inr ⟨p.addr, rfl⟩) fun pa => h.trapframe_only) ?_
  rintro _ s' ⟨own', hmem, ht, hgone⟩
  refine ⟨own', h.change hmem ht ?_ ?_ ?_ rfl ⟨⟨fun hne => absurd hp hne, hok.kernel, hok.heap⟩, ?_,
    fun hne => absurd rfl hne⟩ ?_ ?_, ht⟩
  · rintro a heq
    cases heq
  · rintro a heq
    cases heq
    rfl
  · rintro q - - path heq
    cases heq
  · exact (ht.owner _ _ (by simp)).mpr hok.kstack
  · intro pa hpa
    exact (h.kstack_only ((ht.owner _ _ (by simp)).mp hpa)).symm
  · intro pa hpa
    exact absurd hpa (hgone pa)

/-- The end of `free_proc`. -/
theorem kmfree_spec (h : World k s own (p :: rest)) (hp : p.pagetable = 0) (htf : p.trapframe = 0) :
    wp (kfree p.kstack) (fun _ s1 => wp (kmfree p.addr) (fun _ s' => ∃ own', World k s' own' rest ∧
      Touches (OfProc p.addr) s s' own own' ∧
      ∀ pa, own' pa ≠ some (.kstack p.addr) ∧ own' pa ≠ some (.trapframe p.addr)) s1) s := by
  have hok := h.proc p (by simp)
  refine wp_mono (h.memory.kfree_single_spec hok.kstack (.inl ⟨p.addr, rfl⟩) fun pa => h.kstack_only) ?_
  rintro _ s1 ⟨own1, hmem1, ht1, hgone1⟩
  rw [rootsOf_kernel hp, areasOf_cons, hok.kernel hp, List.map_cons] at hmem1
  refine wp_mono hmem1.kmfree_proc_spec ?_
  rintro _ s2 ⟨own2, hmem2, ht2⟩
  have ht : Touches (OfProc p.addr) s s2 own own2 :=
    (ht1.mono fun _ ho => .inr (.inl ho)).trans (ht2.mono fun _ => .inl)
  have hkpage : ∀ pa, own2 pa ≠ some (.kstack p.addr) := by
    intro pa hpa
    exact hgone1 pa ((ht2.owner _ _ (by simp)).mp hpa)
  have htpage : ∀ pa, own2 pa ≠ some (.trapframe p.addr) := by
    intro pa hpa
    have hold : own pa = some (.trapframe p.addr) := (ht1.owner _ _ (by simp)).mp ((ht2.owner _ _ (by simp)).mp hpa)
    have hrange := h.memory.spaces.pages.range_of hold
    rw [h.trapframe_only hold, htf] at hrange
    simp only [KERN_BASE] at hrange
    omega
  refine ⟨own2, h.remove hmem2 ht ?_ ?_ ?_ hkpage htpage, ht, fun pa => ⟨hkpage pa, htpage pa⟩⟩
  · rintro a (heq | heq | heq) <;> cases heq
    rfl
  · rintro a (heq | heq | heq) <;> cases heq
    rfl
  · rintro q - - path (heq | heq | heq) <;> cases heq

/-- An address space without areas is freed. -/
theorem free_space_spec (h : World k s own (p :: rest)) (hp : p.pagetable ≠ 0) (hvmas : p.vma_list = []) :
    wp (proc_free_pagetable p.pagetable) (fun _ s' => ∃ own', World k s' own' ({ p with pagetable := 0 } :: rest) ∧
      Touches (Owner.IsTable p.pagetable) s s' own own' ∧ ∀ pa path, own' pa ≠ some (.table p.pagetable path)) s := by
  have hsp := ((h.proc p (by simp)).user hp).2
  rw [hvmas] at hsp
  have hspaces := h.memory.spaces
  rw [rootsOf_user hp] at hspaces
  refine wp_mono (hspaces.free_spec hsp.entry_none) ?_
  rintro _ s' ⟨own', hspaces', hgone, ht⟩
  refine ⟨own', h.replace ⟨?_, h.memory.objects.frame ht (isTable_not_slab _)⟩ ht ?_ ?_ ?_ rfl rfl rfl
    ⟨fun hne => absurd rfl hne, fun _ => hvmas, (h.proc p (by simp)).heap⟩, ht, hgone⟩
  · rw [rootsOf_kernel rfl]
    exact hspaces'
  · rintro a ⟨_, heq⟩
    cases heq
  · rintro a ⟨_, heq⟩
    cases heq
  · rintro q hq hne path
    exact isTable_of_ne ((h.head_ne hq).2 hne) path

/-- The last statements of `free_proc` and of the cleanup of `proc_fork`. -/
theorem dismantle_spec (h : World k s own (p :: rest)) (hp : p.pagetable = 0) (htf : p.trapframe ≠ 0) :
    wp (kfree p.trapframe) (fun _ s1 => wp (kfree p.kstack) (fun _ s2 => wp (kmfree p.addr) (fun _ s' => ∃ own',
      World k s' own' rest ∧ Touches (OfProc p.addr) s s' own own' ∧
      ∀ pa, own' pa ≠ some (.kstack p.addr) ∧ own' pa ≠ some (.trapframe p.addr)) s2) s1) s := by
  refine wp_mono (h.kfree_trapframe_spec hp htf) ?_
  rintro _ s1 ⟨own1, h1, ht1⟩
  refine wp_mono (h1.kmfree_spec hp rfl) fun _ s2 hmid => wp_mono hmid ?_
  rintro _ s3 ⟨own3, h3, ht3, hgone⟩
  exact ⟨own3, h3, (ht1.mono fun _ ho => .inr (.inr ho)).trans ht3, hgone⟩

/-- A process that was taken down again leaves at most a slab page behind. -/
theorem dismantled {a : Nat} {own'' : Nat → Option Owner} {s'' : Kmem} (h : World k s own procs) (hnew : ∀ q ∈ procs, q.addr ≠ a)
    (ht : Touches (OfProc a) s s' own own') (ht' : Touches (OfProc a) s' s'' own' own'')
    (hgone : ∀ pa, own'' pa ≠ some (.kstack a) ∧ own'' pa ≠ some (.trapframe a)) :
    Touches (· = .slab PROC_CLASS) s s'' own own'' := by
  refine (ht.trans ht').confine ?_ ?_ ?_
  · rintro c (heq | heq | heq) <;> cases heq
    rfl
  · rintro pa o hpa (rfl | rfl | rfl)
    · rfl
    · obtain ⟨q, hq, hqa, -⟩ := h.kstack pa a hpa
      exact absurd hqa (hnew q hq)
    · obtain ⟨q, hq, hqa, -⟩ := h.trapframe pa a hpa
      exact absurd hqa (hnew q hq)
  · rintro pa o hpa (rfl | rfl | rfl)
    · rfl
    · exact absurd hpa (hgone pa).1
    · exact absurd hpa (hgone pa).2

theorem proc_create_user_spec (h : World k s own procs) :
    wp (proc_create_user k) (fun res s' => ∃ own', match res with
      | none => World k s' own' procs ∧ Touches (· = .slab PROC_CLASS) s s' own own'
      | some p => World k s' own' (p :: procs) ∧ Touches (fun o => OfProc p.addr o ∨ o.IsTable p.pagetable) s s' own own' ∧
          p.pagetable ≠ 0 ∧
          p = { addr := p.addr, kstack := p.kstack, pagetable := p.pagetable, trapframe := p.trapframe }) s := by
  simp only [proc_create_user, wp_bind]
  refine wp_mono (h.proc_create_spec []) ?_
  rintro res s1 ⟨own1, hres⟩
  cases res with
  | none => exact ⟨_, _, rfl, own1, hres⟩
  | some p =>
    obtain ⟨h1, ht1, hp⟩ := hres
    have hroot : p.pagetable = 0 := by rw [hp]
    have hframe : p.trapframe = 0 := by rw [hp]
    have hnew : ∀ q ∈ procs, q.addr ≠ p.addr := fun q hq => (h1.head_ne hq).1
    simp only [wp_bind, wp_ite, wp_modify, wp_pure]
    refine wp_mono h1.memory.spaces.pages.kalloc_spec ?_
    rintro tf s2 (⟨rfl, rfl, -⟩ | hf)
    · refine ⟨fun _ => ?_, fun hne => absurd rfl hne⟩
      refine wp_mono (h1.kmfree_spec hroot hframe) fun _ s3 hmid => wp_mono hmid ?_
      rintro _ s4 ⟨own4, h4, ht4, hgone⟩
      exact ⟨own4, h4, h.dismantled hnew ht1 ht4 hgone⟩
    refine ⟨fun hz => absurd hz hf.ne_zero, fun _ => ?_⟩
    have hheld : Held 0 s1 { s2 with mem := s2.mem.memset tf 0 PG_SIZE } own1 tf :=
      hf.toHeld.write fun x hx => Mem.memset_of_outside _ _ (by omega)
    obtain ⟨h2, ht2⟩ := h1.addTrapframe hframe hheld
    have hrange := h2.memory.spaces.pages.range_of (Function.update_self tf (some (Owner.trapframe p.addr)) own1)
    have hlt : tf < 2 ^ 56 := by
      simp only [PHYS_STOP] at hrange
      omega
    have ht12 := ht1.trans (ht2.mono fun _ ho => .inr (.inr ho))
    refine wp_mono (proc_pagetable_spec h2.memory.spaces hrange.1 hlt) ?_
    rintro root s3 (⟨rfl, hsp3, ht3⟩ | ⟨hne, hfree, hfresh, own3, hsp3, ht3, haddr⟩)
    · refine ⟨fun _ => ?_, fun hne => absurd rfl hne⟩
      have h3 := h2.frame ⟨hsp3, h2.memory.objects.frame ht3 fun _ => not_false⟩ ht3 (by simp) (by simp) (by simp)
      refine wp_mono (h3.dismantle_spec hroot hf.ne_zero) fun _ s4 hmid => wp_mono hmid fun _ s5 hmid => wp_mono hmid ?_
      rintro _ s6 ⟨own6, h6, ht6, hgone⟩
      exact ⟨own6, h6, h.dismantled hnew (ht12.trans (ht3.mono fun _ => False.elim)) ht6 hgone⟩
    · refine ⟨fun hz => absurd hz hne, fun _ => ⟨own3, h2.addSpace hroot hf.ne_zero hne hfresh hsp3 ht3 haddr, ?_, hne, ?_⟩⟩
      · exact (ht12.mono fun _ => .inl).trans (ht3.mono fun _ => .inr)
      · rw [hp]
        rfl

/-- A process loses its address space and areas. -/
theorem dropSpace (h : World k s own (p :: rest))
    (hmem : KernelMemory s' own' (rootsOf rest) (areasOf rest) ((p :: rest).map Proc.addr))
    (ht : Touches (OfAreas p.pagetable) s s' own own') :
    World k s' own' ({ p with pagetable := 0, vma_list := [] } :: rest) := by
  refine h.replace ?_ ht ?_ ?_ ?_ rfl rfl rfl ⟨fun hne => absurd rfl hne, fun _ => rfl, fun a ha => ?_⟩
  · rw [rootsOf_kernel rfl]
    exact hmem
  · rintro a ((⟨_, heq⟩ | ⟨_, heq⟩) | heq) <;> cases heq
  · rintro a ((⟨_, heq⟩ | ⟨_, heq⟩) | heq) <;> cases heq
  · rintro q hq hne path
    exact ofAreas_not_table ((h.head_ne hq).2 hne) path
  · cases ha

end World

/-- What freeing a process may touch. -/
def OfDead (p : Proc) (o : Owner) : Prop := OfAreas p.pagetable o ∨ OfProc p.addr o

theorem ofProc_not_user {a : Nat} {o : Owner} (ho : OfProc a o) : ¬ o.IsUser := by
  rintro ⟨_, rfl⟩
  rcases ho with heq | heq | heq <;> cases heq

theorem free_proc_spec (h : World k s own (p :: rest)) (htf : p.pagetable = 0 → p.trapframe = 0)
    (hhigh : ∀ a ∈ p.vma_list, MAX_VA ≤ a.start → a.start < a.end_ → E (.panic "walk: va >= MAX_VA")) :
    wpe E (free_proc p) (fun _ s' => ∃ own', World k s' own' rest ∧
      Effect (OfDead p) (rootsOf rest) s s' own own') s := by
  by_cases hp : p.pagetable = 0
  · simp only [free_proc, hp, ne_eq, not_true_eq_false, if_false, wpe_bind]
    refine wpe_mono (h.kmfree_spec hp (htf hp)).wpe fun _ s1 hmid => wpe_mono hmid.wpe ?_
    rintro _ s2 ⟨own2, h2, ht2, -⟩
    refine ⟨own2, h2, ?_⟩
    have heff := h.memory.spaces.effect_of_touches ht2 fun _ => ofProc_not_user
    rw [rootsOf_kernel hp] at heff
    exact heff.mono fun _ => .inr
  · have hok := h.proc p (by simp)
    have hmem := h.memory
    rw [rootsOf_user hp, areasOf_cons] at hmem
    simp only [free_proc, hp, ne_eq, not_false_eq_true, if_true, wpe_bind]
    refine wpe_mono (release_spec hmem (hok.user hp).2 hhigh) fun _ s1 hmid => wpe_mono hmid.wpe ?_
    rintro _ s2 ⟨own2, hmem2, heff2, -⟩
    have h2 := h.dropSpace hmem2 heff2.touches
    refine wpe_mono (h2.dismantle_spec rfl (hok.user hp).1).wpe fun _ s3 hmid => wpe_mono hmid.wpe
      fun _ s4 hmid => wpe_mono hmid.wpe ?_
    rintro _ s5 ⟨own5, h5, ht5, -⟩
    refine ⟨own5, h5, (heff2.mono fun _ => .inl).trans ?_⟩
    exact (hmem2.spaces.effect_of_touches ht5 fun _ => ofProc_not_user).mono fun _ => .inr

end Vm

end bobchouos
