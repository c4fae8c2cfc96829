import BobchouOS.Vm.Abandon
import BobchouOS.Vm.Lifetime

open lib

namespace bobchouos

namespace Vm

variable {E : Halt → Prop} {k : Symbols} {s s' s₀ : Kmem} {own own' own₀ : Nat → Option Owner} {roots : List Nat}
  {r trapframe argc sp : Nat} {image : Mem} {argv : List Bytes} {path : Bytes} {vmas : List Vma} {others procs : List Nat}
  {p : Proc} {rest : List Proc}

/-- The registers that `proc_exec` sets. -/
theorem setRegs_spec (k : Symbols) (p : Proc) (image : Mem) (argc sp : Nat) (s : Kmem) :
    (∃ m, setRegs k p image argc sp s = { s with mem := m } ∧
      ∀ x, ¬ (p.trapframe ≤ x ∧ x < p.trapframe + PG_SIZE) → m x = s.mem x) ∧
    (setRegs k p image argc sp s).mem.loadWord (p.trapframe + TF_SP) = BitVec.ofNat 64 sp ∧
    (setRegs k p image argc sp s).mem.loadWord (p.trapframe + TF_A0) = BitVec.ofNat 64 argc ∧
    (setRegs k p image argc sp s).mem.loadWord (p.trapframe + TF_A1) = BitVec.ofNat 64 sp := by
  have hapart : [(TF_EPC, e_entry image), (TF_SP, sp), (TF_A0, argc), (TF_A1, sp), (TF_KERNEL_SATP, k.satp),
      (TF_KERNEL_SP, p.kstack + PG_SIZE), (TF_USER_TRAP, k.user_trap), (TF_HARTID, 0)].Pairwise
      fun f g => f.1 + 8 ≤ g.1 ∨ g.1 + 8 ≤ f.1 := by
    simp [TF_EPC, TF_SP, TF_A0, TF_A1, TF_KERNEL_SATP, TF_KERNEL_SP, TF_USER_TRAP, TF_HARTID]
  refine ⟨setFields_mem _ s ?_, setFields_load (f := (TF_SP, sp)) _ s hapart (by simp),
    setFields_load (f := (TF_A0, argc)) _ s hapart (by simp), setFields_load (f := (TF_A1, sp)) _ s hapart (by simp)⟩
  simp [TF_EPC, TF_SP, TF_A0, TF_A1, TF_KERNEL_SATP, TF_KERNEL_SP, TF_USER_TRAP, TF_HARTID, PG_SIZE]

theorem Program.congr (h : Program k image argv s r trapframe vmas) (hleaf : s'.leafPte r = s.leafPte r)
    (hview : s'.view r = s.view r) : Program k image argv s' r trapframe vmas := by
  refine ⟨h.space.congr fun v _ => by rw [hleaf], h.areas, fun ph hph => ?_, fun v hv hvalid => ?_, hview ▸ h.view⟩
  · have hi := h.installed ph hph
    exact ⟨fun y hlo hhi => by rw [hleaf]; exact hi.leaf y hlo hhi, fun y hlo hhi => by rw [hview]; exact hi.view y hlo hhi⟩
  · rw [hleaf] at hvalid
    exact h.mapped v hv hvalid

theorem IsAreas.heapOk (h : IsAreas image vmas) : HeapOk vmas := by
  obtain ⟨segs, x, y, rfl, hsegs⟩ := h
  intro a ha hflag
  rcases List.mem_append.mp ha with ha | ha
  · obtain ⟨ph, -, heq⟩ := forall₂_right hsegs ha
    rw [heq] at hflag
    exact absurd (show 0 &&& VMA_HEAP = 0 by decide) hflag
  · rcases List.mem_cons.mp ha with rfl | ha
    · exact .inl (Nat.le_refl _)
    · rw [List.mem_singleton.mp ha]
      exact .inl (show USER_STACK_BOT ≤ USER_STACK_TOP by decide)

/-- What `proc_exec` may touch when it succeeds: the new address space, the old
one and the trapframe. -/
def OfExec (p : Proc) (r : Nat) (o : Owner) : Prop := OfAreas r o ∨ OfAreas p.pagetable o ∨ o = .trapframe p.addr

/-- Memory without the old address space of a process. -/
structure Replaced (s s' : Kmem) (own own' : Nat → Option Owner) (r : Nat) (vmas : List Vma) (p : Proc)
    (rest : List Proc) (procs : List Nat) : Prop where
  memory : KernelMemory s' own' (r :: rootsOf rest) (vmas.map Vma.addr ++ areasOf rest) procs
  effect : Effect (OfAreas p.pagetable) (r :: rootsOf rest) s s' own own'

/-- The old address space of a process, if it has one, gives way to the new one. -/
theorem replaceSpace_spec (hp : ProcSpace k s p)
    (h : KernelMemory s own (r :: rootsOf (p :: rest)) (vmas.map Vma.addr ++ areasOf (p :: rest)) procs)
    (hhigh : ∀ a ∈ p.vma_list, MAX_VA ≤ a.start → a.start < a.end_ → E (.panic "walk: va >= MAX_VA")) :
    wpe E (vma_free_all p.pagetable p.vma_list) (fun _ s1 =>
      (p.pagetable ≠ 0 → wp (proc_free_pagetable p.pagetable)
        (fun _ s' => ∃ own', Replaced s s' own own' r vmas p rest procs) s1) ∧
      (p.pagetable = 0 → ∃ own', Replaced s s1 own own' r vmas p rest procs)) s := by
  by_cases hzero : p.pagetable = 0
  · rw [rootsOf_kernel hzero, areasOf_cons, hp.kernel hzero, List.map_nil, List.nil_append] at h
    rw [hp.kernel hzero, vma_free_all, wpe_pure]
    exact ⟨fun hne => absurd hzero hne, fun _ => ⟨own, h, .refl _ _ s own⟩⟩
  · rw [rootsOf_user hzero, areasOf_cons] at h
    have hperm : KernelMemory s own (p.pagetable :: r :: rootsOf rest)
        (p.vma_list.map Vma.addr ++ (vmas.map Vma.addr ++ areasOf rest)) procs := by
      refine ⟨spaces_perm h.spaces (.swap _ _ _), h.objects.perm ?_ (.refl _)⟩
      rw [← List.append_assoc, ← List.append_assoc]
      exact List.perm_append_comm.append_right _
    refine wpe_mono (release_spec hperm (hp.user hzero).2 hhigh) ?_
    intro _ s1 hfree
    refine ⟨fun _ => wp_mono hfree ?_, fun heq => absurd heq hzero⟩
    rintro _ s' ⟨own', hmem, heff, -⟩
    exact ⟨own', hmem, heff⟩

/-- The process and the others after a successful `proc_exec`. -/
structure Execed (k : Symbols) (image : Mem) (argv : List Bytes) (path : Bytes) (s s' : Kmem)
    (own own' : Nat → Option Owner) (p p' : Proc) (rest : List Proc) : Prop where
  world : World k s' own' (p' :: rest)
  touches : Touches (OfExec p p'.pagetable) s s' own own'
  views : ∀ r ∈ rootsOf rest, s'.view r = s.view r
  fields : p' = { p with
    pagetable := p'.pagetable, vma_list := p'.vma_list, name := path.take (PROC_NAME_LEN - 1) }
  root : p'.pagetable ≠ 0
  program : Program k image argv s' p'.pagetable p.trapframe p'.vma_list
  fits : ArgsFit argv
  sp : s'.mem.loadWord (p.trapframe + TF_SP) = BitVec.ofNat 64 (argSp argv)
  a0 : s'.mem.loadWord (p.trapframe + TF_A0) = BitVec.ofNat 64 argv.length
  a1 : s'.mem.loadWord (p.trapframe + TF_A1) = BitVec.ofNat 64 (argSp argv)

theorem ofAreas_not_own (r a : Nat) : ¬ OfAreas r (.kstack a) ∧ ¬ OfAreas r (.trapframe a) := by
  constructor <;> rintro ((⟨_, heq⟩ | ⟨_, heq⟩) | heq) <;> cases heq

/-- The new program of a process, before its registers are set. -/
theorem Replaced.world {p' : Proc} (hrep : Replaced s s' own own' r vmas p rest ((p :: rest).map Proc.addr))
    (hw : World k s₀ own₀ (p :: rest)) (htf : p.trapframe ≠ 0) (hr : r ≠ 0) (hnew : r ∉ rootsOf (p :: rest))
    (ht : Touches (OfAreas r) s₀ s own₀ own) (hprog : Program k image argv s' r p.trapframe vmas)
    (hp' : p' = { p with pagetable := r, vma_list := vmas, name := p'.name }) : World k s' own' (p' :: rest) := by
  have hroot : p'.pagetable = r := by rw [hp']
  have hvmas : p'.vma_list = vmas := by rw [hp']
  have hframe : p'.trapframe = p.trapframe := by rw [hp']
  have haddr : p'.addr = p.addr := by rw [hp']
  have hT : Touches (fun o => OfAreas r o ∨ OfAreas p.pagetable o) s₀ s' own₀ own' :=
    (ht.mono fun _ => .inl).trans (hrep.effect.touches.mono fun _ => .inr)
  refine hw.replace ?_ hT ?_ ?_ ?_ haddr (by rw [hp']) hframe ⟨fun _ => ?_, fun hzero => ?_, ?_⟩
  · rw [rootsOf_user (hroot ▸ hr), areasOf_cons, List.map_cons, hroot, hvmas, haddr, ← List.map_cons]
    exact hrep.memory
  · rintro a (hT | hT)
    · exact (ofAreas_not_own r a).1 hT
    · exact (ofAreas_not_own _ a).1 hT
  · rintro a (hT | hT)
    · exact (ofAreas_not_own r a).2 hT
    · exact (ofAreas_not_own _ a).2 hT
  · rintro q hq hne path (hT | hT)
    · refine ofAreas_not_table ?_ path hT
      rintro rfl
      exact hnew (root_mem (by simp [hq]) hne)
    · exact ofAreas_not_table ((hw.head_ne hq).2 hne) path hT
  · rw [hroot, hvmas, hframe]
    exact ⟨htf, hprog.space⟩
  · exact absurd (hroot ▸ hzero) hr
  · rw [hvmas]
    exact hprog.areas.heapOk

theorem execCommit_spec (hw : World k s₀ own₀ (p :: rest)) (htf : p.trapframe ≠ 0) (hr : r ≠ 0)
    (hmem : KernelMemory s own (r :: rootsOf (p :: rest)) (vmas.map Vma.addr ++ areasOf (p :: rest))
      ((p :: rest).map Proc.addr))
    (heff : Effect (OfAreas r) (rootsOf (p :: rest)) s₀ s own₀ own)
    (hprog : Program k image argv s r p.trapframe vmas) (hfits : ArgsFit argv)
    (hhigh : ∀ a ∈ p.vma_list, MAX_VA ≤ a.start → a.start < a.end_ → E (.panic "walk: va >= MAX_VA")) :
    wpe E (execCommit k p path image r vmas argv.length (argSp argv)) (fun p' s' => ∃ own',
      Execed k image argv path s₀ s' own₀ own' p p' rest) s := by
  have hnodup := List.nodup_cons.mp hmem.spaces.sharing.nodup
  have hold : ∀ q ∈ p :: rest, q.pagetable ≠ 0 → q.pagetable ≠ r := by
    rintro q hq hne rfl
    exact hnodup.1 (root_mem hq hne)
  have hproc : ProcSpace k s p := by
    have hp := hw.proc p (by simp)
    refine (hp.frame hw.memory.spaces.toPageTables (root_mem (by simp)) heff.touches ?_ ?_ ?_).toProcSpace
    · rintro ((⟨_, heq⟩ | ⟨_, heq⟩) | heq) <;> cases heq
    · rintro ((⟨_, heq⟩ | ⟨_, heq⟩) | heq) <;> cases heq
    · exact fun hne => ofAreas_not_table (hold p (by simp) hne)
  simp only [execCommit, wpe_bind, wpe_ite, wpe_modify, wpe_pure]
  have hne : r ≠ p.pagetable := by
    intro heq
    exact hold p (by simp) (heq ▸ hr) heq.symm
  have hfinish : ∀ s1 own1, Replaced s s1 own own1 r vmas p rest ((p :: rest).map Proc.addr) → ∃ own',
      Execed k image argv path s₀ (setRegs k p image argv.length (argSp argv) s1) own₀ own' p
        { p with pagetable := r, vma_list := vmas, name := path.take (PROC_NAME_LEN - 1) } rest := by
    intro s1 own1 hrep
    have hleaf1 := hmem.spaces.toPageTables.leafPte_frame hrep.effect.touches (ofAreas_not_table hne)
      (List.mem_cons_self ..)
    have hprog1 := hprog.congr hleaf1 (hrep.effect.views r (List.mem_cons_self ..) (ofAreas_not_table hne))
    obtain ⟨p', hp'⟩ : ∃ p', p' = { p with
      pagetable := r, vma_list := vmas, name := path.take (PROC_NAME_LEN - 1) } := ⟨_, rfl⟩
    have hroot : p'.pagetable = r := by rw [hp']
    have hframe : p'.trapframe = p.trapframe := by rw [hp']
    rw [← hp']
    have hw1 : World k s1 own1 (p' :: rest) :=
      hrep.world hw htf hr hnodup.1 heff.touches hprog1 (by rw [hp'])
    obtain ⟨⟨m, hregs, hm⟩, hsp, ha0, ha1⟩ := setRegs_spec k p image argv.length (argSp argv) s1
    rw [hregs] at hsp ha0 ha1 ⊢
    rw [← hframe] at hm htf
    obtain ⟨hw2, heff2⟩ := hw1.setMem htf hm
    have hmem' : r ∈ rootsOf (p' :: rest) := hroot ▸ root_mem (List.mem_cons_self ..) (hroot ▸ hr)
    have hleaf2 := hw1.memory.spaces.toPageTables.leafPte_frame heff2.touches (by simp) hmem'
    refine ⟨own1, hw2, ?_, fun r' hr' => ?_, ?_, hroot ▸ hr, ?_, hfits, hsp, ha0, ha1⟩
    · have haddr : p'.addr = p.addr := by rw [hp']
      rw [hroot]
      refine ((heff.touches.mono fun _ => .inl).trans (hrep.effect.touches.mono fun _ ho => .inr (.inl ho))).trans
        (heff2.touches.mono fun _ ho => .inr (.inr (haddr ▸ ho)))
    · obtain ⟨hne', q, hq, rfl⟩ := mem_rootsOf.mp hr'
      rw [heff2.views _ (root_mem (by simp [hq]) hne') (by simp), hrep.effect.views _ (by simp [hr'])
        (ofAreas_not_table ((hw.head_ne hq).2 hne')), heff.views _ (root_mem (by simp [hq]) hne')
        (ofAreas_not_table (hold q (by simp [hq]) hne'))]
    · rw [hp']
    · rw [hroot, show p'.vma_list = vmas by rw [hp']]
      exact hprog1.congr hleaf2 (heff2.views r hmem' (by simp))
  refine wpe_mono (replaceSpace_spec hproc hmem hhigh) ?_
  rintro _ s1 ⟨hfree, hkeep⟩
  refine ⟨fun hne => (wp_mono (hfree hne) ?_).wpe, fun heq => ?_⟩
  · rintro _ s2 ⟨own2, hrep⟩
    exact hfinish s2 own2 hrep
  · obtain ⟨own1, hrep⟩ := hkeep (not_not.mp heq)
    exact hfinish s1 own1 hrep

/-- What a failed `proc_exec` may touch. -/
def OfExecFail (o : Owner) : Prop := o.IsUser ∨ o = .slab VMA_CLASS ∨ o = .loose

/-- The build phase fails with the areas `vmas` over the page table `new_pt`. -/
def FailedBuild (k : Symbols) (binaries : List Binary) (path : Bytes) (argv : List Bytes) (trapframe : Nat) (s : Kmem)
    (new_pt : Nat) (vmas : List Vma) (s2 : Kmem) : Prop :=
  ∃ bin s1, lookup_binary binaries path = some bin ∧ IsElf bin.image ∧
    proc_pagetable k trapframe s = .ok (new_pt, s1) ∧ new_pt ≠ 0 ∧
    execBuild bin.image argv new_pt s1 = .ok (.error vmas, s2)

/-- When the build phase fails, every page it has mapped is in an area of its list. -/
def InAreas (k : Symbols) (binaries : List Binary) (path : Bytes) (argv : List Bytes) (trapframe : Nat) (s : Kmem) : Prop :=
  ∀ new_pt vmas s2, FailedBuild k binaries path argv trapframe s new_pt vmas s2 →
    ∀ v < USER_VPNS, Has (s2.leafPte new_pt v) PTE_V → ∃ a ∈ vmas, a.Covers (v * PG_SIZE)

/-- A failed `proc_exec` leaves the processes as they are. Of the pages it mapped
those outside of its areas are lost. -/
structure ExecFailed (k : Symbols) (binaries : List Binary) (path : Bytes) (argv : List Bytes) (s s' : Kmem)
    (own own' : Nat → Option Owner) (p : Proc) (rest : List Proc) : Prop where
  world : World k s' own' (p :: rest)
  effect : Effect OfExecFail (rootsOf (p :: rest)) s s' own own'
  loose : InAreas k binaries path argv p.trapframe s → ∀ pa, own' pa = some .loose → own pa = some .loose
  still : ∀ pa, own pa = some .loose → own' pa = some .loose
  unshared : ∀ new_pt vmas s2, FailedBuild k binaries path argv p.trapframe s new_pt vmas s2 →
    vmas.Pairwise (Unshared s2 new_pt)
  left : ∀ new_pt vmas s2, FailedBuild k binaries path argv p.trapframe s new_pt vmas s2 →
    ∀ v pa w, s2.entry new_pt v = some (pa, w) → (∀ a ∈ vmas, ¬ a.Covers (v * PG_SIZE)) → own' pa = some .loose

theorem ExecFailed.refl {binaries : List Binary} (h : World k s own (p :: rest))
    (hnone : ∀ bin, lookup_binary binaries path = some bin → ¬ IsElf bin.image) :
    ExecFailed k binaries path argv s s own own p rest := by
  have hnot : ∀ new_pt vmas s2, ¬ FailedBuild k binaries path argv p.trapframe s new_pt vmas s2 := by
    rintro _ _ _ ⟨bin, _, hbin, helf, -⟩
    exact hnone bin hbin helf
  exact ⟨h, .refl _ _ s own, fun _ _ => id, fun _ => id, fun _ _ _ hfail => absurd hfail (hnot _ _ _),
    fun _ _ _ hfail => absurd hfail (hnot _ _ _)⟩

/-- The state after the cleanup of a failed build with root `r`. -/
theorem ExecFailed.of_cleaned {binaries : List Binary} {s1 : Kmem} {own1 : Nat → Option Owner} (h : World k s own (p :: rest))
    (hfresh : r ∉ rootsOf (p :: rest)) (hbuild : Effect (OfAreas r) (rootsOf (p :: rest)) s s1 own own1)
    (hclean : Cleaned s1 s' own1 own' r (rootsOf (p :: rest)) vmas (areasOf (p :: rest)) ((p :: rest).map Proc.addr))
    (hin : InAreas k binaries path argv p.trapframe s →
      ∀ v pa w, s1.entry r v = some (pa, w) → ∃ a ∈ vmas, a.Covers (v * PG_SIZE))
    (hrun : ∀ new_pt vmas' s2, FailedBuild k binaries path argv p.trapframe s new_pt vmas' s2 →
      new_pt = r ∧ vmas' = vmas ∧ s2 = s1) :
    ExecFailed k binaries path argv s s' own own' p rest := by
  have heff := (hbuild.mono fun _ => .inl).trans hclean.effect
  have htable : ∀ q ∈ p :: rest, q.pagetable ≠ 0 → ∀ path, ¬ (OfAreas r (.table q.pagetable path) ∨
      Owner.table q.pagetable path = .loose) := by
    rintro q hq hq0 path (ho | ho)
    · refine ofAreas_not_table ?_ path ho
      rintro rfl
      exact hfresh (root_mem hq hq0)
    · cases ho
  have hloose : ¬ OfAreas r .loose := by
    rintro ((⟨_, heq⟩ | ⟨_, heq⟩) | heq) <;> cases heq
  refine ⟨h.frame hclean.memory heff.touches ?_ ?_ htable, ⟨heff.touches.confine ?_ ?_ ?_, ?_⟩, fun hareas pa hpa => ?_,
    fun pa hpa => hclean.still pa ((hbuild.touches.owner pa _ hloose).mpr hpa), fun new_pt vmas' s2 hfail => ?_,
    fun new_pt vmas' s2 hfail v pa w he hout => ?_⟩
  · rintro a (ho | ho)
    · exact (ofAreas_not_own r a).1 ho
    · cases ho
  · rintro a (ho | ho)
    · exact (ofAreas_not_own r a).2 ho
    · cases ho
  · rintro c ((ho | ho) | ho)
    · exact absurd ho (inSpace_not_slab r c)
    · exact .inr (.inl ho)
    · cases ho
  · rintro pa o hpa (((⟨path, rfl⟩ | ho) | ho) | ho)
    · exact absurd (h.memory.spaces.rooted pa r path hpa) hfresh
    · exact .inl ho
    · exact .inr (.inl ho)
    · exact .inr (.inr ho)
  · rintro pa o hpa (((⟨path, rfl⟩ | ho) | ho) | ho)
    · exact absurd hpa (hclean.tables pa path)
    · exact .inl ho
    · exact .inr (.inl ho)
    · exact .inr (.inr ho)
  · intro r hr _
    obtain ⟨hr0, q, hq, rfl⟩ := mem_rootsOf.mp hr
    exact heff.views _ hr (htable q hq hr0)
  · rcases hclean.loose pa hpa with hold | ⟨v, w, he⟩
    · exact (hbuild.touches.owner pa _ hloose).mp hold
    · rw [hclean.gone v pa w he (hin hareas v pa w he)] at hpa
      cases hpa
  · obtain ⟨rfl, rfl, rfl⟩ := hrun new_pt vmas' s2 hfail
    exact hclean.unshared
  · obtain ⟨rfl, rfl, rfl⟩ := hrun new_pt vmas' s2 hfail
    exact hclean.left v pa w he hout

/-- The panics that `proc_exec` can run into when segments overlap. -/
def ExecPanics (E : Halt → Prop) : Prop :=
  E (.panic "walk: va >= MAX_VA") ∧ E (.panic "map_pages: double-map va=%p") ∧ E (.panic "page_put: refcount already 0")

theorem execImage_spec {binaries : List Binary} (h : World k s own (p :: rest)) (htf : p.trapframe ≠ 0)
    (hold : ∀ a ∈ p.vma_list, MAX_VA ≤ a.start → a.start < a.end_ → E (.panic "walk: va >= MAX_VA"))
    (hbad : ∀ bin, lookup_binary binaries path = some bin → ¬ SegmentsApart (segments bin.image) → ExecPanics E) :
    wpe E (execImage k binaries p path argv) (fun res s' => ∃ own',
      (res.1 < 0 ∧ res.2 = p ∧ ExecFailed k binaries path argv s s' own own' p rest) ∨
      ∃ bin, lookup_binary binaries path = some bin ∧ IsElf bin.image ∧ res.1 = argv.length ∧
        Execed k bin.image argv path s s' own own' p res.2 rest) s := by
  have hnoent : -ENOENT < 0 := by decide
  have hnomem : -ENOMEM < 0 := by decide
  unfold execImage
  cases hbin : lookup_binary binaries path with
  | none => exact ⟨own, .inl ⟨hnoent, rfl, .refl h (by simp [hbin])⟩⟩
  | some bin =>
    simp only [wpe_ite, wpe_bind, wpe_pure, hnoent, hnomem, true_and]
    refine ⟨fun helf => ⟨own, .inl (.refl h fun bin' hbin' => ?_)⟩, fun helf => ?_⟩
    · rw [hbin] at hbin'
      cases hbin'
      exact helf
    have hrange := h.memory.spaces.pages.range_of ((h.proc p (by simp)).trapframe htf)
    have hlt : p.trapframe < 2 ^ 56 := by
      simp only [PHYS_STOP] at hrange
      omega
    refine wpe_mono (proc_pagetable_spec h.memory.spaces hrange.1 hlt).wpe.run ?_
    rintro root s1 ⟨hrun1, ⟨rfl, hsp1, ht1⟩ | ⟨hroot, hfree, hfresh, own1, hsp1, ht1, haddr⟩⟩
    · have hnot : ∀ new_pt vmas s2, ¬ FailedBuild k binaries path argv p.trapframe s new_pt vmas s2 := by
        rintro _ _ _ ⟨_, _, -, -, hrun, hne, -⟩
        rw [hrun1] at hrun
        cases hrun
        exact hne rfl
      refine ⟨fun _ => ⟨own, .inl ?_⟩, fun hne => absurd rfl hne⟩
      refine ⟨h.frame ⟨hsp1, h.memory.objects.frame ht1 fun _ => not_false⟩ ht1 (by simp) (by simp) (by simp), ?_, fun _ _ => id,
        fun _ => id, fun _ _ _ hfail => absurd hfail (hnot _ _ _), fun _ _ _ hfail => absurd hfail (hnot _ _ _)⟩
      exact (h.memory.spaces.effect_of_touches ht1 (by simp)).mono fun _ => False.elim
    refine ⟨fun hz => absurd hz hroot, fun _ => ?_⟩
    have hmem1 : KernelMemory s1 own1 (root :: rootsOf (p :: rest)) (areasOf (p :: rest)) ((p :: rest).map Proc.addr) :=
      ⟨hsp1, h.memory.objects.frame ht1 (isTable_not_slab root)⟩
    have heff1 : Effect (OfAreas root) (rootsOf (p :: rest)) s s1 own own1 := by
      refine (h.memory.spaces.effect_of_touches ht1 ?_).mono fun o ho => .inl (.inl ho)
      rintro _ ⟨_, rfl⟩ ⟨_, heq⟩
      cases heq
    refine wpe_mono (execBuild_spec hmem1 (List.mem_cons_self ..) haddr (fun hs => (hbad bin hbin hs).1)
      fun hs => (hbad bin hbin hs).2.1).run ?_
    rintro res s2 ⟨hrun2, own2, vmas, hpart, hres⟩
    have heff2 := heff1.trans (hpart.effect.sub fun r hr => List.mem_cons_of_mem _ hr)
    rcases res with l | ⟨l, argc, sp⟩
    swap
    · obtain ⟨hl, hprog, hfits, hargc, hsp⟩ := hres
      subst hl hargc hsp
      simp only [wpe_bind, wpe_pure]
      refine wpe_mono (execCommit_spec h htf hroot hpart.memory heff2 hprog hfits hold) ?_
      rintro p' s3 ⟨own3, hexec⟩
      exact ⟨own3, .inr ⟨bin, rfl, not_not.mp helf, trivial, hexec⟩⟩
    · obtain rfl := hres
      simp only [wpe_bind, wpe_pure]
      have hlow : ∀ a ∈ l, MAX_VA ≤ a.start → a.start < a.end_ → E (.panic "walk: va >= MAX_VA") := by
        intro a ha hge hpos
        have hle := hpart.low a ha hpos
        simp only [TRAPFRAME, TRAMPOLINE, MAX_VA, PG_SIZE] at *
        omega
      refine wpe_mono (execFail_spec hpart.memory hpart.alone hpart.areas hlow fun hover =>
        (hbad bin hbin fun hs => hover (hpart.apart hs)).2.2) ?_
      rintro _ s3 ⟨own3, hclean⟩
      have hrun : ∀ new_pt vmas' s2', FailedBuild k binaries path argv p.trapframe s new_pt vmas' s2' →
          new_pt = root ∧ vmas' = l ∧ s2' = s2 := by
        rintro new_pt vmas' s2' ⟨bin', s1', hbin', -, hrun1', -, hrun2'⟩
        rw [hbin] at hbin'
        cases hbin'
        rw [hrun1] at hrun1'
        cases hrun1'
        rw [hrun2] at hrun2'
        cases hrun2'
        exact ⟨rfl, rfl, rfl⟩
      refine ⟨own3, .inl ⟨by decide, trivial, .of_cleaned h hfresh heff2 hclean (fun hin v pa w he => ?_) hrun⟩⟩
      obtain ⟨hv, hvalid, -⟩ := entry_some he
      exact hin root l s2 ⟨bin, s1, hbin, not_not.mp helf, hrun1, hroot, hrun2⟩ v hv hvalid

/-- The process after the first statements of `proc_exec`, which give a kernel thread
a trapframe. -/
structure Framed (k : Symbols) (s s' : Kmem) (own own' : Nat → Option Owner) (p : Proc) (rest : List Proc) (tf : Nat) :
    Prop where
  world : World k s' own' ({ p with trapframe := tf } :: rest)
  effect : Effect (· = .trapframe p.addr) (rootsOf (p :: rest)) s s' own own'
  ne_zero : tf ≠ 0
  same : p.trapframe ≠ 0 → tf = p.trapframe ∧ s' = s ∧ own' = own
  fresh : p.trapframe = 0 → ∃ s0, kalloc s = .ok (tf, s0) ∧ s' = { s0 with mem := s0.mem.memset tf 0 PG_SIZE }

theorem proc_exec_spec {binaries : List Binary} (h : World k s own (p :: rest))
    (hold : ∀ a ∈ p.vma_list, MAX_VA ≤ a.start → a.start < a.end_ → E (.panic "walk: va >= MAX_VA"))
    (hbad : ∀ bin, lookup_binary binaries path = some bin → ¬ SegmentsApart (segments bin.image) → ExecPanics E) :
    wpe E (proc_exec k binaries p path argv) (fun res s' =>
      (res = (-ENOMEM, p) ∧ s' = s ∧ p.trapframe = 0 ∧ kalloc s = .ok (0, s)) ∨
      ∃ tf s1 own1 own', Framed k s s1 own own1 p rest tf ∧
        ((res.1 < 0 ∧ res.2 = { p with trapframe := tf } ∧
          ExecFailed k binaries path argv s1 s' own1 own' { p with trapframe := tf } rest) ∨
        ∃ bin, lookup_binary binaries path = some bin ∧ IsElf bin.image ∧ res.1 = argv.length ∧
          Execed k bin.image argv path s1 s' own1 own' { p with trapframe := tf } res.2 rest)) s := by
  simp only [proc_exec, wpe_ite, wpe_bind, wpe_modify, wpe_pure]
  refine ⟨fun hz => ?_, fun htf => ?_⟩
  · refine wpe_mono h.memory.spaces.pages.kalloc_spec.wpe.run ?_
    rintro tf s1 ⟨hrun, ⟨rfl, rfl, -⟩ | hf⟩
    · exact ⟨fun _ => .inl ⟨trivial, rfl, hz, hrun⟩, fun hne => absurd rfl hne⟩
    refine ⟨fun hz => absurd hz hf.ne_zero, fun _ => ?_⟩
    have hheld : Held 0 s { s1 with mem := s1.mem.memset tf 0 PG_SIZE } own tf :=
      hf.toHeld.write fun x hx => Mem.memset_of_outside _ _ (by omega)
    obtain ⟨h1, ht1⟩ := h.addTrapframe hz hheld
    have heff1 : Effect (· = .trapframe p.addr) (rootsOf (p :: rest)) s _ own _ :=
      h.memory.spaces.effect_of_touches ht1 (by rintro _ rfl ⟨_, heq⟩; cases heq)
    refine wpe_mono (execImage_spec h1 hf.ne_zero hold hbad) ?_
    rintro res s2 ⟨own2, hres⟩
    exact .inr ⟨tf, _, _, own2, ⟨h1, heff1, hf.ne_zero, fun hne => absurd hz hne, fun _ => ⟨s1, hrun, rfl⟩⟩, hres⟩
  · refine wpe_mono (execImage_spec h htf hold hbad) ?_
    rintro res s2 ⟨own2, hres⟩
    exact .inr ⟨p.trapframe, s, own, own2, ⟨h, .refl _ _ s own, htf, fun _ => ⟨rfl, rfl, rfl⟩, fun hz => absurd hz htf⟩, hres⟩

end Vm

end bobchouos
