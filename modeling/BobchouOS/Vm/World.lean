import BobchouOS.Vm.Unmap

open lib

namespace bobchouos

namespace Vm

/-- The roots of the address spaces of processes. -/
def rootsOf (procs : List Proc) : List Nat := (procs.map Proc.pagetable).filter fun r => r ≠ 0

/-- The areas of processes, by address. -/
def areasOf (procs : List Proc) : List Nat := procs.flatMap fun p => p.vma_list.map Vma.addr

/-- A heap does not end before it starts, unless it is out of reach of `walk`. -/
def HeapOk (vmas : List Vma) : Prop :=
  ∀ a ∈ vmas, a.flags &&& VMA_HEAP ≠ 0 → a.start ≤ a.end_ ∨ MAX_VA ≤ a.start

/-- The memory of a process. One without an address space is a kernel thread. -/
structure ProcSpace (k : Symbols) (s : Kmem) (p : Proc) : Prop where
  user : p.pagetable ≠ 0 → p.trapframe ≠ 0 ∧ AddrSpace k s p.pagetable p.trapframe p.vma_list
  kernel : p.pagetable = 0 → p.vma_list = []
  heap : HeapOk p.vma_list

/-- What a process owns. -/
structure ProcOk (k : Symbols) (s : Kmem) (own : Nat → Option Owner) (p : Proc) : Prop extends ProcSpace k s p where
  kstack : own p.kstack = some (.kstack p.addr)
  trapframe : p.trapframe ≠ 0 → own p.trapframe = some (.trapframe p.addr)

/-- All memory of the given processes, and no kernel stack or trapframe of any
other process. -/
structure World (k : Symbols) (s : Kmem) (own : Nat → Option Owner) (procs : List Proc) : Prop where
  memory : KernelMemory s own (rootsOf procs) (areasOf procs) (procs.map Proc.addr)
  proc : ∀ p ∈ procs, ProcOk k s own p
  kstack : ∀ pa a, own pa = some (.kstack a) → ∃ p ∈ procs, p.addr = a ∧ p.kstack = pa
  trapframe : ∀ pa a, own pa = some (.trapframe a) → ∃ p ∈ procs, p.addr = a ∧ p.trapframe = pa

variable {k : Symbols} {s s' : Kmem} {own own' : Nat → Option Owner} {procs procs' rest : List Proc} {p p' q : Proc}
  {T : Owner → Prop} {r : Nat}

@[simp] theorem areasOf_cons (p : Proc) (rest : List Proc) :
    areasOf (p :: rest) = p.vma_list.map Vma.addr ++ areasOf rest := List.flatMap_cons

theorem rootsOf_user (hp : p.pagetable ≠ 0) (rest : List Proc) : rootsOf (p :: rest) = p.pagetable :: rootsOf rest := by
  simp [rootsOf, hp]

theorem rootsOf_kernel (hp : p.pagetable = 0) (rest : List Proc) : rootsOf (p :: rest) = rootsOf rest := by
  simp [rootsOf, hp]

theorem mem_rootsOf : r ∈ rootsOf procs ↔ r ≠ 0 ∧ ∃ p ∈ procs, p.pagetable = r := by
  simp only [rootsOf, List.mem_filter, List.mem_map, decide_eq_true_eq]
  exact and_comm

theorem root_mem (hp : p ∈ procs) (hne : p.pagetable ≠ 0) : p.pagetable ∈ rootsOf procs := mem_rootsOf.mpr ⟨hne, p, hp, rfl⟩

/-- The order of the address spaces does not matter. -/
theorem spaces_perm {roots roots' : List Nat} (h : Spaces s own roots) (hperm : roots.Perm roots') : Spaces s own roots' :=
  ⟨⟨h.pages, fun r hr => h.tables r (hperm.mem_iff.mpr hr), fun pa r path hpa => hperm.mem_iff.mp (h.rooted pa r path hpa),
    h.single, h.small⟩, h.sharing.perm hperm⟩

theorem ProcOk.frame {roots : List Nat} (h : ProcOk k s own q) (htab : PageTables s own roots)
    (hr : q.pagetable ≠ 0 → q.pagetable ∈ roots) (ht : Touches T s s' own own') (hkstack : ¬ T (.kstack q.addr))
    (htrapframe : ¬ T (.trapframe q.addr)) (hT : q.pagetable ≠ 0 → ∀ path, ¬ T (.table q.pagetable path)) :
    ProcOk k s' own' q := by
  refine ⟨⟨fun hne => ?_, h.kernel, h.heap⟩, (ht.owner _ _ hkstack).mpr h.kstack,
    fun hne => (ht.owner _ _ htrapframe).mpr (h.trapframe hne)⟩
  refine ⟨(h.user hne).1, (h.user hne).2.congr fun v _ => ?_⟩
  rw [htab.leafPte_frame ht (hT hne) (hr hne)]

section fields

variable {l : List (Nat × Nat)} {f : Nat × Nat}

/-- Setting fields writes inside the trapframe. -/
theorem setFields_mem (trapframe : Nat) (s : Kmem) (hl : ∀ f ∈ l, f.1 + 8 ≤ PG_SIZE) :
    ∃ m, l.foldl (fun s f => setField trapframe f.1 f.2 s) s = { s with mem := m } ∧
      ∀ x, ¬ (trapframe ≤ x ∧ x < trapframe + PG_SIZE) → m x = s.mem x := by
  induction l generalizing s with
  | nil => exact ⟨s.mem, rfl, fun _ _ => rfl⟩
  | cons f l ih =>
    obtain ⟨m, heq, hm⟩ := ih (setField trapframe f.1 f.2 s) fun g hg => hl g (by simp [hg])
    refine ⟨m, heq, fun x hx => (hm x hx).trans ?_⟩
    have hf := hl f (by simp)
    exact Mem.storeWord_of_outside _ _ (by omega)

/-- The other fields stay as they are. -/
theorem setFields_keep (trapframe : Nat) (s : Kmem) {o : Nat} (hl : ∀ f ∈ l, f.1 + 8 ≤ o ∨ o + 8 ≤ f.1) :
    (l.foldl (fun s f => setField trapframe f.1 f.2 s) s).mem.loadWord (trapframe + o) =
      s.mem.loadWord (trapframe + o) := by
  induction l generalizing s with
  | nil => rfl
  | cons f l ih =>
    have hf := hl f (by simp)
    exact (ih (setField trapframe f.1 f.2 s) fun g hg => hl g (by simp [hg])).trans
      (Mem.loadWord_storeWord_of_disjoint _ _ (by omega))

theorem setFields_load (trapframe : Nat) (s : Kmem) (hl : l.Pairwise fun f g => f.1 + 8 ≤ g.1 ∨ g.1 + 8 ≤ f.1)
    (hf : f ∈ l) : (l.foldl (fun s f => setField trapframe f.1 f.2 s) s).mem.loadWord (trapframe + f.1) =
      BitVec.ofNat 64 f.2 := by
  induction l generalizing s with
  | nil => cases hf
  | cons g l ih =>
    obtain ⟨hg, hl⟩ := List.pairwise_cons.mp hl
    rcases List.mem_cons.mp hf with rfl | hf
    · refine (setFields_keep trapframe (setField trapframe f.1 f.2 s) fun g hg' => ?_).trans
        (Mem.loadWord_storeWord _ _ _)
      have hor := hg g hg'
      omega
    · exact ih (setField trapframe g.1 g.2 s) hl hf

end fields

namespace World

theorem perm (h : World k s own procs) (hperm : procs.Perm procs') : World k s own procs' := by
  have hroots : (rootsOf procs).Perm (rootsOf procs') := (hperm.map _).filter _
  have hareas : (areasOf procs).Perm (areasOf procs') := hperm.flatMap_right _
  refine ⟨⟨spaces_perm h.memory.spaces hroots, h.memory.objects.perm hareas (hperm.map _)⟩,
    fun p hp => h.proc p (hperm.mem_iff.mpr hp), fun pa a hpa => ?_, fun pa a hpa => ?_⟩
  · obtain ⟨p, hp, hrest⟩ := h.kstack pa a hpa
    exact ⟨p, hperm.mem_iff.mp hp, hrest⟩
  · obtain ⟨p, hp, hrest⟩ := h.trapframe pa a hpa
    exact ⟨p, hperm.mem_iff.mp hp, hrest⟩

/-- Processes have their own addresses and address spaces. -/
theorem head_ne (h : World k s own (p :: rest)) (hq : q ∈ rest) :
    q.addr ≠ p.addr ∧ (q.pagetable ≠ 0 → q.pagetable ≠ p.pagetable) := by
  constructor
  · have hnodup := (List.nodup_append.mp h.memory.objects.slabs.nodup).2.1
    rw [List.map_cons, List.nodup_cons] at hnodup
    intro heq
    exact hnodup.1 (heq ▸ List.mem_map_of_mem hq)
  · intro hne heq
    have hnodup := h.memory.spaces.sharing.nodup
    rw [rootsOf_user (heq ▸ hne), List.nodup_cons] at hnodup
    exact hnodup.1 (heq ▸ root_mem hq hne)

/-- The other processes after a step that is confined to one of them. -/
theorem frame_rest (h : World k s own (p :: rest)) (ht : Touches T s s' own own')
    (hkstack : ∀ a, T (.kstack a) → a = p.addr) (htrapframe : ∀ a, T (.trapframe a) → a = p.addr)
    (hT : ∀ q ∈ rest, q.pagetable ≠ 0 → ∀ path, ¬ T (.table q.pagetable path)) : ∀ q ∈ rest, ProcOk k s' own' q := by
  intro q hq
  have hne := h.head_ne hq
  exact (h.proc q (by simp [hq])).frame h.memory.spaces.toPageTables (root_mem (by simp [hq])) ht
    (fun hTk => hne.1 (hkstack _ hTk)) (fun hTt => hne.1 (htrapframe _ hTt)) (hT q hq)

/-- A step that leaves every process as it is. -/
theorem frame (h : World k s own procs)
    (hmem : KernelMemory s' own' (rootsOf procs) (areasOf procs) (procs.map Proc.addr)) (ht : Touches T s s' own own')
    (hkstack : ∀ a, ¬ T (.kstack a)) (htrapframe : ∀ a, ¬ T (.trapframe a))
    (hT : ∀ q ∈ procs, q.pagetable ≠ 0 → ∀ path, ¬ T (.table q.pagetable path)) : World k s' own' procs := by
  refine ⟨hmem, fun q hq => ?_, fun pa a hpa => ?_, fun pa a hpa => ?_⟩
  · exact (h.proc q hq).frame h.memory.spaces.toPageTables (root_mem hq) ht (hkstack _) (htrapframe _) (hT q hq)
  · exact h.kstack pa a ((ht.owner _ _ (hkstack a)).mp hpa)
  · exact h.trapframe pa a ((ht.owner _ _ (htrapframe a)).mp hpa)

/-- One process changes, with the same kernel stack and trapframe. -/
theorem replace (h : World k s own (p :: rest))
    (hmem : KernelMemory s' own' (rootsOf (p' :: rest)) (areasOf (p' :: rest)) ((p' :: rest).map Proc.addr))
    (ht : Touches T s s' own own') (hkstack : ∀ a, ¬ T (.kstack a)) (htrapframe : ∀ a, ¬ T (.trapframe a))
    (hT : ∀ q ∈ rest, q.pagetable ≠ 0 → ∀ path, ¬ T (.table q.pagetable path)) (haddr : p'.addr = p.addr)
    (hsame : p'.kstack = p.kstack) (hframe : p'.trapframe = p.trapframe)
    (hspace : ProcSpace k s' p') : World k s' own' (p' :: rest) := by
  have hp := h.proc p (by simp)
  refine ⟨hmem, fun q hq => ?_, fun pa a hpa => ?_, fun pa a hpa => ?_⟩
  · rcases List.mem_cons.mp hq with rfl | hq
    · refine ⟨hspace, (ht.owner _ _ (hkstack _)).mpr ?_, fun hne => (ht.owner _ _ (htrapframe _)).mpr ?_⟩
      · rw [haddr, hsame]
        exact hp.kstack
      · rw [haddr, hframe]
        exact hp.trapframe (hframe ▸ hne)
    · exact h.frame_rest ht (fun a ha => absurd ha (hkstack a)) (fun a ha => absurd ha (htrapframe a)) hT q hq
  · obtain ⟨q, hq, hqa, hqk⟩ := h.kstack pa a ((ht.owner _ _ (hkstack a)).mp hpa)
    rcases List.mem_cons.mp hq with rfl | hq
    · exact ⟨p', by simp, haddr.trans hqa, hsame.trans hqk⟩
    · exact ⟨q, by simp [hq], hqa, hqk⟩
  · obtain ⟨q, hq, hqa, hqk⟩ := h.trapframe pa a ((ht.owner _ _ (htrapframe a)).mp hpa)
    rcases List.mem_cons.mp hq with rfl | hq
    · exact ⟨p', by simp, haddr.trans hqa, hframe.trans hqk⟩
    · exact ⟨q, by simp [hq], hqa, hqk⟩

/-- A step inside the address space of one process, which keeps its areas by
address. -/
theorem inSpace (h : World k s own (p :: rest)) (hp : p.pagetable ≠ 0) (hspaces : Spaces s' own' (rootsOf (p :: rest)))
    (ht : Touches (Owner.InSpace p.pagetable) s s' own own') (haddr : p'.addr = p.addr) (hsame : p'.kstack = p.kstack)
    (hframe : p'.trapframe = p.trapframe) (hroot : p'.pagetable = p.pagetable)
    (hvmas : p'.vma_list.map Vma.addr = p.vma_list.map Vma.addr) (hspace : ProcSpace k s' p') :
    World k s' own' (p' :: rest) := by
  refine h.replace ⟨?_, ?_⟩ ht ?_ ?_ ?_ haddr hsame hframe hspace
  · rwa [rootsOf_user (hroot ▸ hp), hroot, ← rootsOf_user hp]
  · rw [areasOf_cons, hvmas, List.map_cons, haddr, ← List.map_cons, ← areasOf_cons]
    exact h.memory.objects.frame ht (inSpace_not_slab p.pagetable)
  · rintro a (⟨_, heq⟩ | ⟨_, heq⟩) <;> cases heq
  · rintro a (⟨_, heq⟩ | ⟨_, heq⟩) <;> cases heq
  · rintro q hq hne path (⟨_, heq⟩ | ⟨_, heq⟩)
    · exact (h.head_ne hq).2 hne (Owner.table.inj heq).1
    · cases heq

/-- Memory in the trapframe of a process can be written. -/
theorem setMem {m : Mem} (h : World k s own (p :: rest)) (hp : p.trapframe ≠ 0)
    (hm : ∀ x, ¬ (p.trapframe ≤ x ∧ x < p.trapframe + PG_SIZE) → m x = s.mem x) :
    World k { s with mem := m } own (p :: rest) ∧
      Effect (· = .trapframe p.addr) (rootsOf (p :: rest)) s { s with mem := m } own own := by
  have howner := (h.proc p (by simp)).trapframe hp
  have ht : Touches (· = .trapframe p.addr) s { s with mem := m } own own :=
    .write h.memory.spaces.pages fun x hx => hm x (hx p.trapframe _ howner rfl)
  have hpages : Pages { s with mem := m } own :=
    h.memory.spaces.pages.write fun x hx => hm x (hx p.trapframe (by simp [howner]))
  have hspaces : Spaces { s with mem := m } own (rootsOf (p :: rest)) := by
    refine h.memory.spaces.frame hpages ht ?_ ?_ ?_
    · rintro _ rfl
      refine ⟨?_, ?_⟩
      · rintro r ⟨_, heq⟩
        cases heq
      · rintro ⟨_, heq⟩
        cases heq
    · rintro _ rfl
      rfl
    · rintro pa _ rfl hpa hsingle
      exact h.memory.spaces.single pa _ hpa hsingle
  refine ⟨⟨⟨hspaces, h.memory.objects.frame ht (by simp)⟩, fun q hq => ?_, h.kstack, h.trapframe⟩,
    h.memory.spaces.effect_of_touches ht ?_⟩
  · have hq' := h.proc q hq
    refine ⟨⟨fun hne => ⟨(hq'.user hne).1, (hq'.user hne).2.congr fun v _ => ?_⟩, hq'.kernel, hq'.heap⟩, hq'.kstack,
      hq'.trapframe⟩
    rw [h.memory.spaces.toPageTables.leafPte_frame ht (by simp) (root_mem hq hne)]
  · rintro _ rfl ⟨_, heq⟩
    cases heq

theorem area_inj (h : World k s own (p :: rest)) {a b : Vma} (ha : a ∈ p.vma_list) (hb : b ∈ p.vma_list)
    (heq : a.addr = b.addr) : a = b := by
  have hnodup := (List.nodup_append.mp h.memory.objects.slabs.nodup).1
  rw [areasOf_cons] at hnodup
  exact List.inj_on_of_nodup_map (List.nodup_append.mp hnodup).1 ha hb heq

end World

end Vm

end bobchouos
