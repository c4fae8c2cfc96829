import BobchouOS.Kmalloc.Objects
import BobchouOS.Vm.Fault

open lib

namespace bobchouos

namespace Vm

/-- The size classes of `struct vma` and `struct proc`. -/
def VMA_CLASS : Nat := 1
def PROC_CLASS : Nat := 4

/-- The areas and processes in use, by address. -/
structure Objects (s : Kmem) (own : Nat → Option Owner) (vmas procs : List Nat) : Prop where
  slabs : Slabs s own (vmas ++ procs)
  vma : ∀ x ∈ vmas, InClass own VMA_CLASS x
  proc : ∀ x ∈ procs, InClass own PROC_CLASS x

/-- The memory of the kernel: address spaces, and the objects it keeps about them. -/
structure KernelMemory (s : Kmem) (own : Nat → Option Owner) (roots vmas procs : List Nat) : Prop where
  spaces : Spaces s own roots
  objects : Objects s own vmas procs

variable {T : Owner → Prop} {s s' : Kmem} {own own' : Nat → Option Owner} {roots vmas vmas' procs procs' : List Nat}
  {c x : Nat}

namespace Objects

theorem frame (h : Objects s own vmas procs) (ht : Touches T s s' own own') (hT : ∀ c, ¬ T (.slab c)) :
    Objects s' own' vmas procs :=
  ⟨h.slabs.frame ht hT, fun x hx => (h.vma x hx).frame ht (hT _), fun x hx => (h.proc x hx).frame ht (hT _)⟩

theorem perm (h : Objects s own vmas procs) (hvmas : vmas.Perm vmas') (hprocs : procs.Perm procs') :
    Objects s own vmas' procs' :=
  ⟨h.slabs.perm (hvmas.append hprocs), fun x hx => h.vma x (hvmas.mem_iff.mpr hx),
    fun x hx => h.proc x (hprocs.mem_iff.mpr hx)⟩

/-- The objects after a call of the slab allocator. -/
theorem slabStep (h : Objects s own vmas procs) (hp : Pages s own) (hstep : SlabStep c s s' own own' (vmas' ++ procs'))
    (hvma : ∀ x ∈ vmas', InClass own' VMA_CLASS x ∨ x ∈ vmas) (hproc : ∀ x ∈ procs', InClass own' PROC_CLASS x ∨ x ∈ procs) :
    Objects s' own' vmas' procs' := by
  refine ⟨hstep.slabs, fun x hx => ?_, fun x hx => ?_⟩
  · exact (hvma x hx).elim id fun hold => hstep.inClass hp h.slabs (h.vma x hold) (List.mem_append_left _ hx)
  · exact (hproc x hx).elim id fun hold => hstep.inClass hp h.slabs (h.proc x hold) (List.mem_append_right _ hx)

theorem kmfree_class (h : Objects s own vmas procs) (hp : Pages s own) (hx : x ∈ vmas ++ procs)
    (hclass : InClass own c x) :
    wp (kmfree x) (fun _ s' => ∃ own', SlabStep c s s' own own' ((vmas ++ procs).erase x) ∧
      ∀ q, own q = none → own' q = none) s := by
  refine wp_mono (kmfree_spec hp h.slabs hx) ?_
  rintro _ s' ⟨own', c', pg, hpg, hslot, hstep⟩
  cases InClass.unique hp h.slabs ⟨pg, hpg, hslot⟩ hclass
  exact ⟨own', hstep⟩

theorem kmfree_vma_spec (h : Objects s own (x :: vmas) procs) (hp : Pages s own) :
    wp (kmfree x) (fun _ s' => ∃ own', Pages s' own' ∧ Objects s' own' vmas procs ∧
      Touches (· = .slab VMA_CLASS) s s' own own' ∧ ∀ q, own q = none → own' q = none) s := by
  refine wp_mono (h.kmfree_class hp (by simp) (h.vma x (by simp))) ?_
  rintro _ s' ⟨own', hstep, hnone⟩
  rw [List.cons_append, List.erase_cons_head] at hstep
  exact ⟨own', hstep.pages,
    h.slabStep hp hstep (fun y hy => .inr (List.mem_cons_of_mem _ hy)) fun y hy => .inr hy, hstep.touches, hnone⟩

end Objects

namespace KernelMemory

theorem perm (h : KernelMemory s own roots vmas procs) (hvmas : vmas.Perm vmas') (hprocs : procs.Perm procs') :
    KernelMemory s own roots vmas' procs' := ⟨h.spaces, h.objects.perm hvmas hprocs⟩

/-- A call of the slab allocator leaves the address spaces as they are. -/
theorem slabStep (h : KernelMemory s own roots vmas procs) (hstep : SlabStep c s s' own own' (vmas' ++ procs'))
    (hvma : ∀ x ∈ vmas', InClass own' VMA_CLASS x ∨ x ∈ vmas) (hproc : ∀ x ∈ procs', InClass own' PROC_CLASS x ∨ x ∈ procs) :
    KernelMemory s' own' roots vmas' procs' :=
  ⟨h.spaces.slab hstep.pages hstep.isSlab, h.objects.slabStep h.spaces.pages hstep hvma hproc⟩

theorem effect_slab (h : KernelMemory s own roots vmas procs) (ht : Touches (· = .slab c) s s' own own') :
    Effect (· = .slab c) roots s s' own own' := by
  apply h.spaces.effect_of_touches ht
  rintro _ rfl ⟨v, heq⟩
  cases heq

/-- `kmalloc` of an object whose size class is known. -/
theorem kmalloc_spec {size : Nat} (h : KernelMemory s own roots vmas procs) (hpos : 0 < size) (hsize : size ≤ MAX_SLAB_SIZE)
    (hclass : ((List.range NR_SIZE_CLASSES).find? fun c => size ≤ slotSize c) = some c) :
    wp (kmalloc size) (fun x s' => (x = 0 ∧ s' = s ∧ Exhausted s) ∨
      x ≠ 0 ∧ ∃ own', InClass own' c x ∧ SlabStep c s s' own own' (x :: (vmas ++ procs))) s := by
  refine wp_mono (bobchouos.kmalloc_spec h.spaces.pages h.objects.slabs hpos hsize) ?_
  rintro x s' (hfail | ⟨hne, -, own', c', pg, hsize', -, hpg, hslot, hstep⟩)
  · exact .inl hfail
  rw [h.objects.slabs.size_to_class, hclass] at hsize'
  cases hsize'
  exact .inr ⟨hne, own', ⟨pg, hpg, hslot⟩, hstep⟩

theorem vma_create_spec (h : KernelMemory s own roots vmas procs) (start end_ perm flags : Nat) :
    wp (vma_create start end_ perm flags) (fun ret s' => (ret = none ∧ s' = s ∧ Exhausted s) ∨
      ∃ x own', ret = some ⟨x, start, end_, perm, flags⟩ ∧ KernelMemory s' own' roots (x :: vmas) procs ∧
        Touches (· = .slab VMA_CLASS) s s' own own') s := by
  simp only [vma_create, wp_bind, wp_ite, wp_pure]
  refine wp_mono (h.kmalloc_spec (c := VMA_CLASS) (by decide) (by decide) (by decide)) ?_
  rintro x s' (⟨rfl, rfl, hex⟩ | ⟨hne, own', hclass, hstep⟩)
  · exact ⟨fun _ => .inl ⟨trivial, rfl, hex⟩, fun hne => absurd rfl hne⟩
  · refine ⟨fun hz => absurd hz hne, fun _ => .inr ⟨x, own', rfl, ?_, hstep.touches⟩⟩
    refine h.slabStep hstep (fun y hy => ?_) fun y hy => .inr hy
    rcases List.mem_cons.mp hy with rfl | hy
    · exact .inl hclass
    · exact .inr hy

/-- `kmalloc` for a new process. -/
theorem kmalloc_proc_spec (h : KernelMemory s own roots vmas procs) :
    wp (kmalloc SIZEOF_PROC) (fun x s' => (x = 0 ∧ s' = s ∧ Exhausted s) ∨
      x ≠ 0 ∧ ∃ own', KernelMemory s' own' roots vmas (x :: procs) ∧
        Touches (· = .slab PROC_CLASS) s s' own own') s := by
  refine wp_mono (h.kmalloc_spec (c := PROC_CLASS) (by decide) (by decide) (by decide)) ?_
  rintro x s' (hfail | ⟨hne, own', hclass, hstep⟩)
  · exact .inl hfail
  · refine .inr ⟨hne, own', h.slabStep (hstep.perm List.perm_middle.symm) (fun y hy => .inr hy) fun y hy => ?_, hstep.touches⟩
    rcases List.mem_cons.mp hy with rfl | hy
    · exact .inl hclass
    · exact .inr hy

theorem kmfree_vma_spec (h : KernelMemory s own roots (x :: vmas) procs) :
    wp (kmfree x) (fun _ s' => ∃ own', KernelMemory s' own' roots vmas procs ∧
      Touches (· = .slab VMA_CLASS) s s' own own') s := by
  refine wp_mono (h.objects.kmfree_vma_spec h.spaces.pages) ?_
  rintro _ s' ⟨own', hp, hobj, ht, -⟩
  exact ⟨own', ⟨h.spaces.slab hp (ht.mono fun _ ho => ⟨_, ho⟩), hobj⟩, ht⟩

theorem kmfree_proc_spec (h : KernelMemory s own roots vmas (x :: procs)) :
    wp (kmfree x) (fun _ s' => ∃ own', KernelMemory s' own' roots vmas procs ∧
      Touches (· = .slab PROC_CLASS) s s' own own') s := by
  refine wp_mono (h.objects.kmfree_class h.spaces.pages (by simp) (h.objects.proc x (by simp))) ?_
  rintro _ s' ⟨own', hstep, -⟩
  have hnot : x ∉ vmas := by
    have hnodup := h.objects.slabs.nodup
    rw [List.nodup_append] at hnodup
    exact fun hx => hnodup.2.2 x hx x (by simp) rfl
  rw [List.erase_append_right _ hnot, List.erase_cons_head] at hstep
  exact ⟨own', h.slabStep hstep (fun y hy => .inr hy) fun y hy => .inr (List.mem_cons_of_mem _ hy), hstep.touches⟩

end KernelMemory

end Vm

end bobchouos
