import BobchouOS.Vm.ArgStack
import BobchouOS.Vm.Dup
import BobchouOS.Vm.Load
import BobchouOS.Vm.Roots

open lib

namespace bobchouos

namespace Vm

/-- The loadable segments of an image. -/
def segments (image : Mem) : List Phdr := loads image (e_phnum image) 0

def USER_RW : Nat := PTE_R ||| PTE_W ||| PTE_U

/-- The memory of a new program: its segments, its arguments, and zeros. -/
structure IsImage (image : Mem) (argv : List Bytes) (f : Nat → BitVec 8) : Prop where
  segment : ∀ ph ∈ segments image, ∀ y, ph.start ≤ y → y < ph.end_ →
    f y = segByte image ph.p_offset ph.p_filesz (y - ph.start)
  args : ArgLayout f argv
  zero : ∀ y, (∀ ph ∈ segments image, ¬ (ph.start ≤ y ∧ y < ph.end_)) → ¬ InArgs argv y → f y = 0

/-- The end of the last segment. -/
def heapStart (image : Mem) : Nat := (segments image).foldl (fun h ph => max h ph.end_) 0

/-- The areas of a new program: those of its segments, a heap without pages, and
the stack. -/
def IsAreas (image : Mem) (vmas : List Vma) : Prop :=
  ∃ segs x y, vmas = segs ++ [⟨x, heapStart image, heapStart image, USER_RW, VMA_HEAP⟩,
      ⟨y, USER_STACK_BOT, USER_STACK_TOP, USER_RW, VMA_STACK⟩] ∧
    List.Forall₂ (fun ph a => a = Phdr.area ph a.addr) (segments image) segs

/-- A new program as the build phase of `proc_exec` leaves it. -/
structure Program (k : Symbols) (image : Mem) (argv : List Bytes) (s : Kmem) (r trapframe : Nat) (vmas : List Vma) :
    Prop where
  space : AddrSpace k s r trapframe vmas
  areas : IsAreas image vmas
  installed : ∀ ph ∈ segments image, Installed image s r ph
  mapped : ∀ v < USER_VPNS, Has (s.leafPte r v) PTE_V →
    (∃ ph ∈ segments image, ph.start ≤ v * PG_SIZE ∧ v * PG_SIZE < ph.end_) ∨ v = stack_page_bot / PG_SIZE
  view : IsImage image argv (s.view r)

variable {E : Halt → Prop} {s s' s'' : Kmem} {own own' own'' : Nat → Option Owner} {roots : List Nat}
  {r v trapframe : Nat} {image : Mem} {k : Symbols} {vmas : List Vma} {others procs : List Nat} {argv : List Bytes}

theorem heapStart_aligned (image : Mem) : heapStart image % PG_SIZE = 0 ∧ heapStart image < 2 ^ 64 := by
  have key : ∀ (phs : List Phdr) (h : Nat), h % PG_SIZE = 0 → h < 2 ^ 64 →
      phs.foldl (fun h ph => max h ph.end_) h % PG_SIZE = 0 ∧ phs.foldl (fun h ph => max h ph.end_) h < 2 ^ 64 := by
    intro phs
    induction phs with
    | nil => exact fun h h0 h1 => ⟨h0, h1⟩
    | cons ph phs ih =>
      intro h h0 h1
      have hend := PG_ROUND_UP_aligned ((ph.p_vaddr + ph.p_memsz) % 2 ^ 64)
      rw [List.foldl_cons]
      apply ih
      · rcases max_choice h ph.end_ with heq | heq <;> rw [heq]
        exacts [h0, hend.1]
      · exact max_lt h1 hend.2
  exact key _ 0 (by decide) (by decide)

/-- Areas that cover no mapped page may be added. -/
theorem addEmptyArea {a : Vma} (h : AddrSpace k s r trapframe vmas) (ha : a.Ok)
    (hleaf : s'.leafPte r = s.leafPte r) : AddrSpace k s' r trapframe (vmas ++ [a]) := by
  refine ⟨by rw [hleaf, h.trampoline_leaf], by rw [hleaf, h.trapframe_leaf], fun v hv hvalid => ?_, fun b hb => ?_⟩
  · rw [hleaf] at hvalid ⊢
    obtain ⟨b, hb, hcov, hagrees⟩ := h.covered v hv hvalid
    exact ⟨b, by simp [hb], hcov, hagrees⟩
  · rcases List.mem_append.mp hb with hb | hb
    · exact h.areas b hb
    · rw [List.mem_singleton.mp hb]
      exact ha

theorem heapArea_ok (image : Mem) (x : Nat) :
    Vma.Ok ⟨x, heapStart image, heapStart image, USER_RW, VMA_HEAP⟩ := by
  have haligned := heapStart_aligned image
  exact ⟨haligned.1, haligned.1, haligned.2, haligned.2, (by decide : USER_RW &&& USER_PERMS = USER_RW),
    (by decide : Has USER_RW PTE_U), fun hlt => absurd hlt (Nat.lt_irrefl _)⟩

theorem stackArea_ok (x : Nat) : Vma.Ok ⟨x, USER_STACK_BOT, USER_STACK_TOP, USER_RW, VMA_STACK⟩ := by
  constructor <;> dsimp only <;> decide

/-- The pages that are mapped after loading segments are theirs. -/
theorem Segments.mapped {phs : List Phdr} {heap_start : Nat}
    (h : Segments k image s r trapframe phs [] vmas 0 heap_start) {v : Nat} (hv : v < USER_VPNS)
    (hvalid : Has (s.leafPte r v) PTE_V) : ∃ ph ∈ phs, ph.start ≤ v * PG_SIZE ∧ v * PG_SIZE < ph.end_ := by
  obtain ⟨a, ha, hcov, -⟩ := h.space.covered v hv hvalid
  obtain ⟨news, hnews, hforall⟩ := h.areas
  rw [hnews, List.nil_append] at ha
  obtain ⟨ph, hph, heq⟩ := forall₂_right hforall ha
  refine ⟨ph, hph, ?_⟩
  rw [heq] at hcov
  exact hcov

/-- The areas of segments that share no pages. -/
theorem Added.pairwise_apart {phs : List Phdr} (h : Added phs [] vmas) (hs : SegmentsApart phs) :
    vmas.Pairwise Apart ∧ ∀ a ∈ vmas, a.start < a.end_ → a.end_ ≤ USER_STACK_BOT := by
  obtain ⟨news, rfl, hforall⟩ := h
  refine ⟨?_, fun a ha => ?_⟩
  · refine pairwise_of_forall₂ hforall (fun ph q a b ha hb hover y ⟨hcov, hcov'⟩ => ?_) hs.1
    rw [ha] at hcov
    rw [hb] at hcov'
    simp only [Vma.Covers, Phdr.area] at hcov hcov'
    omega
  · obtain ⟨ph, hph, heq⟩ := forall₂_right hforall ha
    rw [heq]
    exact hs.2 ph hph

theorem concat_heap_apart {a : Vma} (hpair : vmas.Pairwise Apart) (hempty : a.end_ ≤ a.start) :
    (vmas ++ [a]).Pairwise Apart := by
  refine List.pairwise_append.mpr ⟨hpair, List.pairwise_singleton .., fun b _ c hc y hcov => ?_⟩
  rw [List.mem_singleton.mp hc] at hcov
  have hlo := hcov.2.1
  have hhi := hcov.2.2
  omega

theorem concat_stack_apart {a : Vma} (hpair : vmas.Pairwise Apart)
    (hbelow : ∀ b ∈ vmas, b.start < b.end_ → b.end_ ≤ USER_STACK_BOT) (hstack : USER_STACK_BOT ≤ a.start) :
    (vmas ++ [a]).Pairwise Apart := by
  refine List.pairwise_append.mpr ⟨hpair, List.pairwise_singleton .., fun b hb c hc y hcov => ?_⟩
  rw [List.mem_singleton.mp hc] at hcov
  have hlo := hcov.1.1
  have hhi := hcov.1.2
  have hle := hbelow b hb (by omega)
  have hge := hcov.2.1
  omega

/-- Pushing the arguments onto the stack page of a new program. -/
theorem pushArgv_build {stack : Nat} (h : KernelMemory s own roots (vmas.map Vma.addr ++ others) procs) (hr : r ∈ roots)
    (he : s.entry r (stack_page_bot / PG_SIZE) = some (stack, true)) :
    wp (pushArgv stack argv) (fun res s' => KernelMemory s' own roots (vmas.map Vma.addr ++ others) procs ∧
      Effect (OfAreas r) roots s s' own own ∧ (Private s r → Private s' r) ∧ s'.leafPte r = s.leafPte r ∧
      (∀ y, y / PG_SIZE ≠ stack_page_bot / PG_SIZE → s'.view r y = s.view r y) ∧ match res with
      | none => ¬ ArgsFit argv
      | some (argc, sp) => ArgsFit argv ∧ argc = argv.length ∧ sp = argSp argv ∧ ArgLayout (s'.view r) argv ∧
          ∀ y, y / PG_SIZE = stack_page_bot / PG_SIZE → ¬ InArgs argv y → s'.view r y = s.view r y) s := by
  have htop : USER_STACK_TOP = stack_page_bot + PG_SIZE := by decide
  have hwindow : ∀ y, stack_page_bot ≤ y → y < USER_STACK_TOP →
      y / PG_SIZE = stack_page_bot / PG_SIZE ∧ y % PG_SIZE = y - stack_page_bot := by
    intro y hlo hhi
    simp only [stack_page_bot, USER_STACK_TOP, TRAPFRAME, TRAMPOLINE, MAX_VA, PG_SIZE] at *
    omega
  refine wp_mono pushArgv_spec ?_
  rintro res s1 ⟨⟨⟨m, rfl⟩, hframe⟩, hres⟩
  obtain ⟨hsp, heff, hleaf, hview⟩ := h.spaces.store hr he (m := m) fun x hx => hframe x (by omega)
  have hslab : ∀ c, ¬ Owner.InSpace r (.slab c) := inSpace_not_slab r
  have hin : ∀ y, stack_page_bot ≤ y → y < USER_STACK_TOP → Kmem.view { s with mem := m } r y = stackWindow m stack y := by
    intro y hlo hhi
    obtain ⟨hdiv, hmod⟩ := hwindow y hlo hhi
    rw [hview, if_pos hdiv, hmod, stackWindow]
  refine ⟨⟨hsp, h.objects.frame heff.touches hslab⟩, heff.mono fun _ => .inl, fun halone v pa w he' => ?_, hleaf r hr,
    fun y hy => by rw [hview, if_neg hy], ?_⟩
  · rw [entry_congr (s := s) (by rw [hleaf r hr])] at he'
    exact halone v pa w he'
  cases res with
  | none => exact hres
  | some res =>
    obtain ⟨argc, sp⟩ := res
    obtain ⟨hfit, hargc, hsp', hlayout, hrest⟩ := hres
    refine ⟨hfit, hargc, hsp', hlayout.congr hfit hin, fun y hy hnot => ?_⟩
    have hbounds : stack_page_bot ≤ y ∧ y < USER_STACK_TOP := by
      simp only [stack_page_bot, USER_STACK_TOP, TRAPFRAME, TRAMPOLINE, MAX_VA, PG_SIZE] at *
      omega
    rw [hin y hbounds.1 hbounds.2, hrest y hbounds.1 hbounds.2 hnot, stackWindow, Kmem.view, hy, he,
      (hwindow y hbounds.1 hbounds.2).2]

/-- A new program before its arguments are pushed: its stack page has only zeros. -/
structure Ready (k : Symbols) (image : Mem) (s : Kmem) (r trapframe stack : Nat) (vmas : List Vma) : Prop where
  space : AddrSpace k s r trapframe vmas
  areas : IsAreas image vmas
  installed : ∀ ph ∈ segments image, Installed image s r ph
  apart : ∀ ph ∈ segments image, ∀ y, ph.start ≤ y → y < ph.end_ → y / PG_SIZE ≠ stack_page_bot / PG_SIZE
  mapped : ∀ v < USER_VPNS, Has (s.leafPte r v) PTE_V →
    (∃ ph ∈ segments image, ph.start ≤ v * PG_SIZE ∧ v * PG_SIZE < ph.end_) ∨ v = stack_page_bot / PG_SIZE
  entry : s.entry r (stack_page_bot / PG_SIZE) = some (stack, true)
  zero : ∀ y, y / PG_SIZE = stack_page_bot / PG_SIZE → s.view r y = 0

/-- The program once its arguments are in the stack page. -/
theorem Ready.program {stack : Nat} (h : Ready k image s r trapframe stack vmas) (hleaf : s'.leafPte r = s.leafPte r)
    (hview : ∀ y, y / PG_SIZE ≠ stack_page_bot / PG_SIZE → s'.view r y = s.view r y) (hargs : ArgLayout (s'.view r) argv)
    (hrest : ∀ y, y / PG_SIZE = stack_page_bot / PG_SIZE → ¬ InArgs argv y → s'.view r y = s.view r y) :
    Program k image argv s' r trapframe vmas := by
  have hinst : ∀ ph ∈ segments image, Installed image s' r ph := by
    intro ph hph
    refine ⟨by rw [hleaf]; exact (h.installed ph hph).leaf, fun y hlo hhi => ?_⟩
    rw [hview y (h.apart ph hph y hlo hhi)]
    exact (h.installed ph hph).view y hlo hhi
  refine ⟨h.space.congr fun v _ => by rw [hleaf], h.areas, hinst, by rw [hleaf]; exact h.mapped,
    fun ph hph => (hinst ph hph).view, hargs, fun y hnot hargs => ?_⟩
  by_cases hy : y / PG_SIZE = stack_page_bot / PG_SIZE
  · rw [hrest y hy hargs, h.zero y hy]
  · rw [hview y hy, Kmem.view]
    cases he : s.entry r (y / PG_SIZE) with
    | none => rfl
    | some e =>
      -- a mapped page is in a segment
      obtain ⟨hv, hvalid, -⟩ := entry_some he
      rcases h.mapped _ hv hvalid with ⟨ph, hph, hcov⟩ | heq
      · refine absurd ?_ (hnot ph hph)
        have hstart := ph.start_aligned
        have hend := ph.end_aligned
        simp only [PG_SIZE] at hcov hstart hend
        omega
      · exact absurd heq hy

/-- The build phase of `proc_exec` up to the mapped stack: the areas and the
stack page. It does not depend on the arguments. -/
def execStack (image : Mem) (new_pt : Nat) : Prog Kmem (Except (List Vma) (List Vma × Nat)) := do
  match ← loadSegments image new_pt (e_phnum image) 0 [] 0 with
  | .error vmas => pure (.error vmas)
  | .ok (vmas, heap_start) => do
    match ← vma_create heap_start heap_start USER_RW VMA_HEAP with
    | none => pure (.error vmas)
    | some heap_vma => do
      let vmas := vmas ++ [heap_vma]
      let stack ← kalloc
      if stack = 0 then
        pure (.error vmas)
      else do
        let r ← map_pages new_pt stack_page_bot PG_SIZE stack USER_RW
        if r < 0 then do
          kfree stack
          pure (.error vmas)
        else do
          match ← vma_create USER_STACK_BOT USER_STACK_TOP USER_RW VMA_STACK with
          | none => pure (.error vmas)
          | some stack_vma => pure (.ok (vmas ++ [stack_vma], stack))

theorem execBuild_eq (image : Mem) (argv : List Bytes) (new_pt : Nat) : execBuild image argv new_pt = (do
    match ← execStack image new_pt with
    | .error vmas => pure (.error vmas)
    | .ok (vmas, stack) => do
      match ← pushArgv stack argv with
      | none => pure (.error vmas)
      | some (argc, sp) => pure (.ok (vmas, argc, sp))) := by
  simp only [execBuild, execStack, bind_assoc]
  congr 1
  funext res
  rcases res with l | ⟨l, heap_start⟩
  · simp only [pure_bind]
  simp only [bind_assoc]
  congr 1
  funext ret
  cases ret with
  | none => simp only [pure_bind]
  | some heap =>
    simp only [bind_assoc]
    congr 1
    funext stack
    split
    · simp only [pure_bind]
    simp only [bind_assoc]
    congr 1
    funext r
    split
    · simp only [bind_assoc, pure_bind]
    simp only [bind_assoc]
    congr 1
    funext ret
    cases ret with
    | none => simp only [pure_bind]
    | some stack_vma => rfl

/-- Whatever happened in the build phase so far: the areas and the memory they
stand for are accounted for. -/
structure Partial (image : Mem) (s s' : Kmem) (own own' : Nat → Option Owner) (roots : List Nat) (r : Nat)
    (vmas : List Vma) (others procs : List Nat) : Prop where
  memory : KernelMemory s' own' roots (vmas.map Vma.addr ++ others) procs
  effect : Effect (OfAreas r) roots s s' own own'
  alone : Private s' r
  areas : ∀ a ∈ vmas, a.Ok
  low : ∀ a ∈ vmas, a.start < a.end_ → a.end_ ≤ TRAPFRAME
  apart : SegmentsApart (segments image) → vmas.Pairwise Apart

theorem kernelMemory_concat {x : Nat} {a : Vma} (h : KernelMemory s own roots (x :: (vmas.map Vma.addr ++ others)) procs)
    (ha : a.addr = x) : KernelMemory s own roots ((vmas ++ [a]).map Vma.addr ++ others) procs := by
  refine h.perm ?_ (.refl _)
  rw [List.map_append, List.append_assoc, ← ha]
  exact List.perm_middle.symm

theorem execStack_spec (h : KernelMemory s own roots others procs) (hr : r ∈ roots) (hsp : AddrSpace k s r trapframe [])
    (hhigh : ¬ SegmentsApart (segments image) → E (.panic "walk: va >= MAX_VA"))
    (hdouble : ¬ SegmentsApart (segments image) → E (.panic "map_pages: double-map va=%p")) :
    wpe E (execStack image r) (fun res s' => ∃ own' vmas, Partial image s s' own own' roots r vmas others procs ∧
      match res with
      | .error l => l = vmas
      | .ok (l, stack) => l = vmas ∧ Ready k image s' r trapframe stack vmas) s := by
  have halone : Private s r := fun v pa w he => by rw [hsp.entry_none] at he; cases he
  have hpart : ∀ {s1 own1 vmas1}, Built s s1 own own1 roots r →
      KernelMemory s1 own1 roots (vmas1.map Vma.addr ++ others) procs → (∀ a ∈ vmas1, a.Ok) →
      (∀ a ∈ vmas1, a.start < a.end_ → a.end_ ≤ TRAPFRAME) → (SegmentsApart (segments image) → vmas1.Pairwise Apart) →
      Partial image s s1 own own1 roots r vmas1 others procs :=
    fun hb hm ha hlow hpair => ⟨hm, hb.effect, hb.alone halone, ha, hlow, hpair⟩
  have hroom : ∀ {Q : Prop}, (¬ SegmentsApart (segments image) → Q) → ¬ Room [] (segments image) → Q :=
    fun hQ hno => hQ fun hs => hno ⟨hs, fun _ ha => absurd ha (by simp)⟩
  have hload : wpe E (loadSegments image r (e_phnum image) 0 [] 0) _ s :=
    loadSegments_spec h hr hsp (by simp) (hroom hhigh) (hroom hdouble)
  simp only [execStack, wpe_bind]
  refine wpe_mono hload ?_
  rintro res s1 ⟨own1, vmas1, hb1, hm1, ha1, hlow1, ⟨phs, hphs, hadded⟩, hres⟩
  have hapart := fun hs => hadded.pairwise_apart (SegmentsApart.sublist hs hphs.sublist)
  rcases res with l | ⟨l, heap_start⟩
  · rw [wpe_pure]
    exact ⟨own1, vmas1, hpart hb1 hm1 ha1 hlow1 fun hs => (hapart hs).1, hres⟩
  obtain ⟨rfl, hseg⟩ := hres
  have hheap : heap_start = heapStart image := hseg.heap
  simp only [wpe_bind]
  refine wpe_mono (hm1.vma_create_spec heap_start heap_start USER_RW VMA_HEAP).wpe ?_
  rintro ret s2 (⟨rfl, rfl, -⟩ | ⟨x, own2, rfl, hm2, ht2⟩)
  · rw [wpe_pure]
    exact ⟨own1, l, hpart hb1 hm1 ha1 hlow1 fun hs => (hapart hs).1, rfl⟩
  obtain ⟨heap, hheapdef⟩ : ∃ heap : Vma, heap = ⟨x, heapStart image, heapStart image, USER_RW, VMA_HEAP⟩ := ⟨_, rfl⟩
  have hok2 : heap.Ok := by
    rw [hheapdef]
    exact heapArea_ok image x
  have hleaf2 : s2.leafPte r = s1.leafPte r := hm1.spaces.leafPte_frame ht2 (by simp) hr
  have hb12 := Built.of_slab hm1.spaces hr rfl ht2
  have hb2 := hb1.trans hb12
  have hsp2 := addEmptyArea hseg.space hok2 hleaf2
  have hm2' := kernelMemory_concat (a := heap) hm2 (by rw [hheapdef])
  have hlow2 : ∀ a ∈ l ++ [heap], a.start < a.end_ → a.end_ ≤ TRAPFRAME := by
    intro a ha hpos
    rcases List.mem_append.mp ha with ha | ha
    · exact hlow1 a ha hpos
    · rw [List.mem_singleton.mp ha, hheapdef] at hpos
      exact absurd hpos (Nat.lt_irrefl _)
  have hpair2 := fun hs => concat_heap_apart (hapart hs).1 (show heap.end_ ≤ heap.start by rw [hheapdef])
  simp only [hheap, wpe_bind, ← hheapdef]
  refine wpe_mono hm2.spaces.pages.kalloc_spec.wpe ?_
  rintro stack s3 (⟨rfl, rfl, -⟩ | hf)
  · rw [if_pos rfl, wpe_pure]
    exact ⟨own2, _, hpart hb2 hm2' hsp2.areas hlow2 hpair2, rfl⟩
  rw [if_neg hf.ne_zero]
  simp only [wpe_bind]
  refine wpe_mono (hm2.spaces.map_new_spec hr hsp2.topUsed hf.toHeld (by decide) (by decide)
    (fun hmax => absurd hmax (by decide)) fun hvalid => hdouble fun hs => ?_) ?_
  · rw [hleaf2] at hvalid
    obtain ⟨ph, hph, hlo, hhi⟩ := hseg.mapped (by decide) hvalid
    have hle := hs.2 ph hph (by omega)
    have hge : USER_STACK_BOT ≤ stack_page_bot / PG_SIZE * PG_SIZE := by decide
    omega
  rintro ret s4 (⟨rfl, hfree⟩ | ⟨rfl, own4, hent⟩)
  · rw [if_pos (by decide)]
    simp only [wpe_bind, wpe_pure]
    refine wpe_mono hfree.wpe ?_
    rintro _ s5 ⟨-, own5, hg⟩
    have hl := Loaded.grown hm2.spaces hr hg 0 0 fun _ => 0
    refine ⟨own5, _, hpart (hb2.trans (.of_loaded hl)) ⟨hl.spaces, ?_⟩ hsp2.areas hlow2 hpair2, rfl⟩
    exact hm2'.objects.frame hl.effect.touches (inSpace_not_slab r)
  rw [if_neg (by decide)]
  simp only [wpe_bind]
  -- the page of the stack
  have hl4 : Loaded s2 s4 own2 own4 roots r (stack_page_bot / PG_SIZE) 1 USER_RW fun _ => 0 := by
    refine .of_entered hm2.spaces hr (by decide) hent fun y _ => hf.zero _ (Nat.le_add_right _ _) ?_
    exact Nat.add_lt_add_left (Nat.mod_lt _ (by decide)) _
  have hrange := hent.spaces.pages.range_of hent.owner
  have hlt : stack < 2 ^ 56 := by
    simp only [PHYS_STOP] at hrange
    omega
  have he4 : s4.entry r (stack_page_bot / PG_SIZE) = some (stack, true) := by
    have hleaf := hent.leaf _ (USER_VPNS_lt hent.vpn_lt)
    rw [if_pos rfl] at hleaf
    rw [entry_eq hent.vpn_lt (hl4.leaf _ (Nat.le_refl _) (Nat.lt_succ_self _)).1.valid, hleaf,
      (leaf_parts hrange.1 hlt (by decide)).1]
    have hw : Has (pa_to_pte stack ||| leafFlags USER_RW) PTE_W :=
      (has_leaf hrange.1 hlt (by decide) (by decide)).mpr (.inl (by decide))
    rw [decide_eq_true hw]
  have hb4 := hb2.trans (.of_loaded hl4)
  have hm4 : KernelMemory s4 own4 roots ((l ++ [heap]).map Vma.addr ++ others) procs :=
    ⟨hl4.spaces, hm2'.objects.frame hl4.effect.touches (inSpace_not_slab r)⟩
  refine wpe_mono (hm4.vma_create_spec USER_STACK_BOT USER_STACK_TOP USER_RW VMA_STACK).wpe ?_
  rintro ret s5 (⟨rfl, rfl, -⟩ | ⟨y, own5, rfl, hm5, ht5⟩)
  · rw [wpe_pure]
    exact ⟨own4, _, hpart hb4 hm4 hsp2.areas hlow2 hpair2, rfl⟩
  obtain ⟨stackv, hstackdef⟩ : ∃ a : Vma, a = ⟨y, USER_STACK_BOT, USER_STACK_TOP, USER_RW, VMA_STACK⟩ := ⟨_, rfl⟩
  have hok5 : stackv.Ok := by
    rw [hstackdef]
    exact stackArea_ok y
  have hcov5 : stackv.Covers (stack_page_bot / PG_SIZE * PG_SIZE) ∧ stackv.perm = USER_RW := by
    rw [hstackdef]
    exact ⟨(by decide : USER_STACK_BOT ≤ stack_page_bot / PG_SIZE * PG_SIZE ∧ _ < USER_STACK_TOP), rfl⟩
  have hleaf5 : s5.leafPte r = s4.leafPte r := hm4.spaces.leafPte_frame ht5 (by simp) hr
  have hb45 := Built.of_slab hm4.spaces hr rfl ht5
  have hb25 := (Built.of_loaded hl4).trans hb45
  have hm5' := kernelMemory_concat (a := stackv) hm5 (by rw [hstackdef])
  have hnew : ∀ v < USER_VPNS, Has (s5.leafPte r v) PTE_V → Has (s1.leafPte r v) PTE_V ∨ v = stack_page_bot / PG_SIZE := by
    intro v hv hvalid
    rw [hleaf5] at hvalid
    by_cases hstack : v = stack_page_bot / PG_SIZE
    · exact .inr hstack
    · rw [hl4.outside v (USER_VPNS_lt hv) (by omega), hleaf2] at hvalid
      exact .inl hvalid
  have hready : Ready k image s5 r trapframe stack (l ++ [heap] ++ [stackv]) := by
    refine ⟨addArea hsp2 hb25 hok5 fun v hv hvalid => ?_, ?_, fun ph hph => ?_, fun ph hph z hlo hhi heq => ?_,
      fun v hv hvalid => ?_, ?_, fun z hz => ?_⟩
    · rcases hnew v hv hvalid with hold | rfl
      · exact .inl (by rwa [hleaf2])
      · rw [hleaf5, hcov5.2]
        exact .inr ⟨hcov5.1, (hl4.leaf _ (Nat.le_refl _) (Nat.lt_succ_self _)).1⟩
    · obtain ⟨news, hnews, hforall⟩ := hseg.areas
      rw [List.nil_append] at hnews
      exact ⟨news, x, y, by rw [hnews, hheapdef, hstackdef, List.append_assoc]; rfl, hforall⟩
    · exact (hb12.trans hb25).installed (hseg.installed ph hph)
    · have hvalid := ((hseg.installed ph hph).leaf z hlo hhi).2.1.valid
      rw [heq, ← hleaf2] at hvalid
      exact hent.empty hvalid
    · exact (hnew v hv hvalid).imp_left fun hold => hseg.mapped hv hold
    · exact (entry_congr (by rw [hleaf5])).trans he4
    · rw [hb45.view z (by rw [hz, he4]; simp), hl4.view, if_pos (by omega)]
  have hlow5 : ∀ a ∈ l ++ [heap] ++ [stackv], a.start < a.end_ → a.end_ ≤ TRAPFRAME := by
    intro a ha hpos
    rcases List.mem_append.mp ha with ha | ha
    · exact hlow2 a ha hpos
    · rw [List.mem_singleton.mp ha, hstackdef]
      exact (by decide : USER_STACK_TOP ≤ TRAPFRAME)
  have hpair5 : SegmentsApart (segments image) → (l ++ [heap] ++ [stackv]).Pairwise Apart := by
    intro hs
    refine concat_stack_apart (hpair2 hs) (fun a ha hpos => ?_) (by rw [hstackdef])
    rcases List.mem_append.mp ha with ha | ha
    · exact (hapart hs).2 a ha hpos
    · rw [List.mem_singleton.mp ha, hheapdef] at hpos
      exact absurd hpos (Nat.lt_irrefl _)
  simp only [← hstackdef, wpe_pure]
  exact ⟨own5, _, hpart (hb2.trans hb25) hm5' hready.space.areas hlow5 hpair5, rfl, hready⟩

theorem execBuild_spec (h : KernelMemory s own roots others procs) (hr : r ∈ roots) (hsp : AddrSpace k s r trapframe [])
    (hhigh : ¬ SegmentsApart (segments image) → E (.panic "walk: va >= MAX_VA"))
    (hdouble : ¬ SegmentsApart (segments image) → E (.panic "map_pages: double-map va=%p")) :
    wpe E (execBuild image argv r) (fun res s' => ∃ own' vmas, Partial image s s' own own' roots r vmas others procs ∧
      match res with
      | .error l => l = vmas
      | .ok (l, argc, sp) => l = vmas ∧ Program k image argv s' r trapframe vmas ∧ ArgsFit argv ∧
          argc = argv.length ∧ sp = argSp argv) s := by
  rw [execBuild_eq, wpe_bind]
  refine wpe_mono (execStack_spec h hr hsp hhigh hdouble) ?_
  rintro res s1 ⟨own1, vmas, hpart, hres⟩
  rcases res with l | ⟨l, stack⟩
  · rw [wpe_pure]
    exact ⟨own1, vmas, hpart, hres⟩
  obtain ⟨rfl, hready⟩ := hres
  simp only [wpe_bind]
  refine wpe_mono (pushArgv_build hpart.memory hr hready.entry).wpe ?_
  rintro res s2 ⟨hm2, heff2, halone2, hleaf2, hview2, hres⟩
  have hpart2 : Partial image s s2 own own1 roots r l others procs :=
    ⟨hm2, hpart.effect.trans heff2, halone2 hpart.alone, hpart.areas, hpart.low, hpart.apart⟩
  cases res with
  | none =>
    rw [wpe_pure]
    exact ⟨own1, l, hpart2, rfl⟩
  | some res =>
    obtain ⟨argc, sp⟩ := res
    obtain ⟨hfit, hargc, hargsp, hlayout, hrest⟩ := hres
    simp only [wpe_pure]
    exact ⟨own1, l, hpart2, rfl, hready.program hleaf2 hview2 hlayout hrest, hfit, hargc, hargsp⟩

end Vm

end bobchouos
