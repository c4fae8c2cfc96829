import BobchouOS.Vm.System

open lib

namespace bobchouos

namespace Vm

/-- Segments in ascending order that share no pages and end below the end of the
heap. -/
def Ascending (phs : List Phdr) : Prop :=
  phs.Pairwise (fun a b => a.end_ ≤ b.start) ∧ ∀ ph ∈ phs, ph.p_vaddr + ph.p_memsz ≤ HEAP_MAX

instance (phs : List Phdr) : Decidable (Ascending phs) := inferInstanceAs (Decidable (_ ∧ _))

/-- One area behind the other. -/
def Beside (a b : Vma) : Prop := a.end_ ≤ b.start ∨ b.end_ ≤ a.start

/-- The areas of a process: segments, a heap behind them, and a stack. -/
structure Layout (vmas segs : List Vma) (heap stack : Vma) : Prop where
  perm : vmas.Perm (heap :: stack :: segs)
  segs : ∀ a ∈ segs, a.flags = 0 ∧ a.end_ ≤ heap.start
  heap_flags : heap.flags = VMA_HEAP
  heap_le : heap.start ≤ heap.end_
  heap_max : heap.end_ ≤ HEAP_MAX
  stack_flags : stack.flags = VMA_STACK
  stack_start : stack.start = USER_STACK_BOT
  stack_end : stack.end_ = USER_STACK_TOP

/-- A layout in order. -/
def Tidy (vmas : List Vma) : Prop :=
  vmas.Pairwise (fun a b => a.start ≤ b.start) ∧
    ∃ segs heap stack, Layout vmas segs heap stack ∧ segs.Pairwise Beside ∧ ∀ a ∈ segs, a.start ≤ a.end_

variable {k : Symbols} {binaries : List Binary} {vmas segs news : List Vma} {heap stack v : Vma} {image : Mem} {ph : Phdr}
  {phs : List Phdr} {s : Kmem} {own : Nat → Option Owner} {p : Proc} {rest : List Proc} {n : BitVec 64} {end_ : Nat}

/-- A segment that ends below the end of the heap has its pages there. -/
theorem phdr_bounds (hle : ph.p_vaddr + ph.p_memsz ≤ HEAP_MAX) : ph.start ≤ ph.end_ ∧ ph.end_ ≤ HEAP_MAX := by
  have hmax : HEAP_MAX % PG_SIZE = 0 ∧ HEAP_MAX + PG_SIZE ≤ 2 ^ 64 ∧ HEAP_MAX < 2 ^ 64 := by decide
  rw [Phdr.start, Phdr.end_, Nat.mod_eq_of_lt (by omega), PG_ROUND_DOWN_eq, PG_ROUND_UP_eq (by omega)]
  simp only [PG_SIZE] at *
  omega

namespace Ascending

theorem segmentsApart (h : Ascending phs) : SegmentsApart phs := by
  refine ⟨h.1.imp fun hab => by omega, fun ph hph _ => ?_⟩
  have hle := (phdr_bounds (h.2 ph hph)).2
  have hmax : HEAP_MAX ≤ USER_STACK_BOT := by decide
  omega

end Ascending

theorem foldl_max_bounds (phs : List Phdr) (h : Nat) : h ≤ phs.foldl (fun h ph => max h ph.end_) h ∧
    (∀ ph ∈ phs, ph.end_ ≤ phs.foldl (fun h ph => max h ph.end_) h) ∧
    ∀ b, h ≤ b → (∀ ph ∈ phs, ph.end_ ≤ b) → phs.foldl (fun h ph => max h ph.end_) h ≤ b := by
  induction phs generalizing h with
  | nil => simp
  | cons ph phs ih =>
    obtain ⟨hle, hall, hleast⟩ := ih (max h ph.end_)
    simp only [List.foldl_cons, List.forall_mem_cons]
    refine ⟨by omega, ⟨by omega, hall⟩, fun b hb hphs => hleast b ?_ hphs.2⟩
    have hph := hphs.1
    omega

namespace Layout

/-- The areas of a new program. -/
theorem of_isAreas (h : IsAreas image vmas) (hle : ∀ ph ∈ segments image, ph.p_vaddr + ph.p_memsz ≤ HEAP_MAX) :
    ∃ segs heap stack, Layout vmas segs heap stack ∧ vmas = segs ++ [heap, stack] ∧
      List.Forall₂ (fun ph a => a = Phdr.area ph a.addr) (segments image) segs := by
  obtain ⟨segs, x, y, rfl, hsegs⟩ := h
  obtain ⟨-, hall, hleast⟩ := foldl_max_bounds (segments image) 0
  refine ⟨segs, _, _, ⟨?_, fun a ha => ?_, rfl, Nat.le_refl _, ?_, rfl, rfl, rfl⟩, rfl, hsegs⟩
  · exact (@List.perm_append_comm _ segs _).trans (.refl _)
  · obtain ⟨ph, hph, heq⟩ := forall₂_right hsegs ha
    rw [heq]
    exact ⟨rfl, hall ph hph⟩
  · exact hleast _ (Nat.zero_le _) fun ph hph => (phdr_bounds (hle ph hph)).2

/-- The heap is the only area with its flag. -/
theorem find_heap (h : Layout vmas segs heap stack) : vma_find_by_flags vmas VMA_HEAP = some heap := by
  have hmem : heap ∈ vmas := h.perm.mem_iff.mpr (by simp)
  cases hfind : vma_find_by_flags vmas VMA_HEAP with
  | none =>
    have hnot := List.find?_eq_none.mp hfind heap hmem
    rw [h.heap_flags] at hnot
    exact absurd (by decide) hnot
  | some v =>
    obtain ⟨hv, hflag⟩ := vma_find_by_flags_some hfind
    rcases List.mem_cons.mp (h.perm.mem_iff.mp hv) with rfl | hv
    · rfl
    rcases List.mem_cons.mp hv with rfl | hv
    · rw [h.stack_flags] at hflag
      exact absurd (by decide) hflag
    · rw [(h.segs v hv).1, Nat.zero_and] at hflag
      exact absurd rfl hflag

/-- All areas are in reach of `walk`. -/
theorem end_le (h : Layout vmas segs heap stack) {a : Vma} (ha : a ∈ vmas) : a.end_ ≤ USER_STACK_TOP := by
  have hmax : HEAP_MAX ≤ USER_STACK_TOP := by decide
  have hheap := h.heap_max
  have hle := h.heap_le
  rcases List.mem_cons.mp (h.perm.mem_iff.mp ha) with rfl | ha
  · omega
  rcases List.mem_cons.mp ha with rfl | ha
  · exact Nat.le_of_eq h.stack_end
  · have hseg := (h.segs a ha).2
    omega

/-- The heap after its end was moved. -/
theorem setEnd (h : Layout vmas segs heap stack) (hinj : ∀ a ∈ vmas, a.addr = heap.addr → a = heap)
    (hle : heap.start ≤ end_) (hmax : end_ ≤ HEAP_MAX) :
    Layout (setEnd vmas heap end_) segs { heap with end_ := end_ } stack := by
  have hother : ∀ a ∈ vmas, a.flags ≠ VMA_HEAP → a.addr ≠ heap.addr := by
    rintro a ha hflags heq
    rw [hinj a ha heq] at hflags
    exact hflags h.heap_flags
  have hmem : ∀ {a}, a ∈ heap :: stack :: segs → a ∈ vmas := fun ha => h.perm.mem_iff.mpr ha
  refine ⟨?_, h.segs, h.heap_flags, hle, hmax, h.stack_flags, h.stack_start, h.stack_end⟩
  refine (h.perm.map _).trans (.of_eq ?_)
  have hstack : stack.addr ≠ heap.addr := hother stack (hmem (by simp)) (by rw [h.stack_flags]; decide)
  have hsegs : segs.map (fun pos => if pos.addr = heap.addr then { pos with end_ } else pos) = segs.map id := by
    refine List.map_congr_left fun a ha => if_neg (hother a (hmem (by simp [ha])) ?_)
    rw [(h.segs a ha).1]
    decide
  rw [List.map_cons, List.map_cons, if_pos rfl, if_neg hstack, hsegs, List.map_id]

/-- The copies of the areas in a forked process. -/
theorem fork (h : Layout vmas segs heap stack) (hsame : List.Forall₂ SameArea vmas news) :
    ∃ segs' heap' stack', Layout (news.foldl (fun l v => vma_add v l) []) segs' heap' stack' ∧
      List.Forall₂ SameArea segs segs' := by
  obtain ⟨l, hl, hperm⟩ := List.perm_comp_forall₂ h.perm.symm hsame
  cases hl with
  | @cons _ heap' _ l hheap hl =>
    cases hl with
    | @cons _ stack' _ segs' hstack hsegs =>
      have hlist := foldl_vma_add_perm news []
      rw [List.append_nil] at hlist
      refine ⟨segs', heap', stack', ⟨hlist.trans hperm.symm, fun b hb => ?_, ?_, ?_, ?_, ?_, ?_, ?_⟩, hsegs⟩
      · obtain ⟨a, ha, hab⟩ := forall₂_right hsegs hb
        rw [hab.flags, hab.end_, hheap.start]
        exact h.segs a ha
      · rw [hheap.flags, h.heap_flags]
      · rw [hheap.start, hheap.end_]
        exact h.heap_le
      · rw [hheap.end_]
        exact h.heap_max
      · rw [hstack.flags, h.stack_flags]
      · rw [hstack.start, h.stack_start]
      · rw [hstack.end_, h.stack_end]

/-- The new end of the heap is between its start and `HEAP_MAX`. -/
theorem sbrkEnd (h : Layout vmas segs heap stack) (hok : heap.Ok) (hend : sbrkEnd heap.start heap.end_ n = some end_) :
    end_ % PG_SIZE = 0 ∧ heap.start ≤ end_ ∧ end_ ≤ HEAP_MAX := by
  have hle := h.heap_le
  have hmax := h.heap_max
  have hlow : HEAP_MAX < MAX_VA := by decide
  by_cases hpos : 0 < n.toInt
  · obtain ⟨haligned, hnew, hgrow⟩ := sbrkEnd_grow hpos hend
    exact ⟨haligned, Nat.le_trans hle (hgrow (by omega)), hnew⟩
  by_cases hneg : n.toInt < 0
  · obtain ⟨haligned, -, hstart, hshrink⟩ := sbrkEnd_shrink hok (.inl hle) hneg hend
    exact ⟨haligned, hstart, by omega⟩
  · rw [Vm.sbrkEnd, if_neg hpos, if_neg hneg] at hend
    cases hend
    exact ⟨hok.end_aligned, hle, hmax⟩

/-- The areas after `proc_sbrk`. -/
theorem sbrk (h : Layout p.vma_list segs heap stack) (hw : World k s own (p :: rest)) (hp : p.pagetable ≠ 0) (n : BitVec 64) :
    ∃ end_, Layout (sbrkResult p n).2.vma_list segs { heap with end_ := end_ } stack := by
  have hmem := (vma_find_by_flags_some h.find_heap).1
  have hok := ((hw.proc p (by simp)).user hp).2.areas heap hmem
  unfold sbrkResult
  rw [h.find_heap]
  dsimp only
  cases hend : Vm.sbrkEnd heap.start heap.end_ n with
  | none => exact ⟨heap.end_, h⟩
  | some end_ =>
    obtain ⟨-, hle, hmax⟩ := h.sbrkEnd hok hend
    exact ⟨end_, h.setEnd (fun a ha heq => hw.area_inj ha hmem heq) hle hmax⟩

end Layout

theorem vma_add_sorted (v : Vma) {l : List Vma} (h : l.Pairwise fun a b => a.start ≤ b.start) :
    (vma_add v l).Pairwise fun a b => a.start ≤ b.start := by
  induction l with
  | nil => exact List.pairwise_singleton ..
  | cons pos rest ih =>
    obtain ⟨hhead, hrest⟩ := List.pairwise_cons.mp h
    unfold vma_add
    split
    · next hlt =>
      refine .cons (fun b hb => ?_) h
      rcases List.mem_cons.mp hb with rfl | hb
      · omega
      · have hle := hhead b hb
        omega
    · next hge =>
      refine .cons (fun b hb => ?_) (ih hrest)
      rcases List.mem_cons.mp ((vma_add_perm v rest).mem_iff.mp hb) with rfl | hb
      · omega
      · exact hhead b hb

theorem foldl_vma_add_sorted (news : List Vma) {l : List Vma} (h : l.Pairwise fun a b => a.start ≤ b.start) :
    (news.foldl (fun l v => vma_add v l) l).Pairwise fun a b => a.start ≤ b.start := by
  induction news generalizing l with
  | nil => exact h
  | cons v news ih => exact ih (vma_add_sorted v h)

theorem setEnd_sorted (v : Vma) (end_ : Nat) (h : vmas.Pairwise fun a b => a.start ≤ b.start) :
    (setEnd vmas v end_).Pairwise fun a b => a.start ≤ b.start := by
  unfold setEnd
  rw [List.pairwise_map]
  refine h.imp fun hab => ?_
  split_ifs <;> exact hab

namespace Machine

variable {m : Machine} {i : Nat}

theorem tidy_kept (hasc : ∀ bin ∈ binaries, Ascending (segments bin.image)) : UserKept k binaries Tidy := by
  refine ⟨fun bin hbin vmas hareas => ?_, ?_, ?_⟩
  · obtain ⟨hpair, hle⟩ := hasc bin hbin
    obtain ⟨segs, heap, stack, hlay, rfl, hsegs⟩ := Layout.of_isAreas hareas hle
    have hbounds : ∀ a ∈ segs, a.start ≤ a.end_ := by
      intro a ha
      obtain ⟨ph, hph, heq⟩ := forall₂_right hsegs ha
      rw [heq]
      exact (phdr_bounds (hle ph hph)).1
    have hasc : segs.Pairwise fun a b => a.end_ ≤ b.start :=
      pairwise_of_forall₂ hsegs (fun ph q a b ha hb hab => by rw [ha, hb]; exact hab) hpair
    refine ⟨List.pairwise_append.mpr ⟨?_, ?_, ?_⟩, segs, heap, stack, hlay, hasc.imp .inl, hbounds⟩
    · exact hasc.imp_of_mem fun ha _ hab => Nat.le_trans (hbounds _ ha) hab
    · refine .cons (fun b hb => ?_) (List.pairwise_singleton ..)
      rw [List.mem_singleton.mp hb, hlay.stack_start]
      exact Nat.le_trans hlay.heap_le (Nat.le_trans hlay.heap_max (by decide))
    · intro a ha b hb
      have hle := Nat.le_trans (hbounds a ha) (hlay.segs a ha).2
      simp only [List.mem_cons, List.not_mem_nil, or_false] at hb
      rcases hb with rfl | rfl
      · exact hle
      · rw [hlay.stack_start]
        exact Nat.le_trans hle (Nat.le_trans hlay.heap_le (Nat.le_trans hlay.heap_max (by decide)))
  · rintro vmas news ⟨-, segs, heap, stack, hlay, hpair, hbounds⟩ hsame
    obtain ⟨segs', heap', stack', hlay', hsegs⟩ := hlay.fork hsame
    refine ⟨foldl_vma_add_sorted news .nil, segs', heap', stack', hlay', ?_, fun b hb => ?_⟩
    · refine pairwise_of_forall₂ hsegs (fun a b a' b' ha hb hab => ?_) hpair
      rw [Beside, ha.start, ha.end_, hb.start, hb.end_]
      exact hab
    · obtain ⟨a, ha, hab⟩ := forall₂_right hsegs hb
      rw [hab.start, hab.end_]
      exact hbounds a ha
  · rintro s own p rest n hw hp ⟨hsorted, segs, heap, stack, hlay, hpair, hbounds⟩
    obtain ⟨end_, hlay'⟩ := hlay.sbrk hw hp n
    refine ⟨?_, segs, _, stack, hlay', hpair, hbounds⟩
    unfold sbrkResult
    split
    · exact hsorted
    · split
      · exact hsorted
      · exact setEnd_sorted _ _ hsorted

/-- The areas of a user process agree with its page table. -/
structure Orderly (s : Kmem) (r : Nat) (vmas : List Vma) : Prop where
  sorted : vmas.Pairwise fun a b => a.start ≤ b.start
  aligned : ∀ a ∈ vmas, a.start % PG_SIZE = 0 ∧ a.end_ % PG_SIZE = 0
  disjoint : vmas.Pairwise Beside
  one_heap : ∃ heap, vmas.filter (fun a => a.flags &&& VMA_HEAP ≠ 0) = [heap] ∧ heap.end_ ≤ HEAP_MAX
  one_stack : ∃ stack, vmas.filter (fun a => a.flags &&& VMA_STACK ≠ 0) = [stack]
  leaf : ∀ v < 2 ^ 27, Has (s.leafPte r v) PTE_V → Has (s.leafPte r v) PTE_U →
    ∃ a ∈ vmas, a.Covers (v * PG_SIZE) ∧ (∀ b ∈ vmas, b.Covers (v * PG_SIZE) → b = a) ∧ Agrees a.perm (s.leafPte r v)
  top : ¬ Has (s.leafPte r (TRAMPOLINE / PG_SIZE)) PTE_U ∧ ¬ Has (s.leafPte r (TRAPFRAME / PG_SIZE)) PTE_U

instance : Std.Symm Beside := ⟨fun _ _ h => h.symm⟩

/-- A layout whose segments are disjoint is disjoint. -/
theorem layout_disjoint (h : Layout vmas segs heap stack) (hsegs : segs.Pairwise Beside) : vmas.Pairwise Beside := by
  refine (h.perm.pairwise_iff (R := Beside) fun hab => Or.symm hab).mpr ?_
  have hle := h.heap_max
  have hstack : HEAP_MAX ≤ stack.start := by
    rw [h.stack_start]
    decide
  refine .cons (fun b hb => ?_) (.cons (fun b hb => ?_) hsegs)
  · rcases List.mem_cons.mp hb with rfl | hb
    · exact .inl (by omega)
    · exact .inr (h.segs b hb).2
  · have hb' := (h.segs b hb).2
    have hheap := h.heap_le
    exact .inr (by omega)

theorem layout_filter (h : Layout vmas segs heap stack) :
    vmas.filter (fun a => a.flags &&& VMA_HEAP ≠ 0) = [heap] ∧ vmas.filter (fun a => a.flags &&& VMA_STACK ≠ 0) = [stack] := by
  have hnone : ∀ flags, segs.filter (fun a => a.flags &&& flags ≠ 0) = [] := by
    intro flags
    refine List.filter_eq_nil_iff.mpr fun a ha => ?_
    rw [(h.segs a ha).1]
    simp
  constructor
  · refine List.perm_singleton.mp ((h.perm.filter _).trans (.of_eq ?_))
    rw [List.filter_cons_of_pos (by rw [h.heap_flags]; decide), List.filter_cons_of_neg (by rw [h.stack_flags]; decide), hnone]
  · refine List.perm_singleton.mp ((h.perm.filter _).trans (.of_eq ?_))
    rw [List.filter_cons_of_neg (by rw [h.heap_flags]; decide), List.filter_cons_of_pos (by rw [h.stack_flags]; decide), hnone]

/-- The areas and the page table of every user process agree, whatever it ran. -/
theorem vma_pte_agreement (hasc : ∀ bin ∈ binaries, Ascending (segments bin.image))
    (hreach : (system k binaries).Reachable m) (hget : m.procs[i]? = some p) (huser : p.pagetable ≠ 0) :
    Orderly m.kmem p.pagetable p.vma_list ∧ HEAP_MAX < USER_STACK_BOT := by
  obtain ⟨own, hinv⟩ := inv_of_reachable hreach
  have hp := List.mem_of_getElem? hget
  obtain ⟨hsorted, segs, heap, stack, hlay, hsegs, -⟩ := (tidy_kept hasc).reachable hreach p hp huser
  have hsp := ((hinv.world.proc p hp).user huser).2
  have hdisjoint := layout_disjoint hlay hsegs
  obtain ⟨hheap, hstack⟩ := layout_filter hlay
  have htable := hinv.world.memory.spaces.tables _ (root_mem hp huser)
  have huserLeaf : ∀ v < 2 ^ 26, Has (m.kmem.leafPte p.pagetable v) PTE_U → v < USER_VPNS := fun v hv =>
    vpn_lt_of_has hsp hv ((hinv.world.perm (perm_of_get hget)).trapframe_range huser) (.inl rfl)
  refine ⟨⟨hsorted, fun a ha => ⟨(hsp.areas a ha).start_aligned, (hsp.areas a ha).end_aligned⟩, hdisjoint,
    ⟨heap, hheap, hlay.heap_max⟩, ⟨stack, hstack⟩, fun v hv hvalid hU => ?_, fun hU => ?_, fun hU => ?_⟩, by decide⟩
  · have hlow : v < 2 ^ 26 := by
      by_contra hge
      rw [htable.leafPte_upper (by omega) hv] at hvalid
      exact absurd hvalid (by decide)
    obtain ⟨a, ha, hcov, hagrees⟩ := hsp.covered v (huserLeaf v hlow hU) hvalid
    refine ⟨a, ha, hcov, fun b hb hcov' => ?_, hagrees⟩
    by_contra hne
    have hbeside := hdisjoint.forall hb ha hne
    have hlo := hcov.1
    have hhi := hcov.2
    have hlo' := hcov'.1
    have hhi' := hcov'.2
    unfold Beside at hbeside
    omega
  · exact absurd (huserLeaf _ (by decide) hU) (by decide)
  · exact absurd (huserLeaf _ (by decide) hU) (by decide)

theorem vma_pte_agreement_child : ∃ m p, (system smallKernel [initBinary]).Reachable m ∧ m.procs[1]? = some p ∧
    p.pagetable ≠ 0 ∧ Orderly m.kmem p.pagetable p.vma_list := by
  obtain ⟨m, p, hreach, hat, -⟩ := exists_at_of_bootRun smallKernel [initBinary]
    [.create [], .init_start 0, .sbrk 0 8192, .fork 0] 1 (fun _ _ => true) (by decide +kernel)
  have hasc : ∀ bin ∈ [initBinary], Ascending (segments bin.image) := by decide +kernel
  exact ⟨m, p, hreach, hat.get, hat.user, (vma_pte_agreement hasc hreach hat.get hat.user).1⟩

end Machine

end Vm

end bobchouos
