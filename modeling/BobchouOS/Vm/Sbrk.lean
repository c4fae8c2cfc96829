import BobchouOS.Vm.Unmap
import BobchouOS.Vm.World

open lib

namespace bobchouos

namespace Vm

/-- The end of the heap after `proc_sbrk`, or `none` when it is refused. -/
def sbrkEnd (start old_end : Nat) (n : BitVec 64) : Option Nat :=
  if 0 < n.toInt then
    let new_end := PG_ROUND_UP ((old_end + n.toNat) % 2 ^ 64)
    if new_end > HEAP_MAX then none else some new_end
  else if n.toInt < 0 then
    if (-n).toNat > (old_end + 2 ^ 64 - start) % 2 ^ 64 then none
    else some (max start (PG_ROUND_DOWN ((old_end + n.toNat) % 2 ^ 64)))
  else
    some old_end

/-- The result of `proc_sbrk`. -/
def sbrkResult (p : Proc) (n : BitVec 64) : Int × Proc :=
  match vma_find_by_flags p.vma_list VMA_HEAP with
  | none => (-1, p)
  | some v =>
    match sbrkEnd v.start v.end_ n with
    | none => (-1, p)
    | some end_ => (v.end_, { p with vma_list := setEnd p.vma_list v end_ })

/-- Start and end of the heap. -/
def heapOf (vmas : List Vma) : Option (Nat × Nat) :=
  (vma_find_by_flags vmas VMA_HEAP).map fun v => (v.start, v.end_)

/-- The range of addresses that `proc_sbrk` gives up. -/
def sbrkFrees (heap : Option (Nat × Nat)) (n : BitVec 64) : Nat × Nat :=
  match heap with
  | none => (0, 0)
  | some (start, old_end) =>
    match sbrkEnd start old_end n with
    | none => (0, 0)
    | some new_end => if n.toInt < 0 then (new_end, old_end) else (0, 0)

variable {E : Halt → Prop} {k : Symbols} {s s' : Kmem} {own own' : Nat → Option Owner} {rest : List Proc} {p : Proc}
  {r trapframe end_ : Nat} {vmas : List Vma} {v : Vma} {n : BitVec 64}

theorem setEnd_self (hinj : ∀ a ∈ vmas, a.addr = v.addr → a = v) : setEnd vmas v v.end_ = vmas := by
  unfold setEnd
  conv_rhs => rw [← List.map_id vmas]
  refine List.map_congr_left fun a ha => ?_
  split
  · rename_i heq
    rw [hinj a ha heq]
    rfl
  · rfl

theorem setEnd_addr (vmas : List Vma) (v : Vma) (end_ : Nat) : (setEnd vmas v end_).map Vma.addr = vmas.map Vma.addr := by
  unfold setEnd
  rw [List.map_map]
  refine List.map_congr_left fun a _ => ?_
  dsimp only [Function.comp]
  split <;> rfl

theorem mem_setEnd {a : Vma} (ha : a ∈ setEnd vmas v end_) (hinj : ∀ a ∈ vmas, a.addr = v.addr → a = v) :
    a = { v with end_ := end_ } ∨ a ∈ vmas := by
  obtain ⟨b, hb, heq⟩ := List.mem_map.mp ha
  split at heq
  · rename_i haddr
    rw [hinj b hb haddr] at heq
    exact .inl heq.symm
  · exact .inr (heq ▸ hb)

/-- The heap of a process moves its end, after the pages it no longer covers are gone. -/
theorem addrSpace_setEnd (h : AddrSpace k s r trapframe vmas) (hinj : ∀ a ∈ vmas, a.addr = v.addr → a = v)
    (hok : Vma.Ok { v with end_ := end_ }) (htop : ∀ u, USER_VPNS ≤ u → u < 2 ^ 26 → s'.leafPte r u = s.leafPte r u)
    (hkeep : ∀ u < USER_VPNS, Has (s'.leafPte r u) PTE_V → s'.leafPte r u = s.leafPte r u ∧
      (v.Covers (u * PG_SIZE) → u * PG_SIZE < end_)) : AddrSpace k s' r trapframe (setEnd vmas v end_) := by
  refine ⟨?_, ?_, fun u hu hvalid => ?_, fun a ha => ?_⟩
  · rw [htop _ (by decide) (by decide), h.trampoline_leaf]
  · rw [htop _ (by decide) (by decide), h.trapframe_leaf]
  · obtain ⟨heq, hcov⟩ := hkeep u hu hvalid
    rw [heq] at hvalid ⊢
    obtain ⟨a, ha, hacov, hagrees⟩ := h.covered u hu hvalid
    refine ⟨_, List.mem_map_of_mem ha, ?_⟩
    split
    · rename_i haddr
      rw [hinj a ha haddr] at hacov hagrees ⊢
      exact ⟨⟨hacov.1, hcov hacov⟩, hagrees⟩
    · exact ⟨hacov, hagrees⟩
  · rcases mem_setEnd ha hinj with rfl | ha
    · exact hok
    · exact h.areas a ha

theorem toInt_pos_iff (n : BitVec 64) : 0 < n.toInt ↔ 0 < n.toNat ∧ n.toNat < 2 ^ 63 := by
  rw [BitVec.toInt_eq_toNat_cond]
  have hlt := n.isLt
  split <;> omega

theorem toInt_neg_iff (n : BitVec 64) : n.toInt < 0 ↔ 2 ^ 63 ≤ n.toNat := by
  rw [BitVec.toInt_eq_toNat_cond]
  have hlt := n.isLt
  split <;> omega

/-- Growing never takes an address in reach of `walk` out of the heap. -/
theorem sbrkEnd_grow (hpos : 0 < n.toInt) (hend : sbrkEnd v.start v.end_ n = some end_) :
    end_ % PG_SIZE = 0 ∧ end_ ≤ HEAP_MAX ∧ (v.end_ < MAX_VA → v.end_ ≤ end_) := by
  obtain ⟨hn, hn'⟩ := (toInt_pos_iff n).mp hpos
  simp only [sbrkEnd, if_pos hpos] at hend
  split at hend
  · cases hend
  rename_i hle
  injection hend with hend
  subst hend
  refine ⟨(PG_ROUND_UP_aligned _).1, by omega, fun hlow => ?_⟩
  have hmod : (v.end_ + n.toNat) % 2 ^ 64 = v.end_ + n.toNat := by
    refine Nat.mod_eq_of_lt ?_
    simp only [MAX_VA] at hlow
    omega
  rw [hmod, PG_ROUND_UP_eq (by simp only [MAX_VA, PG_SIZE] at *; omega)]
  simp only [PG_SIZE]
  omega

/-- Shrinking keeps the end of the heap at or after its start, and at or before the
old end unless the heap is out of reach. -/
theorem sbrkEnd_shrink (hv : v.Ok) (hheap : v.start ≤ v.end_ ∨ MAX_VA ≤ v.start) (hneg : n.toInt < 0)
    (hend : sbrkEnd v.start v.end_ n = some end_) :
    end_ % PG_SIZE = 0 ∧ end_ < 2 ^ 64 ∧ v.start ≤ end_ ∧ (end_ ≤ v.end_ ∨ MAX_VA ≤ v.start) := by
  have hn := (toInt_neg_iff n).mp hneg
  have hlt := n.isLt
  have hstart := hv.start_lt
  have hendlt := hv.end_lt
  simp only [sbrkEnd, if_neg (show ¬ 0 < n.toInt by omega), if_pos hneg] at hend
  split at hend
  · cases hend
  rename_i hle
  injection hend with hend
  subst hend
  have hround := PG_ROUND_DOWN_aligned ((v.end_ + n.toNat) % 2 ^ 64)
  have hmodlt := Nat.mod_lt (v.end_ + n.toNat) (show 0 < 2 ^ 64 by decide)
  have hneg' : (-n).toNat = 2 ^ 64 - n.toNat := by
    rw [BitVec.toNat_neg]
    exact Nat.mod_eq_of_lt (by omega)
  rw [hneg'] at hle
  refine ⟨?_, by omega, le_max_left _ _, ?_⟩
  · rcases Nat.le_total v.start (PG_ROUND_DOWN ((v.end_ + n.toNat) % 2 ^ 64)) with hcase | hcase
    · rw [max_eq_right hcase]
      exact hround.1
    · rw [max_eq_left hcase]
      exact hv.start_aligned
  · rcases hheap with hheap | hhigh
    · left
      omega
    · exact .inr hhigh

/-- A heap with a new end is as good as the old one. -/
theorem ok_setEnd (hv : v.Ok) (haligned : end_ % PG_SIZE = 0) (hlt : end_ < 2 ^ 64)
    (hle : end_ ≤ v.end_ ∨ end_ ≤ TRAPFRAME ∨ MAX_VA ≤ v.start) : Vma.Ok { v with end_ := end_ } := by
  refine ⟨hv.start_aligned, haligned, hv.start_lt, hlt, hv.perm, hv.user, fun hpos => ?_⟩
  have hrange := hv.range
  dsimp only at hpos ⊢
  omega

/-- The process after its heap has got a new end. -/
theorem procSpace_setEnd (h : ProcSpace k s p) (hp : p.pagetable ≠ 0)
    (hinj : ∀ a ∈ p.vma_list, a.addr = v.addr → a = v) (hok : Vma.Ok { v with end_ := end_ })
    (hheap : v.start ≤ end_ ∨ MAX_VA ≤ v.start)
    (htop : ∀ u, USER_VPNS ≤ u → u < 2 ^ 26 → s'.leafPte p.pagetable u = s.leafPte p.pagetable u)
    (hkeep : ∀ u < USER_VPNS, Has (s'.leafPte p.pagetable u) PTE_V →
      s'.leafPte p.pagetable u = s.leafPte p.pagetable u ∧ (v.Covers (u * PG_SIZE) → u * PG_SIZE < end_)) :
    ProcSpace k s' { p with vma_list := setEnd p.vma_list v end_ } := by
  refine ⟨fun _ => ?_, fun hzero => absurd hzero hp, fun a ha hflag => ?_⟩
  · exact ⟨(h.user hp).1, addrSpace_setEnd (h.user hp).2 hinj hok htop hkeep⟩
  · rcases mem_setEnd ha hinj with rfl | ha
    · exact hheap
    · exact h.heap a ha hflag

theorem vma_find_by_flags_some {flags : Nat} (h : vma_find_by_flags vmas flags = some v) :
    v ∈ vmas ∧ v.flags &&& flags ≠ 0 := by
  refine ⟨List.mem_of_find?_eq_some h, ?_⟩
  have hcond := List.find?_some h
  simpa using hcond

/-- The process and the others after `proc_sbrk`. -/
structure Resized (k : Symbols) (s s' : Kmem) (own own' : Nat → Option Owner) (p : Proc) (rest : List Proc)
    (n : BitVec 64) : Prop where
  world : World k s' own' ((sbrkResult p n).2 :: rest)
  effect : Effect (Owner.InSpace p.pagetable) (rootsOf (p :: rest)) s s' own own'
  view : ∀ y, s'.view p.pagetable y =
    if (sbrkFrees (heapOf p.vma_list) n).1 ≤ y ∧ y < (sbrkFrees (heapOf p.vma_list) n).2 then 0
    else s.view p.pagetable y
  gone : ∀ u, (sbrkFrees (heapOf p.vma_list) n).1 ≤ u * PG_SIZE → u * PG_SIZE < (sbrkFrees (heapOf p.vma_list) n).2 →
    ¬ Has (s'.leafPte p.pagetable u) PTE_V
  kept : ∀ u < 2 ^ 26, ¬ ((sbrkFrees (heapOf p.vma_list) n).1 ≤ u * PG_SIZE ∧
    u * PG_SIZE < (sbrkFrees (heapOf p.vma_list) n).2) → s'.leafPte p.pagetable u = s.leafPte p.pagetable u
  freed : ∀ q, own' q = own q ∨ own' q = none
  same : 0 ≤ n.toInt ∨ (sbrkResult p n).1 = -1 → s' = s

/-- The heap grows without a page, or shrinks after the pages it loses are gone. -/
theorem Resized.of_cleared (hw : World k s own (p :: rest)) (hp : p.pagetable ≠ 0)
    (hfind : vma_find_by_flags p.vma_list VMA_HEAP = some v) (hend : sbrkEnd v.start v.end_ n = some end_)
    (hneg : n.toInt < 0)
    (hclear : Cleared s s' own own' (rootsOf (p :: rest)) p.pagetable (end_ / PG_SIZE) (nrPages end_ v.end_)) :
    Resized k s s' own own' p rest n := by
  have hspace := (hw.proc p (by simp)).toProcSpace
  obtain ⟨hv, hflag⟩ := vma_find_by_flags_some hfind
  have hok := (hspace.user hp).2.areas v hv
  obtain ⟨haligned, hlt, hstart, hle⟩ := sbrkEnd_shrink hok (hspace.heap v hv hflag) hneg hend
  have hinj : ∀ a ∈ p.vma_list, a.addr = v.addr → a = v := fun a ha heq => hw.area_inj ha hv heq
  have hres : sbrkResult p n = ((v.end_ : Int), { p with vma_list := setEnd p.vma_list v end_ }) := by
    simp only [sbrkResult, hfind, hend]
  have hfrees : sbrkFrees (heapOf p.vma_list) n = (end_, v.end_) := by
    simp only [sbrkFrees, heapOf, hfind, Option.map_some, hend, if_pos hneg]
  have hpages := mem_pages haligned hok.end_aligned
  have hpage : ∀ u, end_ ≤ u * PG_SIZE ∧ u * PG_SIZE < v.end_ ↔
      end_ / PG_SIZE ≤ u ∧ u < end_ / PG_SIZE + nrPages end_ v.end_ := by
    intro u
    rw [hpages, Nat.mul_div_cancel _ (by decide)]
  refine ⟨?_, hclear.effect, fun y => ?_, fun u hlo hhi => ?_, fun u hu hout => ?_, hclear.freed, fun hsame => ?_⟩
  · rw [hres]
    refine hw.inSpace hp hclear.spaces hclear.effect.touches rfl rfl rfl rfl (setEnd_addr _ _ _) ?_
    have hrange := hok.range
    refine procSpace_setEnd hspace hp hinj (ok_setEnd hok haligned hlt (by omega)) (.inl hstart) (fun u hlo hhi => ?_)
      fun u hu hvalid => ?_
    · refine hclear.outside u hhi ?_
      simp only [nrPages, USER_VPNS, TRAPFRAME, TRAMPOLINE, MAX_VA, PG_SIZE] at *
      omega
    · have hout : ¬ (end_ / PG_SIZE ≤ u ∧ u < end_ / PG_SIZE + nrPages end_ v.end_) :=
        fun hin => hclear.inside u hin.1 hin.2 hvalid
      refine ⟨hclear.outside u (USER_VPNS_lt hu) (by omega), fun hcov => ?_⟩
      by_contra hge
      exact hout ((hpage u).mp ⟨by omega, hcov.2⟩)
  · rw [hclear.view, hfrees]
    simp only [hpages]
  · rw [hfrees] at hlo hhi
    obtain ⟨hlo, hhi⟩ := (hpage u).mp ⟨hlo, hhi⟩
    exact hclear.inside u hlo hhi
  · rw [hfrees, hpage] at hout
    exact hclear.outside u hu (by omega)
  · rw [hres] at hsame
    dsimp only at hsame
    omega

/-- Only the end of the heap changes. -/
theorem Resized.of_grown (hw : World k s own (p :: rest)) (hp : p.pagetable ≠ 0)
    (hfind : vma_find_by_flags p.vma_list VMA_HEAP = some v) (hend : sbrkEnd v.start v.end_ n = some end_)
    (hpos : 0 < n.toInt) : Resized k s s own own p rest n := by
  have hspace := (hw.proc p (by simp)).toProcSpace
  obtain ⟨hv, hflag⟩ := vma_find_by_flags_some hfind
  have hok := (hspace.user hp).2.areas v hv
  obtain ⟨haligned, hmax, hle⟩ := sbrkEnd_grow hpos hend
  have hheap := hspace.heap v hv hflag
  have hinj : ∀ a ∈ p.vma_list, a.addr = v.addr → a = v := fun a ha heq => hw.area_inj ha hv heq
  have hres : sbrkResult p n = ((v.end_ : Int), { p with vma_list := setEnd p.vma_list v end_ }) := by
    simp only [sbrkResult, hfind, hend]
  have hfrees : sbrkFrees (heapOf p.vma_list) n = (0, 0) := by
    simp only [sbrkFrees, heapOf, hfind, Option.map_some, hend, if_neg (show ¬ n.toInt < 0 by omega)]
  have htop : end_ ≤ TRAPFRAME := hmax.trans (by decide)
  refine ⟨?_, .refl _ _ s own, fun y => ?_, by simp [hfrees], fun _ _ _ => rfl, fun _ => .inl rfl, fun _ => rfl⟩
  · rw [hres]
    refine hw.inSpace hp hw.memory.spaces (.refl _ s own) rfl rfl rfl rfl (setEnd_addr _ _ _) ?_
    have hlt : end_ < 2 ^ 64 := Nat.lt_of_le_of_lt htop (by decide)
    refine procSpace_setEnd hspace hp hinj (ok_setEnd hok haligned hlt (.inr (.inl htop))) ?_ (fun _ _ _ => rfl)
      fun u hu _ => ⟨rfl, fun hcov => ?_⟩
    · have hrange := hok.range
      simp only [TRAPFRAME, TRAMPOLINE, MAX_VA, PG_SIZE] at *
      omega
    · have hrange := hok.range (Nat.lt_of_le_of_lt hcov.1 hcov.2)
      have hlo := hcov.1
      have hhi := hcov.2
      simp only [USER_VPNS, TRAPFRAME, TRAMPOLINE, MAX_VA, PG_SIZE] at *
      omega
  · rw [hfrees, if_neg (by simp)]

theorem Resized.refl (hw : World k s own (p :: rest)) (hres : (sbrkResult p n).2 = p)
    (hfrees : sbrkFrees (heapOf p.vma_list) n = (0, 0)) : Resized k s s own own p rest n := by
  refine ⟨?_, .refl _ _ s own, fun y => ?_, by simp [hfrees], fun _ _ _ => rfl, fun _ => .inl rfl, fun _ => rfl⟩
  · rwa [hres]
  · rw [hfrees, if_neg (by simp)]

theorem proc_sbrk_spec (hw : World k s own (p :: rest)) (hp : p.pagetable ≠ 0) (n : BitVec 64)
    (hhigh : ∀ a ∈ p.vma_list, MAX_VA ≤ a.start → a.start < a.end_ → E (.panic "walk: va >= MAX_VA")) :
    wpe E (proc_sbrk p n) (fun res s' => res = sbrkResult p n ∧ ∃ own', Resized k s s' own own' p rest n) s := by
  cases hfind : vma_find_by_flags p.vma_list VMA_HEAP with
  | none =>
    have hres : sbrkResult p n = (-1, p) := by simp only [sbrkResult, hfind]
    simp only [proc_sbrk, hfind, wpe_pure]
    exact ⟨hres.symm, own, .refl hw (by rw [hres]) (by simp only [sbrkFrees, heapOf, hfind, Option.map_none])⟩
  | some v =>
    obtain ⟨hv, -⟩ := vma_find_by_flags_some hfind
    have hspace := (hw.proc p (by simp)).toProcSpace
    have hok := (hspace.user hp).2.areas v hv
    have hfail : sbrkEnd v.start v.end_ n = none → (-1, p) = sbrkResult p n ∧ ∃ own', Resized k s s own own' p rest n := by
      intro hnone
      have hres : sbrkResult p n = (-1, p) := by simp only [sbrkResult, hfind, hnone]
      exact ⟨hres.symm, own, .refl hw (by rw [hres])
        (by simp only [sbrkFrees, heapOf, hfind, Option.map_some, hnone])⟩
    simp only [proc_sbrk, hfind, wpe_ite, wpe_bind, wpe_pure]
    refine ⟨fun hpos => ⟨fun hgt => hfail ?_, fun hle => ?_⟩, fun hnpos => ⟨fun hneg => ⟨fun hgt => hfail ?_, fun hle => ?_⟩,
      fun hzero => ?_⟩⟩
    · simp only [sbrkEnd, if_pos hpos, if_pos hgt]
    · have hend : sbrkEnd v.start v.end_ n = some (PG_ROUND_UP ((v.end_ + n.toNat) % 2 ^ 64)) := by
        simp only [sbrkEnd, if_pos hpos, if_neg hle]
      exact ⟨by simp only [sbrkResult, hfind, hend], own, .of_grown hw hp hfind hend hpos⟩
    · simp only [sbrkEnd, if_neg hnpos, if_pos hneg, if_pos hgt]
    · obtain ⟨end_, hdef⟩ : ∃ end_, max v.start (PG_ROUND_DOWN ((v.end_ + n.toNat) % 2 ^ 64)) = end_ := ⟨_, rfl⟩
      have hend : sbrkEnd v.start v.end_ n = some end_ := by
        simp only [sbrkEnd, if_neg hnpos, if_pos hneg, if_neg hle, hdef]
      have hmax : (if PG_ROUND_DOWN ((v.end_ + n.toNat) % 2 ^ 64) < v.start then v.start
          else PG_ROUND_DOWN ((v.end_ + n.toNat) % 2 ^ 64)) = end_ := by
        rw [← hdef]
        split <;> omega
      obtain ⟨haligned, hlt, hstart, -⟩ := sbrkEnd_shrink hok (hspace.heap v hv (vma_find_by_flags_some hfind).2) hneg hend
      have hcut : Vma.Ok { v with start := end_ } := by
        refine ⟨haligned, hok.end_aligned, hlt, hok.end_lt, hok.perm, hok.user, fun hpos => ?_⟩
        have hrange := hok.range
        dsimp only at hpos ⊢
        omega
      rw [hmax]
      have hspec := unmapArea_spec (E := E) hw.memory.spaces (root_mem (List.mem_cons_self ..) hp) hcut fun hge hlt => ?_
      · refine wpe_mono hspec ?_
        rintro _ s' ⟨own', hclear⟩
        exact ⟨by simp only [sbrkResult, hfind, hend], own', .of_cleared hw hp hfind hend hneg hclear⟩
      · have hrange := hok.range
        dsimp only at hge hlt
        refine hhigh v hv ?_ (by omega)
        simp only [TRAPFRAME, TRAMPOLINE, MAX_VA, PG_SIZE] at *
        omega
    · have hend : sbrkEnd v.start v.end_ n = some v.end_ := by
        simp only [sbrkEnd, if_neg hnpos, if_neg hzero]
      have hres : sbrkResult p n = ((v.end_ : Int), p) := by
        simp only [sbrkResult, hfind, hend, setEnd_self fun a ha heq => hw.area_inj ha hv heq]
      exact ⟨hres.symm, own, .refl hw (by rw [hres])
        (by simp only [sbrkFrees, heapOf, hfind, Option.map_some, hend, if_neg hzero])⟩

end Vm

end bobchouos
