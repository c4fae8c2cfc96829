import BobchouOS.Vm.Teardown

open lib

namespace bobchouos

namespace Vm

variable {k : Symbols} {binaries : List Binary} {s s' : Kmem} {own own' : Nat → Option Owner} {procs rest : List Proc}
  {p q : Proc} {pa pb v : Nat} {o : Owner}

/-- Number of the valid leaves of a process that are in one of its areas and point to
the page. -/
def leafCount (s : Kmem) (q : Proc) (pa : Nat) : Nat :=
  (List.range (2 ^ 27)).countP fun v => decide (Has (s.leafPte q.pagetable v) PTE_V ∧
    pte_to_pa (s.leafPte q.pagetable v) = pa ∧ ∃ a ∈ q.vma_list, a.Covers (v * PG_SIZE))

/-- The leaves that are counted are the entries for the page. -/
theorem World.leaf_iff (h : World k s own procs) (hq : q ∈ procs) (hq0 : q.pagetable ≠ 0) (hv : v < 2 ^ 27) :
    (Has (s.leafPte q.pagetable v) PTE_V ∧ pte_to_pa (s.leafPte q.pagetable v) = pa ∧
      ∃ a ∈ q.vma_list, a.Covers (v * PG_SIZE)) ↔ (s.entry q.pagetable v).map Prod.fst = some pa := by
  have hspace := ((h.proc q hq).user hq0).2
  constructor
  · rintro ⟨hvalid, rfl, a, ha, hcov⟩
    rcases (hspace.areas a ha).range (Nat.lt_of_le_of_lt hcov.1 hcov.2) with hend | hstart
    · have hlt : v < USER_VPNS := by
        have hcov := hcov.2
        simp only [USER_VPNS, TRAPFRAME, TRAMPOLINE, MAX_VA, PG_SIZE] at *
        omega
      rw [entry_eq hlt hvalid]
      rfl
    · have hge : 2 ^ 26 ≤ v := by
        have hcov := hcov.1
        simp only [MAX_VA, PG_SIZE] at *
        omega
      rw [(h.memory.spaces.tables _ (root_mem hq hq0)).leafPte_upper hge hv] at hvalid
      exact absurd hvalid (by decide)
  · intro heq
    obtain ⟨⟨_, w⟩, he, rfl⟩ := Option.map_eq_some_iff.mp heq
    obtain ⟨hlt, hvalid, hpa, -⟩ := entry_some he
    obtain ⟨a, ha, hcov, -⟩ := hspace.covered v hlt hvalid
    exact ⟨hvalid, hpa, a, ha, hcov⟩

theorem World.leafCount_eq (h : World k s own procs) (hq : q ∈ procs) (hown : own pa = some (.user v)) :
    leafCount s q pa = if q.pagetable ≠ 0 ∧ (s.entry q.pagetable v).map Prod.fst = some pa then 1 else 0 := by
  unfold leafCount
  by_cases hq0 : q.pagetable = 0
  · simp [(h.proc q hq).kernel hq0, hq0]
  have hhome : ∀ u, (s.entry q.pagetable u).map Prod.fst = some pa → u = v := by
    intro u heq
    obtain ⟨⟨_, w⟩, he, rfl⟩ := Option.map_eq_some_iff.mp heq
    have hu := h.memory.spaces.user_iff.mpr ⟨_, root_mem hq hq0, w, he⟩
    rw [hown] at hu
    cases hu
    rfl
  have hv : v < 2 ^ 27 := by
    obtain ⟨_, _, _, he⟩ := h.memory.spaces.user_iff.mp hown
    exact Nat.lt_trans (USER_VPNS_lt (entry_some he).1) (by decide)
  rw [countP_of_unique List.nodup_range (List.mem_range.mpr hv)]
  · simp only [decide_eq_true_eq, h.leaf_iff hq hq0 hv, ne_eq, hq0, not_false_eq_true, true_and]
  · intro u hu hP
    rw [decide_eq_true_eq, h.leaf_iff hq hq0 (List.mem_range.mp hu)] at hP
    exact hhome u hP

theorem refs_rootsOf (entry : Nat → Nat → Option (Nat × Bool)) (v pa : Nat) (procs : List Proc) :
    refs (rootsOf procs) entry v pa =
      (procs.map fun q => if q.pagetable ≠ 0 ∧ (entry q.pagetable v).map Prod.fst = some pa then 1 else 0).sum := by
  induction procs with
  | nil => rfl
  | cons q procs ih =>
    rw [List.map_cons, List.sum_cons, ← ih]
    by_cases hq : q.pagetable = 0
    · simp [rootsOf_kernel hq, hq]
    · rw [rootsOf_user hq, refs, List.countP_cons, Nat.add_comm]
      simp [hq, refs]

/-- What holds of a page that processes have mapped. -/
structure Counted (s : Kmem) (procs : List Proc) (pa : Nat) : Prop where
  count : (s.pa_to_page pa).refcount = (procs.map fun q => leafCount s q pa).sum
  bound : (s.pa_to_page pa).refcount + 1 < 2 ^ 16
  shared : 1 < (s.pa_to_page pa).refcount → ∀ q ∈ procs, q.pagetable ≠ 0 → ∀ v w,
    s.entry q.pagetable v = some (pa, w) → ¬ Has (s.leafPte q.pagetable v) PTE_W
  inUse : InUse s pa
  own : ∀ q ∈ procs, ¬ Holds s q pa
  order : (s.pa_to_page pa).order = 0
  apart : ∀ pb, InUse s pb ∨ OnSlabList s pb → pb ≠ pa →
    pa + PG_SIZE ≤ pb ∨ pb + PG_SIZE <<< (s.pa_to_page pb).order ≤ pa

theorem World.counted (h : World k s own procs) (hq : q ∈ procs) (hmaps : Maps s q pa) : Counted s procs pa := by
  obtain ⟨v, hown⟩ := h.maps_iff.mp ⟨q, hq, hmaps⟩
  have hpages := h.memory.spaces.pages
  have hcount := h.memory.spaces.sharing.count_eq pa v (home_eq_some.mpr hown)
  have hbound := Nat.add_le_add_right (h.memory.spaces.refcount_lt hown) 1
  refine ⟨?_, Nat.lt_of_le_of_lt hbound (by decide), fun hmany p hp hp0 u w he hwrite => ?_,
    h.inUse_iff.mpr ⟨_, hown, nofun⟩, fun p hp hholds => ?_, (hpages.page hown).2, fun pb hpb hne => ?_⟩
  · rw [hcount, refs_rootsOf]
    exact congrArg List.sum (List.map_congr_left fun p hp => (h.leafCount_eq hp hown).symm)
  · have hw : w = true := by rw [(entry_some he).2.2.2, decide_eq_true hwrite]
    rw [hw] at he
    have hone := h.memory.spaces.sharing.sole _ (root_mem hp hp0) u pa he
    omega
  · obtain ⟨o, ho, hholder⟩ := (h.holds_iff hp).mp hholds
    rw [hown] at ho
    cases ho
    rcases hholder with heq | heq | ⟨-, _, heq⟩ <;> cases heq
  · obtain ⟨o, ho⟩ : ∃ o, own pb = some o := by
      rcases hpb with huse | hslab
      · obtain ⟨o, ho, -⟩ := h.inUse_iff.mp huse
        exact ⟨o, ho⟩
      · obtain ⟨c, hc⟩ := h.memory.objects.slabs.onSlabList_iff.mp hslab
        exact ⟨_, hc⟩
    rw [(hpages.page ho).2]
    exact hpages.blocks_apart hown ho (Ne.symm hne)

namespace Machine

variable {m : Machine}

/-- The operation runs a program whose segments overlap. -/
def Op.ExecsOverlapping (binaries : List Binary) : Op → Prop
  | .init_start _ => Overlaps binaries initName
  | .exec _ path _ => Overlaps binaries path
  | _ => False

/-- In every reachable state the count of a mapped page is the number of leaves that
point to it, and no leaf of a shared page is writable. No operation trips a check of
`page_get` or `page_put`, unless it runs a program whose segments overlap. -/
theorem refcount_invariant (hreach : (system k binaries).Reachable m) :
    (∀ q ∈ m.procs, ∀ pa, Maps m.kmem q pa → Counted m.kmem m.procs pa) ∧
    ∀ (op : Op) e, op.Legal m → op.run k binaries m = .error e →
      e = .panic "page_get: refcount 0 (use-after-free)" ∨ e = .panic "page_put: refcount already 0" →
      op.ExecsOverlapping binaries := by
  obtain ⟨own, hinv⟩ := inv_of_reachable hreach
  refine ⟨fun q hq pa hmaps => hinv.world.counted hq hmaps, fun op e hlegal hrun he => ?_⟩
  have hhalts : op.Halts binaries m e := (run_halts hinv hlegal).halts hrun
  cases op with
  | kalloc => exact hhalts.elim
  | exit i => exact hhalts.elim
  | create name =>
    obtain rfl : e = _ := hhalts
    simp at he
  | init_start i =>
    rcases hhalts with rfl | hover
    · simp at he
    · exact hover
  | exec i path argv =>
    rcases hhalts with ⟨-, rfl⟩ | hover
    · simp at he
    · exact hover
  | fork i =>
    rcases hhalts with ⟨-, rfl⟩ | ⟨-, rfl⟩ <;> simp at he
  | load i va len => simp [hhalts.2] at he
  | store i va src => simp [hhalts.2] at he
  | copyin i va len => simp [hhalts.2.2] at he
  | copyinstr i va max => simp [hhalts.2.2] at he
  | copyout i va src => simp [hhalts.2.2] at he
  | sbrk i n => simp [hhalts.2] at he
  | reap i => simp [hhalts.2] at he

theorem refcount_invariant_forked : ∃ m p c, (system smallKernel [initBinary]).Reachable m ∧ m.procs = [p, c] ∧
    ∃ pa, Maps m.kmem p pa ∧ Maps m.kmem c pa ∧ Counted m.kmem m.procs pa := by
  obtain ⟨m, -, hreach, -, hP⟩ := exists_of_bootRun smallKernel [initBinary] [.create [], .init_start 0, .fork 0]
    (fun m _ => m.procs[0]?.any fun (p : Proc) => m.procs[1]?.any fun (c : Proc) => decide (m.procs.length = 2 ∧
      p.pagetable ≠ 0 ∧ c.pagetable ≠ 0 ∧ Has (m.kmem.leafPte p.pagetable 1) PTE_V ∧
      Has (m.kmem.leafPte c.pagetable 1) PTE_V ∧
      pte_to_pa (m.kmem.leafPte c.pagetable 1) = pte_to_pa (m.kmem.leafPte p.pagetable 1))) (by decide +kernel)
  obtain ⟨p, hpget, hP⟩ := (Option.any_eq_true _ _).mp hP
  obtain ⟨c, hcget, hP⟩ := (Option.any_eq_true _ _).mp hP
  obtain ⟨hlen, hp0, hc0, hp, hc, heq⟩ := of_decide_eq_true hP
  have hprocs : m.procs = [p, c] := by
    obtain ⟨a, b, hab⟩ := List.length_eq_two.mp hlen
    rw [hab] at hpget hcget ⊢
    rw [Option.some.inj hpget, Option.some.inj hcget]
  have hlt : 1 < USER_VPNS := by decide
  have hpmaps : Maps m.kmem p _ := ⟨hp0, 1, _, entry_eq hlt hp⟩
  have hcmaps : Maps m.kmem c _ := ⟨hc0, 1, _, entry_eq hlt hc⟩
  rw [heq] at hcmaps
  exact ⟨m, p, c, hreach, hprocs, _, hpmaps, hcmaps, (refcount_invariant hreach).1 p (by simp [hprocs]) _ hpmaps⟩

end Machine

end Vm

end bobchouos
