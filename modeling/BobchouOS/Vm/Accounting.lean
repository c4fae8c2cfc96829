import BobchouOS.Vm.Heap
import BobchouOS.Vm.Programs

open lib

namespace bobchouos

/-- The page is on the slab list of a size class. -/
def OnSlabList (s : Kmem) (pa : Nat) : Prop :=
  ∃ c < NR_SIZE_CLASSES, ∃ l, Chain (fun pg => (s.pa_to_page pg).slab.next_slab) (s.size_classes c).slabs l ∧ pa ∈ l

/-- The address starts a block that was allocated and not freed, and that `kmalloc` does
not cut into slots. -/
def InUse (s : Kmem) (pa : Nat) : Prop :=
  pa % PG_SIZE = 0 ∧ s.free_start ≤ pa ∧ pa < PHYS_STOP ∧ (s.pa_to_page pa).refcount ≠ 0 ∧ ¬ OnSlabList s pa

/-- The address is a slot of a slab and not on the slab's free list. -/
def SlotInUse (s : Kmem) (x : Nat) : Prop :=
  ∃ c < NR_SIZE_CLASSES, ∃ l pg free, Chain (fun pg => (s.pa_to_page pg).slab.next_slab) (s.size_classes c).slabs l ∧ pg ∈ l ∧
    x ∈ slotsOf c pg ∧ Chain s.next (s.pa_to_page pg).slab.free_list free ∧ x ∉ free

section InUse

variable {T : Owner → Prop} {s s' : Kmem} {own own' : Nat → Option Owner} {objs : List Nat} {pa v : Nat} {o : Owner}

theorem Pages.start_le (h : Pages s own) (hpa : own pa = some o) : s.free_start ≤ pa := by
  obtain ⟨free, live, hbuddy, hown⟩ := h
  have hne : own pa ≠ none := by simp [hpa]
  obtain ⟨b, hb, rfl, -⟩ := block_of_owned hown hne
  exact (hbuddy.range_of_held hb).1

theorem Slabs.onSlabList_iff (h : Slabs s own objs) : OnSlabList s pa ↔ ∃ c, own pa = some (.slab c) := by
  obtain ⟨lists, frees, hinv, -⟩ := h
  constructor
  · rintro ⟨c, hc, l, hl, hpa⟩
    cases hl.unique (hinv.chain c hc)
    exact ⟨c, hinv.owned_of_mem hc hpa⟩
  · rintro ⟨c, hpa⟩
    obtain ⟨hc, hmem⟩ := (hinv.owned c pa).mp hpa
    exact ⟨c, hc, lists c, hinv.chain c hc, hmem⟩

theorem Slabs.slotInUse_iff {x : Nat} (h : Slabs s own objs) : SlotInUse s x ↔ x ∈ objs := by
  obtain ⟨lists, frees, hinv, -⟩ := h
  constructor
  · rintro ⟨c, hc, l, pg, free, hl, hpg, hx, hfree, hnot⟩
    cases hl.unique (hinv.chain c hc)
    have hpage := hinv.page c hc pg hpg
    cases hfree.unique hpage.chain
    by_contra hobj
    exact hnot ((hpage.slots x hx).mpr hobj)
  · intro hx
    obtain ⟨c, pg, hown, hslot⟩ := hinv.objs_slot x hx
    obtain ⟨hc, hpg⟩ := (hinv.owned c pg).mp hown
    have hpage := hinv.page c hc pg hpg
    exact ⟨c, hc, lists c, pg, frees pg, hinv.chain c hc, hpg, hslot, hpage.chain,
      fun hfree => (hpage.slots x hslot).mp hfree hx⟩

/-- The blocks in use are those with an owner other than the slab allocator. -/
theorem inUse_iff (h : Pages s own) (hslabs : Slabs s own objs) :
    InUse s pa ↔ ∃ o, own pa = some o ∧ ∀ c, o ≠ .slab c := by
  constructor
  · rintro ⟨haligned, hlo, hhi, href, hnot⟩
    cases hown : own pa with
    | none => exact absurd (h.refcount_zero hown haligned hlo hhi) href
    | some o =>
      refine ⟨o, rfl, ?_⟩
      rintro c rfl
      exact hnot (hslabs.onSlabList_iff.mpr ⟨c, hown⟩)
  · rintro ⟨o, hown, hslab⟩
    have hrange := h.range_of hown
    have href := (h.page hown).1
    refine ⟨hrange.1, h.start_le hown, ?_, by omega, fun hlist => ?_⟩
    · have hpos : 0 < PG_SIZE := by decide
      omega
    obtain ⟨c, hc⟩ := hslabs.onSlabList_iff.mp hlist
    rw [hown] at hc
    exact hslab c (Option.some.inj hc)

/-- A user page is one that some address space maps. -/
theorem Spaces.user_iff {roots : List Nat} (h : Spaces s own roots) :
    own pa = some (.user v) ↔ ∃ r ∈ roots, ∃ w, s.entry r v = some (pa, w) := by
  constructor
  · intro hown
    have hcount := h.sharing.count_eq pa v (home_eq_some.mpr hown)
    have hpos := (h.pages.page hown).1
    rw [hcount] at hpos
    obtain ⟨r, hr, he⟩ := List.countP_pos_iff.mp hpos
    obtain ⟨⟨_, w⟩, hentry, rfl⟩ := Option.map_eq_some_iff.mp (of_decide_eq_true he)
    exact ⟨r, hr, w, hentry⟩
  · rintro ⟨r, hr, w, he⟩
    exact home_eq_some.mp (h.sharing.home_of r hr v pa w he)

end InUse

namespace Vm

variable {k : Symbols} {binaries : List Binary} {path : Bytes} {argv : List Bytes} {s s' : Kmem}
  {own own' : Nat → Option Owner} {procs procs' rest : List Proc} {p p' q : Proc} {pa tf : Nat}

theorem World.inUse_iff (h : World k s own procs) : InUse s pa ↔ ∃ o, own pa = some o ∧ ∀ c, o ≠ .slab c :=
  bobchouos.inUse_iff h.memory.spaces.pages h.memory.objects.slabs

/-- The process has the page in its address space. -/
def Maps (s : Kmem) (q : Proc) (pa : Nat) : Prop := q.pagetable ≠ 0 ∧ ∃ v w, s.entry q.pagetable v = some (pa, w)

/-- The page is a table of the process. -/
def IsTableOf (s : Kmem) (q : Proc) (pa : Nat) : Prop :=
  q.pagetable ≠ 0 ∧ ∃ path, IsPath path ∧ s.tableAt q.pagetable path = some pa

/-- The process alone has the page. -/
def Holds (s : Kmem) (q : Proc) (pa : Nat) : Prop :=
  pa = q.kstack ∨ (q.trapframe ≠ 0 ∧ pa = q.trapframe) ∨ IsTableOf s q pa

/-- What the processes have for themselves. -/
def OfHolder (q : Proc) (o : Owner) : Prop :=
  o = .kstack q.addr ∨ o = .trapframe q.addr ∨ q.pagetable ≠ 0 ∧ o.IsTable q.pagetable

theorem World.addr_inj (h : World k s own procs) (hp : p ∈ procs) (hq : q ∈ procs) (heq : q.addr = p.addr) : q = p := by
  have hnodup := (List.nodup_append.mp h.memory.objects.slabs.nodup).2.1
  exact List.inj_on_of_nodup_map hnodup hq hp heq

theorem World.maps_iff (h : World k s own procs) :
    (∃ q ∈ procs, Maps s q pa) ↔ ∃ v, own pa = some (.user v) := by
  constructor
  · rintro ⟨q, hq, hq0, v, w, he⟩
    exact ⟨v, h.memory.spaces.user_iff.mpr ⟨_, root_mem hq hq0, w, he⟩⟩
  · rintro ⟨v, hown⟩
    obtain ⟨r, hr, w, he⟩ := h.memory.spaces.user_iff.mp hown
    obtain ⟨hr0, q, hq, rfl⟩ := mem_rootsOf.mp hr
    exact ⟨q, hq, hr0, v, w, he⟩

theorem World.isTableOf_iff (h : World k s own procs) (hq : q ∈ procs) :
    IsTableOf s q pa ↔ q.pagetable ≠ 0 ∧ ∃ path, own pa = some (.table q.pagetable path) := by
  unfold IsTableOf
  refine and_congr_right fun hq0 => exists_congr fun path => ?_
  exact ((h.memory.spaces.tables _ (root_mem hq hq0)).owner path pa).symm

theorem World.holds_iff (h : World k s own procs) (hq : q ∈ procs) : Holds s q pa ↔ ∃ o, own pa = some o ∧ OfHolder q o := by
  unfold Holds
  rw [h.isTableOf_iff hq]
  constructor
  · rintro (rfl | ⟨htf, rfl⟩ | ⟨hq0, path, hown⟩)
    · exact ⟨_, (h.proc q hq).kstack, .inl rfl⟩
    · exact ⟨_, (h.proc q hq).trapframe htf, .inr (.inl rfl)⟩
    · exact ⟨_, hown, .inr (.inr ⟨hq0, path, rfl⟩)⟩
  · rintro ⟨o, hown, rfl | rfl | ⟨hq0, path, rfl⟩⟩
    · obtain ⟨q', hq', haddr, rfl⟩ := h.kstack pa _ hown
      exact .inl (by rw [h.addr_inj hq hq' haddr])
    · obtain ⟨q', hq', haddr, rfl⟩ := h.trapframe pa _ hown
      obtain rfl := h.addr_inj hq hq' haddr
      refine .inr (.inl ⟨fun hz => ?_, rfl⟩)
      have hrange := h.memory.spaces.pages.range_of hown
      simp [hz, KERN_BASE] at hrange
    · exact .inr (.inr ⟨hq0, path, hown⟩)

/-- A failed `proc_exec` leaves the page tables of all processes as they are. -/
theorem ExecFailed.leaves (hfail : ExecFailed k binaries path argv s s' own own' p rest) (h : World k s own (p :: rest))
    {r : Nat} (hr : r ∈ rootsOf (p :: rest)) : s'.leafPte r = s.leafPte r := by
  refine h.memory.spaces.leafPte_frame hfail.effect.touches ?_ hr
  rintro path (⟨_, heq⟩ | heq | heq) <;> cases heq

theorem ExecFailed.inUse_iff (hfail : ExecFailed k binaries path argv s s' own own' p rest) (h : World k s own (p :: rest))
    (hin : InAreas k binaries path argv p.trapframe s) : InUse s' pa ↔ InUse s pa := by
  have howner : ∀ o, (∀ c, o ≠ .slab c) → (own' pa = some o ↔ own pa = some o) := by
    intro o hslab
    by_cases hT : OfExecFail o
    · rcases hT with ⟨v, rfl⟩ | rfl | rfl
      · rw [hfail.world.memory.spaces.user_iff, h.memory.spaces.user_iff]
        refine exists_congr fun r => and_congr_right fun hr => ?_
        rw [entry_congr (congrFun (hfail.leaves h hr) v)]
      · exact absurd rfl (hslab _)
      · exact ⟨hfail.loose hin pa, hfail.still pa⟩
    · exact hfail.effect.touches.owner pa o hT
  rw [hfail.world.inUse_iff, h.inUse_iff]
  exact exists_congr fun o => and_congr_left fun hslab => howner o hslab

/-- The state in which `proc_exec` looks up the program: with a trapframe. -/
def ExecStart (p : Proc) (s : Kmem) (tf : Nat) (s1 : Kmem) : Prop :=
  if p.trapframe ≠ 0 then tf = p.trapframe ∧ s1 = s
  else ∃ s0, kalloc s = .ok (tf, s0) ∧ tf ≠ 0 ∧ s1 = { s0 with mem := s0.mem.memset tf 0 PG_SIZE }

theorem Framed.start {s1 : Kmem} {own1 : Nat → Option Owner} (h : Framed k s s1 own own1 p rest tf) :
    ExecStart p s tf s1 := by
  unfold ExecStart
  split
  case isTrue hne => exact ⟨(h.same hne).1, (h.same hne).2.1⟩
  case isFalse hz =>
    obtain ⟨s0, hrun, heq⟩ := h.fresh (not_not.mp hz)
    exact ⟨s0, hrun, h.ne_zero, heq⟩

theorem Framed.inUse_iff {s1 : Kmem} {own1 : Nat → Option Owner} (hf : Framed k s s1 own own1 p rest tf)
    (h : World k s own (p :: rest)) (hpa : p.trapframe ≠ 0 ∨ pa ≠ tf) : InUse s1 pa ↔ InUse s pa := by
  by_cases hne : p.trapframe = 0
  · have howner : ∀ o, own1 pa = some o ↔ own pa = some o := by
      intro o
      by_cases ho : o = .trapframe p.addr
      · subst ho
        refine ⟨fun hown => absurd (hf.world.trapframe_only hown).symm ?_, fun hown => ?_⟩
        · exact fun heq => hpa.elim (· hne) (· heq.symm)
        · have hrange := h.memory.spaces.pages.range_of hown
          rw [h.trapframe_only hown, hne] at hrange
          simp [KERN_BASE] at hrange
      · exact hf.effect.touches.owner pa o ho
    rw [hf.world.inUse_iff, h.inUse_iff]
    exact exists_congr fun o => and_congr_left fun _ => howner o
  · rw [(hf.same hne).2.1]

theorem ExecStart.unique {tf' : Nat} {s1 s1' : Kmem} (h : ExecStart p s tf s1) (h' : ExecStart p s tf' s1') :
    tf' = tf ∧ s1' = s1 := by
  unfold ExecStart at h h'
  split at h
  case isTrue hne =>
    rw [if_pos hne] at h'
    exact ⟨h'.1.trans h.1.symm, h'.2.trans h.2.symm⟩
  case isFalse hz =>
    rw [if_neg hz] at h'
    obtain ⟨s0, hrun, -, rfl⟩ := h
    obtain ⟨s0', hrun', -, rfl⟩ := h'
    rw [hrun] at hrun'
    cases hrun'
    exact ⟨rfl, rfl⟩

namespace Machine

variable {m : Machine} {i v new_pt : Nat} {r : Int} {s1 s2 : Kmem} {vmas : List Vma}

end Machine

end Vm

end bobchouos
