import BobchouOS.Vm.Flat
import BobchouOS.Vm.Teardown
import BobchouOS.Vm.Transfers

open lib

namespace bobchouos

namespace Vm

variable {k : Symbols} {binaries : List Binary} {s s' : Kmem} {own own' : Nat → Option Owner} {procs rest : List Proc}
  {p p' q : Proc} {i v va n : Nat} {acc : Access}

def Vma.area (a : Vma) : Area := ⟨a.start, a.end_, a.perm, a.flags⟩

/-- What a process is to its program: its areas, and the bytes that its page table leads
to, with zeros where no page is mapped. -/
def flat (s : Kmem) (p : Proc) : Flat where
  user := decide (p.pagetable ≠ 0)
  zombie := p.zombie
  areas := p.vma_list.map Vma.area
  mem := if p.pagetable = 0 then fun _ => 0 else s.view p.pagetable

section Lists

theorem flats_get (hget : procs[i]? = some p) : (procs.map (flat s))[i]? = some (flat s p) := by simp [hget]

theorem flats_set (hget : procs[i]? = some p) (hrest : ∀ q ∈ procs.eraseIdx i, flat s' q = flat s q) (p' : Proc) :
    (procs.set i p').map (flat s') = (procs.map (flat s)).set i (flat s' p') := by
  refine List.ext_getElem? fun j => ?_
  by_cases hj : j = i
  · subst hj
    have hlt := (List.getElem?_eq_some_iff.mp hget).1
    simp [hlt]
  · simp only [List.getElem?_map, List.getElem?_set_ne (Ne.symm hj)]
    cases hq : procs[j]? with
    | none => rfl
    | some q => exact congrArg some (hrest q (List.mem_eraseIdx_iff_getElem?.mpr ⟨j, hj, hq⟩))

theorem flats_same (hget : procs[i]? = some p) (hrest : ∀ q ∈ procs.eraseIdx i, flat s' q = flat s q)
    (hp : flat s' p = flat s p) : procs.map (flat s') = procs.map (flat s) := by
  refine List.map_congr_left fun q hq => ?_
  rcases List.mem_cons.mp ((Machine.perm_of_get hget).mem_iff.mp hq) with rfl | hq
  · exact hp
  · exact hrest q hq

end Lists

theorem flat_of_view (hview : p.pagetable ≠ 0 → s'.view p.pagetable = s.view p.pagetable) : flat s' p = flat s p := by
  unfold flat
  split
  · rfl
  · next hp => rw [hview hp]

theorem flat_user (hp : p.pagetable ≠ 0) : flat s p = ⟨true, p.zombie, p.vma_list.map Vma.area, s.view p.pagetable⟩ := by
  simp [flat, hp]

theorem permits_flat {x : Nat} (hperm : ¬ Permits p.vma_list x acc) : ¬ (flat s p).Permits x acc := by
  rintro ⟨⟨_, hmem, hcov⟩, hall⟩
  obtain ⟨a, ha, rfl⟩ := List.mem_map.mp hmem
  exact hperm ⟨⟨a, ha, hcov⟩, fun b hb hbcov => hall _ (List.mem_map_of_mem hb) hbcov.1 hbcov.2⟩

/-- A page that cannot be granted is outside of the areas, or they do not permit the
access. -/
theorem canGrant_of_permits (hsp : AddrSpace k s p.pagetable p.trapframe p.vma_list) (hva : va < MAX_VA)
    (hperm : Permits p.vma_list va acc) : CanGrant s p (va / PG_SIZE) acc := by
  obtain ⟨⟨a, ha, hcov⟩, hall⟩ := hperm
  by_cases hvalid : Has (s.leafPte p.pagetable (va / PG_SIZE)) PTE_V
  · obtain ⟨b, hb, hbcov, hagrees⟩ := hsp.covered _ ((hsp.areas a ha).vpn_lt hcov hva) hvalid
    have hallowed := hall b hb ((hsp.areas b hb).covers_page.mp hbcov)
    cases acc with
    | load => exact .inl ⟨hvalid, hagrees.user.mpr hallowed.1, nofun⟩
    | store =>
      rcases hagrees.write.mp hallowed.2.2 with hwrite | hcow
      · exact .inl ⟨hvalid, hagrees.user.mpr hallowed.1, fun _ => hwrite⟩
      · exact .inr (.inr ⟨rfl, hvalid, hcow⟩)
  · refine .inr (.inl ⟨hvalid, fun hdenied => ?_⟩)
    cases hfind : vma_find p.vma_list (va / PG_SIZE * PG_SIZE) with
    | none => exact vma_find_none hfind a ha ((hsp.areas a ha).covers_page.mpr hcov)
    | some b =>
      obtain ⟨hb, hbcov⟩ := vma_find_some hfind
      obtain ⟨rfl, hwrite⟩ := hdenied b hfind
      exact hwrite (hall b hb ((hsp.areas b hb).covers_page.mp hbcov)).2.2

/-- Why a copy stops early. -/
theorem Fetched.reason {len : Nat} (h : Fetched s s' p acc va len n)
    (hsp : AddrSpace k s p.pagetable p.trapframe p.vma_list) :
    n = len ∨ n < len ∧ (¬ (flat s p).Permits (va + n) acc ∨ Low s') := by
  rcases Nat.lt_or_eq_of_le h.le with hlt | heq
  · obtain ⟨hva, -, hstop⟩ := h.stop hlt
    exact .inr ⟨hlt, hstop.imp_left fun hno => permits_flat fun hperm => hno (canGrant_of_permits hsp hva hperm)⟩
  · exact .inl heq

theorem map_area_of_same {vmas news : List Vma} (h : List.Forall₂ SameArea vmas news) :
    news.map Vma.area = vmas.map Vma.area := by
  induction h with
  | nil => rfl
  | cons hsame _ ih =>
    rw [List.map_cons, List.map_cons, ih, Vma.area, Vma.area, hsame.start, hsame.end_, hsame.perm, hsame.flags]

/-- The areas of a process after `proc_sbrk`. -/
theorem map_setEnd {heap : Vma} {vmas : List Vma} (end_ : Nat) (hnodup : (vmas.map Vma.addr).Nodup)
    (hfind : vma_find_by_flags vmas VMA_HEAP = some heap) : heap.flags &&& VMA_HEAP ≠ 0 ∧
    ∃ l r, vmas.map Vma.area = l ++ Vma.area heap :: r ∧
      (setEnd vmas heap end_).map Vma.area = l ++ { Vma.area heap with end_ } :: r := by
  obtain ⟨hflags, l, r, rfl, -⟩ := List.find?_eq_some_iff_append.mp hfind
  have hne : ∀ a ∈ l ++ r, a.addr ≠ heap.addr := by
    intro a ha heq
    rw [List.map_append, List.map_cons, List.nodup_middle, List.nodup_cons, ← List.map_append] at hnodup
    exact hnodup.1 (heq ▸ List.mem_map_of_mem ha)
  have hkeep : ∀ l' : List Vma, (∀ a ∈ l', a.addr ≠ heap.addr) → setEnd l' heap end_ = l' := by
    intro l' hl'
    refine (List.map_congr_left fun a ha => ?_).trans (List.map_id l')
    rw [if_neg (hl' a ha)]
    rfl
  refine ⟨of_decide_eq_true hflags, l.map Vma.area, r.map Vma.area, by simp, ?_⟩
  have hsplit : setEnd (l ++ heap :: r) heap end_ = setEnd l heap end_ ++ { heap with end_ } :: setEnd r heap end_ := by
    simp [setEnd]
  rw [hsplit, hkeep l fun a ha => hne a (List.mem_append_left _ ha), hkeep r fun a ha => hne a (List.mem_append_right _ ha)]
  simp [Vma.area]

namespace Machine

variable {m m' : Machine} {op : Op} {res : Outcome}

theorem At.flat_mem (hat : m.At i p) : (flat m.kmem p).mem = m.kmem.view p.pagetable := by rw [flat_user hat.user]

theorem At.flat (hat : m.At i p) : Flat.At (m.procs.map (flat m.kmem)) i (flat m.kmem p) :=
  ⟨by simp [hat.get], by simp [Vm.flat, hat.user], hat.alive⟩

theorem flat_starts {image : Mem} {argv : List Bytes} {path : Bytes}
    (h : Execed k image argv path s s' own own' p p' rest) (halive : p.zombie = false) :
    Flat.Starts image argv (flat s' p') := by
  rw [flat_user h.root]
  refine ⟨rfl, by rw [h.fields]; exact halive, ?_, h.program.view⟩
  obtain ⟨segs, x, y, hvmas, hsegs⟩ := h.program.areas
  have hmap : segs.map Vma.area = (segments image).map fun ph => ⟨ph.start, ph.end_, elf_to_pte ph.p_flags, 0⟩ := by
    clear hvmas
    generalize segments image = phs at hsegs
    induction hsegs with
    | nil => rfl
    | cons hph _ ih =>
      rw [List.map_cons, List.map_cons, ih, hph]
      rfl
  simp only [hvmas, List.map_append, hmap, Flat.imageAreas]
  rfl

section Did

variable (h : Inv k m own)

include h

omit h in
theorem rest_flat (hviews : ∀ r ∈ rootsOf (m.procs.eraseIdx i), s'.view r = m.kmem.view r) :
    ∀ q ∈ m.procs.eraseIdx i, flat s' q = flat m.kmem q := fun _ hq =>
  flat_of_view fun hq0 => hviews _ (root_mem hq hq0)

/-- An operation that uses the memory of one process. -/
theorem used_flat {P : Nat → Prop} {mem : Mem} (hat : m.At i p)
    (hused : Used k m.kmem s' own own' p (m.procs.eraseIdx i) P mem) :
    m.procs.map (flat s') = (m.procs.map (flat m.kmem)).set i { flat m.kmem p with mem := mem } := by
  have hp : flat s' p = { flat m.kmem p with mem := mem } := by
    rw [flat_user hat.user, flat_user hat.user, hused.view]
  have hset := flats_set hat.get (fun _ hq => flat_of_view fun hq0 => hat.views h.world hused hq hq0) p
  rwa [set_same hat.get, hp] at hset

theorem used_flat_same {P : Nat → Prop} (hat : m.At i p)
    (hused : Used k m.kmem s' own own' p (m.procs.eraseIdx i) P (m.kmem.view p.pagetable)) :
    m.procs.map (flat s') = m.procs.map (flat m.kmem) :=
  flats_same hat.get (fun _ hq => flat_of_view fun hq0 => hat.views h.world hused hq hq0)
    (flat_of_view fun _ => hused.view)

theorem flat_sbrk {n : BitVec 64} (hat : m.At i p) (hr : Resized k m.kmem s' own own' p (m.procs.eraseIdx i) n) :
    Flat.Step binaries (Low s') (m.procs.map (Vm.flat m.kmem)) (.sbrk i n) (.ret (sbrkResult p n).1)
      ((m.procs.set i (sbrkResult p n).2).map (Vm.flat s')) := by
  have hrefused : sbrkResult p n = (-1, p) → Flat.Step binaries (Low s') (m.procs.map (Vm.flat m.kmem)) (.sbrk i n)
      (.ret (sbrkResult p n).1) ((m.procs.set i (sbrkResult p n).2).map (Vm.flat s')) := by
    intro hres
    rw [hres, set_same hat.get, hr.same (.inr (by rw [hres]))]
    exact .sbrk_failed hat.flat
  cases hfind : vma_find_by_flags p.vma_list VMA_HEAP with
  | none => exact hrefused (by simp [sbrkResult, hfind])
  | some v =>
    cases hend : sbrkEnd v.start v.end_ n with
    | none => exact hrefused (by simp [sbrkResult, hfind, hend])
    | some end_ =>
      have hres : sbrkResult p n = ((v.end_ : Int), { p with vma_list := setEnd p.vma_list v end_ }) := by
        simp [sbrkResult, hfind, hend]
      have hfrees : sbrkFrees (heapOf p.vma_list) n = if n.toInt < 0 then (end_, v.end_) else (0, 0) := by
        simp [heapOf, hfind, sbrkFrees, hend]
      have hw := h.world.perm (perm_of_get hat.get)
      have hnodup : (p.vma_list.map Vma.addr).Nodup := by
        have hnodup := (List.nodup_append.mp hw.memory.objects.slabs.nodup).1
        rw [areasOf_cons] at hnodup
        exact (List.nodup_append.mp hnodup).1
      have hview : ∀ q ∈ m.procs.eraseIdx i, Vm.flat s' q = Vm.flat m.kmem q := fun _ hq =>
        flat_of_view fun hq0 => rest_views hw hr.effect hq hq0
      obtain ⟨hflags, hareas⟩ := map_setEnd end_ hnodup hfind
      rw [flats_set hat.get hview, hres]
      have hmoves : Flat.MovesBreak n (Vm.flat m.kmem p) (Vm.flat s' { p with vma_list := setEnd p.vma_list v end_ })
          (Vma.area v) end_ := by
        refine ⟨hflags, hareas, ?_, by simp [Vm.flat], rfl⟩
        rw [flat_user hat.user, flat_user (p := { p with vma_list := setEnd p.vma_list v end_ }) hat.user]
        funext y
        refine (hr.view y).trans ?_
        rw [hfrees]
        by_cases hneg : n.toInt < 0 <;> simp [hneg, Vma.area]
      exact .sbrk hat.flat hmoves

/-- Every effect of an operation is a step of the private memories. -/
theorem flat_step (hdid : Did k binaries m own op res m' own') :
    Flat.Step binaries (Low m'.kmem) (m.procs.map (flat m.kmem)) op res (m'.procs.map (flat m'.kmem)) := by
  have hspace : ∀ {i p}, m.At i p → AddrSpace k m.kmem p.pagetable p.trapframe p.vma_list := fun hat =>
    ((h.world.proc _ (List.mem_of_getElem? hat.get)).user hat.user).2
  have hrefused : ∀ {p va acc r s'}, r = 0 ∨ r = -1 ∧ Refused s' p va acc →
      r = 0 ∨ r = -1 ∧ (¬ (flat m.kmem p).Permits va acc ∨ Low s') := by
    rintro p va acc r s' (hr | ⟨hr, hno⟩)
    · exact .inl hr
    · exact .inr ⟨hr, hno.imp_left permits_flat⟩
  cases hdid with
  | kalloc _ heff =>
    have hsame : m.procs.map (flat _) = m.procs.map (flat m.kmem) :=
      List.map_congr_left fun q hq => flat_of_view fun hq0 => heff.views _ (root_mem hq hq0) (by simp)
    rw [hsame]
    exact .kalloc
  | @create name s' own' p hw ht hp =>
    have heff := h.world.memory.spaces.effect_of_touches ht fun _ => ofProc_not_user
    have hsame : m.procs.map (flat s') = m.procs.map (flat m.kmem) := by
      refine List.map_congr_left fun q hq => flat_of_view fun hq0 => heff.views _ (root_mem hq hq0) ?_
      rintro path (heq | heq | heq) <;> cases heq
    have hnew : flat s' p = Flat.kernelThread := by
      rw [hp]
      rfl
    rw [List.map_append, hsame, List.map_singleton, hnew]
    exact .create
  | @init_start i s1 s' own1 own2 p p' tf bin hget hkernel halive hframed hbin _ hexec =>
    have hrest : ∀ q ∈ m.procs.eraseIdx i, flat s' q = flat m.kmem q := rest_flat fun r hr => by
      have hr' : r ∈ rootsOf (p :: m.procs.eraseIdx i) := by rwa [rootsOf_kernel hkernel]
      rw [hexec.views r hr, hframed.effect.views r hr' (by simp)]
    rw [flats_set hget hrest]
    exact .init_start (flats_get hget) (by simp [flat, hkernel]) hbin (flat_starts hexec halive)
  | loaded hat _ =>
    rw [← hat.flat_mem]
    exact .loaded hat.flat
  | load_fault hat hused hr =>
    rw [used_flat_same h hat hused]
    exact .load_fault hat.flat (hrefused hr)
  | stored hat _ hused =>
    rw [used_flat h hat hused, ← hat.flat_mem]
    exact .stored hat.flat
  | store_fault hat hused hr =>
    rw [used_flat_same h hat hused]
    exact .store_fault hat.flat (hrefused hr)
  | copyin hat hused hfetch =>
    rw [used_flat_same h hat hused, ← hat.flat_mem]
    exact .copyin hat.flat (hfetch.reason (hspace hat))
  | copyinstr hat hused hscan =>
    rw [used_flat_same h hat hused]
    rw [← hat.flat_mem] at hscan
    cases hscan with
    | found hlt hzero hne _ _ => exact .copyinstr hat.flat hlt hzero hne
    | long _ hne => exact .copyinstr_long hat.flat hne
    | fault hlt hfetch hne =>
      exact .copyinstr_fault hat.flat hlt hne ((hfetch.reason (hspace hat)).resolve_left (Nat.ne_of_lt hlt)).2
  | copyout hat hused hfetch =>
    rw [used_flat h hat hused, ← hat.flat_mem]
    exact .copyout hat.flat (hfetch.reason (hspace hat))
  | @forked i s' own2 p c hat hf =>
    have hroots : ∀ {q}, q ∈ m.procs → q.pagetable ≠ 0 → q.pagetable ∈ rootsOf (p :: m.procs.eraseIdx i) :=
      fun hq hq0 => root_mem ((perm_of_get hat.get).mem_iff.mp hq) hq0
    have hsame : m.procs.map (flat s') = m.procs.map (flat m.kmem) :=
      List.map_congr_left fun q hq => flat_of_view fun hq0 => hf.views _ (hroots hq hq0)
    obtain ⟨news, hvmas, hareas⟩ := hf.areas
    have hchild : flat s' c = { flat m.kmem p with areas := c.vma_list.map Vma.area } := by
      rw [flat_user hf.root, flat_user hat.user, hf.child, hf.zombie, hat.alive]
    have hperm : (c.vma_list.map Vma.area).Perm (flat m.kmem p).areas := by
      have hmap : news.map Vma.area = p.vma_list.map Vma.area := map_area_of_same hareas
      rw [hvmas]
      refine ((foldl_vma_add_perm news []).map Vma.area).trans ?_
      rw [List.append_nil, hmap]
      exact .refl _
    rw [List.map_append, hsame, List.map_singleton, hchild]
    exact .forked hat.flat hperm
  | @fork_failed i s' own2 p hat hf =>
    have hsame : m.procs.map (flat s') = m.procs.map (flat m.kmem) := List.map_congr_left fun q hq => flat_of_view fun hq0 =>
      hf.views _ (root_mem ((perm_of_get hat.get).mem_iff.mp hq) hq0)
    rw [hsame]
    exact .fork_failed hat.flat
  | sbrk hat hr => exact flat_sbrk h hat hr
  | @exec_failed i path argv r s' own2 p hat hr hf =>
    have hsame : m.procs.map (flat s') = m.procs.map (flat m.kmem) := by
      refine List.map_congr_left fun q hq => flat_of_view fun hq0 =>
        hf.effect.views _ (root_mem ((perm_of_get hat.get).mem_iff.mp hq) hq0) ?_
      rintro path (⟨_, heq⟩ | heq | heq) <;> cases heq
    rw [hsame]
    exact .exec_failed hat.flat hr
  | execed hat hbin _ hexec =>
    rw [flats_set hat.get (rest_flat hexec.views)]
    exact .execed hat.flat hbin (flat_starts hexec hat.alive)
  | @exit i p hget halive =>
    have hset := flats_set hget (fun _ _ => rfl) (s := m.kmem) { p with zombie := true }
    simp only [hset]
    exact .exit (flats_get hget) halive
  | @reap i s' own2 p hget hz hw heff =>
    have hrest : ∀ q ∈ m.procs.eraseIdx i, flat s' q = flat m.kmem q := fun q hq =>
      flat_of_view fun hq0 => (dead_leaves (h.world.perm (perm_of_get hget)) heff hq hq0).2
    rw [List.map_congr_left hrest, ← List.eraseIdx_map]
    exact .reap (flats_get hget) hz

end Did

/-- Bytes outside of the areas are zero. -/
theorem view_outside (h : World k s own procs) (hp : p ∈ procs) (hp0 : p.pagetable ≠ 0) {y : Nat}
    (hout : ∀ a ∈ p.vma_list, ¬ a.Covers y) : s.view p.pagetable y = 0 := by
  have hsp := ((h.proc p hp).user hp0).2
  unfold Kmem.view
  cases he : s.entry p.pagetable (y / PG_SIZE) with
  | none => rfl
  | some x =>
    obtain ⟨hv, hvalid, -⟩ := entry_some he
    obtain ⟨a, ha, hcov, -⟩ := hsp.covered _ hv hvalid
    exact absurd ((hsp.areas a ha).covers_page.mp hcov) (hout a ha)

theorem reachable_of_trace {es : List Event} (h : (events k binaries).Trace es m) : (system k binaries).Reachable m := by
  induction h with
  | init hinit => exact .init hinit
  | silent _ hstep =>
    obtain ⟨_, heq, -⟩ := hstep
    cases heq
  | visible _ hstep ih =>
    obtain ⟨x, -, hlegal, hrun, -⟩ := hstep
    exact ih.step ⟨hlegal, _, hrun⟩

theorem exists_trace (h : (system k binaries).Reachable m) : ∃ es, (events k binaries).Trace es m := by
  induction h with
  | init hinit => exact ⟨[], .init hinit⟩
  | step _ hstep ih =>
    obtain ⟨es, htrace⟩ := ih
    obtain ⟨hlegal, res, hrun⟩ := hstep
    exact ⟨_, htrace.visible ⟨⟨_, res, _⟩, rfl, hlegal, hrun, rfl⟩⟩

/-- Whatever the machine does, its processes are processes with private memories that do
the same: the same operations have the same outcomes, and each process sees its own
memory. What was never written there is zero, and so is everything outside of its areas. -/
theorem user_memory_refines {es : List Event} (h : (events k binaries).Trace es m) :
    (flats binaries).Trace es (m.procs.map (flat m.kmem)) ∧
    ∀ p ∈ m.procs, p.pagetable ≠ 0 → ∀ y, (∀ a ∈ p.vma_list, ¬ a.Covers y) → m.kmem.view p.pagetable y = 0 := by
  constructor
  · have hsim : ∃ fs, (flats binaries).Trace es fs ∧ (system k binaries).Reachable m ∧ fs = m.procs.map (flat m.kmem) := by
      refine h.simulate (R := fun m fs => (system k binaries).Reachable m ∧ fs = m.procs.map (flat m.kmem)) ?_ ?_ ?_
      · intro m hinit
        refine ⟨[], rfl, .init hinit, ?_⟩
        obtain ⟨_, _, -, -, -, -, rfl⟩ := hinit
        rfl
      · rintro m m' fs - ⟨_, heq, -⟩
        cases heq
      · rintro e m m' _ ⟨hreach, rfl⟩ ⟨_, heq, hlegal, hrun, hlow⟩
        cases heq
        obtain ⟨own, hinv⟩ := inv_of_reachable hreach
        obtain ⟨own', hdid⟩ := (run_spec hinv hlegal).post hrun
        refine ⟨_, ⟨e, rfl, ?_⟩, hreach.step ⟨hlegal, _, hrun⟩, rfl⟩
        rw [hlow]
        exact flat_step hinv hdid
    obtain ⟨_, htrace, -, rfl⟩ := hsim
    exact htrace
  · intro p hp hp0 y hout
    obtain ⟨own, hinv⟩ := inv_of_reachable (reachable_of_trace h)
    exact view_outside hinv.world hp hp0 hout

/-- A parent and a child, after the parent has grown its heap. -/
theorem user_memory_refines_forked : ∃ m es, (events smallKernel [initBinary]).Trace es m ∧ m.procs.length = 2 ∧
    (flats [initBinary]).Trace es (m.procs.map (flat m.kmem)) := by
  obtain ⟨m, -, hreach, -, hP⟩ := exists_of_bootRun smallKernel [initBinary] [.create [], .init_start 0, .sbrk 0 5000, .fork 0]
    (fun m _ => decide (m.procs.length = 2)) (by decide +kernel)
  obtain ⟨es, htrace⟩ := exists_trace hreach
  exact ⟨m, es, htrace, of_decide_eq_true hP, (user_memory_refines htrace).1⟩

end Machine

end Vm

end bobchouos
