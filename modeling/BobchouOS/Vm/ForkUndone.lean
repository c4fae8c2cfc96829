import BobchouOS.Proc.Queues
import BobchouOS.Vm.Refcounts

open lib

namespace bobchouos

section Slabs

variable {s : Kmem} {own : Nat → Option Owner} {objs vmas procs : List Nat} {c pg x : Nat}

theorem Pages.base_of_slot (h : Pages s own) (hc : c < NR_SIZE_CLASSES) (hpg : own pg = some (.slab c)) (hx : x ∈ slotsOf c pg) :
    Kmem.pageBase x = pg := by
  have hrange := h.range_of hpg
  have hbounds := slot_bounds hc hx
  have hsize := slotSize_ge hc
  exact pageBase_slot hrange.1 hrange.2.1 hbounds.1 (by omega)

/-- A slab has an object in use, unless no object of its class is. -/
theorem Slabs.occupied {x₀ : Nat} (h : Slabs s own objs) (hx₀ : x₀ ∈ objs) (hclass : InClass own c x₀)
    (hpg : own pg = some (.slab c)) : ∃ x ∈ objs, x ∈ slotsOf c pg := by
  obtain ⟨lists, frees, hinv, hpacked⟩ := h
  obtain ⟨hc, hmem⟩ := (hinv.owned c pg).mp hpg
  by_cases hlen : 2 ≤ (lists c).length
  · have hpage := hinv.page c hc pg hmem
    have hcount := hpage.count
    have hpos := hpacked c hc hlen pg hmem
    by_contra hnone
    push Not at hnone
    have hall : ∀ x ∈ slotsOf c pg, x ∈ frees pg := fun x hx => (hpage.slots x hx).mpr fun hobj => hnone x hobj hx
    have hle := (List.subperm_of_subset (slotsOf_nodup hc pg) hall).length_le
    rw [length_slotsOf] at hle
    omega
  · obtain ⟨pg₀, hpg₀, hslot⟩ := hclass
    have hmem₀ := ((hinv.owned c pg₀).mp hpg₀).2
    have hone : pg₀ = pg := by
      obtain ⟨a, ha⟩ := List.length_eq_one_iff.mp
        (Nat.le_antisymm (by omega) (List.length_pos_of_mem hmem) : (lists c).length = 1)
      rw [ha, List.mem_singleton] at hmem hmem₀
      rw [hmem, hmem₀]
    exact ⟨x₀, hx₀, hone ▸ hslot⟩

namespace Vm

/-- Which pages are slabs of areas and processes is seen from the objects alone. -/
theorem Objects.slab_iff (h : Objects s own vmas procs) (hp : Pages s own) (hvmas : vmas ≠ []) (hprocs : procs ≠ [])
    (pg : Nat) : (own pg = some (.slab VMA_CLASS) ↔ ∃ x ∈ vmas, Kmem.pageBase x = pg) ∧
    (own pg = some (.slab PROC_CLASS) ↔ ∃ x ∈ procs, Kmem.pageBase x = pg) := by
  have hv : VMA_CLASS < NR_SIZE_CLASSES := by decide
  have hc : PROC_CLASS < NR_SIZE_CLASSES := by decide
  have hbase : ∀ {c x}, c < NR_SIZE_CLASSES → InClass own c x → own (Kmem.pageBase x) = some (.slab c) := by
    rintro c x hlt ⟨pg, hpg, hx⟩
    rwa [hp.base_of_slot hlt hpg hx]
  obtain ⟨v₀, hv₀⟩ := List.exists_mem_of_ne_nil vmas hvmas
  obtain ⟨p₀, hp₀⟩ := List.exists_mem_of_ne_nil procs hprocs
  constructor
  · refine ⟨fun hpg => ?_, ?_⟩
    · obtain ⟨x, hx, hslot⟩ := h.slabs.occupied (List.mem_append_left _ hv₀) (h.vma v₀ hv₀) hpg
      have hx' := hp.base_of_slot hv hpg hslot
      rcases List.mem_append.mp hx with hx | hx
      · exact ⟨x, hx, hx'⟩
      · have hother := hbase hc (h.proc x hx)
        rw [hx', hpg] at hother
        exact absurd hother (by decide)
    · rintro ⟨x, hx, rfl⟩
      exact hbase hv (h.vma x hx)
  · refine ⟨fun hpg => ?_, ?_⟩
    · obtain ⟨x, hx, hslot⟩ := h.slabs.occupied (List.mem_append_right _ hp₀) (h.proc p₀ hp₀) hpg
      have hx' := hp.base_of_slot hc hpg hslot
      rcases List.mem_append.mp hx with hx | hx
      · have hother := hbase hv (h.vma x hx)
        rw [hx', hpg] at hother
        exact absurd hother (by decide)
      · exact ⟨x, hx, hx'⟩
    · rintro ⟨x, hx, rfl⟩
      exact hbase hc (h.proc x hx)

end Vm

end Slabs

namespace Vm

variable {k : Symbols} {binaries : List Binary} {s s' : Kmem} {own own' : Nat → Option Owner} {rest : List Proc}
  {p q : Proc} {pa v r va : Nat} {o : Owner}

theorem Slabs.refcount {objs : List Nat} {c : Nat} (h : Slabs s own objs) (hpa : own pa = some (.slab c)) :
    (s.pa_to_page pa).refcount = 1 := by
  obtain ⟨lists, frees, hinv, -⟩ := h
  obtain ⟨hc, hmem⟩ := (hinv.owned c pa).mp hpa
  exact (hinv.page c hc pa hmem).refcount

section Failed

variable (h : World k s own (p :: rest)) (hf : ForkFailed k s s' own own' p rest)

include h hf

/-- The pages that are mapped stay where they are. -/
theorem fork_failed_entry (hr : r ∈ rootsOf (p :: rest)) : (s'.entry r v).map Prod.fst = (s.entry r v).map Prod.fst := by
  by_cases heq : r = p.pagetable
  · subst heq
    by_cases hv : v < USER_VPNS
    · rcases hf.parent v (USER_VPNS_lt hv) with hsame | ⟨-, -, hshare⟩
      · rw [entry_congr hsame]
      · simp only [Kmem.entry, hshare, hv, true_and, pa_shareLeaf, shareLeaf_bit _ (show 0 < 8 by decide) (by decide), PTE_V]
        split <;> rfl
    · simp [Kmem.entry, hv]
  · rw [entry_congr]
    refine congrFun (h.memory.spaces.leafPte_frame hf.touches ?_ hr) v
    rintro path (ho | ho | ⟨_, ho⟩ | ⟨_, ho⟩) <;> cases ho
    exact heq rfl

theorem fork_failed_refs (hpa : own pa = some (.user v)) (hpa' : own' pa = some (.user v)) :
    (s'.pa_to_page pa).refcount = (s.pa_to_page pa).refcount := by
  rw [hf.world.memory.spaces.sharing.count_eq pa v (home_eq_some.mpr hpa'),
    h.memory.spaces.sharing.count_eq pa v (home_eq_some.mpr hpa)]
  refine List.countP_congr fun r hr => ?_
  rw [fork_failed_entry h hf hr]

theorem fork_failed_user : own' pa = some (.user v) ↔ own pa = some (.user v) := by
  have hsame : ∀ r ∈ rootsOf (p :: rest), (∃ w, s'.entry r v = some (pa, w)) ↔ ∃ w, s.entry r v = some (pa, w) := by
    intro r hr
    have hentry := fork_failed_entry (v := v) h hf hr
    simpa using congrArg (· = some pa) hentry
  rw [hf.world.memory.spaces.user_iff, h.memory.spaces.user_iff]
  exact exists_congr fun r => and_congr_right fun hr => hsame r hr

/-- All pages belong to whom they did. -/
theorem fork_failed_owner (hvmas : p.vma_list ≠ []) : own' = own := by
  have howner : ∀ pa o, own' pa = some o ↔ own pa = some o := by
    intro pa o
    by_cases hT : o = .slab PROC_CLASS ∨ o = .slab VMA_CLASS ∨ o.InSpace p.pagetable
    · have hareas : areasOf (p :: rest) ≠ [] := by simp [hvmas]
      have hslab := h.memory.objects.slab_iff h.memory.spaces.pages hareas (by simp) pa
      have hslab' := hf.world.memory.objects.slab_iff hf.world.memory.spaces.pages hareas (by simp) pa
      rcases hT with rfl | rfl | ⟨path, rfl⟩ | ⟨v, rfl⟩
      · exact hslab'.2.trans hslab.2.symm
      · exact hslab'.1.trans hslab.1.symm
      · exact hf.tables pa path
      · exact fork_failed_user h hf
    · exact hf.touches.owner pa o hT
  funext pa
  exact Option.ext fun o => howner pa o

theorem fork_failed_refcount (hp : p.pagetable ≠ 0) (hvmas : p.vma_list ≠ []) (haligned : pa % PG_SIZE = 0)
    (hlo : s.free_start ≤ pa) (hhi : pa < PHYS_STOP) : (s'.pa_to_page pa).refcount = (s.pa_to_page pa).refcount := by
  have hown := fork_failed_owner h hf hvmas
  cases hpa : own pa with
  | none =>
    rw [h.memory.spaces.pages.refcount_zero hpa haligned hlo hhi]
    exact hf.world.memory.spaces.pages.refcount_zero (hown ▸ hpa) haligned (hf.touches.free_start ▸ hlo) hhi
  | some o =>
    have hpa' : own' pa = some o := hown ▸ hpa
    by_cases hT : o = .slab PROC_CLASS ∨ o = .slab VMA_CLASS ∨ o.InSpace p.pagetable
    · rcases hT with rfl | rfl | ⟨path, rfl⟩ | ⟨v, rfl⟩
      · rw [Slabs.refcount h.memory.objects.slabs hpa, Slabs.refcount hf.world.memory.objects.slabs hpa']
      · rw [Slabs.refcount h.memory.objects.slabs hpa, Slabs.refcount hf.world.memory.objects.slabs hpa']
      · have hroot := root_mem (List.mem_cons_self (a := p) (l := rest)) hp
        rw [(h.memory.spaces.tables _ hroot).single path pa hpa, (hf.world.memory.spaces.tables _ hroot).single path pa hpa']
      · exact fork_failed_refs h hf hpa hpa'
    · exact congrArg Page.refcount (hf.touches.same pa o hpa hT).page

/-- What the parent could write it can write again, and that takes no memory. -/
theorem fork_failed_store (hp : p.pagetable ≠ 0) (hstore : (translate s p.pagetable va .store).isSome) :
    wp (access p va .store 2) (fun res s'' => res.isSome ∧ s''.view p.pagetable = s.view p.pagetable) s' := by
  have hroot : p.pagetable ∈ rootsOf (p :: rest) := root_mem (List.mem_cons_self ..) hp
  have hview := hf.views _ hroot
  have htable := h.memory.spaces.tables _ hroot
  have htable' := hf.world.memory.spaces.tables _ hroot
  obtain ⟨hva, hvalid, haccessed, hdirty, huser, hread, hwrite⟩ :
      va < MAX_VA ∧ Access.store.Usable (s.leafPte p.pagetable (va / PG_SIZE)) := by
    by_contra hno
    rw [translate_eq htable, if_neg hno] at hstore
    cases hstore
  have hlt : va / PG_SIZE < 2 ^ 26 := by
    simp only [MAX_VA, PG_SIZE] at *
    omega
  simp only [access, wp_bind, wp_get]
  cases hleaf : translate s' p.pagetable va .store with
  | some x =>
    simp only [wp_pure]
    exact ⟨rfl, hview⟩
  | none =>
    rcases hf.parent _ hlt with hsame | ⟨hv, -, hshare⟩
    · rw [translate_eq htable', hsame, if_pos ⟨hva, hvalid, haccessed, hdirty, huser, hread, hwrite⟩] at hleaf
      cases hleaf
    -- the leaf is copy-on-write now, and its page still has a single reference
    have hbit : ∀ i < 8, i ≠ 2 → Has (s.leafPte p.pagetable (va / PG_SIZE)) (1 <<< i) →
        Has (s'.leafPte p.pagetable (va / PG_SIZE)) (1 <<< i) := by
      intro i hi hne hhas
      rw [hshare]
      exact (shareLeaf_bit _ hi hne).mpr hhas
    have hvalid' := hbit 0 (by decide) (by decide) hvalid
    have hcow : Has (s'.leafPte p.pagetable (va / PG_SIZE)) PTE_COW := by
      rw [hshare, shareLeaf, has_or]
      exact .inr (by decide)
    have hentry := entry_eq hv hvalid
    rw [decide_eq_true hwrite] at hentry
    have hsole := h.memory.spaces.sharing.sole _ hroot _ _ hentry
    have huserpage := h.memory.spaces.user_iff.mpr ⟨_, hroot, _, hentry⟩
    have hone : (s'.pa_to_page (pte_to_pa (s'.leafPte p.pagetable (va / PG_SIZE)))).refcount = 1 := by
      rw [hshare, pa_shareLeaf, ← hsole]
      exact fork_failed_refs h hf huserpage ((fork_failed_user h hf).mpr huserpage)
    have hfind : (vma_find p.vma_list va).isSome := by
      have hsp := ((h.proc p (List.mem_cons_self ..)).user hp).2
      obtain ⟨a, ha, hcov, -⟩ := hsp.covered _ hv hvalid
      cases hnone : vma_find p.vma_list va with
      | some a => rfl
      | none => exact absurd ((hsp.areas a ha).covers_page.mp hcov) (vma_find_none hnone a ha)
    simp only [wp_bind]
    refine wp_mono (Machine.cow_upgrade_spec hf.world hp hva hfind hvalid' hcow fun _ => hone) ?_
    rintro r s2 ⟨rfl, hview2, own2, hspaces, hup⟩
    have hbit2 := fun i hi hne hhas => (hup.other i hi hne).mpr (hbit i hi hne hhas)
    have htranslate : translate s2 p.pagetable va .store =
        some (pte_to_pa (s2.leafPte p.pagetable (va / PG_SIZE)) + va % PG_SIZE) := by
      rw [translate_eq (hspaces.tables _ hroot), if_pos]
      exact ⟨hva, hbit2 0 (by decide) (by decide) hvalid, hbit2 6 (by decide) (by decide) haccessed,
        hbit2 7 (by decide) (by decide) hdirty, hbit2 4 (by decide) (by decide) huser,
        hbit2 1 (by decide) (by decide) hread, hup.write⟩
    simp only [wp_ite, wp_bind, wp_get, htranslate, wp_pure]
    exact ⟨fun hneg => absurd hneg (by decide), fun _ => ⟨rfl, hview2.trans hview⟩⟩

end Failed

end Vm

namespace Procs

variable {s s' : Procs} {a : Act} {c : Nat}

/-- The process is freed, and on no list. -/
def Unlisted (s : Procs) (c : Nat) : Prop :=
  c ∉ s.live ∧ ∀ h : Head, (Node.head h).alive s.live = true → ∃ xs, s.Listed h xs ∧ c ∉ xs

/-- The last step of a `proc_fork` that fails: without a kernel stack for the child, or
in its cleanup. -/
def FailsFork (a : Act) (c : Nat) : Prop := a = .fork_create (some c) false ∨ a = .fork_fail c

theorem unlisted_of_reachable (hs : system.Reachable s) (hc : c ∉ s.live) : s.Unlisted c := by
  obtain ⟨t, hrep, hinv⟩ := rep_of_reachable hs
  refine ⟨hc, fun h hh => ?_⟩
  rw [hrep.live] at hh hc
  exact ⟨t.list h, listed_of_rep hrep hh, fun hmem => hc (Tasks.list_live hinv.placed hinv.tree hh c hmem)⟩

theorem unlisted_of_failsFork (hs : system.Reachable s) (ha : FailsFork a c) (hstep : system.step a s s') : s'.Unlisted c := by
  refine unlisted_of_reachable (hs.step hstep) ?_
  obtain ⟨t, hrep, hinv⟩ := rep_of_reachable hs
  obtain ⟨henabled, hrun⟩ := hstep
  rcases ha with rfl | rfl
  · obtain ⟨p, hp, -, hmem⟩ := henabled
    have hc := hmem c rfl
    rw [hrep.current] at hp
    rw [hrep.live] at hc
    have hrep' := (fork_create_no_stack_spec hrep hinv hp hc).post hrun
    rw [hrep'.live]
    exact hc
  · obtain ⟨p, hp, hfork⟩ := henabled
    rw [hrep.current] at hp
    rw [hrep.proc] at hfork
    obtain ⟨-, -, ⟨q, hq, hc⟩, -⟩ := hinv.forking (hinv.placed.current_live hp) hfork
    have hrep' := (fork_fail_spec hrep hinv hp (hinv.current_ne hp hfork) hq hc).post hrun
    rw [hrep'.live]
    exact hinv.tree.nodup.not_mem_erase

end Procs

namespace Vm

namespace Machine

variable {k : Symbols} {binaries : List Binary} {m : Machine} {p : Proc} {i : Nat} {s' : Kmem}

theorem nonempty_kept (k : Symbols) (binaries : List Binary) : UserKept k binaries (· ≠ []) := by
  refine ⟨?_, fun vmas news hne hsame => ?_, fun s own p rest n _ _ hne => ?_⟩
  · rintro bin _ _ ⟨segs, x, y, rfl, -⟩
    simp
  · intro hnil
    have hperm := foldl_vma_add_perm news []
    rw [hnil, List.append_nil] at hperm
    rw [List.nil_perm.mp hperm] at hsame
    cases hsame
    exact hne rfl
  · unfold sbrkResult
    split
    · exact hne
    · split
      · exact hne
      · simpa [setEnd] using hne

/-- What a `proc_fork` of `p` that fails leaves as it was. -/
structure ForkUndone (m : Machine) (p : Proc) (s' : Kmem) : Prop where
  refcount : ∀ pa, pa % PG_SIZE = 0 → m.kmem.free_start ≤ pa → pa < PHYS_STOP →
    (s'.pa_to_page pa).refcount = (m.kmem.pa_to_page pa).refcount
  pages : ∀ pa, (InUse s' pa ↔ InUse m.kmem pa) ∧ (OnSlabList s' pa ↔ OnSlabList m.kmem pa)
  slots : ∀ x, SlotInUse s' x ↔ SlotInUse m.kmem x
  views : ∀ q ∈ m.procs, q.pagetable ≠ 0 → s'.view q.pagetable = m.kmem.view q.pagetable
  store : ∀ va, (translate m.kmem p.pagetable va .store).isSome → ∃ pa s'', access p va .store 2 s' = .ok (some pa, s'') ∧
    s''.view p.pagetable = m.kmem.view p.pagetable

/-- A `proc_fork` that fails leaves no trace in memory, and its child is on no list. -/
theorem fork_failure_undone (hreach : (system k binaries).Reachable m) (hat : m.At i p)
    (hrun : proc_fork k p m.kmem = .ok (none, s')) :
    ForkUndone m p s' ∧
    ∀ s s' a c, Procs.system.Reachable s → Procs.FailsFork a c → Procs.system.step a s s' → s'.Unlisted c := by
  refine ⟨?_, fun s s' a c hs ha hstep => Procs.unlisted_of_failsFork hs ha hstep⟩
  obtain ⟨own, hinv⟩ := inv_of_reachable hreach
  have hperm := perm_of_get hat.get
  have hw := hinv.world.perm hperm
  obtain ⟨own', hf⟩ := (proc_fork_spec (E := fun _ => True) hw hat.user (fun _ _ _ _ => trivial) fun _ => trivial).post hrun
  have hvmas := (nonempty_kept k binaries).reachable hreach p (List.mem_of_getElem? hat.get) hat.user
  obtain rfl := fork_failed_owner hw hf hvmas
  refine ⟨fun pa => fork_failed_refcount hw hf hat.user hvmas, fun pa => ⟨?_, ?_⟩, fun x => ?_, fun q hq hq0 => ?_, fun va hva => ?_⟩
  · rw [hf.world.inUse_iff, hw.inUse_iff]
  · rw [hf.world.memory.objects.slabs.onSlabList_iff, hw.memory.objects.slabs.onSlabList_iff]
  · rw [hf.world.slotInUse_iff, hw.slotInUse_iff]
  · exact hf.views _ (root_mem (hperm.mem_iff.mp hq) hq0)
  · obtain ⟨res, s'', haccess, hsome, hview⟩ := fork_failed_store hw hf hat.user hva
    obtain ⟨pa, rfl⟩ := Option.isSome_iff_exists.mp hsome
    exact ⟨pa, s'', haccess, hview⟩

/-- The child gets its first tables, and then memory runs out. -/
theorem fork_failure_undone_full : ∃ m p s', (system smallKernel [initBinary]).Reachable m ∧ m.At 0 p ∧
    proc_fork smallKernel p m.kmem = .ok (none, s') ∧ ForkUndone m p s' := by
  obtain ⟨m, -, hreach, -, hP⟩ := exists_of_bootRun smallKernel [initBinary]
    (.create [] :: .init_start 0 :: List.replicate 10 .kalloc) (fun m _ => m.procs[0]?.any fun (p : Proc) =>
      decide (p.pagetable ≠ 0 ∧ p.zombie = false) &&
        (proc_fork smallKernel p m.kmem).toOption.any fun (res : Option Proc × Kmem) => res.1.isNone) (by decide +kernel)
  obtain ⟨p, hget, hP⟩ := (Option.any_eq_true _ _).mp hP
  rw [Bool.and_eq_true, decide_eq_true_eq] at hP
  obtain ⟨⟨huser, halive⟩, hfork⟩ := hP
  obtain ⟨⟨res, s'⟩, hrun, hnone⟩ := (Option.any_eq_true _ _).mp hfork
  obtain rfl : res = none := Option.isNone_iff_eq_none.mp hnone
  have hat : m.At 0 p := ⟨hget, huser, halive⟩
  exact ⟨m, p, s', hreach, hat, eq_ok_of_toOption hrun, (fork_failure_undone hreach hat (eq_ok_of_toOption hrun)).1⟩

end Machine

end Vm

end bobchouos
