import BobchouOS.Vm.Dup
import BobchouOS.Vm.Lifetime

open lib

namespace bobchouos

namespace Vm

variable {E : Halt → Prop} {k : Symbols} {s s' s'' : Kmem} {own own' own'' : Nat → Option Owner} {procs procs' rest : List Proc}
  {p c : Proc} {T : Owner → Prop} {r : Nat} {vmas news : List Vma} {others addrs : List Nat}

/-- The processes keep their structures, kernel stacks and trapframes. -/
theorem World.rework (h : World k s own procs)
    (hmem : KernelMemory s' own' (rootsOf procs') (areasOf procs') (procs'.map Proc.addr)) (ht : Touches T s s' own own')
    (hkstack : ∀ a, ¬ T (.kstack a)) (htrapframe : ∀ a, ¬ T (.trapframe a))
    (hsame : List.Forall₂ (fun p p' => p'.addr = p.addr ∧ p'.kstack = p.kstack ∧ p'.trapframe = p.trapframe) procs procs')
    (hspace : ∀ p' ∈ procs', ProcSpace k s' p') : World k s' own' procs' := by
  have hback := fun p' (hp' : p' ∈ procs') => forall₂_right hsame hp'
  have hforth := fun p (hp : p ∈ procs) => forall₂_right hsame.flip hp
  refine ⟨hmem, fun p' hp' => ?_, fun pa a hpa => ?_, fun pa a hpa => ?_⟩
  · obtain ⟨p, hp, haddr, hks, htf⟩ := hback p' hp'
    refine ⟨hspace p' hp', (ht.owner _ _ (hkstack _)).mpr ?_, fun hne => (ht.owner _ _ (htrapframe _)).mpr ?_⟩
    · rw [haddr, hks]
      exact (h.proc p hp).kstack
    · rw [haddr, htf]
      exact (h.proc p hp).trapframe (htf ▸ hne)
  · obtain ⟨q, hq, rfl, rfl⟩ := h.kstack pa a ((ht.owner _ _ (hkstack a)).mp hpa)
    obtain ⟨q', hq', haddr, hks, -⟩ := hforth q hq
    exact ⟨q', hq', haddr, hks⟩
  · obtain ⟨q, hq, rfl, rfl⟩ := h.trapframe pa a ((ht.owner _ _ (htrapframe a)).mp hpa)
    obtain ⟨q', hq', haddr, -, htf⟩ := hforth q hq
    exact ⟨q', hq', haddr, htf⟩

/-- The list that `vma_dup_all` builds has the new areas. -/
theorem foldl_vma_add_perm (news acc : List Vma) : (news.foldl (fun l v => vma_add v l) acc).Perm (news ++ acc) := by
  induction news generalizing acc with
  | nil => exact .refl _
  | cons v news ih =>
    refine (ih (vma_add v acc)).trans ?_
    exact ((vma_add_perm v acc).append_left news).trans List.perm_middle

/-- The address space of a child. -/
theorem Duped.child_space {T : Owner → Prop} {roots : List Nat} {r c trapframe childframe : Nat}
    (hd : Duped T s s' own own' roots r c (fun v => ∃ a ∈ vmas, a.Covers (v * PG_SIZE)))
    (hparent : AddrSpace k s r trapframe vmas) (hchild : AddrSpace k s c childframe [])
    (hsame : List.Forall₂ SameArea vmas news) :
    AddrSpace k s' c childframe (news.foldl (fun l v => vma_add v l) []) := by
  have hmem : ∀ b, b ∈ news.foldl (fun l v => vma_add v l) [] ↔ b ∈ news := by
    intro b
    rw [(foldl_vma_add_perm news []).mem_iff, List.append_nil]
  have htop : ∀ v < 2 ^ 26, USER_VPNS ≤ v → s'.leafPte c v = s.leafPte c v := by
    intro v hv hge
    refine hd.rest v hv fun hboth => ?_
    have hlt := (entry_ne_none.mp hboth.2).1
    omega
  refine ⟨?_, ?_, fun v hv hvalid => ?_, fun b hb => ?_⟩
  · rw [htop _ (by decide) (by decide)]
    exact hchild.trampoline_leaf
  · rw [htop _ (by decide) (by decide)]
    exact hchild.trapframe_leaf
  · by_cases hshared : (∃ a ∈ vmas, a.Covers (v * PG_SIZE)) ∧ s.entry r v ≠ none
    · obtain ⟨-, -, hbits⟩ := hd.shared v hshared.1 hshared.2
      have hmapped := entry_ne_none.mp ((hd.parent.mapped_iff v).mpr hshared.2)
      obtain ⟨a, ha, hcov, hagrees⟩ := (hd.parent.addrSpace hparent).covered v hv hmapped.2
      obtain ⟨b, hb, hab⟩ := forall₂_right hsame.flip ha
      refine ⟨b, (hmem b).mpr hb, (hab.covers_iff _).mpr hcov, ?_⟩
      rw [hab.perm]
      exact hagrees.flags hbits
    · rw [hd.rest v (USER_VPNS_lt hv) hshared] at hvalid
      obtain ⟨a, ha, -⟩ := hchild.covered v hv hvalid
      cases ha
  · obtain ⟨a, ha, hab⟩ := forall₂_right hsame ((hmem b).mp hb)
    exact hab.ok (hparent.areas a ha)

/-- The child sees what its parent sees. -/
theorem Duped.child_view {T : Owner → Prop} {roots : List Nat} {r c trapframe childframe : Nat}
    (hd : Duped T s s' own own' roots r c (fun v => ∃ a ∈ vmas, a.Covers (v * PG_SIZE)))
    (hparent : AddrSpace k s r trapframe vmas) (hchild : AddrSpace k s c childframe []) : s'.view c = s.view r := by
  funext y
  by_cases he : s.entry r (y / PG_SIZE) = none
  · rw [hd.view_rest y fun hboth => hboth.2 he, Kmem.view, Kmem.view, he, hchild.entry_none]
  · obtain ⟨hv, hvalid⟩ := entry_ne_none.mp he
    obtain ⟨a, ha, hcov, -⟩ := hparent.covered _ hv hvalid
    exact hd.view y ⟨a, ha, hcov⟩ he

/-- What a fork of `p` into `c` may touch. -/
def OfForked (p c : Proc) (o : Owner) : Prop := OfProc c.addr o ∨ OfFork p.pagetable c.pagetable o

structure Forked (k : Symbols) (s s' : Kmem) (own own' : Nat → Option Owner) (p c : Proc) (rest : List Proc) : Prop where
  world : World k s' own' (c :: p :: rest)
  touches : Touches (OfForked p c) s s' own own'
  views : ∀ r ∈ rootsOf (p :: rest), s'.view r = s.view r
  child : s'.view c.pagetable = s.view p.pagetable
  parent : Deferred s s' p.pagetable
  root : c.pagetable ≠ 0
  areas : ∃ news, c.vma_list = news.foldl (fun l v => vma_add v l) [] ∧ List.Forall₂ SameArea p.vma_list news
  zombie : c.zombie = false

structure ForkFailed (k : Symbols) (s s' : Kmem) (own own' : Nat → Option Owner) (p : Proc) (rest : List Proc) :
    Prop where
  world : World k s' own' (p :: rest)
  touches : Touches (fun o => o = .slab PROC_CLASS ∨ o = .slab VMA_CLASS ∨ o.InSpace p.pagetable) s s' own own'
  views : ∀ r ∈ rootsOf (p :: rest), s'.view r = s.view r
  parent : Deferred s s' p.pagetable
  tables : ∀ pa path, own' pa = some (.table p.pagetable path) ↔ own pa = some (.table p.pagetable path)

theorem ofFork_not_own (r c a : Nat) : ¬ OfFork r c (.kstack a) ∧ ¬ OfFork r c (.trapframe a) := by
  constructor <;> rintro ((⟨_, heq⟩ | ⟨_, heq⟩ | ⟨_, heq⟩) | heq) <;> cases heq

theorem ofFork_not_table {r c r' : Nat} (hr : r' ≠ r) (hc : r' ≠ c) (path : List Nat) : ¬ OfFork r c (.table r' path) := by
  rintro ((⟨_, heq⟩ | ⟨_, heq⟩ | ⟨_, heq⟩) | heq) <;> cases heq
  · exact hr rfl
  · exact hc rfl

/-- The other processes keep their address spaces while `p` shares its own with `c`. -/
theorem World.fork_rest (h : World k s own (c :: p :: rest)) (hp : p.pagetable ≠ 0)
    (ht : Touches (OfFork p.pagetable c.pagetable) s s' own own') (hpar : Deferred s s' p.pagetable) :
    ∀ q ∈ p :: rest, ProcSpace k s' q := by
  have hp' : World k s own (p :: c :: rest) := h.perm (.swap p c rest)
  rintro q hq
  have hok := h.proc q (List.mem_cons_of_mem _ hq)
  rcases List.mem_cons.mp hq with rfl | hq
  · exact ⟨fun _ => ⟨(hok.user hp).1, hpar.addrSpace (hok.user hp).2⟩, hok.kernel, hok.heap⟩
  · refine (hok.frame h.memory.spaces.toPageTables (root_mem (by simp [hq])) ht (ofFork_not_own _ _ _).1
      (ofFork_not_own _ _ _).2 fun hne => ?_).toProcSpace
    exact ofFork_not_table ((hp'.head_ne (by simp [hq])).2 hne) ((h.head_ne (by simp [hq])).2 hne)

theorem newProc_not_table {a r c : Nat} (hne : r ≠ c) (path : List Nat) :
    ¬ (OfProc a (.table r path) ∨ Owner.IsTable c (.table r path)) := by
  rintro ((heq | heq | heq) | ho)
  iterate 3 cases heq
  exact isTable_of_ne hne path ho

theorem newProc_not_user {a c : Nat} {o : Owner} (ho : OfProc a o ∨ o.IsTable c) : ¬ o.IsUser := by
  rintro ⟨v, rfl⟩
  rcases ho with ho | ho
  · exact ofProc_not_user ho ⟨v, rfl⟩
  · exact user_not_table c v ho

/-- Without the child, a fork touches only what its parent has. -/
theorem World.ofForked (h : World k s own (p :: rest)) (haddr : ∀ q ∈ p :: rest, q.addr ≠ c.addr)
    (hroot : c.pagetable ∉ rootsOf (p :: rest)) {pa : Nat} {o : Owner} (hpa : own pa = some o) (ho : OfForked p c o) :
    o = .slab PROC_CLASS ∨ o = .slab VMA_CLASS ∨ o.InSpace p.pagetable := by
  rcases ho with (ho | rfl | rfl) | ((ho | ⟨path, rfl⟩ | ho) | ho)
  · exact .inl ho
  · obtain ⟨q, hq, hqa, -⟩ := h.kstack pa _ hpa
    exact absurd hqa (haddr q hq)
  · obtain ⟨q, hq, hqa, -⟩ := h.trapframe pa _ hpa
    exact absurd hqa (haddr q hq)
  · exact .inr (.inr (.inl ho))
  · exact absurd (h.memory.spaces.rooted pa _ path hpa) hroot
  · exact .inr (.inr (.inr ho))
  · exact .inr (.inl ho)

/-- The cleanup of a fork whose areas could not be copied. -/
theorem fork_undo_spec (h : World k s own (p :: rest)) (hp : p.pagetable ≠ 0) {s1 : Kmem} {own1 : Nat → Option Owner}
    (h1 : World k s1 own1 (c :: p :: rest)) (hc : c.pagetable ≠ 0) (hvmas : c.vma_list = [])
    (ht1 : Touches (fun o => OfProc c.addr o ∨ o.IsTable c.pagetable) s s1 own own1)
    (hundone : Undone s1 s' own1 own' (rootsOf (c :: p :: rest)) p.pagetable c.pagetable (areasOf (p :: rest))
      ((c :: p :: rest).map Proc.addr)) :
    wp (proc_free_pagetable c.pagetable) (fun _ s3 => wp (kfree c.trapframe) (fun _ s4 => wp (kfree c.kstack) (fun _ s5 =>
      wp (kmfree c.addr) (fun _ s6 => ∃ own6, ForkFailed k s s6 own own6 p rest) s5) s4) s3) s' := by
  have hne : p.pagetable ≠ c.pagetable := (h1.head_ne (by simp)).2 hp
  have hnew : ∀ q ∈ p :: rest, q.addr ≠ c.addr := fun q hq => (h1.head_ne hq).1
  have hcspace := ((h1.proc c (by simp)).user hc).2
  rw [hvmas] at hcspace
  -- the child keeps its empty address space
  have hchild : AddrSpace k s' c.pagetable c.trapframe [] := by
    refine ⟨?_, ?_, fun v hv hvalid => absurd (hundone.child v) (entry_ne_none.mpr ⟨hv, hvalid⟩), by simp⟩
    · rw [hundone.top _ (by decide) (by decide)]
      exact hcspace.trampoline_leaf
    · rw [hundone.top _ (by decide) (by decide)]
      exact hcspace.trapframe_leaf
  have h2 : World k s' own' (c :: p :: rest) := by
    refine h1.rework ?_ hundone.touches (fun a => (ofFork_not_own _ _ a).1) (fun a => (ofFork_not_own _ _ a).2) ?_ ?_
    · rw [areasOf_cons, hvmas]
      exact hundone.memory
    · exact List.forall₂_same.mpr fun _ _ => ⟨rfl, rfl, rfl⟩
    · intro q hq
      rcases List.mem_cons.mp hq with rfl | hq
      · refine ⟨fun _ => ⟨((h1.proc q (by simp)).user hc).1, ?_⟩, fun _ => hvmas, (h1.proc q (by simp)).heap⟩
        rw [hvmas]
        exact hchild
      · exact h1.fork_rest hp hundone.touches hundone.parent q hq
  refine wp_mono (h2.free_space_spec hc hvmas) ?_
  rintro _ s3 ⟨own3, h3, ht3, hgone3⟩
  refine wp_mono (h3.dismantle_spec rfl ((h1.proc c (by simp)).user hc).1) fun _ s4 hmid => wp_mono hmid
    fun _ s5 hmid => wp_mono hmid ?_
  rintro _ s6 ⟨own6, h6, ht6, hgone6⟩
  have ht : Touches (OfForked p c) s s6 own own6 := by
    refine ((ht1.mono ?_).trans (hundone.touches.mono fun _ => .inr)).trans ((ht3.mono ?_).trans (ht6.mono fun _ => .inl))
    · rintro o (ho | ho)
      · exact .inl ho
      · exact .inr (.inl (.inr (.inl ho)))
    · exact fun o ho => .inr (.inl (.inr (.inl ho)))
  have hroot : c.pagetable ∉ rootsOf (p :: rest) := by
    have hnodup := h1.memory.spaces.sharing.nodup
    rw [rootsOf_user hc, List.nodup_cons] at hnodup
    exact hnodup.1
  have hslab : ∀ i, OfForked p c (.slab i) → (Owner.slab i = .slab PROC_CLASS ∨ Owner.slab i = .slab VMA_CLASS ∨
      Owner.InSpace p.pagetable (.slab i)) := by
    rintro i ((ho | ho | ho) | ((ho | ho) | ho))
    · exact .inl ho
    · cases ho
    · cases ho
    · exact absurd ho (isTable_not_slab _ i)
    · exact absurd ho (inSpace_not_slab _ i)
    · exact .inr (.inl ho)
  have heff1 := h.memory.spaces.effect_of_touches ht1 fun _ => newProc_not_user
  have heff3 := h2.memory.spaces.effect_of_touches ht3 fun o ho => newProc_not_user (a := 0) (.inr ho)
  have heff6 := h3.memory.spaces.effect_of_touches ht6 fun _ => ofProc_not_user
  have hmem : p.pagetable ∈ rootsOf (p :: rest) := root_mem (by simp) hp
  have hleaf : ∀ v, s6.leafPte p.pagetable v = s'.leafPte p.pagetable v ∧ s1.leafPte p.pagetable v = s.leafPte p.pagetable v := by
    intro v
    rw [h3.memory.spaces.leafPte_frame ht6 (fun path ho => newProc_not_table hne path (.inl ho)) (root_mem (by simp) hp),
      h2.memory.spaces.leafPte_frame ht3 (isTable_of_ne hne) (root_mem (by simp) hp),
      h.memory.spaces.leafPte_frame ht1 (newProc_not_table hne) hmem]
    exact ⟨rfl, rfl⟩
  refine ⟨own6, h6, ht.confine hslab (fun pa o => h.ofForked hnew hroot) fun pa o => h6.ofForked hnew hroot,
    fun r hr => ?_, fun v hv => ?_, fun pa path => ?_⟩
  · have hrc : r ≠ c.pagetable := fun heq => hroot (heq ▸ hr)
    obtain ⟨hr0, q, hq, rfl⟩ := mem_rootsOf.mp hr
    rw [heff6.views _ (root_mem (List.mem_cons_of_mem _ hq) hr0) fun path ho => newProc_not_table hrc path (.inl ho),
      heff3.views _ (root_mem (List.mem_cons_of_mem _ hq) hr0) (isTable_of_ne hrc),
      hundone.views _ (root_mem (List.mem_cons_of_mem _ hq) hr0) hrc, heff1.views _ hr (newProc_not_table hrc)]
  · rw [(hleaf v).1, ← (hleaf v).2]
    exact hundone.parent v hv
  · rw [ht6.owner _ _ fun ho => newProc_not_table hne path (.inl ho), ht3.owner _ _ (isTable_of_ne hne path),
      hundone.tables, ht1.owner _ _ (newProc_not_table hne path)]

/-- The registers of the child are set inside its trapframe. -/
theorem forkRegs_mem (k : Symbols) (c p : Proc) (s : Kmem) :
    ∃ m, setField c.trapframe TF_HARTID 0 (setField c.trapframe TF_USER_TRAP k.user_trap
      (setField c.trapframe TF_KERNEL_SATP k.satp (setField c.trapframe TF_KERNEL_SP (c.kstack + PG_SIZE)
        (setField c.trapframe TF_A0 0 { s with mem := s.mem.memcpy c.trapframe p.trapframe SIZEOF_TRAPFRAME })))) =
      { s with mem := m } ∧ ∀ x, ¬ (c.trapframe ≤ x ∧ x < c.trapframe + PG_SIZE) → m x = s.mem x := by
  obtain ⟨m, heq, hm⟩ := setFields_mem c.trapframe { s with mem := s.mem.memcpy c.trapframe p.trapframe SIZEOF_TRAPFRAME }
    (l := [(TF_A0, 0), (TF_KERNEL_SP, c.kstack + PG_SIZE), (TF_KERNEL_SATP, k.satp), (TF_USER_TRAP, k.user_trap),
      (TF_HARTID, 0)]) (by simp [TF_A0, TF_KERNEL_SATP, TF_KERNEL_SP, TF_USER_TRAP, TF_HARTID, PG_SIZE])
  refine ⟨m, heq, fun x hx => (hm x hx).trans (Mem.memcpy_of_outside _ _ _ ?_)⟩
  simp only [PG_SIZE, SIZEOF_TRAPFRAME] at *
  omega

/-- A child with the areas of its parent, before its registers are set. -/
theorem World.duped (h : World k s own (c :: p :: rest)) (hp : p.pagetable ≠ 0) (hc : c.pagetable ≠ 0)
    (hvmas : c.vma_list = []) (hsame : List.Forall₂ SameArea p.vma_list news)
    (hmem : KernelMemory s' own' (rootsOf (c :: p :: rest))
      ((news.foldl (fun l v => vma_add v l) []).map Vma.addr ++ areasOf (p :: rest)) ((c :: p :: rest).map Proc.addr))
    (hd : Duped (OfFork p.pagetable c.pagetable) s s' own own' (rootsOf (c :: p :: rest)) p.pagetable c.pagetable
      (fun v => ∃ a ∈ p.vma_list, a.Covers (v * PG_SIZE))) (name : Bytes) :
    World k s' own' ({ c with vma_list := news.foldl (fun l v => vma_add v l) [], name } :: p :: rest) := by
  have hcok := h.proc c (by simp)
  have hpok := h.proc p (by simp)
  have hcspace := (hcok.user hc).2
  rw [hvmas] at hcspace
  refine h.rework ?_ hd.touches (fun a => (ofFork_not_own _ _ a).1) (fun a => (ofFork_not_own _ _ a).2) ?_ ?_
  · rw [areasOf_cons]
    exact hmem
  · exact .cons ⟨rfl, rfl, rfl⟩ (List.forall₂_same.mpr fun _ _ => ⟨rfl, rfl, rfl⟩)
  · intro q hq
    rcases List.mem_cons.mp hq with rfl | hq
    · refine ⟨fun _ => ⟨(hcok.user hc).1, hd.child_space (hpok.user hp).2 hcspace hsame⟩, fun hz => absurd hz hc,
        fun b hb hheap => ?_⟩
      have hb' := (foldl_vma_add_perm news []).mem_iff.mp hb
      rw [List.append_nil] at hb'
      obtain ⟨a, ha, hab⟩ := forall₂_right hsame hb'
      rw [hab.start, hab.end_]
      exact hpok.heap a ha (hab.flags ▸ hheap)
    · exact h.fork_rest hp hd.touches hd.parent q hq

theorem proc_fork_spec (h : World k s own (p :: rest)) (hp : p.pagetable ≠ 0)
    (hhigh : ∀ a ∈ p.vma_list, MAX_VA ≤ a.start → a.start < a.end_ → E (.panic "walk: va >= MAX_VA"))
    (hdouble : ¬ p.vma_list.Pairwise Apart → E (.panic "map_pages: double-map va=%p")) :
    wpe E (proc_fork k p) (fun res s' => ∃ own', match res with
      | none => ForkFailed k s s' own own' p rest
      | some c => Forked k s s' own own' p c rest) s := by
  have hmem : p.pagetable ∈ rootsOf (p :: rest) := root_mem (by simp) hp
  simp only [proc_fork, wpe_bind]
  refine wpe_mono h.proc_create_user_spec.wpe ?_
  rintro res s1 ⟨own1, hres⟩
  cases res with
  | none =>
    obtain ⟨h1, ht1⟩ := hres
    rw [wpe_pure]
    have heff1 := h.memory.effect_slab ht1
    refine ⟨own1, h1, ht1.mono fun _ => .inl, fun r hr => heff1.views r hr (by simp), fun v _ => .inl ?_,
      fun pa path => ht1.owner _ _ (by simp)⟩
    rw [h.memory.spaces.leafPte_frame ht1 (by simp) hmem]
  | some c =>
    obtain ⟨h1, ht1, hc, hfields⟩ := hres
    have hvmas : c.vma_list = [] := by rw [hfields]
    have hne : p.pagetable ≠ c.pagetable := (h1.head_ne (by simp)).2 hp
    have hcspace := ((h1.proc c (by simp)).user hc).2
    have hpspace := ((h1.proc p (by simp)).user hp).2
    have hmem1 : KernelMemory s1 own1 (rootsOf (c :: p :: rest)) (([] : List Vma).map Vma.addr ++ areasOf (p :: rest))
        ((c :: p :: rest).map Proc.addr) := by
      have hm := h1.memory
      rwa [areasOf_cons, hvmas] at hm
    rw [hvmas] at hcspace
    simp only [wpe_bind]
    refine wpe_mono (vma_dup_all_spec hmem1 (root_mem (by simp) hp) (root_mem (by simp) hc) hne hpspace hpspace.areas
      (by simp) (fun v he => absurd (hcspace.entry_none v) he) (fun a ha => hhigh a (by simpa using ha)) ?_) ?_
    · rintro (hover | ⟨_, -, b, hb, -⟩)
      · exact hdouble hover
      · cases hb
    rintro (_ | vmas') s2 hres
    · obtain ⟨own2, hundone⟩ := hres
      simp only [wpe_bind, wpe_pure]
      exact wpe_mono (fork_undo_spec h hp h1 hc hvmas ht1 hundone).wpe fun _ _ hmid => wpe_mono hmid.wpe
        fun _ _ hmid => wpe_mono hmid.wpe fun _ _ hmid => hmid.wpe
    · obtain ⟨own2, news, rfl, hsame, hmem2, hd⟩ := hres
      simp only [wpe_bind, wpe_modify, wpe_pure]
      obtain ⟨m, hregs, hm⟩ := forkRegs_mem k c p s2
      rw [hregs]
      have h2 := h1.duped hp hc hvmas hsame hmem2 hd p.name
      obtain ⟨h3, heff3⟩ := h2.setMem (((h1.proc c (by simp)).user hc).1) hm
      have heff1 := h.memory.spaces.effect_of_touches ht1 fun _ => newProc_not_user
      have hmem2 : ∀ q ∈ p :: rest, q.pagetable ≠ 0 → q.pagetable ∈ rootsOf (c :: p :: rest) :=
        fun q hq hq0 => root_mem (List.mem_cons_of_mem _ hq) hq0
      have hother : ∀ q ∈ p :: rest, q.pagetable ≠ 0 → q.pagetable ≠ c.pagetable := fun q hq => (h1.head_ne hq).2
      refine ⟨own2, h3, ?_, fun r hr => ?_, ?_, fun v hv => ?_, hc, ⟨news, rfl, hsame⟩, by rw [hfields]⟩
      · refine ((ht1.mono ?_).trans (hd.touches.mono fun _ => .inr)).trans (heff3.touches.mono fun o ho => .inl (.inr (.inr ho)))
        rintro o (ho | ho)
        · exact .inl ho
        · exact .inr (.inl (.inr (.inl ho)))
      · obtain ⟨hr0, q, hq, rfl⟩ := mem_rootsOf.mp hr
        rw [heff3.views _ (hmem2 q hq hr0) (by simp), hd.views _ (hmem2 q hq hr0) (hother q hq hr0),
          heff1.views _ hr (newProc_not_table (hother q hq hr0))]
      · show Kmem.view _ c.pagetable = _
        rw [heff3.views _ (root_mem (List.mem_cons_self ..) hc) (by simp), hd.child_view hpspace hcspace,
          heff1.views _ hmem (newProc_not_table hne)]
      · rw [h2.memory.spaces.leafPte_frame heff3.touches (by simp) (hmem2 p (by simp) hp),
          ← h.memory.spaces.leafPte_frame ht1 (newProc_not_table hne) hmem]
        exact hd.parent v hv

end Vm

end bobchouos
