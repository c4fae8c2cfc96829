import BobchouOS.Kmalloc.Runs
import BobchouOS.Vm.Mapping

open lib

namespace bobchouos

/-- Where a virtual page leads, and with which flags. -/
def Kmem.mapping (s : Kmem) (root v : Nat) : Option (Nat × Nat) :=
  if Has (s.leafPte root v) PTE_V then some (pte_to_pa (s.leafPte root v), pte_flags (s.leafPte root v)) else none

/-- Number of the virtual pages below `MAX_VA`. -/
def NR_VPNS : Nat := MAX_VA / PG_SIZE

/-- The mapping after `n` pages from `v` on have been mapped to those from `pa` on. -/
def Maps (s s' : Kmem) (root v n pa perm : Nat) : Prop :=
  ∀ u < NR_VPNS, s'.mapping root u =
    if v ≤ u ∧ u < v + n then some (pa + (u - v) * PG_SIZE, leafFlags perm) else s.mapping root u

variable {s s' s'' : Kmem} {own own' own'' : Nat → Option Owner} {root t va v n pa perm : Nat}

theorem mapping_congr (hleaf : s'.leafPte root v = s.leafPte root v) : s'.mapping root v = s.mapping root v := by
  unfold Kmem.mapping
  rw [hleaf]

theorem mapping_none : s.mapping root v = none ↔ ¬ Has (s.leafPte root v) PTE_V := by
  unfold Kmem.mapping
  split <;> simp_all

theorem Maps.zero (hleaf : s'.leafPte root = s.leafPte root) : Maps s s' root v 0 pa perm := by
  intro u _
  rw [if_neg (by omega)]
  exact mapping_congr (by rw [hleaf])

/-- One page, then the others. -/
theorem Maps.cons (h : Maps s s' root v 1 pa perm) (h' : Maps s' s'' root (v + 1) n (pa + PG_SIZE) perm) :
    Maps s s'' root v (n + 1) pa perm := by
  intro u hu
  rw [h' u hu, h u hu]
  by_cases hrest : v + 1 ≤ u ∧ u < v + 1 + n
  · rw [if_pos hrest, if_pos (by omega)]
    obtain ⟨i, rfl⟩ := Nat.exists_eq_add_of_le hrest.1
    simp only [Option.some.injEq, Prod.mk.injEq, and_true, PG_SIZE]
    omega
  · rw [if_neg hrest]
    by_cases hself : v ≤ u ∧ u < v + 1
    · rw [if_pos hself, if_pos (by omega)]
    · rw [if_neg hself, if_neg (by omega)]

/-- Writing the leaf of one page. -/
theorem PageTable.maps_one (h : PageTable s own root) (hp : Pages s own) {a : Nat} (hv : v < NR_VPNS)
    (ha : s.leafSlot root v = some a) (hpa : pa % PG_SIZE = 0) (hlt : pa < 2 ^ 56) (hperm : perm < 1024) :
    PageTable (s.setPte a (pa_to_pte pa ||| leafFlags perm)) own root ∧
      Maps s (s.setPte a (pa_to_pte pa ||| leafFlags perm)) root v 1 pa perm ∧
      ∀ u < NR_VPNS, u ≠ v → (s.setPte a (pa_to_pte pa ||| leafFlags perm)).leafPte root u = s.leafPte root u := by
  obtain ⟨haddr, hflags, hx⟩ := leaf_parts hpa hlt hperm
  obtain ⟨htable, -, hself, hother⟩ := h.setLeaf hp hv hx ha
  refine ⟨htable, fun u hu => ?_, hother⟩
  by_cases huv : u = v
  · subst huv
    have hvalid : Has (pa_to_pte pa ||| leafFlags perm) PTE_V :=
      (has_leaf hpa hlt hperm (by decide)).mpr (.inr (.inl (by decide)))
    rw [if_pos (by omega), Kmem.mapping, hself, if_pos hvalid, haddr, hflags, Nat.sub_self, Nat.zero_mul, Nat.add_zero]
  · rw [if_neg (by omega), mapping_congr (hother u hu huv)]

/-- What `map_pages` leaves behind: `n` pages are mapped, and tables of this root
may have been added. -/
structure Mapped (s s' : Kmem) (own own' : Nat → Option Owner) (root v n pa perm : Nat) : Prop where
  pages : Pages s' own'
  table : PageTable s' own' root
  touches : Touches (Owner.IsTable root) s s' own own'
  maps : Maps s s' root v n pa perm

theorem mapLoop_spec (hp : Pages s own) (h : PageTable s own root) (hv : v + n ≤ NR_VPNS) (hpa : pa % PG_SIZE = 0)
    (hlt : pa + n * PG_SIZE ≤ 2 ^ 56) (hperm : perm < 1024)
    (hfree : ∀ u, v ≤ u → u < v + n → ¬ Has (s.leafPte root u) PTE_V) :
    wp (mapLoop root perm n (v * PG_SIZE) pa) (fun r s' => ∃ own', Touches (Owner.OnPaths root v n) s s' own own' ∧
      ((r = 0 ∧ Mapped s s' own own' root v n pa perm) ∨
      (r = -1 ∧ Exhausted s' ∧ ∃ k < n, Mapped s s' own own' root v k pa perm ∧ s'.leafSlot root (v + k) = none))) s := by
  induction n generalizing s own v pa with
  | zero =>
    rw [mapLoop, wp_pure]
    exact ⟨own, .refl _ s own, .inl ⟨rfl, hp, h, .refl _ s own, .zero rfl⟩⟩
  | succ n ih =>
    have hbounds : v < NR_VPNS ∧ v * PG_SIZE < MAX_VA ∧ v * PG_SIZE / PG_SIZE = v := by
      simp only [NR_VPNS, MAX_VA, PG_SIZE] at *
      omega
    obtain ⟨hvlt, hva, hdiv⟩ := hbounds
    rw [mapLoop]
    simp only [wp_bind]
    refine wp_mono (walk_spec hp h hva) ?_
    rw [hdiv]
    rintro a s1 ⟨own1, hg, hone, ha⟩
    have hon := hone.mono (U := Owner.OnPaths root v (n + 1)) fun o ho => ⟨v, Nat.le_refl v, by omega, ho⟩
    rcases ha with ⟨rfl, hex, hnone⟩ | ha
    · rw [if_pos rfl, wp_pure]
      exact ⟨own1, hon, .inr ⟨rfl, hex, 0, Nat.succ_pos n, ⟨hg.pages, hg.table, hg.touches, .zero hg.leaf⟩, hnone⟩⟩
    · have hleaf : s1.pte a = s.leafPte root v := by
        rw [← hg.leaf, Kmem.leafPte, ha]
        rfl
      have hempty : ¬ Has (s1.pte a) PTE_V := by
        rw [hleaf]
        exact hfree v (Nat.le_refl v) (by omega)
      have hpalt : pa < 2 ^ 56 := by
        simp only [PG_SIZE] at hlt
        omega
      have hword : pa_to_pte pa ||| perm ||| PTE_V ||| PTE_A ||| PTE_D = pa_to_pte pa ||| leafFlags perm := by
        rw [leafFlags, ← Nat.or_assoc, ← Nat.or_assoc, ← Nat.or_assoc]
      simp only [if_neg (hg.table.slot_ne_zero hg.pages ha), wp_bind, wp_get, if_neg hempty, wp_modify, hword]
      obtain ⟨htable, hone, hother⟩ := hg.table.maps_one hg.pages hvlt ha hpa hpalt hperm
      obtain ⟨hp2, ht2⟩ := hg.table.touches_setPte (x := pa_to_pte pa ||| leafFlags perm) hg.pages ha
      have hon2 := hon.trans (hg.table.touches_leaf (x := pa_to_pte pa ||| leafFlags perm) hg.pages ha
        ⟨v, Nat.le_refl v, by omega, _, List.prefix_rfl, rfl⟩)
      have hmod : (v * PG_SIZE + PG_SIZE) % 2 ^ 64 = (v + 1) * PG_SIZE ∧ (pa + PG_SIZE) % 2 ^ 64 = pa + PG_SIZE := by
        simp only [NR_VPNS, MAX_VA, PG_SIZE] at *
        omega
      rw [hmod.1, hmod.2]
      have hfirst : Maps s (s1.setPte a (pa_to_pte pa ||| leafFlags perm)) root v 1 pa perm := by
        intro u hu
        rw [hone u hu, mapping_congr (s := s) (by rw [hg.leaf])]
      refine wp_mono (ih hp2 htable (by omega) (by simp only [PG_SIZE] at *; omega)
        (by simp only [PG_SIZE] at *; omega) fun u hlo hhi => ?_) ?_
      · rw [hother u (by omega) (by omega), hg.leaf]
        exact hfree u (by omega) (by omega)
      · rintro r s' ⟨own', honrest, hres⟩
        have hon3 : Touches (Owner.OnPaths root v (n + 1)) s s' own own' := by
          refine hon2.trans (honrest.mono ?_)
          rintro o ⟨u, hlo, hhi, ho⟩
          exact ⟨u, by omega, by omega, ho⟩
        rcases hres with ⟨rfl, hrest⟩ | ⟨rfl, hex, k, hk, hrest, hnone⟩
        · exact ⟨own', hon3, .inl ⟨rfl, hrest.pages, hrest.table, (hg.touches.trans ht2).trans hrest.touches,
            hfirst.cons hrest.maps⟩⟩
        · refine ⟨own', hon3, .inr ⟨rfl, hex, k + 1, Nat.succ_lt_succ hk, ⟨hrest.pages, hrest.table,
            (hg.touches.trans ht2).trans hrest.touches, hfirst.cons hrest.maps⟩, ?_⟩⟩
          rw [← hnone]
          congr 1
          omega

theorem map_range_spec {size : Nat} (hp : Pages s own) (h : PageTable s own root) (hpos : 0 < size)
    (hva : va % PG_SIZE = 0) (hsize : size % PG_SIZE = 0) (hpa : pa % PG_SIZE = 0) (hend : va + size ≤ MAX_VA)
    (hpaend : pa + size ≤ 2 ^ 56) (hperm : perm < 1024)
    (hfree : ∀ v, va / PG_SIZE ≤ v → v < (va + size) / PG_SIZE → s.mapping root v = none) :
    wp (map_pages root va size pa perm) (fun r s' => ∃ own',
      Touches (Owner.OnPaths root (va / PG_SIZE) (size / PG_SIZE)) s s' own own' ∧
      ((r = 0 ∧ Mapped s s' own own' root (va / PG_SIZE) (size / PG_SIZE) pa perm) ∨
      (r = -1 ∧ Exhausted s' ∧ ∃ k < size / PG_SIZE, Mapped s s' own own' root (va / PG_SIZE) k pa perm ∧
        s'.leafSlot root (va / PG_SIZE + k) = none))) s := by
  have hbounds : va / PG_SIZE * PG_SIZE = va ∧ va / PG_SIZE + size / PG_SIZE = (va + size) / PG_SIZE ∧
      (va + size) / PG_SIZE ≤ NR_VPNS ∧ pa + size / PG_SIZE * PG_SIZE ≤ 2 ^ 56 ∧
      (size >>> PG_SHIFT) % 2 ^ 32 = size / PG_SIZE := by
    simp only [NR_VPNS, MAX_VA, PG_SIZE, PG_SHIFT, Nat.shiftRight_eq_div_pow] at *
    omega
  obtain ⟨hvaeq, hsum, hle, hpale, hnr⟩ := hbounds
  have hspec := mapLoop_spec (v := va / PG_SIZE) (n := size / PG_SIZE) hp h (by omega) hpa hpale hperm
    fun u hlo hhi => mapping_none.mp (hfree u hlo (by omega))
  rw [hvaeq] at hspec
  unfold map_pages
  rw [if_neg (by omega), if_neg (by omega), hnr]
  exact hspec

namespace Build

inductive Op where
  | walk (va : Nat)
  | map_pages (va size pa perm : Nat)

/-- Calls inside the address space, on page boundaries, that map nothing twice.
The physical pages to be mapped have the property `P`. -/
def Op.Legal (root : Nat) (P : Nat → Prop) (s : Kmem) : Op → Prop
  | .walk va => va < MAX_VA
  | .map_pages va size pa perm => 0 < size ∧ va % PG_SIZE = 0 ∧ size % PG_SIZE = 0 ∧ pa % PG_SIZE = 0 ∧
    va + size ≤ MAX_VA ∧ pa + size ≤ 2 ^ 56 ∧ perm < 1024 ∧
    (∀ v, va / PG_SIZE ≤ v → v < (va + size) / PG_SIZE → s.mapping root v = none) ∧
    ∀ i < size / PG_SIZE, P (pa + i * PG_SIZE)

def Op.exec (root : Nat) : Op → Prog Kmem Int
  | .walk va => do
    let leaf ← bobchouos.walk root va true
    pure leaf
  | .map_pages va size pa perm => bobchouos.map_pages root va size pa perm

/-- A page table that grows from the page `kalloc` returned for its root, on top
of any use of the allocator before. -/
def system (h : Heap) (root : Nat) (P : Nat → Prop) : Lts Kmem Op where
  init s := root ≠ 0 ∧ kalloc h.kmem = .ok (root, s)
  step op s s' := op.Legal root P s ∧ ∃ r, op.exec root s = .ok (r, s')

structure Inv (h : Heap) (root : Nat) (P : Nat → Prop) (s : Kmem) (own : Nat → Option Owner) : Prop where
  pages : Pages s own
  table : PageTable s own root
  start : s.free_start = h.kmem.free_start
  live : ∀ b ∈ h.live, own b.1 = some (.big b.2)
  mapped : ∀ v < NR_VPNS, ∀ q f, s.mapping root v = some (q, f) → P q

variable {h : Heap} {P : Nat → Prop} {size : Nat}

/-- Only tables of this root were taken or written. -/
theorem Inv.step (hinv : Inv h root P s own) (hp : Pages s' own') (htable : PageTable s' own' root)
    (ht : Touches (Owner.IsTable root) s s' own own')
    (hmapped : ∀ v < NR_VPNS, ∀ q f, s'.mapping root v = some (q, f) → P q) : Inv h root P s' own' := by
  refine ⟨hp, htable, ht.free_start.trans hinv.start, fun b hb => (ht.owner _ _ ?_).mpr (hinv.live b hb), hmapped⟩
  rintro ⟨path, heq⟩
  cases heq

theorem Inv.grown (hinv : Inv h root P s own) (hg : Grown s s' own own' root) : Inv h root P s' own' := by
  refine hinv.step hg.pages hg.table hg.touches fun v hv q f hmap => hinv.mapped v hv q f ?_
  rw [← hmap]
  exact (mapping_congr (by rw [hg.leaf])).symm

theorem Inv.mappedStep (hinv : Inv h root P s own) (hm : Mapped s s' own own' root v n pa perm)
    (hP : ∀ i < n, P (pa + i * PG_SIZE)) : Inv h root P s' own' := by
  refine hinv.step hm.pages hm.table hm.touches fun u hu q f hmap => ?_
  rw [hm.maps u hu] at hmap
  split at hmap
  · cases hmap
    exact hP _ (by omega)
  · exact hinv.mapped u hu q f hmap

theorem Inv.map_pages_spec (hinv : Inv h root P s own) (hlegal : (Op.map_pages va size pa perm).Legal root P s) :
    wp (bobchouos.map_pages root va size pa perm) (fun r s' => ∃ own', Inv h root P s' own' ∧
      ((r = 0 ∧ Maps s s' root (va / PG_SIZE) (size / PG_SIZE) pa perm) ∨
      (r = -1 ∧ Exhausted s' ∧ ∃ k < size / PG_SIZE, Maps s s' root (va / PG_SIZE) k pa perm ∧
        s'.leafSlot root (va / PG_SIZE + k) = none))) s := by
  obtain ⟨hpos, hva, hsize, hpa, hend, hpaend, hperm, hfree, hP⟩ := hlegal
  refine wp_mono (map_range_spec hinv.pages hinv.table hpos hva hsize hpa hend hpaend hperm hfree) ?_
  rintro r s' ⟨own', -, ⟨rfl, hm⟩ | ⟨rfl, hex, k, hk, hm, hnone⟩⟩
  · exact ⟨own', hinv.mappedStep hm hP, .inl ⟨rfl, hm.maps⟩⟩
  · exact ⟨own', hinv.mappedStep hm fun i hi => hP i (by omega), .inr ⟨rfl, hex, k, hk, hm.maps, hnone⟩⟩

theorem Inv.walk_spec (hinv : Inv h root P s own) (hva : va < MAX_VA) :
    wp (bobchouos.walk root va true) (fun a s' => ∃ own', Inv h root P s' own' ∧ s'.leafPte root = s.leafPte root ∧
      ((a = 0 ∧ Exhausted s') ∨ s'.leafSlot root (va / PG_SIZE) = some a)) s := by
  refine wp_mono (bobchouos.walk_spec hinv.pages hinv.table hva) ?_
  rintro a s' ⟨own', hg, -, ha⟩
  exact ⟨own', hinv.grown hg, hg.leaf, ha.imp_left fun h => ⟨h.1, h.2.1⟩⟩

theorem exec_inv {op : Op} (hinv : Inv h root P s own) (hlegal : op.Legal root P s) :
    wp (op.exec root) (fun _ s' => ∃ own', Inv h root P s' own') s := by
  cases op with
  | walk va =>
    unfold Op.exec
    simp only [wp_bind, wp_pure]
    refine wp_mono (hinv.walk_spec hlegal) ?_
    rintro _ _ ⟨own', hinv', -⟩
    exact ⟨own', hinv'⟩
  | map_pages va size pa perm =>
    refine wp_mono (hinv.map_pages_spec hlegal) ?_
    rintro _ _ ⟨own', hinv', -⟩
    exact ⟨own', hinv'⟩

theorem inv_of_init {kernel_end : Nat} (hlo : KERN_BASE ≤ freeStart kernel_end) (hhi : freeStart kernel_end ≤ PHYS_STOP)
    (hreach : (Heap.system kernel_end).Reachable h) (hinit : (system h root P).init s) : ∃ own, Inv h root P s own := by
  obtain ⟨hne, hkalloc⟩ := hinit
  obtain ⟨free, bs, hinv⟩ := Heap.inv_of_reachable hlo hhi hreach
  rcases (Pool.pages_of_heap hinv).kalloc_spec.post hkalloc with ⟨hzero, -⟩ | hf
  · exact absurd hzero hne
  have hp := hf.pages (.table root []) rfl
  obtain ⟨htable, hleaf⟩ := PageTable.of_fresh hf fun q path hq => by
    obtain ⟨k, hk⟩ := Pool.ownersOf_big hq
    cases hk
  refine ⟨_, hp, htable, hf.free_start, fun b hb => ?_, fun v _ q f hmap => ?_⟩
  · obtain ⟨c, hc, hb1, hb2⟩ := Heap.mem_live hinv hb
    have hown := Pool.ownersOf_eq hinv hc
    rw [hb1, hb2, Function.update_of_ne, hown]
    rintro heq
    rw [heq, hf.was_free] at hown
    cases hown
  · rw [mapping_none.mpr (by rw [hleaf]; simp [Has])] at hmap
    cases hmap

theorem inv_of_reachable {kernel_end : Nat} (hlo : KERN_BASE ≤ freeStart kernel_end)
    (hhi : freeStart kernel_end ≤ PHYS_STOP) (hreach : (Heap.system kernel_end).Reachable h)
    (hs : (system h root P).Reachable s) : ∃ own, Inv h root P s own := by
  apply hs.invariant
  · intro s hinit
    exact inv_of_init hlo hhi hreach hinit
  · rintro op s s' ⟨own, hinv⟩ ⟨hlegal, r, hexec⟩
    exact (exec_inv hinv hlegal).post hexec

/-- The table pages form a tree: each is reached by one path, and the valid
entries of directories are pointers, without permissions. -/
structure Tree (s : Kmem) (root : Nat) : Prop where
  page : ∀ path t, IsPath path → s.tableAt root path = some t →
    t % PG_SIZE = 0 ∧ KERN_BASE ≤ t ∧ t + PG_SIZE ≤ PHYS_STOP
  unique : ∀ path path' t, IsPath path → IsPath path' → s.tableAt root path = some t → s.tableAt root path' = some t →
    path' = path
  pointer : ∀ path t i, IsPath (path ++ [i]) → s.tableAt root path = some t →
    Has (s.pte (pteAddr t i)) PTE_V → pte_flags (s.pte (pteAddr t i)) = PTE_V

theorem Inv.tree (hinv : Inv h root P s own) : Tree s root := by
  refine ⟨fun path t hpath ht => ?_, fun path path' t hpath hpath' ht ht' => ?_, hinv.table.dirs⟩
  · exact hinv.pages.range (by rw [hinv.table.owned hpath ht]; simp)
  · exact hinv.table.path_inj hpath hpath' ht ht'

/-- The tables are pages that were free before. -/
theorem Inv.table_was_free (hinv : Inv h root P s own) {path : List Nat} (hpath : IsPath path)
    (ht : s.tableAt root path = some t) : h.FreePage (t / PG_SIZE) := by
  have hown := hinv.table.owned hpath ht
  obtain ⟨haligned, -, hstop⟩ := hinv.pages.range_of hown
  obtain ⟨-, -, hstart, -⟩ := hinv.pages.extent hown
  have hpage : t / PG_SIZE * PG_SIZE = t := Nat.div_mul_cancel (Nat.dvd_of_mod_eq_zero haligned)
  rw [hinv.start] at hstart
  unfold Heap.FreePage
  rw [hpage]
  refine ⟨hstart, by simp only [PG_SIZE] at hstop; omega, fun b hb hin => ?_⟩
  have hb' := hinv.live b hb
  have hne : b.1 ≠ t := by
    rintro rfl
    rw [hown] at hb'
    cases hb'
  have hapart := hinv.pages.blocks_apart hb' hown hne
  have hpos := Pages.shiftLeft_pos (Owner.table root path).order
  obtain ⟨hlo, hhi⟩ := hin
  simp only [Owner.order] at hapart
  omega

theorem Inv.walk_false (hinv : Inv h root P s own) (hva : va < MAX_VA) :
    ∃ a, walk root va false s = .ok (a, s) ∧ ((a = 0 ∧ s.mapping root (va / PG_SIZE) = none) ∨
      (a ≠ 0 ∧ s.mapping root (va / PG_SIZE) =
          (if Has (s.pte a) PTE_V then some (pte_to_pa (s.pte a), pte_flags (s.pte a)) else none) ∧
        ∀ va' < MAX_VA, walk root va' false s = .ok (a, s) → va' / PG_SIZE = va / PG_SIZE)) := by
  have hlt : ∀ x < MAX_VA, x / PG_SIZE < 2 ^ 26 := by
    intro x hx
    simp only [MAX_VA, PG_SIZE] at *
    omega
  refine ⟨_, bobchouos.walk_false s root hva, ?_⟩
  cases ha : s.leafSlot root (va / PG_SIZE) with
  | none =>
    refine .inl ⟨rfl, mapping_none.mpr ?_⟩
    simp [Kmem.leafPte, ha, Has]
  | some a =>
    refine .inr ⟨hinv.table.slot_ne_zero hinv.pages ha, ?_, fun va' hva' hwalk => ?_⟩
    · simp [Kmem.mapping, Kmem.leafPte, ha]
    · rw [bobchouos.walk_false s root hva'] at hwalk
      cases ha' : s.leafSlot root (va' / PG_SIZE) with
      | none =>
        rw [ha'] at hwalk
        have hzero : 0 = a := by simpa using hwalk
        exact absurd hzero.symm (hinv.table.slot_ne_zero hinv.pages ha)
      | some a' =>
        rw [ha'] at hwalk
        have heq : a' = a := by simpa using hwalk
        rw [heq] at ha'
        exact hinv.table.slot_inj hinv.pages (hlt va hva) (hlt va' hva') ha ha'

/-- A page table built by any sequence of calls is a tree, and no table is mapped
unless a page is that was free at the start. `map_pages` maps all pages it is
asked for or, when memory runs out at one of them, those in front of it; nothing
else changes. `walk` finds the slot of the page and changes no mapping. -/
theorem page_table_refines (kernel_end : Nat) (hlo : KERN_BASE ≤ freeStart kernel_end)
    (hhi : freeStart kernel_end ≤ PHYS_STOP) (h : Heap) (hreach : (Heap.system kernel_end).Reachable h) (root : Nat)
    (P : Nat → Prop) (s : Kmem) (hs : (system h root P).Reachable s) :
    Tree s root ∧
    ((∀ q, P q → ¬ h.FreePage (q / PG_SIZE)) → ∀ path t, IsPath path → s.tableAt root path = some t →
      ∀ v < NR_VPNS, ∀ f, s.mapping root v ≠ some (t, f)) ∧
    (∀ va size pa perm, (Op.map_pages va size pa perm).Legal root P s →
      ∃ r s', map_pages root va size pa perm s = .ok (r, s') ∧
        ((r = 0 ∧ Maps s s' root (va / PG_SIZE) (size / PG_SIZE) pa perm) ∨
          ∃ k, 1 ≤ k ∧ k ≤ size / PG_SIZE ∧ r = -1 ∧ Exhausted s' ∧
            s'.leafSlot root (va / PG_SIZE + (k - 1)) = none ∧ Maps s s' root (va / PG_SIZE) (k - 1) pa perm)) ∧
    (∀ va < MAX_VA, ∃ a, walk root va false s = .ok (a, s) ∧ ((a = 0 ∧ s.mapping root (va / PG_SIZE) = none) ∨
      (a ≠ 0 ∧ s.mapping root (va / PG_SIZE) =
          (if Has (s.pte a) PTE_V then some (pte_to_pa (s.pte a), pte_flags (s.pte a)) else none) ∧
        ∀ va' < MAX_VA, walk root va' false s = .ok (a, s) → va' / PG_SIZE = va / PG_SIZE))) ∧
    (∀ va < MAX_VA, ∃ a s', walk root va true s = .ok (a, s') ∧ s'.mapping root = s.mapping root ∧
      ((a = 0 ∧ Exhausted s') ∨ s'.leafSlot root (va / PG_SIZE) = some a)) := by
  obtain ⟨own, hinv⟩ := inv_of_reachable hlo hhi hreach hs
  refine ⟨hinv.tree, ?_, ?_, fun va hva => hinv.walk_false hva, ?_⟩
  · intro hP path t hpath ht v hv f hmap
    exact hP t (hinv.mapped v hv t f hmap) (hinv.table_was_free hpath ht)
  · intro va size pa perm hlegal
    obtain ⟨r, s', hexec, own', -, ⟨hr, hmaps⟩ | ⟨hr, hex, k, hk, hmaps, hnone⟩⟩ := hinv.map_pages_spec hlegal
    · exact ⟨r, s', hexec, .inl ⟨hr, hmaps⟩⟩
    · exact ⟨r, s', hexec, .inr ⟨k + 1, Nat.succ_pos k, hk, hr, hex, hnone, hmaps⟩⟩
  · intro va hva
    obtain ⟨a, s', hexec, own', -, hleaf, ha⟩ := hinv.walk_spec hva
    refine ⟨a, s', hexec, ?_, ha⟩
    funext v
    exact mapping_congr (by rw [hleaf])

/-- A machine with eight free pages behind the kernel, and a page table whose
first page is mapped to its own root. -/
theorem small_run : ∃ s root s1 s2,
    kalloc_init 0x87EF8000 ⟨fun _ => 0, fun _ => {}, fun _ => {}, 0, fun _ => {}⟩ = .ok ((), s) ∧
      root ≠ 0 ∧ root % PG_SIZE = 0 ∧ root + PG_SIZE ≤ 2 ^ 56 ∧ kalloc s = .ok (root, s1) ∧ s1.mapping root 0 = none ∧
      map_pages root 0 PG_SIZE root PTE_R s1 = .ok (0, s2) ∧ s2.mapping root 0 = some (root, leafFlags PTE_R) := by
  have hrun : (match kalloc_init 0x87EF8000 ⟨fun _ => 0, fun _ => {}, fun _ => {}, 0, fun _ => {}⟩ with
      | .ok (_, s) => (match kalloc s with
        | .ok (root, s1) => decide (root ≠ 0) && decide (root % PG_SIZE = 0) && decide (root + PG_SIZE ≤ 2 ^ 56) &&
          decide (s1.mapping root 0 = none) &&
          (match map_pages root 0 PG_SIZE root PTE_R s1 with
          | .ok (r, s2) => decide (r = 0) && decide (s2.mapping root 0 = some (root, leafFlags PTE_R))
          | .error _ => false)
        | .error _ => false)
      | .error _ => false) = true := by decide +kernel
  cases hinit : kalloc_init 0x87EF8000 ⟨fun _ => 0, fun _ => {}, fun _ => {}, 0, fun _ => {}⟩ with
  | error e =>
    rw [hinit] at hrun
    cases hrun
  | ok r =>
    obtain ⟨⟨⟩, s⟩ := r
    rw [hinit] at hrun
    cases halloc : kalloc s with
    | error e => simp [halloc] at hrun
    | ok r =>
      obtain ⟨root, s1⟩ := r
      cases hmap : map_pages root 0 PG_SIZE root PTE_R s1 with
      | error e => simp [halloc, hmap] at hrun
      | ok r =>
        obtain ⟨ret, s2⟩ := r
        simp only [halloc, hmap, Bool.and_eq_true, decide_eq_true_eq] at hrun
        obtain ⟨⟨⟨⟨hne, haligned⟩, hlt⟩, hnone⟩, rfl, hself⟩ := hrun
        exact ⟨s, root, s1, s2, rfl, hne, haligned, hlt, halloc, hnone, hmap, hself⟩

/-- The first page can be mapped to any page. -/
theorem legal_first {P : Nat → Prop} (hnone : s.mapping root 0 = none) (hpa : pa % PG_SIZE = 0)
    (hlt : pa + PG_SIZE ≤ 2 ^ 56) (hP : P pa) : (Op.map_pages 0 PG_SIZE pa PTE_R).Legal root P s := by
  refine ⟨by decide, rfl, rfl, hpa, by decide, hlt, by decide, fun v _ hv => ?_, fun i hi => ?_⟩
  · obtain rfl : v = 0 := by
      simp only [PG_SIZE] at hv
      omega
    exact hnone
  · obtain rfl : i = 0 := by
      simp only [PG_SIZE] at hi
      omega
    simpa using hP

/-- A page table that maps its own root. -/
theorem root_mapped : ∃ h root s, (Heap.system 0x87EF8000).Reachable h ∧ (system h root fun _ => True).Reachable s ∧
    s.tableAt root [] = some root ∧ s.mapping root 0 = some (root, leafFlags PTE_R) := by
  obtain ⟨s, root, s1, s2, hinit, hne, haligned, hlt, halloc, hnone, hmap, hself⟩ := small_run
  have hboot : (system ⟨s, []⟩ root fun _ => True).Reachable s1 := .init ⟨hne, halloc⟩
  exact ⟨⟨s, []⟩, root, s2, .init ⟨_, s, hinit, rfl⟩,
    hboot.step (a := .map_pages 0 PG_SIZE root PTE_R) ⟨legal_first hnone haligned hlt trivial, 0, hmap⟩, rfl, hself⟩

/-- A page of the kernel image, which the allocator does not manage, is mapped,
and the page table stays apart from it. -/
theorem page_table_refines_kernel_page : ∃ h root s, (system h root fun q => ¬ h.FreePage (q / PG_SIZE)).Reachable s ∧
    Tree s root ∧ ∀ v < NR_VPNS, ∀ f, s.mapping root v ≠ some (root, f) := by
  have hstart := freeStart_eq (k := 0x87EF8000) (by decide)
  have hlo : KERN_BASE ≤ freeStart 0x87EF8000 := by rw [hstart]; decide
  have hhi : freeStart 0x87EF8000 ≤ PHYS_STOP := by rw [hstart]; decide
  obtain ⟨s, root, s1, -, hinit, hne, -, -, halloc, hnone, -, -⟩ := small_run
  have hheap : (Heap.system 0x87EF8000).Reachable ⟨s, []⟩ := .init ⟨_, s, hinit, rfl⟩
  have hkernel : ¬ Heap.FreePage ⟨s, []⟩ (KERN_BASE / PG_SIZE) := by
    rintro ⟨hfree, -⟩
    obtain ⟨free, bs, hinv⟩ := Heap.inv_of_reachable hlo hhi hheap
    rw [hinv.start, hstart] at hfree
    exact absurd hfree (by decide)
  have hboot : (system ⟨s, []⟩ root fun q => ¬ Heap.FreePage ⟨s, []⟩ (q / PG_SIZE)).Reachable s1 := .init ⟨hne, halloc⟩
  have hlegal := legal_first (P := fun q => ¬ Heap.FreePage ⟨s, []⟩ (q / PG_SIZE)) hnone
    (show KERN_BASE % PG_SIZE = 0 by decide) (by decide) hkernel
  obtain ⟨-, -, hmap, -⟩ := page_table_refines 0x87EF8000 hlo hhi ⟨s, []⟩ hheap root _ s1 hboot
  obtain ⟨r, s2, hexec, -⟩ := hmap _ _ _ _ hlegal
  have hcall : (Op.map_pages 0 PG_SIZE KERN_BASE PTE_R).exec root s1 = .ok (r, s2) := hexec
  have hreach := hboot.step (a := .map_pages 0 PG_SIZE KERN_BASE PTE_R) ⟨hlegal, r, hcall⟩
  obtain ⟨htree, htables, -⟩ := page_table_refines 0x87EF8000 hlo hhi ⟨s, []⟩ hheap root _ s2 hreach
  exact ⟨_, root, s2, hreach, htree, htables (fun _ h => h) [] root ⟨Nat.zero_le 2, by simp⟩ rfl⟩

end Build

end bobchouos
