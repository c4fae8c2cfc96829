import BobchouOS.Vm.Translation

open lib

namespace bobchouos

def QEMU_SHUTDOWN : Nat := 0x100000
def CLINT_BASE : Nat := 0x2000000
def PLIC_BASE : Nat := 0x0C000000
def PLIC_SIZE : Nat := 0x400000
def UART0_BASE : Nat := 0x10000000
def VIRTIO0_BASE : Nat := 0x10001000

/-- `kvm_map`, on the table it is given instead of the global `kernel_root_pt`. -/
def kvm_map (kernel_root_pt va pa size perm : Nat) : Prog Kmem Unit := do
  let r ← map_pages kernel_root_pt va size pa perm
  if r ≠ 0 then
    Prog.panic "kvm_map"
  else
    pure ()

/-- `vm_create_kernel_pt`, for the addresses the linker gives `_text_end` and
`user_vec`. `_kernel_start` is `KERN_BASE`. Returns `kernel_root_pt`. -/
def vm_create_kernel_pt (text_end user_vec : Nat) : Prog Kmem Nat := do
  let kernel_root_pt ← kalloc
  if kernel_root_pt = 0 then
    Prog.panic "vm_init: failed to kalloc"
  else do
    kvm_map kernel_root_pt QEMU_SHUTDOWN QEMU_SHUTDOWN PG_SIZE (PTE_R ||| PTE_W)
    kvm_map kernel_root_pt CLINT_BASE CLINT_BASE 0x10000 (PTE_R ||| PTE_W)
    kvm_map kernel_root_pt PLIC_BASE PLIC_BASE PLIC_SIZE (PTE_R ||| PTE_W)
    kvm_map kernel_root_pt UART0_BASE UART0_BASE PG_SIZE (PTE_R ||| PTE_W)
    kvm_map kernel_root_pt VIRTIO0_BASE VIRTIO0_BASE PG_SIZE (PTE_R ||| PTE_W)
    kvm_map kernel_root_pt KERN_BASE KERN_BASE (text_end - KERN_BASE) (PTE_R ||| PTE_X)
    kvm_map kernel_root_pt text_end text_end (PHYS_STOP - text_end) (PTE_R ||| PTE_W)
    kvm_map kernel_root_pt TRAMPOLINE user_vec PG_SIZE (PTE_R ||| PTE_X)
    pure kernel_root_pt

/-- At least `n` pages are free. -/
def Heap.HasFree (h : Heap) (n : Nat) : Prop :=
  ∃ pages : List Nat, pages.Nodup ∧ n ≤ pages.length ∧ ∀ i ∈ pages, h.FreePage i

/-- The paths of all tables of the kernel page table. -/
def kernelTables : List (List Nat) :=
  [[], [0], [0, 0], [0, 16], [0, 96], [0, 97], [0, 128], [2], [255], [255, 511]] ++ (List.range 64).map fun i => [2, i]

/-- The kernel page table while it is built, on top of the heap `h`, with the
translation `m` so far. -/
structure Kvm (h : Heap) (root : Nat) (m : Nat → Option (Nat × Nat)) (s : Kmem) (own : Nat → Option Owner) : Prop where
  pages : Pages s own
  table : PageTable s own root
  start : s.free_start = h.kmem.free_start
  other : ∀ pa o, own pa = some o → ¬ Owner.IsTable root o → (pa, o.order) ∈ h.live
  tables : ∀ path t, IsPath path → s.tableAt root path = some t → path ∈ kernelTables
  mapping : ∀ u < NR_VPNS, s.mapping root u = m u

/-- The arguments of one call of `kvm_map`. -/
structure Range where
  va : Nat
  pa : Nat
  size : Nat
  perm : Nat

/-- The page is one of the range. -/
def Range.Has (r : Range) (u : Nat) : Prop := r.va ≤ u * PG_SIZE ∧ u * PG_SIZE < r.va + r.size

instance (r : Range) (u : Nat) : Decidable (r.Has u) := inferInstanceAs (Decidable (_ ∧ _))

/-- One more range in a translation. -/
def mapRange (m : Nat → Option (Nat × Nat)) (r : Range) (u : Nat) : Option (Nat × Nat) :=
  if r.Has u then some (r.pa + (u * PG_SIZE - r.va), leafFlags r.perm) else m u

/-- What a call of `kvm_map` needs. -/
structure Range.Ok (r : Range) : Prop where
  pos : 0 < r.size
  va_aligned : r.va % PG_SIZE = 0
  pa_aligned : r.pa % PG_SIZE = 0
  size_aligned : r.size % PG_SIZE = 0
  va_le : r.va + r.size ≤ MAX_VA
  pa_le : r.pa + r.size ≤ 2 ^ 56
  perm_lt : r.perm < 1024
  paths : ∀ u, r.Has u → ∀ path, path <+: vpnPath u → path ∈ kernelTables

namespace Kvm

variable {h : Heap} {root : Nat} {m : Nat → Option (Nat × Nat)} {s s' : Kmem} {own own' : Nat → Option Owner}
  {r : Range}

theorem touched (hk : Kvm h root m s own) {T : Owner → Prop} (hp : Pages s' own') (ht : PageTable s' own' root)
    (htouch : Touches T s s' own own') (hT : ∀ o, T o → ∃ path ∈ kernelTables, o = .table root path)
    {m' : Nat → Option (Nat × Nat)} (hm : ∀ u < NR_VPNS, s'.mapping root u = m' u) : Kvm h root m' s' own' := by
  refine ⟨hp, ht, htouch.free_start.trans hk.start, fun pa o ho hnot => ?_, fun path t hpath hat => ?_, hm⟩
  · refine hk.other pa o ((htouch.owner pa o fun hTo => hnot ?_).mp ho) hnot
    obtain ⟨path, -, rfl⟩ := hT o hTo
    exact ⟨path, rfl⟩
  · have ho := ht.owned hpath hat
    by_cases hTo : T (.table root path)
    · obtain ⟨path', hmem, heq⟩ := hT _ hTo
      cases heq
      exact hmem
    · exact hk.tables path t hpath ((hk.table.owner path t).mp ((htouch.owner _ _ hTo).mp ho)).2

/-- Every page that was free before is a table once no page is free. -/
theorem exhausted (hk : Kvm h root m s own) (hex : Exhausted s) {n : Nat} (hn : h.FreePage n) :
    ∃ path ∈ kernelTables, s.tableAt root path = some (n * PG_SIZE) := by
  obtain ⟨hlo, hhi, hlive⟩ := hn
  obtain ⟨pb, o, ho, hbase⟩ := hk.pages.covered_of_exhausted hex (hk.start ▸ hlo) hhi
  have htable : Owner.IsTable root o := by
    by_contra hnot
    exact hlive _ (hk.other pb o ho hnot) hbase
  obtain ⟨path, rfl⟩ := htable
  have halignedb := (hk.pages.range_of ho).1
  have haddr : pb = n * PG_SIZE := by
    simp only [Owner.order, PG_SIZE, Nat.shiftLeft_zero] at *
    omega
  obtain ⟨hpath, hat⟩ := (hk.table.owner path pb).mp ho
  exact ⟨path, hk.tables path pb hpath hat, haddr ▸ hat⟩

/-- With a free page for each table the memory cannot run out before the last. -/
theorem not_exhausted (hk : Kvm h root m s own) (hfree : h.HasFree kernelTables.length) {path : List Nat}
    (hpath : path ∈ kernelTables) (hnone : s.tableAt root path = none) : ¬ Exhausted s := by
  intro hex
  obtain ⟨pages, hnodup, hlen, hfree⟩ := hfree
  have hinj : Function.Injective fun n => n * PG_SIZE := by
    intro a b hab
    simp only [PG_SIZE] at hab
    omega
  have hsub : pages.map (· * PG_SIZE) ⊆ kernelTables.filterMap (s.tableAt root) := by
    intro q hq
    obtain ⟨n, hn, rfl⟩ := List.mem_map.mp hq
    obtain ⟨path, hmem, hat⟩ := hk.exhausted hex (hfree n hn)
    exact List.mem_filterMap.mpr ⟨path, hmem, hat⟩
  have hle := ((hnodup.map hinj).subperm hsub).length_le
  have hlt : (kernelTables.filterMap (s.tableAt root)).length < kernelTables.length :=
    List.length_filterMap_lt_length_iff_exists.mpr ⟨path, hpath, hnone⟩
  rw [List.length_map] at hle
  omega

theorem kvm_map_spec (hk : Kvm h root m s own) (hfree : h.HasFree kernelTables.length) (hr : r.Ok)
    (hnone : ∀ u, r.Has u → m u = none) :
    wp (kvm_map root r.va r.pa r.size r.perm) (fun _ s' => ∃ own', Kvm h root (mapRange m r) s' own') s := by
  have hva := hr.va_aligned
  have hsize := hr.size_aligned
  have hle := hr.va_le
  have hhas : ∀ u, r.va / PG_SIZE ≤ u ∧ u < r.va / PG_SIZE + r.size / PG_SIZE ↔ r.Has u := by
    intro u
    simp only [Range.Has, PG_SIZE] at *
    omega
  have hend : (r.va + r.size) / PG_SIZE = r.va / PG_SIZE + r.size / PG_SIZE ∧ (r.va + r.size) / PG_SIZE ≤ NR_VPNS := by
    simp only [NR_VPNS, MAX_VA, PG_SIZE] at *
    omega
  have hT : ∀ o, Owner.OnPaths root (r.va / PG_SIZE) (r.size / PG_SIZE) o →
      ∃ path ∈ kernelTables, o = .table root path := by
    rintro o ⟨u, hlo, hhi, path, hprefix, rfl⟩
    exact ⟨path, hr.paths u ((hhas u).mp ⟨hlo, hhi⟩) path hprefix, rfl⟩
  unfold kvm_map
  simp only [wp_bind]
  refine wp_mono (map_range_spec hk.pages hk.table hr.pos hva hsize hr.pa_aligned hle hr.pa_le hr.perm_lt
    fun u hlo hhi => ?_) ?_
  · rw [hk.mapping u (by omega)]
    exact hnone u ((hhas u).mp ⟨hlo, by omega⟩)
  · rintro ret s' ⟨own', htouch, ⟨rfl, hm⟩ | ⟨rfl, hex, k, hlt, hm, hslot⟩⟩
    · simp only [ne_eq, not_true_eq_false, if_false, wp_pure]
      refine ⟨own', hk.touched hm.pages hm.table htouch hT fun u hu => ?_⟩
      have hoff : (u - r.va / PG_SIZE) * PG_SIZE = u * PG_SIZE - r.va := by
        simp only [PG_SIZE] at *
        omega
      rw [hm.maps u hu, mapRange, hk.mapping u hu, hoff]
      simp only [hhas]
    · have hk' : Kvm h root (s'.mapping root) s' own' := hk.touched hm.pages hm.table htouch hT fun _ _ => rfl
      rw [Kmem.leafSlot, Option.map_eq_none_iff] at hslot
      have hin := (hhas (r.va / PG_SIZE + k)).mp ⟨Nat.le_add_right _ _, by omega⟩
      exact absurd hex (hk'.not_exhausted hfree (hr.paths _ hin _ List.prefix_rfl) hslot)

/-- Ranges in ascending order. -/
theorem kvm_maps_spec {rs : List Range} (hk : Kvm h root m s own) (hfree : h.HasFree kernelTables.length)
    (hok : ∀ r ∈ rs, r.Ok) (hasc : rs.Pairwise fun r r' => r.va + r.size ≤ r'.va)
    (hnone : ∀ r ∈ rs, ∀ u, r.Has u → m u = none) :
    wp (forM rs fun r => kvm_map root r.va r.pa r.size r.perm)
      (fun _ s' => ∃ own', Kvm h root (rs.foldl mapRange m) s' own') s := by
  induction rs generalizing m s own with
  | nil =>
    rw [List.forM_nil, wp_pure]
    exact ⟨own, hk⟩
  | cons r rs ih =>
    rw [List.forM_cons, wp_bind]
    obtain ⟨hlater, hasc⟩ := List.pairwise_cons.mp hasc
    refine wp_mono (hk.kvm_map_spec hfree (hok r List.mem_cons_self) (hnone r List.mem_cons_self)) ?_
    rintro _ s' ⟨own', hk'⟩
    refine ih hk' (fun r' hr' => hok r' (List.mem_cons_of_mem _ hr')) hasc fun r' hr' u hu => ?_
    have hnot : ¬ r.Has u := by
      have hle := hlater r' hr'
      simp only [Range.Has] at hu ⊢
      omega
    rw [mapRange, if_neg hnot]
    exact hnone r' (List.mem_cons_of_mem _ hr') u hu

/-- The root alone. -/
theorem of_kalloc {kernel_end : Nat} (hlo : KERN_BASE ≤ freeStart kernel_end) (hhi : freeStart kernel_end ≤ PHYS_STOP)
    (hreach : (Heap.system kernel_end).Reachable h) (hfree : h.HasFree kernelTables.length) :
    wp kalloc (fun root s => root ≠ 0 ∧ ∃ own, Kvm h root (fun _ => none) s own) h.kmem := by
  obtain ⟨free, bs, hinv⟩ := Heap.inv_of_reachable hlo hhi hreach
  have hp := Pool.pages_of_heap hinv
  have hbig : ∀ pa o, Pool.ownersOf bs pa = some o → (pa, o.order) ∈ h.live := by
    intro pa o ho
    obtain ⟨b, hfind, rfl⟩ := Option.map_eq_some_iff.mp ho
    rw [hinv.live]
    have haddr : blockAddr b = pa := by simpa using List.find?_some hfind
    exact List.mem_map.mpr ⟨b, List.mem_of_find?_eq_some hfind, Prod.ext haddr rfl⟩
  refine wp_mono hp.kalloc_spec ?_
  rintro root s (⟨rfl, rfl, hex⟩ | hf)
  · obtain ⟨pages, -, hlen, hpages⟩ := hfree
    obtain ⟨n, hn⟩ := List.exists_mem_of_length_pos (Nat.lt_of_lt_of_le (by decide) hlen)
    obtain ⟨hstart, hstop, hlive⟩ := hpages n hn
    obtain ⟨pb, o, ho, hbase⟩ := hp.covered_of_exhausted hex hstart hstop
    exact absurd hbase (hlive _ (hbig pb o ho))
  obtain ⟨htable, hleaf⟩ := PageTable.of_fresh hf fun q path hq => by
    obtain ⟨k, hk⟩ := Pool.ownersOf_big hq
    cases hk
  refine ⟨hf.ne_zero, _, hf.pages _ rfl, htable, hf.free_start, fun pa o ho hnot => ?_, fun path t hpath hat => ?_,
    fun u _ => mapping_none.mpr (by rw [hleaf]; simp [Has])⟩
  · by_cases hpa : pa = root
    · rw [hpa, Function.update_self] at ho
      cases ho
      exact absurd ⟨_, rfl⟩ hnot
    · rw [Function.update_of_ne hpa] at ho
      exact hbig pa o ho
  · have ho := htable.owned hpath hat
    by_cases hpa : t = root
    · rw [hpa, Function.update_self] at ho
      cases ho
      decide
    · rw [Function.update_of_ne hpa] at ho
      obtain ⟨k, hk⟩ := Pool.ownersOf_big ho
      cases hk

end Kvm

section ranges

variable {m : Nat → Option (Nat × Nat)} {rs : List Range} {u : Nat}

theorem foldl_mapRange_ne_none : rs.foldl mapRange m u ≠ none ↔ m u ≠ none ∨ ∃ r ∈ rs, r.Has u := by
  induction rs generalizing m with
  | nil => simp
  | cons r rs ih =>
    rw [List.foldl_cons, ih, mapRange]
    by_cases hr : r.Has u
    · simp [hr]
    · simp [hr]

theorem foldl_mapRange_some {q f : Nat} (hu : rs.foldl mapRange m u = some (q, f)) : m u = some (q, f) ∨
    ∃ r ∈ rs, r.Has u ∧ q = r.pa + (u * PG_SIZE - r.va) ∧ f = leafFlags r.perm := by
  induction rs generalizing m with
  | nil => exact .inl hu
  | cons r rs ih =>
    rcases ih hu with hm | ⟨r', hr', hrest⟩
    · unfold mapRange at hm
      split at hm
      case isTrue hr =>
        cases hm
        exact .inr ⟨r, List.mem_cons_self, hr, rfl, rfl⟩
      case isFalse => exact .inl hm
    · exact .inr ⟨r', List.mem_cons_of_mem _ hr', hrest⟩

end ranges

theorem Kvm.mapping_sv39 {h : Heap} {root : Nat} {s : Kmem} {own : Nat → Option Owner} {rs : List Range}
    (hk : Kvm h root (rs.foldl mapRange fun _ => none) s own) (hok : ∀ r ∈ rs, r.Ok) :
    ∀ u < 2 ^ 27, s.mapping root u = rs.foldl mapRange (fun _ => none) u := by
  intro u hu
  by_cases hlow : u < NR_VPNS
  · exact hk.mapping u hlow
  -- the upper half of the root table is empty
  have hnone : s.tableAt root (vpnPath u) = none := by
    by_contra hsome
    obtain ⟨t, ht⟩ := Option.ne_none_iff_exists'.mp hsome
    have hmem := hk.tables _ t (isPath_vpnPath u) ht
    have hdir : 256 ≤ u / 512 / 512 % 512 := by
      simp only [NR_VPNS, MAX_VA, PG_SIZE] at hlow
      omega
    simp only [kernelTables, vpnPath, List.mem_append, List.mem_cons, List.mem_map, List.not_mem_nil] at hmem
    simp at hmem
    omega
  have hright : rs.foldl mapRange (fun _ => none) u = none := by
    by_contra hsome
    rcases foldl_mapRange_ne_none.mp hsome with hfalse | ⟨r, hr, hhas⟩
    · exact hfalse rfl
    · have hle := (hok r hr).va_le
      simp only [Range.Has, NR_VPNS, MAX_VA, PG_SIZE] at *
      omega
  rw [hright, mapping_none, Kmem.leafPte, Kmem.leafSlot, hnone]
  simp [Has]

theorem mem_kernelTables_of_prefix {u a b : Nat} (ha : u / 512 / 512 % 512 = a) (hb : u / 512 % 512 = b)
    (hdir : [a] ∈ kernelTables) (htable : [a, b] ∈ kernelTables) : ∀ path, path <+: vpnPath u → path ∈ kernelTables := by
  intro path hpath
  rw [vpnPath, ha, hb] at hpath
  rcases List.prefix_cons_iff.mp hpath with rfl | ⟨rest, rfl, hrest⟩
  · decide
  · rcases List.prefix_cons_iff.mp hrest with rfl | ⟨rest', rfl, hrest'⟩
    · exact hdir
    · obtain rfl := List.prefix_nil.mp hrest'
      exact htable

theorem mem_kernelTables_dram {i : Nat} (hi : i < 64) : [2, i] ∈ kernelTables :=
  List.mem_append_right _ (List.mem_map.mpr ⟨i, List.mem_range.mpr hi, rfl⟩)

/-- The calls `vm_create_kernel_pt` makes. -/
def kernelRanges (text_end user_vec : Nat) : List Range :=
  [⟨QEMU_SHUTDOWN, QEMU_SHUTDOWN, PG_SIZE, PTE_R ||| PTE_W⟩,
    ⟨CLINT_BASE, CLINT_BASE, 0x10000, PTE_R ||| PTE_W⟩,
    ⟨PLIC_BASE, PLIC_BASE, PLIC_SIZE, PTE_R ||| PTE_W⟩,
    ⟨UART0_BASE, UART0_BASE, PG_SIZE, PTE_R ||| PTE_W⟩,
    ⟨VIRTIO0_BASE, VIRTIO0_BASE, PG_SIZE, PTE_R ||| PTE_W⟩,
    ⟨KERN_BASE, KERN_BASE, text_end - KERN_BASE, PTE_R ||| PTE_X⟩,
    ⟨text_end, text_end, PHYS_STOP - text_end, PTE_R ||| PTE_W⟩,
    ⟨TRAMPOLINE, user_vec, PG_SIZE, PTE_R ||| PTE_X⟩]

theorem vm_create_kernel_pt_eq (text_end user_vec : Nat) : vm_create_kernel_pt text_end user_vec = (do
    let kernel_root_pt ← kalloc
    if kernel_root_pt = 0 then
      Prog.panic "vm_init: failed to kalloc"
    else do
      forM (kernelRanges text_end user_vec) fun r => kvm_map kernel_root_pt r.va r.pa r.size r.perm
      pure kernel_root_pt) := by
  simp only [vm_create_kernel_pt, kernelRanges, List.forM_cons, List.forM_nil, bind_assoc, pure_bind]

section kernel

variable {text_end user_vec : Nat}

theorem kernelRanges_ok (htext : text_end % PG_SIZE = 0) (hgt : KERN_BASE < text_end) (hlt : text_end < PHYS_STOP)
    (hvec : user_vec % PG_SIZE = 0) (hin : user_vec + PG_SIZE ≤ text_end) :
    ∀ r ∈ kernelRanges text_end user_vec, r.Ok := by
  have hdram : ∀ u, KERN_BASE ≤ u * PG_SIZE → u * PG_SIZE < PHYS_STOP → ∀ path, path <+: vpnPath u →
      path ∈ kernelTables := by
    intro u hlo hhi
    simp only [KERN_BASE, PHYS_STOP, PG_SIZE] at hlo hhi
    exact mem_kernelTables_of_prefix (a := 2) (b := u / 512 % 512) (by omega) rfl (by decide)
      (mem_kernelTables_dram (by omega))
  have hrw : PTE_R ||| PTE_W < 1024 := by decide
  have hrx : PTE_R ||| PTE_X < 1024 := by decide
  simp only [KERN_BASE, PHYS_STOP, PG_SIZE] at htext hgt hlt hvec hin
  simp only [kernelRanges, List.forall_mem_cons]
  refine ⟨⟨by decide, by decide, by decide, by decide, by decide, by decide, by decide, ?_⟩,
    ⟨by decide, by decide, by decide, by decide, by decide, by decide, by decide, ?_⟩,
    ⟨by decide, by decide, by decide, by decide, by decide, by decide, by decide, ?_⟩,
    ⟨by decide, by decide, by decide, by decide, by decide, by decide, by decide, ?_⟩,
    ⟨by decide, by decide, by decide, by decide, by decide, by decide, by decide, ?_⟩,
    ⟨?_, ?_, ?_, ?_, ?_, ?_, hrx, ?_⟩, ⟨?_, htext, htext, ?_, ?_, ?_, hrw, ?_⟩,
    ⟨?_, ?_, hvec, ?_, ?_, ?_, hrx, ?_⟩, by simp⟩
  all_goals simp only [Range.Has, QEMU_SHUTDOWN, CLINT_BASE, PLIC_BASE, PLIC_SIZE, UART0_BASE, VIRTIO0_BASE, KERN_BASE,
    PHYS_STOP, TRAMPOLINE, MAX_VA, PG_SIZE] at *
  all_goals try omega
  · rintro u ⟨hlo, hhi⟩
    exact mem_kernelTables_of_prefix (a := 0) (b := 0) (by omega) (by omega) (by decide) (by decide)
  · rintro u ⟨hlo, hhi⟩
    exact mem_kernelTables_of_prefix (a := 0) (b := 16) (by omega) (by omega) (by decide) (by decide)
  · rintro u ⟨hlo, hhi⟩
    rcases (by omega : u / 512 % 512 = 96 ∨ u / 512 % 512 = 97) with hb | hb
    · exact mem_kernelTables_of_prefix (a := 0) (by omega) hb (by decide) (by decide)
    · exact mem_kernelTables_of_prefix (a := 0) (by omega) hb (by decide) (by decide)
  · rintro u ⟨hlo, hhi⟩
    exact mem_kernelTables_of_prefix (a := 0) (b := 128) (by omega) (by omega) (by decide) (by decide)
  · rintro u ⟨hlo, hhi⟩
    exact mem_kernelTables_of_prefix (a := 0) (b := 128) (by omega) (by omega) (by decide) (by decide)
  · exact fun u hu => hdram u hu.1 (by omega)
  · exact fun u hu => hdram u (by omega) (by omega)
  · rintro u ⟨hlo, hhi⟩
    exact mem_kernelTables_of_prefix (a := 255) (b := 511) (by omega) (by omega) (by decide) (by decide)

theorem kernelRanges_ascending (hgt : KERN_BASE < text_end) (hlt : text_end < PHYS_STOP) :
    (kernelRanges text_end user_vec).Pairwise fun r r' => r.va + r.size ≤ r'.va := by
  simp only [kernelRanges, List.pairwise_cons, List.forall_mem_cons, QEMU_SHUTDOWN, CLINT_BASE, PLIC_BASE, PLIC_SIZE,
    UART0_BASE, VIRTIO0_BASE, KERN_BASE, PHYS_STOP, TRAMPOLINE, MAX_VA, PG_SIZE] at *
  simp
  omega

theorem vm_create_kernel_pt_spec {kernel_end : Nat} {h : Heap} (hlo : KERN_BASE ≤ freeStart kernel_end)
    (hhi : freeStart kernel_end ≤ PHYS_STOP) (hreach : (Heap.system kernel_end).Reachable h)
    (hfree : h.HasFree kernelTables.length) (htext : text_end % PG_SIZE = 0) (hgt : KERN_BASE < text_end)
    (hlt : text_end < PHYS_STOP) (hvec : user_vec % PG_SIZE = 0) (hin : user_vec + PG_SIZE ≤ text_end) :
    wp (vm_create_kernel_pt text_end user_vec) (fun root s => ∃ own,
      Kvm h root ((kernelRanges text_end user_vec).foldl mapRange fun _ => none) s own) h.kmem := by
  rw [vm_create_kernel_pt_eq, wp_bind]
  refine wp_mono (Kvm.of_kalloc hlo hhi hreach hfree) ?_
  rintro root s ⟨hne, own, hk⟩
  rw [if_neg hne, wp_bind]
  refine wp_mono (hk.kvm_maps_spec hfree (kernelRanges_ok htext hgt hlt hvec hin) (kernelRanges_ascending hgt hlt)
    fun _ _ _ _ => rfl) ?_
  rintro _ s' ⟨own', hk'⟩
  exact wp_pure.mpr ⟨own', hk'⟩

/-- What a leaf of the kernel page table can be. -/
theorem kernelRanges_some {v q f : Nat} (htext : text_end % PG_SIZE = 0) (hgt : KERN_BASE < text_end)
    (hlt : text_end < PHYS_STOP)
    (hmap : (kernelRanges text_end user_vec).foldl mapRange (fun _ => none) v = some (q, f)) :
    ((v * PG_SIZE < KERN_BASE ∨ text_end ≤ v * PG_SIZE ∧ v * PG_SIZE < PHYS_STOP) ∧ q = v * PG_SIZE ∧
      f = leafFlags (PTE_R ||| PTE_W)) ∨
    (KERN_BASE ≤ v * PG_SIZE ∧ v * PG_SIZE < text_end ∧ q = v * PG_SIZE ∧ f = leafFlags (PTE_R ||| PTE_X)) ∨
    (v = TRAMPOLINE / PG_SIZE ∧ q = user_vec ∧ f = leafFlags (PTE_R ||| PTE_X)) := by
  rcases foldl_mapRange_some hmap with hnone | ⟨r, hr, ⟨hlo, hhi⟩, rfl, trivial⟩
  · cases hnone
  simp only [kernelRanges, List.mem_cons, List.not_mem_nil, or_false] at hr
  rcases hr with rfl | rfl | rfl | rfl | rfl | rfl | rfl | rfl
  all_goals simp only [QEMU_SHUTDOWN, CLINT_BASE, PLIC_BASE, PLIC_SIZE, UART0_BASE, VIRTIO0_BASE, KERN_BASE,
    PHYS_STOP, TRAMPOLINE, MAX_VA, PG_SIZE] at *
  · exact .inl ⟨.inl (by omega), by omega, trivial⟩
  · exact .inl ⟨.inl (by omega), by omega, trivial⟩
  · exact .inl ⟨.inl (by omega), by omega, trivial⟩
  · exact .inl ⟨.inl (by omega), by omega, trivial⟩
  · exact .inl ⟨.inl (by omega), by omega, trivial⟩
  · exact .inr (.inl ⟨by omega, by omega, by omega, trivial⟩)
  · exact .inl ⟨.inr ⟨by omega, by omega⟩, by omega, trivial⟩
  · exact .inr (.inr ⟨by omega, by omega, trivial⟩)

end kernel

/-- The ranges of the kernel address space, by address and size. -/
def kernelSpace : List (Nat × Nat) :=
  [(QEMU_SHUTDOWN, PG_SIZE), (CLINT_BASE, 0x10000), (PLIC_BASE, PLIC_SIZE), (UART0_BASE, PG_SIZE),
    (VIRTIO0_BASE, PG_SIZE), (KERN_BASE, PHYS_STOP - KERN_BASE), (TRAMPOLINE, PG_SIZE)]

theorem kernelRanges_has_iff {text_end v : Nat} (user_vec : Nat) (htext : text_end % PG_SIZE = 0) (hgt : KERN_BASE < text_end)
    (hlt : text_end < PHYS_STOP) : (∃ r ∈ kernelRanges text_end user_vec, r.Has v) ↔
      ∃ r ∈ kernelSpace, r.1 ≤ v * PG_SIZE ∧ v * PG_SIZE < r.1 + r.2 := by
  simp only [kernelRanges, kernelSpace, List.exists_mem_cons_iff, Range.Has, KERN_BASE, PHYS_STOP, PG_SIZE] at *
  simp
  omega

/-- The kernel address space: the page table is complete, devices and memory are
mapped to themselves, nothing is open to user mode, and no physical page is both
writable and executable. Pages are those of the 39-bit virtual addresses. -/
theorem kernel_address_space (kernel_end : Nat) (hlo : KERN_BASE ≤ freeStart kernel_end)
    (hhi : freeStart kernel_end ≤ PHYS_STOP) (h : Heap) (hreach : (Heap.system kernel_end).Reachable h)
    (hfree : h.HasFree 74) (text_end user_vec : Nat) (htext : text_end % PG_SIZE = 0) (hgt : KERN_BASE < text_end)
    (hlt : text_end < PHYS_STOP) (hvec : user_vec % PG_SIZE = 0) (hbase : KERN_BASE ≤ user_vec)
    (hin : user_vec + PG_SIZE ≤ text_end) :
    ∃ root s, vm_create_kernel_pt text_end user_vec h.kmem = .ok (root, s) ∧
      (∀ v < 2 ^ 27, ∀ q f, s.mapping root v = some (q, f) → v ≠ TRAMPOLINE / PG_SIZE → q = v * PG_SIZE) ∧
      (∀ v < 2 ^ 27, s.mapping root v ≠ none ↔
        ∃ r ∈ kernelSpace, r.1 ≤ v * PG_SIZE ∧ v * PG_SIZE < r.1 + r.2) ∧
      (∀ v < 2 ^ 27, ∀ q f, s.mapping root v = some (q, f) → ¬ Has f PTE_U) ∧
      ∀ v < 2 ^ 27, ∀ w < 2 ^ 27, ∀ q f g, s.mapping root v = some (q, f) → s.mapping root w = some (q, g) →
        Has f PTE_W → ¬ Has g PTE_X := by
  obtain ⟨root, s, hrun, own, hk⟩ := vm_create_kernel_pt_spec hlo hhi hreach hfree htext hgt hlt hvec hin
  have hmap := hk.mapping_sv39 (kernelRanges_ok htext hgt hlt hvec hin)
  have hrw : leafFlags (PTE_R ||| PTE_W) = 0xC7 := by decide
  have hrx : leafFlags (PTE_R ||| PTE_X) = 0xCB := by decide
  refine ⟨root, s, hrun, fun v hv q f hsome hne => ?_, fun v hv => ?_, fun v hv q f hsome => ?_, ?_⟩
  · rw [hmap v hv] at hsome
    rcases kernelRanges_some htext hgt hlt hsome with ⟨-, hq, -⟩ | ⟨-, -, hq, -⟩ | ⟨htop, -⟩
    · exact hq
    · exact hq
    · exact absurd htop hne
  · rw [hmap v hv, foldl_mapRange_ne_none, ← kernelRanges_has_iff user_vec htext hgt hlt]
    simp
  · rw [hmap v hv] at hsome
    rcases kernelRanges_some htext hgt hlt hsome with ⟨-, -, rfl⟩ | ⟨-, -, -, rfl⟩ | ⟨-, -, rfl⟩
    · rw [hrw]
      decide
    · rw [hrx]
      decide
    · rw [hrx]
      decide
  · intro v hv w hw q f g hsome hsome' hwrite hexec
    rw [hmap v hv] at hsome
    rw [hmap w hw] at hsome'
    -- a writable leaf maps a page outside the text, an executable one a page of it
    have hout : q < KERN_BASE ∨ text_end ≤ q := by
      rcases kernelRanges_some htext hgt hlt hsome with ⟨hout, rfl, -⟩ | ⟨-, -, -, rfl⟩ | ⟨-, -, rfl⟩
      · exact hout.imp_right And.left
      · rw [hrx] at hwrite
        exact absurd hwrite (by decide)
      · rw [hrx] at hwrite
        exact absurd hwrite (by decide)
    have hinside : KERN_BASE ≤ q ∧ q < text_end := by
      rcases kernelRanges_some htext hgt hlt hsome' with ⟨-, -, rfl⟩ | ⟨hge, hlt', rfl, -⟩ | ⟨-, rfl, -⟩
      · rw [hrw] at hexec
        exact absurd hexec (by decide)
      · exact ⟨hge, hlt'⟩
      · refine ⟨hbase, ?_⟩
        simp only [PG_SIZE] at hin
        omega
    omega

/-- A kernel of one megabyte with sixteen pages of text, right after `kalloc_init`. -/
theorem kernel_address_space_boot : ∃ h : Heap, (Heap.system 0x80100000).Reachable h ∧ h.HasFree 74 ∧
    ∃ root s, vm_create_kernel_pt 0x80010000 0x8000F000 h.kmem = .ok (root, s) ∧
      ∀ v < 2 ^ 27, ∀ q f, s.mapping root v = some (q, f) → ¬ Has f PTE_U := by
  have hlo : KERN_BASE ≤ freeStart 0x80100000 := by decide +kernel
  have hhi : freeStart 0x80100000 ≤ PHYS_STOP := by decide +kernel
  obtain ⟨_, s, hinit, hstart, -⟩ := kalloc_init_spec ⟨fun _ => 0, fun _ => {}, fun _ => {}, 0, fun _ => {}⟩ hlo hhi
  have hreach : (Heap.system 0x80100000).Reachable ⟨s, []⟩ := .init ⟨_, s, hinit, rfl⟩
  have hfree : Heap.HasFree ⟨s, []⟩ 74 := by
    refine ⟨List.range' 0x80200 74, List.nodup_range', by simp, fun n hn => ?_⟩
    obtain ⟨hge, hlt⟩ := List.mem_range'_1.mp hn
    refine ⟨?_, ?_, by simp⟩
    · rw [hstart]
      exact Nat.le_trans (by decide +kernel : freeStart 0x80100000 ≤ 0x80200 * PG_SIZE) (Nat.mul_le_mul_right _ hge)
    · simp only [PG_SIZE, PHYS_STOP]
      omega
  obtain ⟨root, s', hrun, -, -, huser, -⟩ := kernel_address_space 0x80100000 hlo hhi _ hreach hfree 0x80010000 0x8000F000
    (by decide) (by decide) (by decide) (by decide) (by decide) (by decide)
  exact ⟨_, hreach, hfree, root, s', hrun, huser⟩

end bobchouos
