import BobchouOS.Kalloc.Runs
import BobchouOS.Kmalloc.Init
import BobchouOS.Kmalloc.Objects

open lib

namespace bobchouos

namespace Kmem

/-- The slabs of a class, read off the list. -/
def slabList (s : Kmem) (c : Nat) : List Nat :=
  Chain.walk (fun pg => (s.pa_to_page pg).slab.next_slab) (NR_PAGES + 1) (s.size_classes c).slabs

/-- The free slots of a slab, read off memory. -/
def freeSlots (s : Kmem) (pg : Nat) : List Nat :=
  Chain.walk s.next (PG_SIZE + 1) (s.pa_to_page pg).slab.free_list

end Kmem

/-- The class that serves a size. -/
def classOf (size : Nat) : Nat := ((List.range NR_SIZE_CLASSES).find? fun c => size ≤ slotSize c).getD 0

/-- The order of the block that serves a size. -/
def orderOf (size : Nat) : Nat := ((List.range (MAX_ORDER + 1)).find? fun order => size ≤ PG_SIZE <<< order).getD 0

/-- The order of the block that `kmalloc` may have to ask the buddy allocator for. -/
def needOf (size : Nat) : Nat := if size ≤ MAX_SLAB_SIZE then 0 else orderOf size

/-- The bytes that `kmalloc` sets aside for a size. -/
def extentOf (size : Nat) : Nat :=
  if size ≤ MAX_SLAB_SIZE then slotSize (classOf size) else PG_SIZE <<< orderOf size

/-- Both allocators together with what their users hold: every region by its
pointer and the size that was asked for, and every block by its address and its
order. -/
structure Pool where
  kmem : Kmem
  regions : List (Nat × Nat)
  blocks : List (Nat × Nat)

namespace Pool

/-- All that is held, by address and length. -/
def held (p : Pool) : List (Nat × Nat) :=
  (p.regions.map fun r => (r.1, extentOf r.2)) ++ p.blocks.map fun b => (b.1, PG_SIZE <<< b.2)

inductive Op where
  | kmalloc (size : Nat)
  | kmfree (ptr size : Nat)
  | kalloc
  | kalloc_pages (order : Nat)
  | kfree (pa : Nat)
  | kfree_pages (pa order : Nat)
  | store (a : Nat) (v : BitVec 8)

/-- Users ask for what there is, and return and write only what they hold. -/
def Op.Legal (p : Pool) : Op → Prop
  | .kmalloc size => size ≤ PG_SIZE <<< MAX_ORDER
  | .kmfree ptr size => (ptr, size) ∈ p.regions
  | .kalloc => True
  | .kalloc_pages order => order ≤ MAX_ORDER
  | .kfree pa => (pa, 0) ∈ p.blocks
  | .kfree_pages pa order => (pa, order) ∈ p.blocks
  | .store a _ => ∃ r ∈ p.held, r.1 ≤ a ∧ a < r.1 + r.2

def onKmem {α : Type} (x : Prog Kmem α) : Prog Pool α :=
  Prog.onField kmem (fun s p => { p with kmem := s }) x

def take (order : Nat) (x : Prog Kmem Nat) : Prog Pool Nat := do
  let pa ← onKmem x
  if pa ≠ 0 then
    modify fun p => { p with blocks := (pa, order) :: p.blocks }
  pure pa

def giveBack (pa order : Nat) (x : Prog Kmem Unit) : Prog Pool Nat := do
  onKmem x
  modify fun p => { p with blocks := p.blocks.erase (pa, order) }
  pure 0

/-- One call, with the pointer it returns. -/
def Op.exec : Op → Prog Pool Nat
  | .kmalloc size => do
    let ptr ← onKmem (bobchouos.kmalloc size)
    if ptr ≠ 0 then
      modify fun p => { p with regions := (ptr, size) :: p.regions }
    pure ptr
  | .kmfree ptr size => do
    onKmem (bobchouos.kmfree ptr)
    modify fun p => { p with regions := p.regions.erase (ptr, size) }
    pure 0
  | .kalloc => take 0 bobchouos.kalloc
  | .kalloc_pages order => take order (bobchouos.kalloc_pages order)
  | .kfree pa => giveBack pa 0 (bobchouos.kfree pa)
  | .kfree_pages pa order => giveBack pa order (bobchouos.kfree_pages pa order)
  | .store a v => do
    modify fun p => { p with kmem := { p.kmem with mem := Function.update p.kmem.mem a v } }
    pure 0

/-- The allocators as a system. It starts where `kmalloc_init`, called at any
time in the life of the buddy allocator, has found a slab for every class. The
table of size classes is zero before. -/
def system (kernel_end : Nat) : Lts Pool Op where
  init p := ∃ h s, (Heap.system kernel_end).Reachable h ∧ (∀ c, (h.kmem.size_classes c).slabs = 0) ∧
    kmalloc_init h.kmem = .ok ((), s) ∧ (∀ c < NR_SIZE_CLASSES, (s.size_classes c).slabs ≠ 0) ∧ p = ⟨s, [], h.live⟩
  step op p p' := op.Legal p ∧ ∃ r, op.exec p = .ok (r, p')

section Cells

variable {s : Kmem} {own : Nat → Option Owner} {objs : List Nat} {x y n m : Nat}

/-- What a pointer can be held to, with its length: a slot of a slab or a block. -/
inductive Cell (own : Nat → Option Owner) : Nat → Nat → Prop
  | slot {c x : Nat} : InClass own c x → Cell own x (slotSize c)
  | block {pa k : Nat} : own pa = some (.big k) → Cell own pa (PG_SIZE <<< k)

theorem Cell.inside (hx : Cell own x n) (h : Slabs s own objs) :
    ∃ pg o, own pg = some o ∧ pg ≤ x ∧ x + n ≤ pg + PG_SIZE <<< o.order := by
  cases hx with
  | slot hclass =>
    obtain ⟨pg, hpg, hslot⟩ := hclass
    exact ⟨pg, _, hpg, slot_bounds (h.class_lt hpg) hslot⟩
  | block hpa => exact ⟨x, _, hpa, Nat.le_refl x, Nat.le_refl _⟩

/-- The cells do not overlap. -/
theorem Cell.apart (hx : Cell own x n) (hy : Cell own y m) (hp : Pages s own) (h : Slabs s own objs) (hne : x ≠ y) :
    x + n ≤ y ∨ y + m ≤ x := by
  have hblocks : ∀ {pg pg' o o'}, own pg = some o → own pg' = some o' → pg ≠ pg' →
      pg ≤ x ∧ x + n ≤ pg + PG_SIZE <<< o.order → pg' ≤ y ∧ y + m ≤ pg' + PG_SIZE <<< o'.order →
      x + n ≤ y ∨ y + m ≤ x := by
    intro pg pg' o o' hpg hpg' hpages hin hin'
    have hapart := hp.blocks_apart hpg hpg' hpages
    omega
  have hself : ∀ a k, a ≤ a ∧ a + PG_SIZE <<< k ≤ a + PG_SIZE <<< k := fun a k => ⟨Nat.le_refl a, Nat.le_refl _⟩
  cases hx with
  | slot hclass =>
    obtain ⟨pg, hpg, hslot⟩ := hclass
    have hin := slot_bounds (h.class_lt hpg) hslot
    cases hy with
    | slot hclass' =>
      obtain ⟨pg', hpg', hslot'⟩ := hclass'
      by_cases hpages : pg = pg'
      · subst hpages
        rw [hpg] at hpg'
        cases hpg'
        exact slots_apart hslot hslot' hne
      · exact hblocks hpg hpg' hpages hin (slot_bounds (h.class_lt hpg') hslot')
    | block hpa =>
      refine hblocks hpg hpa ?_ hin (hself _ _)
      rintro rfl
      rw [hpg] at hpa
      cases hpa
  | block hpa =>
    cases hy with
    | slot hclass' =>
      obtain ⟨pg', hpg', hslot'⟩ := hclass'
      refine hblocks hpa hpg' ?_ (hself _ _) (slot_bounds (h.class_lt hpg') hslot')
      rintro rfl
      rw [hpa] at hpg'
      cases hpg'
    | block hpb => exact hblocks hpa hpb hne (hself _ _) (hself _ _)

end Cells

/-- The objects of the slab allocator that are held. -/
def objects (p : Pool) : List Nat := (p.regions.filter fun r => r.2 ≤ MAX_SLAB_SIZE).map Prod.fst

/-- What holds between calls, for the users `own` of the pages. -/
structure Inv (p : Pool) (own : Nat → Option Owner) : Prop where
  pages : Pages p.kmem own
  slabs : Slabs p.kmem own p.objects
  flagged : Flagged p.kmem own
  stocked : ∀ c < NR_SIZE_CLASSES, ∃ pg, own pg = some (.slab c)
  small : ∀ r ∈ p.regions, r.2 ≤ MAX_SLAB_SIZE → InClass own (classOf r.2) r.1
  big : ∀ r ∈ p.regions, MAX_SLAB_SIZE < r.2 → r.2 ≤ PG_SIZE <<< MAX_ORDER ∧ own r.1 = some (.big (orderOf r.2)) ∧
    (p.kmem.pa_to_page r.1).flags = PG_BIG ∧ (p.kmem.pa_to_page r.1).refcount = 1
  block : ∀ b ∈ p.blocks, own b.1 = some (.big b.2) ∧ (p.kmem.pa_to_page b.1).refcount = 1
  nodup : (p.regions.map Prod.fst ++ p.blocks.map Prod.fst).Nodup

/-- A block that is allocated but in nobody's hands, as inside a call. -/
structure Spare (p : Pool) (own : Nat → Option Owner) (pg k : Nat) : Prop where
  owner : own pg = some (.big k)
  refcount : (p.kmem.pa_to_page pg).refcount = 1
  not_held : pg ∉ p.regions.map Prod.fst ++ p.blocks.map Prod.fst

section Steps

variable {p : Pool} {own own' : Nat → Option Owner} {s' : Kmem} {pg k size ptr c : Nat}

/-- A change at one block in nobody's hands. -/
theorem Inv.frame (hinv : Inv p own) (hp' : Pages s' own') (hflag : Flagged s' own')
    (hold : ∀ o, own pg = some o → ∃ k, o = .big k) (hnew : ∀ o, own' pg = some o → ∃ k, o = .big k)
    (hkeep : ∀ q, q ≠ pg → own' q = own q) (hsame : ∀ q, q ≠ pg → own q ≠ none → SamePage p.kmem s' q)
    (hstart : s'.free_start = p.kmem.free_start) (hclasses : s'.size_classes = p.kmem.size_classes)
    (hnot : pg ∉ p.regions.map Prod.fst ++ p.blocks.map Prod.fst) : Inv { p with kmem := s' } own' := by
  rw [List.mem_append, not_or] at hnot
  have hslab : ∀ c, own pg ≠ some (.slab c) := by
    intro c hc
    obtain ⟨k, hk⟩ := hold _ hc
    cases hk
  have howner : ∀ c q, own q = some (.slab c) → own' q = some (.slab c) := by
    intro c q hq
    rw [hkeep q (by rintro rfl; exact hslab c hq), hq]
  have htouch : Touches (fun o => ∃ k, o = .big k) p.kmem s' own own' := by
    refine ⟨fun q o ho => ?_, fun q o hq ho => hsame q ?_ (by rw [hq]; simp), hstart, fun _ => hclasses⟩
    · by_cases hq : q = pg
      · subst hq
        exact iff_of_false (fun h => ho (hnew o h)) (fun h => ho (hold o h))
      · rw [hkeep q hq]
    · rintro rfl
      exact ho (hold o hq)
  refine ⟨hp', hinv.slabs.frame htouch (by simp), hflag, ?_, ?_, ?_, ?_, hinv.nodup⟩
  · intro c hc
    obtain ⟨q, hq⟩ := hinv.stocked c hc
    exact ⟨q, howner c q hq⟩
  · intro r hr hsize
    exact (hinv.small r hr hsize).frame htouch (by simp)
  · intro r hr hsize
    obtain ⟨hmax, hown, hflags, href⟩ := hinv.big r hr hsize
    have hne : r.1 ≠ pg := fun heq => hnot.1 (heq ▸ List.mem_map_of_mem hr)
    rw [(hsame r.1 hne (by rw [hown]; simp)).page, hkeep _ hne]
    exact ⟨hmax, hown, hflags, href⟩
  · intro b hb
    obtain ⟨hown, href⟩ := hinv.block b hb
    have hne : b.1 ≠ pg := fun heq => hnot.2 (heq ▸ List.mem_map_of_mem hb)
    rw [(hsame b.1 hne (by rw [hown]; simp)).page, hkeep _ hne]
    exact ⟨hown, href⟩

/-- A pointer that is held is not a free page. -/
theorem Inv.owned_of_held (hinv : Inv p own) (haligned : pg % PG_SIZE = 0)
    (hpg : pg ∈ p.regions.map Prod.fst ++ p.blocks.map Prod.fst) : own pg ≠ none := by
  intro hnone
  rcases List.mem_append.mp hpg with hmem | hmem
  · obtain ⟨r, hr, rfl⟩ := List.mem_map.mp hmem
    by_cases hsize : r.2 ≤ MAX_SLAB_SIZE
    · rw [(hinv.small r hr hsize).owner_of_aligned hinv.pages hinv.slabs haligned] at hnone
      cases hnone
    · rw [(hinv.big r hr (Nat.lt_of_not_le hsize)).2.1] at hnone
      cases hnone
  · obtain ⟨b, hb, rfl⟩ := List.mem_map.mp hmem
    rw [(hinv.block b hb).1] at hnone
    cases hnone

theorem Inv.kalloc_pages_spec (hinv : Inv p own) (hk : k ≤ MAX_ORDER) :
    wp (bobchouos.kalloc_pages k) (fun pg s' =>
      (pg = 0 ∧ s' = p.kmem ∧ ∀ j, k ≤ j → j ≤ MAX_ORDER → (p.kmem.free_areas j).free_list = 0) ∨
      pg ≠ 0 ∧ ∃ own', Inv { p with kmem := s' } own' ∧ Spare { p with kmem := s' } own' pg k) p.kmem := by
  refine wp_mono (wp_and_wpe (hinv.pages.kalloc_pages_spec hk) (SameSlabs.buddy_alloc k p.kmem)) ?_
  rintro pg s' ⟨hfail | ⟨hheld, -⟩, hflags⟩
  · exact .inl hfail
  have hp' := hheld.pages (.big k) rfl
  have hkeep : ∀ q, q ≠ pg → Function.update own pg (some (.big k)) q = own q := fun q hq => Function.update_of_ne hq _ _
  have hnot : pg ∉ p.regions.map Prod.fst ++ p.blocks.map Prod.fst := fun hmem =>
    hinv.owned_of_held (hp'.range_of (Function.update_self ..)).1 hmem hheld.was_free
  refine .inr ⟨hheld.ne_zero, Function.update own pg (some (.big k)), ?_, Function.update_self .., hheld.refcount, hnot⟩
  refine hinv.frame hp' ?_ ?_ ?_ hkeep (fun q _ hq => hheld.same q hq) hheld.free_start hheld.size_classes hnot
  · refine hinv.flagged.keep (fun i hi => hflags.flags i ▸ hi) fun c q hq _ => ?_
    rw [hkeep q, hq]
    rintro rfl
    rw [hheld.was_free] at hq
    cases hq
  · simp [hheld.was_free]
  · intro o ho
    rw [Function.update_self, Option.some_inj] at ho
    exact ⟨k, ho.symm⟩

/-- A call may mark a block that it has in its hands. -/
theorem Spare.setFlags (hspare : Spare p own pg k) (hinv : Inv p own) (flags : Nat) (hflags : flags ≠ PG_SLAB) :
    Inv { p with kmem := p.kmem.setPage pg { p.kmem.pa_to_page pg with flags := flags } } own ∧
      Spare { p with kmem := p.kmem.setPage pg { p.kmem.pa_to_page pg with flags := flags } } own pg k := by
  have hsome : own pg ≠ none := by rw [hspare.owner]; simp
  have hbig : ∀ o, own pg = some o → ∃ k, o = .big k := by
    intro o ho
    rw [hspare.owner, Option.some_inj] at ho
    exact ⟨k, ho.symm⟩
  refine ⟨hinv.frame (hinv.pages.setPage hsome (Nat.le_of_eq hspare.refcount.symm) rfl) ?_ hbig hbig (fun _ _ => rfl) ?_ rfl
    rfl hspare.not_held, hspare.owner, ?_, hspare.not_held⟩
  · refine hinv.flagged.keep (fun i hi => ?_) fun _ _ hq _ => hq
    by_cases hidx : i = Kmem.pageIdx pg
    · subst hidx
      simp [Kmem.setPage, hflags] at hi
    · simpa [Kmem.setPage, hidx] using hi
  · intro q hq hown
    exact ⟨fun _ _ _ => rfl, pa_to_page_setPage_of_ne _ _ (hinv.pages.pageIdx_ne hown hsome hq)⟩
  · simp only [pa_to_page_setPage_self]
    exact hspare.refcount

theorem Spare.kfree_pages_spec (hspare : Spare p own pg k) (hinv : Inv p own) :
    wp (bobchouos.kfree_pages pg k) (fun _ s' => ∃ own', Inv { p with kmem := s' } own') p.kmem := by
  refine wp_mono (wp_and_wpe (hinv.pages.kfree_pages_spec hspare.owner hspare.refcount)
    (SameSlabs.buddy_free pg k p.kmem)) ?_
  rintro _ s' ⟨⟨hp', hsame, hstart, hclasses⟩, hflags⟩
  have hkeep : ∀ q, q ≠ pg → Function.update own pg none q = own q := fun q hq => Function.update_of_ne hq _ _
  refine ⟨_, hinv.frame hp' ?_ ?_ (by simp) hkeep (fun q hq hown => hsame q hown hq) hstart hclasses hspare.not_held⟩
  · refine hinv.flagged.keep (fun i hi => hflags.flags i ▸ hi) fun c q hq _ => ?_
    rw [hkeep q, hq]
    rintro rfl
    rw [hspare.owner] at hq
    cases hq
  · intro o ho
    rw [hspare.owner, Option.some_inj] at ho
    exact ⟨k, ho.symm⟩

/-- A block goes into the hands of its user, and out of them. -/
theorem Spare.addBlock (hspare : Spare p own pg k) (hinv : Inv p own) :
    Inv { p with blocks := (pg, k) :: p.blocks } own := by
  refine ⟨hinv.pages, hinv.slabs, hinv.flagged, hinv.stocked, hinv.small, hinv.big, ?_, ?_⟩
  · intro b hb
    rcases List.mem_cons.mp hb with rfl | hb
    · exact ⟨hspare.owner, hspare.refcount⟩
    · exact hinv.block b hb
  · exact List.perm_middle.nodup_iff.mpr (List.nodup_cons.mpr ⟨hspare.not_held, hinv.nodup⟩)

theorem Inv.eraseBlock (hinv : Inv p own) (hmem : (pg, k) ∈ p.blocks) :
    Inv { p with blocks := p.blocks.erase (pg, k) } own ∧
      Spare { p with blocks := p.blocks.erase (pg, k) } own pg k := by
  have hperm : (p.regions.map Prod.fst ++ p.blocks.map Prod.fst).Perm
      (pg :: (p.regions.map Prod.fst ++ (p.blocks.erase (pg, k)).map Prod.fst)) :=
    ((List.perm_cons_erase hmem).map Prod.fst).append_left _ |>.trans List.perm_middle
  have hnodup := List.nodup_cons.mp (hperm.nodup_iff.mp hinv.nodup)
  exact ⟨⟨hinv.pages, hinv.slabs, hinv.flagged, hinv.stocked, hinv.small, hinv.big,
    fun b hb => hinv.block b (List.mem_of_mem_erase hb), hnodup.2⟩,
    (hinv.block _ hmem).1, (hinv.block _ hmem).2, hnodup.1⟩

/-- The same for a region of its own block. -/
theorem Spare.addRegion (hspare : Spare p own pg (orderOf size)) (hinv : Inv p own) (hsize : MAX_SLAB_SIZE < size)
    (hmax : size ≤ PG_SIZE <<< MAX_ORDER) (hflags : (p.kmem.pa_to_page pg).flags = PG_BIG) :
    Inv { p with regions := (pg, size) :: p.regions } own := by
  have hobjs : objects { p with regions := (pg, size) :: p.regions } = p.objects := by
    unfold objects
    rw [List.filter_cons_of_neg (by simpa using hsize)]
  refine ⟨hinv.pages, hobjs ▸ hinv.slabs, hinv.flagged, hinv.stocked, ?_, ?_, hinv.block, ?_⟩
  · intro r hr hle
    rcases List.mem_cons.mp hr with rfl | hr
    · exact absurd hle (Nat.not_le_of_lt hsize)
    · exact hinv.small r hr hle
  · intro r hr hlt
    rcases List.mem_cons.mp hr with rfl | hr
    · exact ⟨hmax, hspare.owner, hflags, hspare.refcount⟩
    · exact hinv.big r hr hlt
  · exact List.nodup_cons.mpr ⟨hspare.not_held, hinv.nodup⟩

theorem Inv.eraseRegion (hinv : Inv p own) (hmem : (ptr, size) ∈ p.regions) (hsize : MAX_SLAB_SIZE < size) :
    Inv { p with regions := p.regions.erase (ptr, size) } own ∧
      Spare { p with regions := p.regions.erase (ptr, size) } own ptr (orderOf size) := by
  have hregions := List.perm_cons_erase hmem
  have hperm : (p.regions.map Prod.fst ++ p.blocks.map Prod.fst).Perm
      (ptr :: ((p.regions.erase (ptr, size)).map Prod.fst ++ p.blocks.map Prod.fst)) :=
    (hregions.map Prod.fst).append_right _
  have hnodup := List.nodup_cons.mp (hperm.nodup_iff.mp hinv.nodup)
  have hobjs : p.objects.Perm (objects { p with regions := p.regions.erase (ptr, size) }) := by
    have hfilter := (hregions.filter fun r => decide (r.2 ≤ MAX_SLAB_SIZE)).map Prod.fst
    rwa [List.filter_cons_of_neg (by simpa using hsize)] at hfilter
  obtain ⟨-, hown, -, href⟩ := hinv.big _ hmem hsize
  exact ⟨⟨hinv.pages, hinv.slabs.perm hobjs, hinv.flagged, hinv.stocked,
    fun r hr => hinv.small r (List.mem_of_mem_erase hr), fun r hr => hinv.big r (List.mem_of_mem_erase hr), hinv.block,
    hnodup.2⟩, hown, href, hnodup.1⟩

/-- A call of the slab allocator. -/
theorem Inv.slabStep (hinv : Inv p own) {q : Pool} (hstep : SlabStep c p.kmem q.kmem own own' q.objects)
    (hblocks : q.blocks = p.blocks)
    (hregions : ∀ r ∈ q.regions, r ∈ p.regions ∨ r.2 ≤ MAX_SLAB_SIZE ∧ InClass own' (classOf r.2) r.1)
    (hnodup : (q.regions.map Prod.fst ++ q.blocks.map Prod.fst).Nodup) : Inv q own' := by
  have hbig : ∀ pa k, own pa = some (.big k) →
      own' pa = some (.big k) ∧ q.kmem.pa_to_page pa = p.kmem.pa_to_page pa := by
    intro pa k hpa
    exact ⟨(hstep.touches.owner pa _ (by simp)).mpr hpa, (hstep.touches.same pa _ hpa (by simp)).page⟩
  refine ⟨hstep.pages, hstep.slabs, hstep.flagged hinv.flagged, ?_, ?_, ?_, ?_, hnodup⟩
  · intro c' hc'
    obtain ⟨pg, hpg⟩ := hinv.stocked c' hc'
    by_cases hcc : c' = c
    · subst hcc
      exact hstep.stocked pg hpg
    · exact ⟨pg, (hstep.touches.owner pg _ (by simpa using hcc)).mpr hpg⟩
  · intro r hr hsize
    rcases hregions r hr with hold | ⟨-, hclass⟩
    · refine hstep.inClass hinv.pages hinv.slabs (hinv.small r hold hsize) ?_
      exact List.mem_map_of_mem (List.mem_filter.mpr ⟨hr, by simpa using hsize⟩)
    · exact hclass
  · intro r hr hsize
    rcases hregions r hr with hold | ⟨hsmall, -⟩
    · obtain ⟨hmax, hown, hflags, href⟩ := hinv.big r hold hsize
      obtain ⟨hown', hpage⟩ := hbig _ _ hown
      rw [hpage]
      exact ⟨hmax, hown', hflags, href⟩
    · exact absurd hsize (Nat.not_lt_of_le hsmall)
  · intro b hb
    rw [hblocks] at hb
    obtain ⟨hown, href⟩ := hinv.block b hb
    obtain ⟨hown', hpage⟩ := hbig _ _ hown
    rw [hpage]
    exact ⟨hown', href⟩

/-- A slot that was not in use is not held. -/
theorem Inv.not_held (hinv : Inv p own) {x : Nat} (hp' : Pages s' own') {objs : List Nat} (hslabs : Slabs s' own' objs)
    (hbig : ∀ pa k, own pa = some (.big k) → own' pa = some (.big k)) (hclass : InClass own' c x)
    (hx : x ∉ p.objects) : x ∉ p.regions.map Prod.fst ++ p.blocks.map Prod.fst := by
  have hne : ∀ k, own x ≠ some (.big k) := by
    intro k hk
    have haligned := (hinv.pages.range_of hk).1
    have hslab := hclass.owner_of_aligned hp' hslabs haligned
    rw [hbig x k hk] at hslab
    cases hslab
  rw [List.mem_append, not_or]
  refine ⟨fun hmem => ?_, fun hmem => ?_⟩
  · obtain ⟨r, hr, rfl⟩ := List.mem_map.mp hmem
    by_cases hsize : r.2 ≤ MAX_SLAB_SIZE
    · exact hx (List.mem_map_of_mem (List.mem_filter.mpr ⟨hr, by simpa using hsize⟩))
    · exact hne _ (hinv.big r hr (Nat.lt_of_not_le hsize)).2.1
  · obtain ⟨b, hb, rfl⟩ := List.mem_map.mp hmem
    exact hne _ (hinv.block b hb).1

theorem classOf_spec (hsize : size ≤ MAX_SLAB_SIZE) :
    ((List.range NR_SIZE_CLASSES).find? fun c => size ≤ slotSize c) = some (classOf size) ∧
      classOf size < NR_SIZE_CLASSES ∧ size ≤ slotSize (classOf size) := by
  unfold classOf
  cases hfind : (List.range NR_SIZE_CLASSES).find? fun c => size ≤ slotSize c with
  | none =>
    have hnone := List.find?_eq_none.mp hfind 6 (by decide)
    exact absurd (show size ≤ slotSize 6 from hsize) (by simpa using hnone)
  | some c => exact ⟨rfl, List.mem_range.mp (List.mem_of_find?_eq_some hfind), by simpa using List.find?_some hfind⟩

theorem orderOf_spec (hmax : size ≤ PG_SIZE <<< MAX_ORDER) :
    ((List.range (MAX_ORDER + 1)).find? fun order => size ≤ PG_SIZE <<< order) = some (orderOf size) ∧
      orderOf size ≤ MAX_ORDER ∧ size ≤ PG_SIZE <<< orderOf size := by
  unfold orderOf
  cases hfind : (List.range (MAX_ORDER + 1)).find? fun order => size ≤ PG_SIZE <<< order with
  | none =>
    have hnone := List.find?_eq_none.mp hfind MAX_ORDER (by simp)
    exact absurd hmax (by simpa using hnone)
  | some k =>
    exact ⟨rfl, Nat.le_of_lt_succ (List.mem_range.mp (List.mem_of_find?_eq_some hfind)),
      by simpa using List.find?_some hfind⟩

theorem Inv.kmalloc_spec (hinv : Inv p own) (hmax : size ≤ PG_SIZE <<< MAX_ORDER) :
    wp (bobchouos.kmalloc size) (fun ptr s' =>
      (ptr = 0 ∧ s' = p.kmem ∧
        (size ≠ 0 → ∀ j, needOf size ≤ j → j ≤ MAX_ORDER → (p.kmem.free_areas j).free_list = 0)) ∨
      ptr ≠ 0 ∧ ∃ own', Inv { p with kmem := s', regions := (ptr, size) :: p.regions } own') p.kmem := by
  by_cases hzero : size = 0
  · unfold kmalloc
    rw [if_pos hzero, wp_pure]
    exact .inl ⟨rfl, rfl, fun h => absurd hzero h⟩
  by_cases hsize : size ≤ MAX_SLAB_SIZE
  · refine wp_mono (bobchouos.kmalloc_spec hinv.pages hinv.slabs (Nat.pos_of_ne_zero hzero) hsize) ?_
    rintro x s' (⟨rfl, rfl, hex⟩ | ⟨hx, hobj, own', c, pg, hclass, -, hpg, hslot, hstep⟩)
    · exact .inl ⟨rfl, rfl, fun _ j _ hj => hex j hj⟩
    rw [hinv.slabs.size_to_class, (classOf_spec hsize).1, Option.some_inj] at hclass
    have hin : InClass own' (classOf size) x := ⟨pg, hclass ▸ hpg, hclass ▸ hslot⟩
    have hobjs : x :: p.objects = objects { p with kmem := s', regions := (x, size) :: p.regions } := by
      unfold objects
      rw [List.filter_cons_of_pos (by simpa using hsize)]
      rfl
    rw [hobjs] at hstep
    have hnot := hinv.not_held hstep.pages hstep.slabs (fun pa k => (hstep.touches.owner pa _ (by simp)).mpr) hin hobj
    refine .inr ⟨hx, own', hinv.slabStep hstep rfl ?_ (List.nodup_cons.mpr ⟨hnot, hinv.nodup⟩)⟩
    intro r hr
    rcases List.mem_cons.mp hr with rfl | hr
    · exact .inr ⟨hsize, hin⟩
    · exact .inl hr
  · have hlt := Nat.lt_of_not_le hsize
    unfold kmalloc kmallocBig
    rw [if_neg hzero, if_pos hlt, (orderOf_spec hmax).1]
    simp only [wp_bind]
    refine wp_mono (hinv.kalloc_pages_spec (orderOf_spec hmax).2.1) ?_
    rintro pg s' (⟨rfl, rfl, hempty⟩ | ⟨hne, own', hinv', hspare⟩)
    · rw [if_pos rfl, wp_pure]
      refine .inl ⟨rfl, rfl, fun _ j hj => hempty j ?_⟩
      rwa [needOf, if_neg hsize] at hj
    · rw [if_neg hne]
      simp only [wp_bind, wp_modify, wp_pure]
      obtain ⟨hinv'', hspare''⟩ := hspare.setFlags hinv' PG_BIG (by decide)
      refine .inr ⟨hne, own', hspare''.addRegion hinv'' hlt hmax ?_⟩
      simp only [pa_to_page_setPage_self]

theorem Inv.kmfree_spec (hinv : Inv p own) (hmem : (ptr, size) ∈ p.regions) :
    wp (bobchouos.kmfree ptr) (fun _ s' =>
      ∃ own', Inv { p with kmem := s', regions := p.regions.erase (ptr, size) } own') p.kmem := by
  have hregions := List.perm_cons_erase hmem
  by_cases hsize : size ≤ MAX_SLAB_SIZE
  · have hobjs : p.objects.Perm (ptr :: objects { p with regions := p.regions.erase (ptr, size) }) := by
      have hfilter := (hregions.filter fun r => decide (r.2 ≤ MAX_SLAB_SIZE)).map Prod.fst
      rwa [List.filter_cons_of_pos (by simpa using hsize)] at hfilter
    refine wp_mono (bobchouos.kmfree_spec hinv.pages hinv.slabs (hobjs.mem_iff.mpr List.mem_cons_self)) ?_
    rintro _ s' ⟨own', c, pg, -, -, hstep, -⟩
    have hperm := hobjs.erase ptr
    rw [List.erase_cons_head] at hperm
    refine ⟨own', hinv.slabStep (hstep.perm hperm) rfl (fun r hr => .inl (List.mem_of_mem_erase hr)) ?_⟩
    have hnodup := ((hregions.map Prod.fst).append_right (p.blocks.map Prod.fst)).nodup_iff.mp hinv.nodup
    exact (List.nodup_cons.mp hnodup).2
  · have hlt := Nat.lt_of_not_le hsize
    obtain ⟨-, hown, hflags, href⟩ := hinv.big _ hmem hlt
    obtain ⟨hinv', hspare⟩ := hinv.eraseRegion hmem hlt
    obtain ⟨hinv'', hspare'⟩ := hspare.setFlags hinv' 0 (by decide)
    have horder : (p.kmem.pa_to_page ptr).order = orderOf size := (hinv.pages.page hown).2
    have hspec := hspare'.kfree_pages_spec hinv''
    rw [← horder] at hspec
    unfold kmfree
    simp only [wp_bind, wp_get]
    rw [hflags, if_pos (by decide)]
    simp only [wp_bind, wp_modify]
    exact hspec

theorem Inv.cell (hinv : Inv p own) {r : Nat × Nat} (hr : r ∈ p.held) : Cell own r.1 r.2 := by
  rcases List.mem_append.mp hr with hmem | hmem
  · obtain ⟨r', hr', rfl⟩ := List.mem_map.mp hmem
    by_cases hsize : r'.2 ≤ MAX_SLAB_SIZE
    · simp only [extentOf, if_pos hsize]
      exact .slot (hinv.small r' hr' hsize)
    · simp only [extentOf, if_neg hsize]
      exact .block (hinv.big r' hr' (Nat.lt_of_not_le hsize)).2.1
  · obtain ⟨b, hb, rfl⟩ := List.mem_map.mp hmem
    exact .block (hinv.block b hb).1

theorem held_fst (p : Pool) : p.held.map Prod.fst = p.regions.map Prod.fst ++ p.blocks.map Prod.fst := by
  simp [held, Function.comp_def]

/-- A free slot is apart from all that is held. -/
theorem Inv.free_apart (hinv : Inv p own) {x : Nat} (hclass : InClass own c x) (hx : x ∉ p.objects) {r : Nat × Nat}
    (hr : r ∈ p.held) : x + slotSize c ≤ r.1 ∨ r.1 + r.2 ≤ x := by
  refine (Cell.slot hclass).apart (hinv.cell hr) hinv.pages hinv.slabs ?_
  rintro rfl
  refine hinv.not_held hinv.pages hinv.slabs (fun _ _ h => h) hclass hx ?_
  rw [← held_fst]
  exact List.mem_map_of_mem hr

/-- A user's write stays inside what is held. -/
theorem Inv.store (hinv : Inv p own) {a : Nat} (hin : ∃ r ∈ p.held, r.1 ≤ a ∧ a < r.1 + r.2) (v : BitVec 8) :
    Inv { p with kmem := { p.kmem with mem := Function.update p.kmem.mem a v } } own := by
  obtain ⟨r, hr, hlo, hhi⟩ := hin
  refine ⟨?_, ?_, hinv.flagged, hinv.stocked, hinv.small, hinv.big, hinv.block, hinv.nodup⟩
  · obtain ⟨pg, o, hpg, hpglo, hpghi⟩ := (hinv.cell hr).inside hinv.slabs
    refine hinv.pages.congr_blocks rfl rfl (fun x hx => ?_) (fun _ _ => rfl) fun q hq => ⟨hinv.pages.refcount_pos hq, rfl⟩
    refine Function.update_of_ne ?_ _ _
    rintro rfl
    exact hx pg o hpg ⟨by omega, by omega⟩
  · refine hinv.slabs.write fun c y hclass hy x hxlo hxhi => ?_
    have hapart := hinv.free_apart hclass hy hr
    refine Function.update_of_ne ?_ _ _
    rintro rfl
    omega

/-- Every legal call returns and keeps the invariant. `kmalloc` returns null only
when the buddy allocator has no block for it. -/
theorem exec_spec {op : Op} (hinv : Inv p own) (hlegal : op.Legal p) :
    wp op.exec (fun r p' => (∃ own', Inv p' own') ∧ ∀ size, op = .kmalloc size → size ≠ 0 → r = 0 →
      ∀ j, needOf size ≤ j → j ≤ MAX_ORDER → (p.kmem.free_areas j).free_list = 0) p := by
  have htake : ∀ {Q : Nat → Pool → Prop} {k : Nat}, k ≤ MAX_ORDER → (∀ r p', (∃ own', Inv p' own') → Q r p') →
      wp (take k (bobchouos.kalloc_pages k)) Q p := by
    intro Q k hk hQ
    unfold take onKmem
    simp only [wp_bind, wp_onField]
    refine wp_mono (hinv.kalloc_pages_spec hk) ?_
    rintro pa s' (⟨rfl, rfl, -⟩ | ⟨hne, own', hinv', hspare⟩)
    · rw [if_neg (by simp)]
      exact wp_pure.mpr (hQ _ _ ⟨own, hinv⟩)
    · rw [if_pos hne]
      simp only [wp_bind, wp_modify, wp_pure]
      exact hQ _ _ ⟨own', hspare.addBlock hinv'⟩
  have hgive : ∀ {Q : Nat → Pool → Prop} {pa k : Nat}, (pa, k) ∈ p.blocks → (∀ r p', (∃ own', Inv p' own') → Q r p') →
      wp (giveBack pa k (bobchouos.kfree_pages pa k)) Q p := by
    intro Q pa k hmem hQ
    obtain ⟨hinv', hspare⟩ := hinv.eraseBlock hmem
    unfold giveBack onKmem
    simp only [wp_bind, wp_onField, wp_modify, wp_pure]
    exact wp_mono (hspare.kfree_pages_spec hinv') fun _ s' h => hQ _ _ h
  cases op with
  | kmalloc size =>
    unfold Op.exec onKmem
    simp only [wp_bind, wp_onField]
    refine wp_mono (hinv.kmalloc_spec hlegal) ?_
    rintro ptr s' (⟨rfl, rfl, hnull⟩ | ⟨hne, own', hinv'⟩)
    · rw [if_neg (by simp)]
      refine wp_pure.mpr ⟨⟨own, hinv⟩, fun size' heq hsize _ => ?_⟩
      cases heq
      exact hnull hsize
    · rw [if_pos hne]
      simp only [wp_bind, wp_modify, wp_pure]
      exact ⟨⟨own', hinv'⟩, fun _ _ _ hr => absurd hr hne⟩
  | kmfree ptr size =>
    unfold Op.exec onKmem
    simp only [wp_bind, wp_onField, wp_modify, wp_pure]
    exact wp_mono (hinv.kmfree_spec hlegal) fun _ s' h => ⟨h, fun _ heq => by cases heq⟩
  | kalloc => exact htake (Nat.zero_le _) fun _ _ h => ⟨h, fun _ heq => by cases heq⟩
  | kalloc_pages order => exact htake hlegal fun _ _ h => ⟨h, fun _ heq => by cases heq⟩
  | kfree pa => exact hgive hlegal fun _ _ h => ⟨h, fun _ heq => by cases heq⟩
  | kfree_pages pa order => exact hgive hlegal fun _ _ h => ⟨h, fun _ heq => by cases heq⟩
  | store a v =>
    unfold Op.exec
    simp only [wp_bind, wp_modify, wp_pure]
    exact ⟨⟨own, hinv.store hlegal v⟩, fun _ heq => by cases heq⟩

end Steps

section Boot

variable {kernel_end : Nat} {h : Heap} {free : FreeMap} {bs : List Block}

/-- The buddy allocator flags no page. -/
theorem flags_of_heap (hreach : (Heap.system kernel_end).Reachable h) : ∀ i, (h.kmem.pages i).flags = 0 := by
  apply hreach.invariant
  · rintro h ⟨s₀, s, hinit, rfl⟩
    exact ((SameSlabs.kalloc_init kernel_end s₀).post hinit).1
  · rintro op h h' hzero ⟨-, r, hexec⟩
    have hkeep : wpe (fun _ => True) op.exec (fun _ h' => SameSlabs h.kmem h'.kmem) h := by
      have htake : ∀ k, wpe (fun _ => True) (Heap.take k (buddy_alloc k)) (fun _ h' => SameSlabs h.kmem h'.kmem) h := by
        intro k
        unfold Heap.take Heap.onKmem
        simp only [wpe_bind, wpe_onField]
        refine wpe_mono (SameSlabs.buddy_alloc k h.kmem) fun pa s' hs' => ?_
        split
        · exact hs'
        · exact hs'
      have hgive : ∀ pa k, wpe (fun _ => True) (Heap.giveBack pa k (buddy_free pa k))
          (fun _ h' => SameSlabs h.kmem h'.kmem) h := by
        intro pa k
        unfold Heap.giveBack Heap.onKmem
        simp only [wpe_bind, wpe_onField, wpe_modify, wpe_pure]
        exact SameSlabs.buddy_free pa k h.kmem
      cases op with
      | kalloc => exact htake 0
      | kalloc_pages order => exact htake order
      | kfree pa => exact hgive pa 0
      | kfree_pages pa order => exact hgive pa order
      | store a v => exact .of_pages rfl rfl
    intro i
    rw [(hkeep.post hexec).flags i]
    exact hzero i

/-- The users of the blocks that are live in a heap. -/
def ownersOf (bs : List Block) (pa : Nat) : Option Owner :=
  (bs.find? fun b => blockAddr b = pa).map fun b => .big b.order

theorem ownersOf_eq (hinv : Heap.Inv kernel_end h free bs) {b : Block} (hb : b ∈ bs) :
    ownersOf bs (blockAddr b) = some (.big b.order) := by
  unfold ownersOf
  cases hfind : bs.find? fun c => blockAddr c = blockAddr b with
  | none =>
    have hnone := List.find?_eq_none.mp hfind b hb
    simp at hnone
  | some c =>
    have hc := List.mem_of_find?_eq_some hfind
    have haddr : blockAddr c = blockAddr b := by simpa using List.find?_some hfind
    have hcb : c = b := by
      by_contra hne
      exact hinv.buddy.pageIdx_live_ne hc hb hne (by rw [haddr])
    rw [Option.map_some, hcb]

theorem pages_of_heap (hinv : Heap.Inv kernel_end h free bs) : Pages h.kmem (ownersOf bs) := by
  refine ⟨free, bs, hinv.buddy, fun pa n => ?_⟩
  constructor
  · intro hsome
    obtain ⟨o, ho, horder⟩ := Option.map_eq_some_iff.mp hsome
    obtain ⟨b, hfind, rfl⟩ := Option.map_eq_some_iff.mp ho
    exact ⟨b, List.mem_of_find?_eq_some hfind, by simpa using List.find?_some hfind, horder⟩
  · rintro ⟨b, hb, rfl, rfl⟩
    rw [ownersOf_eq hinv hb]
    rfl

theorem ownersOf_big {pa : Nat} {o : Owner} (ho : ownersOf bs pa = some o) : ∃ k, o = .big k := by
  obtain ⟨b, -, rfl⟩ := Option.map_eq_some_iff.mp ho
  exact ⟨b.order, rfl⟩

theorem inv_of_init {p : Pool} (hlo : KERN_BASE ≤ freeStart kernel_end) (hhi : freeStart kernel_end ≤ PHYS_STOP)
    (hinit : (system kernel_end).init p) : ∃ own, Inv p own := by
  obtain ⟨h, s, hreach, hzero, hkmalloc, hfull, rfl⟩ := hinit
  obtain ⟨free, bs, hinv⟩ := Heap.inv_of_reachable hlo hhi hreach
  have hslab : ∀ c pg, ownersOf bs pg ≠ some (.slab c) := by
    intro c pg hpg
    obtain ⟨k, hk⟩ := ownersOf_big hpg
    cases hk
  obtain ⟨own, hp, hslabs, ht, hflag⟩ := (kmalloc_init_spec (pages_of_heap hinv) hslab hzero).post hkmalloc
  have hflagged : Flagged h.kmem (ownersOf bs) := by
    intro i hi
    rw [flags_of_heap hreach i] at hi
    cases hi
  refine ⟨own, hp, hslabs, hflag hflagged, ?_, by simp, by simp, ?_, ?_⟩
  · intro c hc
    obtain ⟨lists, frees, hslabinv, -⟩ := hslabs
    have hne := hfull c hc
    rw [Ne, (hslabinv.chain c hc).head_eq_zero_iff] at hne
    obtain ⟨pg, hpg⟩ := List.exists_mem_of_ne_nil _ hne
    exact ⟨pg, hslabinv.owned_of_mem hc hpg⟩
  · rintro ⟨pa, order⟩ hmem
    obtain ⟨b, hb, rfl, rfl⟩ := Heap.mem_live hinv hmem
    have hown := ownersOf_eq hinv hb
    have hnot : ¬ Owner.IsSlab (.big b.order) := by
      rintro ⟨c, hc⟩
      cases hc
    refine ⟨(ht.owner _ _ hnot).mpr hown, ?_⟩
    rw [(ht.same _ _ hown hnot).page]
    exact hinv.refs b hb
  · rw [List.map_nil, List.nil_append, hinv.live, List.map_map]
    refine hinv.buddy.tiled.live_nodup.map_on fun b hb c hc heq => ?_
    by_contra hne
    exact hinv.buddy.pageIdx_live_ne hb hc hne (congrArg Kmem.pageIdx heq)

theorem inv_of_reachable {p : Pool} (hlo : KERN_BASE ≤ freeStart kernel_end) (hhi : freeStart kernel_end ≤ PHYS_STOP)
    (hreach : (system kernel_end).Reachable p) : ∃ own, Inv p own := by
  apply hreach.invariant
  · intro p hinit
    exact inv_of_init hlo hhi hinit
  · rintro op p p' ⟨own, hinv⟩ ⟨hlegal, r, hexec⟩
    exact ((exec_spec hinv hlegal).post hexec).1

end Boot

/-- The bytes from `lo` to `hi` are in a block that the buddy allocator has handed
out: its `struct page` has the order and a reference, and no part of it is on a
free list. -/
def Allocated (s : Kmem) (lo hi : Nat) : Prop :=
  ∃ pa order, pa ≤ lo ∧ hi ≤ pa + PG_SIZE <<< order ∧ s.free_start ≤ pa ∧ pa + PG_SIZE <<< order ≤ PHYS_STOP ∧
    1 ≤ (s.pa_to_page pa).refcount ∧ (s.pa_to_page pa).order = order ∧
    ∀ k ≤ MAX_ORDER, ∀ q ∈ s.listBlocks k, pa + PG_SIZE <<< order ≤ q ∨ q + PG_SIZE <<< k ≤ pa

/-- The state of the slab allocator, in terms of the source's data: the list
heads, the links in memory and the `struct page` array. -/
structure Sound (p : Pool) : Prop where
  apart : p.held.Pairwise fun r r' => r.1 + r.2 ≤ r'.1 ∨ r'.1 + r'.2 ≤ r.1
  region : ∀ r ∈ p.regions, r.2 ≤ extentOf r.2 ∧ Allocated p.kmem r.1 (r.1 + extentOf r.2) ∧
    r.1 % (if r.2 ≤ MAX_SLAB_SIZE then slotSize (classOf r.2) else PG_SIZE) = 0
  sizes : ∀ c < NR_SIZE_CLASSES, (p.kmem.size_classes c).slot_size = slotSize c
  /-- Each list ends in null and has every slab of its class once. -/
  lists : ∀ c < NR_SIZE_CLASSES,
    Chain (fun pg => (p.kmem.pa_to_page pg).slab.next_slab) (p.kmem.size_classes c).slabs (p.kmem.slabList c) ∧
      p.kmem.slabList c ≠ [] ∧ ((p.kmem.slabList c).map Kmem.pageIdx).Nodup ∧
      ∀ i, i ∈ (p.kmem.slabList c).map Kmem.pageIdx ↔
        (p.kmem.pages i).flags = PG_SLAB ∧ (p.kmem.pages i).slab.class_idx = c
  /-- The free slots of a slab are distinct and apart from all that is held. -/
  slots : ∀ c < NR_SIZE_CLASSES, ∀ pg ∈ p.kmem.slabList c,
    Chain p.kmem.next (p.kmem.pa_to_page pg).slab.free_list (p.kmem.freeSlots pg) ∧ (p.kmem.freeSlots pg).Nodup ∧
      (p.kmem.pa_to_page pg).slab.nr_alloc + (p.kmem.freeSlots pg).length = PG_SIZE / slotSize c ∧
      ∀ x ∈ p.kmem.freeSlots pg, x ∈ slotsOf c pg ∧ ∀ r ∈ p.held, x + slotSize c ≤ r.1 ∨ r.1 + r.2 ≤ x
  packed : ∀ c < NR_SIZE_CLASSES, 2 ≤ (p.kmem.slabList c).length →
    ∀ pg ∈ p.kmem.slabList c, (p.kmem.pa_to_page pg).slab.nr_alloc ≠ 0

section Sound

variable {p : Pool} {own : Nat → Option Owner} {c pg : Nat}

theorem Inv.held_apart (hinv : Inv p own) : p.held.Pairwise fun r r' => r.1 + r.2 ≤ r'.1 ∨ r'.1 + r'.2 ≤ r.1 := by
  have hnodup : p.held.Pairwise fun r r' => r.1 ≠ r'.1 := by
    rw [← List.pairwise_map (R := (· ≠ ·)), held_fst]
    exact hinv.nodup
  refine hnodup.imp_of_mem fun hr hr' hne => ?_
  exact (hinv.cell hr).apart (hinv.cell hr') hinv.pages hinv.slabs hne

theorem Inv.allocated (hinv : Inv p own) {r : Nat × Nat} (hr : r ∈ p.held) : Allocated p.kmem r.1 (r.1 + r.2) := by
  obtain ⟨pg, o, hpg, hlo, hhi⟩ := (hinv.cell hr).inside hinv.slabs
  obtain ⟨-, -, hstart, hstop⟩ := hinv.pages.extent hpg
  obtain ⟨href, horder⟩ := hinv.pages.page hpg
  exact ⟨pg, o.order, hlo, hhi, hstart, hstop, href, horder, fun k hk q hq => hinv.pages.apart_of_free hpg hk hq⟩

/-- The slots of a page lie at multiples of their size. -/
theorem slot_aligned (hc : c < NR_SIZE_CLASSES) (hpg : pg % PG_SIZE = 0) {x : Nat} (hx : x ∈ slotsOf c pg) :
    x % slotSize c = 0 := by
  obtain ⟨k, -, rfl⟩ := mem_slotsOf.mp hx
  have hdvd : slotSize c ∣ PG_SIZE := ⟨nrSlots c, by rw [Nat.mul_comm, nrSlots_mul hc]⟩
  rw [Nat.add_mul_mod_self_right]
  exact Nat.mod_eq_zero_of_dvd (hdvd.trans (Nat.dvd_of_mod_eq_zero hpg))

theorem Inv.region (hinv : Inv p own) {r : Nat × Nat} (hr : r ∈ p.regions) :
    r.2 ≤ extentOf r.2 ∧ Allocated p.kmem r.1 (r.1 + extentOf r.2) ∧
      r.1 % (if r.2 ≤ MAX_SLAB_SIZE then slotSize (classOf r.2) else PG_SIZE) = 0 := by
  have hheld : (r.1, extentOf r.2) ∈ p.held := List.mem_append_left _ (List.mem_map_of_mem hr)
  refine ⟨?_, hinv.allocated hheld, ?_⟩
  · unfold extentOf
    split
    · rename_i hsize
      exact (classOf_spec hsize).2.2
    · rename_i hsize
      exact (orderOf_spec (hinv.big r hr (Nat.lt_of_not_le hsize)).1).2.2
  · split
    · rename_i hsize
      obtain ⟨pg, hpg, hslot⟩ := hinv.small r hr hsize
      exact slot_aligned (hinv.slabs.class_lt hpg) (hinv.pages.range_of hpg).1 hslot
    · rename_i hsize
      obtain ⟨-, hown, -⟩ := hinv.big r hr (Nat.lt_of_not_le hsize)
      exact (hinv.pages.range_of hown).1

theorem sound_of_inv (hinv : Inv p own) : Sound p := by
  obtain ⟨lists, frees, hslab, hpacked⟩ := hinv.slabs
  have hlist : ∀ c < NR_SIZE_CLASSES, p.kmem.slabList c = lists c := by
    intro c hc
    apply Chain.walk_eq (hslab.chain c hc)
    exact Nat.le_succ_of_le (hinv.pages.length_le (hslab.nodup c hc) fun q hq => by
      rw [hslab.owned_of_mem hc hq]; simp)
  have hfree : ∀ c < NR_SIZE_CLASSES, ∀ pg ∈ lists c, p.kmem.freeSlots pg = frees pg := by
    intro c hc pg hpg
    have hcount := (hslab.page c hc pg hpg).count
    have hpos := nrSlots_pos hc
    apply Chain.walk_eq (hslab.page c hc pg hpg).chain
    simp only [PG_SIZE]
    omega
  refine ⟨hinv.held_apart, fun r hr => hinv.region hr, hslab.sizes, ?_, ?_, ?_⟩
  · intro c hc
    rw [hlist c hc]
    have hsome : ∀ pg ∈ lists c, own pg ≠ none := fun pg hpg => by rw [hslab.owned_of_mem hc hpg]; simp
    refine ⟨hslab.chain c hc, ?_, ?_, fun i => ⟨?_, ?_⟩⟩
    · obtain ⟨pg, hpg⟩ := hinv.stocked c hc
      exact List.ne_nil_of_mem ((hslab.owned c pg).mp hpg).2
    · refine (hslab.nodup c hc).map_on fun a ha b hb heq => ?_
      by_contra hne
      exact hinv.pages.pageIdx_ne (hsome a ha) (hsome b hb) hne heq
    · intro hi
      obtain ⟨pg, hpg, rfl⟩ := List.mem_map.mp hi
      exact ⟨(hslab.page c hc pg hpg).flags, (hslab.page c hc pg hpg).class_idx⟩
    · rintro ⟨hflag, hclass⟩
      obtain ⟨c', pg, hpg, rfl⟩ := hinv.flagged i hflag
      obtain ⟨hc', hmem⟩ := (hslab.owned c' pg).mp hpg
      obtain rfl : c' = c := (hslab.page c' hc' pg hmem).class_idx.symm.trans hclass
      exact List.mem_map_of_mem hmem
  · intro c hc pg hpg
    rw [hlist c hc] at hpg
    have hpage := hslab.page c hc pg hpg
    rw [hfree c hc pg hpg]
    refine ⟨hpage.chain, hpage.nodup, hpage.count, fun x hx => ⟨hpage.inside x hx, fun r hr => ?_⟩⟩
    have hslot := hpage.inside x hx
    exact hinv.free_apart ⟨pg, hslab.owned_of_mem hc hpg, hslot⟩ ((hpage.slots x hslot).mp hx) hr
  · intro c hc hlen pg hpg
    rw [hlist c hc] at hlen hpg
    exact hpacked c hc hlen pg hpg

end Sound

/-- After `kmalloc_init`, whatever sequence of calls and writes of the users
followed, the regions are apart and the slab lists are in order. Every further
call returns, and `kmalloc` returns null only for size zero or where the buddy
allocator has no block of the order it needs, nor of a higher one. -/
theorem kmalloc_sound (kernel_end : Nat) (hlo : KERN_BASE ≤ freeStart kernel_end)
    (hhi : freeStart kernel_end ≤ PHYS_STOP) (p : Pool) (hreach : (system kernel_end).Reachable p) :
    Sound p ∧ ∀ op : Op, op.Legal p → ∃ r p', op.exec p = .ok (r, p') ∧
      ∀ size, op = .kmalloc size → r = 0 →
        size = 0 ∨ ∀ j, needOf size ≤ j → j ≤ MAX_ORDER → (p.kmem.free_areas j).free_list = 0 := by
  obtain ⟨own, hinv⟩ := inv_of_reachable hlo hhi hreach
  refine ⟨sound_of_inv hinv, fun op hlegal => ?_⟩
  obtain ⟨r, p', hexec, -, hnull⟩ := exec_spec hinv hlegal
  refine ⟨r, p', hexec, fun size hop hr => ?_⟩
  by_cases hsize : size = 0
  · exact .inl hsize
  · exact .inr (hnull size hop hsize hr)

/-- A machine with eight free pages behind the kernel: `kmalloc_init` takes seven
of them, and an object is in use after the next call. -/
theorem kmalloc_sound_small_memory :
    ∃ p ptr, (system 0x87EF8000).Reachable p ∧ (ptr, 100) ∈ p.regions ∧ Sound p := by
  have hstart := freeStart_eq (k := 0x87EF8000) (by decide)
  have hlo : KERN_BASE ≤ freeStart 0x87EF8000 := by rw [hstart]; decide
  have hhi : freeStart 0x87EF8000 ≤ PHYS_STOP := by rw [hstart]; decide
  obtain ⟨⟨⟩, s, hs, -⟩ := kalloc_init_spec ⟨fun _ => 0, fun _ => {}, fun _ => {}, 0, fun _ => {}⟩ hlo hhi
  have hrun : (match kalloc_init 0x87EF8000 ⟨fun _ => 0, fun _ => {}, fun _ => {}, 0, fun _ => {}⟩ with
      | .ok (_, s) => (match kmalloc_init s with
        | .ok (_, s') => decide (∀ c < NR_SIZE_CLASSES, (s'.size_classes c).slabs ≠ 0) &&
          (match kmalloc 100 s' with
          | .ok (ptr, _) => decide (ptr ≠ 0)
          | .error _ => false)
        | .error _ => false)
      | .error _ => false) = true := by decide +kernel
  rw [hs] at hrun
  cases hinit : kmalloc_init s with
  | error e => simp [hinit] at hrun
  | ok r =>
    obtain ⟨⟨⟩, s'⟩ := r
    cases hcall : kmalloc 100 s' with
    | error e => simp [hinit, hcall] at hrun
    | ok r =>
      obtain ⟨ptr, s''⟩ := r
      simp only [hinit, hcall, Bool.and_eq_true, decide_eq_true_eq] at hrun
      have hzero : ∀ c, (s.size_classes c).slabs = 0 := by
        intro c
        rw [((SameSlabs.kalloc_init _ _).post hs).2]
      have hboot : (system 0x87EF8000).Reachable ⟨s', [], []⟩ :=
        .init ⟨⟨s, []⟩, s', .init ⟨_, s, hs, rfl⟩, hzero, hinit, hrun.1, rfl⟩
      have hexec : (Op.kmalloc 100).exec ⟨s', [], []⟩ = .ok (ptr, ⟨s'', [(ptr, 100)], []⟩) := by
        refine (bind_eq_ok_iff).mpr ⟨ptr, ⟨s'', [], []⟩, onField_eq_ok_iff.mpr ⟨s'', hcall, rfl⟩, ?_⟩
        rw [if_pos hrun.2]
        rfl
      have hlegal : (Op.kmalloc 100).Legal ⟨s', [], []⟩ := show 100 ≤ PG_SIZE <<< MAX_ORDER by decide
      have hreach := hboot.step (a := .kmalloc 100) ⟨hlegal, ptr, hexec⟩
      exact ⟨_, ptr, hreach, by simp, (kmalloc_sound 0x87EF8000 hlo hhi _ hreach).1⟩

end Pool

end bobchouos
