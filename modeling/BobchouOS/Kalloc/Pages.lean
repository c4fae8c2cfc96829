import BobchouOS.Kalloc.Free

open lib

namespace bobchouos

/-- What a page that came from `kalloc` is used for. A `table` belongs to the
page table with the given root and is reached from it by the given indices. A
`loose` page is allocated but referred to by no structure of the kernel, and
`big` is a block of the given order. -/
inductive Owner where
  | kernel
  | slab (class_idx : Nat)
  | kstack (p : Nat)
  | trapframe (p : Nat)
  | table (root : Nat) (path : List Nat)
  | user (vpn : Nat)
  | loose
  | big (order : Nat)
  deriving DecidableEq

def Owner.order : Owner → Nat
  | .big order => order
  | _ => 0

/-- Pages and blocks over the buddy allocator: `own` names the user of each
allocated block by its address, and a page without one is free, inside a block
or not managed at all. -/
def Pages (s : Kmem) (own : Nat → Option Owner) : Prop :=
  ∃ free live, BuddyInv s free live (PHYS_STOP / PG_SIZE) ∧
    ∀ pa n, (own pa).map Owner.order = some n ↔ ∃ b ∈ live, blockAddr b = pa ∧ b.order = n

/-- No block of any order is free. -/
def Exhausted (s : Kmem) : Prop := ∀ k ≤ MAX_ORDER, (s.free_areas k).free_list = 0

instance (s : Kmem) : Decidable (Exhausted s) :=
  inferInstanceAs (Decidable (∀ k ≤ MAX_ORDER, (s.free_areas k).free_list = 0))

/-- At most one page is free. -/
def Low (s : Kmem) : Prop :=
  ∃ pg, ∀ pa, pa % PG_SIZE = 0 → s.free_start ≤ pa → pa < PHYS_STOP → pa ≠ pg → (s.pa_to_page pa).refcount ≠ 0

/-- The contents of a page and its `struct page` are as before. -/
structure SamePage (s s' : Kmem) (pa : Nat) : Prop where
  mem : ∀ x, pa ≤ x → x < pa + PG_SIZE → s'.mem x = s.mem x
  page : s'.pa_to_page pa = s.pa_to_page pa

namespace SamePage

variable {s s' s'' : Kmem} {pa : Nat}

theorem refl (s : Kmem) (pa : Nat) : SamePage s s pa := ⟨fun _ _ _ => rfl, rfl⟩

theorem trans (h : SamePage s s' pa) (h' : SamePage s' s'' pa) : SamePage s s'' pa :=
  ⟨fun x hlo hhi => (h'.mem x hlo hhi).trans (h.mem x hlo hhi), h'.page.trans h.page⟩

theorem loadWord (h : SamePage s s' pa) {a : Nat} (hlo : pa ≤ a) (hhi : a + 8 ≤ pa + PG_SIZE) :
    s'.mem.loadWord a = s.mem.loadWord a :=
  Mem.loadWord_congr fun x hx hx' => h.mem x (by omega) (by omega)

end SamePage

/-- A block that the allocator handed out and only its user has written since: it
was free, and no page in use changed. -/
structure Held (k : Nat) (s s' : Kmem) (own : Nat → Option Owner) (pg : Nat) : Prop where
  ne_zero : pg ≠ 0
  was_free : own pg = none
  pages : ∀ o : Owner, o.order = k → Pages s' (Function.update own pg (some o))
  refcount : (s'.pa_to_page pg).refcount = 1
  same : ∀ pa, own pa ≠ none → SamePage s s' pa
  free_start : s'.free_start = s.free_start
  size_classes : s'.size_classes = s.size_classes

/-- A page as `kalloc` hands it out. -/
structure Fresh (s s' : Kmem) (own : Nat → Option Owner) (pg : Nat) : Prop extends Held 0 s s' own pg where
  zero : ∀ x, pg ≤ x → x < pg + PG_SIZE → s'.mem x = 0

namespace Pages

variable {s t : Kmem} {own own' : Nat → Option Owner} {pa pb k : Nat} {o : Owner}

theorem block_of_owned {live : List Block}
    (hown : ∀ pa n, (own pa).map Owner.order = some n ↔ ∃ b ∈ live, blockAddr b = pa ∧ b.order = n)
    (hpa : own pa ≠ none) : ∃ b ∈ live, blockAddr b = pa ∧ (own pa).map Owner.order = some b.order := by
  obtain ⟨o, ho⟩ := Option.ne_none_iff_exists'.mp hpa
  obtain ⟨b, hb, haddr, horder⟩ := (hown pa o.order).mp (by rw [ho]; rfl)
  exact ⟨b, hb, haddr, by rw [ho, Option.map_some, horder]⟩

theorem le_shiftLeft (k : Nat) : PG_SIZE ≤ PG_SIZE <<< k := by
  rw [PG_SIZE_shiftLeft]
  exact Nat.le_mul_of_pos_left PG_SIZE (Nat.two_pow_pos k)

theorem shiftLeft_pos (k : Nat) : 0 < PG_SIZE <<< k := Nat.lt_of_lt_of_le (by decide) (le_shiftLeft k)

/-- The first page of a block is inside the block. -/
theorem has_of_page {b : Block} {x : Nat} (hlo : blockAddr b ≤ x) (hhi : x < blockAddr b + PG_SIZE) :
    b.Has (x / PG_SIZE) := by
  have hle := le_shiftLeft b.order
  rw [has_div_iff]
  omega

theorem range (h : Pages s own) (hpa : own pa ≠ none) :
    pa % PG_SIZE = 0 ∧ KERN_BASE ≤ pa ∧ pa + PG_SIZE ≤ PHYS_STOP := by
  obtain ⟨free, live, hbuddy, hown⟩ := h
  obtain ⟨b, hb, rfl, -⟩ := block_of_owned hown hpa
  have hrange := hbuddy.range_of_held hb
  have hle := le_shiftLeft b.order
  exact ⟨blockAddr_aligned b, Nat.le_trans hbuddy.start_ge hrange.1, by omega⟩

theorem range_of (h : Pages s own) (hpa : own pa = some o) :
    pa % PG_SIZE = 0 ∧ KERN_BASE ≤ pa ∧ pa + PG_SIZE ≤ PHYS_STOP := h.range (by rw [hpa]; simp)

theorem page (h : Pages s own) (hpa : own pa = some o) :
    1 ≤ (s.pa_to_page pa).refcount ∧ (s.pa_to_page pa).order = o.order := by
  obtain ⟨free, live, hbuddy, hown⟩ := h
  obtain ⟨b, hb, rfl, horder⟩ := (hown pa o.order).mp (by rw [hpa]; rfl)
  rw [← horder]
  exact hbuddy.live_page b hb

theorem refcount_pos (h : Pages s own) (hpa : own pa ≠ none) : 1 ≤ (s.pa_to_page pa).refcount := by
  obtain ⟨o, ho⟩ := Option.ne_none_iff_exists'.mp hpa
  exact (h.page ho).1

/-- Pages are apart from each other. -/
theorem apart (h : Pages s own) (ha : own pa ≠ none) (hb : own pb ≠ none) (hne : pa ≠ pb) :
    pa + PG_SIZE ≤ pb ∨ pb + PG_SIZE ≤ pa := by
  have ha := (h.range ha).1
  have hb := (h.range hb).1
  simp only [PG_SIZE] at *
  omega

theorem apart_of (h : Pages s own) {o' : Owner} (ha : own pa = some o) (hb : own pb = some o') (hne : pa ≠ pb) :
    pa + PG_SIZE ≤ pb ∨ pb + PG_SIZE ≤ pa := h.apart (by rw [ha]; simp) (by rw [hb]; simp) hne

theorem pageIdx_ne (h : Pages s own) (ha : own pa ≠ none) (hb : own pb ≠ none) (hne : pa ≠ pb) :
    Kmem.pageIdx pa ≠ Kmem.pageIdx pb := fun heq =>
  hne (pageIdx_inj (h.range ha).2.1 (h.range hb).2.1 (h.range ha).1 (h.range hb).1 heq)

/-- The whole of a block is managed memory. -/
theorem extent (h : Pages s own) (hpa : own pa = some o) :
    o.order ≤ MAX_ORDER ∧ pa % (PG_SIZE <<< o.order) = 0 ∧ s.free_start ≤ pa ∧
      pa + PG_SIZE <<< o.order ≤ PHYS_STOP := by
  obtain ⟨free, live, hbuddy, hown⟩ := h
  obtain ⟨b, hb, rfl, horder⟩ := (hown pa o.order).mp (by rw [hpa]; rfl)
  rw [← horder]
  refine ⟨hbuddy.live_order b hb, ?_, hbuddy.range_of_held hb⟩
  simp only [blockAddr, Block.base, PG_SIZE_shiftLeft, Nat.mul_assoc]
  exact Nat.mul_mod_left _ _

/-- Blocks are apart from each other. -/
theorem blocks_apart (h : Pages s own) {o' : Owner} (hpa : own pa = some o) (hpb : own pb = some o') (hne : pa ≠ pb) :
    pa + PG_SIZE <<< o.order ≤ pb ∨ pb + PG_SIZE <<< o'.order ≤ pa := by
  obtain ⟨free, live, hbuddy, hown⟩ := h
  obtain ⟨b, hb, rfl, hborder⟩ := (hown pa o.order).mp (by rw [hpa]; rfl)
  obtain ⟨c, hc, rfl, hcorder⟩ := (hown pb o'.order).mp (by rw [hpb]; rfl)
  rw [← hborder, ← hcorder]
  by_contra hover
  -- the larger of the two addresses would be in both blocks
  have hbpos := shiftLeft_pos b.order
  have hcpos := shiftLeft_pos c.order
  have hboth : ∃ x, b.Has (x / PG_SIZE) ∧ c.Has (x / PG_SIZE) := by
    simp only [has_div_iff]
    exact ⟨max (blockAddr b) (blockAddr c), by omega, by omega⟩
  obtain ⟨x, hbx, hcx⟩ := hboth
  exact hne (by rw [hbuddy.tiled.live_unique hb hc hbx hcx])

/-- No part of a block is on a free list. -/
theorem apart_of_free (h : Pages s own) (hpa : own pa = some o) {q : Nat} (hk : k ≤ MAX_ORDER)
    (hq : q ∈ Chain.walk s.next (NR_PAGES + 1) (s.free_areas k).free_list) :
    pa + PG_SIZE <<< o.order ≤ q ∨ q + PG_SIZE <<< k ≤ pa := by
  obtain ⟨free, live, hbuddy, hown⟩ := h
  obtain ⟨b, hb, rfl, horder⟩ := (hown pa o.order).mp (by rw [hpa]; rfl)
  rw [Chain.walk_eq (hbuddy.chain k hk) (by rw [List.length_map]; exact Nat.le_succ_of_le (hbuddy.length_le hk))] at hq
  obtain ⟨i, hi, rfl⟩ := List.mem_map.mp hq
  rw [← horder]
  by_contra hover
  have hbpos := shiftLeft_pos b.order
  have hkpos := shiftLeft_pos k
  obtain ⟨x, hbx, hkx⟩ : ∃ x, b.Has (x / PG_SIZE) ∧ Block.Has ⟨k, i⟩ (x / PG_SIZE) := by
    simp only [has_div_iff]
    exact ⟨max (blockAddr b) (blockAddr ⟨k, i⟩), by omega, by omega⟩
  exact hbuddy.tiled.not_live_of_free hk hi hkx hb hbx

/-- The users of blocks may write them and the fields of their `struct page`, as
long as a reference remains. -/
theorem congr_blocks (h : Pages s own) (hareas : t.free_areas = s.free_areas) (hstart : t.free_start = s.free_start)
    (hmem : ∀ x, (∀ pa o, own pa = some o → ¬ (pa ≤ x ∧ x < pa + PG_SIZE <<< o.order)) → t.mem x = s.mem x)
    (hpages : ∀ n, (∀ pa, own pa ≠ none → n ≠ Kmem.pageIdx pa) → t.pages n = s.pages n)
    (howned : ∀ pa, own pa ≠ none →
      1 ≤ (t.pa_to_page pa).refcount ∧ (t.pa_to_page pa).order = (s.pa_to_page pa).order) :
    Pages t own := by
  obtain ⟨free, live, hbuddy, hown⟩ := h
  have howned' : ∀ b ∈ live, own (blockAddr b) ≠ none := by
    intro b hb hnone
    have hsome := (hown (blockAddr b) b.order).mpr ⟨b, hb, rfl, rfl⟩
    rw [hnone] at hsome
    cases hsome
  refine ⟨free, live, ⟨?_, hbuddy.coalesced, hbuddy.live_order, ?_, ?_⟩, hown⟩
  · apply hbuddy.toFreeInv.of_mem hareas hstart
    rintro a ⟨k, hk, hfree⟩
    apply hmem
    intro pa o hpa hin
    obtain ⟨b, hb, rfl, horder⟩ := (hown pa o.order).mp (by rw [hpa]; rfl)
    rw [← horder] at hin
    exact hbuddy.tiled.not_live_of_free hk hfree rfl hb ((has_div_iff b a).mpr hin)
  · intro b hb
    have hpage := howned _ (howned' b hb)
    exact ⟨hpage.1, hpage.2.trans (hbuddy.live_page b hb).2⟩
  · intro n hlo hhi hnot
    rw [hstart] at hlo
    rw [← hbuddy.other_page n hlo hhi hnot]
    unfold Kmem.pa_to_page
    rw [hpages]
    intro pa hpa heq
    obtain ⟨b, hb, rfl, -⟩ := block_of_owned hown hpa
    have hstart_ge := hbuddy.start_ge
    have hrange := hbuddy.range_of_held hb
    have haddr := pageIdx_inj (by omega) (by omega) (by simp) (blockAddr_aligned b) heq
    apply hnot b hb
    rw [← blockAddr_div, ← haddr]
    simp [PG_SIZE]

/-- The same where only the first page of each block is written. -/
theorem congr (h : Pages s own) (hareas : t.free_areas = s.free_areas) (hstart : t.free_start = s.free_start)
    (hmem : ∀ x, (∀ pa, own pa ≠ none → ¬ (pa ≤ x ∧ x < pa + PG_SIZE)) → t.mem x = s.mem x)
    (hpages : ∀ n, (∀ pa, own pa ≠ none → n ≠ Kmem.pageIdx pa) → t.pages n = s.pages n)
    (howned : ∀ pa, own pa ≠ none →
      1 ≤ (t.pa_to_page pa).refcount ∧ (t.pa_to_page pa).order = (s.pa_to_page pa).order) :
    Pages t own := by
  refine h.congr_blocks hareas hstart (fun x hx => hmem x fun pa hpa hin => ?_) hpages howned
  obtain ⟨o, ho⟩ := Option.ne_none_iff_exists'.mp hpa
  have hle := le_shiftLeft o.order
  exact hx pa o ho ⟨hin.1, by omega⟩

/-- Writing memory inside pages in use. -/
theorem write (h : Pages s own) {m : Mem}
    (hmem : ∀ x, (∀ pa, own pa ≠ none → ¬ (pa ≤ x ∧ x < pa + PG_SIZE)) → m x = s.mem x) :
    Pages { s with mem := m } own :=
  h.congr rfl rfl hmem (fun _ _ => rfl) fun _ hpa => ⟨h.refcount_pos hpa, rfl⟩

/-- Writing the `struct page` of a page in use. -/
theorem setPage (h : Pages s own) (hpa : own pa ≠ none) {pg : Page} (href : 1 ≤ pg.refcount)
    (horder : pg.order = (s.pa_to_page pa).order) : Pages (s.setPage pa pg) own := by
  apply h.congr (t := s.setPage pa pg) rfl rfl (fun _ _ => rfl)
  · intro n hn
    simp only [Kmem.setPage, Function.update_of_ne (hn pa hpa)]
  · intro q hq
    by_cases hqa : q = pa
    · subst hqa
      rw [pa_to_page_setPage_self]
      exact ⟨href, horder⟩
    · rw [pa_to_page_setPage_of_ne s pg (h.pageIdx_ne hq hpa hqa)]
      exact ⟨h.refcount_pos hq, rfl⟩

/-- A block of order `k` is taken, unless none of that order or a higher one is
free. -/
theorem kalloc_pages_spec (h : Pages s own) (hk : k ≤ MAX_ORDER) :
    wp (kalloc_pages k) (fun pg s' =>
      (pg = 0 ∧ s' = s ∧ ∀ j, k ≤ j → j ≤ MAX_ORDER → (s.free_areas j).free_list = 0) ∨
      Held k s s' own pg ∧ ∀ x, pg ≤ x → x < pg + PG_SIZE → s'.mem x = 0) s := by
  obtain ⟨free, live, hbuddy, hown⟩ := h
  refine wp_mono (buddy_alloc_spec hbuddy hk) ?_
  rintro pg s' (⟨rfl, rfl, hempty⟩ | ⟨free', i, rfl, hne, hbuddy', halloc⟩)
  · refine .inl ⟨rfl, rfl, fun j hj hmax => ?_⟩
    exact (hbuddy.chain j hmax).head_eq_zero_iff.mpr (by rw [hempty j hj hmax]; rfl)
  right
  have hmem : ∀ b ∈ live, b ∈ (⟨k, i⟩ : Block) :: live := fun b hb => List.mem_cons_of_mem _ hb
  -- a block in use at the same address would share its first page
  have hother : ∀ b ∈ live, blockAddr b ≠ blockAddr ⟨k, i⟩ := by
    intro b hb heq
    refine hbuddy'.pageIdx_live_ne (hmem b hb) List.mem_cons_self ?_ (by rw [heq])
    rintro rfl
    exact (List.nodup_cons.mp hbuddy'.tiled.live_nodup).1 hb
  have hfree : own (blockAddr ⟨k, i⟩) = none := by
    by_contra hsome
    obtain ⟨b, hb, heq, -⟩ := block_of_owned hown hsome
    exact hother b hb heq
  refine ⟨⟨hne, hfree, ?_, halloc.refcount_self, ?_, halloc.free_start, halloc.size_classes⟩,
    fun x hlo hhi => halloc.zero x (has_of_page hlo hhi)⟩
  · intro o ho
    refine ⟨free', _, hbuddy', fun pa n => ?_⟩
    by_cases hpa : pa = blockAddr ⟨k, i⟩
    · subst hpa
      rw [Function.update_self, Option.map_some, ho, Option.some.injEq]
      constructor
      · rintro rfl
        exact ⟨_, List.mem_cons_self, rfl, rfl⟩
      · rintro ⟨b, hb, heq, rfl⟩
        rcases List.mem_cons.mp hb with rfl | hb
        · rfl
        · exact absurd heq (hother b hb)
    · rw [Function.update_of_ne hpa, hown]
      simp only [List.mem_cons, exists_eq_or_imp]
      exact (or_iff_right fun heq => hpa heq.1.symm).symm
  · intro pa hpa
    obtain ⟨b, hb, rfl, -⟩ := block_of_owned hown hpa
    have hbne : b ≠ ⟨k, i⟩ := fun heq => hother b hb (by rw [heq])
    have hidx := hbuddy'.pageIdx_live_ne (hmem b hb) List.mem_cons_self hbne
    refine ⟨fun x hlo hhi => halloc.mem_frame x ?_, ?_⟩
    · rintro ⟨j, hj, hfree⟩
      exact hbuddy.tiled.not_live_of_free hj hfree rfl hb (has_of_page hlo hhi)
    · have hrefs := halloc.refcount_frame _ hidx
      obtain ⟨hflags, hslab⟩ := halloc.owners (Kmem.pageIdx (blockAddr b))
      have horder := (hbuddy'.live_page b (hmem b hb)).2.trans (hbuddy.live_page b hb).2.symm
      unfold Kmem.pa_to_page at *
      cases hold : s.pages (Kmem.pageIdx (blockAddr b))
      cases hnew : s'.pages (Kmem.pageIdx (blockAddr b))
      simp_all

theorem kalloc_spec (h : Pages s own) :
    wp kalloc (fun pg s' => (pg = 0 ∧ s' = s ∧ Exhausted s) ∨ Fresh s s' own pg) s := by
  refine wp_mono (h.kalloc_pages_spec (Nat.zero_le MAX_ORDER)) ?_
  rintro pg s' (⟨rfl, rfl, hempty⟩ | ⟨hheld, hzero⟩)
  · exact .inl ⟨rfl, rfl, fun k hk => hempty k (Nat.zero_le k) hk⟩
  · exact .inr ⟨hheld, hzero⟩

/-- Once no block is free every page lies in a block in use. -/
theorem covered_of_exhausted (h : Pages s own) (hex : Exhausted s) (hlo : s.free_start ≤ pa) (hhi : pa < PHYS_STOP) :
    ∃ pb o, own pb = some o ∧ pb ≤ pa ∧ pa < pb + PG_SIZE <<< o.order := by
  obtain ⟨free, live, hbuddy, hown⟩ := h
  have hrange : s.free_start / PG_SIZE ≤ pa / PG_SIZE ∧ pa / PG_SIZE < PHYS_STOP / PG_SIZE := by
    simp only [PG_SIZE, PHYS_STOP] at *
    omega
  obtain ⟨k, hk, hfree⟩ | ⟨b, hb, hhas⟩ := hbuddy.tiled.covered hrange.1 hrange.2
  · have hnil := (hbuddy.chain k hk).head_eq_zero_iff.mp (hex k hk)
    rw [List.map_eq_nil_iff.mp hnil] at hfree
    cases hfree
  have hsome := (hown (blockAddr b) b.order).mpr ⟨b, hb, rfl, rfl⟩
  obtain ⟨o, ho, horder⟩ := Option.map_eq_some_iff.mp hsome
  refine ⟨blockAddr b, o, ho, ?_⟩
  rw [horder]
  exact (has_div_iff b pa).mp hhas

theorem owned_of_exhausted (h : Pages s own) (hex : Exhausted s) (hsmall : ∀ pa o, own pa = some o → o.order = 0)
    (haligned : pa % PG_SIZE = 0) (hlo : s.free_start ≤ pa) (hhi : pa < PHYS_STOP) : own pa ≠ none := by
  obtain ⟨pb, o, ho, hbase⟩ := h.covered_of_exhausted hex hlo hhi
  have halignedb := (h.range_of ho).1
  rw [hsmall _ o ho] at hbase
  have haddr : pa = pb := by
    simp only [PG_SIZE, Nat.shiftLeft_zero] at *
    omega
  rw [haddr, ho]
  simp

/-- A page that starts no block in use has no references. -/
theorem refcount_zero (h : Pages s own) (hnone : own pa = none) (haligned : pa % PG_SIZE = 0) (hlo : s.free_start ≤ pa)
    (hhi : pa < PHYS_STOP) : (s.pa_to_page pa).refcount = 0 := by
  obtain ⟨free, live, hbuddy, hown⟩ := h
  have hmul : pa / PG_SIZE * PG_SIZE = pa := Nat.div_mul_cancel (Nat.dvd_of_mod_eq_zero haligned)
  have hzero := hbuddy.other_page (pa / PG_SIZE) (by rwa [hmul]) (by rwa [hmul]) fun b hb hbase => by
    have haddr : blockAddr b = pa := by rw [blockAddr, hbase, hmul]
    have hsome := (hown pa b.order).mpr ⟨b, hb, haddr, rfl⟩
    rw [hnone] at hsome
    cases hsome
  rwa [hmul] at hzero

/-- A block with a single reference can be given back. -/
theorem kfree_pages_spec (h : Pages s own) (hpa : own pa = some o) (href : (s.pa_to_page pa).refcount = 1) :
    wp (kfree_pages pa o.order) (fun _ s' => Pages s' (Function.update own pa none) ∧
      (∀ q, own q ≠ none → q ≠ pa → SamePage s s' q) ∧ s'.free_start = s.free_start ∧
      s'.size_classes = s.size_classes) s := by
  obtain ⟨free, live, hbuddy, hown⟩ := h
  obtain ⟨b, hb, rfl, horder⟩ := (hown pa o.order).mp (by rw [hpa]; rfl)
  have hspec := buddy_free_spec hbuddy hb href
  rw [horder] at hspec
  refine wp_mono hspec ?_
  rintro _ s' ⟨free', hbuddy', hfreed⟩
  have hcut : ∀ c ∈ live, blockAddr c ≠ blockAddr b → c ∈ live.erase b := fun c hc hne =>
    (List.mem_erase_of_ne fun heq => hne (by rw [heq])).mpr hc
  refine ⟨⟨free', _, hbuddy', fun q n => ?_⟩, ?_, hfreed.free_start, hfreed.size_classes⟩
  · by_cases hq : q = blockAddr b
    · subst hq
      rw [Function.update_self, Option.map_none]
      refine iff_of_false (by simp) ?_
      rintro ⟨c, hc, heq, -⟩
      obtain ⟨hne, hmem⟩ := (hbuddy.tiled.live_nodup.mem_erase_iff).mp hc
      refine hbuddy.pageIdx_live_ne hmem hb hne ?_
      rw [heq]
    · rw [Function.update_of_ne hq, hown]
      constructor
      · rintro ⟨c, hc, rfl, hn⟩
        exact ⟨c, hcut c hc hq, rfl, hn⟩
      · rintro ⟨c, hc, rfl, hn⟩
        exact ⟨c, List.mem_of_mem_erase hc, rfl, hn⟩
  · intro q hq hne
    obtain ⟨c, hc, rfl, -⟩ := block_of_owned hown hq
    have hidx := hbuddy.pageIdx_live_ne hc hb fun heq => hne (by rw [heq])
    refine ⟨fun x hlo hhi => hfreed.mem_frame x ?_ ?_, hfreed.page_frame _ hidx⟩
    · rintro ⟨k, hk, hfree⟩
      exact hbuddy.tiled.not_live_of_free hk hfree rfl hc (has_of_page hlo hhi)
    · intro hhas
      exact hne (by rw [hbuddy.tiled.live_unique hc hb (has_of_page hlo hhi) hhas])

theorem kfree_spec (h : Pages s own) (hpa : own pa = some o) (ho : o.order = 0)
    (href : (s.pa_to_page pa).refcount = 1) :
    wp (kfree pa) (fun _ s' => Pages s' (Function.update own pa none) ∧
      (∀ q, own q ≠ none → q ≠ pa → SamePage s s' q) ∧ s'.free_start = s.free_start ∧
      s'.size_classes = s.size_classes) s := by
  have hspec := h.kfree_pages_spec hpa href
  rw [ho] at hspec
  exact hspec

/-- There are no more distinct pages than DRAM has. -/
theorem length_le (h : Pages s own) {l : List Nat} (hnodup : l.Nodup) (hl : ∀ pa ∈ l, own pa ≠ none) :
    l.length ≤ NR_PAGES := by
  have hsub : ∀ n ∈ l.map (· / PG_SIZE), n ∈ List.range' (KERN_BASE / PG_SIZE) NR_PAGES := by
    intro n hn
    obtain ⟨pa, hpa, rfl⟩ := List.mem_map.mp hn
    have hrange := h.range (hl pa hpa)
    rw [List.mem_range'_1]
    simp only [NR_PAGES, KERN_BASE, PHYS_STOP, PG_SIZE, PG_SHIFT] at *
    omega
  have hmap : (l.map (· / PG_SIZE)).Nodup := by
    apply hnodup.map_on
    intro a ha b hb heq
    have haligned := (h.range (hl a ha)).1
    have hbaligned := (h.range (hl b hb)).1
    simp only [PG_SIZE] at *
    omega
  simpa using (List.subperm_of_subset hmap hsub).length_le

end Pages

/-- The user of a new page fills it. -/
theorem Held.write {s s' : Kmem} {own : Nat → Option Owner} {pg : Nat} {m : Mem} (h : Held 0 s s' own pg)
    (hmem : ∀ x, ¬ (pg ≤ x ∧ x < pg + PG_SIZE) → m x = s'.mem x) : Held 0 s { s' with mem := m } own pg := by
  refine ⟨h.ne_zero, h.was_free, fun o ho => (h.pages o ho).write ?_, h.refcount, fun pa hpa => ?_, h.free_start,
    h.size_classes⟩
  · intro x hx
    exact hmem x (hx pg (by simp))
  · have hne : pa ≠ pg := by
      rintro rfl
      exact hpa h.was_free
    refine ⟨fun x hlo hhi => ?_, (h.same pa hpa).page⟩
    have hapart := (h.pages .loose rfl).apart (show Function.update own pg (some .loose) pa ≠ none by rwa [Function.update_of_ne hne])
      (by simp) hne
    exact (hmem x (by omega)).trans ((h.same pa hpa).mem x hlo hhi)

theorem Exhausted.low {s : Kmem} {own : Nat → Option Owner} (hex : Exhausted s) (h : Pages s own)
    (hsmall : ∀ pa o, own pa = some o → o.order = 0) : Low s := by
  refine ⟨0, fun pa haligned hlo hhi _ => ?_⟩
  have hpage := h.refcount_pos (h.owned_of_exhausted hex hsmall haligned hlo hhi)
  omega

/-- Giving back one page of an exhausted memory. -/
theorem Exhausted.low_of_kfree {s s' : Kmem} {own : Nat → Option Owner} {pg : Nat} (hex : Exhausted s)
    (h : Pages s own) (hsmall : ∀ pa o, own pa = some o → o.order = 0)
    (hsame : ∀ q, own q ≠ none → q ≠ pg → SamePage s s' q) (hstart : s'.free_start = s.free_start) : Low s' := by
  refine ⟨pg, fun pa haligned hlo hhi hne => ?_⟩
  have hown := h.owned_of_exhausted hex hsmall haligned (hstart ▸ hlo) hhi
  have hpage := h.refcount_pos hown
  rw [(hsame pa hown hne).page]
  omega

/-- Only pages with an owner in `T` were touched, taken or given back. Every
other page in use keeps its owner and its contents. -/
structure Touches (T : Owner → Prop) (s s' : Kmem) (own own' : Nat → Option Owner) : Prop where
  owner : ∀ pa o, ¬ T o → (own' pa = some o ↔ own pa = some o)
  same : ∀ pa o, own pa = some o → ¬ T o → SamePage s s' pa
  free_start : s'.free_start = s.free_start
  classes : (∀ c, ¬ T (.slab c)) → s'.size_classes = s.size_classes

namespace Touches

variable {T U : Owner → Prop} {s s' s'' : Kmem} {own own' own'' : Nat → Option Owner} {pa pg : Nat} {o : Owner}

theorem refl (T : Owner → Prop) (s : Kmem) (own : Nat → Option Owner) : Touches T s s own own :=
  ⟨fun _ _ _ => Iff.rfl, fun pa _ _ _ => .refl s pa, rfl, fun _ => rfl⟩

theorem trans (h : Touches T s s' own own') (h' : Touches T s' s'' own' own'') :
    Touches T s s'' own own'' := by
  refine ⟨fun pa o ho => (h'.owner pa o ho).trans (h.owner pa o ho), ?_,
    h'.free_start.trans h.free_start, fun hT => (h'.classes hT).trans (h.classes hT)⟩
  intro pa o hpa ho
  exact (h.same pa o hpa ho).trans (h'.same pa o ((h.owner pa o ho).mpr hpa) ho)

theorem mono (h : Touches T s s' own own') (hTU : ∀ o, T o → U o) : Touches U s s' own own' :=
  ⟨fun pa o ho => h.owner pa o (mt (hTU o) ho), fun pa o hpa ho => h.same pa o hpa (mt (hTU o) ho),
    h.free_start, fun hU => h.classes fun c => mt (hTU _) (hU c)⟩

theorem of_held {k : Nat} (h : Held k s s' own pg) (ho : T o) :
    Touches T s s' own (Function.update own pg (some o)) := by
  refine ⟨fun pa o' ho' => ?_, fun pa o' hpa _ => h.same pa (by rw [hpa]; simp), h.free_start,
    fun _ => h.size_classes⟩
  by_cases hpa : pa = pg
  · subst hpa
    rw [Function.update_self, h.was_free, Option.some_inj]
    refine iff_of_false ?_ (by simp)
    rintro rfl
    exact ho' ho
  · rw [Function.update_of_ne hpa]

/-- Changing the owner of one page, with the state as it is. -/
theorem update_own {r : Option Owner} (ho : ∀ o, own pa = some o → T o) (hr : ∀ o, r = some o → T o) :
    Touches T s s own (Function.update own pa r) := by
  refine ⟨fun q o hTo => ?_, fun q _ _ _ => .refl s q, rfl, fun _ => rfl⟩
  by_cases hq : q = pa
  · subst hq
    rw [Function.update_self]
    exact iff_of_false (fun h => hTo (hr o h)) (fun h => hTo (ho o h))
  · rw [Function.update_of_ne hq]

theorem of_kfree (hpa : own pa = some o) (ho : T o)
    (hsame : ∀ q, own q ≠ none → q ≠ pa → SamePage s s' q) (hstart : s'.free_start = s.free_start)
    (hclasses : s'.size_classes = s.size_classes) :
    Touches T s s' own (Function.update own pa none) := by
  refine ⟨fun q o' ho' => ?_, fun q o' hq ho' => ?_, hstart, fun _ => hclasses⟩
  · by_cases hq : q = pa
    · subst hq
      rw [Function.update_self, hpa, Option.some_inj]
      refine iff_of_false (by simp) ?_
      rintro rfl
      exact ho' ho
    · rw [Function.update_of_ne hq]
  · apply hsame q (by rw [hq]; simp)
    rintro rfl
    rw [hpa, Option.some_inj] at hq
    exact ho' (hq ▸ ho)

/-- A page that was taken and given back in between. -/
theorem of_loan {s₀ : Kmem} {own₀ : Nat → Option Owner} (hh : Held 0 s₀ s own₀ pg)
    (h : Touches T s s' (Function.update own₀ pg (some o)) own')
    (hsame : ∀ q, own' q ≠ none → q ≠ pg → SamePage s' s'' q) (hstart : s''.free_start = s'.free_start)
    (hclasses : s''.size_classes = s'.size_classes) :
    Touches T s₀ s'' own₀ (Function.update own' pg none) := by
  refine ⟨fun pa o' ho' => ?_, fun pa o' hpa ho' => ?_, (hstart.trans h.free_start).trans hh.free_start,
    fun hT => (hclasses.trans (h.classes hT)).trans hh.size_classes⟩
  · by_cases hpg : pa = pg
    · subst hpg
      exact iff_of_false (by simp) (by simp [hh.was_free])
    · rw [Function.update_of_ne hpg, h.owner pa o' ho', Function.update_of_ne hpg]
  · have hpg : pa ≠ pg := by
      rintro rfl
      rw [hh.was_free] at hpa
      cases hpa
    have hmid : Function.update own₀ pg (some o) pa = some o' := by rw [Function.update_of_ne hpg, hpa]
    have hend := (h.owner pa o' ho').mpr hmid
    exact ((hh.same pa (by rw [hpa]; simp)).trans (h.same pa o' hmid ho')).trans
      (hsame pa (by rw [hend]; simp) hpg)

/-- Writing inside pages whose owner is in `T`. -/
theorem write (h : Pages s own) {m : Mem}
    (hmem : ∀ x, (∀ pa o, own pa = some o → T o → ¬ (pa ≤ x ∧ x < pa + PG_SIZE)) → m x = s.mem x) :
    Touches T s { s with mem := m } own own := by
  refine ⟨fun _ _ _ => Iff.rfl, fun pa o hpa ho => ⟨fun x hlo hhi => ?_, rfl⟩, rfl, fun _ => rfl⟩
  apply hmem
  intro q o' hq ho' hin
  by_cases hqp : q = pa
  · subst hqp
    rw [hpa, Option.some_inj] at hq
    exact ho (hq ▸ ho')
  · have hapart := h.apart_of hq hpa hqp
    omega

/-- Writing the `struct page` of a page whose owner is in `T`. -/
theorem setPage (h : Pages s own) (hpa : own pa = some o) (ho : T o) (page : Page) :
    Touches T s (s.setPage pa page) own own := by
  refine ⟨fun _ _ _ => Iff.rfl, fun q o' hq ho' => ⟨fun _ _ _ => rfl, ?_⟩, rfl, fun _ => rfl⟩
  apply pa_to_page_setPage_of_ne
  apply h.pageIdx_ne (by rw [hq]; simp) (by rw [hpa]; simp)
  rintro rfl
  rw [hpa, Option.some_inj] at hq
  exact ho' (hq ▸ ho)

end Touches

end bobchouos
