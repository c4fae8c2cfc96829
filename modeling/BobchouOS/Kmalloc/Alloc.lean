import BobchouOS.Kmalloc.Slabs

open lib

namespace bobchouos

variable {s s' : Kmem} {own : Nat → Option Owner} {lists frees : Nat → List Nat} {objs : List Nat}
  {n c pg x : Nat} {rest : List Nat}

theorem setSlab_of_ne (hp : Pages s own) (hpg : own pg ≠ none) (slab : SlabInfo) {q : Nat} (hq : own q ≠ none)
    (hne : q ≠ pg) : SamePage s (s.setSlab pg slab) q :=
  ⟨fun _ _ _ => rfl, pa_to_page_setPage_of_ne _ _ (hp.pageIdx_ne hq hpg hne)⟩

theorem Pages.setSlab (hp : Pages s own) (hpg : own pg ≠ none) (slab : SlabInfo) :
    Pages (s.setSlab pg slab) own := hp.setPage hpg (hp.refcount_pos hpg) rfl

theorem Pages.setSlabs (hp : Pages s own) (c v : Nat) : Pages (s.setSlabs c v) own :=
  hp.congr rfl rfl (fun _ _ => rfl) (fun _ _ => rfl) fun _ hq => ⟨hp.refcount_pos hq, rfl⟩

theorem setSlabs_same (s : Kmem) (c v q : Nat) : SamePage s (s.setSlabs c v) q := ⟨fun _ _ _ => rfl, rfl⟩

/-- `kmalloc` takes the first free slot of a slab that has one. -/
theorem takeSlot_spec (hp : Pages s own) (h : SlabInv n s own lists frees objs) (hc : c < n)
    (hpg : pg ∈ lists c) (hfree : frees pg = x :: rest) :
    wp (takeSlot pg) (fun r s' => r = x ∧ Pages s' own ∧
      SlabInv n s' own lists (Function.update frees pg rest) (x :: objs) ∧ x ∉ objs ∧
      (s'.pa_to_page pg).slab.nr_alloc ≠ 0 ∧ (∀ q, own q ≠ none → q ≠ pg → SamePage s s' q) ∧
      s'.free_start = s.free_start ∧ s'.size_classes = s.size_classes) s := by
  have hown := h.owned_of_mem hc hpg
  have hsome : own pg ≠ none := by rw [hown]; simp
  have hpage := h.page c hc pg hpg
  rw [hfree] at hpage
  have hslot : x ∈ slotsOf c pg := hpage.inside x (by simp)
  have hnew : x ∉ objs := (hpage.slots x hslot).mp (by simp)
  obtain ⟨hhead, -, htail⟩ := hpage.chain
  have hcount := hpage.count
  rw [List.length_cons] at hcount
  have hslots := nrSlots_pos (h.lt hc)
  unfold takeSlot
  simp only [wp_bind, wp_get, wp_modify, wp_pure]
  set info := (s.pa_to_page pg).slab with hinfo
  set t := s.setSlab pg { info with nr_alloc := (info.nr_alloc + 1) % 2 ^ 16, free_list := s.next info.free_list }
    with ht
  have hself : t.pa_to_page pg = { s.pa_to_page pg with
      slab := { info with nr_alloc := (info.nr_alloc + 1) % 2 ^ 16, free_list := s.next info.free_list } } := by
    rw [ht, Kmem.setSlab, pa_to_page_setPage_self]
  have hnr : (info.nr_alloc + 1) % 2 ^ 16 = info.nr_alloc + 1 := Nat.mod_eq_of_lt (by omega)
  have hother : ∀ q, own q ≠ none → q ≠ pg → SamePage s t q := fun q hq hne =>
    setSlab_of_ne hp hsome _ hq hne
  have hlink : ∀ q, own q ≠ none →
      (t.pa_to_page q).slab.next_slab = (s.pa_to_page q).slab.next_slab := by
    intro q hq
    by_cases hne : q = pg
    · subst hne
      rw [hself]
    · rw [(hother q hq hne).page]
  refine ⟨hhead, hp.setSlab hsome _, ⟨h.classes, h.sizes, ?_, h.nodup, h.owned, ?_, ?_, ?_⟩, hnew, ?_, hother, rfl, rfl⟩
  · intro c' hc'
    apply (h.chain c' hc').congr
    intro q hq
    exact hlink q (by rw [h.owned_of_mem hc' hq]; simp)
  · intro c' hc' q hq
    have hq' := h.owned_of_mem hc' hq
    by_cases hne : q = pg
    · subst hne
      obtain rfl : c' = c := by
        rw [hown] at hq'
        simpa using hq'.symm
      rw [Function.update_self]
      refine ⟨by rw [hself]; exact hpage.flags, by rw [hself]; exact hpage.refcount,
        by rw [hself]; exact hpage.class_idx, ?_, hpage.nodup.of_cons,
        fun y hy => hpage.inside y (by simp [hy]), fun y hy => ?_, ?_⟩
      · rw [hself]
        dsimp only
        rw [hhead]
        exact htail
      · have hiff := hpage.slots y hy
        have hx := (List.nodup_cons.mp hpage.nodup).1
        simp only [List.mem_cons, not_or] at hiff ⊢
        constructor
        · intro hmem
          exact ⟨fun heq => hx (heq ▸ hmem), hiff.mp (.inr hmem)⟩
        · rintro ⟨hyx, hmem⟩
          exact (hiff.mpr hmem).resolve_left hyx
      · rw [hself]
        dsimp only
        omega
    · rw [Function.update_of_ne hne]
      apply (hother q (by rw [hq']; simp) hne).slabPage (h.lt hc') (h.page c' hc' q hq)
      intro y hy
      rw [List.mem_cons, or_iff_right]
      rintro rfl
      exact hne (h.page_unique hp hq' hown hy hslot)
  · exact List.nodup_cons.mpr ⟨hnew, h.objs_nodup⟩
  · intro y hy
    rcases List.mem_cons.mp hy with rfl | hy
    · exact ⟨c, pg, hown, hslot⟩
    · exact h.objs_slot y hy
  · rw [hself]
    dsimp only
    omega

/-- The slots of a page that is new to the slab allocator hold no object. -/
theorem SlabInv.not_mem_objs (h : SlabInv n s own lists frees objs) (hp : Pages s' (Function.update own pg (some (.slab c))))
    (hpg : own pg = none) (hc : c < NR_SIZE_CLASSES) (hx : x ∈ slotsOf c pg) : x ∉ objs := by
  intro hobj
  obtain ⟨c', pg', hown, hslot⟩ := h.objs_slot x hobj
  have hc' := h.lt ((h.owned c' pg').mp hown).1
  have hne : pg' ≠ pg := by
    rintro rfl
    rw [hpg] at hown
    cases hown
  have hapart := hp.apart_of (by rw [Function.update_of_ne hne, hown]) (Function.update_self ..) hne
  have hb := slot_bounds hc hx
  have hb' := slot_bounds hc' hslot
  have hsize := slotSize_ge hc
  have hsize' := slotSize_ge hc'
  omega

/-- A new slab: all its slots are free. -/
structure Created (s s' : Kmem) (own : Nat → Option Owner) (c pg : Nat) (objs : List Nat) : Prop where
  ne_zero : pg ≠ 0
  was_free : own pg = none
  pages : Pages s' (Function.update own pg (some (.slab c)))
  page : SlabPage s' c pg (slotsOf c pg) objs
  same : ∀ q, own q ≠ none → SamePage s s' q
  free_start : s'.free_start = s.free_start
  size_classes : s'.size_classes = s.size_classes

theorem slab_create_spec (hp : Pages s own) (hc : c < NR_SIZE_CLASSES)
    (hsize : (s.size_classes c).slot_size = slotSize c)
    (hobjs : ∀ s' pg, Pages s' (Function.update own pg (some (.slab c))) → own pg = none →
      ∀ x ∈ slotsOf c pg, x ∉ objs) :
    wp (slab_create c) (fun pg s' => (pg = 0 ∧ s' = s ∧ Exhausted s) ∨
      Created s s' own c pg objs ∧ (s'.pa_to_page pg).slab.next_slab = 0) s := by
  unfold slab_create
  rw [if_neg (Nat.not_le.mpr hc)]
  simp only [wp_bind]
  refine wp_mono hp.kalloc_spec ?_
  rintro pg s₁ (⟨rfl, rfl, hex⟩ | hfresh)
  · rw [if_pos rfl, wp_pure]
    exact .inl ⟨rfl, rfl, hex⟩
  rw [if_neg hfresh.ne_zero]
  simp only [wp_bind, wp_modify, wp_pure]
  right
  have hpages := hfresh.pages (.slab c) rfl
  have hsome : Function.update own pg (some (.slab c)) pg ≠ none := by simp
  have hrange := hpages.range hsome
  have hpos := nrSlots_pos hc
  have hge := slotSize_ge hc
  have hmul : (nrSlots c - 1) * slotSize c + slotSize c = PG_SIZE := by
    rw [← Nat.succ_mul, Nat.succ_eq_add_one, Nat.sub_add_cancel hpos.1, nrSlots_mul hc]
  set page : Page := { s₁.pa_to_page pg with flags := PG_SLAB, slab := ⟨c, 0, pg, 0⟩ } with hpage
  have hset := hpages.setPage hsome (show 1 ≤ page.refcount by rw [hpage]; exact Nat.le_of_eq hfresh.refcount.symm) rfl
  have hclasses : ((s₁.setPage pg page).size_classes c).slot_size = slotSize c := by
    rw [show (s₁.setPage pg page).size_classes = s₁.size_classes from rfl, hfresh.size_classes, hsize]
  rw [hclasses]
  set m := threadSlots (slotSize c) (PG_SIZE / slotSize c - 1) pg (s₁.setPage pg page).mem with hm
  have hmem : ∀ x, ¬ (pg ≤ x ∧ x < pg + PG_SIZE) → m x = s₁.mem x := by
    intro x hx
    apply threadSlots_of_outside (by omega)
    unfold nrSlots at hmul
    omega
  have hself : ({ s₁.setPage pg page with mem := m } : Kmem).pa_to_page pg = page :=
    pa_to_page_setPage_self s₁ pg page
  refine ⟨⟨hfresh.ne_zero, hfresh.was_free, ?_, ⟨?_, ?_, ?_, ?_, slotsOf_nodup hc pg, fun x hx => hx, ?_, ?_⟩,
    ?_, hfresh.free_start, hfresh.size_classes⟩, by rw [hself]⟩
  · exact hset.write fun x hx => hmem x (hx pg hsome)
  · rw [hself]
  · rw [hself]
    exact hfresh.refcount
  · rw [hself]
  · rw [hself]
    have hchain := chain_threadSlots (show 8 ≤ slotSize c by omega) (PG_SIZE / slotSize c - 1) pg
      (s₁.setPage pg page).mem hfresh.ne_zero (by
        unfold nrSlots at hmul
        simp only [PHYS_STOP] at hrange
        omega)
    rw [show PG_SIZE / slotSize c - 1 + 1 = nrSlots c from Nat.sub_add_cancel hpos.1] at hchain
    exact hchain
  · exact fun x hx => iff_of_true hx (hobjs s₁ pg hpages hfresh.was_free x hx)
  · rw [hself, length_slotsOf]
    exact Nat.zero_add _
  · intro q hq
    have hne : q ≠ pg := by
      rintro rfl
      exact hq hfresh.was_free
    have hq' : Function.update own pg (some (.slab c)) q ≠ none := by
      rw [Function.update_of_ne hne]
      exact hq
    refine (hfresh.same q hq).trans ⟨fun x hlo hhi => hmem x ?_, ?_⟩
    · have hapart := hpages.apart hq' hsome hne
      omega
    · have hkeep := pa_to_page_setPage_of_ne s₁ page (hpages.pageIdx_ne hq' hsome hne)
      unfold Kmem.pa_to_page at hkeep ⊢
      exact hkeep

/-- The link of the new slab is its owner's to set. -/
theorem Created.setNext (h : Created s s' own c pg objs) (hc : c < NR_SIZE_CLASSES) (v : Nat) :
    Created s (s'.setSlab pg { (s'.pa_to_page pg).slab with next_slab := v }) own c pg objs := by
  have hsome : Function.update own pg (some (.slab c)) pg ≠ none := by simp
  refine ⟨h.ne_zero, h.was_free, h.pages.setSlab hsome _, ?_, ?_, h.free_start, h.size_classes⟩
  · refine h.page.congr hc (fun _ _ _ => rfl) ⟨v, ?_⟩ fun _ _ => Iff.rfl
    rw [Kmem.setSlab, pa_to_page_setPage_self]
  · intro q hq
    have hne : q ≠ pg := by
      rintro rfl
      exact hq h.was_free
    refine (h.same q hq).trans (setSlab_of_ne h.pages hsome _ ?_ hne)
    rw [Function.update_of_ne hne]
    exact hq

/-- A slab that links to the head of its class's list becomes the new head. -/
theorem SlabInv.insert (h : SlabInv n s own lists frees objs) (hc : c < n) (hnew : Created s s' own c pg objs)
    (hlink : (s'.pa_to_page pg).slab.next_slab = (s.size_classes c).slabs) :
    SlabInv n (s'.setSlabs c pg) (Function.update own pg (some (.slab c)))
      (Function.update lists c (pg :: lists c)) (Function.update frees pg (slotsOf c pg)) objs := by
  have hold : ∀ c' < n, ∀ q ∈ lists c', q ≠ pg ∧ SamePage s s' q := by
    intro c' hc' q hq
    have hq' := h.owned_of_mem hc' hq
    refine ⟨?_, hnew.same q (by rw [hq']; simp)⟩
    rintro rfl
    rw [hnew.was_free] at hq'
    cases hq'
  have hchain : ∀ c' < n, Chain (fun pg => (s'.pa_to_page pg).slab.next_slab) (s.size_classes c').slabs
      (lists c') := fun c' hc' => (h.chain c' hc').congr fun q hq => by rw [(hold c' hc' q hq).2.page]
  refine ⟨h.classes, ?_, ?_, ?_, ?_, ?_, h.objs_nodup, ?_⟩
  · intro c' hc'
    rw [← h.sizes c' hc']
    by_cases heq : c' = c
    · subst heq
      simp [Kmem.setSlabs, hnew.size_classes]
    · simp [Kmem.setSlabs, Function.update_of_ne heq, hnew.size_classes]
  · intro c' hc'
    by_cases heq : c' = c
    · subst heq
      simp only [Kmem.setSlabs, Function.update_self]
      refine ⟨rfl, hnew.ne_zero, ?_⟩
      have htail := hchain c' hc'
      rw [← hlink] at htail
      exact htail
    · simp only [Kmem.setSlabs, Function.update_of_ne heq, hnew.size_classes]
      exact hchain c' hc'
  · intro c' hc'
    by_cases heq : c' = c
    · subst heq
      rw [Function.update_self, List.nodup_cons]
      exact ⟨fun hmem => (hold c' hc' pg hmem).1 rfl, h.nodup c' hc'⟩
    · rw [Function.update_of_ne heq]
      exact h.nodup c' hc'
  · intro c' q
    by_cases hq : q = pg
    · subst hq
      rw [Function.update_self, Option.some_inj]
      by_cases heq : c' = c
      · subst heq
        simp [hc]
      · rw [Function.update_of_ne heq]
        refine iff_of_false (fun hslab => heq (by simpa using hslab.symm)) ?_
        rintro ⟨hc', hmem⟩
        exact (hold c' hc' q hmem).1 rfl
    · rw [Function.update_of_ne hq, h.owned]
      by_cases heq : c' = c
      · subst heq
        simp [hq]
      · rw [Function.update_of_ne heq]
  · intro c' hc' q hq
    by_cases hqp : q = pg
    · subst hqp
      obtain rfl : c' = c := by
        by_contra heq
        rw [Function.update_of_ne heq] at hq
        exact (hold c' hc' q hq).1 rfl
      rw [Function.update_self]
      exact (setSlabs_same s' c' q q).slabPage (h.lt hc') hnew.page fun _ _ => Iff.rfl
    · have hq : q ∈ lists c' := by
        by_cases heq : c' = c
        · subst heq
          rw [Function.update_self] at hq
          exact (List.mem_cons.mp hq).resolve_left hqp
        · rwa [Function.update_of_ne heq] at hq
      rw [Function.update_of_ne hqp]
      have hsame := (hold c' hc' q hq).2.trans (setSlabs_same s' c pg q)
      exact hsame.slabPage (h.lt hc') (h.page c' hc' q hq) fun _ _ => Iff.rfl
  · intro x hx
    obtain ⟨c', q, hq, hslot⟩ := h.objs_slot x hx
    refine ⟨c', q, ?_, hslot⟩
    rw [Function.update_of_ne, hq]
    rintro rfl
    rw [hnew.was_free] at hq
    cases hq

/-- The search of `kmalloc` returns a slab with a free slot, or null when the
class has none. -/
theorem findFree_spec {l : List Nat} {head fuel : Nat}
    (hchain : Chain (fun pg => (s.pa_to_page pg).slab.next_slab) head l) (hfuel : l.length < fuel) :
    ∃ slab, findFree s fuel head = some slab ∧
      (slab = 0 ∧ (∀ pg ∈ l, (s.pa_to_page pg).slab.free_list = 0) ∨
        slab ∈ l ∧ (s.pa_to_page slab).slab.free_list ≠ 0) := by
  induction l generalizing head fuel with
  | nil =>
    obtain ⟨fuel, rfl⟩ : ∃ k, fuel = k + 1 := ⟨fuel - 1, by simp at hfuel; omega⟩
    have hzero : head = 0 := hchain
    refine ⟨head, ?_, .inl ⟨hzero, by simp⟩⟩
    rw [findFree, if_neg (by simp [hzero])]
  | cons pg l ih =>
    obtain ⟨fuel, rfl⟩ : ∃ k, fuel = k + 1 := ⟨fuel - 1, by simp at hfuel; omega⟩
    obtain ⟨rfl, hpg, htail⟩ := hchain
    by_cases hfree : (s.pa_to_page head).slab.free_list = 0
    · obtain ⟨slab, hfind, hresult⟩ := ih htail (by simpa using hfuel)
      refine ⟨slab, ?_, ?_⟩
      · rw [findFree, if_pos ⟨hpg, hfree⟩]
        exact hfind
      · rcases hresult with ⟨hzero, hall⟩ | ⟨hmem, hne⟩
        · refine .inl ⟨hzero, fun q hq => ?_⟩
          rcases List.mem_cons.mp hq with rfl | hq
          · exact hfree
          · exact hall q hq
        · exact .inr ⟨List.mem_cons_of_mem _ hmem, hne⟩
    · refine ⟨head, ?_, .inr ⟨List.mem_cons_self, hfree⟩⟩
      rw [findFree, if_neg fun hboth => hfree hboth.2]

/-- The class `size_to_class` picks has slots that are large enough. -/
theorem size_to_class_spec {size : Nat} (h : SlabInv NR_SIZE_CLASSES s own lists frees objs)
    (hsize : size ≤ MAX_SLAB_SIZE) :
    ∃ c < NR_SIZE_CLASSES, size_to_class s size = some c ∧ size ≤ slotSize c := by
  cases hfind : size_to_class s size with
  | none =>
    have hnone := List.find?_eq_none.mp hfind 6 (by decide)
    rw [h.sizes 6 (by decide)] at hnone
    exact absurd (show size ≤ slotSize 6 from hsize) (by simpa using hnone)
  | some c =>
    have hc : c < NR_SIZE_CLASSES := List.mem_range.mp (List.mem_of_find?_eq_some hfind)
    have hle := List.find?_some hfind
    rw [h.sizes c hc] at hle
    exact ⟨c, hc, rfl, by simpa using hle⟩

/-- What happens to the slab pages of one class only leaves the others as they are. -/
theorem Touches.of_slab {own' : Nat → Option Owner} (howner : ∀ q o, o ≠ .slab c → (own' q = some o ↔ own q = some o))
    (hsame : ∀ q o, own q = some o → o ≠ .slab c → SamePage s s' q) (hstart : s'.free_start = s.free_start) :
    Touches (· = .slab c) s s' own own' :=
  ⟨howner, hsame, hstart, fun hnone => absurd rfl (hnone c)⟩

/-- A call of the slab allocator on class `c`. A class that has a slab keeps one. -/
structure SlabStep (c : Nat) (s s' : Kmem) (own own' : Nat → Option Owner) (objs : List Nat) : Prop where
  pages : Pages s' own'
  slabs : Slabs s' own' objs
  touches : Touches (· = .slab c) s s' own own'
  stocked : ∀ pg, own pg = some (.slab c) → ∃ pg', own' pg' = some (.slab c)
  flagged : Flagged s own → Flagged s' own'

theorem SlabStep.isSlab {own' : Nat → Option Owner} (h : SlabStep c s s' own own' objs) :
    Touches Owner.IsSlab s s' own own' := h.touches.mono fun _ ho => ⟨c, ho⟩

theorem takeSlot_flags (pg : Nat) (s : Kmem) :
    wpe (fun _ => True) (takeSlot pg) (fun _ s' => SameSlabs s s') s := SameSlabs.setSlab s pg _

/-- The new slab is the only page that gets the flag. -/
theorem slab_create_flags (c : Nat) (s : Kmem) : wpe (fun _ => True) (slab_create c)
    (fun pg s' => ∀ i, (s'.pages i).flags = PG_SLAB → (s.pages i).flags = PG_SLAB ∨ i = Kmem.pageIdx pg) s := by
  unfold slab_create
  rw [wpe_ite]
  refine ⟨fun _ => trivial, fun _ => ?_⟩
  simp only [wpe_bind]
  refine wpe_mono (SameSlabs.buddy_alloc 0 s) fun pg s₁ h₁ => ?_
  simp only [wpe_ite, wpe_bind, wpe_modify, wpe_pure]
  refine ⟨fun _ i hi => .inl (h₁.flags i ▸ hi), fun _ i hi => ?_⟩
  by_cases hidx : i = Kmem.pageIdx pg
  · exact .inr hidx
  · refine .inl (h₁.flags i ▸ ?_)
    simpa [Kmem.setPage, hidx] using hi

/-- Allocation of a slot in a class with a free one. -/
theorem takeSlot_slabs (hp : Pages s own) (h : SlabInv NR_SIZE_CLASSES s own lists frees objs)
    (hc : c < NR_SIZE_CLASSES) (hpg : pg ∈ lists c) (hfree : frees pg = x :: rest)
    (hpacked : ∀ c < NR_SIZE_CLASSES, 2 ≤ (lists c).length → ∀ q ∈ lists c, q ≠ pg →
      (s.pa_to_page q).slab.nr_alloc ≠ 0) :
    wp (takeSlot pg) (fun r s' => r ≠ 0 ∧ r ∉ objs ∧ r ∈ slotsOf c pg ∧ SlabStep c s s' own own (r :: objs)) s := by
  refine wp_mono (wp_and_wpe (takeSlot_spec hp h hc hpg hfree) (takeSlot_flags pg s)) ?_
  rintro r s' ⟨⟨rfl, hp', hinv, hnew, hnr, hsame, hstart, -⟩, hflags⟩
  have hown := h.owned_of_mem hc hpg
  have hslot := (h.page c hc pg hpg).inside r (by simp [hfree])
  refine ⟨?_, hnew, hslot, hp', ⟨lists, _, hinv, ?_⟩, .of_slab (fun _ _ _ => Iff.rfl) ?_ hstart,
    fun q hq => ⟨q, hq⟩, fun hflag => hflag.keep (fun i hi => hflags.flags i ▸ hi) fun _ _ hq _ => hq⟩
  · have hrange := hp.range_of hown
    have hbounds := slot_bounds hc hslot
    simp only [KERN_BASE] at hrange
    omega
  · intro c' hc' hlen q hq
    by_cases hqp : q = pg
    · rw [hqp]
      exact hnr
    · rw [(hsame q (by rw [h.owned_of_mem hc' hq]; simp) hqp).page]
      exact hpacked c' hc' hlen q hq hqp
  · intro q o hq ho
    apply hsame q (by rw [hq]; simp)
    rintro rfl
    rw [hown, Option.some_inj] at hq
    exact ho hq.symm

/-- `kmalloc` of a slab size returns a slot that was not in use, or null when no
slot and no page is left, and touches nothing but slab pages. -/
theorem kmalloc_spec {size : Nat} (hp : Pages s own) (h : Slabs s own objs) (hpos : 0 < size)
    (hsize : size ≤ MAX_SLAB_SIZE) :
    wp (kmalloc size) (fun x s' => (x = 0 ∧ s' = s ∧ Exhausted s) ∨
      x ≠ 0 ∧ x ∉ objs ∧ ∃ own' c pg, size_to_class s size = some c ∧ size ≤ slotSize c ∧
        own' pg = some (.slab c) ∧ x ∈ slotsOf c pg ∧ SlabStep c s s' own own' (x :: objs)) s := by
  obtain ⟨lists, frees, hinv, hpacked⟩ := h
  obtain ⟨c, hc, hclass, hle⟩ := size_to_class_spec hinv hsize
  have hlen : (lists c).length < NR_PAGES + 1 := Nat.lt_succ_of_le
    (hp.length_le (hinv.nodup c hc) fun q hq => by rw [hinv.owned_of_mem hc hq]; simp)
  obtain ⟨slab, hfind, hresult⟩ := findFree_spec (hinv.chain c hc) hlen
  unfold kmalloc
  rw [if_neg (by omega), if_neg (by omega)]
  simp only [wp_bind, wp_get, hclass, hfind]
  rcases hresult with ⟨rfl, hfull⟩ | ⟨hmem, hfree⟩
  · rw [if_neg (by simp)]
    simp only [wp_bind]
    refine wp_mono (wp_and_wpe (slab_create_spec hp hc (hinv.sizes c hc)
      fun s' pg hp' hpg x hx => hinv.not_mem_objs hp' hpg hc hx) (slab_create_flags c s)) ?_
    rintro pg s₁ ⟨⟨rfl, rfl, hex⟩ | ⟨hnew, -⟩, hflags⟩
    · rw [if_pos rfl, wp_pure]
      exact .inl ⟨rfl, rfl, hex⟩
    rw [if_neg hnew.ne_zero]
    simp only [wp_bind, wp_modify]
    have hnext := hnew.setNext hc (s₁.size_classes c).slabs
    set s₂ := s₁.setSlab pg { (s₁.pa_to_page pg).slab with next_slab := (s₁.size_classes c).slabs } with hs₂
    have hinv' := hinv.insert hc hnext (by
      rw [hs₂, Kmem.setSlab, pa_to_page_setPage_self, hnew.size_classes])
    obtain ⟨x, rest, hslots⟩ : ∃ x rest, slotsOf c pg = x :: rest := by
      have hlen := length_slotsOf c pg
      have hpos := nrSlots_pos hc
      cases hlist : slotsOf c pg with
      | nil =>
        rw [hlist, List.length_nil] at hlen
        omega
      | cons x rest => exact ⟨x, rest, rfl⟩
    refine wp_mono (wp_and_wpe (takeSlot_slabs (hnext.pages.setSlabs c pg) hinv' hc
      (show pg ∈ Function.update lists c (pg :: lists c) c by simp)
      (by rw [Function.update_self, hslots]) ?_) (takeSlot_flags pg _)) ?_
    · -- the slabs already there have objects: those of this class are full
      intro c' hc' hlen' q hq hne
      replace hq : q ∈ lists c' := by
        by_cases heq : c' = c
        · subst heq
          rw [Function.update_self] at hq
          exact (List.mem_cons.mp hq).resolve_left hne
        · rwa [Function.update_of_ne heq] at hq
      have hsame := hnext.same q (by rw [hinv.owned_of_mem hc' hq]; simp)
      rw [((hsame.trans (setSlabs_same s₂ c pg q))).page]
      by_cases heq : c' = c
      · subst heq
        have hpage := hinv.page c' hc' q hq
        have hnil := (hpage.chain.head_eq_zero_iff).mp (hfull q hq)
        have hcount := hpage.count
        rw [hnil, List.length_nil] at hcount
        have hpos := nrSlots_pos hc'
        omega
      · rw [Function.update_of_ne heq] at hlen'
        exact hpacked c' hc' hlen' q hq
    · rintro r s' ⟨⟨hr, hobj, hslot, hp', hslabs, ht, -⟩, hflags'⟩
      refine .inr ⟨hr, hobj, _, c, pg, rfl, hle, Function.update_self .., hslot, hp', hslabs, .of_slab ?_ ?_ ?_,
        fun _ _ => ⟨pg, Function.update_self ..⟩, fun hflag => hflag.create hnew.was_free fun i hi => ?_⟩
      · intro q o ho
        by_cases hq : q = pg
        · subst hq
          rw [Function.update_self, hnew.was_free, Option.some_inj]
          exact iff_of_false (fun heq => ho heq.symm) (by simp)
        · rw [Function.update_of_ne hq]
      · intro q o hq ho
        have hne : q ≠ pg := by
          rintro rfl
          rw [hnew.was_free] at hq
          cases hq
        refine ((hnext.same q (by rw [hq]; simp)).trans (setSlabs_same s₂ c pg q)).trans (ht.same q o ?_ ho)
        rw [Function.update_of_ne hne, hq]
      · rw [ht.free_start]
        exact hnext.free_start
      · have hset : SameSlabs s₁ s₂ := .setSlab s₁ pg _
        rw [hflags'.flags i] at hi
        exact hflags i (hset.flags i ▸ hi)
  · have hpage := hinv.page c hc slab hmem
    have hne : slab ≠ 0 := (hinv.chain c hc).ne_zero_of_mem hmem
    obtain ⟨x, rest, hlist⟩ : ∃ x rest, frees slab = x :: rest := by
      cases hlist : frees slab with
      | nil => exact absurd (hpage.chain.head_eq_zero_iff.mpr hlist) hfree
      | cons x rest => exact ⟨x, rest, rfl⟩
    rw [if_pos hne]
    refine wp_mono (takeSlot_slabs hp hinv hc hmem hlist fun c' hc' hlen' q hq _ => hpacked c' hc' hlen' q hq) ?_
    rintro r s' ⟨hr, hobj, hslot, hstep⟩
    exact .inr ⟨hr, hobj, own, c, slab, rfl, hle, hinv.owned_of_mem hc hmem, hslot, hstep⟩

end bobchouos
