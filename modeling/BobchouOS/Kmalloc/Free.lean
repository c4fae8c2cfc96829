import BobchouOS.Kmalloc.Alloc

open lib

namespace bobchouos

variable {s s' : Kmem} {own : Nat → Option Owner} {lists frees : Nat → List Nat} {objs : List Nat}
  {n c pg x : Nat}

theorem setSlab_slot (s : Kmem) (h : Kmem.pageIdx x = Kmem.pageIdx pg) (slab : SlabInfo) :
    s.setSlab x slab = s.setSlab pg slab := by
  unfold Kmem.setSlab Kmem.setPage Kmem.pa_to_page
  rw [h]

/-- The state in which `kmfree` has put a slot back on the list of its slab. -/
def pushSlot (s : Kmem) (c pg x : Nat) : Kmem :=
  let info := (s.pa_to_page pg).slab
  let m := (s.mem.memset x 0xAB (slotSize c)).storeWord x (BitVec.ofNat 64 info.free_list)
  Kmem.setSlab { s with mem := m } pg { info with
    free_list := x
    nr_alloc := (info.nr_alloc + 2 ^ 16 - 1) % 2 ^ 16 }

theorem pushSlot_mem (hc : c < NR_SIZE_CLASSES) (s : Kmem) (pg x : Nat) {a : Nat}
    (ha : a < x ∨ x + slotSize c ≤ a) : (pushSlot s c pg x).mem a = s.mem a := by
  have hsize := slotSize_ge hc
  change ((s.mem.memset x 0xAB (slotSize c)).storeWord x _) a = s.mem a
  rw [Mem.storeWord_of_outside _ _ (by omega), Mem.memset_of_outside _ _ (by omega)]

theorem pushSlot_page (s : Kmem) (c pg x : Nat) : (pushSlot s c pg x).pa_to_page pg =
    { s.pa_to_page pg with slab := { (s.pa_to_page pg).slab with
      free_list := x
      nr_alloc := ((s.pa_to_page pg).slab.nr_alloc + 2 ^ 16 - 1) % 2 ^ 16 } } := by
  unfold pushSlot Kmem.setSlab
  rw [pa_to_page_setPage_self]
  rfl

theorem pushSlot_other (hp : Pages s own) (hc : c < NR_SIZE_CLASSES) (hown : own pg = some (.slab c))
    (hslot : x ∈ slotsOf c pg) {q : Nat} (hq : own q ≠ none) (hne : q ≠ pg) :
    SamePage s (pushSlot s c pg x) q := by
  have hsome : own pg ≠ none := by rw [hown]; simp
  have hbounds := slot_bounds hc hslot
  have hapart := hp.apart hq hsome hne
  refine ⟨fun a hlo hhi => pushSlot_mem hc s pg x (by omega), ?_⟩
  exact pa_to_page_setPage_of_ne _ _ (hp.pageIdx_ne hq hsome hne)

theorem Pages.pushSlot (hp : Pages s own) (hc : c < NR_SIZE_CLASSES) (hown : own pg = some (.slab c))
    (hslot : x ∈ slotsOf c pg) : Pages (pushSlot s c pg x) own := by
  have hsome : own pg ≠ none := by rw [hown]; simp
  have hbounds := slot_bounds hc hslot
  refine (hp.write (m := _) fun a ha => ?_).setSlab hsome _
  have hout := ha pg hsome
  exact pushSlot_mem hc s pg x (by omega)

/-- A slab in use has an object, and its counter shows it. -/
theorem SlabInv.nr_alloc_pos (h : SlabInv n s own lists frees objs) (hc : c < n) (hpg : pg ∈ lists c)
    (hobj : x ∈ objs) (hslot : x ∈ slotsOf c pg) :
    1 ≤ (s.pa_to_page pg).slab.nr_alloc ∧ (s.pa_to_page pg).slab.nr_alloc ≤ 128 := by
  have hpage := h.page c hc pg hpg
  have hcount := hpage.count
  have hmax := nrSlots_pos (h.lt hc)
  refine ⟨?_, by omega⟩
  by_contra hzero
  exact (hpage.slots x hslot).mp
    (mem_of_length_eq hpage.nodup hpage.inside (by omega) hslot) hobj

theorem SlabInv.push (hp : Pages s own) (h : SlabInv n s own lists frees objs) (hc : c < n) (hpg : pg ∈ lists c)
    (hobj : x ∈ objs) (hslot : x ∈ slotsOf c pg) :
    SlabInv n (pushSlot s c pg x) own lists (Function.update frees pg (x :: frees pg)) (objs.erase x) := by
  have hc7 := h.lt hc
  have hown := h.owned_of_mem hc hpg
  have hsome : own pg ≠ none := by rw [hown]; simp
  have hrange := hp.range hsome
  have hbounds := slot_bounds hc7 hslot
  have hsize := slotSize_ge hc7
  have hpage := h.page c hc pg hpg
  have hself := pushSlot_page s c pg x
  have hnr := h.nr_alloc_pos hc hpg hobj hslot
  have hmod : ((s.pa_to_page pg).slab.nr_alloc + 2 ^ 16 - 1) % 2 ^ 16 =
      (s.pa_to_page pg).slab.nr_alloc - 1 := by omega
  have hnotfree : x ∉ frees pg := fun hmem => (hpage.slots x hslot).mp hmem hobj
  have hother : ∀ q, own q ≠ none → q ≠ pg → SamePage s (pushSlot s c pg x) q := fun q hq hne =>
    pushSlot_other hp hc7 hown hslot hq hne
  have hhead : (s.pa_to_page pg).slab.free_list < 2 ^ 64 := by
    have hchain := hpage.chain
    cases hlist : frees pg with
    | nil =>
      rw [hlist] at hchain
      rw [show (s.pa_to_page pg).slab.free_list = 0 from hchain]
      decide
    | cons y rest =>
      rw [hlist] at hchain
      have hy := slot_bounds hc7 (hpage.inside y (by simp [hlist]))
      rw [hchain.1]
      simp only [PHYS_STOP] at hrange
      omega
  refine ⟨h.classes, h.sizes, ?_, h.nodup, h.owned, ?_, h.objs_nodup.erase x, fun y hy =>
    h.objs_slot y (List.mem_of_mem_erase hy)⟩
  · intro c' hc'
    apply (h.chain c' hc').congr
    intro q hq
    by_cases hne : q = pg
    · rw [hne, hself]
    · rw [(hother q (by rw [h.owned_of_mem hc' hq]; simp) hne).page]
  · intro c' hc' q hq
    have hq' := h.owned_of_mem hc' hq
    by_cases hne : q = pg
    · subst hne
      obtain rfl : c' = c := by
        rw [hown] at hq'
        simpa using hq'.symm
      rw [Function.update_self]
      refine ⟨by rw [hself]; exact hpage.flags, by rw [hself]; exact hpage.refcount,
        by rw [hself]; exact hpage.class_idx, ?_, List.nodup_cons.mpr ⟨hnotfree, hpage.nodup⟩, ?_, ?_, ?_⟩
      · rw [hself]
        refine ⟨rfl, by simp only [KERN_BASE] at hrange; omega, ?_⟩
        have hlink : (pushSlot s c' q x).next x = (s.pa_to_page q).slab.free_list := by
          change (((s.mem.memset x 0xAB (slotSize c')).storeWord x _).loadWord x).toNat = _
          rw [Mem.loadWord_storeWord, BitVec.toNat_ofNat, Nat.mod_eq_of_lt hhead]
        rw [hlink]
        apply hpage.chain.congr
        intro y hy
        have hyslot := hpage.inside y hy
        have hapart := slots_apart hyslot hslot fun heq => hnotfree (heq ▸ hy)
        unfold Kmem.next
        rw [Mem.loadWord_congr]
        exact fun a hlo hhi => pushSlot_mem hc7 s q x (by omega)
      · intro y hy
        rcases List.mem_cons.mp hy with rfl | hy
        · exact hslot
        · exact hpage.inside y hy
      · intro y hy
        have hiff := hpage.slots y hy
        rw [List.mem_cons, h.objs_nodup.mem_erase_iff]
        by_cases hyx : y = x
        · simp [hyx]
        · simpa [hyx] using hiff
      · have hcount := hpage.count
        rw [hself, List.length_cons]
        dsimp only
        rw [hmod]
        omega
    · rw [Function.update_of_ne hne]
      apply (hother q (by rw [hq']; simp) hne).slabPage (h.lt hc') (h.page c' hc' q hq)
      intro y hy
      rw [h.objs_nodup.mem_erase_iff]
      refine and_iff_right ?_
      rintro rfl
      exact hne (h.page_unique hp hq' hown hy hslot)

/-- The search of `slab_destroy` stops in front of a slab that is listed. -/
theorem findSlab_spec {l : List Nat} {fuel prev : Nat}
    (hchain : Chain (fun pg => (s.pa_to_page pg).slab.next_slab) (s.slabLink c prev) l) (hmem : pg ∈ l)
    (hfuel : l.length ≤ fuel) :
    ∃ pre post, l = pre ++ pg :: post ∧ findSlab s c pg fuel prev = some (pre.getLastD prev) ∧
      s.slabLink c (pre.getLastD prev) = pg := by
  induction l generalizing prev fuel with
  | nil => cases hmem
  | cons y l ih =>
    obtain ⟨fuel, rfl⟩ : ∃ k, fuel = k + 1 := ⟨fuel - 1, by simp at hfuel; omega⟩
    obtain ⟨hhead, hy, htail⟩ := hchain
    by_cases heq : y = pg
    · subst heq
      refine ⟨[], l, rfl, ?_, hhead⟩
      rw [findSlab, if_pos (.inr hhead)]
      rfl
    · have hlink : s.slabLink c y = (s.pa_to_page y).slab.next_slab := by rw [Kmem.slabLink, if_neg hy]
      replace htail : Chain (fun pg => (s.pa_to_page pg).slab.next_slab) (s.slabLink c y) l := by
        rw [hlink]
        exact htail
      obtain ⟨pre, post, rfl, hfind, hread⟩ := ih htail
        ((List.mem_cons.mp hmem).resolve_left (Ne.symm heq)) (by simpa using hfuel)
      refine ⟨y :: pre, post, rfl, ?_, by rw [List.getLastD_cons]; exact hread⟩
      rw [findSlab, if_neg (by rw [hhead]; tauto), hhead, hfind, List.getLastD_cons]

/-- Redirecting the link in front of a slab takes it off its class's list and
leaves everything else about the slab pages as it is. -/
theorem SlabInv.unlink (hp : Pages s own) (h : SlabInv n s own lists frees objs) (hc : c < n)
    {pre post : List Nat} (hlist : lists c = pre ++ pg :: post) {t : Kmem}
    (hlink : t = s.setSlabLink c (pre.getLastD 0) (s.pa_to_page pg).slab.next_slab) :
    Pages t own ∧ t.free_start = s.free_start ∧
      (∀ c' < n, (t.size_classes c').slot_size = slotSize c' ∧
        Chain (fun pg => (t.pa_to_page pg).slab.next_slab) (t.size_classes c').slabs
          (Function.update lists c (pre ++ post) c')) ∧
      (∀ q, own q ≠ none → (∀ x, t.mem x = s.mem x) ∧ ∃ next_slab, t.pa_to_page q =
        { s.pa_to_page q with slab := { (s.pa_to_page q).slab with next_slab := next_slab } }) ∧
      ∀ q o, own q = some o → o ≠ .slab c → SamePage s t q := by
  have hchain := h.chain c hc
  have hnodup := h.nodup c hc
  rw [hlist] at hchain hnodup
  obtain ⟨v, hv⟩ : ∃ v, v = (s.pa_to_page pg).slab.next_slab := ⟨_, rfl⟩
  rw [← hv] at hlink
  rcases List.eq_nil_or_concat pre with rfl | ⟨l, p, rfl⟩
  · have ht : t = s.setSlabs c v := by
      rw [hlink, List.getLastD_nil, Kmem.setSlabLink, if_pos rfl]
    rw [ht]
    refine ⟨hp.setSlabs _ _, rfl, ?_, fun q _ =>
      ⟨fun _ => rfl, (s.pa_to_page q).slab.next_slab, (setSlabs_same s _ _ q).page⟩,
      fun q _ _ _ => setSlabs_same s _ _ q⟩
    intro c' hc'
    by_cases heq : c' = c
    · subst heq
      simp only [Kmem.setSlabs, Function.update_self, List.nil_append]
      refine ⟨h.sizes c' hc', ?_⟩
      rw [hv]
      exact hchain.2.2
    · simp only [Kmem.setSlabs, Function.update_of_ne heq]
      exact ⟨h.sizes c' hc', h.chain c' hc'⟩
  · rw [List.concat_eq_append] at hlist hchain hnodup
    have hpmem : p ∈ lists c := by simp [hlist]
    have hpown := h.owned_of_mem hc hpmem
    have hpsome : own p ≠ none := by rw [hpown]; simp
    have hp0 : p ≠ 0 := (h.chain c hc).ne_zero_of_mem hpmem
    have ht : t = s.setSlab p { (s.pa_to_page p).slab with next_slab := v } := by
      rw [hlink, List.concat_eq_append, List.getLastD_concat, Kmem.setSlabLink, if_neg hp0]
    have hself : t.pa_to_page p = { s.pa_to_page p with
        slab := { (s.pa_to_page p).slab with next_slab := v } } := by
      rw [ht, Kmem.setSlab, pa_to_page_setPage_self]
    have hother : ∀ q, own q ≠ none → q ≠ p → SamePage s t q := by
      intro q hq hne
      rw [ht]
      exact setSlab_of_ne hp hpsome _ hq hne
    have hclasses : t.size_classes = s.size_classes := by rw [ht]; rfl
    refine ⟨by rw [ht]; exact hp.setSlab hpsome _, by rw [ht]; rfl, ?_, ?_, ?_⟩
    · intro c' hc'
      rw [hclasses]
      refine ⟨h.sizes c' hc', ?_⟩
      by_cases heq : c' = c
      · subst heq
        rw [Function.update_self, List.concat_eq_append]
        simp only [List.append_assoc, List.cons_append, List.nil_append] at hchain hnodup ⊢
        have hskip : (t.pa_to_page p).slab.next_slab = v := by rw [hself]
        apply hchain.remove (hskip.trans hv) _ hnodup
        intro y hy hne
        have hy' : y ∈ lists c' := by
          rw [hlist]
          simp only [List.mem_append, List.mem_cons] at hy ⊢
          tauto
        rw [(hother y (by rw [h.owned_of_mem hc' hy']; simp) hne).page]
      · rw [Function.update_of_ne heq]
        apply (h.chain c' hc').congr
        intro y hy
        have hy' := h.owned_of_mem hc' hy
        rw [(hother y (by rw [hy']; simp) ?_).page]
        rintro rfl
        rw [hpown, Option.some_inj] at hy'
        exact heq (by simpa using hy'.symm)
    · intro q hq
      refine ⟨fun x => by rw [ht]; rfl, ?_⟩
      by_cases hne : q = p
      · subst hne
        exact ⟨_, hself⟩
      · exact ⟨(s.pa_to_page q).slab.next_slab, (hother q hq hne).page⟩
    · intro q o hq ho
      apply hother q (by rw [hq]; simp)
      rintro rfl
      rw [hpown, Option.some_inj] at hq
      exact ho hq.symm

theorem setSlabLink_flags (s : Kmem) (c prev v i : Nat) :
    ((s.setSlabLink c prev v).pages i).flags = (s.pages i).flags := by
  unfold Kmem.setSlabLink
  split
  · rfl
  · exact (SameSlabs.setSlab s prev _).flags i

/-- `slab_destroy` of an empty slab gives its page back, unless it is the last
one of its class. -/
theorem slab_destroy_spec (hp : Pages s own) (h : SlabInv n s own lists frees objs) (hc : c < n)
    (hpg : pg ∈ lists c) (hempty : (s.pa_to_page pg).slab.nr_alloc = 0)
    (hpacked : ∀ c < n, 2 ≤ (lists c).length → ∀ q ∈ lists c, q ≠ pg → (s.pa_to_page q).slab.nr_alloc ≠ 0) :
    wp (slab_destroy pg c) (fun _ s' => ∃ own' lists', Pages s' own' ∧ SlabInv n s' own' lists' frees objs ∧
      Packed n s' lists' ∧ Touches (· = .slab c) s s' own own' ∧ (∃ pg', own' pg' = some (.slab c)) ∧
      (Flagged s own → Flagged s' own') ∧ ∀ q, own q = none → own' q = none) s := by
  have hc7 := h.lt hc
  have hown := h.owned_of_mem hc hpg
  have hsome : own pg ≠ none := by rw [hown]; simp
  have hchain := h.chain c hc
  have hpg0 : pg ≠ 0 := hchain.ne_zero_of_mem hpg
  have hlen : (lists c).length ≤ NR_PAGES + 1 := Nat.le_succ_of_le
    (hp.length_le (h.nodup c hc) fun q hq => by rw [h.owned_of_mem hc hq]; simp)
  obtain ⟨pre, post, hlist, hfind, hread⟩ := findSlab_spec
    (show Chain _ (s.slabLink c 0) _ by rw [Kmem.slabLink, if_pos rfl]; exact hchain) hpg hlen
  unfold slab_destroy
  rw [if_neg (by omega)]
  simp only [wp_bind, wp_get, hfind]
  rw [if_neg (by rw [hread]; exact hpg0)]
  by_cases hlast : (s.pa_to_page (s.size_classes c).slabs).slab.next_slab = 0
  · rw [if_pos hlast, wp_pure]
    refine ⟨own, lists, hp, h, ?_, .refl _ _ _, ⟨pg, hown⟩, id, fun _ hq => hq⟩
    have hone : (lists c).length ≤ 1 := by
      rw [hlist] at hchain ⊢
      cases pre with
      | nil =>
        obtain ⟨hhead, -, htail⟩ := hchain
        rw [hhead] at hlast
        simpa using htail.head_eq_zero_iff.mp hlast
      | cons q pre =>
        obtain ⟨hhead, -, htail⟩ := hchain
        rw [hhead] at hlast
        exact absurd (htail.head_eq_zero_iff.mp hlast) (by simp)
    intro c' hc' hlen' q hq
    by_cases hqp : q = pg
    · subst hqp
      have hq' := h.owned_of_mem hc' hq
      rw [hown, Option.some_inj] at hq'
      obtain rfl : c = c' := by simpa using hq'
      omega
    · exact hpacked c' hc' hlen' q hq hqp
  rw [if_neg hlast]
  simp only [wp_bind, wp_modify]
  obtain ⟨t, ht⟩ : ∃ t, t = s.setSlabLink c (pre.getLastD 0) (s.pa_to_page pg).slab.next_slab := ⟨_, rfl⟩
  rw [← ht]
  obtain ⟨hpt, hstart, hchains, hpages, hothers⟩ := h.unlink hp hc hlist ht
  obtain ⟨u, hu⟩ : ∃ u, u = t.setPage pg { t.pa_to_page pg with flags := 0 } := ⟨_, rfl⟩
  rw [← hu]
  have hself : u.pa_to_page pg = { t.pa_to_page pg with flags := 0 } := by rw [hu, pa_to_page_setPage_self]
  have hpu : Pages u own := by
    rw [hu]
    exact hpt.setPage hsome (hpt.refcount_pos hsome) rfl
  have hother : ∀ q, own q ≠ none → q ≠ pg → SamePage t u q := fun q hq hne => by
    rw [hu]
    exact ⟨fun _ _ _ => rfl, pa_to_page_setPage_of_ne t _ (hpt.pageIdx_ne hq hsome hne)⟩
  have href : (u.pa_to_page pg).refcount = 1 := by
    obtain ⟨-, next_slab, hpage⟩ := hpages pg hsome
    rw [hself, hpage]
    exact (h.page c hc pg hpg).refcount
  have husize : u.size_classes = t.size_classes := by rw [hu]; rfl
  have hustart : u.free_start = t.free_start := by rw [hu]; rfl
  refine wp_mono (wp_and_wpe (hpu.kfree_spec hown rfl href) (SameSlabs.buddy_free pg 0 u)) ?_
  rintro _ s' ⟨⟨hp', hsame, hstart', hclasses'⟩, hflags⟩
  have hkeep : ∀ q, own q ≠ none → q ≠ pg → SamePage t s' q := fun q hq hne =>
    (hother q hq hne).trans (hsame q hq hne)
  have hmem : ∀ c' < n, ∀ q, q ∈ Function.update lists c (pre ++ post) c' ↔ q ∈ lists c' ∧ q ≠ pg := by
    intro c' hc' q
    by_cases heq : c' = c
    · subst heq
      have hnodup := h.nodup c' hc'
      rw [hlist] at hnodup
      have hnot : pg ∉ pre ++ post := (List.nodup_middle.mp hnodup).notMem
      rw [Function.update_self, hlist]
      simp only [List.mem_append, List.mem_cons] at hnot ⊢
      constructor
      · intro hq
        refine ⟨by tauto, ?_⟩
        rintro rfl
        exact hnot hq
      · tauto
    · rw [Function.update_of_ne heq]
      refine ⟨fun hq => ⟨hq, ?_⟩, And.left⟩
      rintro rfl
      have hq' := h.owned_of_mem hc' hq
      rw [hown, Option.some_inj] at hq'
      exact heq (by simpa using hq'.symm)
  have hslab : ∀ c' < n, ∀ q ∈ lists c', q ≠ pg → SlabPage s' c' q (frees q) objs ∧
      (s'.pa_to_page q).slab.nr_alloc = (s.pa_to_page q).slab.nr_alloc := by
    intro c' hc' q hq hne
    have hqsome : own q ≠ none := by rw [h.owned_of_mem hc' hq]; simp
    obtain ⟨hqmem, next_slab, hpage⟩ := hpages q hqsome
    have hk := hkeep q hqsome hne
    refine ⟨(h.page c' hc' q hq).congr (h.lt hc') (fun x hlo hhi => (hk.mem x hlo hhi).trans (hqmem x))
      ⟨next_slab, hk.page.trans hpage⟩ fun _ _ => Iff.rfl, ?_⟩
    rw [hk.page, hpage]
  refine ⟨Function.update own pg none, Function.update lists c (pre ++ post), hp', ⟨h.classes, ?_, ?_, ?_, ?_, ?_,
    h.objs_nodup, ?_⟩, ?_, .of_slab ?_ ?_ ?_, ?_, fun hflag => ?_, fun q hq => ?_⟩
  · intro c' hc'
    rw [hclasses', husize]
    exact (hchains c' hc').1
  · intro c' hc'
    rw [hclasses', husize]
    apply (hchains c' hc').2.congr
    intro q hq
    obtain ⟨hq, hne⟩ := (hmem c' hc' q).mp hq
    rw [(hkeep q (by rw [h.owned_of_mem hc' hq]; simp) hne).page]
  · intro c' hc'
    have hnodup := h.nodup c' hc'
    by_cases heq : c' = c
    · subst heq
      rw [hlist] at hnodup
      rw [Function.update_self]
      exact (List.nodup_middle.mp hnodup).of_cons
    · rw [Function.update_of_ne heq]
      exact hnodup
  · intro c' q
    by_cases hq : q = pg
    · subst hq
      rw [Function.update_self]
      refine iff_of_false (by simp) ?_
      rintro ⟨hc', hmem'⟩
      exact ((hmem c' hc' q).mp hmem').2 rfl
    · rw [Function.update_of_ne hq, h.owned]
      constructor
      · rintro ⟨hc', hmem'⟩
        exact ⟨hc', (hmem c' hc' q).mpr ⟨hmem', hq⟩⟩
      · rintro ⟨hc', hmem'⟩
        exact ⟨hc', ((hmem c' hc' q).mp hmem').1⟩
  · intro c' hc' q hq
    obtain ⟨hq, hne⟩ := (hmem c' hc' q).mp hq
    exact (hslab c' hc' q hq hne).1
  · intro x hx
    obtain ⟨c', q, hq, hslot⟩ := h.objs_slot x hx
    refine ⟨c', q, ?_, hslot⟩
    rw [Function.update_of_ne, hq]
    rintro rfl
    rw [hown, Option.some_inj] at hq
    obtain rfl : c = c' := by simpa using hq
    -- an empty slab has all its slots free, so no object can be there
    have hpage := h.page c hc q hpg
    have hcount := hpage.count
    rw [hempty] at hcount
    exact (hpage.slots x hslot).mp (mem_of_length_eq hpage.nodup hpage.inside (by omega) hslot) hx
  · intro c' hc' hlen' q hq
    obtain ⟨hq, hne⟩ := (hmem c' hc' q).mp hq
    rw [(hslab c' hc' q hq hne).2]
    refine hpacked c' hc' ?_ q hq hne
    by_cases heq : c' = c
    · subst heq
      rw [Function.update_self, List.length_append] at hlen'
      rw [hlist, List.length_append, List.length_cons]
      omega
    · rwa [Function.update_of_ne heq] at hlen'
  · intro q o ho
    by_cases hq : q = pg
    · subst hq
      rw [Function.update_self, hown, Option.some_inj]
      exact iff_of_false (by simp) fun heq => ho heq.symm
    · rw [Function.update_of_ne hq]
  · intro q o hq ho
    have hne : q ≠ pg := by
      rintro rfl
      rw [hown, Option.some_inj] at hq
      exact ho hq.symm
    exact (hothers q o hq ho).trans (hkeep q (by rw [hq]; simp) hne)
  · rw [hstart', hustart, hstart]
  · -- the head of the list has a successor, so another slab is left
    obtain ⟨q, hq⟩ : ∃ q, q ∈ pre ++ post := by
      apply List.exists_mem_of_ne_nil
      intro hnil
      obtain ⟨rfl, rfl⟩ := List.append_eq_nil_iff.mp hnil
      rw [hlist] at hchain
      obtain ⟨hhead, -, htail⟩ := hchain
      rw [hhead] at hlast
      exact hlast htail
    have hq' := (hmem c hc q).mp (by rw [Function.update_self]; exact hq)
    exact ⟨q, by rw [Function.update_of_ne hq'.2]; exact h.owned_of_mem hc hq'.1⟩
  · have hzero : (s'.pa_to_page pg).flags = 0 := by
      rw [show (s'.pa_to_page pg).flags = (u.pa_to_page pg).flags from hflags.flags _, hself]
    refine hflag.keep (fun i hi => ?_) fun c' q hq hi => ?_
    · rw [hflags.flags i] at hi
      by_cases hidx : i = Kmem.pageIdx pg
      · subst hidx
        rw [show u.pages (Kmem.pageIdx pg) = u.pa_to_page pg from rfl, hself] at hi
        cases hi
      · rw [hu] at hi
        have hti : (t.pages i).flags = PG_SLAB := by simpa [Kmem.setPage, hidx] using hi
        rw [ht] at hti
        exact (setSlabLink_flags s c _ _ i) ▸ hti
    · rw [Function.update_of_ne, hq]
      rintro rfl
      rw [hzero] at hi
      cases hi
  · by_cases hqp : q = pg
    · rw [hqp, Function.update_self]
    · rw [Function.update_of_ne hqp, hq]

theorem pushSlot_flags (s : Kmem) (c pg x : Nat) : SameSlabs s (pushSlot s c pg x) := by
  obtain ⟨mem, hmem⟩ : ∃ mem, mem = (s.mem.memset x 171 (slotSize c)).storeWord x
    (BitVec.ofNat 64 (s.pa_to_page pg).slab.free_list) := ⟨_, rfl⟩
  have hsame : SameSlabs s { s with mem := mem } := .of_pages rfl rfl
  unfold pushSlot
  simp only [← hmem]
  exact hsame.trans (.setSlab _ pg _)

/-- `kmfree` accepts every object in use and touches nothing but slab pages. -/
theorem kmfree_spec (hp : Pages s own) (h : Slabs s own objs) (hx : x ∈ objs) :
    wp (kmfree x) (fun _ s' => ∃ own' c pg, own pg = some (.slab c) ∧ x ∈ slotsOf c pg ∧
      SlabStep c s s' own own' (objs.erase x) ∧ ∀ q, own q = none → own' q = none) s := by
  obtain ⟨lists, frees, hinv, hpacked⟩ := h
  obtain ⟨c, pg, hown, hslot⟩ := hinv.objs_slot x hx
  obtain ⟨hc, hpg⟩ := (hinv.owned c pg).mp hown
  have hsome : own pg ≠ none := by rw [hown]; simp
  have hrange := hp.range hsome
  have hbounds := slot_bounds hc hslot
  have hsize := slotSize_ge hc
  have hpage := hinv.page c hc pg hpg
  have hidx : Kmem.pageIdx x = Kmem.pageIdx pg := pageIdx_slot hrange.1 hrange.2.1 hbounds.1 (by omega)
  have hbase : Kmem.pageBase x = pg := pageBase_slot hrange.1 hrange.2.1 hbounds.1 (by omega)
  have hxpage : s.pa_to_page x = s.pa_to_page pg := by
    unfold Kmem.pa_to_page
    rw [hidx]
  have hnr := hinv.nr_alloc_pos hc hpg hx hslot
  have hsizes := hinv.sizes c hc
  unfold kmfree
  simp only [wp_bind, wp_get]
  rw [hxpage, hpage.flags, if_neg (by decide), if_neg (by decide), hpage.class_idx]
  simp only [wp_bind, wp_modify]
  have hstate : pushSlot s c pg x = Kmem.setSlab
      { s with
        mem := (s.mem.memset x 0xAB (slotSize c)).storeWord x
          (BitVec.ofNat 64 (s.pa_to_page pg).slab.free_list) } pg
      ⟨c, ((s.pa_to_page pg).slab.nr_alloc + 2 ^ 16 - 1) % 2 ^ 16, x, (s.pa_to_page pg).slab.next_slab⟩ := by
    simp only [pushSlot, hpage.class_idx]
  rw [setSlab_slot _ hidx, hbase, hsizes, ← hstate]
  have hpush : SlabInv NR_SIZE_CLASSES (pushSlot s c pg x) own lists (Function.update frees pg (x :: frees pg))
      (objs.erase x) := hinv.push hp hc hpg hx hslot
  have hpp : Pages (pushSlot s c pg x) own := hp.pushSlot hc hown hslot
  have hsame : ∀ q, own q ≠ none → q ≠ pg → SamePage s (pushSlot s c pg x) q := fun q hq hne =>
    pushSlot_other hp hc hown hslot hq hne
  have htouch : Touches (· = .slab c) s (pushSlot s c pg x) own own := by
    refine .of_slab (fun _ _ _ => Iff.rfl) (fun q o hq ho => hsame q (by rw [hq]; simp) ?_) rfl
    rintro rfl
    rw [hown, Option.some_inj] at hq
    exact ho hq.symm
  have hpacked' : ∀ c' < NR_SIZE_CLASSES, 2 ≤ (lists c').length → ∀ q ∈ lists c', q ≠ pg →
      ((pushSlot s c pg x).pa_to_page q).slab.nr_alloc ≠ 0 := by
    intro c' hc' hlen q hq hne
    rw [(hsame q (by rw [hinv.owned_of_mem hc' hq]; simp) hne).page]
    exact hpacked c' hc' hlen q hq
  have hflags : Flagged s own → Flagged (pushSlot s c pg x) own := fun hflag =>
    hflag.keep (fun i hi => (pushSlot_flags s c pg x).flags i ▸ hi) fun _ _ hq _ => hq
  have hself : ((pushSlot s c pg x).pa_to_page pg).slab.nr_alloc =
      ((s.pa_to_page pg).slab.nr_alloc + 2 ^ 16 - 1) % 2 ^ 16 := by rw [pushSlot_page]
  by_cases hzero : ((s.pa_to_page pg).slab.nr_alloc + 2 ^ 16 - 1) % 2 ^ 16 = 0
  · rw [if_pos hzero]
    refine wp_mono (slab_destroy_spec (s := pushSlot s c pg x) hpp hpush hc hpg (hself.trans hzero) hpacked') ?_
    rintro _ s' ⟨own', lists', hp', hinv', hpk, ht, hleft, hflag, hnone⟩
    exact ⟨own', c, pg, hown, hslot, ⟨hp', ⟨lists', _, hinv', hpk⟩, htouch.trans ht, fun _ _ => hleft,
      fun hflagged => hflag (hflags hflagged)⟩, hnone⟩
  · rw [if_neg hzero, wp_pure]
    refine ⟨own, c, pg, hown, hslot, ⟨hpp, ⟨lists, _, hpush, ?_⟩, htouch, fun q hq => ⟨q, hq⟩, hflags⟩, fun _ hq => hq⟩
    intro c' hc' hlen q hq
    by_cases hne : q = pg
    · rw [hne]
      exact fun heq => hzero (hself.symm.trans heq)
    · exact hpacked' c' hc' hlen q hq hne

end bobchouos
