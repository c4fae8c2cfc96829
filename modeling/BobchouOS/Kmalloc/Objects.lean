import BobchouOS.Kmalloc.Free

open lib

namespace bobchouos

/-- An object of size class `c`. -/
def InClass (own : Nat → Option Owner) (c x : Nat) : Prop := ∃ pg, own pg = some (.slab c) ∧ x ∈ slotsOf c pg

variable {s s' : Kmem} {own own' : Nat → Option Owner} {objs objs' : List Nat} {c c' x size : Nat} {T : Owner → Prop}

/-- The order of the objects does not matter. -/
theorem Slabs.perm (h : Slabs s own objs) (hperm : objs.Perm objs') : Slabs s own objs' := by
  obtain ⟨lists, frees, hinv, hpacked⟩ := h
  refine ⟨lists, frees, ⟨hinv.classes, hinv.sizes, hinv.chain, hinv.nodup, hinv.owned, fun c hc pg hpg => ?_,
    hperm.nodup_iff.mp hinv.objs_nodup, fun x hx => hinv.objs_slot x (hperm.mem_iff.mpr hx)⟩, hpacked⟩
  have hpage := hinv.page c hc pg hpg
  exact ⟨hpage.flags, hpage.refcount, hpage.class_idx, hpage.chain, hpage.nodup, hpage.inside,
    fun x hx => (hpage.slots x hx).trans (not_congr hperm.mem_iff), hpage.count⟩

theorem Slabs.nodup (h : Slabs s own objs) : objs.Nodup := by
  obtain ⟨lists, frees, hinv, -⟩ := h
  exact hinv.objs_nodup

theorem Slabs.inClass (h : Slabs s own objs) (hx : x ∈ objs) : ∃ c, InClass own c x := by
  obtain ⟨lists, frees, hinv, -⟩ := h
  exact hinv.objs_slot x hx

theorem Slabs.class_lt (h : Slabs s own objs) {pg : Nat} (hpg : own pg = some (.slab c)) : c < NR_SIZE_CLASSES := by
  obtain ⟨lists, frees, hinv, -⟩ := h
  exact ((hinv.owned c pg).mp hpg).1

theorem Slabs.size_to_class (h : Slabs s own objs) (size : Nat) :
    size_to_class s size = (List.range NR_SIZE_CLASSES).find? fun c => size ≤ slotSize c := by
  obtain ⟨lists, frees, hinv, -⟩ := h
  have hcongr : ∀ l : List Nat, (∀ c ∈ l, c < NR_SIZE_CLASSES) →
      (l.find? fun i => size ≤ (s.size_classes i).slot_size) = l.find? fun c => size ≤ slotSize c := by
    intro l hl
    induction l with
    | nil => rfl
    | cons c l ih =>
      rw [List.find?_cons, List.find?_cons, hinv.sizes c (hl c (by simp)),
        ih fun c hc => hl c (List.mem_cons_of_mem _ hc)]
  exact hcongr _ fun c hc => List.mem_range.mp hc

/-- The page of an object. -/
theorem Pages.pageBase_of_slot (hp : Pages s own) {pg : Nat} (hc : c < NR_SIZE_CLASSES)
    (hpg : own pg = some (.slab c)) (hx : x ∈ slotsOf c pg) : Kmem.pageBase x = pg := by
  have hrange := hp.range_of hpg
  have hbounds := slot_bounds hc hx
  have hsize := slotSize_ge hc
  exact pageBase_slot hrange.1 hrange.2.1 hbounds.1 (by omega)

theorem InClass.unique (hp : Pages s own) (h : Slabs s own objs) (hx : InClass own c x) (hx' : InClass own c' x) :
    c = c' := by
  obtain ⟨pg, hpg, hslot⟩ := hx
  obtain ⟨pg', hpg', hslot'⟩ := hx'
  have hbase := hp.pageBase_of_slot (h.class_lt hpg) hpg hslot
  rw [hp.pageBase_of_slot (h.class_lt hpg') hpg' hslot'] at hbase
  subst hbase
  rw [hpg] at hpg'
  cases hpg'
  rfl

theorem InClass.frame (hx : InClass own c x) (ht : Touches T s s' own own') (hT : ¬ T (.slab c)) :
    InClass own' c x := by
  obtain ⟨pg, hpg, hslot⟩ := hx
  exact ⟨pg, (ht.owner pg _ hT).mpr hpg, hslot⟩

/-- An object keeps its class as long as it is in use. -/
theorem SlabStep.inClass (hstep : SlabStep c s s' own own' objs') (hp : Pages s own) (h : Slabs s own objs)
    (hx : InClass own c' x) (hx' : x ∈ objs') : InClass own' c' x := by
  by_cases hc : c' = c
  · subst hc
    obtain ⟨c'', hclass⟩ := hstep.slabs.inClass hx'
    by_cases hcc : c'' = c'
    · rw [← hcc]
      exact hclass
    · -- a page of another class was one before the call too
      obtain ⟨pg, hpg, hslot⟩ := hclass
      have hpg' := (hstep.touches.owner pg _ (by simpa using hcc)).mp hpg
      exact absurd (InClass.unique hp h ⟨pg, hpg', hslot⟩ hx) hcc
  · exact hx.frame hstep.touches (by simpa using hc)

theorem SlabStep.perm (hstep : SlabStep c s s' own own' objs) (hperm : objs.Perm objs') :
    SlabStep c s s' own own' objs' :=
  ⟨hstep.pages, hstep.slabs.perm hperm, hstep.touches, hstep.stocked, hstep.flagged⟩

/-- A slot at the start of a page is the first of its slab. -/
theorem InClass.owner_of_aligned (hx : InClass own c x) (hp : Pages s own) (h : Slabs s own objs)
    (haligned : x % PG_SIZE = 0) : own x = some (.slab c) := by
  obtain ⟨pg, hpg, hslot⟩ := hx
  have hrange := hp.range_of hpg
  have hbounds := slot_bounds (h.class_lt hpg) hslot
  have hsize := slotSize_ge (h.class_lt hpg)
  obtain rfl : x = pg := by
    simp only [PG_SIZE] at *
    omega
  exact hpg

/-- Users may write their objects: the links are in the free slots. -/
theorem Slabs.write {m : Mem} (h : Slabs s own objs)
    (hmem : ∀ c y, InClass own c y → y ∉ objs → ∀ a, y ≤ a → a < y + slotSize c → m a = s.mem a) :
    Slabs { s with mem := m } own objs := by
  obtain ⟨lists, frees, hinv, hpacked⟩ := h
  refine ⟨lists, frees, ⟨hinv.classes, hinv.sizes, hinv.chain, hinv.nodup, hinv.owned, fun c hc pg hpg => ?_,
    hinv.objs_nodup, hinv.objs_slot⟩, hpacked⟩
  have hpage := hinv.page c hc pg hpg
  refine ⟨hpage.flags, hpage.refcount, hpage.class_idx, hpage.chain.congr fun y hy => ?_, hpage.nodup, hpage.inside,
    hpage.slots, hpage.count⟩
  have hslot := hpage.inside y hy
  have hsize := slotSize_ge hc
  unfold Kmem.next
  rw [Mem.loadWord_congr]
  exact fun a hlo hhi => hmem c y ⟨pg, hinv.owned_of_mem hc hpg, hslot⟩ ((hpage.slots y hslot).mp hy) a hlo (by omega)

/-- With the same objects in use, a class that has some has the same pages. -/
theorem Slabs.same_pages (hp : Pages s own) (hp' : Pages s' own') (h : Slabs s own objs) (h' : Slabs s' own' objs)
    (hclass : ∀ c x, x ∈ objs → (InClass own c x ↔ InClass own' c x)) (hx : x ∈ objs) (hxc : InClass own c x) (pg : Nat) :
    own' pg = some (.slab c) ↔ own pg = some (.slab c) := by
  have key : ∀ {s s' : Kmem} {own own' : Nat → Option Owner}, Pages s own → Pages s' own' → Slabs s own objs →
      (∀ c x, x ∈ objs → (InClass own c x → InClass own' c x)) → InClass own c x → own pg = some (.slab c) →
      Slabs s' own' objs → own' pg = some (.slab c) := by
    intro s s' own own' hp hp' h hclass hxc hpg h'
    have hc := h.class_lt hpg
    obtain ⟨lists, frees, hinv, hpacked⟩ := h
    obtain ⟨-, hmem⟩ := (hinv.owned c pg).mp hpg
    -- some slot of the page is in use
    have hne : (s.pa_to_page pg).slab.nr_alloc ≠ 0 := by
      obtain ⟨pg', hpg', hslot⟩ := hxc
      by_cases heq : pg' = pg
      · subst heq
        exact Nat.ne_of_gt (hinv.nr_alloc_pos hc hmem hx hslot).1
      · apply hpacked c hc _ pg hmem
        have hmem' := ((hinv.owned c pg').mp hpg').2
        have hsub : [pg', pg].Nodup := by simpa using heq
        exact (hsub.subperm (by simp [hmem, hmem'])).length_le
    have hpage := hinv.page c hc pg hmem
    obtain ⟨y, hy, hyobj⟩ : ∃ y ∈ slotsOf c pg, y ∈ objs := by
      by_contra hnone
      push Not at hnone
      have hsub : (slotsOf c pg) ⊆ frees pg := fun y hy => (hpage.slots y hy).mpr (hnone y hy)
      have hlen := ((slotsOf_nodup hc pg).subperm hsub).length_le
      have hcount := hpage.count
      rw [length_slotsOf] at hlen
      omega
    obtain ⟨pg', hpg', hslot'⟩ := hclass c y hyobj ⟨pg, hpg, hy⟩
    have hbase := hp.pageBase_of_slot hc hpg hy
    rw [hp'.pageBase_of_slot hc hpg' hslot'] at hbase
    rw [← hbase]
    exact hpg'
  constructor
  · intro hpg
    exact key hp' hp h' (fun c x hx => (hclass c x hx).mpr) ((hclass c x hx).mp hxc) hpg h
  · intro hpg
    exact key hp hp' h (fun c x hx => (hclass c x hx).mp) hxc hpg h'

end bobchouos
