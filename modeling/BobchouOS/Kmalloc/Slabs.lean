import BobchouOS.Kalloc.Pages
import BobchouOS.Kmalloc.Flags
import Mathlib

open lib

namespace bobchouos

/-- Size of the slots of a class, as `kmalloc_init` sets it. -/
def slotSize (c : Nat) : Nat := MIN_ALLOC_SIZE <<< c

def nrSlots (c : Nat) : Nat := PG_SIZE / slotSize c

/-- The slots of a slab page, in address order. -/
def slotsOf (c pg : Nat) : List Nat := (List.range (nrSlots c)).map fun k => pg + k * slotSize c

section Slots

variable {c pg x y : Nat}

theorem mem_slotsOf : x ∈ slotsOf c pg ↔ ∃ k < nrSlots c, x = pg + k * slotSize c := by
  simp only [slotsOf, List.mem_map, List.mem_range]
  constructor
  · rintro ⟨k, hk, rfl⟩
    exact ⟨k, hk, rfl⟩
  · rintro ⟨k, hk, rfl⟩
    exact ⟨k, hk, rfl⟩

theorem slotSize_ge (hc : c < NR_SIZE_CLASSES) : 32 ≤ slotSize c ∧ slotSize c ≤ PG_SIZE := by
  unfold NR_SIZE_CLASSES at hc
  interval_cases c <;> decide

theorem nrSlots_mul (hc : c < NR_SIZE_CLASSES) : nrSlots c * slotSize c = PG_SIZE := by
  unfold NR_SIZE_CLASSES at hc
  interval_cases c <;> rfl

theorem nrSlots_pos (hc : c < NR_SIZE_CLASSES) : 1 ≤ nrSlots c ∧ nrSlots c ≤ 128 := by
  unfold NR_SIZE_CLASSES at hc
  interval_cases c <;> decide

theorem slot_bounds (hc : c < NR_SIZE_CLASSES) (hx : x ∈ slotsOf c pg) :
    pg ≤ x ∧ x + slotSize c ≤ pg + PG_SIZE := by
  obtain ⟨k, hk, rfl⟩ := mem_slotsOf.mp hx
  have hle : (k + 1) * slotSize c ≤ nrSlots c * slotSize c := Nat.mul_le_mul_right _ hk
  rw [nrSlots_mul hc, Nat.add_mul, Nat.one_mul] at hle
  omega

theorem slots_apart (hx : x ∈ slotsOf c pg) (hy : y ∈ slotsOf c pg) (hne : x ≠ y) :
    x + slotSize c ≤ y ∨ y + slotSize c ≤ x := by
  obtain ⟨k, -, rfl⟩ := mem_slotsOf.mp hx
  obtain ⟨j, -, rfl⟩ := mem_slotsOf.mp hy
  rcases Nat.lt_trichotomy k j with hlt | rfl | hlt
  · have hle : (k + 1) * slotSize c ≤ j * slotSize c := Nat.mul_le_mul_right _ hlt
    rw [Nat.add_mul, Nat.one_mul] at hle
    omega
  · exact absurd rfl hne
  · have hle : (j + 1) * slotSize c ≤ k * slotSize c := Nat.mul_le_mul_right _ hlt
    rw [Nat.add_mul, Nat.one_mul] at hle
    omega

theorem slotsOf_nodup (hc : c < NR_SIZE_CLASSES) (pg : Nat) : (slotsOf c pg).Nodup := by
  apply List.nodup_range.map
  intro k j heq
  have hpos : 0 < slotSize c := by have := slotSize_ge hc; omega
  exact Nat.eq_of_mul_eq_mul_right hpos (Nat.add_left_cancel heq)

theorem length_slotsOf (c pg : Nat) : (slotsOf c pg).length = nrSlots c := by simp [slotsOf]

/-- As many distinct slots as the page has are all of them. -/
theorem mem_of_length_eq {free : List Nat} (hnodup : free.Nodup) (hsub : ∀ x ∈ free, x ∈ slotsOf c pg)
    (hlen : free.length = nrSlots c) (hx : x ∈ slotsOf c pg) : x ∈ free := by
  have hperm := (List.subperm_of_subset hnodup hsub).perm_of_length_le (by rw [length_slotsOf, hlen])
  exact hperm.mem_iff.mpr hx

/-- A slot has the `struct page` of its page. -/
theorem pageIdx_slot (hpg : pg % PG_SIZE = 0) (hbase : KERN_BASE ≤ pg) (hlo : pg ≤ x)
    (hhi : x < pg + PG_SIZE) : Kmem.pageIdx x = Kmem.pageIdx pg := by
  simp only [Kmem.pageIdx, Nat.shiftRight_eq_div_pow, PG_SHIFT, PG_SIZE, KERN_BASE] at *
  omega

theorem pageBase_slot (hpg : pg % PG_SIZE = 0) (hbase : KERN_BASE ≤ pg) (hlo : pg ≤ x)
    (hhi : x < pg + PG_SIZE) : Kmem.pageBase x = pg := by
  simp only [Kmem.pageBase, Kmem.pageIdx, Nat.shiftRight_eq_div_pow, Nat.shiftLeft_eq, PG_SHIFT, PG_SIZE,
    KERN_BASE] at *
  omega

end Slots

section Thread

variable {size : Nat}

theorem threadSlots_of_outside (hsize : 8 ≤ size) (left slot : Nat) (m : Mem) {x : Nat}
    (hx : x < slot ∨ slot + left * size + 8 ≤ x) : threadSlots size left slot m x = m x := by
  induction left generalizing slot m with
  | zero =>
    rw [threadSlots, Mem.storeWord_of_outside]
    omega
  | succ left ih =>
    rw [Nat.add_mul, Nat.one_mul] at hx
    rw [threadSlots, ih _ _ (by omega), Mem.storeWord_of_outside]
    omega

/-- The slots are linked in address order. -/
theorem chain_threadSlots (hsize : 8 ≤ size) (left slot : Nat) (m : Mem) (hslot : slot ≠ 0)
    (hlt : slot + left * size < 2 ^ 64) :
    Chain (fun b => ((threadSlots size left slot m).loadWord b).toNat) slot
      ((List.range (left + 1)).map fun k => slot + k * size) := by
  induction left generalizing slot m with
  | zero => simp [threadSlots, hslot]
  | succ left ih =>
    rw [Nat.add_mul, Nat.one_mul] at hlt
    rw [List.range_succ_eq_map, List.map_cons, List.map_map]
    refine ⟨by simp, by simpa using hslot, ?_⟩
    have htail := ih (slot + size) (m.storeWord slot (BitVec.ofNat 64 (slot + size))) (by omega) (by omega)
    have hlink : ((threadSlots size (left + 1) slot m).loadWord slot).toNat = slot + size := by
      rw [threadSlots, Mem.loadWord_congr (m := m.storeWord slot (BitVec.ofNat 64 (slot + size)))]
      · rw [Mem.loadWord_storeWord, BitVec.toNat_ofNat, Nat.mod_eq_of_lt (by omega)]
      · intro x _ hx
        exact threadSlots_of_outside hsize left _ _ (.inl (by omega))
    have hmap : ((List.range (left + 1)).map fun k => slot + size + k * size) =
        (List.range (left + 1)).map ((fun k => slot + k * size) ∘ Nat.succ) := by
      apply List.map_congr_left
      intro k _
      simp only [Function.comp_apply, Nat.succ_eq_add_one, Nat.add_mul, Nat.one_mul]
      omega
    rw [hmap] at htail
    simp only [Nat.zero_mul, Nat.add_zero]
    rw [hlink]
    exact htail

end Thread

/-- One slab page of class `c` with the free slots `free`, the others being the
objects in use. -/
structure SlabPage (s : Kmem) (c pg : Nat) (free objs : List Nat) : Prop where
  flags : (s.pa_to_page pg).flags = PG_SLAB
  refcount : (s.pa_to_page pg).refcount = 1
  class_idx : (s.pa_to_page pg).slab.class_idx = c
  chain : Chain s.next (s.pa_to_page pg).slab.free_list free
  nodup : free.Nodup
  inside : ∀ x ∈ free, x ∈ slotsOf c pg
  slots : ∀ x ∈ slotsOf c pg, x ∈ free ↔ x ∉ objs
  count : (s.pa_to_page pg).slab.nr_alloc + free.length = nrSlots c

/-- The lists and pages of the first `n` size classes. -/
structure SlabInv (n : Nat) (s : Kmem) (own : Nat → Option Owner) (lists frees : Nat → List Nat)
    (objs : List Nat) : Prop where
  classes : n ≤ NR_SIZE_CLASSES
  sizes : ∀ c < n, (s.size_classes c).slot_size = slotSize c
  chain : ∀ c < n, Chain (fun pg => (s.pa_to_page pg).slab.next_slab) (s.size_classes c).slabs (lists c)
  nodup : ∀ c < n, (lists c).Nodup
  owned : ∀ c pg, own pg = some (.slab c) ↔ c < n ∧ pg ∈ lists c
  page : ∀ c < n, ∀ pg ∈ lists c, SlabPage s c pg (frees pg) objs
  objs_nodup : objs.Nodup
  objs_slot : ∀ x ∈ objs, ∃ c pg, own pg = some (.slab c) ∧ x ∈ slotsOf c pg

/-- A class with several slabs has no empty one. -/
def Packed (n : Nat) (s : Kmem) (lists : Nat → List Nat) : Prop :=
  ∀ c < n, 2 ≤ (lists c).length → ∀ pg ∈ lists c, (s.pa_to_page pg).slab.nr_alloc ≠ 0

/-- The slab allocator with the objects `objs` in use. -/
def Slabs (s : Kmem) (own : Nat → Option Owner) (objs : List Nat) : Prop :=
  ∃ lists frees, SlabInv NR_SIZE_CLASSES s own lists frees objs ∧ Packed NR_SIZE_CLASSES s lists

/-- The flag of slabs is on slab pages only. -/
def Flagged (s : Kmem) (own : Nat → Option Owner) : Prop :=
  ∀ i, (s.pages i).flags = PG_SLAB → ∃ c pg, own pg = some (.slab c) ∧ Kmem.pageIdx pg = i

theorem Flagged.keep {s s' : Kmem} {own own' : Nat → Option Owner} (h : Flagged s own)
    (hflags : ∀ i, (s'.pages i).flags = PG_SLAB → (s.pages i).flags = PG_SLAB)
    (hown : ∀ c pg, own pg = some (.slab c) → (s'.pa_to_page pg).flags = PG_SLAB → own' pg = some (.slab c)) :
    Flagged s' own' := by
  intro i hi
  obtain ⟨c, pg, hpg, rfl⟩ := h i (hflags i hi)
  exact ⟨c, pg, hown c pg hpg hi, rfl⟩

/-- A page that gets the flag gets its owner too. -/
theorem Flagged.create {s s' : Kmem} {own : Nat → Option Owner} {c pg : Nat} (h : Flagged s own) (hfree : own pg = none)
    (hflags : ∀ i, (s'.pages i).flags = PG_SLAB → (s.pages i).flags = PG_SLAB ∨ i = Kmem.pageIdx pg) :
    Flagged s' (Function.update own pg (some (.slab c))) := by
  intro i hi
  rcases hflags i hi with hi | rfl
  · obtain ⟨c', q, hq, rfl⟩ := h i hi
    refine ⟨c', q, ?_, rfl⟩
    rw [Function.update_of_ne, hq]
    rintro rfl
    rw [hfree] at hq
    cases hq
  · exact ⟨c, pg, Function.update_self .., rfl⟩

/-- The owners of the slab pages. -/
def Owner.IsSlab (o : Owner) : Prop := ∃ c, o = .slab c

theorem SlabPage.congr {s s' : Kmem} {c pg : Nat} {free objs objs' : List Nat} (h : SlabPage s c pg free objs)
    (hc : c < NR_SIZE_CLASSES) (hmem : ∀ x, pg ≤ x → x < pg + PG_SIZE → s'.mem x = s.mem x)
    (hpage : ∃ next_slab, s'.pa_to_page pg =
      { s.pa_to_page pg with slab := { (s.pa_to_page pg).slab with next_slab := next_slab } })
    (hobjs : ∀ x ∈ slotsOf c pg, x ∈ objs' ↔ x ∈ objs) : SlabPage s' c pg free objs' := by
  obtain ⟨next_slab, hpage⟩ := hpage
  refine ⟨by rw [hpage]; exact h.flags, by rw [hpage]; exact h.refcount, by rw [hpage]; exact h.class_idx, ?_,
    h.nodup, h.inside, fun x hx => (h.slots x hx).trans (not_congr (hobjs x hx).symm),
    by rw [hpage]; exact h.count⟩
  rw [hpage]
  apply h.chain.congr
  intro x hx
  have hbounds := slot_bounds hc (h.inside x hx)
  have hsize := slotSize_ge hc
  unfold Kmem.next
  rw [Mem.loadWord_congr]
  exact fun a hlo hhi => hmem a (by omega) (by omega)

theorem SamePage.slabPage {s s' : Kmem} {c pg : Nat} {free objs objs' : List Nat} (h : SamePage s s' pg)
    (hc : c < NR_SIZE_CLASSES) (hpage : SlabPage s c pg free objs)
    (hobjs : ∀ x ∈ slotsOf c pg, x ∈ objs' ↔ x ∈ objs) : SlabPage s' c pg free objs' :=
  hpage.congr hc h.mem ⟨(s.pa_to_page pg).slab.next_slab, h.page⟩ hobjs

namespace SlabInv

variable {s s' : Kmem} {own own' : Nat → Option Owner} {lists frees : Nat → List Nat} {objs : List Nat}
  {n c c' pg x : Nat}

theorem lt (h : SlabInv n s own lists frees objs) (hc : c < n) : c < NR_SIZE_CLASSES :=
  Nat.lt_of_lt_of_le hc h.classes

theorem owned_of_mem (h : SlabInv n s own lists frees objs) (hc : c < n) (hpg : pg ∈ lists c) :
    own pg = some (.slab c) := (h.owned c pg).mpr ⟨hc, hpg⟩

/-- What does not touch slab pages keeps the slab allocator as it is. -/
theorem frame {T : Owner → Prop} (h : SlabInv n s own lists frees objs) (ht : Touches T s s' own own')
    (hT : ∀ c, ¬ T (.slab c)) : SlabInv n s' own' lists frees objs := by
  have hsame : ∀ c < n, ∀ pg ∈ lists c, SamePage s s' pg := fun c hc pg hpg =>
    ht.same pg _ (h.owned_of_mem hc hpg) (hT c)
  have howner : ∀ c pg, own' pg = some (.slab c) ↔ own pg = some (.slab c) := fun c pg =>
    ht.owner pg _ (hT c)
  refine ⟨h.classes, ?_, ?_, h.nodup, fun c pg => (howner c pg).trans (h.owned c pg), ?_, h.objs_nodup, ?_⟩
  · intro c hc
    rw [ht.classes hT]
    exact h.sizes c hc
  · intro c hc
    rw [ht.classes hT]
    apply (h.chain c hc).congr
    intro pg hpg
    rw [(hsame c hc pg hpg).page]
  · intro c hc pg hpg
    exact (hsame c hc pg hpg).slabPage (h.lt hc) (h.page c hc pg hpg) fun _ _ => Iff.rfl
  · intro x hx
    obtain ⟨c, pg, hpg, hslot⟩ := h.objs_slot x hx
    exact ⟨c, pg, (howner c pg).mpr hpg, hslot⟩

theorem page_unique (h : SlabInv n s own lists frees objs) (hp : Pages s own) {pg' : Nat}
    (hpg : own pg = some (.slab c)) (hpg' : own pg' = some (.slab c'))
    (hx : x ∈ slotsOf c pg) (hx' : x ∈ slotsOf c' pg') : pg = pg' := by
  have hc := h.lt ((h.owned c pg).mp hpg).1
  have hc' := h.lt ((h.owned c' pg').mp hpg').1
  have hb := slot_bounds hc hx
  have hb' := slot_bounds hc' hx'
  have hsize := slotSize_ge hc
  have hsize' := slotSize_ge hc'
  by_contra hne
  have hapart := hp.apart_of hpg hpg' hne
  omega

end SlabInv

theorem Packed.frame {s s' : Kmem} {own own' : Nat → Option Owner} {lists frees : Nat → List Nat}
    {objs : List Nat} {n : Nat} {T : Owner → Prop} (hpacked : Packed n s lists) (h : SlabInv n s own lists frees objs)
    (ht : Touches T s s' own own') (hT : ∀ c, ¬ T (.slab c)) : Packed n s' lists := by
  intro c hc hlen pg hpg
  rw [(ht.same pg _ (h.owned_of_mem hc hpg) (hT c)).page]
  exact hpacked c hc hlen pg hpg

theorem Slabs.frame {s s' : Kmem} {own own' : Nat → Option Owner} {objs : List Nat} {T : Owner → Prop}
    (h : Slabs s own objs) (ht : Touches T s s' own own') (hT : ∀ c, ¬ T (.slab c)) : Slabs s' own' objs := by
  obtain ⟨lists, frees, hinv, hpacked⟩ := h
  exact ⟨lists, frees, hinv.frame ht hT, hpacked.frame hinv ht hT⟩

end bobchouos
