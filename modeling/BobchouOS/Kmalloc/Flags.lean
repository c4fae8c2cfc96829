import BobchouOS.Kmalloc.Model

open lib

namespace bobchouos

/-- The data of the slab allocator that the buddy allocator leaves alone: the
flags of all pages and the size classes. -/
structure SameSlabs (s s' : Kmem) : Prop where
  flags : ∀ i, (s'.pages i).flags = (s.pages i).flags
  size_classes : s'.size_classes = s.size_classes

namespace SameSlabs

variable {s s' s'' : Kmem}

theorem refl (s : Kmem) : SameSlabs s s := ⟨fun _ => rfl, rfl⟩

theorem trans (h : SameSlabs s s') (h' : SameSlabs s' s'') : SameSlabs s s'' :=
  ⟨fun i => (h'.flags i).trans (h.flags i), h'.size_classes.trans h.size_classes⟩

theorem of_pages (hpages : s'.pages = s.pages) (hclasses : s'.size_classes = s.size_classes) : SameSlabs s s' :=
  ⟨fun i => by rw [hpages], hclasses⟩

theorem setPage (s : Kmem) (pa : Nat) {pg : Page} (hpg : pg.flags = (s.pa_to_page pa).flags) :
    SameSlabs s (s.setPage pa pg) := by
  refine ⟨fun i => ?_, rfl⟩
  by_cases hi : i = Kmem.pageIdx pa
  · subst hi
    simp only [Kmem.setPage, Function.update_self]
    exact hpg
  · simp [Kmem.setPage, hi]

theorem setSlab (s : Kmem) (pa : Nat) (slab : SlabInfo) : SameSlabs s (s.setSlab pa slab) := setPage s pa rfl

theorem splitDown (b count i : Nat) (s : Kmem) : SameSlabs s (splitDown b count i s) := by
  induction count generalizing i s with
  | zero => exact .refl s
  | succ count ih =>
    rw [bobchouos.splitDown]
    obtain ⟨buddy, hbuddy⟩ : ∃ buddy, buddy = b ^^^ PG_SIZE <<< i := ⟨_, rfl⟩
    rw [← hbuddy]
    have hpage : SameSlabs s (s.setPage buddy { s.pa_to_page buddy with order := i }) := setPage s buddy rfl
    have hpush : SameSlabs s ((s.setPage buddy { s.pa_to_page buddy with order := i }).pushFree i buddy) :=
      hpage.trans (.of_pages rfl rfl)
    exact hpush.trans (ih _ _)

theorem claim (b order : Nat) (s : Kmem) : SameSlabs s (claim b order s) := by
  have hmem : SameSlabs s { s with mem := s.mem.memset b 0 (PG_SIZE <<< order) } := .of_pages rfl rfl
  exact hmem.trans (setPage _ b rfl)

theorem buddy_alloc (order : Nat) (s : Kmem) : wpe (fun _ => True) (buddy_alloc order) (fun _ s' => SameSlabs s s') s := by
  unfold bobchouos.buddy_alloc
  rw [wpe_ite]
  refine ⟨fun _ => trivial, fun _ => ?_⟩
  simp only [wpe_bind, wpe_get]
  cases searchUp s (MAX_ORDER - order) order with
  | none => exact .refl s
  | some found_order =>
    simp only [wpe_bind, wpe_modify, wpe_pure]
    have hpop : SameSlabs s (s.popFree found_order) := .of_pages rfl rfl
    exact (hpop.trans (splitDown _ _ _ _)).trans (claim _ _ _)

theorem unlink (order : Nat) (pb : Kmem.LinkPtr) (s : Kmem) : SameSlabs s (unlink order pb s) := by
  cases pb <;> exact .of_pages rfl rfl

theorem coalesce (left addr order : Nat) (s : Kmem) :
    wpe (fun _ => True) (coalesce left addr order) (fun _ s' => SameSlabs s s') s := by
  induction left generalizing addr order s with
  | zero => exact .refl s
  | succ left ih =>
    simp only [bobchouos.coalesce, wpe_bind, wpe_get, wpe_ite]
    refine ⟨fun _ => .refl s, fun _ => ?_⟩
    cases findLink s (addr ^^^ PG_SIZE <<< order) (NR_PAGES + 1) (.head order) with
    | none => trivial
    | some pb =>
      simp only [wpe_ite, wpe_bind, wpe_modify]
      refine ⟨fun _ => .refl s, fun _ => wpe_mono (ih _ _ _) fun _ s' hs' => (unlink order pb s).trans hs'⟩

theorem release (pa order : Nat) (s : Kmem) : SameSlabs s (release pa order s) := by
  have hmem : SameSlabs s { s with mem := s.mem.memset pa 1 (PG_SIZE <<< order) } := .of_pages rfl rfl
  exact hmem.trans (setPage _ pa rfl)

theorem buddy_free (pa order : Nat) (s : Kmem) :
    wpe (fun _ => True) (buddy_free pa order) (fun _ s' => SameSlabs s s') s := by
  simp only [bobchouos.buddy_free, wpe_bind, wpe_get, wpe_ite]
  refine ⟨fun _ => trivial, fun _ => ⟨fun _ => trivial, fun _ => ?_⟩⟩
  rw [wpe_modify]
  refine wpe_mono (coalesce _ _ _ _) fun r s' hs' => ?_
  exact ((release pa order s).trans hs').trans (.of_pages rfl rfl)

theorem addBlocks (fuel addr : Nat) (s : Kmem) :
    wpe (fun _ => True) (addBlocks fuel addr) (fun _ s' => SameSlabs s s') s := by
  induction fuel generalizing addr s with
  | zero =>
    simp only [bobchouos.addBlocks, wpe_ite]
    exact ⟨fun _ => trivial, fun _ => .refl s⟩
  | succ fuel ih =>
    rw [bobchouos.addBlocks, wpe_ite]
    refine ⟨fun _ => ?_, fun _ => .refl s⟩
    generalize largestOrder addr MAX_ORDER 0 = order
    simp only [wpe_bind, wpe_modify]
    refine wpe_mono (buddy_free addr order _) fun _ s₁ h₁ => wpe_mono (ih _ _) fun _ s₂ h₂ => ?_
    have hset : SameSlabs s (s.setPage addr { s.pa_to_page addr with refcount := 1, order := order }) :=
      setPage s addr rfl
    exact (hset.trans h₁).trans h₂

/-- No page has flags after `kalloc_init`. -/
theorem kalloc_init (kernel_end : Nat) (s : Kmem) : wpe (fun _ => True) (kalloc_init kernel_end)
    (fun _ s' => (∀ i, (s'.pages i).flags = 0) ∧ s'.size_classes = s.size_classes) s := by
  simp only [bobchouos.kalloc_init, wpe_bind, wpe_modify]
  exact wpe_mono (addBlocks _ _ _) fun _ s' h => ⟨h.flags, h.size_classes⟩

end SameSlabs

end bobchouos
