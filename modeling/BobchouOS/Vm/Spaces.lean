import BobchouOS.Kmalloc.Slabs
import BobchouOS.Lib.Sharing
import BobchouOS.Vm.FreeTables

open lib

namespace bobchouos

/-- Number of the virtual pages below the trapframe. -/
def USER_VPNS : Nat := TRAPFRAME / PG_SIZE

namespace Owner

/-- A page of user memory. -/
def IsUser (o : Owner) : Prop := ∃ v, o = .user v

/-- The pages that each process has for itself. -/
def IsSingle (o : Owner) : Prop := (∃ p, o = .kstack p) ∨ ∃ p, o = .trapframe p

end Owner

namespace Kmem

/-- The page of user memory that a virtual page is mapped to, and the right to
write it. -/
def entry (s : Kmem) (root v : Nat) : Option (Nat × Bool) :=
  if v < USER_VPNS ∧ Has (s.leafPte root v) PTE_V then
    some (pte_to_pa (s.leafPte root v), decide (Has (s.leafPte root v) PTE_W))
  else none

/-- The bytes of an address space, zero where no page is mapped. -/
def view (s : Kmem) (root x : Nat) : BitVec 8 :=
  match s.entry root (x / PG_SIZE) with
  | some (pa, _) => s.mem (pa + x % PG_SIZE)
  | none => 0

end Kmem

/-- The virtual page of a page of user memory. -/
def home (own : Nat → Option Owner) (pa : Nat) : Option Nat :=
  match own pa with
  | some (.user v) => some v
  | _ => none

theorem home_eq_some {own : Nat → Option Owner} {pa v : Nat} : home own pa = some v ↔ own pa = some (.user v) := by
  unfold home
  split
  · rename_i heq
    rw [heq]
    simp
  · rename_i hne
    exact iff_of_false (by simp) fun heq => hne v heq

/-- The page tables with the given roots, and nothing that belongs to any other
page table. All blocks in use are single pages. -/
structure PageTables (s : Kmem) (own : Nat → Option Owner) (roots : List Nat) : Prop where
  pages : Pages s own
  tables : ∀ r ∈ roots, PageTable s own r
  rooted : ∀ pa r path, own pa = some (.table r path) → r ∈ roots
  single : ∀ pa o, own pa = some o → o.IsSingle → (s.pa_to_page pa).refcount = 1
  small : ∀ pa o, own pa = some o → o.order = 0

/-- The user memory of the address spaces with the given roots. -/
structure Spaces (s : Kmem) (own : Nat → Option Owner) (roots : List Nat) : Prop extends PageTables s own roots where
  sharing : Sharing roots s.entry (home own) fun pa => (s.pa_to_page pa).refcount

/-- An effect that is confined to pages with an owner in `T`, also in what the
other address spaces see. -/
structure Effect (T : Owner → Prop) (roots : List Nat) (s s' : Kmem) (own own' : Nat → Option Owner) : Prop where
  touches : Touches T s s' own own'
  views : ∀ r ∈ roots, (∀ path, ¬ T (.table r path)) → s'.view r = s.view r

/-- What an operation on the address space with root `r` may touch. -/
def Owner.InSpace (r : Nat) (o : Owner) : Prop := o.IsTable r ∨ o.IsUser

variable {s s' s'' : Kmem} {own own' own'' : Nat → Option Owner} {roots roots' : List Nat} {r v a x pa pg : Nat}
  {T U : Owner → Prop} {w : Bool}

namespace Effect

theorem refl (T : Owner → Prop) (roots : List Nat) (s : Kmem) (own : Nat → Option Owner) :
    Effect T roots s s own own := ⟨.refl T s own, fun _ _ _ => rfl⟩

theorem trans (h : Effect T roots s s' own own') (h' : Effect T roots s' s'' own' own'') :
    Effect T roots s s'' own own'' :=
  ⟨h.touches.trans h'.touches, fun r hr hT => (h'.views r hr hT).trans (h.views r hr hT)⟩

theorem mono (h : Effect T roots s s' own own') (hTU : ∀ o, T o → U o) : Effect U roots s s' own own' :=
  ⟨h.touches.mono hTU, fun r hr hU => h.views r hr fun path => mt (hTU _) (hU path)⟩

theorem sub (h : Effect T roots s s' own own') (hsub : ∀ r ∈ roots', r ∈ roots) :
    Effect T roots' s s' own own' := ⟨h.touches, fun r hr => h.views r (hsub r hr)⟩

end Effect

theorem entry_congr (h : s'.leafPte r v = s.leafPte r v) : s'.entry r v = s.entry r v := by
  unfold Kmem.entry
  rw [h]

theorem view_congr (hentry : s'.entry r = s.entry r)
    (hmem : ∀ v pa w, s.entry r v = some (pa, w) → ∀ y, pa ≤ y → y < pa + PG_SIZE → s'.mem y = s.mem y) :
    s'.view r = s.view r := by
  funext y
  unfold Kmem.view
  rw [hentry]
  cases he : s.entry r (y / PG_SIZE) with
  | none => rfl
  | some e => exact hmem _ e.1 e.2 he _ (Nat.le_add_right _ _) (Nat.add_lt_add_left (Nat.mod_lt _ (by decide)) _)

namespace PageTables

theorem root_owned (h : PageTables s own roots) (hr : r ∈ roots) : own r = some (.table r []) :=
  (h.tables r hr).root_owned

/-- There are no more page tables than pages. -/
theorem length_le (h : PageTables s own roots) (hnodup : roots.Nodup) : roots.length ≤ NR_PAGES :=
  h.pages.length_le hnodup fun r hr => by rw [h.root_owned hr]; simp

theorem frame (h : PageTables s own roots) (hp : Pages s' own') (ht : Touches T s s' own own')
    (hT : ∀ r path, ¬ T (.table r path)) (hsmall : ∀ o, T o → o.order = 0)
    (hsingle : ∀ pa o, T o → own' pa = some o → o.IsSingle → (s'.pa_to_page pa).refcount = 1) :
    PageTables s' own' roots := by
  refine ⟨hp, fun r hr => (h.tables r hr).frame ht (hT r), fun pa r path hpa => ?_, fun pa o hpa ho => ?_,
    fun pa o hpa => ?_⟩
  · exact h.rooted pa r path ((ht.owner pa _ (hT r path)).mp hpa)
  · by_cases hTo : T o
    · exact hsingle pa o hTo hpa ho
    · have hold := (ht.owner pa o hTo).mp hpa
      rw [(ht.same pa o hold hTo).page]
      exact h.single pa o hold ho
  · by_cases hTo : T o
    · exact hsmall o hTo
    · exact h.small pa o ((ht.owner pa o hTo).mp hpa)

theorem leafPte_frame (h : PageTables s own roots) (ht : Touches T s s' own own')
    (hT : ∀ path, ¬ T (.table r path)) (hr : r ∈ roots) : s'.leafPte r = s.leafPte r :=
  ((h.tables r hr).leafPte_touches ht hT).2

/-- Other tables of one page table, which may be a new one or gone afterwards. -/
theorem retable (h : PageTables s own roots) (hp : Pages s' own') (ht : Touches (Owner.IsTable r) s s' own own')
    (hroots : ∀ r', r' ≠ r → (r' ∈ roots' ↔ r' ∈ roots)) (htable : r ∈ roots' → PageTable s' own' r)
    (hgone : ∀ pa path, own' pa = some (.table r path) → r ∈ roots') : PageTables s' own' roots' := by
  have hne : ∀ r' path, r' ≠ r → ¬ Owner.IsTable r (.table r' path) := by
    rintro r' path hne ⟨path', heq⟩
    cases heq
    exact hne rfl
  refine ⟨hp, fun r' hr' => ?_, fun pa r' path hpa => ?_, fun pa o hpa ho => ?_, fun pa o hpa => ?_⟩
  · by_cases hrr : r' = r
    · rw [hrr] at hr' ⊢
      exact htable hr'
    · exact (h.tables r' ((hroots r' hrr).mp hr')).frame ht fun path => hne r' path hrr
  · by_cases hrr : r' = r
    · rw [hrr] at hpa ⊢
      exact hgone pa path hpa
    · exact (hroots r' hrr).mpr (h.rooted pa r' path ((ht.owner pa _ (hne r' path hrr)).mp hpa))
  · have hTo : ¬ o.IsTable r := by
      rintro ⟨path, rfl⟩
      obtain ⟨p, heq⟩ | ⟨p, heq⟩ := ho <;> cases heq
    have hold := (ht.owner pa o hTo).mp hpa
    rw [(ht.same pa o hold hTo).page]
    exact h.single pa o hold ho
  · by_cases hTo : o.IsTable r
    · obtain ⟨path, rfl⟩ := hTo
      rfl
    · exact h.small pa o ((ht.owner pa o hTo).mp hpa)

/-- Tables added to one page table. -/
theorem grown (h : PageTables s own roots) (hr : r ∈ roots) (hg : Grown s s' own own' r) : PageTables s' own' roots :=
  h.retable hg.pages hg.touches (fun _ _ => Iff.rfl) (fun _ => hg.table) fun _ _ _ => hr

theorem leafPte_grown (h : PageTables s own roots) (hg : Grown s s' own own' r) {r' : Nat} (hr' : r' ∈ roots) :
    s'.leafPte r' = s.leafPte r' := by
  by_cases hrr : r' = r
  · rw [hrr]
    exact hg.leaf
  · apply h.leafPte_frame hg.touches _ hr'
    rintro path ⟨path', heq⟩
    cases heq
    exact hrr rfl

/-- Writing one leaf of one page table. -/
theorem setLeaf (h : PageTables s own roots) (hr : r ∈ roots) (hv : v < 2 ^ 26) (hx : x < 2 ^ 64)
    (ha : s.leafSlot r v = some a) :
    PageTables (s.setPte a x) own roots ∧ Touches (Owner.IsTable r) s (s.setPte a x) own own ∧
      (∀ r' ∈ roots, (s.setPte a x).leafSlot r' = s.leafSlot r') ∧
      ∀ r' ∈ roots, ∀ v' < 2 ^ 26, (s.setPte a x).leafPte r' v' = setAt s.leafPte r v x r' v' := by
  obtain ⟨htable, hslot, hself, hother⟩ := (h.tables r hr).setLeaf h.pages hv hx ha
  obtain ⟨hp, ht⟩ := (h.tables r hr).touches_setPte (x := x) h.pages ha
  have hne : ∀ r' path, r' ≠ r → ¬ Owner.IsTable r (.table r' path) := by
    rintro r' path hne ⟨path', heq⟩
    cases heq
    exact hne rfl
  refine ⟨h.retable hp ht (fun _ _ => Iff.rfl) (fun _ => htable) fun _ _ _ => hr, ht, fun r' hr' => ?_,
    fun r' hr' v' hv' => ?_⟩
  · by_cases hrr : r' = r
    · rw [hrr, hslot]
    · exact ((h.tables r' hr').leafPte_touches ht fun path => hne r' path hrr).1
  · by_cases hrr : r' = r
    · subst hrr
      by_cases hvv : v' = v
      · rw [hvv, hself, setAt_self]
      · rw [hother v' hv' hvv, setAt_of_ne _ _ (.inr hvv)]
    · rw [((h.tables r' hr').leafPte_touches ht fun path => hne r' path hrr).2, setAt_of_ne _ _ (.inl hrr)]

end PageTables

/-- What touches no user memory keeps it shared as it is. -/
theorem Touches.sharing (ht : Touches T s s' own own') (hT : ∀ v, ¬ T (.user v))
    (hentry : ∀ r ∈ roots, ∀ v, s'.entry r v = s.entry r v)
    (h : Sharing roots s.entry (home own) fun pa => (s.pa_to_page pa).refcount) :
    Sharing roots s'.entry (home own') fun pa => (s'.pa_to_page pa).refcount := by
  refine h.congr hentry (fun pa => ?_) fun pa hpa => ?_
  · apply Option.ext
    intro v
    rw [home_eq_some, home_eq_some]
    exact ht.owner pa _ (hT v)
  · obtain ⟨v, hv⟩ := Option.ne_none_iff_exists'.mp hpa
    rw [(ht.same pa _ (home_eq_some.mp hv) (hT v)).page]

namespace Spaces

theorem entry_owned (h : Spaces s own roots) (hr : r ∈ roots) (he : s.entry r v = some (pa, w)) :
    own pa = some (.user v) := home_eq_some.mp (h.sharing.home_of r hr v pa w he)

/-- What touches no tables and no user memory is an effect that address spaces
do not see. -/
theorem effect_of_touches (h : Spaces s own roots) (ht : Touches T s s' own own')
    (hT : ∀ o, T o → ¬ o.IsUser) : Effect T roots s s' own own' := by
  refine ⟨ht, fun r hr hTr => ?_⟩
  have hleaf := h.leafPte_frame ht hTr hr
  apply view_congr
  · funext v
    exact entry_congr (by rw [hleaf])
  · intro v pa w he
    exact (ht.same pa _ (h.entry_owned hr he) fun hTo => hT _ hTo ⟨v, rfl⟩).mem

theorem frame (h : Spaces s own roots) (hp : Pages s' own') (ht : Touches T s s' own own')
    (hT : ∀ o, T o → (∀ r, ¬ o.IsTable r) ∧ ¬ o.IsUser) (hsmall : ∀ o, T o → o.order = 0)
    (hsingle : ∀ pa o, T o → own' pa = some o → o.IsSingle → (s'.pa_to_page pa).refcount = 1) :
    Spaces s' own' roots := by
  have htab : ∀ r path, ¬ T (.table r path) := fun r path hTo => (hT _ hTo).1 r ⟨path, rfl⟩
  have huser : ∀ v, ¬ T (.user v) := fun v hTo => (hT _ hTo).2 ⟨v, rfl⟩
  refine ⟨h.toPageTables.frame hp ht htab hsmall hsingle, ht.sharing huser (fun r hr v => ?_) h.sharing⟩
  exact entry_congr (by rw [h.leafPte_frame ht (htab r) hr])

/-- Slab pages are apart from address spaces. -/
theorem slab (h : Spaces s own roots) (hp : Pages s' own') (ht : Touches Owner.IsSlab s s' own own') :
    Spaces s' own' roots := by
  apply h.frame hp ht
  · rintro _ ⟨c, rfl⟩
    exact ⟨fun r ⟨_, heq⟩ => (nomatch heq), fun ⟨_, heq⟩ => (nomatch heq)⟩
  · rintro _ ⟨c, rfl⟩
    rfl
  · rintro pa _ ⟨c, rfl⟩ - (⟨_, heq⟩ | ⟨_, heq⟩) <;> cases heq

/-- Tables added to one address space. -/
theorem grown (h : Spaces s own roots) (hr : r ∈ roots) (hg : Grown s s' own own' r) :
    Spaces s' own' roots ∧ Effect (Owner.IsTable r) roots s s' own own' := by
  have huser : ∀ o : Owner, o.IsTable r → ¬ o.IsUser := by
    rintro _ ⟨path, rfl⟩ ⟨v, heq⟩
    cases heq
  refine ⟨⟨h.toPageTables.grown hr hg, hg.touches.sharing (fun v hTo => huser _ hTo ⟨v, rfl⟩) (fun r' hr' v => ?_)
    h.sharing⟩, h.effect_of_touches hg.touches huser⟩
  exact entry_congr (by rw [h.leafPte_grown hg hr'])

/-- The number of references fits the 16 bits of the count. -/
theorem refcount_lt (h : Spaces s own roots) (hpa : own pa = some (.user v)) :
    (s.pa_to_page pa).refcount ≤ NR_PAGES :=
  (h.sharing.count_le (home_eq_some.mpr hpa)).trans (h.length_le h.sharing.nodup)

end Spaces

end bobchouos
