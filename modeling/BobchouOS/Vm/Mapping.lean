import BobchouOS.Vm.Spaces

open lib

namespace bobchouos

/-- The flags of a leaf that `map_pages` writes. -/
def leafFlags (perm : Nat) : Nat := perm ||| PTE_V ||| PTE_A ||| PTE_D

section leaf

variable {pa perm : Nat}

theorem leafFlags_lt (hperm : perm < 1024) : leafFlags perm < 1024 :=
  Nat.or_lt_two_pow (n := 10) (Nat.or_lt_two_pow (Nat.or_lt_two_pow hperm (by decide)) (by decide)) (by decide)

theorem leaf_parts (haligned : pa % PG_SIZE = 0) (hlt : pa < 2 ^ 56) (hperm : perm < 1024) :
    pte_to_pa (pa_to_pte pa ||| leafFlags perm) = pa ∧
      pte_flags (pa_to_pte pa ||| leafFlags perm) = leafFlags perm ∧ pa_to_pte pa ||| leafFlags perm < 2 ^ 64 :=
  pte_of_parts haligned hlt (leafFlags_lt hperm)

theorem has_leafFlags (perm f : Nat) : Has (leafFlags perm) f ↔
    Has perm f ∨ Has PTE_V f ∨ Has PTE_A f ∨ Has PTE_D f := by
  simp only [leafFlags, has_or, or_assoc]

/-- A condition on the flags of a leaf. -/
theorem has_leaf (haligned : pa % PG_SIZE = 0) (hlt : pa < 2 ^ 56) (hperm : perm < 1024) {f : Nat} (hf : f < 1024) :
    Has (pa_to_pte pa ||| leafFlags perm) f ↔ Has perm f ∨ Has PTE_V f ∨ Has PTE_A f ∨ Has PTE_D f := by
  rw [← has_flags hf, (leaf_parts haligned hlt hperm).2.1, has_leafFlags]

end leaf

variable {E : Halt → Prop} {s s' : Kmem} {own own' : Nat → Option Owner} {roots : List Nat}
  {r va v a pa pg perm : Nat} {w : Bool}

/-- `map_pages` of one page: it fails when a table is missing and no page is free
for it, and otherwise writes the leaf. -/
theorem map_page_spec (hp : Pages s own) (h : PageTable s own r) (hva : va % PG_SIZE = 0) (hpa : pa % PG_SIZE = 0)
    (hhigh : MAX_VA ≤ va → E (.panic "walk: va >= MAX_VA"))
    (hdouble : Has (s.leafPte r (va / PG_SIZE)) PTE_V → E (.panic "map_pages: double-map va=%p")) :
    wpe E (map_pages r va PG_SIZE pa perm) (fun ret s' => va < MAX_VA ∧ ∃ s1 own', Grown s s1 own own' r ∧
      ((ret = -1 ∧ s' = s1 ∧ Exhausted s1) ∨
        ret = 0 ∧ ¬ Has (s.leafPte r (va / PG_SIZE)) PTE_V ∧ ∃ a, s1.leafSlot r (va / PG_SIZE) = some a ∧
          s' = s1.setPte a (pa_to_pte pa ||| leafFlags perm))) s := by
  unfold map_pages
  rw [if_neg (by decide), if_neg (by rw [hva, hpa]; decide), show PG_SIZE >>> PG_SHIFT % 2 ^ 32 = 1 by decide]
  simp only [mapLoop, wpe_bind]
  by_cases hmax : MAX_VA ≤ va
  · unfold walk
    rw [if_pos hmax, wpe_panic]
    exact hhigh hmax
  · replace hmax : va < MAX_VA := by omega
    refine wpe_mono (walk_spec hp h hmax).wpe ?_
    rintro a s1 ⟨own', hg, -, ⟨rfl, hex, -⟩ | ha⟩
    · rw [if_pos rfl, wpe_pure]
      exact ⟨hmax, s1, own', hg, .inl ⟨rfl, rfl, hex⟩⟩
    · have hne := hg.table.slot_ne_zero hg.pages ha
      have hleaf : s1.pte a = s.leafPte r (va / PG_SIZE) := by
        rw [← hg.leaf, Kmem.leafPte, ha]
        rfl
      simp only [if_neg hne, wpe_bind, wpe_get, wpe_ite, wpe_panic, wpe_modify, wpe_pure, hleaf]
      refine ⟨hdouble, fun hnot => ⟨hmax, s1, own', hg, .inr ⟨trivial, hnot, a, ha, ?_⟩⟩⟩
      rw [leafFlags, ← Nat.or_assoc, ← Nat.or_assoc, ← Nat.or_assoc]

/-- The entry of a leaf. -/
theorem entry_eq (hv : v < USER_VPNS) (hvalid : Has (s.leafPte r v) PTE_V) :
    s.entry r v = some (pte_to_pa (s.leafPte r v), decide (Has (s.leafPte r v) PTE_W)) := by
  rw [Kmem.entry, if_pos ⟨hv, hvalid⟩]

theorem entry_none (hv : ¬ Has (s.leafPte r v) PTE_V) : s.entry r v = none := by
  rw [Kmem.entry, if_neg fun h => hv h.2]

theorem entry_some (he : s.entry r v = some (pa, w)) :
    v < USER_VPNS ∧ Has (s.leafPte r v) PTE_V ∧ pte_to_pa (s.leafPte r v) = pa ∧
      w = decide (Has (s.leafPte r v) PTE_W) := by
  unfold Kmem.entry at he
  split at he
  · rename_i hcond
    cases he
    exact ⟨hcond.1, hcond.2, rfl, rfl⟩
  · cases he

theorem entry_ne_none : s.entry r v ≠ none ↔ v < USER_VPNS ∧ Has (s.leafPte r v) PTE_V := by
  unfold Kmem.entry
  split <;> simp_all

theorem USER_VPNS_lt (hv : v < USER_VPNS) : v < 2 ^ 26 := Nat.lt_trans hv (by decide)

/-- The entries after a change of one leaf of user memory. -/
theorem entry_setAt {x : Nat} (hv : v < USER_VPNS)
    (hleaf : ∀ r' ∈ roots, ∀ v' < 2 ^ 26, s'.leafPte r' v' = setAt s.leafPte r v x r' v') {r' : Nat} (hr' : r' ∈ roots)
    (v' : Nat) : s'.entry r' v' =
      setAt s.entry r v (if Has x PTE_V then some (pte_to_pa x, decide (Has x PTE_W)) else none) r' v' := by
  by_cases hlt : v' < USER_VPNS
  · have heq := hleaf r' hr' v' (USER_VPNS_lt hlt)
    by_cases hat : r' = r ∧ v' = v
    · obtain ⟨rfl, rfl⟩ := hat
      rw [setAt_self] at heq ⊢
      simp only [Kmem.entry, heq, hlt, true_and]
    · rw [setAt_of_ne _ _ (by tauto)] at heq ⊢
      exact entry_congr heq
  · rw [setAt_of_ne _ _ (.inr (by omega)), Kmem.entry, Kmem.entry, if_neg fun h => hlt h.1, if_neg fun h => hlt h.1]

/-- The page tables while a new page has been taken for a virtual page. -/
theorem Spaces.held (h : Spaces s own roots) (hh : Held 0 s s' own pg) (v : Nat) :
    PageTables s' (Function.update own pg (some (.user v))) roots ∧
      ∀ r ∈ roots, s'.leafPte r = s.leafPte r := by
  have ht : Touches (· = Owner.user v) s s' own (Function.update own pg (some (.user v))) := .of_held hh rfl
  refine ⟨h.toPageTables.frame (hh.pages _ rfl) ht (by simp) (by simp [Owner.order]) ?_, fun r hr => h.leafPte_frame ht (by simp) hr⟩
  rintro pa _ rfl - (⟨_, heq⟩ | ⟨_, heq⟩) <;> cases heq

/-- No address space sees what happens to other tables, nor which tables its own
leaves are in. -/
theorem Spaces.view_of_leafPte (h : Spaces s own roots) (hr : r ∈ roots) {T : Owner → Prop} (ht : Touches T s s' own own')
    (hT : ∀ v, ¬ T (.user v)) (hleaf : s'.leafPte r = s.leafPte r) : s'.view r = s.view r := by
  apply view_congr
  · funext v
    exact entry_congr (by rw [hleaf])
  · intro v pa w he
    exact (ht.same pa _ (h.entry_owned hr he) (hT v)).mem

/-- A new page entered at one virtual page of an address space. -/
structure Entered (s₀ s s' : Kmem) (own₀ own' : Nat → Option Owner) (roots : List Nat) (r v pg x : Nat) : Prop where
  spaces : Spaces s' own' roots
  effect : Effect (Owner.InSpace r) roots s₀ s' own₀ own'
  vpn_lt : v < USER_VPNS
  empty : ¬ Has (s₀.leafPte r v) PTE_V
  owner : own' pg = some (.user v)
  leaf : ∀ v' < 2 ^ 26, s'.leafPte r v' = if v' = v then x else s₀.leafPte r v'
  view : ∀ y, s'.view r y = if y / PG_SIZE = v then s.mem (pg + y % PG_SIZE) else s₀.view r y
  count : (s'.pa_to_page pg).refcount = 1
  old : ∀ q u, own₀ q = some (.user u) → SamePage s₀ s' q

theorem user_not_table (r v : Nat) : ¬ Owner.IsTable r (.user v) := by
  rintro ⟨path, heq⟩
  cases heq

/-- A page that has been filled becomes the page of an empty virtual page. -/
theorem Spaces.enter {s₀ s s1 : Kmem} {own₀ own1 : Nat → Option Owner} (h : Spaces s₀ own₀ roots) (hr : r ∈ roots)
    (hh : Held 0 s₀ s own₀ pg) (hperm : perm < 1024) (hv : v < USER_VPNS)
    (hg : Grown s s1 (Function.update own₀ pg (some (.user v))) own1 r) (hempty : ¬ Has (s₀.leafPte r v) PTE_V)
    (ha : s1.leafSlot r v = some a) :
    Entered s₀ s (s1.setPte a (pa_to_pte pg ||| leafFlags perm)) own₀ own1 roots r v pg
      (pa_to_pte pg ||| leafFlags perm) := by
  obtain ⟨htab, hleaf0⟩ := h.held hh v
  have hpgown : Function.update own₀ pg (some (.user v)) pg = some (.user v) := Function.update_self ..
  have hrange := htab.pages.range_of hpgown
  have hlt : pg < 2 ^ 56 := by
    simp only [PHYS_STOP] at hrange
    omega
  obtain ⟨hpa, hflags, hx⟩ := leaf_parts hrange.1 hlt hperm
  have hvalid : Has (pa_to_pte pg ||| leafFlags perm) PTE_V :=
    (has_leaf hrange.1 hlt hperm (by decide)).mpr (.inr (.inl (by decide)))
  obtain ⟨x, hxdef⟩ : ∃ x, x = pa_to_pte pg ||| leafFlags perm := ⟨_, rfl⟩
  rw [← hxdef] at hpa hx hvalid ⊢
  have htab1 := htab.grown hr hg
  obtain ⟨htab2, ht2, -, hleaf2⟩ := htab1.setLeaf hr (USER_VPNS_lt hv) hx ha
  obtain ⟨s2, hs2⟩ : ∃ s2, s2 = s1.setPte a x := ⟨_, rfl⟩
  rw [← hs2] at htab2 ht2 hleaf2 ⊢
  have hleaf : ∀ r' ∈ roots, ∀ v' < 2 ^ 26, s2.leafPte r' v' = setAt s₀.leafPte r v x r' v' := by
    intro r' hr' v' hv'
    rw [hleaf2 r' hr' v' hv']
    simp only [setAt, htab.leafPte_grown hg hr', hleaf0 r' hr']
  have hentry := fun r' (hr' : r' ∈ roots) v' => entry_setAt (s := s₀) hv hleaf hr' v'
  simp only [if_pos hvalid, hpa] at hentry
  -- the owners of user memory, and its contents
  have howner : ∀ q u, own1 q = some (.user u) ↔ Function.update own₀ pg (some (.user v)) q = some (.user u) :=
    fun q u => hg.touches.owner q _ (user_not_table r u)
  have hsame : ∀ q u, Function.update own₀ pg (some (.user v)) q = some (.user u) → SamePage s s2 q := by
    intro q u hq
    exact (hg.touches.same q _ hq (user_not_table r u)).trans
      (ht2.same q _ ((howner q u).mpr hq) (user_not_table r u))
  have hne : ∀ q u, own₀ q = some (.user u) → q ≠ pg := by
    rintro q u hq rfl
    rw [hh.was_free] at hq
    cases hq
  have hold : ∀ q u, own₀ q = some (.user u) → SamePage s₀ s2 q := by
    intro q u hq
    refine (hh.same q (by rw [hq]; simp)).trans (hsame q u ?_)
    rw [Function.update_of_ne (hne q u hq), hq]
  have hfresh : home own₀ pg = none := by
    unfold home
    rw [hh.was_free]
  refine ⟨⟨htab2, ?_⟩, ⟨?_, fun r' hr' hT => ?_⟩, hv, hempty, ?_, fun v' hv' => ?_, fun y => ?_,
    by rw [(hsame pg v hpgown).page]; exact hh.refcount, hold⟩
  · refine (h.sharing.map (w := decide (Has x PTE_W)) hr (entry_none hempty) hfresh).congr hentry ?_ ?_
    · intro q
      apply Option.ext
      intro u
      rw [home_eq_some, howner]
      by_cases hq : q = pg
      · subst hq
        simp
      · rw [Function.update_of_ne hq, Function.update_of_ne hq, home_eq_some]
    · intro q hq
      by_cases hqp : q = pg
      · subst hqp
        rw [Function.update_self, (hsame q v hpgown).page]
        exact hh.refcount
      · rw [Function.update_of_ne hqp] at hq ⊢
        obtain ⟨u, hu⟩ := Option.ne_none_iff_exists'.mp hq
        rw [(hold q u (home_eq_some.mp hu)).page]
  · have ht0 : Touches (Owner.InSpace r) s₀ s own₀ (Function.update own₀ pg (some (.user v))) :=
      .of_held hh (.inr ⟨v, rfl⟩)
    exact (ht0.trans (hg.touches.mono fun _ => .inl)).trans (ht2.mono fun _ => .inl)
  · have hrr : r' ≠ r := by
      rintro rfl
      exact hT [] (.inl ⟨[], rfl⟩)
    apply view_congr
    · funext v'
      rw [hentry r' hr', setAt_of_ne _ _ (.inl hrr)]
    · intro u q w he
      exact (hold q u (h.entry_owned hr' he)).mem
  · exact (howner pg v).mpr hpgown
  · rw [hleaf r hr v' hv']
    simp [setAt]
  · unfold Kmem.view
    rw [hentry r hr]
    by_cases hy : y / PG_SIZE = v
    · rw [hy, setAt_self, if_pos rfl]
      exact (hsame pg v hpgown).mem _ (Nat.le_add_right _ _) (Nat.add_lt_add_left (Nat.mod_lt _ (by decide)) _)
    · rw [setAt_of_ne _ _ (.inr hy), if_neg hy]
      cases he : s₀.entry r (y / PG_SIZE) with
      | none => rfl
      | some e =>
        exact (hold e.1 _ (h.entry_owned hr he)).mem _ (Nat.le_add_right _ _)
          (Nat.add_lt_add_left (Nat.mod_lt _ (by decide)) _)

/-- The leaves of the trampoline and the trapframe are in use. -/
def TopUsed (s : Kmem) (r : Nat) : Prop := ∀ v, USER_VPNS ≤ v → v < 2 ^ 26 → Has (s.leafPte r v) PTE_V

/-- `map_pages` of a new page. When it fails, the page can be given back and only
empty tables remain. -/
theorem Spaces.map_new_spec {s₀ : Kmem} {own₀ : Nat → Option Owner} (h : Spaces s₀ own₀ roots) (hr : r ∈ roots)
    (htop : TopUsed s₀ r) (hh : Held 0 s₀ s own₀ pg) (hperm : perm < 1024) (hva : va % PG_SIZE = 0)
    (hhigh : MAX_VA ≤ va → E (.panic "walk: va >= MAX_VA"))
    (hdouble : Has (s₀.leafPte r (va / PG_SIZE)) PTE_V → E (.panic "map_pages: double-map va=%p")) :
    wpe E (map_pages r va PG_SIZE pg perm) (fun ret s' =>
      (ret = -1 ∧ wp (kfree pg) (fun _ s'' => Low s'' ∧ ∃ own', Grown s₀ s'' own₀ own' r) s') ∨
      (ret = 0 ∧ ∃ own', Entered s₀ s s' own₀ own' roots r (va / PG_SIZE) pg (pa_to_pte pg ||| leafFlags perm))) s := by
  obtain ⟨htab, hleaf0⟩ := h.held hh (va / PG_SIZE)
  have hpgown : Function.update own₀ pg (some (.user (va / PG_SIZE))) pg = some (.user (va / PG_SIZE)) :=
    Function.update_self ..
  have hrange := htab.pages.range_of hpgown
  refine wpe_mono (map_page_spec htab.pages (htab.tables r hr) hva hrange.1 hhigh ?_) ?_
  · rw [hleaf0 r hr]
    exact hdouble
  rintro ret s' ⟨hmax, s1, own1, hg, ⟨rfl, rfl, hex⟩ | ⟨rfl, hempty, a, ha, rfl⟩⟩
  · refine .inl ⟨rfl, ?_⟩
    have hpg1 : own1 pg = some (.user (va / PG_SIZE)) := (hg.touches.owner pg _ (user_not_table r _)).mpr hpgown
    have href : (s'.pa_to_page pg).refcount = 1 := by
      rw [(hg.touches.same pg _ hpgown (user_not_table r _)).page]
      exact hh.refcount
    refine wp_mono (hg.pages.kfree_spec hpg1 rfl href) ?_
    rintro _ s'' ⟨hp'', hsame, hstart, hclasses⟩
    have hkfree : Touches (· = Owner.user (va / PG_SIZE)) s' s'' own1 (Function.update own1 pg none) :=
      .of_kfree hpg1 rfl hsame hstart hclasses
    refine ⟨hex.low_of_kfree hg.pages (htab.grown hr hg).small hsame hstart, _, hp'', hg.table.frame hkfree (by simp), ?_,
      .of_loan hh hg.touches hsame hstart hclasses⟩
    rw [(hg.table.leafPte_touches hkfree (by simp)).2, hg.leaf, hleaf0 r hr]
  · rw [hleaf0 r hr] at hempty
    refine .inr ⟨rfl, own1, h.enter hr hh hperm ?_ hg hempty ha⟩
    by_contra hge
    refine hempty (htop _ (by omega) ?_)
    simp only [MAX_VA, PG_SIZE] at hmax ⊢
    omega

end bobchouos
