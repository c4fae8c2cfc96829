import BobchouOS.Vm.Mapping

open lib

namespace bobchouos

variable {E : Halt → Prop} {s s' : Kmem} {own own' : Nat → Option Owner} {roots : List Nat}
  {r c va v a x pa pg perm : Nat} {w : Bool} {o : Owner} {T : Owner → Prop}

/-- One reference to a page less: the last one frees it. -/
structure Put (s s' : Kmem) (own own' : Nat → Option Owner) (pa : Nat) : Prop where
  pages : Pages s' own'
  last : (s.pa_to_page pa).refcount = 1 → own' = Function.update own pa none
  more : (s.pa_to_page pa).refcount ≠ 1 → own' = own ∧ s'.mem = s.mem ∧
    (s'.pa_to_page pa).refcount = (s.pa_to_page pa).refcount - 1
  same : ∀ q, own q ≠ none → q ≠ pa → SamePage s s' q
  free_start : s'.free_start = s.free_start
  size_classes : s'.size_classes = s.size_classes

theorem page_put_spec (hp : Pages s own) (hown : own pa = some o) (ho : o.order = 0) :
    wp (page_put pa) (fun _ s' => ∃ own', Put s s' own own' pa) s := by
  have hpage := hp.page hown
  have hpa : own pa ≠ none := by
    rw [hown]
    simp
  simp only [page_put, wp_bind, wp_get, wp_ite, wp_modify]
  refine ⟨fun hlt => absurd hlt (by omega), fun _ => ⟨fun hone => ?_, fun hne => ?_⟩⟩
  · refine wp_mono (hp.kfree_spec hown ho hone) ?_
    rintro _ s' ⟨hp', hsame, hstart, hclasses⟩
    exact ⟨_, hp', fun _ => rfl, fun hne => absurd hone hne, hsame, hstart, hclasses⟩
  · refine ⟨own, hp.setPage hpa ?_ rfl, fun hone => absurd hone hne, fun _ => ⟨rfl, rfl, ?_⟩, fun q hq hqp => ?_,
      rfl, rfl⟩
    · show 1 ≤ (s.pa_to_page pa).refcount - 1
      omega
    · rw [pa_to_page_setPage_self]
    · exact ⟨fun _ _ _ => rfl, pa_to_page_setPage_of_ne s _ (hp.pageIdx_ne hq hpa hqp)⟩

namespace Put

theorem owner_of_ne (h : Put s s' own own' pa) {q : Nat} (hq : q ≠ pa) : own' q = own q := by
  by_cases hone : (s.pa_to_page pa).refcount = 1
  · rw [h.last hone, Function.update_of_ne hq]
  · rw [(h.more hone).1]

theorem freed (h : Put s s' own own' pa) (q : Nat) : own' q = own q ∨ own' q = none := by
  by_cases hone : (s.pa_to_page pa).refcount = 1
  · rw [h.last hone]
    by_cases hq : q = pa
    · rw [hq, Function.update_self]
      exact .inr rfl
    · rw [Function.update_of_ne hq]
      exact .inl rfl
  · rw [(h.more hone).1]
    exact .inl rfl

theorem touches (h : Put s s' own own' pa) (hpa : own pa = some o) (ho : T o) : Touches T s s' own own' := by
  refine ⟨fun q o' ho' => ?_, fun q o' hq ho' => h.same q (by rw [hq]; simp) ?_, h.free_start,
    fun _ => h.size_classes⟩
  · by_cases hq : q = pa
    · subst hq
      by_cases hone : (s.pa_to_page q).refcount = 1
      · rw [h.last hone, Function.update_self, hpa]
        refine iff_of_false (by simp) ?_
        rintro heq
        cases heq
        exact ho' ho
      · rw [(h.more hone).1]
    · rw [h.owner_of_ne hq]
  · rintro rfl
    rw [hpa] at hq
    cases hq
    exact ho' ho

end Put

/-- One virtual page of an address space after it was unmapped. -/
structure Unmapped (s s' : Kmem) (own own' : Nat → Option Owner) (roots : List Nat) (r v : Nat) : Prop where
  spaces : Spaces s' own' roots
  effect : Effect (Owner.InSpace r) roots s s' own own'
  leaf : ∀ v' < 2 ^ 26, s'.leafPte r v' = if v' = v then 0 else s.leafPte r v'
  view : ∀ y, s'.view r y = if y / PG_SIZE = v then 0 else s.view r y
  freed : ∀ q, own' q = own q ∨ own' q = none

/-- Dropping the reference of a mapped page and clearing its leaf. -/
theorem Spaces.unmap_spec (h : Spaces s own roots) (hr : r ∈ roots) (he : s.entry r v = some (pa, w))
    (ha : s.leafSlot r v = some a) :
    wp (page_put pa) (fun _ s' => ∃ own', Unmapped s (s'.setPte a 0) own own' roots r v) s := by
  have hown := h.entry_owned hr he
  have hv := (entry_some he).1
  refine wp_mono (page_put_spec h.pages hown rfl) ?_
  rintro _ s1 ⟨own1, hput⟩
  have ht : Touches (· = Owner.user v) s s1 own own1 := hput.touches hown rfl
  have htab1 : PageTables s1 own1 roots := by
    apply h.toPageTables.frame hput.pages ht (by simp) (by simp [Owner.order])
    rintro q _ rfl - (⟨_, heq⟩ | ⟨_, heq⟩) <;> cases heq
  have hslot := ((h.tables r hr).leafPte_touches ht (by simp)).1
  obtain ⟨htab2, ht2, -, hleaf2⟩ := htab1.setLeaf (x := 0) hr (USER_VPNS_lt hv) (by decide) (by rw [hslot, ha])
  obtain ⟨s2, hs2⟩ : ∃ s2, s2 = s1.setPte a 0 := ⟨_, rfl⟩
  rw [← hs2] at htab2 ht2 hleaf2 ⊢
  have hleaf : ∀ r' ∈ roots, ∀ v' < 2 ^ 26, s2.leafPte r' v' = setAt s.leafPte r v 0 r' v' := by
    intro r' hr' v' hv'
    rw [hleaf2 r' hr' v' hv']
    simp only [setAt, h.leafPte_frame ht (by simp) hr']
  have hentry : ∀ r' ∈ roots, ∀ v', s2.entry r' v' = setAt s.entry r v none r' v' := by
    intro r' hr' v'
    rw [entry_setAt hv hleaf hr' v', if_neg (by decide)]
  have hsame2 : ∀ q u, own1 q = some (.user u) → SamePage s1 s2 q := fun q u hq =>
    ht2.same q _ hq (user_not_table r u)
  -- the contents of pages that are still mapped
  have hkeep : ∀ q u, own q = some (.user u) → (q = pa → (s.pa_to_page pa).refcount ≠ 1) →
      ∀ y, q ≤ y → y < q + PG_SIZE → s2.mem y = s.mem y := by
    intro q u hq hlast y hlo hhi
    by_cases hqp : q = pa
    · obtain ⟨hsame, hmem, -⟩ := hput.more (hlast hqp)
      rw [(hsame2 q u (by rw [hsame, hq])).mem y hlo hhi, hmem]
    · rw [(hsame2 q u (by rw [hput.owner_of_ne hqp, hq])).mem y hlo hhi]
      exact (hput.same q (by rw [hq]; simp) hqp).mem y hlo hhi
  have href : ∀ q, (s2.pa_to_page q).refcount = (s1.pa_to_page q).refcount := by
    intro q
    rw [hs2, setPte_pa_to_page]
  refine ⟨own1, ⟨htab2, ?_⟩, ⟨?_, fun r' hr' hT => ?_⟩, fun v' hv' => ?_, fun y => ?_, hput.freed⟩
  · suffices hdrop : Sharing roots (setAt s.entry r v none) (home own1) fun q => (s2.pa_to_page q).refcount from
      hdrop.congr hentry (fun _ => rfl) (fun _ _ => rfl)
    refine h.sharing.drop hr he ?_ ?_ ?_ ?_
    · intro q hq
      unfold home
      rw [hput.owner_of_ne hq]
    · intro hone
      unfold home
      rw [hput.last hone, Function.update_self]
    · intro hne
      obtain ⟨hsame, -, hless⟩ := hput.more hne
      exact ⟨by rw [hsame], by rw [href, hless]⟩
    · intro q hq hhome
      obtain ⟨u, hu⟩ := Option.ne_none_iff_exists'.mp hhome
      rw [href, (hput.same q (by rw [home_eq_some.mp hu]; simp) hq).page]
  · exact (ht.mono fun o ho => .inr ⟨v, ho⟩).trans (ht2.mono fun _ => .inl)
  · have hrr : r' ≠ r := by
      rintro rfl
      exact hT [] (.inl ⟨[], rfl⟩)
    apply view_congr
    · funext v'
      rw [hentry r' hr', setAt_of_ne _ _ (.inl hrr)]
    · intro u q w' he'
      apply hkeep q u (h.entry_owned hr' he')
      rintro rfl
      have huv := h.entry_owned hr' he'
      rw [hown] at huv
      cases huv
      have htwo := h.sharing.two_le hr hr' hrr he he'
      omega
  · rw [hleaf r hr v' hv']
    simp [setAt]
  · unfold Kmem.view
    rw [hentry r hr]
    by_cases hy : y / PG_SIZE = v
    · rw [hy, setAt_self, if_pos rfl]
    · rw [setAt_of_ne _ _ (.inr hy), if_neg hy]
      cases he' : s.entry r (y / PG_SIZE) with
      | none => rfl
      | some e =>
        refine hkeep e.1 _ (h.entry_owned hr he') ?_ _ (Nat.le_add_right _ _)
          (Nat.add_lt_add_left (Nat.mod_lt _ (by decide)) _)
        rintro rfl
        have huv := h.entry_owned hr he'
        rw [hown] at huv
        cases huv
        exact absurd rfl hy

theorem leafPte_of_slot (ha : s.leafSlot r v = some a) : s.leafPte r v = s.pte a := by
  rw [Kmem.leafPte, ha]
  rfl

theorem pte_lt (s : Kmem) (a : Nat) : s.pte a < 2 ^ 64 := (s.mem.loadWord a).isLt

/-- Other flags for a page that stays mapped. Only its one holder may take the
right to write it. -/
theorem Spaces.setFlags (h : Spaces s own roots) (hr : r ∈ roots) (he : s.entry r v = some (pa, w))
    (ha : s.leafSlot r v = some a) (hx : x < 2 ^ 64) (hpa : pte_to_pa x = pa) (hvalid : Has x PTE_V)
    (hw : Has x PTE_W → (s.pa_to_page pa).refcount = 1) :
    Spaces (s.setPte a x) own roots ∧ Touches (Owner.IsTable r) s (s.setPte a x) own own ∧
      (∀ r' ∈ roots, (s.setPte a x).view r' = s.view r') ∧
      (∀ r' ∈ roots, (s.setPte a x).leafSlot r' = s.leafSlot r') ∧
      ∀ r' ∈ roots, ∀ v' < 2 ^ 26, (s.setPte a x).leafPte r' v' = setAt s.leafPte r v x r' v' := by
  have hv := (entry_some he).1
  obtain ⟨htab, ht, hslot, hleaf⟩ := h.toPageTables.setLeaf hr (USER_VPNS_lt hv) hx ha
  have hentry := fun r' (hr' : r' ∈ roots) v' => entry_setAt (s := s) hv hleaf hr' v'
  simp only [if_pos hvalid, hpa] at hentry
  refine ⟨⟨htab, ?_⟩, ht, fun r' hr' => ?_, hslot, hleaf⟩
  · exact (h.sharing.setWrite hr he (show decide (Has x PTE_W) = true → _ by simpa using hw)).congr hentry
      (fun _ => rfl) (fun _ _ => rfl)
  · funext y
    unfold Kmem.view
    rw [hentry r' hr']
    have hmem : ∀ q u, own q = some (.user u) → (s.setPte a x).mem (q + y % PG_SIZE) = s.mem (q + y % PG_SIZE) :=
      fun q u hq => (ht.same q _ hq (user_not_table r u)).mem _ (Nat.le_add_right _ _)
        (Nat.add_lt_add_left (Nat.mod_lt _ (by decide)) _)
    by_cases hat : r' = r ∧ y / PG_SIZE = v
    · obtain ⟨rfl, rfl⟩ := hat
      rw [setAt_self, he]
      exact hmem pa _ (h.entry_owned hr he)
    · rw [setAt_of_ne _ _ (by tauto)]
      cases he' : s.entry r' (y / PG_SIZE) with
      | none => rfl
      | some e => exact hmem e.1 _ (h.entry_owned hr' he')

/-- A page of one address space, entered in another. -/
structure Joined (s s' : Kmem) (own own' : Nat → Option Owner) (roots : List Nat) (r c v x : Nat) : Prop where
  spaces : Spaces s' own' roots
  effect : Effect (Owner.InSpace c) roots s s' own own'
  empty : ¬ Has (s.leafPte c v) PTE_V
  leaf : ∀ v' < 2 ^ 26, s'.leafPte c v' = if v' = v then x else s.leafPte c v'
  view : ∀ y, s'.view c y = if y / PG_SIZE = v then s.view r y else s.view c y

/-- `page_get` once a second address space has the page. -/
theorem Spaces.join {s1 : Kmem} {own1 : Nat → Option Owner} (h : Spaces s own roots) (hr : r ∈ roots)
    (hc : c ∈ roots) (he : s.entry r v = some (pa, false)) (hg : Grown s s1 own own1 c)
    (ha : s1.leafSlot c v = some a) (hempty : ¬ Has (s.leafPte c v) PTE_V) (hx : x < 2 ^ 64) (hpa : pte_to_pa x = pa)
    (hvalid : Has x PTE_V) (hw : ¬ Has x PTE_W) :
    wp (page_get pa) (fun _ s' => ∃ own', Joined s s' own own' roots r c v x) (s1.setPte a x) := by
  have hv := (entry_some he).1
  have hown := h.entry_owned hr he
  obtain ⟨hsp1, heff1⟩ := h.grown hc hg
  obtain ⟨htab2, ht2, -, hleaf2⟩ := hsp1.toPageTables.setLeaf hc (USER_VPNS_lt hv) hx ha
  obtain ⟨s2, hs2⟩ : ∃ s2, s2 = s1.setPte a x := ⟨_, rfl⟩
  rw [← hs2] at htab2 ht2 hleaf2 ⊢
  have howner : ∀ q u, own1 q = some (.user u) ↔ own q = some (.user u) := fun q u =>
    hg.touches.owner q _ (user_not_table c u)
  have hsame : ∀ q u, own q = some (.user u) → SamePage s s2 q := fun q u hq =>
    (hg.touches.same q _ hq (user_not_table c u)).trans (ht2.same q _ ((howner q u).mpr hq) (user_not_table c u))
  have hown1 := (howner pa v).mpr hown
  have hpage := htab2.pages.page hown1
  have hcount : (s2.pa_to_page pa).refcount = (s.pa_to_page pa).refcount := by
    rw [(hsame pa v hown).page]
  have hbound := h.refcount_lt hown
  simp only [page_get, wp_bind, wp_get, wp_ite, wp_modify]
  refine ⟨fun hlt => absurd hlt (by omega), fun _ => ?_⟩
  obtain ⟨pg, hpg⟩ : ∃ pg, pg = { s2.pa_to_page pa with refcount := ((s2.pa_to_page pa).refcount + 1) % 2 ^ 16 } :=
    ⟨_, rfl⟩
  rw [← hpg]
  have hpgref : pg.refcount = (s.pa_to_page pa).refcount + 1 := by
    simp only [hpg, hcount, NR_PAGES, PHYS_STOP, KERN_BASE, PG_SHIFT] at hbound ⊢
    omega
  have hpages : Pages (s2.setPage pa pg) own1 :=
    htab2.pages.setPage (by rw [hown1]; simp) (by omega) (by rw [hpg])
  have ht3 : Touches (· = Owner.user v) s2 (s2.setPage pa pg) own1 own1 :=
    .setPage (T := (· = Owner.user v)) htab2.pages hown1 rfl pg
  have htab3 : PageTables (s2.setPage pa pg) own1 roots := by
    apply htab2.frame hpages ht3 (by simp) (by simp [Owner.order])
    rintro q _ rfl - (⟨_, heq⟩ | ⟨_, heq⟩) <;> cases heq
  have hleaf : ∀ r' ∈ roots, ∀ v' < 2 ^ 26,
      (s2.setPage pa pg).leafPte r' v' = setAt s.leafPte c v x r' v' := by
    intro r' hr' v' hv'
    rw [htab2.leafPte_frame ht3 (by simp) hr', hleaf2 r' hr' v' hv']
    simp only [setAt, h.leafPte_grown hg hr']
  have hentry := fun r' (hr' : r' ∈ roots) v' => entry_setAt (s := s) hv hleaf hr' v'
  simp only [if_pos hvalid, hpa, hw, decide_false] at hentry
  have hmem : ∀ q u, own q = some (.user u) → ∀ y, q ≤ y → y < q + PG_SIZE →
      (s2.setPage pa pg).mem y = s.mem y := fun q u hq => (hsame q u hq).mem
  refine ⟨own1, ⟨htab3, ?_⟩, ⟨?_, fun r' hr' hT => ?_⟩, hempty, fun v' hv' => ?_, fun y => ?_⟩
  · refine (h.sharing.share hc (entry_none hempty) hr he).congr hentry ?_ ?_
    · intro q
      apply Option.ext
      intro u
      rw [home_eq_some, home_eq_some, howner]
    · intro q hq
      by_cases hqp : q = pa
      · subst hqp
        rw [pa_to_page_setPage_self, Function.update_self, hpgref]
      · obtain ⟨u, hu⟩ := Option.ne_none_iff_exists'.mp hq
        have hqo := home_eq_some.mp hu
        rw [Function.update_of_ne hqp, pa_to_page_setPage_of_ne _ _ (h.pages.pageIdx_ne (by rw [hqo]; simp)
          (by rw [hown]; simp) hqp), (hsame q u hqo).page]
  · exact ((hg.touches.mono fun _ => .inl).trans (ht2.mono fun _ => .inl)).trans (ht3.mono fun o ho => .inr ⟨v, ho⟩)
  · have hrr : r' ≠ c := by
      rintro rfl
      exact hT [] (.inl ⟨[], rfl⟩)
    apply view_congr
    · funext v'
      rw [hentry r' hr', setAt_of_ne _ _ (.inl hrr)]
    · intro u q w he'
      exact hmem q u (h.entry_owned hr' he')
  · rw [hleaf c hc v' hv']
    simp [setAt]
  · unfold Kmem.view
    rw [hentry c hc]
    by_cases hy : y / PG_SIZE = v
    · rw [hy, setAt_self, if_pos rfl, he]
      exact hmem pa v hown _ (Nat.le_add_right _ _) (Nat.add_lt_add_left (Nat.mod_lt _ (by decide)) _)
    · rw [setAt_of_ne _ _ (.inr hy), if_neg hy]
      cases he' : s.entry c (y / PG_SIZE) with
      | none => rfl
      | some e =>
        exact hmem e.1 _ (h.entry_owned hc he') _ (Nat.le_add_right _ _)
          (Nat.add_lt_add_left (Nat.mod_lt _ (by decide)) _)

/-- A leaf that became writable in place of being shared copy-on-write. -/
structure Upgraded (old x : Nat) : Prop where
  write : Has x PTE_W
  not_cow : ¬ Has x PTE_COW
  other : ∀ i < 8, i ≠ 2 → (Has x (1 <<< i) ↔ Has old (1 <<< i))

theorem Upgraded.valid {old : Nat} (h : Upgraded old x) (hold : Has old PTE_V) : Has x PTE_V :=
  (h.other 0 (by decide) (by decide)).mpr hold

theorem not_has_write : ∀ i < 8, i ≠ 2 → ¬ Has PTE_W (1 <<< i) := by decide

theorem upgrade_in_place (old : Nat) : Upgraded old (old.ldiff PTE_COW ||| PTE_W) ∧
    pte_to_pa (old.ldiff PTE_COW ||| PTE_W) = pte_to_pa old := by
  refine ⟨⟨?_, ?_, fun i hi hne => ?_⟩, ?_⟩
  · exact (has_or _ _ _).mpr (.inr (by decide))
  · rw [has_or, PTE_COW, has_ldiff]
    simp only [not_or, not_and, not_not]
    exact ⟨fun _ => by decide, by decide⟩
  · have hcow : ∀ i < 8, ¬ Has PTE_COW (1 <<< i) := by decide
    rw [has_or, has_ldiff]
    simp only [hcow i hi, not_false_eq_true, and_true, not_has_write i hi hne, or_false]
  · rw [(pte_or (by decide)).1, (pte_ldiff (by decide)).1]

theorem upgrade_copy (hpg : pg % PG_SIZE = 0) (hlt : pg < 2 ^ 56) (old : Nat) :
    Upgraded old (pa_to_pte pg ||| (old &&& (PTE_COW - 1)) ||| PTE_W) ∧
      pte_to_pa (pa_to_pte pg ||| (old &&& (PTE_COW - 1)) ||| PTE_W) = pg ∧
      pa_to_pte pg ||| (old &&& (PTE_COW - 1)) ||| PTE_W < 2 ^ 64 := by
  have hlow : (old &&& (PTE_COW - 1)) ||| PTE_W < 2 ^ 10 :=
    Nat.or_lt_two_pow (Nat.lt_of_le_of_lt Nat.and_le_right (by decide)) (by decide)
  rw [Nat.or_assoc]
  obtain ⟨hpa, hflags, hx⟩ := pte_of_parts hpg hlt hlow
  refine ⟨⟨?_, ?_, fun i hi hne => ?_⟩, hpa, hx⟩
  · rw [← has_flags (by decide), hflags, has_or]
    exact .inr (by decide)
  · rw [← has_flags (by decide), hflags, has_or, PTE_COW, has_and]
    simp only [not_or, not_and]
    exact ⟨fun _ => by decide, by decide⟩
  · rw [← has_flags (Nat.lt_of_lt_of_le (by rw [Nat.one_shiftLeft]; exact Nat.pow_lt_pow_right (by decide) hi)
      (by decide : 2 ^ 8 ≤ 1024)), hflags, has_or, has_and]
    have hlow : ∀ i < 8, Has (PTE_COW - 1) (1 <<< i) := by decide
    simp only [hlow i hi, and_true, not_has_write i hi hne, or_false]

/-- A virtual page whose page the process may now write, with the same bytes. -/
structure Owned (s s' : Kmem) (own own' : Nat → Option Owner) (roots : List Nat) (r v x : Nat) : Prop where
  spaces : Spaces s' own' roots
  effect : Effect (Owner.InSpace r) roots s s' own own'
  leaf : ∀ v' < 2 ^ 26, s'.leafPte r v' = if v' = v then x else s.leafPte r v'
  view : s'.view r = s.view r

/-- The copy of a shared page: the new page takes its place in one address space. -/
theorem Spaces.copy {s1 : Kmem} (h : Spaces s own roots) (hr : r ∈ roots) (he : s.entry r v = some (pa, w))
    (ha : s.leafSlot r v = some a) (hshared : (s.pa_to_page pa).refcount ≠ 1) (hh : Held 0 s s1 own pg)
    (hcopy : ∀ i < PG_SIZE, s1.mem (pg + i) = s.mem (pa + i)) (hx : x < 2 ^ 64) (hpa : pte_to_pa x = pg)
    (hvalid : Has x PTE_V) :
    wp (page_put pa) (fun _ s' => ∃ own', Owned s s' own own' roots r v x) (s1.setPte a x) := by
  have hv := (entry_some he).1
  have hown := h.entry_owned hr he
  obtain ⟨htab1, hleaf1⟩ := h.held hh v
  have hslot1 : s1.leafSlot r v = some a := by
    have ht : Touches (· = Owner.user v) s s1 own (Function.update own pg (some (.user v))) := .of_held hh rfl
    rw [((h.tables r hr).leafPte_touches ht (by simp)).1, ha]
  obtain ⟨htab2, ht2, -, hleaf2⟩ := htab1.setLeaf hr (USER_VPNS_lt hv) hx hslot1
  obtain ⟨s2, hs2⟩ : ∃ s2, s2 = s1.setPte a x := ⟨_, rfl⟩
  rw [← hs2] at htab2 ht2 hleaf2 ⊢
  have hne : ∀ q u, own q = some (.user u) → q ≠ pg := by
    rintro q u hq rfl
    rw [hh.was_free] at hq
    cases hq
  have hold : ∀ q u, own q = some (.user u) → SamePage s s2 q := by
    intro q u hq
    refine (hh.same q (by rw [hq]; simp)).trans (ht2.same q _ ?_ (user_not_table r u))
    rw [Function.update_of_ne (hne q u hq), hq]
  have hpgown : Function.update own pg (some (.user v)) pg = some (.user v) := Function.update_self ..
  have hpaown : Function.update own pg (some (.user v)) pa = some (.user v) := by
    rw [Function.update_of_ne (hne pa v hown), hown]
  have hcount2 : (s2.pa_to_page pa).refcount = (s.pa_to_page pa).refcount := by rw [(hold pa v hown).page]
  refine wp_mono (page_put_spec htab2.pages hpaown rfl) ?_
  rintro _ s3 ⟨own3, hput⟩
  obtain ⟨rfl, hmem3, hless⟩ := hput.more (by rw [hcount2]; exact hshared)
  have ht3 : Touches (· = Owner.user v) s2 s3 _ _ := hput.touches hpaown rfl
  have htab3 : PageTables s3 (Function.update own pg (some (.user v))) roots := by
    apply htab2.frame hput.pages ht3 (by simp) (by simp [Owner.order])
    rintro q _ rfl - (⟨_, heq⟩ | ⟨_, heq⟩) <;> cases heq
  have hleaf : ∀ r' ∈ roots, ∀ v' < 2 ^ 26, s3.leafPte r' v' = setAt s.leafPte r v x r' v' := by
    intro r' hr' v' hv'
    rw [htab2.leafPte_frame ht3 (by simp) hr', hleaf2 r' hr' v' hv']
    simp only [setAt, hleaf1 r' hr']
  have hentry := fun r' (hr' : r' ∈ roots) v' => entry_setAt (s := s) hv hleaf hr' v'
  simp only [if_pos hvalid, hpa] at hentry
  have hmem : ∀ q u, own q = some (.user u) → ∀ y, q ≤ y → y < q + PG_SIZE → s3.mem y = s.mem y := by
    intro q u hq y hlo hhi
    rw [hmem3]
    exact (hold q u hq).mem y hlo hhi
  have hfresh : home own pg = none := by
    unfold home
    rw [hh.was_free]
  refine ⟨_, ⟨htab3, ?_⟩, ⟨?_, fun r' hr' hT => ?_⟩, fun v' hv' => ?_, ?_⟩
  · have hdrop : Sharing roots (setAt s.entry r v none) (home own)
        (Function.update (fun q => (s.pa_to_page q).refcount) pa ((s.pa_to_page pa).refcount - 1)) :=
      h.sharing.drop hr he (fun _ _ => rfl) (fun hone => absurd hone hshared) (fun _ => ⟨rfl, by simp⟩)
      (fun q hq _ => Function.update_of_ne hq _ _)
    refine (hdrop.map (w := decide (Has x PTE_W)) hr (setAt_self ..) hfresh).congr ?_ ?_ ?_
    · intro r' hr' v'
      rw [hentry r' hr' v']
      simp only [setAt]
      split <;> rfl
    · intro q
      apply Option.ext
      intro u
      rw [home_eq_some]
      by_cases hq : q = pg
      · subst hq
        simp
      · rw [Function.update_of_ne hq, Function.update_of_ne hq, home_eq_some]
    · intro q hq
      by_cases hqp : q = pg
      · subst hqp
        rw [Function.update_self, (hput.same q (by rw [hpgown]; simp) (hne pa v hown).symm).page]
        rw [hs2, setPte_pa_to_page, hh.refcount]
      · rw [Function.update_of_ne hqp] at hq ⊢
        obtain ⟨u, hu⟩ := Option.ne_none_iff_exists'.mp hq
        have hqo := home_eq_some.mp hu
        by_cases hqa : q = pa
        · subst hqa
          rw [Function.update_self, hless, hcount2]
        · rw [Function.update_of_ne hqa, (hput.same q (by rw [Function.update_of_ne hqp, hqo]; simp) hqa).page,
            (hold q u hqo).page]
  · have ht0 : Touches (Owner.InSpace r) s s1 own (Function.update own pg (some (.user v))) :=
      .of_held hh (.inr ⟨v, rfl⟩)
    exact (ht0.trans (ht2.mono fun _ => .inl)).trans (ht3.mono fun o ho => .inr ⟨v, ho⟩)
  · have hrr : r' ≠ r := by
      rintro rfl
      exact hT [] (.inl ⟨[], rfl⟩)
    apply view_congr
    · funext v'
      rw [hentry r' hr', setAt_of_ne _ _ (.inl hrr)]
    · intro u q w he'
      exact hmem q u (h.entry_owned hr' he')
  · rw [hleaf r hr v' hv']
    simp [setAt]
  · funext y
    unfold Kmem.view
    rw [hentry r hr]
    by_cases hy : y / PG_SIZE = v
    · rw [hy, setAt_self, he]
      have hlt : y % PG_SIZE < PG_SIZE := Nat.mod_lt _ (by decide)
      show s3.mem (pg + y % PG_SIZE) = s.mem (pa + y % PG_SIZE)
      rw [hmem3, (ht2.same pg _ hpgown (user_not_table r v)).mem _ (Nat.le_add_right _ _)
        (Nat.add_lt_add_left hlt _), hcopy _ hlt]
    · rw [setAt_of_ne _ _ (.inr hy)]
      cases he' : s.entry r (y / PG_SIZE) with
      | none => rfl
      | some e =>
        exact hmem e.1 _ (h.entry_owned hr he') _ (Nat.le_add_right _ _)
          (Nat.add_lt_add_left (Nat.mod_lt _ (by decide)) _)

/-- Writing inside a page that one process may write is seen by that process only. -/
theorem Spaces.store {m : Mem} (h : Spaces s own roots) (hr : r ∈ roots) (he : s.entry r v = some (pa, true))
    (hm : ∀ x, ¬ (pa ≤ x ∧ x < pa + PG_SIZE) → m x = s.mem x) :
    Spaces { s with mem := m } own roots ∧ Effect (Owner.InSpace r) roots s { s with mem := m } own own ∧
      (∀ r' ∈ roots, Kmem.leafPte { s with mem := m } r' = s.leafPte r') ∧
      ∀ y, Kmem.view { s with mem := m } r y = if y / PG_SIZE = v then m (pa + y % PG_SIZE) else s.view r y := by
  have hown := h.entry_owned hr he
  have hone := h.sharing.sole r hr v pa he
  have hp : Pages { s with mem := m } own := h.pages.write fun x hx => hm x (hx pa (by rw [hown]; simp))
  have ht : Touches (· = Owner.user v) s { s with mem := m } own own :=
    .write h.pages fun x hx => hm x (hx pa _ hown rfl)
  have htab : PageTables { s with mem := m } own roots := by
    apply h.toPageTables.frame hp ht (by simp) (by simp [Owner.order])
    rintro q _ rfl - (⟨_, heq⟩ | ⟨_, heq⟩) <;> cases heq
  have hleaf : ∀ r' ∈ roots, Kmem.leafPte { s with mem := m } r' = s.leafPte r' := fun r' hr' =>
    h.leafPte_frame ht (by simp) hr'
  have hentry : ∀ r' ∈ roots, ∀ v', Kmem.entry { s with mem := m } r' v' = s.entry r' v' := fun r' hr' v' =>
    entry_congr (by rw [hleaf r' hr'])
  -- the page has no second entry
  have hmem : ∀ r' ∈ roots, ∀ v' q w, s.entry r' v' = some (q, w) → r' ≠ r ∨ v' ≠ v →
      ∀ y, q ≤ y → y < q + PG_SIZE → m y = s.mem y := by
    intro r' hr' v' q w he' hne y hlo hhi
    have hq := h.entry_owned hr' he'
    have hqp : q ≠ pa := by
      rintro rfl
      obtain ⟨hrr, hvv⟩ := h.sharing.unique hr hr' he he' hone
      tauto
    have hapart := h.pages.apart_of hq hown hqp
    exact hm y (by omega)
  refine ⟨⟨htab, h.sharing.congr hentry (fun _ => rfl) (fun _ _ => rfl)⟩,
    ⟨ht.mono fun o ho => .inr ⟨v, ho⟩, fun r' hr' hT => ?_⟩, hleaf, fun y => ?_⟩
  · have hrr : r' ≠ r := by
      rintro rfl
      exact hT [] (.inl ⟨[], rfl⟩)
    apply view_congr
    · funext v'
      exact hentry r' hr' v'
    · intro v' q w he'
      exact hmem r' hr' v' q w he' (.inl hrr)
  · unfold Kmem.view
    rw [hentry r hr]
    by_cases hy : y / PG_SIZE = v
    · rw [hy, he, if_pos rfl]
    · rw [if_neg hy]
      cases he' : s.entry r (y / PG_SIZE) with
      | none => rfl
      | some e =>
        exact hmem r hr _ e.1 e.2 he' (.inr hy) _ (Nat.le_add_right _ _)
          (Nat.add_lt_add_left (Nat.mod_lt _ (by decide)) _)

end bobchouos
