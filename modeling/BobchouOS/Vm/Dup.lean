import BobchouOS.Vm.Roots
import BobchouOS.Vm.Unmap

open lib

namespace bobchouos

namespace Vm

variable {E : Halt → Prop} {k : Symbols} {s s' s'' : Kmem} {own own' own'' : Nat → Option Owner} {roots : List Nat}
  {r c v n pa pte x : Nat} {P Q : Nat → Prop} {T U : Owner → Prop} {a b : Vma} {w : Bool}
  {others procs : List Nat}

/-- What `vma_dup_all` may touch in the pages of the parent `r` and the child `c`. -/
def OfDup (r c : Nat) (o : Owner) : Prop := o.IsTable r ∨ o.InSpace c

/-- The leaf of a writable page once it is shared. -/
def shareLeaf (x : Nat) : Nat := x.ldiff PTE_W ||| PTE_COW

/-- Leaves of user memory may have lost the right to write until they are written. -/
def Deferred (s s' : Kmem) (r : Nat) : Prop := ∀ v < 2 ^ 26, s'.leafPte r v = s.leafPte r v ∨
  v < USER_VPNS ∧ Has (s.leafPte r v) PTE_W ∧ s'.leafPte r v = shareLeaf (s.leafPte r v)

/-- The mapped pages of `P` are now in the child `c` as they are in the parent
`r`, and nobody may write them. Other pages of the parent may have lost the right
to write as well, but never a byte. -/
structure Duped (T : Owner → Prop) (s s' : Kmem) (own own' : Nat → Option Owner) (roots : List Nat) (r c : Nat)
    (P : Nat → Prop) : Prop where
  spaces : Spaces s' own' roots
  touches : Touches T s s' own own'
  views : ∀ r' ∈ roots, r' ≠ c → s'.view r' = s.view r'
  parent : Deferred s s' r
  shared : ∀ v, P v → s.entry r v ≠ none → ¬ Has (s'.leafPte r v) PTE_W ∧
    s'.entry c v = s'.entry r v ∧ ∀ i < 10, (Has (s'.leafPte c v) (1 <<< i) ↔ Has (s'.leafPte r v) (1 <<< i))
  rest : ∀ v < 2 ^ 26, ¬ (P v ∧ s.entry r v ≠ none) → s'.leafPte c v = s.leafPte c v
  view : ∀ y, P (y / PG_SIZE) → s.entry r (y / PG_SIZE) ≠ none → s'.view c y = s.view r y
  view_rest : ∀ y, ¬ (P (y / PG_SIZE) ∧ s.entry r (y / PG_SIZE) ≠ none) → s'.view c y = s.view c y
  tables : ∀ pa path, own' pa = some (.table r path) ↔ own pa = some (.table r path)

theorem shareLeaf_bit (x : Nat) {i : Nat} (hi : i < 8) (hne : i ≠ 2) : Has (shareLeaf x) (1 <<< i) ↔ Has x (1 <<< i) := by
  have hcow : ∀ i < 8, ¬ Has PTE_COW (1 <<< i) := by decide
  rw [shareLeaf, has_or, has_ldiff]
  simp only [hcow i hi, or_false, not_has_write i hi hne, not_false_eq_true, and_true]

theorem not_write_shareLeaf (x : Nat) : ¬ Has (shareLeaf x) PTE_W := by
  rw [shareLeaf, has_or, PTE_W, has_ldiff]
  rintro (hw | hw)
  · exact hw.2 (by decide)
  · exact absurd hw (by decide)

theorem pa_shareLeaf (x : Nat) : pte_to_pa (shareLeaf x) = pte_to_pa x := by
  rw [shareLeaf, (pte_or (by decide)).1, (pte_ldiff (by decide)).1]

theorem shareLeaf_lt (hx : x < 2 ^ 64) : shareLeaf x < 2 ^ 64 := by
  apply Nat.or_lt_two_pow _ (by decide)
  refine Nat.lt_of_le_of_lt (Nat.le_of_testBit fun i hi => ?_) hx
  rw [Nat.testBit_ldiff, Bool.and_eq_true] at hi
  exact hi.1

namespace Deferred

/-- The leaf of a page that nobody may write stays. -/
theorem leaf_eq (h : Deferred s s' r) (hv : v < 2 ^ 26) (hw : ¬ Has (s.leafPte r v) PTE_W) :
    s'.leafPte r v = s.leafPte r v := (h v hv).resolve_right fun hx => hw hx.2.1

theorem trans (h : Deferred s s' r) (h' : Deferred s' s'' r) : Deferred s s'' r := by
  intro v hv
  rcases h v hv with heq | ⟨hlt, hw, heq⟩
  · rw [← heq]
    exact h' v hv
  · rw [h'.leaf_eq hv (by rw [heq]; exact not_write_shareLeaf _)]
    exact .inr ⟨hlt, hw, heq⟩

/-- The same pages are mapped. -/
theorem mapped_iff (h : Deferred s s' r) (v : Nat) : s'.entry r v ≠ none ↔ s.entry r v ≠ none := by
  rw [entry_ne_none, entry_ne_none]
  refine and_congr_right fun hv => ?_
  rcases h v (USER_VPNS_lt hv) with heq | ⟨-, -, heq⟩
  · rw [heq]
  · rw [heq]
    exact shareLeaf_bit _ (i := 0) (by decide) (by decide)

theorem addrSpace {trapframe : Nat} {vmas : List Vma} (h : Deferred s s' r)
    (hsp : AddrSpace k s r trapframe vmas) : AddrSpace k s' r trapframe vmas := by
  have htop : ∀ v, USER_VPNS ≤ v → v < 2 ^ 26 → s'.leafPte r v = s.leafPte r v := fun v hge hv =>
    (h v hv).resolve_right fun hx => by omega
  refine ⟨?_, ?_, fun v hv hvalid => ?_, hsp.areas⟩
  · rw [htop _ (by decide) (by decide), hsp.trampoline_leaf]
  · rw [htop _ (by decide) (by decide), hsp.trapframe_leaf]
  · rcases h v (USER_VPNS_lt hv) with heq | ⟨-, hw, heq⟩
    · rw [heq] at hvalid ⊢
      exact hsp.covered v hv hvalid
    · obtain ⟨a, ha, hcov, hagrees⟩ := hsp.covered v hv
        ((shareLeaf_bit _ (i := 0) (by decide) (by decide)).mp (by rwa [heq] at hvalid))
      rw [heq]
      exact ⟨a, ha, hcov, hagrees.shared hw⟩

end Deferred

namespace Duped

theorem refl (h : Spaces s own roots) (T : Owner → Prop) (r c : Nat) : Duped T s s own own roots r c (fun _ => False) :=
  ⟨h, .refl _ s own, fun _ _ _ => rfl, fun _ _ => .inl rfl, fun _ hP => hP.elim, fun _ _ _ => rfl, fun _ hP => hP.elim,
    fun _ _ => rfl, fun _ _ => Iff.rfl⟩

theorem mono (h : Duped T s s' own own' roots r c P) (hTU : ∀ o, T o → U o) : Duped U s s' own own' roots r c P :=
  ⟨h.spaces, h.touches.mono hTU, h.views, h.parent, h.shared, h.rest, h.view, h.view_rest, h.tables⟩

theorem congr (h : Duped T s s' own own' roots r c P) (hPQ : ∀ v, s.entry r v ≠ none → (P v ↔ Q v)) :
    Duped T s s' own own' roots r c Q :=
  ⟨h.spaces, h.touches, h.views, h.parent, fun v hv he => h.shared v ((hPQ v he).mpr hv) he,
    fun v hv hnot => h.rest v hv fun hboth => hnot ⟨(hPQ v hboth.2).mp hboth.1, hboth.2⟩,
    fun y hy he => h.view y ((hPQ _ he).mpr hy) he,
    fun y hnot => h.view_rest y fun hboth => hnot ⟨(hPQ _ hboth.2).mp hboth.1, hboth.2⟩, h.tables⟩

theorem trans (h : Duped T s s' own own' roots r c P) (h' : Duped T s' s'' own' own'' roots r c Q) (hr : r ∈ roots)
    (hne : r ≠ c) : Duped T s s'' own own'' roots r c (fun v => P v ∨ Q v) := by
  have hmapped := h.parent.mapped_iff
  refine ⟨h'.spaces, h.touches.trans h'.touches, fun r' hr' hrc => (h'.views r' hr' hrc).trans (h.views r' hr' hrc),
    h.parent.trans h'.parent, fun v hPQ he => ?_, fun v hv hnot => ?_, fun y hPQ he => ?_, fun y hnot => ?_,
    fun pa path => (h'.tables pa path).trans (h.tables pa path)⟩
  · have he' := (hmapped v).mpr he
    by_cases hQv : Q v
    · exact h'.shared v hQv he'
    · obtain ⟨hw, hentry, hbits⟩ := h.shared v (hPQ.resolve_right hQv) he
      have hv := USER_VPNS_lt (entry_ne_none.mp he).1
      have hparent := h'.parent.leaf_eq hv hw
      have hchild := h'.rest v hv fun hboth => hQv hboth.1
      refine ⟨by rwa [hparent], ?_, ?_⟩
      · rw [entry_congr hchild, entry_congr hparent, hentry]
      · rw [hchild, hparent]
        exact hbits
  · rw [h'.rest v hv fun hboth => hnot ⟨.inr hboth.1, (hmapped v).mp hboth.2⟩,
      h.rest v hv fun hboth => hnot ⟨.inl hboth.1, hboth.2⟩]
  · by_cases hQy : Q (y / PG_SIZE)
    · rw [h'.view y hQy ((hmapped _).mpr he), h.views r hr hne]
    · rw [h'.view_rest y fun hboth => hQy hboth.1, h.view y (hPQ.resolve_right hQy) he]
  · rw [h'.view_rest y fun hboth => hnot ⟨.inr hboth.1, (hmapped _).mp hboth.2⟩,
      h.view_rest y fun hboth => hnot ⟨.inl hboth.1, hboth.2⟩]

/-- The right to write a page of the parent is deferred. -/
theorem of_setFlags (h : Spaces s own roots) (hr : r ∈ roots) (hc : c ∈ roots) (hne : c ≠ r)
    (he : s.entry r v = some (pa, true)) (hpte : s.leafSlot r v = some pte) :
    Duped (OfDup r c) s (s.setPte pte (shareLeaf (s.leafPte r v))) own own roots r c (fun _ => False) ∧
      (s.setPte pte (shareLeaf (s.leafPte r v))).leafSlot r v = some pte ∧
      (s.setPte pte (shareLeaf (s.leafPte r v))).leafPte r v = shareLeaf (s.leafPte r v) := by
  obtain ⟨hv, hvalid, hpa, hw⟩ := entry_some he
  have hlt : shareLeaf (s.leafPte r v) < 2 ^ 64 := by
    rw [leafPte_of_slot hpte]
    exact shareLeaf_lt (pte_lt s pte)
  obtain ⟨hsp, ht, hview, hslot, hleaf⟩ := h.setFlags hr he hpte hlt ((pa_shareLeaf _).trans hpa)
    ((shareLeaf_bit _ (i := 0) (by decide) (by decide)).mpr hvalid) fun hx => absurd hx (not_write_shareLeaf _)
  refine ⟨⟨hsp, ht.mono fun _ => .inl, fun r' hr' _ => hview r' hr', fun v' hv' => ?_, fun _ hP => hP.elim,
    fun v' hv' _ => ?_, fun _ hP => hP.elim, fun y _ => ?_, fun _ _ => Iff.rfl⟩, ?_, ?_⟩
  · rw [hleaf r hr v' hv']
    by_cases hvv : v' = v
    · subst hvv
      rw [setAt_self]
      exact .inr ⟨hv, by simpa using hw.symm, rfl⟩
    · exact .inl (setAt_of_ne _ _ (.inr hvv))
  · rw [hleaf c hc v' hv', setAt_of_ne _ _ (.inl hne)]
  · rw [hview c hc]
  · rw [hslot r hr, hpte]
  · rw [hleaf r hr v (USER_VPNS_lt hv), setAt_self]

/-- A page of the parent that nobody may write, entered in the child. -/
theorem of_joined (h : Spaces s own roots) (hr : r ∈ roots) (hne : r ≠ c) (he : s.entry r v = some (pa, false))
    (hx : pte_to_pa x = pa) (hbits : ∀ i < 10, (Has x (1 <<< i) ↔ Has (s.leafPte r v) (1 <<< i)))
    (hj : Joined s s' own own' roots r c v x) : Duped (OfDup r c) s s' own own' roots r c (· = v) := by
  obtain ⟨hv, hvalid, -, hw⟩ := entry_some he
  have hnot : ¬ Has (s.leafPte r v) PTE_W := by simpa using hw.symm
  have hframe : ∀ path, ¬ Owner.InSpace c (.table r path) := by
    rintro path (⟨path', heq⟩ | ⟨u, heq⟩)
    · cases heq
      exact hne rfl
    · cases heq
  have hleaf : s'.leafPte r = s.leafPte r := h.leafPte_frame hj.effect.touches hframe hr
  have hchild : s'.leafPte c v = x := by rw [hj.leaf v (USER_VPNS_lt hv), if_pos rfl]
  have hparent : s'.entry r v = some (pa, false) := (entry_congr (by rw [hleaf])).trans he
  refine ⟨hj.spaces, hj.effect.touches.mono fun _ => .inr, fun r' hr' hrc => hj.effect.views r' hr' ?_,
    fun v' _ => .inl (by rw [hleaf]), ?_, fun v' hv' hout => ?_, ?_, fun y hout => ?_,
    fun pa path => hj.effect.touches.owner _ _ (hframe path)⟩
  · rintro path (⟨path', heq⟩ | ⟨u, heq⟩)
    · cases heq
      exact hrc rfl
    · cases heq
  · rintro _ rfl -
    rw [hleaf, hchild]
    refine ⟨hnot, ?_, hbits⟩
    rw [hparent, entry_eq hv, hchild, hx]
    · simp only [Option.some.injEq, Prod.mk.injEq, true_and, decide_eq_false_iff_not]
      exact fun hxw => hnot ((hbits 2 (by decide)).mp hxw)
    · rw [hchild]
      exact (hbits 0 (by decide)).mpr hvalid
  · rw [hj.leaf v' hv', if_neg]
    rintro rfl
    exact hout ⟨rfl, by rw [he]; simp⟩
  · rintro y rfl -
    rw [hj.view, if_pos rfl]
  · rw [hj.view, if_neg]
    intro hy
    exact hout ⟨hy, by rw [hy, he]; simp⟩

end Duped

/-- `map_pages` and `page_get` for a page of the parent that nobody may write. -/
theorem dupPage_spec {perm : Nat} (h : Spaces s own roots) (hr : r ∈ roots) (hc : c ∈ roots) (hne : r ≠ c)
    (he : s.entry r v = some (pa, false)) (hpte : s.leafSlot r v = some pte) (hagrees : Agrees perm (s.leafPte r v))
    (hdouble : s.entry c v ≠ none → E (.panic "map_pages: double-map va=%p")) :
    wpe E (map_pages c (v * PG_SIZE) PG_SIZE pa (pte_flags (s.pte pte))) (fun ret s' =>
      (ret = -1 ∧ ∃ own', Duped (OfDup r c) s s' own own' roots r c (fun _ => False)) ∨
      ret = 0 ∧ wp (page_get pa) (fun _ s'' => ∃ own'', Duped (OfDup r c) s s'' own own'' roots r c (· = v)) s') s := by
  obtain ⟨hv, hvalid, -, hw⟩ := entry_some he
  have hown := h.entry_owned hr he
  have hrange := h.pages.range_of hown
  have hlt : pa < 2 ^ 56 := by
    simp only [PHYS_STOP] at hrange
    omega
  have hpage : v * PG_SIZE / PG_SIZE = v := Nat.mul_div_cancel _ (by decide)
  rw [← leafPte_of_slot hpte]
  have hflags : pte_flags (s.leafPte r v) < 1024 := Nat.lt_of_le_of_lt Nat.and_le_right (by decide)
  refine wpe_mono (map_page_spec h.pages (h.tables c hc) (Nat.mul_mod_left _ _) hrange.1 ?_ ?_) ?_
  · intro hge
    simp only [USER_VPNS, TRAPFRAME, TRAMPOLINE, MAX_VA, PG_SIZE] at hv hge
    omega
  · rw [hpage]
    exact fun hvalid => hdouble (entry_ne_none.mpr ⟨hv, hvalid⟩)
  rw [hpage]
  rintro ret s' ⟨-, s1, own1, hg, ⟨rfl, rfl, -⟩ | ⟨rfl, hempty, a, ha, rfl⟩⟩
  · obtain ⟨hsp1, heff⟩ := h.grown hc hg
    refine .inl ⟨rfl, own1, hsp1, hg.touches.mono fun _ ho => .inr (.inl ho), fun r' hr' _ => ?_, fun v' _ => .inl ?_,
      fun _ hP => hP.elim, fun v' _ _ => by rw [hg.leaf], fun _ hP => hP.elim, fun y _ => ?_,
      fun pa path => hg.touches.owner _ _ (isTable_of_ne hne path)⟩
    · exact h.view_of_leafPte hr' hg.touches (user_not_table c) (h.leafPte_grown hg hr')
    · rw [h.leafPte_grown hg hr]
    · rw [h.view_of_leafPte hc hg.touches (user_not_table c) hg.leaf]
  · obtain ⟨hpa, -, hx⟩ := leaf_parts hrange.1 hlt hflags
    have hbits := fun i (hi : i < 10) => hagrees.copied hrange.1 hlt hi
    refine .inr ⟨rfl, wp_mono (h.join hr hc he hg ha hempty hx hpa ((hbits 0 (by decide)).mpr hvalid) ?_) ?_⟩
    · have hnot : ¬ Has (s.leafPte r v) PTE_W := by simpa using hw.symm
      exact fun hxw => hnot ((hbits 2 (by decide)).mp hxw)
    · rintro _ s'' ⟨own'', hj⟩
      exact ⟨own'', .of_joined h hr hne he hpa hbits hj⟩

theorem dupPages_spec {trapframe : Nat} {vmas : List Vma} (h : Spaces s own roots) (hr : r ∈ roots) (hc : c ∈ roots)
    (hne : r ≠ c) (hsp : AddrSpace k s r trapframe vmas) (hlt : v + n ≤ USER_VPNS)
    (hdouble : ∀ u, v ≤ u → u < v + n → s.entry r u ≠ none → s.entry c u ≠ none →
      E (.panic "map_pages: double-map va=%p")) :
    wpe E (dupPages c r n (v * PG_SIZE)) (fun ok s' => ∃ own' m, m ≤ n ∧
      Duped (OfDup r c) s s' own own' roots r c (fun u => v ≤ u ∧ u < v + m) ∧ (ok = true → m = n)) s := by
  induction n generalizing s own v with
  | zero =>
    rw [dupPages, wpe_pure]
    exact ⟨own, 0, Nat.le_refl 0, (Duped.refl h _ r c).congr fun u _ => iff_of_false id (by omega), fun _ => rfl⟩
  | succ n ih =>
    have hv : v < USER_VPNS := by omega
    have hpage : v * PG_SIZE / PG_SIZE = v := Nat.mul_div_cancel _ (by decide)
    have hmax : v * PG_SIZE < MAX_VA := by
      simp only [USER_VPNS, TRAPFRAME, TRAMPOLINE, MAX_VA, PG_SIZE] at *
      omega
    have hnext : v * PG_SIZE + PG_SIZE = (v + 1) * PG_SIZE := (Nat.succ_mul v PG_SIZE).symm
    -- the rest of the loop, after a round that shared the page `v` if it was mapped
    have hcons : ∀ {s1 own1}, Duped (OfDup r c) s s1 own own1 roots r c (· = v) →
        wpe E (dupPages c r n ((v + 1) * PG_SIZE)) (fun ok s' => ∃ own' m, m ≤ n + 1 ∧
          Duped (OfDup r c) s s' own own' roots r c (fun u => v ≤ u ∧ u < v + m) ∧ (ok = true → m = n + 1)) s1 := by
      intro s1 own1 hone
      refine wpe_mono (ih hone.spaces (hone.parent.addrSpace hsp) (by omega) fun u hlo hhi he hec => ?_) ?_
      · refine hdouble u (by omega) (by omega) ((hone.parent.mapped_iff u).mp he) ?_
        rwa [← entry_congr (hone.rest u (USER_VPNS_lt (entry_ne_none.mp he).1) (by omega))]
      · rintro ok s2 ⟨own2, m, hm, hrest, hall⟩
        refine ⟨own2, m + 1, by omega, (hone.trans hrest hr hne).congr fun u _ => by omega, fun hok => ?_⟩
        rw [hall hok]
    simp only [dupPages, wpe_bind]
    refine wpe_mono (walk_read h.toPageTables hr hmax).wpe ?_
    rintro pte s1 ⟨rfl, hslot, hvalid⟩
    rw [hpage] at hslot hvalid
    simp only [wpe_get, wpe_ite, hvalid, not_not, hnext]
    refine ⟨fun hempty => ?_, fun hleaf => ?_⟩
    · refine hcons ((Duped.refl h _ r c).congr fun u he => iff_of_false id ?_)
      rintro rfl
      exact hempty (entry_ne_none.mp he).2
    have hpte := hslot fun hzero => hvalid.mp (.inl hzero) hleaf
    have he := entry_eq hv hleaf
    rw [← leafPte_of_slot hpte]
    -- the round from a state in which nobody may write the page
    have hround : ∀ {s2}, Duped (OfDup r c) s1 s2 own own roots r c (fun _ => False) → s2.leafSlot r v = some pte →
        s2.entry r v = some (pte_to_pa (s1.leafPte r v), false) →
        wpe E (do
            let s ← get
            let ret ← map_pages c (v * PG_SIZE) PG_SIZE (pte_to_pa (s1.leafPte r v)) (pte_flags (s.pte pte))
            if ret < 0 then
              pure false
            else do
              page_get (pte_to_pa (s1.leafPte r v))
              dupPages c r n ((v + 1) * PG_SIZE))
          (fun ok s' => ∃ own' m, m ≤ n + 1 ∧
            Duped (OfDup r c) s1 s' own own' roots r c (fun u => v ≤ u ∧ u < v + m) ∧ (ok = true → m = n + 1)) s2 := by
      intro s2 h2 hpte2 he2
      obtain ⟨hv2, hvalid2, -, -⟩ := entry_some he2
      obtain ⟨a, -, -, hagrees⟩ := (h2.parent.addrSpace hsp).covered v hv2 hvalid2
      simp only [wpe_bind, wpe_get, wpe_ite, wpe_pure]
      refine wpe_mono (dupPage_spec h2.spaces hr hc hne he2 hpte2 hagrees fun hec => ?_) ?_
      · refine hdouble v (Nat.le_refl v) (by omega) (by rw [he]; simp) ?_
        rwa [← entry_congr (h2.rest v (USER_VPNS_lt hv) fun hboth => hboth.1)]
      · rintro ret s3 (⟨rfl, own3, h3⟩ | ⟨rfl, hget⟩)
        · refine ⟨fun _ => ⟨own3, 0, by omega, (h2.trans h3 hr hne).congr fun u _ => ?_, by simp⟩, fun hge => absurd (by decide) hge⟩
          exact iff_of_false (by simp) (by omega)
        · refine ⟨fun hlt => absurd hlt (by decide), fun _ => wpe_mono hget.wpe ?_⟩
          rintro _ s4 ⟨own4, h4⟩
          exact hcons ((h2.trans h4 hr hne).congr fun u _ => by simp)
    refine ⟨fun hw => ?_, fun hw => ?_⟩
    · obtain ⟨h2, hpte2, hleaf2⟩ := Duped.of_setFlags h hr hc (Ne.symm hne) (by rw [he, decide_eq_true hw]) hpte
      rw [wpe_bind, wpe_modify, ← shareLeaf, ← leafPte_of_slot hpte]
      refine hround h2 hpte2 ?_
      rw [entry_eq hv (by rw [hleaf2]; exact (shareLeaf_bit _ (i := 0) (by decide) (by decide)).mpr hleaf), hleaf2,
        pa_shareLeaf, decide_eq_false (not_write_shareLeaf _)]
    · exact hround (.refl h _ r c) hpte (by rw [he, decide_eq_false hw])

/-- All pages of an area. -/
theorem dupArea_spec {trapframe : Nat} {vmas : List Vma} (h : Spaces s own roots) (hr : r ∈ roots) (hc : c ∈ roots)
    (hne : r ≠ c) (hsp : AddrSpace k s r trapframe vmas) (ha : a.Ok)
    (hhigh : MAX_VA ≤ a.start → a.start < a.end_ → E (.panic "walk: va >= MAX_VA"))
    (hdouble : ∀ u, a.Covers (u * PG_SIZE) → s.entry c u ≠ none → E (.panic "map_pages: double-map va=%p")) :
    wpe E (dupPages c r (nrPages a.start a.end_) a.start) (fun ok s' => ∃ own' P, (∀ u, P u → a.Covers (u * PG_SIZE)) ∧
      Duped (OfDup r c) s s' own own' roots r c P ∧ (ok = true → ∀ u, a.Covers (u * PG_SIZE) → P u)) s := by
  have hcovers := ha.pages
  by_cases hempty : a.end_ ≤ a.start
  · have hzero : nrPages a.start a.end_ = 0 := by
      simp only [nrPages, PG_SIZE]
      omega
    rw [hzero, dupPages, wpe_pure]
    exact ⟨own, _, fun _ hP => hP.elim, .refl h _ r c, fun _ u hcov => by rw [hcovers, hzero] at hcov; omega⟩
  have hpos : a.start < a.end_ := by omega
  rcases ha.range hpos with hle | hge
  · have hspec := dupPages_spec h hr hc hne hsp (ha.vpn_le hpos hle) fun u hlo hhi _ => hdouble u ((hcovers u).mpr ⟨hlo, hhi⟩)
    rw [← ha.start_eq] at hspec
    refine wpe_mono hspec ?_
    rintro ok s' ⟨own', m, hm, hdup, hall⟩
    refine ⟨own', _, fun u hu => (hcovers u).mpr ⟨hu.1, by omega⟩, hdup, fun hok u hcov => ?_⟩
    rw [hall hok]
    exact (hcovers u).mp hcov
  · obtain ⟨n, hn⟩ := ha.nrPages_pos hpos
    rw [hn, dupPages, wpe_bind, walk, if_pos hge, wpe_panic]
    exact hhigh hge hpos

/-- What `vma_dup_all` may touch. -/
def OfFork (r c : Nat) (o : Owner) : Prop := OfDup r c o ∨ o = .slab VMA_CLASS

theorem Duped.of_slab {i : Nat} (h : Spaces s own roots) (hr : r ∈ roots) (hc : c ∈ roots)
    (hsp : Spaces s' own' roots) (ht : Touches (· = .slab i) s s' own own') :
    Duped (· = .slab i) s s' own own' roots r c (fun _ => False) := by
  have hleaf : ∀ r' ∈ roots, s'.leafPte r' = s.leafPte r' := fun r' hr' => h.leafPte_frame ht (by simp) hr'
  have hview : ∀ r' ∈ roots, s'.view r' = s.view r' := fun r' hr' =>
    h.view_of_leafPte hr' ht (by simp) (hleaf r' hr')
  exact ⟨hsp, ht, fun r' hr' _ => hview r' hr', fun v _ => .inl (by rw [hleaf r hr]), fun _ hP => hP.elim,
    fun v _ _ => by rw [hleaf c hc], fun _ hP => hP.elim, fun y _ => by rw [hview c hc], fun _ _ => ht.owner _ _ (by simp)⟩

/-- The state after a failed `vma_dup_all`: the child has no pages, and the parent
may have lost rights to write but no bytes. -/
structure Undone (s s' : Kmem) (own own' : Nat → Option Owner) (roots : List Nat) (r c : Nat) (others procs : List Nat) :
    Prop where
  memory : KernelMemory s' own' roots others procs
  touches : Touches (OfFork r c) s s' own own'
  views : ∀ r' ∈ roots, r' ≠ c → s'.view r' = s.view r'
  parent : Deferred s s' r
  child : ∀ v, s'.entry c v = none
  top : ∀ v < 2 ^ 26, USER_VPNS ≤ v → s'.leafPte c v = s.leafPte c v
  tables : ∀ pa path, own' pa = some (.table r path) ↔ own pa = some (.table r path)

theorem Duped.undo {vmas : List Vma} (hd : Duped (OfFork r c) s s' own own' roots r c P)
    (hrel : Released s' s'' own' own'' roots c vmas others procs) (hr : r ∈ roots) (hne : r ≠ c)
    (hok : ∀ b ∈ vmas, b.Ok) (hcov : ∀ v, s'.entry c v ≠ none → ∃ b ∈ vmas, b.Covers (v * PG_SIZE)) :
    Undone s s'' own own'' roots r c others procs := by
  have hleaf : s''.leafPte r = s'.leafPte r :=
    hd.spaces.leafPte_frame hrel.effect.touches (ofAreas_not_table hne) hr
  refine ⟨hrel.memory, hd.touches.trans (hrel.effect.touches.mono ?_), fun r' hr' hrc => ?_, fun v hv => ?_, fun v => ?_,
    fun v hv htop => ?_, fun pa path => (hrel.effect.touches.owner _ _ (ofAreas_not_table hne path)).trans (hd.tables pa path)⟩
  · rintro o (ho | ho)
    · exact .inl (.inr ho)
    · exact .inr ho
  · rw [hrel.effect.views r' hr' (ofAreas_not_table hrc), hd.views r' hr' hrc]
  · rw [hleaf]
    exact hd.parent v hv
  · by_contra he
    obtain ⟨hv, hvalid⟩ := entry_ne_none.mp he
    by_cases hin : ∃ b ∈ vmas, b.Covers (v * PG_SIZE)
    · exact hrel.gone v (USER_VPNS_lt hv) hin hvalid
    · have hkept := hrel.kept v (USER_VPNS_lt hv) fun b hb hbv => hin ⟨b, hb, hbv⟩
      exact hin (hcov v (by rwa [← entry_congr hkept]))
  · have hout : ∀ b ∈ vmas, ¬ b.Covers (v * PG_SIZE) := by
      intro b hb hbv
      have hlt := (hok b hb).vpn_lt hbv (by simp only [MAX_VA, PG_SIZE] at *; omega)
      rw [Nat.mul_div_cancel v (by decide)] at hlt
      omega
    rw [hrel.kept v hv hout]
    refine hd.rest v hv fun hboth => ?_
    have hlt := (entry_ne_none.mp hboth.2).1
    omega

/-- The same area for another process. -/
structure SameArea (a b : Vma) : Prop where
  start : b.start = a.start
  end_ : b.end_ = a.end_
  perm : b.perm = a.perm
  flags : b.flags = a.flags

namespace SameArea

theorem covers_iff (h : SameArea a b) (y : Nat) : b.Covers y ↔ a.Covers y := by
  unfold Vma.Covers
  rw [h.start, h.end_]

theorem ok (h : SameArea a b) (ha : a.Ok) : b.Ok := by
  constructor
  all_goals simp only [h.start, h.end_, h.perm]
  exacts [ha.start_aligned, ha.end_aligned, ha.start_lt, ha.end_lt, ha.perm, ha.user, ha.range]

end SameArea

theorem vma_add_perm (v : Vma) (l : List Vma) : (vma_add v l).Perm (v :: l) := by
  induction l with
  | nil => exact .refl _
  | cons pos rest ih =>
    unfold vma_add
    split
    · exact .refl _
    · exact (ih.cons pos).trans (.swap v pos rest)

/-- No address is in both areas. -/
def Apart (a b : Vma) : Prop := ∀ y, ¬ (a.Covers y ∧ b.Covers y)

theorem vma_dup_all_spec {trapframe : Nat} {vmas todo acc : List Vma}
    (h : KernelMemory s own roots (acc.map Vma.addr ++ others) procs) (hr : r ∈ roots) (hc : c ∈ roots) (hne : r ≠ c)
    (hsp : AddrSpace k s r trapframe vmas) (htodo : ∀ a ∈ todo, a.Ok) (hacc : ∀ b ∈ acc, b.Ok)
    (hcov : ∀ v, s.entry c v ≠ none → ∃ b ∈ acc, b.Covers (v * PG_SIZE))
    (hhigh : ∀ a ∈ todo ++ acc, MAX_VA ≤ a.start → a.start < a.end_ → E (.panic "walk: va >= MAX_VA"))
    (hdouble : (¬ todo.Pairwise Apart ∨ ∃ a ∈ todo, ∃ b ∈ acc, ¬ Apart a b) → E (.panic "map_pages: double-map va=%p")) :
    wpe E (vma_dup_all c r todo acc) (fun ret s' => match ret with
      | some vmas' => ∃ own' news, vmas' = news.foldl (fun l v => vma_add v l) acc ∧ List.Forall₂ SameArea todo news ∧
          KernelMemory s' own' roots (vmas'.map Vma.addr ++ others) procs ∧
          Duped (OfFork r c) s s' own own' roots r c (fun v => ∃ a ∈ todo, a.Covers (v * PG_SIZE))
      | none => ∃ own', Undone s s' own own' roots r c others procs) s := by
  induction todo generalizing s own acc with
  | nil =>
    rw [vma_dup_all, wpe_pure]
    exact ⟨own, [], rfl, .nil, h, (Duped.refl h.spaces _ r c).congr fun v _ => by simp⟩
  | cons a todo ih =>
    have ha := htodo a (by simp)
    -- giving up with the areas in `l`
    have hgiveup : ∀ {s1 own1 P} {l : List Vma}, Duped (OfFork r c) s s1 own own1 roots r c P →
        KernelMemory s1 own1 roots (l.map Vma.addr ++ others) procs → (∀ b ∈ l, b.Ok) →
        (∀ b ∈ l, MAX_VA ≤ b.start → b.start < b.end_ → E (.panic "walk: va >= MAX_VA")) →
        (∀ v, s1.entry c v ≠ none → ∃ b ∈ l, b.Covers (v * PG_SIZE)) →
        wpe E (vma_free_all c l) (fun _ s2 => ∃ own2, Undone s s2 own own2 roots r c others procs) s1 := by
      intro s1 own1 P l hd hmem hok hhigh hcov
      refine wpe_mono (vma_free_all_spec hmem hc hok hhigh) ?_
      rintro _ s2 ⟨own2, hrel⟩
      exact ⟨own2, hd.undo hrel hr hne hok hcov⟩
    simp only [vma_dup_all, wpe_bind]
    refine wpe_mono (h.vma_create_spec a.start a.end_ a.perm a.flags).wpe ?_
    rintro ret s1 (⟨rfl, rfl, -⟩ | ⟨x, own1, rfl, h1, ht1⟩)
    · simp only [wpe_bind, wpe_pure]
      exact hgiveup (Duped.refl h.spaces _ r c) h hacc (fun b hb => hhigh b (by simp [hb])) hcov
    -- the new area
    obtain ⟨nv, hnv⟩ : ∃ nv : Vma, nv = ⟨x, a.start, a.end_, a.perm, a.flags⟩ := ⟨_, rfl⟩
    have hsame : SameArea a nv := by rw [hnv]; exact ⟨rfl, rfl, rfl, rfl⟩
    have hd1 := (Duped.of_slab h.spaces hr hc h1.spaces ht1).mono (U := OfFork r c) fun _ => .inr
    have hentry1 : ∀ v, s1.entry c v = s.entry c v := by
      intro v
      by_cases hv : v < USER_VPNS
      · exact entry_congr (hd1.rest v (USER_VPNS_lt hv) fun hboth => hboth.1)
      · rw [Kmem.entry, Kmem.entry, if_neg fun h => hv h.1, if_neg fun h => hv h.1]
    have hperm := vma_add_perm nv acc
    have hmem1 : KernelMemory s1 own1 roots ((vma_add nv acc).map Vma.addr ++ others) procs := by
      refine h1.perm ?_ (.refl _)
      have hmap := ((hperm.map Vma.addr).append_right others).symm
      simpa [hnv] using hmap
    have hok1 : ∀ b ∈ vma_add nv acc, b.Ok := by
      intro b hb
      rcases List.mem_cons.mp (hperm.mem_iff.mp hb) with rfl | hb
      · exact hsame.ok ha
      · exact hacc b hb
    have hhigh1 : ∀ b ∈ vma_add nv acc, MAX_VA ≤ b.start → b.start < b.end_ → E (.panic "walk: va >= MAX_VA") := by
      intro b hb
      rcases List.mem_cons.mp (hperm.mem_iff.mp hb) with rfl | hb
      · rw [hsame.start, hsame.end_]
        exact hhigh a (by simp)
      · exact hhigh b (by simp [hb])
    simp only [← hnv, wpe_bind]
    refine wpe_mono (dupArea_spec h1.spaces hr hc hne (hd1.parent.addrSpace hsp) ha (hhigh a (by simp)) fun u hu he => ?_) ?_
    · obtain ⟨b, hb, hbu⟩ := hcov u (by rwa [← hentry1])
      exact hdouble (.inr ⟨a, by simp, b, hb, fun hapart => hapart _ ⟨hu, hbu⟩⟩)
    rintro ok s2 ⟨own2, P, hP, hd2, hall⟩
    have hd := hd1.trans (hd2.mono fun _ => .inl) hr hne
    have hmem2 : KernelMemory s2 own2 roots ((vma_add nv acc).map Vma.addr ++ others) procs := by
      refine ⟨hd2.spaces, hmem1.objects.frame hd2.touches ?_⟩
      rintro i (hT | hT)
      · exact isTable_not_slab r i hT
      · exact inSpace_not_slab c i hT
    have hcov2 : ∀ v, s2.entry c v ≠ none → ∃ b ∈ vma_add nv acc, b.Covers (v * PG_SIZE) := by
      intro v he
      have hv := (entry_ne_none.mp he).1
      by_cases hPv : P v
      · exact ⟨nv, hperm.mem_iff.mpr (by simp), (hsame.covers_iff _).mpr (hP v hPv)⟩
      · rw [entry_congr (hd2.rest v (USER_VPNS_lt hv) fun hboth => hPv hboth.1), hentry1] at he
        obtain ⟨b, hb, hbv⟩ := hcov v he
        exact ⟨b, hperm.mem_iff.mpr (by simp [hb]), hbv⟩
    cases ok with
    | false =>
      simp only [Bool.false_eq_true, if_false, wpe_bind, wpe_pure]
      exact hgiveup hd hmem2 hok1 hhigh1 hcov2
    | true =>
      simp only [if_true]
      refine wpe_mono (ih hmem2 (hd.parent.addrSpace hsp) (fun b hb => htodo b (by simp [hb])) hok1 hcov2 ?_ ?_) ?_
      · intro b hb
        rcases List.mem_append.mp hb with hb | hb
        · exact hhigh b (by simp [hb])
        · exact hhigh1 b hb
      · rintro (hno | ⟨a', ha', b, hb, hno⟩)
        · exact hdouble (.inl fun hpair => hno (List.pairwise_cons.mp hpair).2)
        · rcases List.mem_cons.mp (hperm.mem_iff.mp hb) with rfl | hb
          · refine hdouble (.inl fun hpair => hno fun y hy => ?_)
            exact (List.pairwise_cons.mp hpair).1 a' ha' y ⟨(hsame.covers_iff y).mp hy.2, hy.1⟩
          · exact hdouble (.inr ⟨a', by simp [ha'], b, hb, hno⟩)
      · rintro (_ | vmas') s3 hres
        · obtain ⟨own3, hundone⟩ := hres
          refine ⟨own3, hundone.memory, hd.touches.trans hundone.touches, fun r' hr' hrc => ?_,
            hd.parent.trans hundone.parent, hundone.child, fun v hv htop => ?_, fun pa path => (hundone.tables pa path).trans (hd.tables pa path)⟩
          · rw [hundone.views r' hr' hrc, hd.views r' hr' hrc]
          · rw [hundone.top v hv htop]
            refine hd.rest v hv fun hboth => ?_
            have hlt := (entry_ne_none.mp hboth.2).1
            omega
        · obtain ⟨own3, news, rfl, hsames, hmem3, hd3⟩ := hres
          refine ⟨own3, nv :: news, rfl, .cons hsame hsames, hmem3, (hd.trans hd3 hr hne).congr fun v _ => ?_⟩
          simp only [List.mem_cons, exists_eq_or_imp, false_or]
          exact or_congr_left ⟨hP v, hall rfl v⟩

end Vm

end bobchouos
