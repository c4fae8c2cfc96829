import BobchouOS.Vm.Walk

open lib

namespace bobchouos

variable {s₀ s s' : Kmem} {own₀ own own' : Nat → Option Owner} {root pa : Nat} {path : List Nat}
  {K K' : List Nat → Prop}

/-- The state while `proc_free_pagetable` takes down a page table: the tables at
the paths in `K` are still there, as they were at its start. -/
structure Freeing (s₀ s : Kmem) (own₀ own : Nat → Option Owner) (root : Nat) (K : List Nat → Prop) : Prop where
  pages : Pages s own
  owner : ∀ path pa, own pa = some (.table root path) ↔ K path ∧ own₀ pa = some (.table root path)
  same : ∀ path pa, K path → own₀ pa = some (.table root path) → SamePage s₀ s pa
  touches : Touches (Owner.IsTable root) s₀ s own₀ own

namespace Freeing

/-- Only paths to tables matter. -/
theorem congr (hf : Freeing s₀ s own₀ own root K)
    (hK : ∀ path pa, own₀ pa = some (.table root path) → (K' path ↔ K path)) :
    Freeing s₀ s own₀ own root K' := by
  refine ⟨hf.pages, fun path pa => ?_, fun path pa hpath hpa => ?_, hf.touches⟩
  · rw [hf.owner]
    exact and_congr_left fun hpa => (hK path pa hpa).symm
  · exact hf.same path pa ((hK path pa hpa).mp hpath) hpa

/-- Giving back one table. -/
theorem kfree_spec (hf : Freeing s₀ s own₀ own root K) (h : PageTable s₀ own₀ root) (hpath : K path)
    (hpa : own₀ pa = some (.table root path)) :
    wp (kfree pa) (fun _ s' => ∃ own', Freeing s₀ s' own₀ own' root (fun q => K q ∧ q ≠ path)) s := by
  have hown : own pa = some (.table root path) := (hf.owner path pa).mpr ⟨hpath, hpa⟩
  have href : (s.pa_to_page pa).refcount = 1 := by
    rw [(hf.same path pa hpath hpa).page]
    exact h.single path pa hpa
  refine wp_mono (hf.pages.kfree_spec hown rfl href) ?_
  rintro _ s' ⟨hpages, hsame, hstart, hclasses⟩
  have hinj : ∀ q pb, own₀ pb = some (.table root q) → (pb ≠ pa ↔ q ≠ path) := by
    intro q pb hpb
    refine not_congr ⟨?_, ?_⟩
    · rintro rfl
      rw [hpa] at hpb
      cases hpb
      rfl
    · rintro rfl
      have hat := ((h.owner q pb).mp hpb).2
      rw [((h.owner q pa).mp hpa).2] at hat
      cases hat
      rfl
  refine ⟨_, hpages, fun q pb => ?_, ?_, hf.touches.trans (.of_kfree hown ⟨path, rfl⟩ hsame hstart hclasses)⟩
  · by_cases hpb : pb = pa
    · subst hpb
      refine iff_of_false (by simp) ?_
      rintro ⟨⟨-, hq⟩, hpb⟩
      exact (hinj q pb hpb).mpr hq rfl
    · rw [Function.update_of_ne hpb, hf.owner]
      refine and_congr_left fun hq => ?_
      exact ⟨fun hKq => ⟨hKq, (hinj q pb hq).mp hpb⟩, And.left⟩
  · rintro q pb ⟨hKq, hq⟩ hpb
    have hownb : own pb = some (.table root q) := (hf.owner q pb).mpr ⟨hKq, hpb⟩
    exact (hf.same q pb hKq hpb).trans (hsame pb (by rw [hownb]; simp) ((hinj q pb hpb).mpr hq))

/-- The entry of a directory that is still there, and the table below it. -/
theorem entry (hf : Freeing s₀ s own₀ own root K) (h : PageTable s₀ own₀ root) {t i : Nat} (hpath : K path)
    (ht : own₀ t = some (.table root path)) (hi : IsPath (path ++ [i])) :
    (Has (s.pte (pteAddr t i)) PTE_V → own₀ (pte_to_pa (s.pte (pteAddr t i))) = some (.table root (path ++ [i]))) ∧
      (¬ Has (s.pte (pteAddr t i)) PTE_V → ∀ rest pa, own₀ pa ≠ some (.table root (path ++ i :: rest))) := by
  have hat := ((h.owner path t).mp ht).2
  have hnext := Kmem.tableAt_concat s₀ root i path
  rw [hat, Option.bind_some, Kmem.child, ← (hf.same path t hpath ht).pte hi.concat.2.2] at hnext
  refine ⟨fun hv => ?_, fun hv rest pa hpa => ?_⟩
  · rw [if_pos hv] at hnext
    exact h.owned hi hnext
  · rw [if_neg hv] at hnext
    have hdeep := ((h.owner _ pa).mp hpa).2
    rw [Kmem.tableAt, ← List.singleton_append, ← List.append_assoc, List.foldlM_append] at hdeep
    rw [Kmem.tableAt] at hnext
    rw [hnext] at hdeep
    cases hdeep

end Freeing

theorem freeTables_spec (h : PageTable s₀ own₀ root) {lv1 i : Nat} (hlv1 : own₀ lv1 = some (.table root [i]))
    (hK : ∀ rest, K (i :: rest)) {left j : Nat} (hj : left + j = 512)
    (hf : Freeing s₀ s own₀ own root fun q => K q ∧ ∀ j' < j, q ≠ [i, j']) :
    wp (freeTables lv1 left j) (fun _ s' => ∃ own', Freeing s₀ s' own₀ own' root
      fun q => K q ∧ ∀ j' < 512, q ≠ [i, j']) s := by
  induction left generalizing s own j with
  | zero =>
    simp only [freeTables, wp_pure]
    rw [Nat.zero_add] at hj
    subst hj
    exact ⟨own, hf⟩
  | succ left ih =>
    have hi := ((h.owner [i] lv1).mp hlv1).1
    have hij : IsPath ([i] ++ [j]) := isPath_concat hi (Nat.le_refl 1) (by omega)
    have hentry := hf.entry h ⟨hK [], by simp⟩ hlv1 hij
    simp only [freeTables, wp_bind, wp_get, wp_ite]
    refine ⟨fun hv => ?_, fun hv => ?_⟩
    · refine wp_mono (hf.kfree_spec h ⟨hK [j], ?_⟩ (hentry.1 hv)) ?_
      · intro j' hj' heq
        simp at heq
        omega
      · rintro _ s1 ⟨own1, hf1⟩
        apply ih (by omega) (hf1.congr ?_)
        intro q pa _
        constructor
        · rintro ⟨hKq, hq⟩
          exact ⟨⟨hKq, fun j' hj' => hq j' (by omega)⟩, hq j (by omega)⟩
        · rintro ⟨⟨hKq, hq⟩, hqj⟩
          refine ⟨hKq, fun j' hj' => ?_⟩
          rcases Nat.lt_succ_iff_lt_or_eq.mp hj' with hlt | rfl
          · exact hq j' hlt
          · exact hqj
    · apply ih (by omega) (hf.congr ?_)
      intro q pa hpa
      refine and_congr_right fun _ => ⟨fun hq j' hj' => hq j' (by omega), fun hq j' hj' => ?_⟩
      rcases Nat.lt_succ_iff_lt_or_eq.mp hj' with hlt | rfl
      · exact hq j' hlt
      · rintro rfl
        exact hentry.2 hv [] pa hpa

theorem freeDirs_spec (h : PageTable s₀ own₀ root) {left i : Nat} (hi : left + i = 512)
    (hf : Freeing s₀ s own₀ own root fun q => ∀ i' < i, q.head? ≠ some i') :
    wp (freeDirs root left i) (fun _ s' => ∃ own', Freeing s₀ s' own₀ own' root
      fun q => ∀ i' < 512, q.head? ≠ some i') s := by
  induction left generalizing s own i with
  | zero =>
    simp only [freeDirs, wp_pure]
    rw [Nat.zero_add] at hi
    subst hi
    exact ⟨own, hf⟩
  | succ left ih =>
    have hpath : IsPath ([] ++ [i]) := ⟨by simp, by simp; omega⟩
    have hentry := hf.entry h (by simp) h.root_owned hpath
    simp only [freeDirs, wp_bind, wp_get, wp_ite]
    refine ⟨fun hv => ?_, fun hv => ?_⟩
    · obtain ⟨lv1, hlv1⟩ : ∃ lv1, lv1 = pte_to_pa (s.pte (pteAddr root i)) := ⟨_, rfl⟩
      have hown := hentry.1 hv
      rw [← hlv1] at hown ⊢
      refine wp_mono (freeTables_spec h (K := fun q => ∀ i' < i, q.head? ≠ some i') hown ?_ (j := 0) (by omega)
        (hf.congr (by simp))) ?_
      · intro rest i' hi'
        simp
        omega
      rintro _ s1 ⟨own1, hf1⟩
      refine wp_mono (hf1.kfree_spec h ⟨?_, by simp⟩ hown) ?_
      · intro i' hi'
        simp
        omega
      rintro _ s2 ⟨own2, hf2⟩
      apply ih (by omega) (hf2.congr ?_)
      intro q pa hpa
      have hq := ((h.owner q pa).mp hpa).1
      constructor
      · intro hhead
        refine ⟨⟨fun i' hi' => hhead i' (by omega), ?_⟩, ?_⟩
        · rintro j' - rfl
          exact hhead i (by omega) rfl
        · rintro rfl
          exact hhead i (by omega) rfl
      · rintro ⟨⟨hhead, htwo⟩, hone⟩ i' hi'
        rcases Nat.lt_succ_iff_lt_or_eq.mp hi' with hlt | rfl
        · exact hhead i' hlt
        · rcases q with _ | ⟨k, _ | ⟨j, _ | ⟨l, q⟩⟩⟩
          · simp
          · intro heq
            cases heq
            exact hone rfl
          · intro heq
            cases heq
            exact htwo j (hq.2 j (by simp)) rfl
          · have hlen := hq.1
            simp at hlen
    · apply ih (by omega) (hf.congr ?_)
      intro q pa hpa
      refine ⟨fun hq i' hi' => hq i' (by omega), fun hq i' hi' => ?_⟩
      rcases Nat.lt_succ_iff_lt_or_eq.mp hi' with hlt | rfl
      · exact hq i' hlt
      · intro hhead
        obtain ⟨rest, rfl⟩ := List.head?_eq_some_iff.mp hhead
        exact hentry.2 hv rest pa hpa

/-- `proc_free_pagetable` gives back each table of the root and nothing else. -/
theorem proc_free_pagetable_spec (hp : Pages s own) (h : PageTable s own root) :
    wp (proc_free_pagetable root) (fun _ s' => ∃ own', Pages s' own' ∧
      (∀ pa path, own' pa ≠ some (.table root path)) ∧ Touches (Owner.IsTable root) s s' own own') s := by
  have hf : Freeing s s own own root fun q => ∀ i' < 0, q.head? ≠ some i' :=
    ⟨hp, by simp, fun _ pa _ _ => .refl s pa, .refl _ s own⟩
  simp only [proc_free_pagetable, wp_bind]
  refine wp_mono (freeDirs_spec h rfl hf) ?_
  rintro _ s1 ⟨own1, hf1⟩
  refine wp_mono (hf1.kfree_spec h (by simp) h.root_owned) ?_
  rintro _ s2 ⟨own2, hf2⟩
  refine ⟨own2, hf2.pages, fun pa path hpa => ?_, hf2.touches⟩
  obtain ⟨⟨hhead, hne⟩, hown⟩ := (hf2.owner path pa).mp hpa
  cases path with
  | nil => exact hne rfl
  | cons i rest => exact hhead i (((h.owner _ pa).mp hown).1.2 i (by simp)) rfl

end bobchouos
