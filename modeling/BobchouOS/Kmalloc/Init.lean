import BobchouOS.Kmalloc.Free

open lib

namespace bobchouos

variable {s : Kmem} {own : Nat → Option Owner} {lists frees : Nat → List Nat} {objs : List Nat} {n : Nat}

/-- A class whose slot size is set and whose list is still empty. -/
theorem SlabInv.extend (h : SlabInv n s own lists frees objs) (hn : n < NR_SIZE_CLASSES)
    (hempty : (s.size_classes n).slabs = 0) {t : Kmem}
    (ht : t = { s with size_classes := Function.update s.size_classes n ⟨slotSize n, 0⟩ }) :
    SlabInv (n + 1) t own (Function.update lists n []) frees objs := by
  subst ht
  have hold : ∀ c, c < n + 1 → c ≠ n → c < n := fun c hc hne => by omega
  have hsame : ∀ q, SamePage s { s with size_classes := Function.update s.size_classes n ⟨slotSize n, 0⟩ } q :=
    fun q => ⟨fun _ _ _ => rfl, rfl⟩
  refine ⟨hn, ?_, ?_, ?_, ?_, ?_, h.objs_nodup, h.objs_slot⟩
  · intro c hc
    by_cases heq : c = n
    · subst heq
      simp
    · simp only [Function.update_of_ne heq]
      exact h.sizes c (hold c hc heq)
  · intro c hc
    by_cases heq : c = n
    · subst heq
      simp
    · simp only [Function.update_of_ne heq]
      exact h.chain c (hold c hc heq)
  · intro c hc
    by_cases heq : c = n
    · subst heq
      simp
    · rw [Function.update_of_ne heq]
      exact h.nodup c (hold c hc heq)
  · intro c pg
    rw [h.owned]
    by_cases heq : c = n
    · subst heq
      simp
    · rw [Function.update_of_ne heq]
      exact and_congr_left fun _ => ⟨fun hc => by omega, fun hc => hold c hc heq⟩
  · intro c hc pg hpg
    by_cases heq : c = n
    · subst heq
      simp at hpg
    · rw [Function.update_of_ne heq] at hpg
      have hc := hold c hc heq
      exact (hsame pg).slabPage (h.lt hc) (h.page c hc pg hpg) fun _ _ => Iff.rfl

theorem initClasses_spec (left : Nat) (hp : Pages s own) (h : SlabInv n s own lists frees [])
    (hsum : n + left = NR_SIZE_CLASSES) (hzero : ∀ c, n ≤ c → (s.size_classes c).slabs = 0)
    (hshort : ∀ c, (lists c).length ≤ 1) :
    wp (initClasses left n) (fun _ s' => ∃ own', Pages s' own' ∧ Slabs s' own' [] ∧
      Touches Owner.IsSlab s s' own own' ∧ (Flagged s own → Flagged s' own')) s := by
  induction left generalizing n s own lists frees with
  | zero =>
    obtain rfl : n = NR_SIZE_CLASSES := by omega
    refine wp_pure.mpr ⟨own, hp, ⟨lists, frees, h, ?_⟩, .refl _ _ _, id⟩
    intro c hc hlen
    have hle := hshort c
    omega
  | succ left ih =>
    have hn : n < NR_SIZE_CLASSES := by omega
    rw [initClasses]
    simp only [wp_bind, wp_modify]
    obtain ⟨t, ht⟩ : ∃ t : Kmem, t = { s with
        size_classes := Function.update s.size_classes n ⟨MIN_ALLOC_SIZE <<< n, (s.size_classes n).slabs⟩ } :=
      ⟨_, rfl⟩
    rw [← ht]
    have hext := h.extend hn (hzero n (Nat.le_refl n)) (t := t) (by rw [ht, hzero n (Nat.le_refl n)]; rfl)
    have hpt : Pages t own := by
      rw [ht]
      exact hp.congr rfl rfl (fun _ _ => rfl) (fun _ _ => rfl) fun _ hq => ⟨hp.refcount_pos hq, rfl⟩
    have htouch : Touches Owner.IsSlab s t own own := by
      have hstep : Touches (· = .slab n) s t own own := by
        rw [ht]
        exact .of_slab (fun _ _ _ => Iff.rfl) (fun _ _ _ _ => ⟨fun _ _ _ => rfl, rfl⟩) rfl
      exact hstep.mono fun _ ho => ⟨n, ho⟩
    have htn : (t.size_classes n).slabs = 0 := by
      rw [ht]
      simpa using hzero n (Nat.le_refl n)
    have htzero : ∀ c, n + 1 ≤ c → (t.size_classes c).slabs = 0 := by
      intro c hc
      rw [ht]
      simp only [Function.update_of_ne (show c ≠ n by omega)]
      exact hzero c (by omega)
    have hshort' : ∀ c, (Function.update lists n [] c).length ≤ 1 := by
      intro c
      by_cases heq : c = n
      · subst heq
        simp
      · rw [Function.update_of_ne heq]
        exact hshort c
    have hflagt : Flagged s own → Flagged t own := fun hflag =>
      hflag.keep (fun i hi => by rw [ht] at hi; exact hi) fun _ _ hq _ => hq
    refine wp_mono (wp_and_wpe (slab_create_spec hpt hn (hext.sizes n (Nat.lt_succ_self n))
      fun s' pg hp' hpg x hx => List.not_mem_nil) (slab_create_flags n t)) ?_
    rintro slab s₁ ⟨⟨rfl, rfl, -⟩ | ⟨hnew, hnext⟩, hflags⟩
    · have hsame : s₁.setSlabs n 0 = s₁ := by
        have hclass : (⟨(s₁.size_classes n).slot_size, 0⟩ : SizeClass) = s₁.size_classes n := by rw [← htn]
        unfold Kmem.setSlabs
        rw [hclass, Function.update_eq_self]
      rw [hsame]
      refine wp_mono (ih hpt hext (by omega) htzero hshort') ?_
      rintro _ s' ⟨own', hp', hslabs, ht', hflag'⟩
      exact ⟨own', hp', hslabs, htouch.trans ht', fun hflag => hflag' (hflagt hflag)⟩
    · have hins := hext.insert (Nat.lt_succ_self n) hnew (hnext.trans htn.symm)
      refine wp_mono (ih (hnew.pages.setSlabs n slab) hins (by omega) ?_ ?_) ?_
      · intro c hc
        simp only [Kmem.setSlabs, Function.update_of_ne (show c ≠ n by omega), hnew.size_classes]
        exact htzero c hc
      · intro c
        by_cases heq : c = n
        · subst heq
          simp
        · rw [Function.update_of_ne heq]
          exact hshort' c
      · rintro _ s' ⟨own', hp', hslabs, ht', hflag'⟩
        have hstep : Touches (· = .slab n) t (s₁.setSlabs n slab) own (Function.update own slab (some (.slab n))) := by
          refine .of_slab (fun q o ho => ?_) (fun q o hq _ => ?_) hnew.free_start
          · by_cases hq : q = slab
            · subst hq
              rw [Function.update_self, hnew.was_free, Option.some_inj]
              exact iff_of_false (fun heq => ho heq.symm) (by simp)
            · rw [Function.update_of_ne hq]
          · exact (hnew.same q (by rw [hq]; simp)).trans (setSlabs_same s₁ n slab q)
        exact ⟨own', hp', hslabs, htouch.trans ((hstep.mono fun _ ho => ⟨n, ho⟩).trans ht'),
          fun hflag => hflag' ((hflagt hflag).create hnew.was_free hflags)⟩

/-- `kmalloc_init` leaves an allocator without objects, also when memory is too
short for a slab of every class. -/
theorem kmalloc_init_spec (hp : Pages s own) (hown : ∀ c pg, own pg ≠ some (.slab c))
    (hzero : ∀ c, (s.size_classes c).slabs = 0) :
    wp kmalloc_init (fun _ s' => ∃ own', Pages s' own' ∧ Slabs s' own' [] ∧
      Touches Owner.IsSlab s s' own own' ∧ (Flagged s own → Flagged s' own')) s := by
  have hnone : SlabInv 0 s own (fun _ => []) (fun _ => []) [] :=
    ⟨by decide, by simp, by simp, by simp, fun c pg => by simp [hown c pg], by simp, by simp, by simp⟩
  exact initClasses_spec NR_SIZE_CLASSES hp hnone (by rfl) (fun c _ => hzero c) (by simp)

end bobchouos
