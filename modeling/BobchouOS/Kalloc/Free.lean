import BobchouOS.Kalloc.Alloc

open lib

namespace bobchouos

/-- Two held buddies are as good as their parent. -/
theorem liveCover_merge (k i : Nat) (held : List Block) (n : Nat) :
    FreeMap.liveCover (⟨k + 1, i / 2⟩ :: held) n =
      FreeMap.liveCover (⟨k, i ^^^ 1⟩ :: ⟨k, i⟩ :: held) n := by
  have hhalf := FreeMap.ite_half n k (i / 2)
  simp only [FreeInv.liveCover_cons, Block.xor_one_eq]
  rw [hhalf]
  by_cases heven : i % 2 = 0
  · rw [if_pos heven, show 2 * (i / 2) = i by omega]
    omega
  · rw [if_neg heven, show 2 * (i / 2) = i - 1 by omega, show i - 1 + 1 = i by omega]
    omega

/-- The guards of the merge loop never turn away a free buddy: it lies in the
managed range and its reference count is zero. -/
theorem not_free_of_guard {s : Kmem} {free : FreeMap} {held : List Block} {hi k j : Nat}
    (h : FreeInv s free held hi)
    (hcount : ∀ k, k ≤ MAX_ORDER → ∀ j ∈ free k, (s.pa_to_page (blockAddr ⟨k, j⟩)).refcount = 0)
    (hk : k ≤ MAX_ORDER)
    (hguard : blockAddr ⟨k, j⟩ < s.free_start ∨ blockAddr ⟨k, j⟩ ≥ PHYS_STOP ∨
      (s.pa_to_page (blockAddr ⟨k, j⟩)).refcount ≠ 0) : j ∉ free k := by
  intro hmem
  have hrange := h.range_of_free hk hmem
  have hpos : 0 < PG_SIZE <<< k := by
    rw [PG_SIZE_shiftLeft]
    exact Nat.mul_pos (Nat.two_pow_pos k) (by decide)
  rcases hguard with hlow | hhigh | hused
  · omega
  · exact absurd hrange.2 (by omega)
  · exact hused (hcount k hk j hmem)

/-- The result of the merge loop: the address and order of a held block whose
buddy is not free. Nothing but links of free blocks was written. -/
def CoalescePost (s : Kmem) (free : FreeMap) (held : List Block) (hi : Nat) (r : Nat × Nat)
    (s' : Kmem) : Prop :=
  ∃ free' k i, r = (blockAddr ⟨k, i⟩, k) ∧ k ≤ MAX_ORDER ∧ FreeInv s' free' (⟨k, i⟩ :: held) hi ∧
    FreeMap.Coalesced MAX_ORDER free' ∧ (k < MAX_ORDER → i ^^^ 1 ∉ free' k) ∧ s'.pages = s.pages ∧
    s'.free_start = s.free_start ∧ s'.size_classes = s.size_classes ∧
    ∀ a, ¬ FreeMap.FreePage MAX_ORDER free (a / PG_SIZE) → s'.mem a = s.mem a

/-- The merge loop returns. Each round takes the buddy off its list and holds the
parent instead. -/
theorem coalesce_spec {hi : Nat} {held : List Block} (left k i : Nat) (s : Kmem) (free : FreeMap)
    (h : FreeInv s free (⟨k, i⟩ :: held) hi) (hc : FreeMap.Coalesced MAX_ORDER free)
    (hcount : ∀ k, k ≤ MAX_ORDER → ∀ j ∈ free k, (s.pa_to_page (blockAddr ⟨k, j⟩)).refcount = 0)
    (hsum : k + left = MAX_ORDER) :
    wp (coalesce left (blockAddr ⟨k, i⟩) k) (CoalescePost s free held hi) s := by
  induction left generalizing k i s free with
  | zero =>
    unfold coalesce
    refine wp_pure.mpr ⟨free, k, i, rfl, by omega, h, hc, by omega, rfl, rfl, rfl, fun _ _ => rfl⟩
  | succ left ih =>
    unfold coalesce
    simp only [wp_bind, wp_get]
    rw [blockAddr_xor]
    have hstop : ∀ hnot : i ^^^ 1 ∉ free k,
        wp (pure (blockAddr ⟨k, i⟩, k)) (CoalescePost s free held hi) s := fun hnot =>
      wp_pure.mpr ⟨free, k, i, rfl, by omega, h, hc, fun _ => hnot, rfl, rfl, rfl, fun _ _ => rfl⟩
    by_cases hguard : blockAddr ⟨k, i ^^^ 1⟩ < s.free_start ∨ blockAddr ⟨k, i ^^^ 1⟩ ≥ PHYS_STOP ∨
        (s.pa_to_page (blockAddr ⟨k, i ^^^ 1⟩)).refcount ≠ 0
    · rw [if_pos hguard]
      exact hstop (not_free_of_guard h hcount (by omega) hguard)
    rw [if_neg hguard]
    obtain ⟨pb, hfind, habsent, hpresent⟩ := h.find (show k ≤ MAX_ORDER by omega) (i ^^^ 1)
    rw [hfind]
    dsimp only
    by_cases hmem : i ^^^ 1 ∈ free k
    · obtain ⟨l₁, l₂, hlist, hptr, hread⟩ := hpresent hmem
      have hrange := h.range_of_free (show k ≤ MAX_ORDER by omega) hmem
      have hne : ¬ s.readLink pb = 0 := by
        have hge := h.start_ge
        simp only [KERN_BASE] at hge
        omega
      rw [if_neg hne]
      simp only [wp_bind, wp_modify]
      obtain ⟨hunlink, hframe⟩ := h.unlink (by omega) hlist hptr hread
      rw [blockAddr_ldiff]
      have hmerged : FreeInv (unlink k pb s) (Function.update free k (l₁ ++ l₂))
          (⟨k + 1, i / 2⟩ :: held) hi :=
        hunlink.held_congr fun n => liveCover_merge k i held n
      have hsub : l₁ ++ l₂ ⊆ free k := by
        intro j hj
        rw [hlist]
        simp at hj ⊢
        tauto
      have hpages : (unlink k pb s).pages = s.pages := by
        cases pb <;> rfl
      have hstart : (unlink k pb s).free_start = s.free_start := by
        cases pb <;> rfl
      have hclasses : (unlink k pb s).size_classes = s.size_classes := by
        cases pb <;> rfl
      have hfewer : ∀ k', ∀ j ∈ Function.update free k (l₁ ++ l₂) k', j ∈ free k' := by
        intro k' j hj
        by_cases hkk : k' = k
        · subst hkk
          rw [Function.update_self] at hj
          exact hsub hj
        · rwa [Function.update_of_ne hkk] at hj
      refine wp_mono (ih (k + 1) (i / 2) _ _ hmerged (hc.update_subset hsub) ?_ (by omega)) ?_
      · intro k' hk' j hj
        simp only [Kmem.pa_to_page, hpages]
        exact hcount k' hk' j (hfewer k' j hj)
      · rintro r s' ⟨free', k', i', hr, hk', hinv, hco, hbuddy, hp, hst, hcl, hm⟩
        refine ⟨free', k', i', hr, hk', hinv, hco, hbuddy, hp.trans hpages, hst.trans hstart,
          hcl.trans hclasses, ?_⟩
        intro a ha
        rw [hm a, hframe a ha]
        rintro ⟨k'', hk'', hmem''⟩
        exact ha ⟨k'', hk'', hfewer k'' _ hmem''⟩
    · rw [if_pos (habsent hmem)]
      exact hstop hmem

/-- What freeing block `b` did to the state: only free memory and the block
itself changed, and only its first page lost its reference. -/
structure Freed (s s' : Kmem) (free : FreeMap) (b : Block) : Prop where
  mem_frame : ∀ a, ¬ FreeMap.FreePage MAX_ORDER free (a / PG_SIZE) → ¬ b.Has (a / PG_SIZE) →
    s'.mem a = s.mem a
  page_self : s'.pa_to_page (blockAddr b) = { s.pa_to_page (blockAddr b) with refcount := 0 }
  page_frame : ∀ n, n ≠ Kmem.pageIdx (blockAddr b) → s'.pages n = s.pages n
  free_start : s'.free_start = s.free_start
  size_classes : s'.size_classes = s.size_classes

theorem release_mem (b : Block) (s : Kmem) (a : Nat) :
    (release (blockAddr b) b.order s).mem a = if b.Has (a / PG_SIZE) then 1 else s.mem a := by
  simp only [release, Kmem.setPage, Mem.memset]
  simp only [has_div_iff]

theorem release_pages_self (b : Block) (s : Kmem) :
    (release (blockAddr b) b.order s).pa_to_page (blockAddr b) =
      { s.pa_to_page (blockAddr b) with refcount := 0 } := by
  simp only [release, pa_to_page_setPage_self]
  rfl

theorem release_pages_of_ne (b : Block) (s : Kmem) {n : Nat} (hn : n ≠ Kmem.pageIdx (blockAddr b)) :
    (release (blockAddr b) b.order s).pages n = s.pages n := by
  simp only [release, Kmem.setPage, Function.update_of_ne hn]

/-- `buddy_free` accepts every allocated block with a single reference and keeps
the allocator's invariant. -/
theorem BuddyCore.free_spec {s : Kmem} {free : FreeMap} {live : List Block} {hi : Nat} {b : Block}
    (h : BuddyCore s free live hi) (hb : b ∈ live)
    (href : (s.pa_to_page (blockAddr b)).refcount = 1) :
    wp (buddy_free (blockAddr b) b.order)
      (fun _ s' => ∃ free', BuddyCore s' free' (live.erase b) hi ∧ Freed s s' free b) s := by
  have hrange := h.range_of_held hb
  have horder := h.live_order b hb
  have hpage := h.page_order b hb
  have hpos : 0 < PG_SIZE <<< b.order := by
    rw [PG_SIZE_shiftLeft]
    exact Nat.mul_pos (Nat.two_pow_pos _) (by decide)
  have haligned : blockAddr b % (PG_SIZE <<< b.order) = 0 := by
    rw [PG_SIZE_shiftLeft]
    simp only [blockAddr, Block.base, Nat.mul_assoc]
    exact Nat.mul_mod_left _ _
  unfold buddy_free
  simp only [wp_bind, wp_get]
  rw [if_neg (by
      rintro (hbad | hbad | hbad | hbad)
      · omega
      · exact hbad haligned
      · omega
      · exact absurd hrange.2 (by omega)),
    if_neg (by
      rintro (hbad | hbad)
      · exact hbad href
      · exact hbad hpage)]
  simp only [wp_bind, wp_modify]
  set s₁ := release (blockAddr b) b.order s with hs₁
  have hheld : FreeInv s free (b :: live.erase b) hi := by
    apply h.toFreeInv.held_congr
    intro n
    unfold FreeMap.liveCover
    exact ((List.perm_cons_erase hb).countP_eq _).symm
  have hinv₁ : FreeInv s₁ free (b :: live.erase b) hi := by
    refine hheld.of_mem (t := s₁) rfl rfl fun a ha => ?_
    obtain ⟨k, hk, hfree⟩ := ha
    rw [hs₁, release_mem b, if_neg]
    exact hheld.tiled.not_live_of_free hk hfree rfl (by simp)
  have hge : ∀ c ∈ live, KERN_BASE ≤ blockAddr c := fun c hc =>
    Nat.le_trans h.start_ge (h.range_of_held hc).1
  have hfree_ge : ∀ k, k ≤ MAX_ORDER → ∀ j ∈ free k, KERN_BASE ≤ blockAddr ⟨k, j⟩ := fun k hk j hj =>
    Nat.le_trans h.start_ge (h.range_of_free hk hj).1
  -- free blocks carry no reference: their first page starts no allocated block
  have hcount : ∀ k, k ≤ MAX_ORDER → ∀ j ∈ free k, (s₁.pa_to_page (blockAddr ⟨k, j⟩)).refcount = 0 := by
    intro k hk j hj
    have hnotlive : ∀ c ∈ live, c.base ≠ Block.base ⟨k, j⟩ := by
      intro c hc heq
      refine h.tiled.not_live_of_free hk hj (Block.has_base ⟨k, j⟩) hc ?_
      rw [← heq]
      exact c.has_base
    have hne : Kmem.pageIdx (blockAddr ⟨k, j⟩) ≠ Kmem.pageIdx (blockAddr b) :=
      pageIdx_ne (hfree_ge k hk j hj) (hge b hb) (Ne.symm (hnotlive b hb))
    have hfrange := h.range_of_free hk hj
    have hfpos : 0 < PG_SIZE <<< k := by
      rw [PG_SIZE_shiftLeft]
      exact Nat.mul_pos (Nat.two_pow_pos _) (by decide)
    have hzero := h.other_page (Block.base ⟨k, j⟩) hfrange.1
      (show blockAddr ⟨k, j⟩ < PHYS_STOP by omega) hnotlive
    simp only [Kmem.pa_to_page] at hzero ⊢
    rw [release_pages_of_ne b s hne]
    exact hzero
  have hcoalesce := coalesce_spec (MAX_ORDER - b.order) b.order b.index s₁ free hinv₁ h.coalesced
    hcount (by omega)
  refine wp_mono hcoalesce ?_
  rintro ⟨addr, merged⟩ s₂ ⟨free', k, i, hr, hk, hinv₂, hco, hbuddy, hpages, hstart, hclasses, hmem⟩
  obtain ⟨rfl, rfl⟩ : addr = blockAddr ⟨k, i⟩ ∧ merged = k := by simpa using hr
  dsimp only
  have hpush := hinv₂.push hk
  have hpages₃ : ∀ n, n ≠ Kmem.pageIdx (blockAddr b) →
      ((s₂.pushFree merged (blockAddr ⟨merged, i⟩)).pages n) = s.pages n := by
    intro n hn
    change s₂.pages n = s.pages n
    rw [hpages, release_pages_of_ne b s hn]
  have hself₃ : (s₂.pushFree merged (blockAddr ⟨merged, i⟩)).pa_to_page (blockAddr b) =
      { s.pa_to_page (blockAddr b) with refcount := 0 } := by
    rw [← release_pages_self b s]
    change s₂.pages _ = _
    rw [hpages]
    rfl
  refine ⟨_, ⟨hpush, ?_, ?_, ?_, ?_⟩, ⟨?_, hself₃, hpages₃, hstart, hclasses⟩⟩
  · by_cases htop : merged < MAX_ORDER
    · exact hco.update_cons (hbuddy htop)
    · intro j hj m hm
      have hne : j ≠ merged := by omega
      rw [Function.update_of_ne hne] at hm ⊢
      exact hco j hj m hm
  · exact fun c hc => h.live_order c (List.mem_of_mem_erase hc)
  · intro c hc
    have hcl := List.mem_of_mem_erase hc
    have hcb : c ≠ b := by
      rintro rfl
      exact (h.tiled.live_nodup.mem_erase_iff.mp hc).1 rfl
    have hbase : c.base ≠ b.base := by
      intro heq
      refine hcb (h.tiled.live_unique hcl hb c.has_base ?_)
      rw [heq]
      exact b.has_base
    have hkeep : (s₂.pushFree merged (blockAddr ⟨merged, i⟩)).pa_to_page (blockAddr c) =
        s.pa_to_page (blockAddr c) := hpages₃ _ (pageIdx_ne (hge c hcl) (hge b hb) hbase)
    rw [hkeep]
    exact h.page_order c hcl
  · intro n hlo hhi hnot
    have hlo' : s.free_start ≤ n * PG_SIZE := by
      have heq : (s₂.pushFree merged (blockAddr ⟨merged, i⟩)).free_start = s.free_start := hstart
      rwa [heq] at hlo
    by_cases hn : n = b.base
    · subst hn
      change ((s₂.pushFree merged (blockAddr ⟨merged, i⟩)).pa_to_page (blockAddr b)).refcount = 0
      rw [hself₃]
    · have hne : Kmem.pageIdx (n * PG_SIZE) ≠ Kmem.pageIdx (blockAddr b) := by
        intro heq
        have hstart_ge := h.start_ge
        have haddr := pageIdx_inj (by omega) (hge b hb) (by simp) (blockAddr_aligned b) heq
        apply hn
        rw [← blockAddr_div, ← haddr]
        simp [PG_SIZE]
      have hzero := h.other_page n hlo' hhi fun c hc => by
        by_cases hcb : c = b
        · rw [hcb]
          exact fun heq => hn heq.symm
        · exact hnot c ((List.mem_erase_of_ne hcb).mpr hc)
      simp only [Kmem.pa_to_page] at hzero ⊢
      rw [hpages₃ _ hne]
      exact hzero
  · intro a hfree hblock
    have hnotmerged : ¬ Block.Has ⟨merged, i⟩ (a / PG_SIZE) := by
      intro hhas
      -- a page of the merged block was free before, or belongs to `b`
      have hone := hinv₂.tiled (a / PG_SIZE)
      have hzero := hinv₁.tiled (a / PG_SIZE)
      rw [FreeInv.liveCover_cons] at hone hzero
      have hcover : FreeMap.cover MAX_ORDER free (a / PG_SIZE) = 0 := by
        by_contra hpos
        exact hfree (FreeMap.cover_pos_iff.mp (Nat.pos_of_ne_zero hpos))
      rw [hstart] at hone
      rw [if_neg (show ¬ a / PG_SIZE / 2 ^ b.order = b.index from hblock)] at hzero
      rw [if_pos (show a / PG_SIZE / 2 ^ merged = i from hhas)] at hone
      have hle := hinv₂.tiled.le_one (a / PG_SIZE)
      rw [FreeInv.liveCover_cons, if_pos (show a / PG_SIZE / 2 ^ merged = i from hhas)] at hle
      omega
    simp only [Kmem.pushFree]
    rw [Mem.storeWord_of_outside, hmem a hfree, release_mem b, if_neg hblock]
    by_contra hin
    exact hnotmerged (has_of_link (by omega) (by omega))

/-- Freeing a block leaves the counts of the others. -/
theorem Freed.page_live {s s' : Kmem} {free : FreeMap} {live : List Block} {hi : Nat} {b c : Block}
    (hf : Freed s s' free b) (h : FreeInv s free live hi) (hb : b ∈ live) (hc : c ∈ live.erase b) :
    s'.pa_to_page (blockAddr c) = s.pa_to_page (blockAddr c) := by
  obtain ⟨hne, hmem⟩ := h.tiled.live_nodup.mem_erase_iff.mp hc
  exact hf.page_frame _ (h.pageIdx_live_ne hmem hb hne)

/-- The same with a reference to every allocated block. -/
theorem buddy_free_spec {s : Kmem} {free : FreeMap} {live : List Block} {hi : Nat} {b : Block}
    (h : BuddyInv s free live hi) (hb : b ∈ live)
    (href : (s.pa_to_page (blockAddr b)).refcount = 1) :
    wp (buddy_free (blockAddr b) b.order)
      (fun _ s' => ∃ free', BuddyInv s' free' (live.erase b) hi ∧ Freed s s' free b) s := by
  refine wp_mono (h.core.free_spec hb href) ?_
  rintro _ s' ⟨free', hcore, hf⟩
  refine ⟨free', hcore.counted fun c hc => ?_, hf⟩
  rw [hf.page_live h.toFreeInv hb hc]
  exact (h.live_page c (List.mem_of_mem_erase hc)).1

end bobchouos
