import BobchouOS.Kalloc.FreeLists
import Mathlib

open lib

namespace bobchouos

/-- The invariant of the buddy allocator. Above `FreeInv` it says that no free
block could be merged further and that the reference counts mark exactly the
first pages of the allocated blocks, with the order recorded there. -/
structure BuddyInv (s : Kmem) (free : FreeMap) (live : List Block) (hi : Nat) : Prop
    extends FreeInv s free live hi where
  coalesced : FreeMap.Coalesced MAX_ORDER free
  live_order : ∀ b ∈ live, b.order ≤ MAX_ORDER
  live_page : ∀ b ∈ live, 1 ≤ (s.pa_to_page (blockAddr b)).refcount ∧
    (s.pa_to_page (blockAddr b)).order = b.order
  other_page : ∀ n, s.free_start ≤ n * PG_SIZE → n * PG_SIZE < PHYS_STOP →
    (∀ b ∈ live, b.base ≠ n) → (s.pa_to_page (n * PG_SIZE)).refcount = 0

/-- The part of the invariant that the allocator itself relies on. It says nothing
about the reference counts of allocated blocks: those belong to the users. -/
structure BuddyCore (s : Kmem) (free : FreeMap) (live : List Block) (hi : Nat) : Prop
    extends FreeInv s free live hi where
  coalesced : FreeMap.Coalesced MAX_ORDER free
  live_order : ∀ b ∈ live, b.order ≤ MAX_ORDER
  page_order : ∀ b ∈ live, (s.pa_to_page (blockAddr b)).order = b.order
  other_page : ∀ n, s.free_start ≤ n * PG_SIZE → n * PG_SIZE < PHYS_STOP →
    (∀ b ∈ live, b.base ≠ n) → (s.pa_to_page (n * PG_SIZE)).refcount = 0

theorem BuddyInv.core {s : Kmem} {free : FreeMap} {live : List Block} {hi : Nat} (h : BuddyInv s free live hi) :
    BuddyCore s free live hi :=
  ⟨h.toFreeInv, h.coalesced, h.live_order, fun b hb => (h.live_page b hb).2, h.other_page⟩

theorem BuddyCore.counted {s : Kmem} {free : FreeMap} {live : List Block} {hi : Nat} (h : BuddyCore s free live hi)
    (hcount : ∀ b ∈ live, 1 ≤ (s.pa_to_page (blockAddr b)).refcount) : BuddyInv s free live hi :=
  ⟨h.toFreeInv, h.coalesced, h.live_order, fun b hb => ⟨hcount b hb, h.page_order b hb⟩, h.other_page⟩

/-- The fields of `struct page` that belong to the users of a page. -/
def SameOwners (s s' : Kmem) : Prop :=
  ∀ n, (s'.pages n).flags = (s.pages n).flags ∧ (s'.pages n).slab = (s.pages n).slab

theorem pageIdx_inj {a b : Nat} (ha : KERN_BASE ≤ a) (hb : KERN_BASE ≤ b)
    (haligned : a % PG_SIZE = 0) (hbaligned : b % PG_SIZE = 0)
    (h : Kmem.pageIdx a = Kmem.pageIdx b) : a = b := by
  simp only [Kmem.pageIdx, Nat.shiftRight_eq_div_pow, PG_SHIFT, KERN_BASE, PG_SIZE] at *
  omega

@[simp] theorem pa_to_page_setPage_self (s : Kmem) (pa : Nat) (pg : Page) :
    (s.setPage pa pg).pa_to_page pa = pg := by
  simp [Kmem.setPage, Kmem.pa_to_page]

theorem pa_to_page_setPage_of_ne (s : Kmem) {pa pa' : Nat} (pg : Page)
    (h : Kmem.pageIdx pa' ≠ Kmem.pageIdx pa) :
    (s.setPage pa pg).pa_to_page pa' = s.pa_to_page pa' := by
  simp only [Kmem.setPage, Kmem.pa_to_page, Function.update_of_ne h]

theorem blockAddr_aligned (b : Block) : blockAddr b % PG_SIZE = 0 := by
  simp [blockAddr, PG_SIZE]

/-- Distinct first pages have distinct `struct page` entries. -/
theorem pageIdx_ne {b c : Block} (hb : KERN_BASE ≤ blockAddr b) (hc : KERN_BASE ≤ blockAddr c)
    (hne : b.base ≠ c.base) : Kmem.pageIdx (blockAddr b) ≠ Kmem.pageIdx (blockAddr c) := by
  intro heq
  have haddr := pageIdx_inj hb hc (blockAddr_aligned b) (blockAddr_aligned c) heq
  apply hne
  rw [← blockAddr_div, haddr, blockAddr_div]

/-- Distinct live blocks have distinct first pages. -/
theorem FreeInv.pageIdx_live_ne {s : Kmem} {free : FreeMap} {live : List Block} {hi : Nat} {b c : Block}
    (h : FreeInv s free live hi) (hb : b ∈ live) (hc : c ∈ live) (hne : b ≠ c) :
    Kmem.pageIdx (blockAddr b) ≠ Kmem.pageIdx (blockAddr c) := by
  have hge : ∀ d ∈ live, KERN_BASE ≤ blockAddr d := fun d hd =>
    Nat.le_trans h.start_ge (h.range_of_held hd).1
  apply pageIdx_ne (hge b hb) (hge c hc)
  intro hbase
  apply hne
  apply h.tiled.live_unique hb hc b.has_base
  rw [hbase]
  exact c.has_base

/-- The upper halves that splitting a block of order `t + count` leaves behind,
smallest first. -/
def uppers (z : Nat) : Nat → Nat → List Block
  | 0, _ => []
  | count + 1, t => ⟨t, z * 2 ^ (count + 1) + 1⟩ :: uppers z count (t + 1)

theorem liveCover_uppers (z count t : Nat) (held : List Block) (n : Nat) :
    FreeMap.liveCover (⟨t + count, z⟩ :: held) n =
      FreeMap.liveCover (⟨t, z * 2 ^ count⟩ :: (uppers z count t ++ held)) n := by
  induction count generalizing t with
  | zero => simp [uppers]
  | succ count ih =>
    have hstep := ih (t + 1)
    rw [show t + 1 + count = t + (count + 1) by omega] at hstep
    rw [hstep]
    have hhalf := FreeMap.ite_half n t (z * 2 ^ count)
    have hidx : z * 2 ^ (count + 1) = 2 * (z * 2 ^ count) := by rw [Nat.pow_succ]; ring
    simp only [uppers, List.cons_append, FreeInv.liveCover_cons]
    rw [hidx]
    omega

theorem uppers_order {z count t : Nat} {u : Block} (hu : u ∈ uppers z count t) :
    t ≤ u.order ∧ u.order < t + count := by
  induction count generalizing t with
  | zero => simp [uppers] at hu
  | succ count ih =>
    rcases List.mem_cons.mp hu with rfl | hu
    · exact ⟨le_refl _, by simp⟩
    · have := ih hu
      omega

/-- The splitting loop moves the upper halves onto their lists and changes
nothing else: memory outside them, reference counts and owner fields stay. -/
theorem splitDown_spec {z hi : Nat} {x : Block} {held : List Block} (count t : Nat) (s : Kmem)
    (free : FreeMap) (h : FreeInv s free (uppers z count t ++ held) hi)
    (hc : FreeMap.Coalesced MAX_ORDER free) (hmax : t + count ≤ MAX_ORDER) (hx : x ∈ held)
    (hbase : x.Has (z * 2 ^ (t + count))) :
    ∃ free', FreeInv (splitDown (blockAddr ⟨t + count, z⟩) count t s) free' held hi ∧
      FreeMap.Coalesced MAX_ORDER free' ∧
      SameOwners s (splitDown (blockAddr ⟨t + count, z⟩) count t s) ∧
      (∀ n, ((splitDown (blockAddr ⟨t + count, z⟩) count t s).pages n).refcount = (s.pages n).refcount) ∧
      (∀ n, (∀ u ∈ uppers z count t, n ≠ Kmem.pageIdx (blockAddr u)) →
        (splitDown (blockAddr ⟨t + count, z⟩) count t s).pages n = s.pages n) ∧
      (∀ a, (∀ u ∈ uppers z count t, ¬ u.Has (a / PG_SIZE)) →
        (splitDown (blockAddr ⟨t + count, z⟩) count t s).mem a = s.mem a) ∧
      (splitDown (blockAddr ⟨t + count, z⟩) count t s).free_start = s.free_start ∧
      (splitDown (blockAddr ⟨t + count, z⟩) count t s).size_classes = s.size_classes := by
  induction count generalizing t s free with
  | zero => exact ⟨free, h, hc, fun _ => ⟨rfl, rfl⟩, fun _ => rfl, fun _ _ => rfl, fun _ _ => rfl, rfl, rfl⟩
  | succ count ih =>
    have haddr : blockAddr ⟨t + (count + 1), z⟩ = blockAddr ⟨t, z * 2 ^ (count + 1)⟩ := by
      simp only [blockAddr, Block.base, Nat.pow_add]
      ring
    have heven : z * 2 ^ (count + 1) ^^^ 1 = z * 2 ^ (count + 1) + 1 := by
      have hdouble : z * 2 ^ (count + 1) = 2 * (z * 2 ^ count) := by rw [Nat.pow_succ]; ring
      rw [Block.xor_one_eq, if_pos (by omega)]
    have hbuddy : blockAddr ⟨t + (count + 1), z⟩ ^^^ (PG_SIZE <<< t) =
        blockAddr ⟨t, z * 2 ^ (count + 1) + 1⟩ := by
      rw [haddr, blockAddr_xor, heven]
    set u : Block := ⟨t, z * 2 ^ (count + 1) + 1⟩ with hu
    set s₁ := s.setPage (blockAddr u) { s.pa_to_page (blockAddr u) with order := t } with hs₁
    have hs₁inv : FreeInv s₁ free (u :: (uppers z count (t + 1) ++ held)) hi :=
      h.of_mem rfl rfl fun _ _ => rfl
    have hpush := hs₁inv.push (show u.order ≤ MAX_ORDER by simp only [hu]; omega)
    -- the lower half of the same split still holds `x`, so it is not free
    have hlower : z * 2 ^ (count + 1) ∉ free t := by
      intro hmem
      have hhas : Block.Has ⟨t, z * 2 ^ (count + 1)⟩ (z * 2 ^ (t + (count + 1))) := by
        have hsplit : z * 2 ^ (t + (count + 1)) = z * 2 ^ (count + 1) * 2 ^ t := by
          rw [Nat.pow_add]
          ring
        rw [hsplit]
        exact Nat.mul_div_cancel _ (Nat.two_pow_pos t)
      exact h.tiled.not_live_of_free (by omega) hmem hhas (b := x) (by simp [hx]) hbase
    have hc₁ : FreeMap.Coalesced MAX_ORDER
        (Function.update free u.order (u.index :: free u.order)) := by
      apply hc.update_cons
      simp only [hu]
      rw [← heven, Block.xor_one_xor_one]
      exact hlower
    obtain ⟨free', hinv, hco, howners, hrefs, hpages, hmem, hstart, hclasses⟩ := ih (t + 1)
      (s₁.pushFree t (blockAddr u)) (Function.update free u.order (u.index :: free u.order)) hpush hc₁
      (by omega) (by rw [show t + 1 + count = t + (count + 1) by omega]; exact hbase)
    have hrun : splitDown (blockAddr ⟨t + (count + 1), z⟩) (count + 1) t s =
        splitDown (blockAddr ⟨t + 1 + count, z⟩) count (t + 1) (s₁.pushFree t (blockAddr u)) := by
      rw [show t + 1 + count = t + (count + 1) by omega, splitDown, hbuddy]
    rw [hrun]
    refine ⟨free', hinv, hco, ?_, ?_, ?_, ?_, hstart, hclasses⟩
    · intro n
      obtain ⟨hflags, hslab⟩ := howners n
      rw [hflags, hslab]
      by_cases hn : n = Kmem.pageIdx (blockAddr u)
      · subst hn
        simp [Kmem.pushFree, hs₁, Kmem.setPage, Kmem.pa_to_page]
      · simp [Kmem.pushFree, hs₁, Kmem.setPage, Function.update_of_ne hn]
    · intro n
      rw [hrefs]
      by_cases hn : n = Kmem.pageIdx (blockAddr u)
      · subst hn
        simp [Kmem.pushFree, hs₁, Kmem.setPage, Kmem.pa_to_page]
      · simp [Kmem.pushFree, hs₁, Kmem.setPage, Function.update_of_ne hn]
    · intro n hn
      rw [hpages n fun v hv => hn v (by simp [uppers, hv])]
      have hnu := hn u (by simp [uppers, hu])
      simp [Kmem.pushFree, hs₁, Kmem.setPage, Function.update_of_ne hnu]
    · intro a ha
      rw [hmem a fun v hv => ha v (by simp [uppers, hv])]
      have hau := ha u (by simp [uppers, hu])
      simp only [Kmem.pushFree]
      apply Mem.storeWord_of_outside
      by_contra hin
      exact hau (has_of_link (by omega) (by omega))

/-- Every piece of a split lies in the block that was split. -/
theorem has_of_piece {z count t n : Nat} {c : Block}
    (hc : c ∈ (⟨t, z * 2 ^ count⟩ : Block) :: uppers z count t) (hn : c.Has n) :
    Block.Has ⟨t + count, z⟩ n := by
  have hpos : 0 < FreeMap.liveCover (⟨t, z * 2 ^ count⟩ :: (uppers z count t ++ [])) n := by
    unfold FreeMap.liveCover
    rw [List.countP_pos_iff]
    exact ⟨c, by simpa using hc, by simpa using hn⟩
  rw [← liveCover_uppers, FreeInv.liveCover_cons] at hpos
  by_contra hnot
  have hnot' : ¬ n / 2 ^ (t + count) = z := hnot
  simp [FreeMap.liveCover, hnot'] at hpos

theorem claim_mem (b : Block) (s : Kmem) (a : Nat) :
    (claim (blockAddr b) b.order s).mem a = if b.Has (a / PG_SIZE) then 0 else s.mem a := by
  simp only [claim, Kmem.setPage, Mem.memset]
  simp only [has_div_iff]

theorem claim_pages_self (b : Block) (s : Kmem) :
    (claim (blockAddr b) b.order s).pa_to_page (blockAddr b) =
      { s.pa_to_page (blockAddr b) with order := b.order, refcount := 1 } := by
  simp only [claim, pa_to_page_setPage_self]
  rfl

theorem claim_pages_of_ne (b : Block) (s : Kmem) {n : Nat} (hn : n ≠ Kmem.pageIdx (blockAddr b)) :
    (claim (blockAddr b) b.order s).pages n = s.pages n := by
  simp only [claim, Kmem.setPage, Function.update_of_ne hn]

/-- The upward search fails only when every list from the requested order on is
empty. -/
theorem searchUp_spec (s : Kmem) (left t : Nat) (hsum : t + left = MAX_ORDER) :
    (searchUp s left t = none ∧ ∀ j, t ≤ j → j ≤ MAX_ORDER → (s.free_areas j).free_list = 0) ∨
      ∃ j, searchUp s left t = some j ∧ t ≤ j ∧ j ≤ MAX_ORDER ∧ (s.free_areas j).free_list ≠ 0 := by
  induction left generalizing t with
  | zero =>
    unfold searchUp
    by_cases hhead : (s.free_areas t).free_list = 0
    · left
      refine ⟨by simp [hhead], fun j hj hmax => ?_⟩
      obtain rfl : j = t := by omega
      exact hhead
    · right
      exact ⟨t, by simp [hhead], le_refl t, by omega, hhead⟩
  | succ left ih =>
    unfold searchUp
    by_cases hhead : (s.free_areas t).free_list = 0
    · rw [if_neg (by simpa using hhead)]
      rcases ih (t + 1) (by omega) with ⟨hnone, hempty⟩ | ⟨j, hj, hle, hmax, hne⟩
      · left
        refine ⟨hnone, fun j hj hmax => ?_⟩
        by_cases heq : j = t
        · rw [heq]
          exact hhead
        · exact hempty j (by omega) hmax
      · exact .inr ⟨j, hj, by omega, hmax, hne⟩
    · right
      exact ⟨t, by simp [hhead], le_refl t, by omega, hhead⟩

/-- What a successful allocation of block `b` did to the state: the block came
out of free pages and is zero, no page that was in use changed its contents,
and only the first page of the block changed its reference count. -/
structure Allocated (s s' : Kmem) (free : FreeMap) (b : Block) : Prop where
  zero : ∀ a, b.Has (a / PG_SIZE) → s'.mem a = 0
  was_free : ∀ n, b.Has n → FreeMap.FreePage MAX_ORDER free n
  mem_frame : ∀ a, ¬ FreeMap.FreePage MAX_ORDER free (a / PG_SIZE) → s'.mem a = s.mem a
  refcount_self : (s'.pa_to_page (blockAddr b)).refcount = 1
  refcount_frame : ∀ n, n ≠ Kmem.pageIdx (blockAddr b) → (s'.pages n).refcount = (s.pages n).refcount
  owners : SameOwners s s'
  free_start : s'.free_start = s.free_start
  size_classes : s'.size_classes = s.size_classes

/-- `buddy_alloc` never panics on a valid order. It returns null exactly when
all lists from that order on are empty, and then changes nothing. Otherwise it
returns a block of the order, keeping the allocator's invariant. -/
theorem BuddyCore.alloc_spec {s : Kmem} {free : FreeMap} {live : List Block} {hi order : Nat}
    (h : BuddyCore s free live hi) (horder : order ≤ MAX_ORDER) :
    wp (buddy_alloc order) (fun r s' =>
      (r = 0 ∧ s' = s ∧ ∀ j, order ≤ j → j ≤ MAX_ORDER → free j = []) ∨
      ∃ free' i, r = blockAddr ⟨order, i⟩ ∧ r ≠ 0 ∧ BuddyCore s' free' (⟨order, i⟩ :: live) hi ∧
        Allocated s s' free ⟨order, i⟩) s := by
  unfold buddy_alloc
  rw [if_neg (by omega)]
  simp only [wp_bind, wp_get]
  rcases searchUp_spec s (MAX_ORDER - order) order (by omega) with ⟨hnone, hempty⟩ | ⟨j, hj, hle, hmax, hne⟩
  · rw [hnone]
    refine wp_pure.mpr (.inl ⟨rfl, rfl, fun j hj hmax => ?_⟩)
    rcases h.head_eq_or hmax with ⟨-, hnil⟩ | ⟨i, rest, hlist, -⟩
    · exact hnil
    · exact absurd ((h.chain j hmax).head_eq_zero_iff.mp (hempty j hj hmax)) (by simp [hlist])
  rw [hj]
  simp only [wp_bind, wp_modify, wp_pure]
  right
  rcases h.head_eq_or hmax with ⟨hzero, -⟩ | ⟨z, rest, hlist, hhead⟩
  · exact absurd hzero hne
  rw [hhead]
  -- from here on the found order is the requested one plus `count` splits
  obtain ⟨count, rfl⟩ : ∃ count, j = order + count := ⟨j - order, by omega⟩
  rw [Nat.add_sub_cancel_left]
  have hz : z ∈ free (order + count) := by simp [hlist]
  set x : Block := ⟨order, z * 2 ^ count⟩ with hx
  have haddr : blockAddr ⟨order + count, z⟩ = blockAddr x := by
    simp only [hx, blockAddr, Block.base, Nat.pow_add]
    ring
  have hbase : x.base = z * 2 ^ (order + count) := by
    simp only [hx, Block.base, Nat.pow_add]
    ring
  -- cut the block that was found into the one to return and the upper halves
  have hpop := h.toFreeInv.pop hmax hlist
  have hcut : FreeInv (s.popFree (order + count)) (Function.update free (order + count) rest)
      (uppers z count order ++ (x :: live)) hi := by
    apply hpop.held_congr
    intro n
    rw [liveCover_uppers]
    simp only [FreeMap.liveCover, List.countP_append, List.countP_cons, hx]
    omega
  have hco := h.coalesced.update_subset (k := order + count) (l := rest) (by simp [hlist])
  obtain ⟨free', hinv, hco', howners, hrefs, hpages, hmem, hstart, hclasses⟩ :=
    splitDown_spec count order _ _ hcut hco hmax (x := x) (by simp) (by rw [← hbase]; exact x.has_base)
  set s₁ := splitDown (blockAddr ⟨order + count, z⟩) count order (s.popFree (order + count)) with hs₁
  have hxrange := hinv.range_of_held (b := x) (by simp)
  have hxge : KERN_BASE ≤ blockAddr x := Nat.le_trans hinv.start_ge hxrange.1
  have hwas : ∀ c ∈ x :: uppers z count order, ∀ n, c.Has n → FreeMap.FreePage MAX_ORDER free n := by
    intro c hc n hn
    have hfound : n / 2 ^ (order + count) = z := has_of_piece hc hn
    exact ⟨order + count, hmax, by rw [hfound]; exact hz⟩
  have hnotlive : ∀ b ∈ live, b.base ≠ x.base := by
    intro b hb heq
    refine h.tiled.not_live_of_free hmax hz (has_of_piece (by simp [hx]) x.has_base) hb ?_
    rw [← heq]
    exact b.has_base
  have hlive_ge : ∀ b ∈ live, KERN_BASE ≤ blockAddr b := fun b hb =>
    Nat.le_trans h.start_ge (h.range_of_held hb).1
  have hlive_page : ∀ b ∈ live, s₁.pa_to_page (blockAddr b) = s.pa_to_page (blockAddr b) := by
    intro b hb
    apply hpages
    intro u hu
    have hurange := hcut.range_of_held (b := u) (by simp [hu])
    apply pageIdx_ne (hlive_ge b hb) (Nat.le_trans hcut.start_ge hurange.1)
    intro heq
    refine h.tiled.not_live_of_free hmax hz (has_of_piece (by simp [hu]) u.has_base) hb ?_
    rw [← heq]
    exact b.has_base
  refine ⟨free', z * 2 ^ count, haddr, ?_, ?_, ?_⟩
  · simp only [KERN_BASE] at hxge
    rw [haddr]
    omega
  · rw [haddr]
    have hclaimed : FreeInv (claim (blockAddr x) order s₁) free' (x :: live) hi := by
      refine hinv.of_mem (t := claim _ _ s₁) rfl rfl fun a ha => ?_
      obtain ⟨k, hk, hfree⟩ := ha
      rw [claim_mem x, if_neg]
      exact hinv.tiled.not_live_of_free hk hfree rfl (by simp)
    refine ⟨hclaimed, hco', ?_, ?_, ?_⟩
    · intro b hb
      rcases List.mem_cons.mp hb with rfl | hb
      · exact horder
      · exact h.live_order b hb
    · intro b hb
      rcases List.mem_cons.mp hb with rfl | hb
      · rw [claim_pages_self x]
      · have hkeep : (claim (blockAddr x) order s₁).pa_to_page (blockAddr b) =
            s.pa_to_page (blockAddr b) := by
          rw [← hlive_page b hb]
          exact claim_pages_of_ne x s₁ (pageIdx_ne (hlive_ge b hb) hxge (hnotlive b hb))
        rw [hkeep]
        exact h.page_order b hb
    · intro n hlo hhi hnot
      have hlo' : s.free_start ≤ n * PG_SIZE := by
        have heq : (claim (blockAddr x) order s₁).free_start = s.free_start := hstart
        rw [heq] at hlo
        exact hlo
      have hne : Kmem.pageIdx (n * PG_SIZE) ≠ Kmem.pageIdx (blockAddr x) := by
        intro heq
        have hge := h.start_ge
        have haddr' := pageIdx_inj (by omega) hxge (by simp) (blockAddr_aligned x) heq
        apply hnot x (by simp [hx])
        rw [← blockAddr_div, ← haddr']
        simp [PG_SIZE]
      have hzero := h.other_page n hlo' hhi fun b hb => hnot b (by simp [hb])
      have hrefs' := hrefs (Kmem.pageIdx (n * PG_SIZE))
      simp only [Kmem.pa_to_page] at hzero ⊢
      rw [claim_pages_of_ne x s₁ hne, hrefs']
      exact hzero
  · rw [haddr]
    refine ⟨?_, ?_, ?_, ?_, ?_, ?_, hstart, hclasses⟩
    · intro a ha
      rw [claim_mem x, if_pos ha]
    · exact hwas x (by simp)
    · intro a ha
      rw [claim_mem x, if_neg fun hhas => ha (hwas x (by simp) _ hhas), hmem]
      · rfl
      · intro u hu hhas
        exact ha (hwas u (by simp [hu]) _ hhas)
    · rw [claim_pages_self x]
    · intro n hn
      rw [claim_pages_of_ne x s₁ hn, hrefs]
      rfl
    · intro n
      obtain ⟨hflags, hslab⟩ := howners n
      by_cases hn : n = Kmem.pageIdx (blockAddr x)
      · subst hn
        have hself := claim_pages_self x s₁
        simp only [Kmem.pa_to_page] at hself
        rw [hself]
        exact ⟨hflags, hslab⟩
      · rw [claim_pages_of_ne x s₁ hn]
        exact ⟨hflags, hslab⟩

/-- The block is new, so the counts of the others are as they were. -/
theorem Allocated.refcount_live {s s' : Kmem} {free free' : FreeMap} {live : List Block} {hi : Nat} {x b : Block}
    (ha : Allocated s s' free x) (h : FreeInv s' free' (x :: live) hi) (hb : b ∈ live) :
    (s'.pa_to_page (blockAddr b)).refcount = 1 ∨
      (s'.pa_to_page (blockAddr b)).refcount = (s.pa_to_page (blockAddr b)).refcount := by
  by_cases hself : b = x
  · rw [hself]
    exact .inl ha.refcount_self
  · exact .inr (ha.refcount_frame _ (h.pageIdx_live_ne (List.mem_cons_of_mem _ hb) List.mem_cons_self hself))

/-- The same with a reference to every allocated block. -/
theorem buddy_alloc_spec {s : Kmem} {free : FreeMap} {live : List Block} {hi order : Nat}
    (h : BuddyInv s free live hi) (horder : order ≤ MAX_ORDER) :
    wp (buddy_alloc order) (fun r s' =>
      (r = 0 ∧ s' = s ∧ ∀ j, order ≤ j → j ≤ MAX_ORDER → free j = []) ∨
      ∃ free' i, r = blockAddr ⟨order, i⟩ ∧ r ≠ 0 ∧ BuddyInv s' free' (⟨order, i⟩ :: live) hi ∧
        Allocated s s' free ⟨order, i⟩) s := by
  refine wp_mono (h.core.alloc_spec horder) ?_
  rintro r s' (hnull | ⟨free', i, hr, hne, hcore, ha⟩)
  · exact .inl hnull
  refine .inr ⟨free', i, hr, hne, hcore.counted fun b hb => ?_, ha⟩
  rcases List.mem_cons.mp hb with rfl | hb
  · exact ha.refcount_self.ge
  · rcases ha.refcount_live hcore.toFreeInv hb with hone | hkeep
    · exact hone.ge
    · rw [hkeep]
      exact (h.live_page b hb).1

end bobchouos
