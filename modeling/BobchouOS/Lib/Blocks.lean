import Mathlib

namespace lib

/-- A naturally aligned power-of-two run of pages: `2 ^ order` pages, the first
of them at `index * 2 ^ order`. Alignment holds by construction. -/
structure Block where
  order : Nat
  index : Nat
  deriving DecidableEq, Repr

namespace Block

/-- First page of a block. -/
def base (b : Block) : Nat := b.index * 2 ^ b.order

/-- Page `n` belongs to the block. -/
def Has (b : Block) (n : Nat) : Prop := n / 2 ^ b.order = b.index

instance (b : Block) (n : Nat) : Decidable (b.Has n) := inferInstanceAs (Decidable (_ = _))

/-- The other half of the enclosing block of the next order. -/
def buddy (b : Block) : Block := ⟨b.order, b.index ^^^ 1⟩

def parent (b : Block) : Block := ⟨b.order + 1, b.index / 2⟩

variable {b c : Block} {n m : Nat}

theorem has_iff : b.Has n ↔ b.base ≤ n ∧ n < b.base + 2 ^ b.order := by
  unfold Has base
  rw [Nat.div_eq_iff (Nat.two_pow_pos _)]
  have hpos := Nat.two_pow_pos b.order
  omega

theorem has_base (b : Block) : b.Has b.base := by
  unfold Has base
  exact Nat.mul_div_cancel _ (Nat.two_pow_pos _)

theorem xor_one_eq (i : Nat) : i ^^^ 1 = if i % 2 = 0 then i + 1 else i - 1 := by
  have hdiv : (i ^^^ 1) / 2 = i / 2 := by simp [Nat.xor_div_two]
  have hmod : (i ^^^ 1) % 2 = (i + 1) % 2 := Nat.xor_mod_two_eq
  split <;> omega

theorem xor_one_div_two (i : Nat) : (i ^^^ 1) / 2 = i / 2 := by simp [Nat.xor_div_two]

theorem xor_one_xor_one (i : Nat) : i ^^^ 1 ^^^ 1 = i := by simp

theorem div_two_eq_iff (i j : Nat) : j / 2 = i / 2 ↔ j = i ∨ j = i ^^^ 1 := by
  rw [xor_one_eq]
  split <;> omega

/-- A block and its buddy make up their parent. -/
theorem parent_has_iff : b.parent.Has n ↔ b.Has n ∨ b.buddy.Has n := by
  have hdiv : n / 2 ^ (b.order + 1) = n / 2 ^ b.order / 2 := by
    rw [Nat.pow_succ, Nat.div_div_eq_div_mul]
  simp only [Has, parent, buddy, hdiv, div_two_eq_iff]

@[simp] theorem buddy_parent (b : Block) : b.buddy.parent = b.parent := by
  simp [buddy, parent, xor_one_div_two]

theorem div_two_pow_le {k j : Nat} (h : k ≤ j) (n : Nat) : n / 2 ^ j = n / 2 ^ k / 2 ^ (j - k) := by
  rw [Nat.div_div_eq_div_mul, ← Nat.pow_add, Nat.add_sub_cancel' h]

/-- Blocks that share a page are nested. -/
theorem Has.of_le (hle : b.order ≤ c.order) (hb : b.Has n) (hc : c.Has n) (hm : b.Has m) : c.Has m := by
  unfold Has at *
  rw [div_two_pow_le hle] at hc ⊢
  rw [hm, ← hb, hc]

end Block

/-- The free blocks of an allocator: for each order, the indices on that order's
list. -/
abbrev FreeMap := Nat → List Nat

namespace FreeMap

variable {maxOrder lo hi : Nat} {free free' : FreeMap} {live : List Block} {n k i : Nat}

/-- How many free blocks hold page `n`. -/
def cover (maxOrder : Nat) (free : FreeMap) (n : Nat) : Nat :=
  ∑ k ∈ Finset.range (maxOrder + 1), (free k).count (n / 2 ^ k)

/-- How many allocated blocks hold page `n`. -/
def liveCover (live : List Block) (n : Nat) : Nat := live.countP fun b => b.Has n

/-- The free and the allocated blocks partition the pages `lo ≤ n < hi`: each
page is in exactly one block and no block reaches outside. -/
def Tiled (maxOrder lo hi : Nat) (free : FreeMap) (live : List Block) : Prop :=
  ∀ n, cover maxOrder free n + liveCover live n = if lo ≤ n ∧ n < hi then 1 else 0

/-- No two buddies below the top order are both free. -/
def Coalesced (maxOrder : Nat) (free : FreeMap) : Prop :=
  ∀ k, k < maxOrder → ∀ i ∈ free k, i ^^^ 1 ∉ free k

/-- Page `n` lies in a free block. -/
def FreePage (maxOrder : Nat) (free : FreeMap) (n : Nat) : Prop :=
  ∃ k, k ≤ maxOrder ∧ n / 2 ^ k ∈ free k

/-- The naturally aligned blocks of pages in `F` that no larger one of order at
most `maxOrder` contains. -/
def IsMaximal (maxOrder : Nat) (F : Nat → Prop) (b : Block) : Prop :=
  b.order ≤ maxOrder ∧ (∀ n, b.Has n → F n) ∧
    (b.order < maxOrder → ¬ ∀ n, b.parent.Has n → F n)

theorem count_le_cover (free : FreeMap) (n : Nat) (hk : k ≤ maxOrder) : (free k).count (n / 2 ^ k) ≤ cover maxOrder free n := by
  unfold cover
  exact Finset.single_le_sum (f := fun k => (free k).count (n / 2 ^ k)) (fun _ _ => Nat.zero_le _)
    (by simp; omega)

theorem cover_pos_iff : 0 < cover maxOrder free n ↔ FreePage maxOrder free n := by
  unfold cover FreePage
  rw [Finset.sum_pos_iff]
  simp only [Finset.mem_range, List.count_pos_iff, Nat.lt_succ_iff]

/-- Replacing the list of one order changes the cover by that order's share. -/
theorem cover_update (free : FreeMap) (hk : k ≤ maxOrder) (l : List Nat) (n : Nat) :
    cover maxOrder (Function.update free k l) n + (free k).count (n / 2 ^ k) =
      cover maxOrder free n + l.count (n / 2 ^ k) := by
  unfold cover
  have hmem : k ∈ Finset.range (maxOrder + 1) := by simp; omega
  rw [← Finset.add_sum_erase _ _ hmem, ← Finset.add_sum_erase _ (fun k => (free k).count (n / 2 ^ k)) hmem]
  have hrest : ∑ j ∈ (Finset.range (maxOrder + 1)).erase k,
      (Function.update free k l j).count (n / 2 ^ j) =
      ∑ j ∈ (Finset.range (maxOrder + 1)).erase k, (free j).count (n / 2 ^ j) := by
    apply Finset.sum_congr rfl
    intro j hj
    rw [Function.update_of_ne (Finset.ne_of_mem_erase hj)]
  rw [hrest, Function.update_self]
  omega

/-- A page of a block of order `k + 1` is in exactly one of the two halves. -/
theorem ite_half (n k i : Nat) :
    (if n / 2 ^ (k + 1) = i then 1 else 0) =
      (if n / 2 ^ k = 2 * i then 1 else 0) + (if n / 2 ^ k = 2 * i + 1 then 1 else 0) := by
  have hdiv : n / 2 ^ (k + 1) = n / 2 ^ k / 2 := by
    rw [Nat.pow_succ, Nat.div_div_eq_div_mul]
  rw [hdiv]
  split_ifs <;> omega

section Tiled

theorem Tiled.le_one (h : Tiled maxOrder lo hi free live) (n : Nat) :
    cover maxOrder free n + liveCover live n ≤ 1 := by
  rw [h n]
  split <;> omega

/-- A free block lies inside the range. -/
theorem Tiled.range_of_free (h : Tiled maxOrder lo hi free live) (hk : k ≤ maxOrder)
    (hi' : i ∈ free k) (hn : Block.Has ⟨k, i⟩ n) : lo ≤ n ∧ n < hi := by
  by_contra hout
  have hzero := h n
  rw [if_neg hout] at hzero
  have hcount := count_le_cover free n hk
  have hpos : 0 < (free k).count (n / 2 ^ k) := by
    rw [List.count_pos_iff, show n / 2 ^ k = i from hn]
    exact hi'
  omega

theorem Tiled.range_of_live (h : Tiled maxOrder lo hi free live) {b : Block} (hb : b ∈ live)
    (hn : b.Has n) : lo ≤ n ∧ n < hi := by
  by_contra hout
  have hzero := h n
  rw [if_neg hout] at hzero
  have hpos : 0 < liveCover live n := by
    unfold liveCover
    rw [List.countP_pos_iff]
    exact ⟨b, hb, by simpa using hn⟩
  omega

/-- A page of a free block is in no allocated block. -/
theorem Tiled.not_live_of_free (h : Tiled maxOrder lo hi free live) (hk : k ≤ maxOrder)
    (hi' : i ∈ free k) (hn : Block.Has ⟨k, i⟩ n) {b : Block} (hb : b ∈ live) : ¬ b.Has n := by
  intro hbn
  have hone := h.le_one n
  have hcount := count_le_cover free n hk
  have hpos : 0 < (free k).count (n / 2 ^ k) := by
    rw [List.count_pos_iff, show n / 2 ^ k = i from hn]
    exact hi'
  have hlive : 0 < liveCover live n := by
    unfold liveCover
    rw [List.countP_pos_iff]
    exact ⟨b, hb, by simpa using hbn⟩
  omega

/-- Two free blocks that share a page are the same block. -/
theorem Tiled.free_unique (h : Tiled maxOrder lo hi free live) {k' i' : Nat} (hk : k ≤ maxOrder)
    (hk' : k' ≤ maxOrder) (hi : i ∈ free k) (hi' : i' ∈ free k') (hn : Block.Has ⟨k, i⟩ n)
    (hn' : Block.Has ⟨k', i'⟩ n) : k = k' ∧ i = i' := by
  have hkk : k = k' := by
    by_contra hne
    have hone := h.le_one n
    have hsum : (free k).count (n / 2 ^ k) + (free k').count (n / 2 ^ k') ≤ cover maxOrder free n := by
      unfold cover
      have hpair := Finset.sum_le_sum_of_subset (f := fun k => (free k).count (n / 2 ^ k))
        (s := {k, k'}) (t := Finset.range (maxOrder + 1)) (by intro j; simp; omega)
      rwa [Finset.sum_pair hne] at hpair
    have hpos : 0 < (free k).count (n / 2 ^ k) := by
      rw [List.count_pos_iff, show n / 2 ^ k = i from hn]
      exact hi
    have hpos' : 0 < (free k').count (n / 2 ^ k') := by
      rw [List.count_pos_iff, show n / 2 ^ k' = i' from hn']
      exact hi'
    omega
  subst hkk
  have hin : n / 2 ^ k = i := hn
  have hin' : n / 2 ^ k = i' := hn'
  exact ⟨rfl, by omega⟩

/-- No block is twice on a free list. -/
theorem Tiled.nodup (h : Tiled maxOrder lo hi free live) (hk : k ≤ maxOrder) : (free k).Nodup := by
  rw [List.nodup_iff_count_le_one]
  intro i
  have hone := h.le_one (Block.base ⟨k, i⟩)
  have hcount := count_le_cover free (Block.base ⟨k, i⟩) hk
  rw [show Block.base ⟨k, i⟩ / 2 ^ k = i from Block.has_base ⟨k, i⟩] at hcount
  omega

/-- Two allocated blocks that share a page are the same list entry. -/
theorem Tiled.live_nodup (h : Tiled maxOrder lo hi free live) : live.Nodup := by
  rw [List.nodup_iff_count_le_one]
  intro b
  have hone := h.le_one b.base
  have hcount : live.count b ≤ liveCover live b.base := by
    unfold liveCover
    rw [List.count]
    apply List.countP_mono_left
    intro c hc heq
    have heq : c = b := by simpa using heq
    subst heq
    simpa using c.has_base
  omega

theorem Tiled.live_unique (h : Tiled maxOrder lo hi free live) {b c : Block} (hb : b ∈ live)
    (hc : c ∈ live) (hbn : b.Has n) (hcn : c.Has n) : b = c := by
  by_contra hne
  have hone := h.le_one n
  have hmem : c ∈ live.erase b := (List.mem_erase_of_ne (Ne.symm hne)).mpr hc
  have hsplit : liveCover live n = liveCover (b :: live.erase b) n := by
    unfold liveCover
    exact (List.perm_cons_erase hb).countP_eq _
  have hpos : 0 < liveCover (live.erase b) n := by
    unfold liveCover
    rw [List.countP_pos_iff]
    exact ⟨c, hmem, by simpa using hcn⟩
  have hcons : liveCover (b :: live.erase b) n = liveCover (live.erase b) n + 1 := by
    unfold liveCover
    rw [List.countP_cons_of_pos]
    simpa using hbn
  omega

/-- Every page of the range is in a free or in an allocated block. -/
theorem Tiled.covered (h : Tiled maxOrder lo hi free live) (hlo : lo ≤ n) (hhi : n < hi) :
    FreePage maxOrder free n ∨ ∃ b ∈ live, b.Has n := by
  have hone := h n
  rw [if_pos ⟨hlo, hhi⟩] at hone
  by_cases hfree : 0 < cover maxOrder free n
  · exact .inl (cover_pos_iff.mp hfree)
  · right
    have hpos : 0 < liveCover live n := by omega
    unfold liveCover at hpos
    rw [List.countP_pos_iff] at hpos
    obtain ⟨b, hb, hbn⟩ := hpos
    exact ⟨b, hb, by simpa using hbn⟩

end Tiled

section Coalesced

/-- Freeing a block whose buddy is not free leaves no mergeable pair. -/
theorem Coalesced.update_cons (h : Coalesced maxOrder free) (hbuddy : i ^^^ 1 ∉ free k) :
    Coalesced maxOrder (Function.update free k (i :: free k)) := by
  intro j hj m hm
  by_cases hjk : j = k
  · subst hjk
    rw [Function.update_self] at hm ⊢
    have hself : m ^^^ 1 ≠ m := by
      rw [Block.xor_one_eq]
      split <;> omega
    rcases List.mem_cons.mp hm with rfl | hmem
    · simp only [List.mem_cons, not_or]
      exact ⟨hself, hbuddy⟩
    · simp only [List.mem_cons, not_or]
      refine ⟨?_, h j hj m hmem⟩
      rintro rfl
      rw [Block.xor_one_xor_one] at hbuddy
      exact hbuddy hmem
  · rw [Function.update_of_ne hjk] at hm ⊢
    exact h j hj m hm

/-- Taking blocks off a list leaves no new mergeable pair. -/
theorem Coalesced.update_subset (h : Coalesced maxOrder free) {l : List Nat} (hsub : l ⊆ free k) :
    Coalesced maxOrder (Function.update free k l) := by
  intro j hj m hm
  by_cases hjk : j = k
  · subst hjk
    rw [Function.update_self] at hm ⊢
    exact fun hmem => h j hj m (hsub hm) (hsub hmem)
  · rw [Function.update_of_ne hjk] at hm ⊢
    exact h j hj m hm

/-- A block all of whose pages are free, none of them in a larger free block, is
itself on the free list: were it made of smaller blocks, two of them would be
unmerged buddies. -/
theorem Coalesced.mem_of_filled (h : Coalesced maxOrder free) :
    ∀ k i, k ≤ maxOrder → (∀ n, Block.Has ⟨k, i⟩ n → ∃ j, j ≤ k ∧ n / 2 ^ j ∈ free j) → i ∈ free k := by
  intro k
  induction k with
  | zero =>
    intro i _ hfill
    obtain ⟨j, hj, hmem⟩ := hfill i (by simp [Block.Has])
    obtain rfl : j = 0 := by omega
    simpa using hmem
  | succ k ih =>
    intro i hk hfill
    by_contra hnot
    -- every page is then in a block of order at most `k`, so both halves are free
    have hsmall : ∀ n, Block.Has ⟨k + 1, i⟩ n → ∃ j, j ≤ k ∧ n / 2 ^ j ∈ free j := by
      intro n hn
      obtain ⟨j, hj, hmem⟩ := hfill n hn
      refine ⟨j, ?_, hmem⟩
      by_contra hgt
      obtain rfl : j = k + 1 := by omega
      rw [show n / 2 ^ (k + 1) = i from hn] at hmem
      exact hnot hmem
    have hhalf : ∀ i', i' / 2 = i → i' ∈ free k := by
      intro i' hi'
      apply ih i' (by omega)
      intro n hn
      apply hsmall
      have hdiv : n / 2 ^ (k + 1) = n / 2 ^ k / 2 := by
        rw [Nat.pow_succ, Nat.div_div_eq_div_mul]
      have hnk : n / 2 ^ k = i' := hn
      change n / 2 ^ (k + 1) = i
      rw [hdiv, hnk, hi']
    refine h k (by omega) (2 * i) (hhalf _ (by omega)) ?_
    apply hhalf
    rw [Block.xor_one_div_two]
    omega

/-- The free lists are exactly the maximal blocks of the set of free pages. -/
theorem Tiled.mem_iff_isMaximal (ht : Tiled maxOrder lo hi free live) (hc : Coalesced maxOrder free) :
    (k ≤ maxOrder ∧ i ∈ free k) ↔ IsMaximal maxOrder (FreePage maxOrder free) ⟨k, i⟩ := by
  constructor
  · rintro ⟨hk, hmem⟩
    have hpages : ∀ n, Block.Has ⟨k, i⟩ n → FreePage maxOrder free n := by
      intro n hn
      exact ⟨k, hk, by rw [show n / 2 ^ k = i from hn]; exact hmem⟩
    refine ⟨hk, hpages, ?_⟩
    intro hlt hparent
    refine hc k hlt i hmem ?_
    apply hc.mem_of_filled k _ hk
    intro n hn
    obtain ⟨j, hj, hjmem⟩ := hparent n (Block.parent_has_iff.mpr (.inr hn))
    refine ⟨j, ?_, hjmem⟩
    -- a larger free block would contain the parent and so overlap block `i`
    by_contra hgt
    have hover : Block.Has ⟨j, n / 2 ^ j⟩ (Block.base ⟨k, i⟩) :=
      Block.Has.of_le (b := Block.parent ⟨k, i⟩) (c := ⟨j, n / 2 ^ j⟩)
        (show k + 1 ≤ j by omega) (Block.parent_has_iff.mpr (.inr hn)) rfl
        (Block.parent_has_iff.mpr (.inl (Block.has_base _)))
    have heq := ht.free_unique hk hj hmem hjmem (Block.has_base _) hover
    omega
  · rintro ⟨hk, hpages, hmax⟩
    refine ⟨hk, hc.mem_of_filled k i hk ?_⟩
    intro n hn
    obtain ⟨j, hj, hjmem⟩ := hpages n hn
    refine ⟨j, ?_, hjmem⟩
    by_contra hgt
    apply hmax (show k < maxOrder by omega)
    intro m hm
    have hover : Block.Has ⟨j, n / 2 ^ j⟩ m :=
      Block.Has.of_le (b := Block.parent ⟨k, i⟩) (c := ⟨j, n / 2 ^ j⟩)
        (show k + 1 ≤ j by omega) (Block.parent_has_iff.mpr (.inl hn)) rfl hm
    exact ⟨j, hj, by rw [show m / 2 ^ j = n / 2 ^ j from hover]; exact hjmem⟩

/-- A naturally aligned run of `2 ^ k` free pages exists exactly when some list
of order at least `k` is nonempty. -/
theorem Coalesced.exists_run_iff (hc : Coalesced maxOrder free) (hk : k ≤ maxOrder) :
    (∃ i, ∀ n, Block.Has ⟨k, i⟩ n → FreePage maxOrder free n) ↔
      ∃ j, k ≤ j ∧ j ≤ maxOrder ∧ free j ≠ [] := by
  constructor
  · rintro ⟨i, hrun⟩
    by_cases hlarge : ∃ n, Block.Has ⟨k, i⟩ n ∧ ∃ j, k ≤ j ∧ j ≤ maxOrder ∧ n / 2 ^ j ∈ free j
    · obtain ⟨n, -, j, hkj, hj, hmem⟩ := hlarge
      exact ⟨j, hkj, hj, List.ne_nil_of_mem hmem⟩
    · refine ⟨k, le_refl k, hk, List.ne_nil_of_mem (hc.mem_of_filled k i hk ?_)⟩
      intro n hn
      obtain ⟨j, hj, hmem⟩ := hrun n hn
      refine ⟨j, ?_, hmem⟩
      by_contra hgt
      exact hlarge ⟨n, hn, j, by omega, hj, hmem⟩
  · rintro ⟨j, hkj, hj, hne⟩
    obtain ⟨i, hmem⟩ := List.exists_mem_of_ne_nil _ hne
    refine ⟨i * 2 ^ (j - k), fun n hn => ⟨j, hj, ?_⟩⟩
    have hn' : n / 2 ^ k = i * 2 ^ (j - k) := hn
    rw [Block.div_two_pow_le hkj, hn', Nat.mul_div_cancel _ (Nat.two_pow_pos _)]
    exact hmem

/-- The free pages alone determine the free lists, as sets. -/
theorem Tiled.mem_congr {live' : List Block} (ht : Tiled maxOrder lo hi free live)
    (hc : Coalesced maxOrder free) (ht' : Tiled maxOrder lo hi free' live')
    (hc' : Coalesced maxOrder free')
    (hpages : ∀ n, FreePage maxOrder free n ↔ FreePage maxOrder free' n) (hk : k ≤ maxOrder) :
    i ∈ free k ↔ i ∈ free' k := by
  have h := ht.mem_iff_isMaximal hc (k := k) (i := i)
  have h' := ht'.mem_iff_isMaximal hc' (k := k) (i := i)
  have heq : FreePage maxOrder free = FreePage maxOrder free' := funext fun n => propext (hpages n)
  rw [heq] at h
  constructor
  · intro hi
    exact (h'.mpr (h.mp ⟨hk, hi⟩)).2
  · intro hi
    exact (h.mpr (h'.mp ⟨hk, hi⟩)).2

end Coalesced

end FreeMap

end lib
