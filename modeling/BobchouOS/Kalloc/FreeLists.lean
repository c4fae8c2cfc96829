import BobchouOS.Kalloc.Model
import BobchouOS.Lib.Blocks
import BobchouOS.Lib.Chain

open lib

namespace bobchouos

/-- Physical address of a block of pages. -/
def blockAddr (b : Block) : Nat := b.base * PG_SIZE

theorem blockAddr_eq_shiftLeft (k i : Nat) : blockAddr ⟨k, i⟩ = i <<< (k + 12) := by
  simp only [blockAddr, Block.base, PG_SIZE, Nat.shiftLeft_eq, Nat.pow_add]
  rw [Nat.mul_assoc]

theorem PG_SIZE_shiftLeft (k : Nat) : PG_SIZE <<< k = 2 ^ k * PG_SIZE := by
  rw [Nat.shiftLeft_eq, Nat.mul_comm]

/-- The exclusive or of the source reaches the buddy. -/
theorem blockAddr_xor (k i : Nat) : blockAddr ⟨k, i⟩ ^^^ (PG_SIZE <<< k) = blockAddr ⟨k, i ^^^ 1⟩ := by
  have hsize : PG_SIZE <<< k = 1 <<< (k + 12) := by
    rw [PG_SIZE_shiftLeft, Nat.one_shiftLeft, Nat.pow_add]
    rfl
  rw [blockAddr_eq_shiftLeft, blockAddr_eq_shiftLeft, hsize, ← Nat.shiftLeft_xor_distrib]

/-- Clearing the order's bit gives the lower of the two merged blocks. -/
theorem blockAddr_ldiff (k i : Nat) :
    (blockAddr ⟨k, i⟩).ldiff (PG_SIZE <<< k) = blockAddr ⟨k + 1, i / 2⟩ := by
  have hsize : PG_SIZE <<< k = 2 ^ (k + 12) := by
    rw [PG_SIZE_shiftLeft, Nat.pow_add]
    rfl
  rw [blockAddr_eq_shiftLeft, blockAddr_eq_shiftLeft, hsize]
  apply Nat.eq_of_testBit_eq
  intro j
  rw [Nat.testBit_ldiff, Nat.testBit_two_pow, Nat.testBit_shiftLeft, Nat.testBit_shiftLeft,
    Nat.testBit_div_two]
  by_cases hlow : j < k + 12
  · have h1 : ¬ j ≥ k + 12 := by omega
    have h2 : ¬ j ≥ k + 1 + 12 := by omega
    simp [h1, h2]
  · by_cases heq : j = k + 12
    · subst heq
      simp
    · have h1 : j ≥ k + 12 := by omega
      have h2 : j ≥ k + 1 + 12 := by omega
      have h3 : j - (k + 12) = j - (k + 1 + 12) + 1 := by omega
      simp [h1, h2, h3, Ne.symm heq]

theorem has_div_iff (b : Block) (a : Nat) :
    b.Has (a / PG_SIZE) ↔ blockAddr b ≤ a ∧ a < blockAddr b + PG_SIZE <<< b.order := by
  rw [Block.has_iff, PG_SIZE_shiftLeft]
  simp only [blockAddr, PG_SIZE]
  generalize 2 ^ b.order = size
  generalize b.base = base
  omega

theorem blockAddr_le_of_has {b : Block} {n : Nat} (h : b.Has n) :
    blockAddr b ≤ n * PG_SIZE ∧ (n + 1) * PG_SIZE ≤ blockAddr b + PG_SIZE <<< b.order := by
  rw [Block.has_iff] at h
  rw [PG_SIZE_shiftLeft]
  simp only [blockAddr, PG_SIZE]
  generalize 2 ^ b.order = size at h ⊢
  generalize b.base = base at h ⊢
  omega

theorem blockAddr_inj {k i j : Nat} (h : blockAddr ⟨k, i⟩ = blockAddr ⟨k, j⟩) : i = j := by
  simp only [blockAddr, Block.base, PG_SIZE] at h
  have hmul : i * 2 ^ k = j * 2 ^ k := by omega
  exact Nat.eq_of_mul_eq_mul_right (Nat.two_pow_pos k) hmul

theorem blockAddr_div (b : Block) : blockAddr b / PG_SIZE = b.base := by
  simp [blockAddr, PG_SIZE]

/-- The link words of a block lie in its first page. -/
theorem has_of_link {b : Block} {a : Nat} (hlo : blockAddr b ≤ a) (hhi : a < blockAddr b + 8) :
    b.Has (a / PG_SIZE) := by
  rw [has_div_iff]
  refine ⟨hlo, ?_⟩
  rw [PG_SIZE_shiftLeft]
  have hpos := Nat.two_pow_pos b.order
  simp only [PG_SIZE]
  omega

/-- The free lists in memory: list `k` of `free` is threaded through the blocks
it names, and the free blocks together with the blocks in `held` partition the
pages from `free_start` to page `hi`. Nothing is said about reference counts. -/
structure FreeInv (s : Kmem) (free : FreeMap) (held : List Block) (hi : Nat) : Prop where
  start_aligned : s.free_start % PG_SIZE = 0
  start_ge : KERN_BASE ≤ s.free_start
  hi_le : hi * PG_SIZE ≤ PHYS_STOP
  tiled : FreeMap.Tiled MAX_ORDER (s.free_start / PG_SIZE) hi free held
  chain : ∀ k, k ≤ MAX_ORDER →
    Chain s.next (s.free_areas k).free_list ((free k).map fun i => blockAddr ⟨k, i⟩)
  count : ∀ k, k ≤ MAX_ORDER → (s.free_areas k).nr_free = (free k).length

namespace FreeInv

variable {s s' : Kmem} {free : FreeMap} {held held' : List Block} {b : Block} {hi k i : Nat}

theorem range_of_free (h : FreeInv s free held hi) (hk : k ≤ MAX_ORDER) (hi' : i ∈ free k) :
    s.free_start ≤ blockAddr ⟨k, i⟩ ∧ blockAddr ⟨k, i⟩ + PG_SIZE <<< k ≤ PHYS_STOP := by
  have hpos := Nat.two_pow_pos k
  have hfirst := h.tiled.range_of_free hk hi' (Block.has_base ⟨k, i⟩)
  have hlast := h.tiled.range_of_free hk hi' (n := Block.base ⟨k, i⟩ + 2 ^ k - 1)
    (Block.has_iff.mpr ⟨by omega, by simp only; omega⟩)
  have haligned := h.start_aligned
  have htop := h.hi_le
  rw [PG_SIZE_shiftLeft]
  simp only [blockAddr, PG_SIZE] at *
  generalize 2 ^ k = size at *
  generalize Block.base ⟨k, i⟩ = base at *
  omega

theorem range_of_held (h : FreeInv s free held hi) (hb : b ∈ held) :
    s.free_start ≤ blockAddr b ∧ blockAddr b + PG_SIZE <<< b.order ≤ PHYS_STOP := by
  have hpos := Nat.two_pow_pos b.order
  have hfirst := h.tiled.range_of_live hb b.has_base
  have hlast := h.tiled.range_of_live hb (n := b.base + 2 ^ b.order - 1)
    (Block.has_iff.mpr ⟨by omega, by omega⟩)
  have haligned := h.start_aligned
  have htop := h.hi_le
  rw [PG_SIZE_shiftLeft]
  simp only [blockAddr, PG_SIZE] at *
  generalize 2 ^ b.order = size at *
  generalize b.base = base at *
  omega

theorem head_eq_or (h : FreeInv s free held hi) (hk : k ≤ MAX_ORDER) :
    (s.free_areas k).free_list = 0 ∧ free k = [] ∨
      ∃ i rest, free k = i :: rest ∧ (s.free_areas k).free_list = blockAddr ⟨k, i⟩ := by
  have hchain := h.chain k hk
  cases hlist : free k with
  | nil =>
    rw [hlist] at hchain
    exact .inl ⟨hchain, rfl⟩
  | cons i rest =>
    rw [hlist] at hchain
    exact .inr ⟨i, rest, rfl, hchain.1⟩

theorem head_lt (h : FreeInv s free held hi) (hk : k ≤ MAX_ORDER) :
    (s.free_areas k).free_list < 2 ^ 64 := by
  rcases h.head_eq_or hk with ⟨hzero, -⟩ | ⟨i, rest, hlist, hhead⟩
  · rw [hzero]
    decide
  · have hrange := h.range_of_free hk (i := i) (by simp [hlist])
    rw [hhead]
    calc blockAddr ⟨k, i⟩ ≤ PHYS_STOP := Nat.le_trans (Nat.le_add_right _ _) hrange.2
      _ < 2 ^ 64 := by decide

/-- The invariant reads memory only inside free blocks. -/
theorem of_mem {t : Kmem} (h : FreeInv s free held hi) (hareas : t.free_areas = s.free_areas)
    (hstart : t.free_start = s.free_start)
    (hmem : ∀ a, FreeMap.FreePage MAX_ORDER free (a / PG_SIZE) → t.mem a = s.mem a) :
    FreeInv t free held hi := by
  refine ⟨by rw [hstart]; exact h.start_aligned, by rw [hstart]; exact h.start_ge, h.hi_le,
    by rw [hstart]; exact h.tiled, ?_, by rw [hareas]; exact h.count⟩
  intro k hk
  rw [hareas]
  apply (h.chain k hk).congr
  intro x hx
  obtain ⟨i, hi', rfl⟩ := List.mem_map.mp hx
  unfold Kmem.next
  rw [Mem.loadWord_congr]
  intro a hlo hhi
  apply hmem
  refine ⟨k, hk, ?_⟩
  rw [show a / PG_SIZE / 2 ^ k = i from has_of_link hlo hhi]
  exact hi'

/-- Only the pages the held blocks cover matter, not how they are cut. -/
theorem held_congr (h : FreeInv s free held hi)
    (hcover : ∀ n, FreeMap.liveCover held' n = FreeMap.liveCover held n) :
    FreeInv s free held' hi := by
  refine ⟨h.start_aligned, h.start_ge, h.hi_le, ?_, h.chain, h.count⟩
  intro n
  rw [hcover]
  exact h.tiled n

theorem liveCover_cons (b : Block) (held : List Block) (n : Nat) :
    FreeMap.liveCover (b :: held) n =
      FreeMap.liveCover held n + if n / 2 ^ b.order = b.index then 1 else 0 := by
  unfold FreeMap.liveCover
  rw [List.countP_cons]
  by_cases hn : n / 2 ^ b.order = b.index <;> simp [Block.Has, hn]

/-- Taking the first block off a list holds it. -/
theorem pop (h : FreeInv s free held hi) (hk : k ≤ MAX_ORDER) {rest : List Nat}
    (hlist : free k = i :: rest) :
    FreeInv (s.popFree k) (Function.update free k rest) (⟨k, i⟩ :: held) hi := by
  refine ⟨h.start_aligned, h.start_ge, h.hi_le, ?_, ?_, ?_⟩
  · intro n
    have hn := h.tiled n
    have hupd := FreeMap.cover_update free hk rest n
    rw [hlist, List.count_cons] at hupd
    rw [liveCover_cons]
    change FreeMap.cover MAX_ORDER (Function.update free k rest) n + _ =
      if s.free_start / PG_SIZE ≤ n ∧ n < hi then 1 else 0
    rw [← hn]
    by_cases hhas : n / 2 ^ k = i
    · simp only [hhas, beq_self_eq_true, if_true] at hupd ⊢
      omega
    · have hbeq : (i == n / 2 ^ k) = false := by simpa using Ne.symm hhas
      simp only [hhas, hbeq, if_false, Bool.false_eq_true] at hupd ⊢
      omega
  · intro j hj
    have hchain := h.chain j hj
    by_cases hjk : j = k
    · subst hjk
      rw [hlist] at hchain
      obtain ⟨hhead, -, htail⟩ := hchain
      simp only [Kmem.popFree, Function.update_self]
      rw [hhead]
      exact htail
    · simp only [Kmem.popFree, Function.update_of_ne hjk]
      exact hchain
  · intro j hj
    by_cases hjk : j = k
    · subst hjk
      have hcount := h.count j hj
      simp only [Kmem.popFree, Function.update_self]
      rw [hcount, hlist]
      simp
    · simp only [Kmem.popFree, Function.update_of_ne hjk]
      exact h.count j hj

/-- Putting a held block on its list frees it. -/
theorem push (h : FreeInv s free (b :: held) hi) (hb : b.order ≤ MAX_ORDER) :
    FreeInv (s.pushFree b.order (blockAddr b))
      (Function.update free b.order (b.index :: free b.order)) held hi := by
  have hrange := h.range_of_held (b := b) (by simp)
  -- the new link word is in no free block, so the old lists stay readable
  have hold : ∀ k, k ≤ MAX_ORDER → ∀ i ∈ free k,
      (s.pushFree b.order (blockAddr b)).next (blockAddr ⟨k, i⟩) = s.next (blockAddr ⟨k, i⟩) := by
    intro k hk i hi'
    simp only [Kmem.next, Kmem.pushFree]
    congr 1
    apply Mem.loadWord_congr
    intro a hlo hhi
    apply Mem.storeWord_of_outside
    have hfree := has_of_link (b := ⟨k, i⟩) hlo hhi
    have hdisjoint := h.tiled.not_live_of_free hk hi' hfree (b := b) (by simp)
    by_contra hin
    exact hdisjoint (has_of_link (by omega) (by omega))
  refine ⟨h.start_aligned, h.start_ge, h.hi_le, ?_, ?_, ?_⟩
  · intro n
    have hn := h.tiled n
    have hupd := FreeMap.cover_update free hb (b.index :: free b.order) n
    rw [List.count_cons] at hupd
    rw [liveCover_cons] at hn
    change FreeMap.cover MAX_ORDER (Function.update free b.order _) n + _ =
      if s.free_start / PG_SIZE ≤ n ∧ n < hi then 1 else 0
    rw [← hn]
    by_cases hhas : n / 2 ^ b.order = b.index
    · simp only [hhas, beq_self_eq_true, if_true] at hupd ⊢
      omega
    · have hbeq : (b.index == n / 2 ^ b.order) = false := by simpa using Ne.symm hhas
      simp only [hhas, hbeq, if_false, Bool.false_eq_true] at hupd ⊢
      omega
  · intro j hj
    by_cases hjb : j = b.order
    · subst hjb
      simp only [Function.update_self, List.map_cons]
      refine ⟨by simp [Kmem.pushFree], ?_, ?_⟩
      · intro hzero
        have hge := h.start_ge
        have hzero : blockAddr b = 0 := hzero
        simp only [KERN_BASE] at hge
        omega
      · have hlink : (s.pushFree b.order (blockAddr b)).next (blockAddr b) =
            (s.free_areas b.order).free_list := by
          simp only [Kmem.next, Kmem.pushFree, Mem.loadWord_storeWord, BitVec.toNat_ofNat]
          exact Nat.mod_eq_of_lt (h.head_lt hb)
        rw [hlink]
        apply (h.chain _ hb).congr
        intro x hx
        obtain ⟨i, hi', rfl⟩ := List.mem_map.mp hx
        exact hold _ hb i hi'
    · rw [Function.update_of_ne hjb]
      have hhead : ((s.pushFree b.order (blockAddr b)).free_areas j).free_list =
          (s.free_areas j).free_list := by
        simp only [Kmem.pushFree, Function.update_of_ne hjb]
      rw [hhead]
      apply (h.chain j hj).congr
      intro x hx
      obtain ⟨i, hi', rfl⟩ := List.mem_map.mp hx
      exact hold j hj i hi'
  · intro j hj
    by_cases hjb : j = b.order
    · subst hjb
      simp only [Kmem.pushFree, Function.update_self, List.length_cons, h.count _ hb]
    · simp only [Kmem.pushFree, Function.update_of_ne hjb]
      exact h.count j hj

end FreeInv

/-- The link that points at the block behind `pre` on a list read from `pb`. -/
def linkAfter (pb : Kmem.LinkPtr) : List Nat → Kmem.LinkPtr
  | [] => pb
  | x :: xs => linkAfter (.next x) xs

theorem linkAfter_concat (pb : Kmem.LinkPtr) (pre : List Nat) (p : Nat) :
    linkAfter pb (pre ++ [p]) = .next p := by
  induction pre generalizing pb with
  | nil => rfl
  | cons x xs ih => exact ih (.next x)

/-- The search of `buddy_free` ends within the length of the list. It stops at
the link to the block if the block is listed and at the final null link
otherwise. -/
theorem findLink_spec {s : Kmem} {fuel : Nat} {xs : List Nat} (target : Nat) (pb : Kmem.LinkPtr)
    (hchain : Chain s.next (s.readLink pb) xs) (hfuel : xs.length < fuel) :
    ∃ pb', findLink s target fuel pb = some pb' ∧
      (target ∉ xs → s.readLink pb' = 0) ∧
      (target ∈ xs → ∃ pre post, xs = pre ++ target :: post ∧ pb' = linkAfter pb pre ∧
        s.readLink pb' = target) := by
  induction xs generalizing pb fuel with
  | nil =>
    cases fuel with
    | zero => simp at hfuel
    | succ fuel =>
      have hzero : s.readLink pb = 0 := hchain
      refine ⟨pb, ?_, fun _ => hzero, by simp⟩
      rw [findLink, if_pos (.inl hzero)]
  | cons x xs ih =>
    cases fuel with
    | zero => simp at hfuel
    | succ fuel =>
      obtain ⟨hhead, hx, htail⟩ := hchain
      by_cases heq : x = target
      · subst heq
        refine ⟨pb, ?_, by simp, fun _ => ⟨[], xs, rfl, rfl, hhead⟩⟩
        rw [findLink, if_pos (.inr hhead)]
      · have hnext : Chain s.next (s.readLink (.next x)) xs := htail
        obtain ⟨pb', hfind, habsent, hpresent⟩ := ih (.next x) hnext (by simpa using hfuel)
        refine ⟨pb', ?_, ?_, ?_⟩
        · rw [findLink, if_neg (by rw [hhead]; tauto), hhead]
          exact hfind
        · intro hnot
          exact habsent fun hmem => hnot (by simp [hmem])
        · intro hmem
          obtain ⟨pre, post, hxs, hptr, hread⟩ := hpresent (by
            rcases List.mem_cons.mp hmem with h | h
            · exact absurd h.symm heq
            · exact h)
          exact ⟨x :: pre, post, by rw [hxs]; rfl, hptr, hread⟩

namespace FreeInv

variable {s : Kmem} {free : FreeMap} {held : List Block} {hi k i : Nat} {l₁ l₂ : List Nat}

/-- A free list is no longer than the number of pages, so the search of
`buddy_free` never runs out of rounds. -/
theorem length_le (h : FreeInv s free held hi) (hk : k ≤ MAX_ORDER) : (free k).length ≤ NR_PAGES := by
  have hsub : ∀ a ∈ (free k).map (fun i => Block.base ⟨k, i⟩),
      a ∈ List.range' (KERN_BASE / PG_SIZE) NR_PAGES := by
    intro a ha
    obtain ⟨i, hi', rfl⟩ := List.mem_map.mp ha
    have hrange := h.tiled.range_of_free hk hi' (Block.has_base ⟨k, i⟩)
    have hge := h.start_ge
    have htop := h.hi_le
    rw [List.mem_range'_1]
    simp only [NR_PAGES, KERN_BASE, PHYS_STOP, PG_SIZE, PG_SHIFT] at *
    omega
  have hnodup : ((free k).map fun i => Block.base ⟨k, i⟩).Nodup := by
    apply (h.tiled.nodup hk).map
    intro i j hij
    apply blockAddr_inj (k := k)
    simp only [blockAddr]
    rw [show Block.base ⟨k, i⟩ = Block.base ⟨k, j⟩ from hij]
  have hle := (List.subperm_of_subset hnodup hsub).length_le
  simpa using hle

/-- The search for a block finds its place on the list, or reports its absence
with a null link. -/
theorem find (h : FreeInv s free held hi) (hk : k ≤ MAX_ORDER) (i : Nat) :
    ∃ pb, findLink s (blockAddr ⟨k, i⟩) (NR_PAGES + 1) (.head k) = some pb ∧
      (i ∉ free k → s.readLink pb = 0) ∧
      (i ∈ free k → ∃ l₁ l₂, free k = l₁ ++ i :: l₂ ∧
        pb = linkAfter (.head k) (l₁.map fun i => blockAddr ⟨k, i⟩) ∧
        s.readLink pb = blockAddr ⟨k, i⟩) := by
  have hlen : ((free k).map fun i => blockAddr ⟨k, i⟩).length < NR_PAGES + 1 := by
    rw [List.length_map]
    exact Nat.lt_succ_of_le (h.length_le hk)
  obtain ⟨pb, hfind, habsent, hpresent⟩ := findLink_spec (blockAddr ⟨k, i⟩) (.head k)
    (h.chain k hk) hlen
  refine ⟨pb, hfind, ?_, ?_⟩
  · intro hnot
    apply habsent
    intro hmem
    obtain ⟨j, hj, heq⟩ := List.mem_map.mp hmem
    rw [blockAddr_inj heq] at hj
    exact hnot hj
  · intro hmem
    obtain ⟨pre, post, hsplit, hptr, hread⟩ := hpresent (List.mem_map.mpr ⟨i, hmem, rfl⟩)
    obtain ⟨l₁, l₂, hfree, rfl, hpost⟩ := List.map_eq_append_iff.mp hsplit
    obtain ⟨j, l₂', rfl, hj, -⟩ := List.map_eq_cons_iff.mp hpost
    rw [blockAddr_inj hj] at hfree
    exact ⟨l₁, l₂', hfree, hptr, hread⟩

/-- Unlinking a block that the search found holds it. The one memory word it
writes belongs to the block in front, which stays on the list. -/
theorem unlink (h : FreeInv s free held hi) (hk : k ≤ MAX_ORDER) (hlist : free k = l₁ ++ i :: l₂)
    {pb : Kmem.LinkPtr} (hpb : pb = linkAfter (.head k) (l₁.map fun i => blockAddr ⟨k, i⟩))
    (hread : s.readLink pb = blockAddr ⟨k, i⟩) :
    FreeInv (bobchouos.unlink k pb s) (Function.update free k (l₁ ++ l₂)) (⟨k, i⟩ :: held) hi ∧
      ∀ a, ¬ FreeMap.FreePage MAX_ORDER free (a / PG_SIZE) →
        (bobchouos.unlink k pb s).mem a = s.mem a := by
  have hnodup := h.tiled.nodup hk
  have htiled : FreeMap.Tiled MAX_ORDER (s.free_start / PG_SIZE) hi
      (Function.update free k (l₁ ++ l₂)) (⟨k, i⟩ :: held) := by
    intro n
    have hn := h.tiled n
    have hupd := FreeMap.cover_update free hk (l₁ ++ l₂) n
    rw [hlist, List.count_append, List.count_cons, List.count_append] at hupd
    rw [liveCover_cons, ← hn]
    by_cases hhas : n / 2 ^ k = i
    · simp only [hhas, beq_self_eq_true, if_true] at hupd ⊢
      omega
    · have hbeq : (i == n / 2 ^ k) = false := by simpa using Ne.symm hhas
      simp only [hhas, hbeq, if_false, Bool.false_eq_true] at hupd ⊢
      omega
  rcases List.eq_nil_or_concat l₁ with rfl | ⟨l, p, rfl⟩
  · -- the head pointer itself is redirected; memory stays as it is
    have hpb : pb = .head k := hpb
    subst hpb
    refine ⟨⟨h.start_aligned, h.start_ge, h.hi_le, htiled, ?_, ?_⟩, fun a _ => rfl⟩
    · intro j hj
      have hchain := h.chain j hj
      by_cases hjk : j = k
      · subst hjk
        rw [hlist] at hchain
        simp only [bobchouos.unlink, Kmem.writeLink, Function.update_self, List.nil_append]
        rw [hread]
        exact hchain.2.2
      · simp only [bobchouos.unlink, Kmem.writeLink, Function.update_of_ne hjk]
        exact hchain
    · intro j hj
      have hcount := h.count j hj
      by_cases hjk : j = k
      · subst hjk
        simp only [bobchouos.unlink, Kmem.writeLink, Function.update_self, List.nil_append]
        rw [hcount, hlist]
        simp
      · simp only [bobchouos.unlink, Kmem.writeLink, Function.update_of_ne hjk]
        exact hcount
  · rw [List.concat_eq_append] at hlist htiled hpb ⊢
    rw [List.map_append, List.map_singleton, linkAfter_concat] at hpb
    subst hpb
    have hp : p ∈ free k := by simp [hlist]
    have hfree : ∀ a, blockAddr ⟨k, p⟩ ≤ a → a < blockAddr ⟨k, p⟩ + 8 →
        FreeMap.FreePage MAX_ORDER free (a / PG_SIZE) := by
      intro a hlo hhi
      refine ⟨k, hk, ?_⟩
      rw [show a / PG_SIZE / 2 ^ k = p from has_of_link hlo hhi]
      exact hp
    have hlt : s.next (blockAddr ⟨k, i⟩) < 2 ^ 64 := (s.mem.loadWord _).isLt
    -- every other listed block keeps its link
    have hother : ∀ j, j ≤ MAX_ORDER → ∀ q ∈ free j, blockAddr ⟨j, q⟩ ≠ blockAddr ⟨k, p⟩ →
        (bobchouos.unlink k (.next (blockAddr ⟨k, p⟩)) s).next (blockAddr ⟨j, q⟩) =
          s.next (blockAddr ⟨j, q⟩) := by
      intro j hj q hq hne
      simp only [bobchouos.unlink, Kmem.writeLink, Kmem.next]
      congr 1
      apply Mem.loadWord_congr
      intro a hlo hhi
      apply Mem.storeWord_of_outside
      by_contra hin
      obtain ⟨rfl, rfl⟩ := h.tiled.free_unique hj hk hq hp (has_of_link hlo hhi)
        (has_of_link (by omega) (by omega))
      exact hne rfl
    refine ⟨⟨h.start_aligned, h.start_ge, h.hi_le, htiled, ?_, ?_⟩, ?_⟩
    · intro j hj
      have hchain := h.chain j hj
      by_cases hjk : j = k
      · subst hjk
        rw [hlist] at hchain
        have hareas : ((bobchouos.unlink j (.next (blockAddr ⟨j, p⟩)) s).free_areas j).free_list =
            (s.free_areas j).free_list := by
          simp only [bobchouos.unlink, Kmem.writeLink, Function.update_self]
        rw [hareas, Function.update_self]
        simp only [List.map_append, List.map_cons, List.append_assoc,
          List.cons_append, List.nil_append] at hchain ⊢
        have hinj : Function.Injective fun i => blockAddr ⟨j, i⟩ := fun _ _ => blockAddr_inj
        apply hchain.remove
        · simp only [bobchouos.unlink, Kmem.writeLink, Kmem.next, Mem.loadWord_storeWord,
            BitVec.toNat_ofNat]
          rw [hread]
          exact Nat.mod_eq_of_lt hlt
        · intro y hy hne
          have hy' : y ∈ (l ++ p :: l₂).map fun i => blockAddr ⟨j, i⟩ := by simpa using hy
          obtain ⟨q, hq, rfl⟩ := List.mem_map.mp hy'
          refine hother j hj q ?_ hne
          rw [hlist]
          rcases List.mem_append.mp hq with hq | hq
          · simp [hq]
          · rcases List.mem_cons.mp hq with rfl | hq <;> simp [*]
        · have hmap := hnodup.map hinj
          rw [hlist] at hmap
          simpa using hmap
      · have hareas : ((bobchouos.unlink k (.next (blockAddr ⟨k, p⟩)) s).free_areas j).free_list =
            (s.free_areas j).free_list := by
          simp only [bobchouos.unlink, Kmem.writeLink, Function.update_of_ne hjk]
        rw [hareas, Function.update_of_ne hjk]
        apply hchain.congr
        intro x hx
        obtain ⟨q, hq, rfl⟩ := List.mem_map.mp hx
        refine hother j hj q hq fun heq => hjk ?_
        have hq' := Block.has_base ⟨j, q⟩
        have hp' := Block.has_base ⟨k, p⟩
        rw [← blockAddr_div, heq, blockAddr_div] at hq'
        exact (h.tiled.free_unique hj hk hq hp hq' hp').1
    · intro j hj
      have hcount := h.count j hj
      by_cases hjk : j = k
      · subst hjk
        simp only [bobchouos.unlink, Kmem.writeLink, Function.update_self]
        rw [hcount, hlist]
        simp
      · simp only [bobchouos.unlink, Kmem.writeLink, Function.update_of_ne hjk]
        exact hcount
    · intro a hnot
      simp only [bobchouos.unlink, Kmem.writeLink]
      apply Mem.storeWord_of_outside
      by_contra hin
      exact hnot (hfree a (by omega) (by omega))

end FreeInv

end bobchouos
