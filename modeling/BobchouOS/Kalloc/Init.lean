import BobchouOS.Kalloc.Free

open lib

namespace bobchouos

/-- The block at `addr` of the order `kalloc_init` chooses is naturally aligned
and ends inside DRAM. -/
theorem largestOrder_spec (addr left order : Nat) (hsum : order + left = MAX_ORDER)
    (hfit : addr + PG_SIZE <<< order ≤ PHYS_STOP) (haligned : addr % (PG_SIZE <<< order) = 0) :
    largestOrder addr left order ≤ MAX_ORDER ∧
      addr + PG_SIZE <<< (largestOrder addr left order) ≤ PHYS_STOP ∧
      addr % (PG_SIZE <<< (largestOrder addr left order)) = 0 := by
  induction left generalizing order with
  | zero =>
    unfold largestOrder
    exact ⟨by omega, hfit, haligned⟩
  | succ left ih =>
    unfold largestOrder
    by_cases hgrow : addr + PG_SIZE <<< (order + 1) ≤ PHYS_STOP ∧ addr % (PG_SIZE <<< (order + 1)) = 0
    · rw [if_pos hgrow]
      exact ih (order + 1) (by omega) hgrow.1 hgrow.2
    · rw [if_neg hgrow]
      exact ⟨by omega, hfit, haligned⟩

/-- Marking a block behind the managed pages as allocated extends the range by
it, which makes it a legal argument of `buddy_free`. -/
theorem BuddyInv.extend {s : Kmem} {free : FreeMap} {hi : Nat} {b : Block}
    (h : BuddyInv s free [] hi) (hbase : b.base = hi) (hlo : s.free_start / PG_SIZE ≤ hi)
    (horder : b.order ≤ MAX_ORDER)
    (hfit : blockAddr b + PG_SIZE <<< b.order ≤ PHYS_STOP) :
    BuddyInv (s.setPage (blockAddr b)
        { s.pa_to_page (blockAddr b) with refcount := 1, order := b.order })
      free [b] (hi + 2 ^ b.order) := by
  have hge : KERN_BASE ≤ blockAddr b := by
    have hstart := h.start_ge
    have haligned := h.start_aligned
    simp only [blockAddr, hbase, PG_SIZE, KERN_BASE] at *
    omega
  have htiled : FreeMap.Tiled MAX_ORDER (s.free_start / PG_SIZE) (hi + 2 ^ b.order) free [b] := by
    intro n
    have hn := h.tiled n
    have hhas := Block.has_iff (b := b) (n := n)
    rw [hbase] at hhas
    rw [FreeInv.liveCover_cons]
    simp only [FreeMap.liveCover, List.countP_nil] at hn ⊢
    by_cases hin : n / 2 ^ b.order = b.index
    · have hrange := hhas.mp hin
      rw [if_neg (by omega)] at hn
      rw [if_pos hin, if_pos (by omega)]
      omega
    · have hout : ¬ (hi ≤ n ∧ n < hi + 2 ^ b.order) := fun hr => hin (hhas.mpr hr)
      rw [if_neg hin, hn]
      by_cases hold : s.free_start / PG_SIZE ≤ n ∧ n < hi
      · rw [if_pos hold, if_pos ⟨hold.1, Nat.lt_add_right _ hold.2⟩]
      · rw [if_neg hold, if_neg (fun hr => hout ⟨by omega, hr.2⟩)]
  refine ⟨⟨h.start_aligned, h.start_ge, ?_, htiled, h.chain, h.count⟩, h.coalesced, ?_, ?_, ?_⟩
  · rw [PG_SIZE_shiftLeft, blockAddr, hbase] at hfit
    rw [Nat.add_mul]
    exact hfit
  · intro c hc
    rw [List.mem_singleton.mp hc]
    exact horder
  · intro c hc
    rw [List.mem_singleton.mp hc, pa_to_page_setPage_self]
    exact ⟨le_refl 1, rfl⟩
  · intro n hn hhi hnot
    have hbn := hnot b (by simp)
    have hne : Kmem.pageIdx (n * PG_SIZE) ≠ Kmem.pageIdx (blockAddr b) := by
      intro heq
      have hstart := h.start_ge
      have haddr := pageIdx_inj (Nat.le_trans hstart hn) hge (by simp) (blockAddr_aligned b) heq
      apply hbn
      rw [← blockAddr_div, ← haddr]
      simp [PG_SIZE]
    rw [pa_to_page_setPage_of_ne s _ hne]
    exact h.other_page n hn hhi (by simp)

/-- The block loop of `kalloc_init` ends with all of DRAM behind `free_start`
under management and nothing allocated. -/
theorem addBlocks_spec (fuel addr : Nat) (s : Kmem) (free : FreeMap)
    (h : BuddyInv s free [] (addr / PG_SIZE)) (haligned : addr % PG_SIZE = 0)
    (hlo : s.free_start ≤ addr) (hhi : addr ≤ PHYS_STOP) (hfuel : (PHYS_STOP - addr) / PG_SIZE < fuel) :
    wp (addBlocks fuel addr)
      (fun _ s' => s'.free_start = s.free_start ∧ ∃ free', BuddyInv s' free' [] (PHYS_STOP / PG_SIZE)) s := by
  induction fuel generalizing addr s free with
  | zero => exact absurd hfuel (Nat.not_lt_zero _)
  | succ fuel ih =>
    unfold addBlocks
    by_cases hmore : addr < PHYS_STOP
    · rw [if_pos hmore]
      simp only [wp_bind, wp_modify]
      have hfirst : addr + PG_SIZE <<< 0 ≤ PHYS_STOP := by
        simp only [PG_SIZE, PHYS_STOP, Nat.shiftLeft_zero] at *
        omega
      obtain ⟨horder, hfit, hnat⟩ := largestOrder_spec addr MAX_ORDER 0 (by omega) hfirst
        (by simpa using haligned)
      generalize largestOrder addr MAX_ORDER 0 = order at *
      obtain ⟨b, hb⟩ : ∃ b : Block, b = ⟨order, addr / (PG_SIZE <<< order)⟩ := ⟨_, rfl⟩
      have hbo : b.order = order := by rw [hb]
      have haddr : blockAddr b = addr := by
        have hdiv := Nat.div_add_mod addr (PG_SIZE <<< order)
        rw [hnat, Nat.add_zero, Nat.mul_comm] at hdiv
        simp only [blockAddr, Block.base, hb, Nat.mul_assoc]
        rw [← PG_SIZE_shiftLeft]
        exact hdiv
      have hbase : b.base = addr / PG_SIZE := by rw [← haddr, blockAddr_div]
      have hext := h.extend hbase (Nat.div_le_div_right hlo) (by rw [hbo]; exact horder)
        (by rw [haddr, hbo]; exact hfit)
      have hfree := buddy_free_spec hext (b := b) (List.mem_singleton.mpr rfl)
        (by rw [pa_to_page_setPage_self])
      rw [haddr, hbo] at hfree
      refine wp_mono hfree ?_
      rintro _ s₁ ⟨free₁, hinv, hfreed⟩
      have hsize : PG_SIZE <<< order = 2 ^ order * PG_SIZE := PG_SIZE_shiftLeft order
      have hnext : (addr + PG_SIZE <<< order) / PG_SIZE = addr / PG_SIZE + 2 ^ order := by
        rw [hsize]
        exact Nat.add_mul_div_right _ _ (by decide)
      have hpos := Nat.two_pow_pos order
      refine wp_mono (ih (addr + PG_SIZE <<< order) s₁ free₁ ?_ ?_ ?_ hfit ?_) ?_
      · rw [hnext]
        simpa using hinv
      · rw [hsize, Nat.add_mul_mod_self_right]
        exact haligned
      · rw [hfreed.free_start]
        exact Nat.le_trans hlo (Nat.le_add_right _ _)
      · rw [hsize] at hfit ⊢
        simp only [PG_SIZE, PHYS_STOP] at *
        omega
      · rintro _ s₂ ⟨hstart, hfinal⟩
        refine ⟨?_, hfinal⟩
        rw [hstart, hfreed.free_start]
        rfl
    · rw [if_neg hmore]
      have hend : addr = PHYS_STOP := by omega
      subst hend
      exact wp_pure.mpr ⟨rfl, free, h⟩

theorem freeStart_aligned (kernel_end : Nat) : freeStart kernel_end % PG_SIZE = 0 := by
  unfold freeStart PG_ROUND_UP
  rw [show PG_SIZE - 1 = 2 ^ 12 - 1 from rfl, ldiff_mask]
  exact Nat.mul_mod_left _ _

theorem freeStart_eq {k : Nat} (h : k ≤ PHYS_STOP) :
    freeStart k =
      ((k + PG_SIZE - 1) / PG_SIZE * PG_SIZE + NR_PAGES * SIZEOF_PAGE + PG_SIZE - 1) / PG_SIZE * PG_SIZE := by
  have hin : PG_ROUND_UP k = (k + PG_SIZE - 1) / PG_SIZE * PG_SIZE := by
    apply PG_ROUND_UP_eq
    simp only [PG_SIZE, PHYS_STOP] at *
    omega
  rw [freeStart, hin, PG_ROUND_UP_eq]
  simp only [PG_SIZE, NR_PAGES, SIZEOF_PAGE, PHYS_STOP, KERN_BASE, PG_SHIFT] at *
  omega

/-- Before any block is added, the cleared page array and the empty lists manage
the empty range. -/
theorem cleared_inv {kernel_end : Nat} (s : Kmem) (hlo : KERN_BASE ≤ freeStart kernel_end)
    (hhi : freeStart kernel_end ≤ PHYS_STOP) :
    BuddyInv (cleared kernel_end s) (fun _ => []) [] (freeStart kernel_end / PG_SIZE) := by
  refine ⟨⟨freeStart_aligned kernel_end, hlo, ?_, ?_, ?_, ?_⟩, ?_, by simp, by simp, ?_⟩
  · exact Nat.le_trans (Nat.div_mul_le_self _ _) hhi
  · intro n
    have hempty : ¬ ((cleared kernel_end s).free_start / PG_SIZE ≤ n ∧ n < freeStart kernel_end / PG_SIZE) := by
      simp only [cleared]
      omega
    rw [if_neg hempty]
    simp [FreeMap.cover, FreeMap.liveCover]
  · intro k _
    rfl
  · intro k _
    rfl
  · intro k _ i hi
    simp at hi
  · intro n _ _ _
    rfl

/-- `kalloc_init` returns, whatever the memory held at boot, with every page
from `free_start` to the end of DRAM in free blocks. -/
theorem kalloc_init_spec {kernel_end : Nat} (s : Kmem) (hlo : KERN_BASE ≤ freeStart kernel_end)
    (hhi : freeStart kernel_end ≤ PHYS_STOP) :
    wp (kalloc_init kernel_end) (fun _ s' => s'.free_start = freeStart kernel_end ∧
      ∃ free, BuddyInv s' free [] (PHYS_STOP / PG_SIZE)) s := by
  unfold kalloc_init
  simp only [wp_bind, wp_modify]
  exact addBlocks_spec (NR_PAGES + 1) (freeStart kernel_end) (cleared kernel_end s) (fun _ => [])
    (cleared_inv s hlo hhi) (freeStart_aligned kernel_end) (le_refl _) hhi (by
      simp only [PG_SIZE, NR_PAGES, PHYS_STOP, KERN_BASE, PG_SHIFT] at *
      omega)

end bobchouos
