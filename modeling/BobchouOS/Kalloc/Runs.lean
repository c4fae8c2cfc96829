import BobchouOS.Kalloc.Init
import BobchouOS.Lib.Lts

open lib

namespace bobchouos

/-- The blocks on the free list of an order, read off memory. -/
def Kmem.listBlocks (s : Kmem) (order : Nat) : List Nat :=
  Chain.walk s.next (NR_PAGES + 1) (s.free_areas order).free_list

/-- The allocator together with what its users hold: the address and the order
of every block that was returned and not yet given back. -/
structure Heap where
  kmem : Kmem
  live : List (Nat × Nat)

namespace Heap

/-- Address `a` lies in the block `b` of an address and an order. -/
def InBlock (a : Nat) (b : Nat × Nat) : Prop := b.1 ≤ a ∧ a < b.1 + PG_SIZE <<< b.2

instance (a : Nat) (b : Nat × Nat) : Decidable (InBlock a b) := inferInstanceAs (Decidable (_ ∧ _))

/-- Every block there is: the live ones and those of all free lists. -/
def blocks (h : Heap) : List (Nat × Nat) :=
  h.live ++ (List.range (MAX_ORDER + 1)).flatMap fun k => (h.kmem.listBlocks k).map fun pa => (pa, k)

/-- A page of the managed range that no user holds, by page number. -/
def FreePage (h : Heap) (n : Nat) : Prop :=
  h.kmem.free_start ≤ n * PG_SIZE ∧ n * PG_SIZE < PHYS_STOP ∧ ∀ b ∈ h.live, ¬ InBlock (n * PG_SIZE) b

/-- The calls of the allocator's interface, and the writes of its users. -/
inductive Op where
  | kalloc
  | kalloc_pages (order : Nat)
  | kfree (pa : Nat)
  | kfree_pages (pa order : Nat)
  | store (a : Nat) (v : BitVec 8)

/-- Users ask for orders there are, and return and write only what they hold. -/
def Op.Legal (h : Heap) : Op → Prop
  | .kalloc => True
  | .kalloc_pages order => order ≤ MAX_ORDER
  | .kfree pa => (pa, 0) ∈ h.live
  | .kfree_pages pa order => (pa, order) ∈ h.live
  | .store a _ => ∃ b ∈ h.live, InBlock a b

def onKmem {α : Type} (x : Prog Kmem α) : Prog Heap α :=
  Prog.onField kmem (fun s h => { h with kmem := s }) x

def take (order : Nat) (x : Prog Kmem Nat) : Prog Heap Nat := do
  let pa ← onKmem x
  if pa ≠ 0 then
    modify fun h => { h with live := (pa, order) :: h.live }
  pure pa

def giveBack (pa order : Nat) (x : Prog Kmem Unit) : Prog Heap Nat := do
  onKmem x
  modify fun h => { h with live := h.live.erase (pa, order) }
  pure 0

/-- One call, with the pointer it returns. -/
def Op.exec : Op → Prog Heap Nat
  | .kalloc => take 0 bobchouos.kalloc
  | .kalloc_pages order => take order (bobchouos.kalloc_pages order)
  | .kfree pa => giveBack pa 0 (bobchouos.kfree pa)
  | .kfree_pages pa order => giveBack pa order (bobchouos.kfree_pages pa order)
  | .store a v => do
    modify fun h => { h with kmem := { h.kmem with mem := Function.update h.kmem.mem a v } }
    pure 0

/-- The allocator as a system: it starts where `kalloc_init` returns, and its
steps are the legal calls that return. -/
def system (kernel_end : Nat) : Lts Heap Op where
  init h := ∃ s₀ s, kalloc_init kernel_end s₀ = .ok ((), s) ∧ h = ⟨s, []⟩
  step op h h' := op.Legal h ∧ ∃ r, op.exec h = .ok (r, h')

/-- Giving back a sequence of blocks. -/
def freeAll : List (Nat × Nat) → Prog Heap Unit
  | [] => pure ()
  | (pa, order) :: rest => do
    let _ ← (Op.kfree_pages pa order).exec
    freeAll rest

section Invariant

/-- A block as its users know it. -/
def pairOf (b : Block) : Nat × Nat := (blockAddr b, b.order)

theorem pairOf_injective : Function.Injective pairOf := by
  rintro ⟨k, i⟩ ⟨k', i'⟩ heq
  obtain ⟨haddr, rfl⟩ : blockAddr ⟨k, i⟩ = blockAddr ⟨k', i'⟩ ∧ k = k' := Prod.ext_iff.mp heq
  rw [blockAddr_inj haddr]

theorem inBlock_pairOf (b : Block) (a : Nat) : InBlock a (pairOf b) ↔ b.Has (a / PG_SIZE) :=
  (has_div_iff b a).symm

theorem inBlock_page (b : Block) (n : Nat) : InBlock (n * PG_SIZE) (pairOf b) ↔ b.Has n := by
  rw [inBlock_pairOf, Nat.mul_div_cancel _ (by decide)]

/-- What holds between calls: the allocator's invariant for the live blocks, all
of DRAM behind `free_start` managed, and one reference for each live block. -/
structure Inv (kernel_end : Nat) (h : Heap) (free : FreeMap) (bs : List Block) : Prop where
  live : h.live = bs.map pairOf
  buddy : BuddyInv h.kmem free bs (PHYS_STOP / PG_SIZE)
  start : h.kmem.free_start = freeStart kernel_end
  refs : ∀ b ∈ bs, (h.kmem.pa_to_page (blockAddr b)).refcount = 1

variable {kernel_end : Nat} {h : Heap} {free : FreeMap} {bs : List Block}

theorem take_spec {order : Nat} (hinv : Inv kernel_end h free bs) (horder : order ≤ MAX_ORDER) :
    wp (take order (buddy_alloc order)) (fun r h' =>
      (r = 0 ∧ h' = h ∧ ∀ j, order ≤ j → j ≤ MAX_ORDER → free j = []) ∨
      (r ≠ 0 ∧ (∀ a, InBlock a (r, order) → h'.kmem.mem a = 0) ∧
        ∃ free' i, r = blockAddr ⟨order, i⟩ ∧ Inv kernel_end h' free' (⟨order, i⟩ :: bs) ∧
          ∀ n, Block.Has ⟨order, i⟩ n → FreeMap.FreePage MAX_ORDER free n)) h := by
  unfold take onKmem
  simp only [wp_bind, wp_onField]
  refine wp_mono (buddy_alloc_spec hinv.buddy horder) ?_
  rintro r s' (⟨rfl, rfl, hempty⟩ | ⟨free', i, rfl, hr, hbuddy, halloc⟩)
  · rw [if_neg (by simp)]
    simp only [wp_pure]
    exact .inl ⟨trivial, trivial, hempty⟩
  · rw [if_pos hr]
    simp only [wp_bind, wp_modify, wp_pure]
    refine .inr ⟨hr, ?_, free', i, rfl, ⟨?_, hbuddy, ?_, ?_⟩, halloc.was_free⟩
    · intro a ha
      exact halloc.zero a ((inBlock_pairOf ⟨order, i⟩ a).mp ha)
    · rw [hinv.live]
      rfl
    · rw [← hinv.start]
      exact halloc.free_start
    · intro b hb
      rcases List.mem_cons.mp hb with rfl | hb
      · exact halloc.refcount_self
      · by_cases hself : b = ⟨order, i⟩
        · rw [hself]
          exact halloc.refcount_self
        · have hne := hbuddy.pageIdx_live_ne (List.mem_cons_of_mem _ hb) List.mem_cons_self hself
          exact (halloc.refcount_frame _ hne).trans (hinv.refs b hb)

theorem giveBack_spec {b : Block} (hinv : Inv kernel_end h free bs) (hb : b ∈ bs) :
    wp (giveBack (blockAddr b) b.order (buddy_free (blockAddr b) b.order)) (fun _ h' =>
      ∃ free', Inv kernel_end h' free' (bs.erase b)) h := by
  unfold giveBack onKmem
  simp only [wp_bind, wp_onField, wp_modify, wp_pure]
  refine wp_mono (buddy_free_spec hinv.buddy hb (hinv.refs b hb)) ?_
  rintro _ s' ⟨free', hbuddy, hfreed⟩
  refine ⟨free', ?_, hbuddy, ?_, ?_⟩
  · rw [hinv.live, List.map_erase pairOf_injective]
    rfl
  · rw [← hinv.start]
    exact hfreed.free_start
  · intro c hc
    have hcb : c ≠ b ∧ c ∈ bs := (hinv.buddy.tiled.live_nodup.mem_erase_iff).mp hc
    have hne := hinv.buddy.pageIdx_live_ne hcb.2 hb hcb.1
    exact (congrArg Page.refcount (hfreed.page_frame _ hne)).trans (hinv.refs c hcb.2)

/-- A user's write stays inside a live block, where no free list has its links. -/
theorem store_inv {a : Nat} (hinv : Inv kernel_end h free bs) (hin : ∃ b ∈ h.live, InBlock a b)
    (v : BitVec 8) :
    Inv kernel_end { h with kmem := { h.kmem with mem := Function.update h.kmem.mem a v } } free bs := by
  have hbuddy := hinv.buddy
  refine ⟨hinv.live, ⟨?_, hbuddy.coalesced, hbuddy.live_order, hbuddy.live_page, hbuddy.other_page⟩,
    hinv.start, hinv.refs⟩
  refine hbuddy.toFreeInv.of_mem (by rfl) (by rfl) ?_
  intro x hx
  obtain ⟨k, hk, hfree⟩ := hx
  have hne : x ≠ a := by
    rintro rfl
    obtain ⟨pair, hpair, hin⟩ := hin
    rw [hinv.live] at hpair
    obtain ⟨b, hb, rfl⟩ := List.mem_map.mp hpair
    exact hbuddy.tiled.not_live_of_free hk hfree rfl hb ((inBlock_pairOf b x).mp hin)
  exact Function.update_of_ne hne _ _

theorem mem_live (hinv : Inv kernel_end h free bs) {pa order : Nat} (hmem : (pa, order) ∈ h.live) :
    ∃ b ∈ bs, pa = blockAddr b ∧ order = b.order := by
  rw [hinv.live] at hmem
  obtain ⟨b, hb, heq⟩ := List.mem_map.mp hmem
  exact ⟨b, hb, (Prod.ext_iff.mp heq).1.symm, (Prod.ext_iff.mp heq).2.symm⟩

/-- The order of the block that an allocating call asks for. -/
def Op.wants : Op → Option Nat
  | .kalloc => some 0
  | .kalloc_pages order => some order
  | _ => none

/-- Every legal call returns and keeps the invariant; a block it hands out is
entirely zero. -/
theorem exec_spec {op : Op} (hinv : Inv kernel_end h free bs) (hlegal : op.Legal h) :
    wp op.exec (fun r h' => (∃ free' bs', Inv kernel_end h' free' bs') ∧
      ∀ order, op.wants = some order → r ≠ 0 → ∀ a, InBlock a (r, order) → h'.kmem.mem a = 0) h := by
  have htake : ∀ order, order ≤ MAX_ORDER → op.wants = some order →
      wp (take order (buddy_alloc order)) (fun r h' => (∃ free' bs', Inv kernel_end h' free' bs') ∧
        ∀ order, op.wants = some order → r ≠ 0 → ∀ a, InBlock a (r, order) → h'.kmem.mem a = 0) h := by
    intro order horder hwants
    refine wp_mono (take_spec hinv horder) ?_
    rintro r h' (⟨rfl, rfl, -⟩ | ⟨-, hzero, free', i, -, hinv', -⟩)
    · exact ⟨⟨free, bs, hinv⟩, fun _ _ hr => absurd rfl hr⟩
    · refine ⟨⟨free', _, hinv'⟩, fun order' hwants' _ => ?_⟩
      rw [hwants] at hwants'
      cases hwants'
      exact hzero
  cases op with
  | kalloc => exact htake 0 (Nat.zero_le _) rfl
  | kalloc_pages order => exact htake order hlegal rfl
  | kfree pa =>
    obtain ⟨b, hb, rfl, horder⟩ := mem_live hinv hlegal
    have hspec := giveBack_spec hinv hb
    rw [← horder] at hspec
    exact wp_mono hspec fun _ _ ⟨free', hinv'⟩ => ⟨⟨free', _, hinv'⟩, fun _ hwants => by cases hwants⟩
  | kfree_pages pa order =>
    obtain ⟨b, hb, rfl, rfl⟩ := mem_live hinv hlegal
    exact wp_mono (giveBack_spec hinv hb) fun _ _ ⟨free', hinv'⟩ =>
      ⟨⟨free', _, hinv'⟩, fun _ hwants => by cases hwants⟩
  | store a v =>
    unfold Op.exec
    simp only [wp_bind, wp_modify, wp_pure]
    exact ⟨⟨free, bs, store_inv hinv hlegal v⟩, fun _ hwants => by cases hwants⟩

theorem inv_of_init {s₀ s : Kmem} (hlo : KERN_BASE ≤ freeStart kernel_end)
    (hhi : freeStart kernel_end ≤ PHYS_STOP) (hinit : kalloc_init kernel_end s₀ = .ok ((), s)) :
    ∃ free, Inv kernel_end ⟨s, []⟩ free [] := by
  obtain ⟨hstart, free, hbuddy⟩ := (kalloc_init_spec s₀ hlo hhi).post hinit
  exact ⟨free, rfl, hbuddy, hstart, by simp⟩

theorem inv_of_reachable (hlo : KERN_BASE ≤ freeStart kernel_end) (hhi : freeStart kernel_end ≤ PHYS_STOP)
    (hreach : (system kernel_end).Reachable h) : ∃ free bs, Inv kernel_end h free bs := by
  apply hreach.invariant
  · intro h ⟨s₀, s, hinit, heq⟩
    obtain ⟨free, hinv⟩ := inv_of_init hlo hhi hinit
    rw [heq]
    exact ⟨free, [], hinv⟩
  · intro op h h' ⟨free, bs, hinv⟩ ⟨hlegal, r, hexec⟩
    exact ((exec_spec hinv hlegal).post hexec).1

end Invariant

section Partition

variable {kernel_end : Nat} {h : Heap} {free : FreeMap} {bs : List Block} {k : Nat}

theorem listBlocks_eq (hinv : Inv kernel_end h free bs) (hk : k ≤ MAX_ORDER) :
    h.kmem.listBlocks k = (free k).map fun i => blockAddr ⟨k, i⟩ := by
  apply Chain.walk_eq (hinv.buddy.chain k hk)
  rw [List.length_map]
  exact Nat.le_succ_of_le (hinv.buddy.length_le hk)

theorem mem_listBlocks (hinv : Inv kernel_end h free bs) (hk : k ≤ MAX_ORDER) (i : Nat) :
    blockAddr ⟨k, i⟩ ∈ h.kmem.listBlocks k ↔ i ∈ free k := by
  rw [listBlocks_eq hinv hk, List.mem_map]
  constructor
  · rintro ⟨j, hj, heq⟩
    rw [← blockAddr_inj heq]
    exact hj
  · intro hi
    exact ⟨i, hi, rfl⟩

theorem mem_blocks (hinv : Inv kernel_end h free bs) {pair : Nat × Nat} (hpair : pair ∈ h.blocks) :
    ∃ b : Block, pair = pairOf b ∧ (b ∈ bs ∨ b.order ≤ MAX_ORDER ∧ b.index ∈ free b.order) := by
  rcases List.mem_append.mp hpair with hlive | hfree
  · rw [hinv.live] at hlive
    obtain ⟨b, hb, rfl⟩ := List.mem_map.mp hlive
    exact ⟨b, rfl, .inl hb⟩
  · obtain ⟨k, hk, hmem⟩ := List.mem_flatMap.mp hfree
    have hk' : k ≤ MAX_ORDER := Nat.le_of_lt_succ (List.mem_range.mp hk)
    rw [listBlocks_eq hinv hk', List.map_map] at hmem
    obtain ⟨i, hi, rfl⟩ := List.mem_map.mp hmem
    exact ⟨⟨k, i⟩, rfl, .inr ⟨hk', hi⟩⟩

/-- Each address of the managed range is in exactly one block, counting every
occurrence on the free lists, and no other address is in a block. -/
theorem countP_blocks (hinv : Inv kernel_end h free bs) (a : Nat) :
    h.blocks.countP (fun b => InBlock a b) =
      if h.kmem.free_start / PG_SIZE ≤ a / PG_SIZE ∧ a / PG_SIZE < PHYS_STOP / PG_SIZE then 1 else 0 := by
  rw [← hinv.buddy.tiled (a / PG_SIZE), blocks, List.countP_append, Nat.add_comm]
  congr 1
  · have hsum : FreeMap.cover MAX_ORDER free (a / PG_SIZE) =
        ((List.range (MAX_ORDER + 1)).map fun k => (free k).count (a / PG_SIZE / 2 ^ k)).sum := rfl
    rw [hsum, List.countP_flatMap]
    congr 1
    apply List.map_congr_left
    intro k hk
    have hk' : k ≤ MAX_ORDER := Nat.le_of_lt_succ (List.mem_range.mp hk)
    simp only [Function.comp_apply]
    rw [listBlocks_eq hinv hk', List.map_map, List.countP_map, List.count]
    apply List.countP_congr
    intro i _
    have hin := inBlock_pairOf ⟨k, i⟩ a
    simp only [pairOf, Block.Has] at hin
    simp only [Function.comp_apply, decide_eq_true_eq, hin, beq_iff_eq]
    exact eq_comm
  · rw [hinv.live, List.countP_map, FreeMap.liveCover]
    apply List.countP_congr
    intro b _
    simp only [Function.comp_apply, decide_eq_true_eq, inBlock_pairOf]

theorem pairwise_of_countP_le_one {α β : Type} (P : α → β → Prop) [∀ a b, Decidable (P a b)]
    (l : List β) (h : ∀ a, l.countP (fun b => P a b) ≤ 1) :
    l.Pairwise fun b c => ∀ a, P a b → ¬ P a c := by
  induction l with
  | nil => exact List.Pairwise.nil
  | cons b l ih =>
    refine List.Pairwise.cons ?_ (ih fun a => ?_)
    · intro c hc a hb hcP
      have hone := h a
      rw [List.countP_cons_of_pos (by simpa using hb)] at hone
      have hpos : 0 < l.countP fun b => P a b := List.countP_pos_iff.mpr ⟨c, hc, by simpa using hcP⟩
      omega
    · exact Nat.le_trans (List.sublist_cons_self b l).countP_le (h a)

/-- The spatial state of the allocator, in terms of the source's data: the list
heads, the links in memory, the counters and the `struct page` array. -/
structure Partition (h : Heap) : Prop where
  /-- Each list ends in null, has no block twice, and `nr_free` is its length. -/
  lists : ∀ k ≤ MAX_ORDER,
    Chain h.kmem.next (h.kmem.free_areas k).free_list (h.kmem.listBlocks k) ∧
      (h.kmem.listBlocks k).Nodup ∧ (h.kmem.free_areas k).nr_free = (h.kmem.listBlocks k).length
  aligned : ∀ b ∈ h.blocks, b.2 ≤ MAX_ORDER ∧ b.1 % (PG_SIZE <<< b.2) = 0
  inside : ∀ b ∈ h.blocks, h.kmem.free_start ≤ b.1 ∧ b.1 + PG_SIZE <<< b.2 ≤ PHYS_STOP
  disjoint : h.blocks.Pairwise fun b c => ∀ a, InBlock a b → ¬ InBlock a c
  covered : ∀ a, h.kmem.free_start ≤ a → a < PHYS_STOP → ∃ b ∈ h.blocks, InBlock a b
  live_page : ∀ b ∈ h.live, 1 ≤ (h.kmem.pa_to_page b.1).refcount ∧ (h.kmem.pa_to_page b.1).order = b.2
  other_page : ∀ a, a % PG_SIZE = 0 → h.kmem.free_start ≤ a → a < PHYS_STOP →
    (∀ b ∈ h.live, b.1 ≠ a) → (h.kmem.pa_to_page a).refcount = 0

theorem partition_of_inv (hinv : Inv kernel_end h free bs) : Partition h := by
  have hbuddy := hinv.buddy
  have hrange : ∀ b : Block, (b ∈ bs ∨ b.order ≤ MAX_ORDER ∧ b.index ∈ free b.order) →
      h.kmem.free_start ≤ blockAddr b ∧ blockAddr b + PG_SIZE <<< b.order ≤ PHYS_STOP := by
    rintro b (hb | ⟨hk, hb⟩)
    · exact hbuddy.range_of_held hb
    · exact hbuddy.range_of_free hk hb
  refine ⟨?_, ?_, ?_, ?_, ?_, ?_, ?_⟩
  · intro k hk
    rw [listBlocks_eq hinv hk]
    refine ⟨hbuddy.chain k hk, ?_, ?_⟩
    · exact (hbuddy.tiled.nodup hk).map fun i j hij => blockAddr_inj hij
    · rw [List.length_map]
      exact hbuddy.count k hk
  · intro pair hpair
    obtain ⟨b, rfl, hb⟩ := mem_blocks hinv hpair
    refine ⟨?_, ?_⟩
    · rcases hb with hb | ⟨hk, -⟩
      · exact hbuddy.live_order b hb
      · exact hk
    · simp only [pairOf, blockAddr, Block.base, PG_SIZE_shiftLeft, Nat.mul_assoc]
      exact Nat.mul_mod_left _ _
  · intro pair hpair
    obtain ⟨b, rfl, hb⟩ := mem_blocks hinv hpair
    exact hrange b hb
  · apply pairwise_of_countP_le_one
    intro a
    rw [countP_blocks hinv]
    split <;> omega
  · intro a hlo hhi
    have hcount := countP_blocks hinv a
    rw [if_pos (by simp only [PG_SIZE, PHYS_STOP] at *; omega)] at hcount
    obtain ⟨b, hb, hin⟩ := List.countP_pos_iff.mp (by rw [hcount]; exact Nat.one_pos)
    exact ⟨b, hb, by simpa using hin⟩
  · intro pair hpair
    rw [hinv.live] at hpair
    obtain ⟨b, hb, rfl⟩ := List.mem_map.mp hpair
    exact hbuddy.live_page b hb
  · intro a haligned hlo hhi hnone
    have hpage : a / PG_SIZE * PG_SIZE = a := Nat.div_mul_cancel (Nat.dvd_of_mod_eq_zero haligned)
    rw [← hpage] at hlo hhi ⊢
    refine hbuddy.other_page (a / PG_SIZE) hlo hhi fun b hb hbase => ?_
    apply hnone (pairOf b)
    · rw [hinv.live]
      exact List.mem_map_of_mem hb
    · rw [← hpage, ← hbase]
      rfl

/-- `kalloc_init` returns for every `free_start` in DRAM, and after it, whatever
sequence of calls followed, the free blocks and the live blocks partition the
managed range and the `struct page` array marks exactly the live blocks. Every
further call returns, and a block it hands out is entirely zero. -/
theorem kalloc_partition (kernel_end : Nat) (hlo : KERN_BASE ≤ freeStart kernel_end)
    (hhi : freeStart kernel_end ≤ PHYS_STOP) :
    (∀ s₀, ∃ s, kalloc_init kernel_end s₀ = .ok ((), s)) ∧
      ∀ h, (system kernel_end).Reachable h → h.kmem.free_start = freeStart kernel_end ∧ Partition h ∧
        ∀ op : Op, op.Legal h → ∃ r h', op.exec h = .ok (r, h') ∧
          ∀ order, op.wants = some order → r ≠ 0 → ∀ a, InBlock a (r, order) → h'.kmem.mem a = 0 := by
  refine ⟨?_, ?_⟩
  · intro s₀
    obtain ⟨_, s, hinit, -⟩ := kalloc_init_spec s₀ hlo hhi
    exact ⟨s, hinit⟩
  · intro h hreach
    obtain ⟨free, bs, hinv⟩ := inv_of_reachable hlo hhi hreach
    refine ⟨hinv.start, partition_of_inv hinv, ?_⟩
    intro op hlegal
    obtain ⟨r, h', hexec, -, hzero⟩ := exec_spec hinv hlegal
    exact ⟨r, h', hexec, hzero⟩

/-- A kernel image of 256 KiB: the range is managed after boot and one call. -/
theorem kalloc_partition_small_kernel :
    KERN_BASE ≤ freeStart 0x80040000 ∧ freeStart 0x80040000 ≤ PHYS_STOP ∧
      ∃ h, (system 0x80040000).Reachable h ∧ Partition h := by
  have hstart := freeStart_eq (k := 0x80040000) (by decide)
  have hlo : KERN_BASE ≤ freeStart 0x80040000 := by rw [hstart]; decide
  have hhi : freeStart 0x80040000 ≤ PHYS_STOP := by rw [hstart]; decide
  obtain ⟨hinit, hrun⟩ := kalloc_partition 0x80040000 hlo hhi
  obtain ⟨s, hs⟩ := hinit ⟨fun _ => 0, fun _ => {}, fun _ => {}, 0, fun _ => {}⟩
  have hboot : (system 0x80040000).Reachable ⟨s, []⟩ := .init ⟨_, s, hs, rfl⟩
  obtain ⟨-, -, hcall⟩ := hrun _ hboot
  obtain ⟨r, h, hexec, -⟩ := hcall .kalloc trivial
  have hreach : (system 0x80040000).Reachable h := hboot.step (a := .kalloc) ⟨trivial, r, hexec⟩
  exact ⟨hlo, hhi, h, hreach, (hrun h hreach).2.1⟩

end Partition

section Coalescing

variable {kernel_end : Nat} {h : Heap} {free : FreeMap} {bs : List Block} {k : Nat}

theorem freePage_iff (hinv : Inv kernel_end h free bs) (n : Nat) :
    h.FreePage n ↔ FreeMap.FreePage MAX_ORDER free n := by
  have hbuddy := hinv.buddy
  have haligned := hbuddy.start_aligned
  constructor
  · rintro ⟨hlo, hhi, hnone⟩
    rcases hbuddy.tiled.covered (n := n) (by simp only [PG_SIZE] at *; omega)
      (by simp only [PG_SIZE, PHYS_STOP] at *; omega) with hfree | ⟨b, hb, hin⟩
    · exact hfree
    · refine absurd ((inBlock_page b n).mpr hin) (hnone _ ?_)
      rw [hinv.live]
      exact List.mem_map_of_mem hb
  · rintro ⟨k, hk, hfree⟩
    have hrange := hbuddy.tiled.range_of_free hk hfree rfl
    refine ⟨by simp only [PG_SIZE] at *; omega, by simp only [PG_SIZE, PHYS_STOP] at *; omega, ?_⟩
    intro pair hpair hin
    rw [hinv.live] at hpair
    obtain ⟨b, hb, rfl⟩ := List.mem_map.mp hpair
    exact hbuddy.tiled.not_live_of_free hk hfree rfl hb ((inBlock_page b n).mp hin)

/-- States with the same live blocks have the same free lists, as sets. -/
theorem mem_free_congr {h' : Heap} {free' : FreeMap} {bs' : List Block}
    (hinv : Inv kernel_end h free bs) (hinv' : Inv kernel_end h' free' bs') (hlive : h.live = h'.live)
    (hk : k ≤ MAX_ORDER) (i : Nat) : i ∈ free k ↔ i ∈ free' k := by
  have hstart : h'.kmem.free_start = h.kmem.free_start := hinv'.start.trans hinv.start.symm
  have htiled := hinv'.buddy.tiled
  rw [hstart] at htiled
  apply hinv.buddy.tiled.mem_congr hinv.buddy.coalesced htiled hinv'.buddy.coalesced _ hk
  intro n
  rw [← freePage_iff hinv, ← freePage_iff hinv', FreePage, FreePage, hstart, hlive]

/-- The live blocks can be given back in any order. -/
theorem freeAll_spec (l : List (Nat × Nat)) (hinv : Inv kernel_end h free bs) (hperm : l.Perm h.live) :
    wp (freeAll l) (fun _ h' => ∃ free', Inv kernel_end h' free' []) h := by
  induction l generalizing h free bs with
  | nil =>
    have hbs : bs = [] := by
      rw [hinv.live, List.nil_perm] at hperm
      exact List.map_eq_nil_iff.mp hperm
    subst hbs
    exact wp_pure.mpr ⟨free, hinv⟩
  | cons pair l ih =>
    obtain ⟨pa, order⟩ := pair
    obtain ⟨b, hb, rfl, rfl⟩ := mem_live hinv (hperm.subset List.mem_cons_self)
    simp only [freeAll, wp_bind]
    refine wp_mono (giveBack_spec hinv hb) ?_
    rintro _ h' ⟨free', hinv'⟩
    apply ih hinv'
    rw [hinv'.live, List.map_erase pairOf_injective, ← hinv.live]
    simpa [pairOf] using hperm.erase (pairOf b)

/-- Buddies below the top order are never both free, so the free lists are the
maximal blocks of the set of free pages: an allocation fails only when no
aligned run of its size is free, and giving everything back in any order
restores the lists `kalloc_init` built. -/
theorem kalloc_coalesced (kernel_end : Nat) (hlo : KERN_BASE ≤ freeStart kernel_end)
    (hhi : freeStart kernel_end ≤ PHYS_STOP) (h : Heap)
    (hreach : (system kernel_end).Reachable h) :
    (∀ k < MAX_ORDER, ∀ pa ∈ h.kmem.listBlocks k, pa ^^^ (PG_SIZE <<< k) ∉ h.kmem.listBlocks k) ∧
      (∀ k pa, k ≤ MAX_ORDER ∧ pa ∈ h.kmem.listBlocks k ↔
        ∃ i, pa = blockAddr ⟨k, i⟩ ∧ FreeMap.IsMaximal MAX_ORDER h.FreePage ⟨k, i⟩) ∧
      (∀ order ≤ MAX_ORDER, ∃ r h', (Op.kalloc_pages order).exec h = .ok (r, h') ∧
        (r = 0 ↔ ¬ ∃ i, ∀ n, Block.Has ⟨order, i⟩ n → h.FreePage n)) ∧
      (∀ s₀ s₁, kalloc_init kernel_end s₀ = .ok ((), s₁) → ∀ l, l.Perm h.live →
        ∃ h', freeAll l h = .ok ((), h') ∧ h'.live = [] ∧
          ∀ k ≤ MAX_ORDER, ∀ pa, pa ∈ h'.kmem.listBlocks k ↔ pa ∈ s₁.listBlocks k) := by
  obtain ⟨free, bs, hinv⟩ := inv_of_reachable hlo hhi hreach
  have hpages : h.FreePage = FreeMap.FreePage MAX_ORDER free := by
    funext n
    exact propext (freePage_iff hinv n)
  refine ⟨?_, ?_, ?_, ?_⟩
  · intro k hk pa hpa hbuddy
    rw [listBlocks_eq hinv (Nat.le_of_lt hk)] at hpa
    obtain ⟨i, hi, rfl⟩ := List.mem_map.mp hpa
    rw [blockAddr_xor, mem_listBlocks hinv (Nat.le_of_lt hk)] at hbuddy
    exact hinv.buddy.coalesced k hk i hi hbuddy
  · intro k pa
    rw [hpages]
    constructor
    · rintro ⟨hk, hpa⟩
      rw [listBlocks_eq hinv hk] at hpa
      obtain ⟨i, hi, rfl⟩ := List.mem_map.mp hpa
      exact ⟨i, rfl, (hinv.buddy.tiled.mem_iff_isMaximal hinv.buddy.coalesced).mp ⟨hk, hi⟩⟩
    · rintro ⟨i, rfl, hmax⟩
      have hmem := (hinv.buddy.tiled.mem_iff_isMaximal hinv.buddy.coalesced).mpr hmax
      exact ⟨hmem.1, (mem_listBlocks hinv hmem.1 i).mpr hmem.2⟩
  · intro order horder
    obtain ⟨r, h', hexec, hresult⟩ := take_spec hinv horder
    refine ⟨r, h', hexec, ?_⟩
    rw [hpages]
    rcases hresult with ⟨hr, -, hempty⟩ | ⟨hr, -, _, i, -, -, hrun⟩
    · refine iff_of_true hr fun hrun => ?_
      obtain ⟨j, hj, hmax, hne⟩ := (hinv.buddy.coalesced.exists_run_iff horder).mp hrun
      exact hne (hempty j hj hmax)
    · exact iff_of_false hr fun hnone => hnone ⟨i, hrun⟩
  · intro s₀ s₁ hinit l hperm
    obtain ⟨_, h', hrun, free', hinv'⟩ := freeAll_spec l hinv hperm
    refine ⟨h', hrun, hinv'.live, ?_⟩
    obtain ⟨free₁, hinv₁⟩ := inv_of_init hlo hhi hinit
    intro k hk pa
    have hsame : ∀ i, i ∈ free' k ↔ i ∈ free₁ k := fun i =>
      mem_free_congr hinv' hinv₁ (by rw [hinv'.live]; rfl) hk i
    have hlist₁ := listBlocks_eq hinv₁ hk
    dsimp only at hlist₁
    rw [listBlocks_eq hinv' hk, hlist₁]
    simp only [List.mem_map, hsame]

theorem kalloc_coalesced_small_kernel :
    ∃ h, (system 0x80040000).Reachable h ∧
      ∀ k < MAX_ORDER, ∀ pa ∈ h.kmem.listBlocks k, pa ^^^ (PG_SIZE <<< k) ∉ h.kmem.listBlocks k := by
  have hstart := freeStart_eq (k := 0x80040000) (by decide)
  have hlo : KERN_BASE ≤ freeStart 0x80040000 := by rw [hstart]; decide
  have hhi : freeStart 0x80040000 ≤ PHYS_STOP := by rw [hstart]; decide
  obtain ⟨_, s, hs, -⟩ :=
    kalloc_init_spec ⟨fun _ => 0, fun _ => {}, fun _ => {}, 0, fun _ => {}⟩ hlo hhi
  have hboot : (system 0x80040000).Reachable ⟨s, []⟩ := .init ⟨_, s, hs, rfl⟩
  exact ⟨_, hboot, (kalloc_coalesced 0x80040000 hlo hhi _ hboot).1⟩

end Coalescing

end Heap

end bobchouos
