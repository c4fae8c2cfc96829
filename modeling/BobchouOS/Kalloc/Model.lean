import BobchouOS.Layout
import BobchouOS.Lib.Memory
import BobchouOS.Lib.Wp
import Mathlib

open lib

namespace bobchouos

def MAX_ORDER : Nat := 10

/-- `nr_pages`: the number of `struct page` entries, one for each page of DRAM. -/
def NR_PAGES : Nat := (PHYS_STOP - KERN_BASE) >>> PG_SHIFT

/-- `sizeof(struct page)`: four bytes of counters, padding and the slab fields. -/
def SIZEOF_PAGE : Nat := 32

/-- The slab member of the union in `struct page`. A `struct page *` is
represented by the physical address of the page it describes, null by 0. -/
structure SlabInfo where
  class_idx : Nat := 0
  nr_alloc : Nat := 0
  free_list : Nat := 0
  next_slab : Nat := 0
  deriving DecidableEq, Repr

/-- `struct page`. The counters are 16 and 8 bits wide in the source. -/
structure Page where
  refcount : Nat := 0
  order : Nat := 0
  flags : Nat := 0
  slab : SlabInfo := {}
  deriving DecidableEq, Repr

/-- `struct free_area`. -/
structure FreeArea where
  free_list : Nat := 0
  nr_free : Nat := 0
  deriving DecidableEq, Repr

/-- `struct size_class` of the slab allocator. -/
structure SizeClass where
  slot_size : Nat := 0
  slabs : Nat := 0
  deriving DecidableEq, Repr

/-- The memory-management state of the kernel: physical memory and the static
variables of `kalloc.c` and `kmalloc.c`. Free blocks and free slots keep their
links inside `mem`, as in the source. -/
structure Kmem where
  mem : Mem
  pages : Nat → Page
  free_areas : Nat → FreeArea
  free_start : Nat
  size_classes : Nat → SizeClass

namespace Kmem

/-- Index of the `struct page` of a physical address, as in `pa_to_page`. -/
def pageIdx (pa : Nat) : Nat := (pa - KERN_BASE) >>> PG_SHIFT

/-- `pa_to_page`. -/
def pa_to_page (s : Kmem) (pa : Nat) : Page := s.pages (pageIdx pa)

/-- Overwriting the `struct page` of an address. -/
def setPage (s : Kmem) (pa : Nat) (pg : Page) : Kmem :=
  { s with pages := Function.update s.pages (pageIdx pa) pg }

/-- `b->next` of a free block. -/
def next (s : Kmem) (b : Nat) : Nat := (s.mem.loadWord b).toNat

/-- The three statements that put a block at the front of an order's list. -/
def pushFree (s : Kmem) (order b : Nat) : Kmem :=
  { s with
    mem := s.mem.storeWord b (BitVec.ofNat 64 (s.free_areas order).free_list)
    free_areas := Function.update s.free_areas order
      ⟨b, (s.free_areas order).nr_free + 1⟩ }

/-- The two statements that take the first block off an order's list. -/
def popFree (s : Kmem) (order : Nat) : Kmem :=
  { s with
    free_areas := Function.update s.free_areas order
      ⟨s.next (s.free_areas order).free_list, (s.free_areas order).nr_free - 1⟩ }

/-- What `pb` points at while `buddy_free` searches a free list: the list head
of an order, or the `next` field of a block. -/
inductive LinkPtr where
  | head (order : Nat)
  | next (b : Nat)
  deriving DecidableEq, Repr

def readLink (s : Kmem) : LinkPtr → Nat
  | .head order => (s.free_areas order).free_list
  | .next b => s.next b

def writeLink (s : Kmem) (v : Nat) : LinkPtr → Kmem
  | .head order =>
    { s with free_areas := Function.update s.free_areas order ⟨v, (s.free_areas order).nr_free⟩ }
  | .next b => { s with mem := s.mem.storeWord b (BitVec.ofNat 64 v) }

end Kmem

/-- The upward search of `buddy_alloc`. The first argument is the number of
orders left above `found_order`. -/
def searchUp (s : Kmem) : Nat → Nat → Option Nat
  | 0, found_order =>
    if (s.free_areas found_order).free_list ≠ 0 then some found_order else none
  | left + 1, found_order =>
    if (s.free_areas found_order).free_list ≠ 0 then some found_order
    else searchUp s left (found_order + 1)

/-- The splitting loop of `buddy_alloc`, for `count` orders from `i` upward. -/
def splitDown (b : Nat) : Nat → Nat → Kmem → Kmem
  | 0, _, s => s
  | count + 1, i, s =>
    let buddy := b ^^^ (PG_SIZE <<< i)
    let s := s.setPage buddy { s.pa_to_page buddy with order := i }
    splitDown b count (i + 1) (s.pushFree i buddy)

/-- The statements after the split: zero the block and record it. -/
def claim (b order : Nat) (s : Kmem) : Kmem :=
  let s := { s with mem := s.mem.memset b 0 (PG_SIZE <<< order) }
  s.setPage b { s.pa_to_page b with order := order, refcount := 1 }

/-- `buddy_alloc`. Null is 0. -/
def buddy_alloc (order : Nat) : Prog Kmem Nat := do
  if order > MAX_ORDER then
    Prog.panic "buddy_alloc: order=%d"
  else
    let s ← get
    match searchUp s (MAX_ORDER - order) order with
    | none => pure 0
    | some found_order =>
      let b := (s.free_areas found_order).free_list
      modify fun s => s.popFree found_order
      modify (splitDown b (found_order - order) order)
      modify (claim b order)
      pure b

/-- The search of `buddy_free` for a block on a free list: the link that points
at it, or the last link of the list. A list that is longer than there are pages
is cyclic, and the source's loop then never ends. -/
def findLink (s : Kmem) (buddy : Nat) : Nat → Kmem.LinkPtr → Option Kmem.LinkPtr
  | 0, _ => none
  | fuel + 1, pb =>
    if s.readLink pb = 0 ∨ s.readLink pb = buddy then some pb
    else findLink s buddy fuel (.next (s.readLink pb))

/-- Unlinking `*pb` from an order's list. -/
def unlink (order : Nat) (pb : Kmem.LinkPtr) (s : Kmem) : Kmem :=
  let s := s.writeLink (s.next (s.readLink pb)) pb
  { s with
    free_areas := Function.update s.free_areas order
      ⟨(s.free_areas order).free_list, (s.free_areas order).nr_free - 1⟩ }

/-- The merge loop of `buddy_free`. The first argument is the number of orders
left above `order`. Returns the final `addr` and `order`. -/
def coalesce : Nat → Nat → Nat → Prog Kmem (Nat × Nat)
  | 0, addr, order => pure (addr, order)
  | left + 1, addr, order => do
    let s ← get
    let buddy := addr ^^^ (PG_SIZE <<< order)
    if buddy < s.free_start ∨ buddy ≥ PHYS_STOP ∨ (s.pa_to_page buddy).refcount ≠ 0 then
      pure (addr, order)
    else
      match findLink s buddy (NR_PAGES + 1) (.head order) with
      | none => Prog.diverge
      | some pb =>
        if s.readLink pb = 0 then
          pure (addr, order)
        else do
          modify (unlink order pb)
          coalesce left (addr.ldiff (PG_SIZE <<< order)) (order + 1)

/-- The fill and the reference count update of `buddy_free`. -/
def release (pa order : Nat) (s : Kmem) : Kmem :=
  let s := { s with mem := s.mem.memset pa 1 (PG_SIZE <<< order) }
  s.setPage pa { s.pa_to_page pa with refcount := 0 }

/-- `buddy_free`. -/
def buddy_free (pa order : Nat) : Prog Kmem Unit := do
  let s ← get
  if order > MAX_ORDER ∨ pa % (PG_SIZE <<< order) ≠ 0 ∨ pa < s.free_start ∨ pa ≥ PHYS_STOP then
    Prog.panic "buddy_free: invalid pa=%p order=%d"
  else if (s.pa_to_page pa).refcount ≠ 1 ∨ (s.pa_to_page pa).order ≠ order then
    Prog.panic "buddy_free: pa=%p order=%d refcount=%d pg->order=%d"
  else do
    modify (release pa order)
    let (addr, merged) ← coalesce (MAX_ORDER - order) pa order
    modify fun s => s.pushFree merged addr

/-- The inner loop of `kalloc_init`: the largest order that is aligned at `addr`
and does not pass the end of DRAM. -/
def largestOrder (addr : Nat) : Nat → Nat → Nat
  | 0, order => order
  | left + 1, order =>
    if addr + (PG_SIZE <<< (order + 1)) ≤ PHYS_STOP ∧ addr % (PG_SIZE <<< (order + 1)) = 0 then
      largestOrder addr left (order + 1)
    else order

/-- The outer loop of `kalloc_init`. Every round advances by at least a page. -/
def addBlocks : Nat → Nat → Prog Kmem Unit
  | 0, addr => if addr < PHYS_STOP then Prog.diverge else pure ()
  | fuel + 1, addr =>
    if addr < PHYS_STOP then do
      let order := largestOrder addr MAX_ORDER 0
      modify fun s => s.setPage addr { s.pa_to_page addr with refcount := 1, order := order }
      buddy_free addr order
      addBlocks fuel (addr + (PG_SIZE <<< order))
    else pure ()

/-- `free_start` as `kalloc_init` computes it from the linker's `_kernel_end`:
the first page behind the `struct page` array. -/
def freeStart (kernel_end : Nat) : Nat :=
  PG_ROUND_UP (PG_ROUND_UP kernel_end + NR_PAGES * SIZEOF_PAGE)

/-- The state in which the block loop of `kalloc_init` starts: the page array is
cleared, and the static `free_areas` are still zero from boot. -/
def cleared (kernel_end : Nat) (s : Kmem) : Kmem :=
  { s with
    pages := fun _ => {}
    free_areas := fun _ => {}
    free_start := freeStart kernel_end }

/-- `kalloc_init`. -/
def kalloc_init (kernel_end : Nat) : Prog Kmem Unit := do
  modify (cleared kernel_end)
  addBlocks (NR_PAGES + 1) (freeStart kernel_end)

/-- `kalloc`. -/
def kalloc : Prog Kmem Nat := buddy_alloc 0

/-- `kfree`. -/
def kfree (pa : Nat) : Prog Kmem Unit := buddy_free pa 0

/-- `kalloc_pages`. -/
def kalloc_pages (order : Nat) : Prog Kmem Nat := buddy_alloc order

/-- `kfree_pages`. -/
def kfree_pages (pa order : Nat) : Prog Kmem Unit := buddy_free pa order

end bobchouos
