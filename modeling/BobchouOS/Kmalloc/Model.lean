import BobchouOS.Kalloc.Model

open lib

namespace bobchouos

def PG_SLAB : Nat := 1
def PG_BIG : Nat := 2

def NR_SIZE_CLASSES : Nat := 7
def MIN_ALLOC_SIZE : Nat := 32
def MAX_SLAB_SIZE : Nat := 2048

/-- `page_to_pa(pa_to_page(pa))`: the address that stands for the `struct page`
of `pa`. -/
def Kmem.pageBase (pa : Nat) : Nat := KERN_BASE + Kmem.pageIdx pa <<< PG_SHIFT

/-- `size_to_class`. The source's -1 is `none`. -/
def size_to_class (s : Kmem) (size : Nat) : Option Nat :=
  (List.range NR_SIZE_CLASSES).find? fun i => size ≤ (s.size_classes i).slot_size

/-- The loop of `slab_create` that threads the free list through the slots, with
`left` slots behind `slot`. -/
def threadSlots (slot_size : Nat) : Nat → Nat → Mem → Mem
  | 0, slot, m => m.storeWord slot 0
  | left + 1, slot, m =>
    threadSlots slot_size left (slot + slot_size) (m.storeWord slot (BitVec.ofNat 64 (slot + slot_size)))

/-- `slab_create`. The slab is represented by the address of its page. -/
def slab_create (class_idx : Nat) : Prog Kmem Nat :=
  if class_idx ≥ NR_SIZE_CLASSES then
    Prog.panic "slab_create: class_idx=%d"
  else do
    let slot ← kalloc
    if slot = 0 then
      pure 0
    else do
      modify fun s => s.setPage slot
        { s.pa_to_page slot with flags := PG_SLAB, slab := ⟨class_idx, 0, slot, 0⟩ }
      modify fun s =>
        let slot_size := (s.size_classes class_idx).slot_size
        { s with mem := threadSlots slot_size (PG_SIZE / slot_size - 1) slot s.mem }
      pure slot

namespace Kmem

/-- `*ps` in `slab_destroy`: the head of the class's list, or the link of the
slab `prev`. -/
def slabLink (s : Kmem) (class_idx prev : Nat) : Nat :=
  if prev = 0 then (s.size_classes class_idx).slabs else (s.pa_to_page prev).slab.next_slab

def setSlabs (s : Kmem) (class_idx v : Nat) : Kmem :=
  { s with size_classes := Function.update s.size_classes class_idx ⟨(s.size_classes class_idx).slot_size, v⟩ }

/-- Overwriting the slab member of a `struct page`. -/
def setSlab (s : Kmem) (pa : Nat) (slab : SlabInfo) : Kmem :=
  s.setPage pa { s.pa_to_page pa with slab := slab }

def setSlabLink (s : Kmem) (class_idx prev v : Nat) : Kmem :=
  if prev = 0 then s.setSlabs class_idx v
  else s.setSlab prev { (s.pa_to_page prev).slab with next_slab := v }

end Kmem

/-- The search of `slab_destroy` along the class's list: the slab in front of the
one that is sought, or of the end of the list. A list longer than there are
pages is cyclic. -/
def findSlab (s : Kmem) (class_idx slab : Nat) : Nat → Nat → Option Nat
  | 0, _ => none
  | fuel + 1, prev =>
    if s.slabLink class_idx prev = 0 ∨ s.slabLink class_idx prev = slab then some prev
    else findSlab s class_idx slab fuel (s.slabLink class_idx prev)

/-- `slab_destroy`. -/
def slab_destroy (slab class_idx : Nat) : Prog Kmem Unit :=
  if slab = 0 ∨ class_idx ≥ NR_SIZE_CLASSES then
    Prog.panic "slab_destroy: slab=%p class_idx=%d"
  else do
    let s ← get
    match findSlab s class_idx slab (NR_PAGES + 1) 0 with
    | none => Prog.diverge
    | some prev =>
      if s.slabLink class_idx prev = 0 then
        Prog.panic "slab_destroy: slab=%p not found in class %d"
      else if (s.pa_to_page (s.size_classes class_idx).slabs).slab.next_slab = 0 then
        pure ()
      else do
        modify fun s => s.setSlabLink class_idx prev (s.pa_to_page slab).slab.next_slab
        modify fun s => s.setPage slab { s.pa_to_page slab with flags := 0 }
        kfree slab

/-- The search of `kmalloc` for a slab with a free slot, null if there is none. -/
def findFree (s : Kmem) : Nat → Nat → Option Nat
  | 0, _ => none
  | fuel + 1, slab =>
    if slab ≠ 0 ∧ (s.pa_to_page slab).slab.free_list = 0 then
      findFree s fuel (s.pa_to_page slab).slab.next_slab
    else some slab

/-- The last statements of `kmalloc`: take the first free slot of a slab. -/
def takeSlot (slab : Nat) : Prog Kmem Nat := do
  let s ← get
  let info := (s.pa_to_page slab).slab
  modify fun s => s.setSlab slab { info with
    nr_alloc := (info.nr_alloc + 1) % 2 ^ 16
    free_list := s.next info.free_list }
  pure info.free_list

/-- The part of `kmalloc` for more than `MAX_SLAB_SIZE` bytes. -/
def kmallocBig (size : Nat) : Prog Kmem Nat :=
  match (List.range (MAX_ORDER + 1)).find? fun order => size ≤ PG_SIZE <<< order with
  | none => Prog.panic "kmalloc: size=%d exceeds limit"
  | some order => do
    let pa ← kalloc_pages order
    if pa = 0 then
      pure 0
    else do
      modify fun s => s.setPage pa { s.pa_to_page pa with flags := PG_BIG }
      pure pa

/-- `kmalloc`. -/
def kmalloc (size : Nat) : Prog Kmem Nat :=
  if size = 0 then
    pure 0
  else if size > MAX_SLAB_SIZE then
    kmallocBig size
  else do
    let s ← get
    match size_to_class s size with
    | none => Prog.undefined
    | some idx =>
      match findFree s (NR_PAGES + 1) (s.size_classes idx).slabs with
      | none => Prog.diverge
      | some slab =>
        if slab ≠ 0 then
          takeSlot slab
        else do
          let slab ← slab_create idx
          if slab = 0 then
            pure 0
          else do
            modify fun s => s.setSlab slab
              { (s.pa_to_page slab).slab with next_slab := (s.size_classes idx).slabs }
            modify fun s => s.setSlabs idx slab
            takeSlot slab

/-- `kmfree`. The slab counters are 16 bits wide. -/
def kmfree (ptr : Nat) : Prog Kmem Unit := do
  let s ← get
  let pg := s.pa_to_page ptr
  if pg.flags &&& PG_BIG ≠ 0 then do
    modify fun s => s.setPage ptr { pg with flags := 0 }
    kfree_pages ptr pg.order
  else if pg.flags &&& PG_SLAB = 0 then
    Prog.panic "kmfree: ptr=%p not from kmalloc (flags=0x%x)"
  else do
    let idx := pg.slab.class_idx
    modify fun s => { s with mem := s.mem.memset ptr 0xAB (s.size_classes idx).slot_size }
    modify fun s => { s with mem := s.mem.storeWord ptr (BitVec.ofNat 64 pg.slab.free_list) }
    let nr_alloc := (pg.slab.nr_alloc + 2 ^ 16 - 1) % 2 ^ 16
    modify fun s => s.setSlab ptr { pg.slab with free_list := ptr, nr_alloc := nr_alloc }
    if nr_alloc = 0 then
      slab_destroy (Kmem.pageBase ptr) idx
    else
      pure ()

/-- The loop of `kmalloc_init`. -/
def initClasses : Nat → Nat → Prog Kmem Unit
  | 0, _ => pure ()
  | left + 1, i => do
    modify fun s => { s with
      size_classes := Function.update s.size_classes i ⟨MIN_ALLOC_SIZE <<< i, (s.size_classes i).slabs⟩ }
    let slab ← slab_create i
    modify fun s => s.setSlabs i slab
    initClasses left (i + 1)

/-- `kmalloc_init`. -/
def kmalloc_init : Prog Kmem Unit := initClasses NR_SIZE_CLASSES 0

end bobchouos
