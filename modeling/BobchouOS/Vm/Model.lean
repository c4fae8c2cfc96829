import BobchouOS.Kmalloc.Model
import BobchouOS.Vm.Pte

open lib

namespace bobchouos

namespace Kmem

/-- `*pte`. -/
def pte (s : Kmem) (a : Nat) : Nat := (s.mem.loadWord a).toNat

def setPte (s : Kmem) (a v : Nat) : Kmem := { s with mem := s.mem.storeWord a (BitVec.ofNat 64 v) }

end Kmem

/-- Address of `table[i]`. -/
def pteAddr (table i : Nat) : Nat := table + 8 * i

/-- The loop of `walk` from `level` down, at the table it has reached. -/
def walkDown (va : Nat) (alloc : Bool) : Nat → Nat → Prog Kmem Nat
  | 0, curr_table => pure (pteAddr curr_table (PX 0 va))
  | level + 1, curr_table => do
    let p := pteAddr curr_table (PX (level + 1) va)
    let s ← get
    if Has (s.pte p) PTE_V then
      walkDown va alloc level (pte_to_pa (s.pte p))
    else if alloc then do
      let table ← kalloc
      if table = 0 then
        pure 0
      else do
        modify fun s => s.setPte p (pa_to_pte table ||| PTE_V)
        walkDown va alloc level table
    else
      pure 0

/-- `walk`. Null is 0. -/
def walk (root_pt va : Nat) (alloc : Bool) : Prog Kmem Nat :=
  if va ≥ MAX_VA then Prog.panic "walk: va >= MAX_VA" else walkDown va alloc 2 root_pt

/-- The loop of `map_pages`. -/
def mapLoop (root_pt perm : Nat) : Nat → Nat → Nat → Prog Kmem Int
  | 0, _, _ => pure 0
  | nr_page + 1, va, pa => do
    let leaf ← walk root_pt va true
    if leaf = 0 then
      pure (-1)
    else do
      let s ← get
      if Has (s.pte leaf) PTE_V then
        Prog.panic "map_pages: double-map va=%p"
      else do
        modify fun s => s.setPte leaf (pa_to_pte pa ||| perm ||| PTE_V ||| PTE_A ||| PTE_D)
        mapLoop root_pt perm nr_page ((va + PG_SIZE) % 2 ^ 64) ((pa + PG_SIZE) % 2 ^ 64)

/-- `map_pages`. The number of pages is an `int`. -/
def map_pages (root_pt va size pa perm : Nat) : Prog Kmem Int :=
  if size = 0 then
    Prog.panic "map_pages: size == 0"
  else if va % PG_SIZE ≠ 0 ∨ pa % PG_SIZE ≠ 0 ∨ size % PG_SIZE ≠ 0 then
    Prog.panic "map_pages: not page-aligned"
  else
    mapLoop root_pt perm ((size >>> PG_SHIFT) % 2 ^ 32) va pa

/-- The inner loop of `proc_free_pagetable`, with `left` entries to go. -/
def freeTables (lv1 : Nat) : Nat → Nat → Prog Kmem Unit
  | 0, _ => pure ()
  | left + 1, j => do
    let s ← get
    let pte := s.pte (pteAddr lv1 j)
    if Has pte PTE_V then do
      kfree (pte_to_pa pte)
      freeTables lv1 left (j + 1)
    else
      freeTables lv1 left (j + 1)

/-- The outer loop of `proc_free_pagetable`. -/
def freeDirs (root : Nat) : Nat → Nat → Prog Kmem Unit
  | 0, _ => pure ()
  | left + 1, i => do
    let s ← get
    let pte := s.pte (pteAddr root i)
    if Has pte PTE_V then do
      freeTables (pte_to_pa pte) 512 0
      kfree (pte_to_pa pte)
      freeDirs root left (i + 1)
    else
      freeDirs root left (i + 1)

/-- `proc_free_pagetable`. -/
def proc_free_pagetable (root : Nat) : Prog Kmem Unit := do
  freeDirs root 512 0
  kfree root

/-- `page_get`. The count is 16 bits wide. -/
def page_get (pa : Nat) : Prog Kmem Unit := do
  let s ← get
  let pg := s.pa_to_page pa
  if pg.refcount < 1 then
    Prog.panic "page_get: refcount 0 (use-after-free)"
  else
    modify fun s => s.setPage pa { pg with refcount := (pg.refcount + 1) % 2 ^ 16 }

/-- `page_put`. -/
def page_put (pa : Nat) : Prog Kmem Unit := do
  let s ← get
  let pg := s.pa_to_page pa
  if pg.refcount < 1 then
    Prog.panic "page_put: refcount already 0"
  else if pg.refcount = 1 then
    kfree pa
  else
    modify fun s => s.setPage pa { pg with refcount := pg.refcount - 1 }

def VMA_HEAP : Nat := 1 <<< 0
def VMA_STACK : Nat := 1 <<< 1

/-- `struct vma`, at the address `kmalloc` returned for it. Its place on the list
of its process is its place in a Lean list. -/
structure Vma where
  addr : Nat
  start : Nat
  end_ : Nat
  perm : Nat
  flags : Nat
  deriving DecidableEq, Repr

def SIZEOF_VMA : Nat := 40

/-- Number of rounds of a loop over the pages of `[start, end_)`. -/
def nrPages (start end_ : Nat) : Nat := (end_ - start + PG_SIZE - 1) / PG_SIZE

/-- `vma_create`. -/
def vma_create (start end_ perm flags : Nat) : Prog Kmem (Option Vma) := do
  let addr ← kmalloc SIZEOF_VMA
  if addr = 0 then
    pure none
  else
    pure (some ⟨addr, start, end_, perm, flags⟩)

/-- `vma_add`. -/
def vma_add (v : Vma) : List Vma → List Vma
  | [] => [v]
  | pos :: rest => if v.start < pos.start then v :: pos :: rest else pos :: vma_add v rest

/-- `vma_find`. -/
def vma_find (vma_list : List Vma) (addr : Nat) : Option Vma :=
  vma_list.find? fun pos => pos.start ≤ addr ∧ addr < pos.end_

/-- `vma_find_by_flags`. -/
def vma_find_by_flags (vma_list : List Vma) (flags : Nat) : Option Vma :=
  vma_list.find? fun pos => pos.flags &&& flags ≠ 0

/-- The loop over pages that `vma_free_all` and `proc_sbrk` share: drop the
reference of each mapped page and clear its entry. -/
def unmapPages (pagetable : Nat) : Nat → Nat → Prog Kmem Unit
  | 0, _ => pure ()
  | left + 1, va => do
    let pte ← walk pagetable va false
    let s ← get
    if pte = 0 ∨ ¬ Has (s.pte pte) PTE_V then
      unmapPages pagetable left (va + PG_SIZE)
    else do
      page_put (pte_to_pa (s.pte pte))
      modify fun s => s.setPte pte 0
      unmapPages pagetable left (va + PG_SIZE)

/-- `vma_free_all`. -/
def vma_free_all (pagetable : Nat) : List Vma → Prog Kmem Unit
  | [] => pure ()
  | pos :: rest => do
    unmapPages pagetable (nrPages pos.start pos.end_) pos.start
    kmfree pos.addr
    vma_free_all pagetable rest

/-- The loop of `vma_dup_all` over the pages of one area. False on failure. -/
def dupPages (dst src : Nat) : Nat → Nat → Prog Kmem Bool
  | 0, _ => pure true
  | left + 1, va => do
    let pte ← walk src va false
    let s ← get
    if pte = 0 ∨ ¬ Has (s.pte pte) PTE_V then
      dupPages dst src left (va + PG_SIZE)
    else do
      let pa := pte_to_pa (s.pte pte)
      if Has (s.pte pte) PTE_W then
        modify fun s => s.setPte pte ((s.pte pte).ldiff PTE_W ||| PTE_COW)
      let s ← get
      let r ← map_pages dst va PG_SIZE pa (pte_flags (s.pte pte))
      if r < 0 then
        pure false
      else do
        page_get pa
        dupPages dst src left (va + PG_SIZE)

/-- `vma_dup_all`, with the areas of the child so far. On failure these have
been freed and the result is `none`. -/
def vma_dup_all (dst src : Nat) : List Vma → List Vma → Prog Kmem (Option (List Vma))
  | [], vmas => pure (some vmas)
  | pos :: rest, vmas => do
    match ← vma_create pos.start pos.end_ pos.perm pos.flags with
    | none => do
      vma_free_all dst vmas
      pure none
    | some nv => do
      let vmas := vma_add nv vmas
      if ← dupPages dst src (nrPages pos.start pos.end_) pos.start then
        vma_dup_all dst src rest vmas
      else do
        vma_free_all dst vmas
        pure none

end bobchouos
