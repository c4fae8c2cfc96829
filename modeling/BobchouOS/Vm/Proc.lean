import BobchouOS.Vm.Model

open lib

namespace bobchouos

def ENOENT : Int := 2
def ENOMEM : Int := 12
def EFAULT : Int := 14
def ENAMETOOLONG : Int := 36

def EXC_LOAD_PAGE : Nat := 13
def EXC_STORE_PAGE : Nat := 15

/-- What the kernel takes from the linker and from its own page table: the end of
its image, the page of the trampoline, the entry of `user_trap` and the value of
`satp` in the kernel. -/
structure Symbols where
  kernel_end : Nat
  user_vec : Nat
  user_trap : Nat
  satp : Nat
  kernel_end_le : kernel_end ≤ PHYS_STOP
  start_ge : KERN_BASE ≤ freeStart kernel_end
  start_le : freeStart kernel_end ≤ PHYS_STOP
  user_vec_aligned : user_vec % PG_SIZE = 0
  user_vec_lt : user_vec < kernel_end

namespace Vm

/-- A string or buffer of the kernel. -/
abbrev Bytes := List (BitVec 8)

/-- The part of `struct proc` about memory, at the address `kmalloc` returned for
it. -/
structure Proc where
  addr : Nat
  kstack : Nat
  pagetable : Nat := 0
  trapframe : Nat := 0
  vma_list : List Vma := []
  name : Bytes := []
  zombie : Bool := false
  deriving DecidableEq, Repr

def PROC_NAME_LEN : Nat := 16
def SIZEOF_PROC : Nat := 360
def SIZEOF_TRAPFRAME : Nat := 288

/-! Offsets of the fields of `struct trapframe`. -/

def TF_KERNEL_SATP : Nat := 0
def TF_KERNEL_SP : Nat := 8
def TF_USER_TRAP : Nat := 16
def TF_HARTID : Nat := 24
def TF_EPC : Nat := 32
def TF_SP : Nat := 48
def TF_A0 : Nat := 112
def TF_A1 : Nat := 120

/-- `trapframe->field = v`. -/
def setField (trapframe field v : Nat) (s : Kmem) : Kmem :=
  { s with mem := s.mem.storeWord (trapframe + field) (BitVec.ofNat 64 v) }

/-- `lazy_alloc`. -/
def lazy_alloc (pagetable va : Nat) (vma : Vma) : Prog Kmem Int := do
  let pg ← kalloc
  if pg = 0 then
    pure (-1)
  else do
    let r ← map_pages pagetable (PG_ROUND_DOWN va) PG_SIZE pg vma.perm
    if r < 0 then do
      kfree pg
      pure (-1)
    else
      pure 0

/-- `cow_copy`. The fence has no effect here: every access walks the tables. -/
def cow_copy (pte : Nat) : Prog Kmem Int := do
  let s ← get
  let pa := pte_to_pa (s.pte pte)
  if (s.pa_to_page pa).refcount = 1 then do
    modify fun s => s.setPte pte ((s.pte pte).ldiff PTE_COW ||| PTE_W)
    pure 0
  else do
    let pg ← kalloc
    if pg = 0 then
      pure (-1)
    else do
      modify fun s => { s with mem := s.mem.memcpy pg pa PG_SIZE }
      modify fun s => s.setPte pte (pa_to_pte pg ||| (s.pte pte &&& (PTE_COW - 1)) ||| PTE_W)
      page_put pa
      pure 0

/-- `handle_page_fault`. -/
def handle_page_fault (p : Proc) (cause va : Nat) : Prog Kmem Int :=
  match vma_find p.vma_list va with
  | none => pure (-1)
  | some v => do
    let pte ← walk p.pagetable va false
    let s ← get
    if pte = 0 ∨ ¬ Has (s.pte pte) PTE_V then
      if cause = EXC_STORE_PAGE ∧ ¬ Has v.perm PTE_W then pure (-1) else lazy_alloc p.pagetable va v
    else if cause = EXC_STORE_PAGE ∧ Has (s.pte pte) PTE_COW then
      cow_copy pte
    else
      pure (-1)

/-- The two kinds of user memory access that `user_trap` resolves faults of. -/
inductive Access where
  | load
  | store
  deriving DecidableEq, Repr

def Access.cause : Access → Nat
  | .load => EXC_LOAD_PAGE
  | .store => EXC_STORE_PAGE

/-- The start of a round of the copy loops: the entry of the page, after the page
fault that `copyin` and `copyinstr` take for a lazy page and `copyout` also for a
shared one. The result is `none` if the fault cannot be resolved. -/
def prefault (p : Proc) (acc : Access) (va_page : Nat) : Prog Kmem (Option Nat) := do
  let pte ← walk p.pagetable va_page false
  let s ← get
  if pte = 0 ∨ ¬ Has (s.pte pte) PTE_V ∨ (acc = .store ∧ Has (s.pte pte) PTE_COW) then do
    let r ← handle_page_fault p acc.cause va_page
    if r < 0 then
      pure none
    else do
      let pte ← walk p.pagetable va_page false
      pure (some pte)
  else
    pure (some pte)

/-- A round of the copy loops up to the copy: the physical address of `va`, or `none`
if the round ends the loop with `-EFAULT`. -/
def userAddr (p : Proc) (acc : Access) (va : Nat) : Prog Kmem (Option Nat) := do
  let va_page := PG_ROUND_DOWN va
  match ← prefault p acc va_page with
  | none => pure none
  | some pte => do
    let s ← get
    if pte = 0 then
      Prog.undefined
    else if ¬ Has (s.pte pte) PTE_U ∨ (acc = .store ∧ ¬ Has (s.pte pte) PTE_W) then
      pure none
    else
      pure (some (pte_to_pa (s.pte pte) + (va - va_page)))

/-- The bytes from `va` to the end of its page, at most `len`. -/
def chunk (va len : Nat) : Nat := min (PG_SIZE - (va - PG_ROUND_DOWN va)) len

/-- The loop of `copyout` with `src` to go. Every round copies at least one byte,
so as many rounds as there are bytes are enough. -/
def copyoutLoop (p : Proc) : Nat → Nat → Bytes → Prog Kmem Int
  | 0, _, _ => pure 0
  | rounds + 1, dstva, src =>
    if src.length = 0 then
      pure 0
    else do
      match ← userAddr p .store dstva with
      | none => pure (-EFAULT)
      | some pa => do
        let n := chunk dstva src.length
        modify fun s => { s with mem := s.mem.storeBytes pa (src.take n) }
        copyoutLoop p rounds ((dstva + n) % 2 ^ 64) (src.drop n)

/-- `copyout` to the current process, whose page table its callers pass. -/
def copyout (p : Proc) (dstva : Nat) (src : Bytes) : Prog Kmem Int := copyoutLoop p src.length dstva src

/-- The loop of `copyin` with `len` bytes to go, after those in `dst`. -/
def copyinLoop (p : Proc) : Nat → Nat → Nat → Bytes → Prog Kmem (Int × Bytes)
  | 0, _, _, dst => pure (0, dst)
  | rounds + 1, srcva, len, dst =>
    if len = 0 then
      pure (0, dst)
    else do
      match ← userAddr p .load srcva with
      | none => pure (-EFAULT, dst)
      | some pa => do
        let s ← get
        let n := chunk srcva len
        copyinLoop p rounds ((srcva + n) % 2 ^ 64) (len - n) (dst ++ s.mem.loadBytes pa n)

/-- `copyin` from the current process. The result has the bytes it wrote to the
buffer. -/
def copyin (p : Proc) (srcva len : Nat) : Prog Kmem (Int × Bytes) := copyinLoop p len srcva len []

/-- The inner loop of `copyinstr`: the bytes up to and including the first NUL, and
whether there is one. -/
def copyChars : Bytes → Bytes × Bool
  | [] => ([], false)
  | c :: src => if c = 0 then ([c], true) else (c :: (copyChars src).1, (copyChars src).2)

/-- The loop of `copyinstr` with `max` bytes to go. -/
def copyinstrLoop (p : Proc) : Nat → Nat → Nat → Bytes → Prog Kmem (Int × Bytes)
  | 0, _, _, dst => pure (-ENAMETOOLONG, dst)
  | rounds + 1, srcva, max, dst =>
    if max = 0 then
      pure (-ENAMETOOLONG, dst)
    else do
      match ← userAddr p .load srcva with
      | none => pure (-EFAULT, dst)
      | some src => do
        let s ← get
        let n := chunk srcva max
        let chars := copyChars (s.mem.loadBytes src n)
        if chars.2 then
          pure (0, dst ++ chars.1)
        else
          copyinstrLoop p rounds ((srcva + n) % 2 ^ 64) (max - n) (dst ++ chars.1)

/-- `copyinstr` from the current process. -/
def copyinstr (p : Proc) (srcva max : Nat) : Prog Kmem (Int × Bytes) := copyinstrLoop p max srcva max []

/-- The check of the hardware on the permission bits of a leaf in user mode. A
writable page has to be readable. -/
def Access.Allowed (flags : Nat) : Access → Prop
  | .load => Has flags PTE_U ∧ Has flags PTE_R
  | .store => Has flags PTE_U ∧ Has flags PTE_R ∧ Has flags PTE_W

instance (flags : Nat) (acc : Access) : Decidable (acc.Allowed flags) := by
  cases acc <;> unfold Access.Allowed <;> infer_instance

/-- What the hardware requires of a leaf. -/
def Access.Usable (acc : Access) (pte : Nat) : Prop :=
  Has pte PTE_V ∧ Has pte PTE_A ∧ Has pte PTE_D ∧ acc.Allowed pte

instance (acc : Access) (pte : Nat) : Decidable (acc.Usable pte) := inferInstanceAs (Decidable (_ ∧ _ ∧ _ ∧ _))

/-- A table below the top in the hardware's walk: a valid entry without
permission bits points to it. -/
def nextTable (s : Kmem) (table i : Nat) : Option Nat :=
  let pte := s.pte (pteAddr table i)
  if Has pte PTE_V ∧ ¬ Has pte PTE_R ∧ ¬ Has pte PTE_W ∧ ¬ Has pte PTE_X then some (pte_to_pa pte) else none

/-- Translation by the hardware: the physical address of `va`, if the access is
permitted. The upper half of the Sv39 address space has no tables of its own. -/
def translate (s : Kmem) (root va : Nat) (acc : Access) : Option Nat := do
  guard (va < MAX_VA)
  let lv1 ← nextTable s root (PX 2 va)
  let lv0 ← nextTable s lv1 (PX 1 va)
  let pte := s.pte (pteAddr lv0 (PX 0 va))
  guard (acc.Usable pte)
  pure (pte_to_pa pte + va % PG_SIZE)

/-- An access of the process, repeated as long as `user_trap` resolves the faults
it takes. The result is `none` when the process is killed. -/
def access (p : Proc) (va : Nat) (acc : Access) : Nat → Prog Kmem (Option Nat)
  | 0 => Prog.diverge
  | fuel + 1 => do
    let s ← get
    match translate s p.pagetable va acc with
    | some pa => pure (some pa)
    | none => do
      let r ← handle_page_fault p acc.cause va
      if r < 0 then pure none else access p va acc fuel

/-- `proc_pagetable`. -/
def proc_pagetable (k : Symbols) (trapframe : Nat) : Prog Kmem Nat := do
  let root ← kalloc
  if root = 0 then
    pure 0
  else do
    let r ← map_pages root TRAMPOLINE PG_SIZE k.user_vec (PTE_R ||| PTE_X)
    let r' ← map_pages root TRAPFRAME PG_SIZE trapframe (PTE_R ||| PTE_W)
    if r ≠ 0 ∨ r' ≠ 0 then do
      proc_free_pagetable root
      pure 0
    else
      pure root

/-- `proc_create`, as far as memory goes. -/
def proc_create (name : Bytes) : Prog Kmem (Option Proc) := do
  let addr ← kmalloc SIZEOF_PROC
  if addr = 0 then
    pure none
  else do
    let kstack ← kalloc
    if kstack = 0 then do
      kmfree addr
      pure none
    else
      pure (some { addr, kstack, name := name.take (PROC_NAME_LEN - 1) })

/-- `proc_create_user`. -/
def proc_create_user (k : Symbols) : Prog Kmem (Option Proc) := do
  match ← proc_create [] with
  | none => pure none
  | some p => do
    let trapframe ← kalloc
    if trapframe = 0 then do
      kfree p.kstack
      kmfree p.addr
      pure none
    else do
      modify fun s => { s with mem := s.mem.memset trapframe 0 PG_SIZE }
      let pagetable ← proc_pagetable k trapframe
      if pagetable = 0 then do
        kfree trapframe
        kfree p.kstack
        kmfree p.addr
        pure none
      else
        pure (some { p with pagetable, trapframe })

/-- `proc_fork`, as far as memory goes. The result is the child. -/
def proc_fork (k : Symbols) (parent : Proc) : Prog Kmem (Option Proc) := do
  match ← proc_create_user k with
  | none => pure none
  | some child => do
    match ← vma_dup_all child.pagetable parent.pagetable parent.vma_list [] with
    | none => do
      proc_free_pagetable child.pagetable
      kfree child.trapframe
      kfree child.kstack
      kmfree child.addr
      pure none
    | some vma_list => do
      modify fun s => { s with mem := s.mem.memcpy child.trapframe parent.trapframe SIZEOF_TRAPFRAME }
      modify (setField child.trapframe TF_A0 0)
      modify (setField child.trapframe TF_KERNEL_SP (child.kstack + PG_SIZE))
      modify (setField child.trapframe TF_KERNEL_SATP k.satp)
      modify (setField child.trapframe TF_USER_TRAP k.user_trap)
      modify (setField child.trapframe TF_HARTID 0)
      pure (some { child with vma_list, name := parent.name })

/-- `v->end = end_` for the area at the address of `v`. -/
def setEnd (vma_list : List Vma) (v : Vma) (end_ : Nat) : List Vma :=
  vma_list.map fun pos => if pos.addr = v.addr then { pos with end_ } else pos

/-- `proc_sbrk`. Its argument is a 64-bit signed integer and all other arithmetic
is unsigned. -/
def proc_sbrk (p : Proc) (n : BitVec 64) : Prog Kmem (Int × Proc) :=
  match vma_find_by_flags p.vma_list VMA_HEAP with
  | none => pure (-1, p)
  | some v =>
    let old_end := v.end_
    if 0 < n.toInt then
      let new_end := PG_ROUND_UP ((old_end + n.toNat) % 2 ^ 64)
      if new_end > HEAP_MAX then
        pure (-1, p)
      else
        pure (old_end, { p with vma_list := setEnd p.vma_list v new_end })
    else if n.toInt < 0 then
      if (-n).toNat > (old_end + 2 ^ 64 - v.start) % 2 ^ 64 then
        pure (-1, p)
      else do
        let new_end := PG_ROUND_DOWN ((old_end + n.toNat) % 2 ^ 64)
        let new_end := if new_end < v.start then v.start else new_end
        unmapPages p.pagetable (nrPages new_end old_end) new_end
        pure (old_end, { p with vma_list := setEnd p.vma_list v new_end })
    else
      pure (old_end, p)

/-- `free_proc`, as far as memory goes. -/
def free_proc (p : Proc) : Prog Kmem Unit := do
  if p.pagetable ≠ 0 then do
    vma_free_all p.pagetable p.vma_list
    proc_free_pagetable p.pagetable
    kfree p.trapframe
  kfree p.kstack
  kmfree p.addr

end Vm

end bobchouos
