import BobchouOS.Vm.Proc

open lib

namespace bobchouos

namespace Vm

def ELF_MAGIC : Nat := 0x464C457F
def EI_CLASS : Nat := 4
def EI_DATA : Nat := 5
def ELFCLASS64 : Nat := 2
def ELFDATA2LSB : Nat := 1
def EM_RISCV : Nat := 0xF3
def PT_LOAD : Nat := 1
def PF_X : Nat := 1
def PF_W : Nat := 2
def PF_R : Nat := 4
def MAXARG : Nat := 16

/-- The little-endian number of `n ≤ 8` bytes at an address. -/
def field (image : Mem) (a n : Nat) : Nat := (image.loadWord a).toNat % 2 ^ (8 * n)

/-! Fields of `struct elf_header`. -/

def e_machine (image : Mem) : Nat := field image 18 2
def e_entry (image : Mem) : Nat := field image 24 8
def e_phoff (image : Mem) : Nat := field image 32 8
def e_phnum (image : Mem) : Nat := field image 56 2

/-- The fields of `struct elf_phdr` that `proc_exec` reads. -/
structure Phdr where
  p_type : Nat
  p_flags : Nat
  p_offset : Nat
  p_vaddr : Nat
  p_filesz : Nat
  p_memsz : Nat
  deriving DecidableEq, Repr

def SIZEOF_PHDR : Nat := 56

/-- `phdrs[i]`. -/
def phdr (image : Mem) (i : Nat) : Phdr :=
  let a := e_phoff image + SIZEOF_PHDR * i
  ⟨field image a 4, field image (a + 4) 4, field image (a + 8) 8, field image (a + 16) 8,
    field image (a + 32) 8, field image (a + 40) 8⟩

namespace Phdr

/-- `start` of the area of a segment. -/
def start (ph : Phdr) : Nat := PG_ROUND_DOWN ph.p_vaddr

/-- `end` of the area of a segment. -/
def end_ (ph : Phdr) : Nat := PG_ROUND_UP ((ph.p_vaddr + ph.p_memsz) % 2 ^ 64)

end Phdr

/-- `elf_to_pte`. -/
def elf_to_pte (flags : Nat) : Nat :=
  PTE_U ||| (if Has flags PF_R then PTE_R else 0) ||| (if Has flags PF_W then PTE_W else 0) |||
    (if Has flags PF_X then PTE_X else 0)

/-- `struct embedded_binary`. -/
structure Binary where
  name : Bytes
  image : Mem

/-- `lookup_binary`. -/
def lookup_binary (binaries : List Binary) (name : Bytes) : Option Binary :=
  binaries.find? fun bin => bin.name = name

/-- The check of the ELF header in `proc_exec`. -/
def IsElf (image : Mem) : Prop :=
  field image 0 4 = ELF_MAGIC ∧ field image EI_CLASS 1 = ELFCLASS64 ∧
    field image EI_DATA 1 = ELFDATA2LSB ∧ e_machine image = EM_RISCV

instance (image : Mem) : Decidable (IsElf image) := inferInstanceAs (Decidable (_ ∧ _ ∧ _ ∧ _))

/-- The loop of `proc_exec` over the pages of one segment. False on failure. -/
def loadPages (image : Mem) (new_pt perm : Nat) : Nat → Nat → Nat → Nat → Prog Kmem Bool
  | 0, _, _, _ => pure true
  | left + 1, va, src, filesz_remaining => do
    let pg ← kalloc
    if pg = 0 then
      pure false
    else do
      let chunk := if filesz_remaining > PG_SIZE then PG_SIZE else filesz_remaining
      modify fun s => { s with mem := s.mem.storeBytes pg (image.loadBytes src chunk) }
      let r ← map_pages new_pt va PG_SIZE pg perm
      if r < 0 then do
        kfree pg
        pure false
      else
        loadPages image new_pt perm left (va + PG_SIZE) (src + chunk) (filesz_remaining - chunk)

/-- The loop of `proc_exec` over the program headers from `i` on, with the areas
so far. The result has the areas and `heap_start`; an error has the areas at the
jump to `fail`. -/
def loadSegments (image : Mem) (new_pt : Nat) :
    Nat → Nat → List Vma → Nat → Prog Kmem (Except (List Vma) (List Vma × Nat))
  | 0, _, vmas, heap_start => pure (.ok (vmas, heap_start))
  | left + 1, i, vmas, heap_start =>
    let ph := phdr image i
    if ph.p_type ≠ PT_LOAD then
      loadSegments image new_pt left (i + 1) vmas heap_start
    else do
      let perm := elf_to_pte ph.p_flags
      if ← loadPages image new_pt perm (nrPages ph.start ph.end_) ph.start ph.p_offset ph.p_filesz then do
        match ← vma_create ph.start ph.end_ perm 0 with
        | none => pure (.error vmas)
        | some v =>
          loadSegments image new_pt left (i + 1) (vmas ++ [v])
            (if ph.end_ > heap_start then ph.end_ else heap_start)
      else
        pure (.error vmas)

/-- `stack_page_bot`. -/
def stack_page_bot : Nat := USER_STACK_TOP - PG_SIZE

/-- The loop of `proc_exec` that pushes the strings of `argv`, with `sp` and the
addresses in `uargv` so far. A string is shorter than DRAM, so `sp` does not wrap. -/
def pushArgs (stack : Nat) : List Bytes → Nat → List Nat → Prog Kmem (Option (Nat × List Nat))
  | [], sp, uargv => pure (some (sp, uargv))
  | arg :: argv, sp, uargv =>
    if uargv.length ≥ MAXARG then
      pure none
    else
      let len := arg.length + 1
      let sp := sp - len
      if sp < stack_page_bot then
        pure none
      else do
        modify fun s => { s with mem := s.mem.storeBytes (stack + (sp - stack_page_bot)) (arg ++ [0]) }
        pushArgs stack argv sp (uargv ++ [sp])

/-- The loop of `proc_exec` that stores the pointers of `uargv`. -/
def pushPointers (stack : Nat) : List Nat → Nat → Prog Kmem Unit
  | [], _ => pure ()
  | v :: vs, sp => do
    modify fun s => { s with mem := s.mem.storeWord (stack + (sp - stack_page_bot)) (BitVec.ofNat 64 v) }
    pushPointers stack vs (sp + 8)

/-- The arguments of the new program: `argc` and `sp`. -/
def pushArgv (stack : Nat) (argv : List Bytes) : Prog Kmem (Option (Nat × Nat)) := do
  match ← pushArgs stack argv USER_STACK_TOP [] with
  | none => pure none
  | some (sp, uargv) => do
    let argc := uargv.length
    let sp := sp.ldiff 15 - (argc + 1) * 8
    if sp < stack_page_bot then
      pure none
    else do
      pushPointers stack (uargv ++ [0]) sp
      pure (some (argc, sp))

/-- The build phase of `proc_exec`, over an empty `new_pt`: the new areas, `argc`
and `sp`, or the areas at the jump to `fail`. -/
def execBuild (image : Mem) (argv : List Bytes) (new_pt : Nat) :
    Prog Kmem (Except (List Vma) (List Vma × Nat × Nat)) := do
  match ← loadSegments image new_pt (e_phnum image) 0 [] 0 with
  | .error vmas => pure (.error vmas)
  | .ok (vmas, heap_start) => do
    match ← vma_create heap_start heap_start (PTE_R ||| PTE_W ||| PTE_U) VMA_HEAP with
    | none => pure (.error vmas)
    | some heap_vma => do
      let vmas := vmas ++ [heap_vma]
      let stack ← kalloc
      if stack = 0 then
        pure (.error vmas)
      else do
        let r ← map_pages new_pt stack_page_bot PG_SIZE stack (PTE_R ||| PTE_W ||| PTE_U)
        if r < 0 then do
          kfree stack
          pure (.error vmas)
        else do
          match ← vma_create USER_STACK_BOT USER_STACK_TOP (PTE_R ||| PTE_W ||| PTE_U) VMA_STACK with
          | none => pure (.error vmas)
          | some stack_vma => do
            let vmas := vmas ++ [stack_vma]
            match ← pushArgv stack argv with
            | none => pure (.error vmas)
            | some (argc, sp) => pure (.ok (vmas, argc, sp))

/-- The loop over pages after `fail`, which leaves the entries as they are. -/
def putPages (new_pt : Nat) : Nat → Nat → Prog Kmem Unit
  | 0, _ => pure ()
  | left + 1, va => do
    let pte ← walk new_pt va false
    let s ← get
    if pte = 0 ∨ ¬ Has (s.pte pte) PTE_V then
      putPages new_pt left (va + PG_SIZE)
    else do
      page_put (pte_to_pa (s.pte pte))
      putPages new_pt left (va + PG_SIZE)

/-- The loop over areas after `fail`. -/
def putAreas (new_pt : Nat) : List Vma → Prog Kmem Unit
  | [] => pure ()
  | pos :: rest => do
    putPages new_pt (nrPages pos.start pos.end_) pos.start
    kmfree pos.addr
    putAreas new_pt rest

/-- The statements of `proc_exec` after `fail`. -/
def execFail (new_pt : Nat) (new_vma_list : List Vma) : Prog Kmem Unit := do
  putAreas new_pt new_vma_list
  proc_free_pagetable new_pt

/-- The registers that `proc_exec` sets for the new program. -/
def setRegs (k : Symbols) (p : Proc) (image : Mem) (argc sp : Nat) (s : Kmem) : Kmem :=
  [(TF_EPC, e_entry image), (TF_SP, sp), (TF_A0, argc), (TF_A1, sp), (TF_KERNEL_SATP, k.satp),
    (TF_KERNEL_SP, p.kstack + PG_SIZE), (TF_USER_TRAP, k.user_trap), (TF_HARTID, 0)].foldl
    (fun s r => setField p.trapframe r.1 r.2 s) s

/-- The statements of `proc_exec` once nothing can fail any more. -/
def execCommit (k : Symbols) (p : Proc) (path : Bytes) (image : Mem) (new_pt : Nat)
    (new_vma_list : List Vma) (argc sp : Nat) : Prog Kmem Proc := do
  vma_free_all p.pagetable p.vma_list
  if p.pagetable ≠ 0 then
    proc_free_pagetable p.pagetable
  modify (setRegs k p image argc sp)
  pure { p with
    pagetable := new_pt
    vma_list := new_vma_list
    name := path.take (PROC_NAME_LEN - 1) }

/-- `proc_exec` of a process that has a trapframe. -/
def execImage (k : Symbols) (binaries : List Binary) (p : Proc) (path : Bytes) (argv : List Bytes) :
    Prog Kmem (Int × Proc) :=
  match lookup_binary binaries path with
  | none => pure (-ENOENT, p)
  | some bin =>
    if ¬ IsElf bin.image then
      pure (-ENOENT, p)
    else do
      let new_pt ← proc_pagetable k p.trapframe
      if new_pt = 0 then
        pure (-ENOMEM, p)
      else do
        match ← execBuild bin.image argv new_pt with
        | .error new_vma_list => do
          execFail new_pt new_vma_list
          pure (-1, p)
        | .ok (new_vma_list, argc, sp) => do
          let p ← execCommit k p path bin.image new_pt new_vma_list argc sp
          pure (argc, p)

/-- `proc_exec`. A null `argv` is an empty one. -/
def proc_exec (k : Symbols) (binaries : List Binary) (p : Proc) (path : Bytes) (argv : List Bytes) :
    Prog Kmem (Int × Proc) :=
  if p.trapframe = 0 then do
    let trapframe ← kalloc
    if trapframe = 0 then
      pure (-ENOMEM, p)
    else do
      modify fun s => { s with mem := s.mem.memset trapframe 0 PG_SIZE }
      execImage k binaries { p with trapframe } path argv
  else
    execImage k binaries p path argv

end Vm

end bobchouos
