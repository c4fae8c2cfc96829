import BobchouOS.Vm.System

open lib

namespace bobchouos

namespace Vm

open Machine (Op)

/-- A part of user memory. -/
structure Area where
  start : Nat
  end_ : Nat
  perm : Nat
  flags : Nat

/-- A process as its program sees it: the areas of its memory, and the memory, which is
its own. A kernel thread has neither. -/
structure Flat where
  user : Bool
  zombie : Bool
  areas : List Area
  mem : Mem

namespace Flat

/-- The access is inside of the areas, and they all permit it. -/
def Permits (f : Flat) (x : Nat) (acc : Access) : Prop :=
  (∃ a ∈ f.areas, a.start ≤ x ∧ x < a.end_) ∧ ∀ a ∈ f.areas, a.start ≤ x → x < a.end_ → acc.Allowed a.perm

/-- The areas of a new program. -/
def imageAreas (image : Mem) : List Area :=
  (segments image).map (fun ph => ⟨ph.start, ph.end_, elf_to_pte ph.p_flags, 0⟩) ++
    [⟨heapStart image, heapStart image, USER_RW, VMA_HEAP⟩, ⟨USER_STACK_BOT, USER_STACK_TOP, USER_RW, VMA_STACK⟩]

/-- A process that starts a program with the given arguments. -/
structure Starts (image : Mem) (argv : List Bytes) (f : Flat) : Prop where
  user : f.user = true
  zombie : f.zombie = false
  areas : f.areas = imageAreas image
  mem : IsImage image argv f.mem

def kernelThread : Flat := ⟨false, false, [], fun _ => 0⟩

/-- The process at `i` runs user code. -/
structure At (fs : List Flat) (i : Nat) (f : Flat) : Prop where
  get : fs[i]? = some f
  user : f.user = true
  alive : f.zombie = false

/-- The break moves to `end_`. What is given up reads as zero from now on. -/
structure MovesBreak (n : BitVec 64) (f f' : Flat) (heap : Area) (end_ : Nat) : Prop where
  is_heap : heap.flags &&& VMA_HEAP ≠ 0
  areas : ∃ l r, f.areas = l ++ heap :: r ∧ f'.areas = l ++ { heap with end_ } :: r
  mem : f'.mem = fun y => if n.toInt < 0 ∧ end_ ≤ y ∧ y < heap.end_ then 0 else f.mem y
  user : f'.user = f.user
  zombie : f'.zombie = f.zombie

/-- The steps of processes with private memories. Accesses and copies fail outside of
the areas, and when there is no memory. -/
inductive Step (binaries : List Binary) (noMemory : Prop) (fs : List Flat) : Op → Outcome → List Flat → Prop
  | kalloc : Step binaries noMemory fs .kalloc .done fs
  | create {name} : Step binaries noMemory fs (.create name) .done (fs ++ [kernelThread])
  | init_start {i f f' bin} : fs[i]? = some f → f.user = false → lookup_binary binaries initName = some bin →
      Starts bin.image [] f' → Step binaries noMemory fs (.init_start i) .done (fs.set i f')
  | loaded {i va len f} : At fs i f → Step binaries noMemory fs (.load i va len) (.read (f.mem.loadBytes va len)) fs
  | load_fault {i va len r f} : At fs i f → r = 0 ∨ r = -1 ∧ (¬ f.Permits va .load ∨ noMemory) →
      Step binaries noMemory fs (.load i va len) (.ret r) fs
  | stored {i va src f} : At fs i f →
      Step binaries noMemory fs (.store i va src) .done (fs.set i { f with mem := f.mem.storeBytes va src })
  | store_fault {i va src r f} : At fs i f → r = 0 ∨ r = -1 ∧ (¬ f.Permits va .store ∨ noMemory) →
      Step binaries noMemory fs (.store i va src) (.ret r) fs
  | copyin {i va len n f} : At fs i f → n = len ∨ n < len ∧ (¬ f.Permits (va + n) .load ∨ noMemory) →
      Step binaries noMemory fs (.copyin i va len) (.data (if n = len then 0 else -EFAULT) (f.mem.loadBytes va n)) fs
  | copyinstr {i va max n f} : At fs i f → n < max → f.mem (va + n) = 0 → (∀ j < n, f.mem (va + j) ≠ 0) →
      Step binaries noMemory fs (.copyinstr i va max) (.data 0 (f.mem.loadBytes va (n + 1))) fs
  | copyinstr_long {i va max f} : At fs i f → (∀ j < max, f.mem (va + j) ≠ 0) →
      Step binaries noMemory fs (.copyinstr i va max) (.data (-ENAMETOOLONG) (f.mem.loadBytes va max)) fs
  | copyinstr_fault {i va max n f} : At fs i f → n < max → (∀ j < n, f.mem (va + j) ≠ 0) →
      ¬ f.Permits (va + n) .load ∨ noMemory →
      Step binaries noMemory fs (.copyinstr i va max) (.data (-EFAULT) (f.mem.loadBytes va n)) fs
  | copyout {i va src n f} : At fs i f → n = src.length ∨ n < src.length ∧ (¬ f.Permits (va + n) .store ∨ noMemory) →
      Step binaries noMemory fs (.copyout i va src) (.ret (if n = src.length then 0 else -EFAULT))
        (fs.set i { f with mem := f.mem.storeBytes va (src.take n) })
  | forked {i f areas} : At fs i f → areas.Perm f.areas →
      Step binaries noMemory fs (.fork i) .done (fs ++ [{ f with areas }])
  | fork_failed {i f} : At fs i f → Step binaries noMemory fs (.fork i) (.ret (-1)) fs
  | sbrk_failed {i n f} : At fs i f → Step binaries noMemory fs (.sbrk i n) (.ret (-1)) fs
  | sbrk {i n f f' heap end_} : At fs i f → MovesBreak n f f' heap end_ →
      Step binaries noMemory fs (.sbrk i n) (.ret heap.end_) (fs.set i f')
  | exec_failed {i path argv r f} : At fs i f → r < 0 → Step binaries noMemory fs (.exec i path argv) (.ret r) fs
  | execed {i path argv f f' bin} : At fs i f → lookup_binary binaries path = some bin → Starts bin.image argv f' →
      Step binaries noMemory fs (.exec i path argv) (.ret argv.length) (fs.set i f')
  | exit {i f} : fs[i]? = some f → f.zombie = false →
      Step binaries noMemory fs (.exit i) .done (fs.set i { f with zombie := true })
  | reap {i f} : fs[i]? = some f → f.zombie = true → Step binaries noMemory fs (.reap i) .done (fs.eraseIdx i)

end Flat

/-- What is seen of a step: the operation, its outcome, and whether memory is exhausted. -/
structure Event where
  op : Op
  res : Outcome
  noMemory : Prop

/-- The processes with private memories, from a state without any. -/
def flats (binaries : List Binary) : Lts (List Flat) (Option Event) where
  init fs := fs = []
  step e fs fs' := ∃ x, e = some x ∧ Flat.Step binaries x.noMemory fs x.op x.res fs'

/-- The machine with its events. -/
def events (k : Symbols) (binaries : List Binary) : Lts Machine (Option Event) where
  init := (Machine.system k binaries).init
  step e m m' := ∃ x, e = some x ∧ x.op.Legal m ∧ x.op.run k binaries m = .ok (x.res, m') ∧ x.noMemory = Low m'.kmem

end Vm

end bobchouos
