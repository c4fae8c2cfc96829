import BobchouOS.Kern.Model

open lib

namespace bobchouos

/-- The spinlocks of the kernel. -/
inductive SpinLock where
  | wait_lock
  | run_queue_lock
  | pid_lock
  | tsleep_lock
  | bcache
  | disk
  | proc (p : Nat)
  | wq (w : WaitQueue)
  | sleeplock (n : Nat)
  deriving DecidableEq

/-- Who executes: the scheduler, or a process on its kernel stack. -/
inductive Context where
  | scheduler
  | proc (p : Nat)
  deriving DecidableEq

/-- The instructions of the kernel that concern spinlocks, interrupts and the
CPU. `irq_save` and `irq_restore` are the other halves of `spin_lock_irqsave` and
`spin_unlock_irqrestore`, and `publish` makes a new process known. -/
inductive Instr where
  | spin_lock (l : SpinLock)
  | spin_unlock (l : SpinLock)
  | irq_save
  | irq_restore
  | intr_on
  | intr_off
  | sched
  | swtch (p : Nat)
  | publish (c : Nat)
  | sret
  deriving DecidableEq

namespace Code

open Instr

/-! What the functions of the kernel do with spinlocks and interrupts. The
arguments in addition to those of the source say which way its branches go: which
processes are found on a list, how often a loop goes round. -/

def spin_lock_irqsave (l : SpinLock) : List Instr := [irq_save, spin_lock l]

def spin_unlock_irqrestore (l : SpinLock) : List Instr := [spin_unlock l, irq_restore]

def run_queue_add : List Instr := [spin_lock .run_queue_lock, spin_unlock .run_queue_lock]

def alloc_pid : List Instr := [spin_lock .pid_lock, spin_unlock .pid_lock]

/-- `wq_sleep` of the process `p`. -/
def wq_sleep (p : Nat) (w : WaitQueue) (lk : SpinLock) : List Instr :=
  [spin_lock (.wq w), spin_lock (.proc p), spin_unlock lk, spin_unlock (.wq w), Instr.sched, spin_unlock (.proc p),
    spin_lock lk]

/-- The statements of `wq_wake_one` and `wq_wake_all` for a process `q`. -/
def wake (q : Nat) : List Instr := [spin_lock (.proc q), spin_unlock (.proc q)] ++ run_queue_add

def wq_wake_one (w : WaitQueue) (first : Option Nat) : List Instr :=
  spin_lock_irqsave (.wq w) ++ first.toList.flatMap wake ++ spin_unlock_irqrestore (.wq w)

def wq_wake_all (w : WaitQueue) (qs : List Nat) : List Instr :=
  spin_lock_irqsave (.wq w) ++ qs.flatMap wake ++ spin_unlock_irqrestore (.wq w)

def sleep_lock (p n rounds : Nat) : List Instr :=
  spin_lock_irqsave (.sleeplock n) ++
    (List.replicate rounds (wq_sleep p (lockQueue n) (.sleeplock n))).flatten ++
    spin_unlock_irqrestore (.sleeplock n)

def sleep_unlock (n : Nat) (first : Option Nat) : List Instr :=
  spin_lock_irqsave (.sleeplock n) ++ wq_wake_one (lockQueue n) first ++ spin_unlock_irqrestore (.sleeplock n)

def sleep_holding (n : Nat) : List Instr := [spin_lock (.sleeplock n), spin_unlock (.sleeplock n)]

/-- The wait queue of the disk. -/
def diskQueue : WaitQueue := .other 1

def virtio_blk_submit (p rounds : Nat) : List Instr :=
  spin_lock_irqsave .disk ++ (List.replicate rounds (wq_sleep p diskQueue .disk)).flatten ++
    spin_unlock_irqrestore .disk

def virtio_blk_rw (p rounds rounds' : Nat) : List Instr :=
  virtio_blk_submit p rounds ++ spin_lock_irqsave .disk ++
    (List.replicate rounds' (wq_sleep p diskQueue .disk)).flatten ++ spin_unlock_irqrestore .disk

def virtio_blk_intr (qs : List Nat) : List Instr :=
  [spin_lock .disk] ++ wq_wake_all diskQueue qs ++ [spin_unlock .disk]

/-- The sections with `bcache.lock`. -/
def bcache_section : List Instr := spin_lock_irqsave .bcache ++ spin_unlock_irqrestore .bcache

def bget (p b rounds : Nat) : List Instr := bcache_section ++ sleep_lock p b rounds

/-- `bread`, with the rounds of `virtio_blk_rw` if the buffer is not valid. -/
def bread (p b rounds : Nat) (io : Option (Nat × Nat)) : List Instr :=
  bget p b rounds ++ io.toList.flatMap fun r => virtio_blk_rw p r.1 r.2

def bwrite (p b rounds rounds' : Nat) : List Instr := sleep_holding b ++ virtio_blk_rw p rounds rounds'

def brelse (b : Nat) (first : Option Nat) : List Instr := sleep_holding b ++ sleep_unlock b first ++ bcache_section

def yield (p : Nat) : List Instr :=
  spin_lock_irqsave (.proc p) ++ run_queue_add ++ [Instr.sched] ++ spin_unlock_irqrestore (.proc p)

/-- `proc_exit` of the process `p`. Nothing comes after its `sched`. -/
def proc_exit (p parent : Nat) (first : Option Nat) : List Instr :=
  spin_lock_irqsave .wait_lock ++ wq_wake_one (.child_wq parent) first ++
    [spin_lock (.proc p), spin_unlock .wait_lock, Instr.sched]

/-- The loop of `proc_wait` over the children. -/
def scan (children : List Nat) : List Instr := children.flatMap fun c => [spin_lock (.proc c), spin_unlock (.proc c)]

/-- `proc_wait` that finds no zombie in the first `rounds`, and after the last
one returns or goes on to `proc_exit`. -/
def proc_wait (p : Nat) (rounds : List (List Nat)) (children : List Nat) : List Instr :=
  spin_lock_irqsave .wait_lock ++
    rounds.flatMap (fun children => scan children ++ wq_sleep p (.child_wq p) .wait_lock) ++
    scan children ++ spin_unlock_irqrestore .wait_lock

def proc_kill (q : Nat) (sleeping : Bool) : List Instr :=
  spin_lock_irqsave .tsleep_lock ++ [spin_lock (.proc q)] ++ (if sleeping then run_queue_add else []) ++
    [spin_unlock (.proc q)] ++ spin_unlock_irqrestore .tsleep_lock

def sys_sleep (p : Nat) : List Instr :=
  spin_lock_irqsave .tsleep_lock ++ [spin_lock (.proc p), spin_unlock .tsleep_lock, Instr.sched] ++
    spin_unlock_irqrestore (.proc p)

/-- `proc_fork`, with the child if no allocation fails. -/
def proc_fork (child : Option Nat) : List Instr :=
  alloc_pid ++ child.toList.flatMap fun c =>
    spin_lock_irqsave .wait_lock ++ spin_unlock_irqrestore .wait_lock ++
      ([irq_save] ++ [Instr.publish c] ++ run_queue_add ++ [irq_restore])

def kthread_start (p : Nat) : List Instr := [spin_unlock (.proc p), intr_on]

/-- `user_proc_start`, up to user mode. -/
def user_proc_start (p : Nat) : List Instr := [spin_unlock (.proc p), intr_off]

def wake_expired_sleepers (qs : List Nat) : List Instr :=
  [spin_lock .tsleep_lock] ++
    qs.flatMap (fun q => [spin_lock (.proc q)] ++ run_queue_add ++ [spin_unlock (.proc q)]) ++
    [spin_unlock .tsleep_lock]

/-- One round of `scheduler`, up to its `swtch`. -/
def scheduler (q : Nat) : List Instr :=
  [spin_lock .run_queue_lock, spin_unlock .run_queue_lock, spin_lock (.proc q), spin_lock .tsleep_lock,
    spin_unlock .tsleep_lock, swtch q]

end Code

/-- The hart: the SIE flag, who executes, what everybody still has to execute, the
saved interrupt flags on the stacks, and the holders of the spinlocks. -/
structure Hart where
  sie : Bool := false
  current : Context := .scheduler
  code : Context → List Instr := fun _ => []
  flags : Context → List Bool := fun _ => []
  owner : SpinLock → Option Context := fun _ => none

namespace Hart

def setCode (c : Context) (is : List Instr) (h : Hart) : Hart := { h with code := Function.update h.code c is }

/-- A spinlock that is held goes over to the context `c`. -/
def handOver (l : SpinLock) (c : Context) (h : Hart) : Hart :=
  { h with owner := Function.update h.owner l ((h.owner l).map fun _ => c) }

/-- The effect of an instruction. `spin_lock` on a spinlock that is held spins. -/
def perform (i : Instr) : Prog Hart Unit := do
  let h ← get
  match i with
  | .spin_lock l =>
    if h.owner l = none then set { h with owner := Function.update h.owner l (some h.current) }
    else Prog.diverge
  | .spin_unlock l => set { h with owner := Function.update h.owner l none }
  | .irq_save =>
    set { h with flags := Function.update h.flags h.current (h.sie :: h.flags h.current), sie := false }
  | .irq_restore =>
    match h.flags h.current with
    | flag :: flags => set { h with flags := Function.update h.flags h.current flags, sie := h.sie || flag }
    | [] => Prog.undefined
  | .intr_on => set { h with sie := true }
  | .intr_off => set { h with sie := false }
  | .sched =>
    match h.current with
    | .proc p =>
      set ({ h with current := .scheduler }.handOver (.proc p) .scheduler |>.setCode .scheduler [.spin_unlock (.proc p)])
    | .scheduler => Prog.undefined
  | .swtch p => set ({ h with current := .proc p }.handOver (.proc p) (.proc p))
  | .publish c =>
    if h.code (.proc c) = [] ∧ h.current ≠ .proc c then
      set ({ h with flags := Function.update h.flags (.proc c) [] }.setCode (.proc c) (Code.user_proc_start c))
    else pure ()
  | .sret => set { h with sie := true }

/-- The next instruction. -/
def next : Prog Hart Unit := do
  let h ← get
  match h.code h.current with
  | [] => Prog.undefined
  | i :: rest => do
    set (h.setCode h.current rest)
    perform i

/-- What the kernel does for processes, with the ways that its branches go. -/
inductive Op where
  | sleep_lock (n rounds : Nat)
  | sleep_unlock (n : Nat) (first : Option Nat)
  | sleep_holding (n : Nat)
  | bread (b rounds : Nat) (io : Option (Nat × Nat))
  | bwrite (b rounds rounds' : Nat)
  | brelse (b : Nat) (first : Option Nat)
  | bpin
  | bunpin
  | yield
  | proc_exit (parent : Nat) (first : Option Nat)
  | proc_wait (rounds : List (List Nat)) (children : List Nat)
  | proc_kill (q : Nat) (sleeping : Bool)
  | proc_fork (child : Option Nat)
  | sys_sleep

def Op.code (p : Nat) : Op → List Instr
  | .sleep_lock n rounds => Code.sleep_lock p n rounds
  | .sleep_unlock n first => Code.sleep_unlock n first
  | .sleep_holding n => Code.sleep_holding n
  | .bread b rounds io => Code.bread p b rounds io
  | .bwrite b rounds rounds' => Code.bwrite p b rounds rounds'
  | .brelse b first => Code.brelse b first
  | .bpin | .bunpin => Code.bcache_section
  | .yield => Code.yield p
  | .proc_exit parent first => Code.proc_exit p parent first
  | .proc_wait rounds children => Code.proc_wait p rounds children
  | .proc_kill q sleeping => Code.proc_kill q sleeping
  | .proc_fork child => Code.proc_fork child
  | .sys_sleep => Code.sys_sleep p

/-- The end of a trap of the process `p`. A process that was killed exits, with
the arguments of its `proc_exit`. -/
def trapRet (p : Nat) (killed : Option (Nat × Option Nat)) (resched : Bool) (rest : List Instr) : List Instr :=
  match killed with
  | some (parent, first) => Code.proc_exit p parent first
  | none => (if resched then Code.yield p else []) ++ rest

/-- The steps: the next instruction, the choice of the scheduler, the start of an
operation by a process that is in none, `intr_on` and `intr_off` at the begin and
the end of a system call, and interrupts in the kernel and in user mode. -/
inductive Act where
  | instr
  | pick (q : Nat)
  | call (op : Op)
  | intr_on
  | intr_off
  | timer (qs : List Nat) (killed : Option (Nat × Option Nat))
  | external (qs : List Nat) (killed : Option (Nat × Option Nat))
  | user_timer (qs : List Nat) (killed : Option (Nat × Option Nat))

/-- An interrupt of the process `p`, which was at `rest`. -/
def interrupt (is : List Instr) : Prog Hart Unit := modify fun h => { h.setCode h.current is with sie := false }

def thisProc : Prog Hart Nat := do
  let h ← get
  match h.current with
  | .proc p => pure p
  | .scheduler => Prog.undefined

def exec : Act → Prog Hart Unit
  | .instr => next
  | .pick q => modify (setCode .scheduler (Code.scheduler q))
  | .call op => do
    let p ← thisProc
    modify (setCode (.proc p) (op.code p))
  | .intr_on => modify fun h => { h with sie := true }
  | .intr_off => modify fun h => { h with sie := false }
  | .timer qs killed => do
    let p ← thisProc
    let h ← get
    interrupt (Code.wake_expired_sleepers qs ++ trapRet p killed true (.sret :: h.code (.proc p)))
  | .external qs killed => do
    let p ← thisProc
    let h ← get
    interrupt (Code.virtio_blk_intr qs ++ trapRet p killed false (.sret :: h.code (.proc p)))
  | .user_timer qs killed => do
    let p ← thisProc
    interrupt (Code.wake_expired_sleepers qs ++ trapRet p killed true [])

/-- A process in no operation is in user mode or in kernel code that takes no
spinlock. The scheduler takes a process that is in the middle of its code: one
that is dead or does not exist yet has none. -/
def Enabled (h : Hart) : Act → Prop
  | .instr => h.code h.current ≠ []
  | .pick q => h.current = .scheduler ∧ h.code .scheduler = [] ∧ h.code (.proc q) ≠ []
  | .call _ | .intr_on | .intr_off => h.current ≠ .scheduler ∧ h.code h.current = []
  | .timer _ _ | .external _ _ => h.current ≠ .scheduler ∧ h.sie = true
  | .user_timer _ _ => h.current ≠ .scheduler ∧ h.code h.current = [] ∧ h.sie = false

/-- The start of `scheduler`, with the idle process and init on the run queue. -/
def boot (idle init : Nat) : Hart :=
  setCode (.proc init) (Code.kthread_start init) (setCode (.proc idle) (Code.kthread_start idle) {})

def system : Lts Hart Act where
  init h := ∃ idle init, h = boot idle init
  step a h h' := h.Enabled a ∧ exec a h = .ok ((), h')

end Hart

end bobchouos
