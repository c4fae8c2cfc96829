import BobchouOS.ListHead
import BobchouOS.Lib.Lts
import Mathlib

open lib

namespace bobchouos

def PID_HASH_BITS : Nat := 6

def HT_SIZE (bits : Nat) : Nat := 2 ^ bits

def TIMER_INTERVAL : Nat := 100000

def MTIME_FREQ : Nat := 10000000

def MS_TO_MTIME (ms : Nat) : Nat := ms * (MTIME_FREQ / 1000)

def SLEEP_MS_MAX : Nat := 60 * 60 * 1000

/-- `hash_int`. -/
def hash_int (val : BitVec 64) : BitVec 64 := val * 0x61C8864680B583EB#64

/-- The bucket of a pid: the `int` is converted to `uint64` for `hash_int`. -/
def bucket (pid : BitVec 32) : Fin 64 :=
  ⟨(hash_int (pid.signExtend 64)).toNat % HT_SIZE PID_HASH_BITS, Nat.mod_lt _ (by decide)⟩

/-- `enum proc_state`. -/
inductive ProcState where
  | PROC_RUNNABLE
  | PROC_RUNNING
  | PROC_SLEEPING
  | PROC_ZOMBIE
  deriving DecidableEq

/-- The list nodes inside `struct proc`. -/
inductive Link where
  | run_list
  | wait_link
  | tsleep_link
  | sibling
  | all_list
  | pid_link
  deriving DecidableEq

/-- The wait queues: the one in each process, and those of the sleep locks and of
the disk. -/
inductive WaitQueue where
  | child_wq (p : Nat)
  | other (n : Nat)
  deriving DecidableEq

/-- The list heads. -/
inductive Head where
  | run_queue
  | tsleep_list
  | all_procs
  | pid_table (bucket : Fin 64)
  | wq (w : WaitQueue)
  | children (p : Nat)
  deriving DecidableEq

/-- The node by which a process is on a list. -/
def Head.link : Head → Link
  | .run_queue => .run_list
  | .tsleep_list => .tsleep_link
  | .all_procs => .all_list
  | .pid_table _ => .pid_link
  | .wq _ => .wait_link
  | .children _ => .sibling

/-- The process that the list head is a part of. -/
def Head.owner : Head → Option Nat
  | .wq (.child_wq p) => some p
  | .children p => some p
  | _ => none

/-- A `struct list_head` of the scheduler: a head, or a node in the process at an
address. -/
inductive Node where
  | head (h : Head)
  | link (l : Link) (p : Nat)
  deriving DecidableEq

def Node.owner : Node → Option Nat
  | .head h => h.owner
  | .link _ p => some p

/-- The memory of the node is allocated. -/
def Node.alive (live : List Nat) (n : Node) : Bool := n.owner.all (· ∈ live)

/-- How far a `proc_fork` is that has created its child. -/
inductive ForkStage where
  | created
  | reparented
  deriving DecidableEq

/-- `struct proc` without its locks, stack and address space. `forking` is the
local `child` of a `proc_fork` that the process is in. -/
structure Proc where
  pid : BitVec 32 := 0
  state : ProcState := .PROC_RUNNABLE
  parent : Option Nat := none
  killed : Bool := false
  exit_status : BitVec 32 := 0
  wake_time : Nat := 0
  forking : Option (Nat × ForkStage) := none

/-- The process structures by address, with those that are allocated, and the
global variables of `proc.c`. -/
structure ProcTable where
  live : List Nat := []
  proc : Nat → Proc := fun _ => {}
  next_pid : BitVec 32 := 0
  current : Option Nat := none
  init_proc : Option Nat := none
  timer : Nat := 0

/-- The state of the scheduler, with its lists as linked nodes. -/
structure Procs extends ProcTable where
  links : Links Node

def ProcTable.setProc (p : Nat) (f : Proc → Proc) (t : ProcTable) : ProcTable :=
  { t with proc := Function.update t.proc p (f (t.proc p)) }

/-- A `list.h` function on nodes in allocated memory. -/
def onNodes {α : Type} (ns : List Node) (x : Prog (Links Node) α) : Prog Procs α := do
  let s ← get
  if ns.all (Node.alive s.live) then Prog.onField Procs.links (fun links s => { s with links }) x
  else Prog.undefined

/-- `list_add_tail` of a process. -/
def addTail (p : Nat) (h : Head) : Prog Procs Unit :=
  onNodes [.link h.link p, .head h] (list_add_tail (.link h.link p) (.head h))

/-- `list_add` of a process. -/
def addFront (p : Nat) (h : Head) : Prog Procs Unit :=
  onNodes [.link h.link p, .head h] (list_add (.link h.link p) (.head h))

/-- `list_del` of a process. -/
def del (l : Link) (p : Nat) : Prog Procs Unit := onNodes [.link l p] (list_del (.link l p))

/-- `list_empty`. -/
def isEmpty (n : Node) : Prog Procs Bool := onNodes [n] (list_empty n)

def getProc (p : Nat) : Prog Procs Proc := do
  let s ← get
  if p ∈ s.live then pure (s.proc p) else Prog.undefined

def setProc (p : Nat) (f : Proc → Proc) : Prog Procs Unit := do
  let s ← get
  if p ∈ s.live then set { s with toProcTable := s.toProcTable.setProc p f } else Prog.undefined

/-- `container_of` for a node on the list `h`. -/
def list_entry (h : Head) : Node → Prog Procs Nat
  | .link l p => if l = h.link then pure p else Prog.undefined
  | .head _ => Prog.undefined

/-- `list_first_entry`. -/
def list_first_entry (h : Head) : Prog Procs Nat := do
  let s ← get
  match s.links.next (.head h) with
  | some n => list_entry h n
  | none => Prog.undefined

/-- `list_for_each_entry`. No list has more entries than there are processes. -/
def list_for_each_entry {α : Type} (h : Head) (body : Nat → Prog Procs (Option α)) : Prog Procs (Option α) := do
  let s ← get
  list_for_each Procs.links (.head h) (fun n => do body (← list_entry h n)) (s.live.length + 1)
    (s.links.next (.head h))

/-- `list_for_each_entry_safe`. -/
def list_for_each_entry_safe {α : Type} (h : Head) (body : Nat → Prog Procs (Option α)) :
    Prog Procs (Option α) := do
  let s ← get
  list_for_each_safe Procs.links (.head h) (fun n => do body (← list_entry h n)) (s.live.length + 1)
    (s.links.next (.head h)) ((s.links.next (.head h)).bind s.links.next)

/-- `alloc_pid`. -/
def alloc_pid : Prog Procs (BitVec 32) := do
  let s ← get
  set { s with next_pid := s.next_pid + 1 }
  return s.next_pid

/-- `this_proc`. -/
def this_proc : Prog Procs Nat := do
  let s ← get
  match s.current with
  | some p => pure p
  | none => Prog.panic "this_proc: no current process"

/-- `run_queue_add`. -/
def run_queue_add (p : Nat) : Prog Procs Unit := addTail p .run_queue

/-- `sched`, with the assignment that the scheduler makes when it is back. -/
def sched : Prog Procs Unit := modify fun s => { s with current := none }

/-- `pick_next`. -/
def pick_next : Prog Procs Nat := do
  if ← isEmpty (.head .run_queue) then Prog.panic "pick_next: run queue empty"
  else do
    let p ← list_first_entry .run_queue
    del .run_list p
    pure p

/-- One round of `scheduler`, from `pick_next` to `swtch`. `now` is the time that
`read_time` returns. -/
def scheduler (now : Nat) : Prog Procs Unit := do
  let p ← pick_next
  setProc p fun x => { x with state := .PROC_RUNNING }
  modify fun s => { s with current := some p }
  let deadline := (now + TIMER_INTERVAL) % 2 ^ 64
  if ← isEmpty (.head .tsleep_list) then modify fun s => { s with timer := deadline }
  else do
    let sleeper ← list_first_entry .tsleep_list
    let x ← getProc sleeper
    modify fun s => { s with timer := if x.wake_time < deadline then x.wake_time else deadline }

/-- `yield`. -/
def yield : Prog Procs Unit := do
  let p ← this_proc
  setProc p fun x => { x with state := .PROC_RUNNABLE }
  run_queue_add p
  sched

/-- `wq_sleep`. -/
def wq_sleep (w : WaitQueue) : Prog Procs Unit := do
  let p ← this_proc
  addTail p (.wq w)
  setProc p fun x => { x with state := .PROC_SLEEPING }
  sched

/-- `wq_wake_one`. -/
def wq_wake_one (w : WaitQueue) : Prog Procs Bool := do
  if ← isEmpty (.head (.wq w)) then pure false
  else do
    let p ← list_first_entry (.wq w)
    del .wait_link p
    setProc p fun x => { x with state := .PROC_RUNNABLE }
    run_queue_add p
    pure true

/-- The loop of `wq_wake_all`. Its body is that of `wq_wake_one`. -/
def wq_wake_all_loop (w : WaitQueue) : Nat → Prog Procs Unit
  | 0 => Prog.diverge
  | fuel + 1 => do
    if ← wq_wake_one w then wq_wake_all_loop w fuel else pure ()

/-- `wq_wake_all`. -/
def wq_wake_all (w : WaitQueue) : Prog Procs Unit := do
  let s ← get
  wq_wake_all_loop w (s.live.length + 1)

/-- The loop of `proc_exit` that hands the children of `p` to init. -/
def reparent_loop (p : Nat) : Nat → Prog Procs Unit
  | 0 => Prog.diverge
  | fuel + 1 => do
    if ← isEmpty (.head (.children p)) then pure ()
    else do
      let child ← list_first_entry (.children p)
      let s ← get
      setProc child fun x => { x with parent := s.init_proc }
      del .sibling child
      match s.init_proc with
      | some init => addTail child (.children init)
      | none => Prog.undefined
      reparent_loop p fuel

/-- `proc_exit`. -/
def proc_exit (status : BitVec 32) : Prog Procs Unit := do
  let p ← this_proc
  let x ← getProc p
  if x.pid.toInt ≤ 1 then Prog.panic "idle or init exiting"
  else do
    let s ← get
    reparent_loop p (s.live.length + 1)
    let x ← getProc p
    match x.parent with
    | some parent => let _ ← wq_wake_one (.child_wq parent)
    | none => Prog.undefined
    setProc p fun x => { x with exit_status := status, state := .PROC_ZOMBIE }
    sched

/-- `kmalloc` of a process structure at `p`, and the `memset` behind it. -/
def kmalloc_proc (p : Nat) : Prog Procs Unit := modify fun s =>
  { s with
    live := p :: s.live
    proc := Function.update s.proc p {}
    links := {
      next := fun n => if n.owner = some p then none else s.links.next n
      prev := fun n => if n.owner = some p then none else s.links.prev n } }

/-- `kmfree` of a process structure. -/
def kmfree_proc (p : Nat) : Prog Procs Unit := modify fun s => { s with live := s.live.erase p }

/-- `free_proc`. -/
def free_proc (p : Nat) : Prog Procs Unit := do
  del .sibling p
  del .all_list p
  del .pid_link p
  kmfree_proc p

/-- One round of the loop of `proc_wait`: it returns, or the process goes to
`proc_exit`, or it has slept and will try again. -/
inductive WaitResult where
  | no_children
  | reaped (pid status : BitVec 32)
  | killed
  | slept
  deriving DecidableEq

/-- `proc_wait` up to `wq_sleep`. -/
def proc_wait : Prog Procs WaitResult := do
  let p ← this_proc
  if ← isEmpty (.head (.children p)) then pure .no_children
  else do
    let found ← list_for_each_entry (.children p) fun child => do
      let x ← getProc child
      if x.state = .PROC_ZOMBIE then do
        free_proc child
        pure (some (x.pid, x.exit_status))
      else pure none
    match found with
    | some (pid, status) => pure (.reaped pid status)
    | none => do
      let x ← getProc p
      if x.killed then pure .killed
      else do
        wq_sleep (.child_wq p)
        pure .slept

/-- `proc_kill`, taken as one step from the lookup on. -/
def proc_kill (pid : BitVec 32) : Prog Procs Int := do
  let found ← list_for_each_entry (.pid_table (bucket pid)) fun p => do
    let x ← getProc p
    if x.pid = pid then pure (some p) else pure none
  match found with
  | none => pure (-1)
  | some p => do
    setProc p fun x => { x with killed := true }
    let x ← getProc p
    if x.state = .PROC_SLEEPING then do
      if !(← isEmpty (.link .tsleep_link p)) then
        onNodes [.link .tsleep_link p] (list_del_init (.link .tsleep_link p))
      else del .wait_link p
      setProc p fun x => { x with state := .PROC_RUNNABLE }
      run_queue_add p
    pure 0

/-- `proc_create`. `mem` is what `kmalloc` returns, and `kstack` whether there was
a page for the kernel stack. -/
def proc_create (mem : Option Nat) (kstack : Bool) : Prog Procs (Option Nat) := do
  match mem with
  | none => pure none
  | some p => do
    kmalloc_proc p
    let pid ← alloc_pid
    setProc p fun x => { x with pid }
    if !kstack then do
      kmfree_proc p
      pure none
    else do
      onNodes [.head (.wq (.child_wq p))] (INIT_LIST_HEAD (.head (.wq (.child_wq p))))
      onNodes [.head (.children p)] (INIT_LIST_HEAD (.head (.children p)))
      onNodes [.link .wait_link p] (INIT_LIST_HEAD (.link .wait_link p))
      onNodes [.link .tsleep_link p] (INIT_LIST_HEAD (.link .tsleep_link p))
      let s ← get
      match s.init_proc with
      | some init => do
        setProc p fun x => { x with parent := some init }
        addTail p (.children init)
      | none => pure ()
      pure (some p)

/-- The end of `proc_create_kernel` and of `proc_fork`. -/
def publish (p : Nat) : Prog Procs Unit := do
  setProc p fun x => { x with state := .PROC_RUNNABLE }
  addTail p .all_procs
  run_queue_add p
  let x ← getProc p
  addFront p (.pid_table (bucket x.pid))

/-- `proc_create_kernel`. -/
def proc_create_kernel (mem : Option Nat) (kstack : Bool) : Prog Procs Nat := do
  match ← proc_create mem kstack with
  | some p => do
    publish p
    pure p
  | none => Prog.panic "proc_create_kernel: out of memory"

/-- `proc_bootstrap`. -/
def proc_bootstrap (idle init : Nat) : Prog Procs Unit := do
  let _ ← proc_create_kernel (some idle) true
  let p ← proc_create_kernel (some init) true
  modify fun s => { s with init_proc := some p }

/-- `sys_sleep` up to `sched`. -/
def sys_sleep (now ms : Nat) : Prog Procs Unit := do
  let p ← this_proc
  let ticks := MS_TO_MTIME (if ms < SLEEP_MS_MAX then ms else SLEEP_MS_MAX)
  setProc p fun x => { x with wake_time := (now + ticks) % 2 ^ 64 }
  let x ← getProc p
  let found ← list_for_each_entry .tsleep_list fun pos => do
    let y ← getProc pos
    if x.wake_time < y.wake_time then pure (some pos) else pure none
  let insert_point : Node :=
    match found with
    | some pos => .link .tsleep_link pos
    | none => .head .tsleep_list
  onNodes [.link .tsleep_link p, insert_point] (list_add_tail (.link .tsleep_link p) insert_point)
  setProc p fun x => { x with state := .PROC_SLEEPING }
  sched

/-- The end of `sys_sleep`. -/
def sys_sleep_return : Prog Procs Unit := do
  let p ← this_proc
  setProc p fun x => { x with wake_time := 0 }

/-- `wake_expired_sleepers`. -/
def wake_expired_sleepers (now : Nat) : Prog Procs Unit := do
  let _ ← list_for_each_entry_safe .tsleep_list fun pos => do
    let x ← getProc pos
    if now < x.wake_time then pure (some ())
    else do
      onNodes [.link .tsleep_link pos] (list_del_init (.link .tsleep_link pos))
      setProc pos fun x => { x with state := .PROC_RUNNABLE }
      run_queue_add pos
      pure none

/-- `proc_fork` up to the return of `proc_create`. -/
def fork_create (mem : Option Nat) (kstack : Bool) : Prog Procs Unit := do
  let p ← this_proc
  match ← proc_create mem kstack with
  | some child => setProc p fun x => { x with forking := some (child, .created) }
  | none => pure ()

/-- The cleanup when a later allocation of `proc_create_user` or `vma_dup_all` fails. -/
def fork_fail (child : Nat) : Prog Procs Unit := do
  let p ← this_proc
  del .sibling child
  kmfree_proc child
  setProc p fun x => { x with forking := none }

/-- The `wait_lock` section of `proc_fork`. -/
def fork_reparent (child : Nat) : Prog Procs Unit := do
  let p ← this_proc
  del .sibling child
  setProc child fun x => { x with parent := some p }
  addTail child (.children p)
  setProc p fun x => { x with forking := some (child, .reparented) }

/-- The last section of `proc_fork`. -/
def fork_publish (child : Nat) : Prog Procs Unit := do
  let p ← this_proc
  publish child
  setProc p fun x => { x with forking := none }

namespace Procs

/-- The steps of the processes, the scheduler and the interrupt handlers, each
one a section with interrupts off. The lookup of `proc_kill` belongs to its
section, and the statements of `proc_fork` outside of one are single steps. -/
inductive Act where
  | scheduler (now : Nat)
  | yield
  | wq_sleep (n : Nat)
  | wq_wake_one (w : WaitQueue)
  | wq_wake_all (w : WaitQueue)
  | sys_sleep (now ms : Nat)
  | sys_sleep_return
  | wake_expired_sleepers (now : Nat)
  | proc_kill (pid : BitVec 32)
  | proc_exit (status : BitVec 32)
  | proc_wait
  | proc_create_kernel (p : Nat)
  | fork_create (mem : Option Nat) (kstack : Bool)
  | fork_fail (child : Nat)
  | fork_reparent (child : Nat)
  | fork_publish (child : Nat)

def exec : Act → Prog Procs Unit
  | .scheduler now => bobchouos.scheduler now
  | .yield => bobchouos.yield
  | .wq_sleep n => bobchouos.wq_sleep (.other n)
  | .wq_wake_one w => do let _ ← bobchouos.wq_wake_one w
  | .wq_wake_all w => bobchouos.wq_wake_all w
  | .sys_sleep now ms => bobchouos.sys_sleep now ms
  | .sys_sleep_return => bobchouos.sys_sleep_return
  | .wake_expired_sleepers now => bobchouos.wake_expired_sleepers now
  | .proc_kill pid => do let _ ← bobchouos.proc_kill pid
  | .proc_exit status => bobchouos.proc_exit status
  | .proc_wait => do let _ ← bobchouos.proc_wait
  | .proc_create_kernel p => do let _ ← bobchouos.proc_create_kernel (some p) true
  | .fork_create mem kstack => bobchouos.fork_create mem kstack
  | .fork_fail child => bobchouos.fork_fail child
  | .fork_reparent child => bobchouos.fork_reparent child
  | .fork_publish child => bobchouos.fork_publish child

/-- The scheduler runs when no process does. `kmalloc` returns memory that is not
in use, a wait queue is not used after its process is freed, and `proc_fork`
takes its steps in order. A process may otherwise do anything at any time. -/
def Enabled (s : Procs) : Act → Prop
  | .scheduler _ => s.current = none
  | .wq_wake_one w | .wq_wake_all w => s.current ≠ none ∧ (Node.head (.wq w)).alive s.live = true
  | .proc_create_kernel p => s.current ≠ none ∧ p ∉ s.live
  | .fork_create mem _ => ∃ p, s.current = some p ∧ (s.proc p).forking = none ∧ ∀ c, mem = some c → c ∉ s.live
  | .fork_fail c | .fork_reparent c => ∃ p, s.current = some p ∧ (s.proc p).forking = some (c, .created)
  | .fork_publish c => ∃ p, s.current = some p ∧ (s.proc p).forking = some (c, .reparented)
  | _ => s.current ≠ none

/-- The memory before the first process: the static list heads are empty lists. -/
def start : Procs where
  links := {
    next := fun n => if n.owner = none then some n else none
    prev := fun n => if n.owner = none then some n else none }

/-- Runs start after `proc_bootstrap`. -/
def system : Lts Procs Act where
  init s := ∃ idle init, idle ≠ init ∧ proc_bootstrap idle init start = .ok ((), s)
  step a s s' := s.Enabled a ∧ exec a s = .ok ((), s')

end Procs

end bobchouos
