import BobchouOS.Proc.Model

open lib

namespace bobchouos

/-- The points of `kernel_trap` and `user_trap`, and of `kernel_trap_ret` and
`user_trap_ret` behind them. Interrupts are off except in `user_trap_ret` after a
system call. -/
inductive TrapStage where
  | timer
  | disarmed
  | expired
  | external (wq : Option Nat)
  | exception (killed : Bool)
  | ret (sie : Bool)
  | resume (sie : Bool)
  deriving DecidableEq

/-- Where a process is: in user mode, in a system call or a kernel thread, or in
the code for a trap that it took at another point. `sie` is the SIE flag. -/
inductive Point where
  | user
  | kernel (sie : Bool)
  | trap (stage : TrapStage) (back : Point)
  deriving DecidableEq

/-- Interrupts are delivered in user mode, and with SIE in the kernel. -/
def Point.deliverable : Point → Bool
  | .user => true
  | .kernel sie | .trap (.ret sie) _ | .trap (.resume sie) _ => sie
  | .trap _ _ => false

/-- The processes with the points they are at, `need_resched` and the time CSR.
`dispatched` is the time that the scheduler read for the current process, and
`armed` is false after `set_timer` in a trap. -/
structure Clocked where
  procs : Procs
  point : Nat → Point
  need_resched : Bool
  time : Nat
  dispatched : Nat
  armed : Bool

namespace Clocked

def onProcs {α : Type} (x : Prog Procs α) : Prog Clocked α := Prog.onField procs (fun procs s => { s with procs }) x

def goto (p : Nat) (point : Point) : Prog Clocked Unit :=
  modify fun s => { s with point := Function.update s.point p point }

/-- `set_timer(-1)` of the trap handlers. -/
def disarm : Prog Clocked Unit :=
  modify fun s => { s with procs := { s.procs with timer := 2 ^ 64 - 1 }, armed := false }

/-- The next statement of the code for a trap of the current process `p`. Both
kinds of trap end with tests of `killed` and of `need_resched`. -/
def trapStep (p : Nat) (back : Point) : TrapStage → Prog Clocked Unit
  | .timer => do
    disarm
    goto p (.trap .disarmed back)
  | .disarmed => do
    let s ← get
    onProcs (wake_expired_sleepers s.time)
    goto p (.trap .expired back)
  | .expired => do
    modify fun s => { s with need_resched := true }
    goto p (.trap (.ret false) back)
  | .external none => goto p (.trap (.ret false) back)
  | .external (some n) => do
    onProcs (wq_wake_all (.other n))
    goto p (.trap (.ret false) back)
  | .exception killed => do
    onProcs (setProc p fun x => { x with killed := x.killed || killed })
    goto p (.trap (.ret false) back)
  | .ret sie => do
    let x ← onProcs (getProc p)
    let s ← get
    if x.killed then
      onProcs (proc_exit (-1))
    else if s.need_resched then do
      modify fun s => { s with need_resched := false }
      goto p (.trap (.resume sie) back)
      onProcs yield
    else
      goto p (.trap (.resume sie) back)
  | .resume _ => goto p back

/-- The steps of system calls and kernel threads. -/
def isCall : Procs.Act → Bool
  | .scheduler _ | .wake_expired_sleepers _ => false
  | _ => true

/-- The steps: time passes, the scheduler runs, the current process does something
in the kernel, traps and returns from traps. -/
inductive Act where
  | tick (time : Nat)
  | scheduler
  | call (a : Procs.Act)
  | set_sie (sie : Bool)
  | ecall
  | user_trap_ret
  | interrupt (stage : TrapStage)
  | exception (killed : Bool)
  | trap

/-- A new user process starts in `user_trap_ret`, a new kernel thread with SIE off. -/
def start : Procs.Act → Prog Clocked Unit
  | .fork_publish c => goto c (.trap (.ret false) .user)
  | .proc_create_kernel p => goto p (.kernel false)
  | _ => pure ()

def exec (a : Act) : Prog Clocked Unit := do
  let s ← get
  match a, s.procs.current with
  | .tick time, _ => set { s with time }
  | .scheduler, _ => do
    onProcs (bobchouos.scheduler s.time)
    modify fun s => { s with dispatched := s.time, armed := true }
  | .call a, _ => do
    onProcs (Procs.exec a)
    start a
  | .set_sie sie, some p => goto p (.kernel sie)
  | .ecall, some p => goto p (.kernel false)
  | .user_trap_ret, some p =>
    match s.point p with
    | .kernel sie => goto p (.trap (.ret sie) .user)
    | _ => Prog.undefined
  | .interrupt stage, some p => goto p (.trap stage (s.point p))
  | .exception killed, some p => goto p (.trap (.exception killed) .user)
  | .trap, some p =>
    match s.point p with
    | .trap stage back => trapStep p back stage
    | _ => Prog.undefined
  | _, none => Prog.undefined

/-- The time does not go back. The timer interrupt is pending from its deadline
on, and an external interrupt at any time. -/
def Enabled (s : Clocked) : Act → Prop
  | .tick time => s.time ≤ time ∧ time < 2 ^ 64
  | .scheduler => s.procs.current = none
  | .call a => isCall a = true ∧ s.procs.Enabled a ∧ ∃ p sie, s.procs.current = some p ∧ s.point p = .kernel sie
  | .set_sie _ | .user_trap_ret => ∃ p sie, s.procs.current = some p ∧ s.point p = .kernel sie
  | .ecall | .exception _ => ∃ p, s.procs.current = some p ∧ s.point p = .user
  | .interrupt stage => (stage = .timer ∧ s.procs.timer ≤ s.time ∨ ∃ wq, stage = .external wq) ∧
      ∃ p, s.procs.current = some p ∧ (s.point p).deliverable = true
  | .trap => ∃ p stage back, s.procs.current = some p ∧ s.point p = .trap stage back

/-- Runs start after `proc_bootstrap`, at any time. -/
def system : Lts Clocked Act where
  init s := Procs.system.init s.procs ∧ s.point = (fun _ => .kernel false) ∧ s.armed = false
  step a s s' := s.Enabled a ∧ exec a s = .ok ((), s')

end Clocked

end bobchouos
