import BobchouOS.Bio.Model
import BobchouOS.Proc.Wait
import BobchouOS.Lib.Run
import Mathlib

open lib

namespace bobchouos

/-- The processes and the buffer cache, whose sleep locks are the sleep locks of
the kernel. For each process there is what it is in the middle of: the locks
between its `sleep_lock` and its `sleep_unlock`, the lock that it waits for in
`sleep_lock`, and the buffers between its `bget` and the end of its `brelse`. -/
structure Kern where
  procs : Procs
  cache : Bcache
  held : Nat → Finset Nat := fun _ => ∅
  waiting : Nat → Option Nat := fun _ => none
  uses : Nat → List Nat := fun _ => []

/-- The wait queue of sleep lock `n`. The other ones are those of the disk. -/
def lockQueue (n : Nat) : WaitQueue := .other (2 * n)

namespace Kern

def onProcs {α : Type} (x : Prog Procs α) : Prog Kern α := Prog.onField procs (fun procs k => { k with procs }) x

def onCache {α : Type} (x : Prog Bcache α) : Prog Kern α := Prog.onField cache (fun cache k => { k with cache }) x

def setHeld (p : Nat) (f : Finset Nat → Finset Nat) (k : Kern) : Kern :=
  { k with held := Function.update k.held p (f (k.held p)) }

def setWaiting (p : Nat) (v : Option Nat) (k : Kern) : Kern := { k with waiting := Function.update k.waiting p v }

def setUses (p : Nat) (f : List Nat → List Nat) (k : Kern) : Kern :=
  { k with uses := Function.update k.uses p (f (k.uses p)) }

/-- `sleep_lock` from the test of `locked` to its return or to the `sched` in
`wq_sleep`. -/
def sleep_lock (n : Nat) : Prog Kern Unit := do
  let p ← onProcs this_proc
  let x ← onProcs (getProc p)
  let k ← get
  if (k.cache.lock n).locked then do
    onProcs (wq_sleep (lockQueue n))
    modify (setWaiting p (some n))
  else do
    onCache (modify (bobchouos.sleep_lock x.pid.toNat n))
    modify (setWaiting p none)
    modify (setHeld p (insert n))

/-- `sleep_lock` from the return of `sched` in `wq_sleep`. -/
def sleep_lock_retry : Prog Kern Unit := do
  let p ← onProcs this_proc
  let k ← get
  match k.waiting p with
  | some n => sleep_lock n
  | none => pure ()

/-- `sleep_unlock`. -/
def sleep_unlock (n : Nat) : Prog Kern Unit := do
  let p ← onProcs this_proc
  onCache (modify (bobchouos.sleep_unlock n))
  let _ ← onProcs (wq_wake_one (lockQueue n))
  modify (setHeld p (·.erase n))

/-- The critical section of `bget`. -/
def bget (dev blockno : Nat) : Prog Kern Unit := do
  let p ← onProcs this_proc
  let b ← onCache (bobchouos.bget dev blockno)
  modify (setUses p (b :: ·))

/-- The critical section of `brelse`. -/
def brelse_ref (b : Nat) : Prog Kern Unit := do
  let p ← onProcs this_proc
  onCache (modify (bobchouos.brelse_ref b))
  modify (setUses p (·.erase b))

/-- `kernel_trap_ret` after a timer interrupt. -/
def kernel_trap_ret : Prog Kern Unit := do
  let p ← onProcs this_proc
  let x ← onProcs (getProc p)
  if x.killed then onProcs (proc_exit (-1)) else onProcs yield

/-- A process structure that is freed is in the middle of nothing. -/
def forget (k : Kern) : Kern :=
  { k with
    held := fun p => if p ∈ k.procs.live then k.held p else ∅
    waiting := fun p => if p ∈ k.procs.live then k.waiting p else none
    uses := fun p => if p ∈ k.procs.live then k.uses p else [] }

/-- The steps of the processes: those of the scheduler, those of the sleep locks
and of the buffer cache, and a timer interrupt. -/
inductive Act where
  | proc (a : Procs.Act)
  | sleep_lock (n : Nat)
  | sleep_lock_retry
  | sleep_unlock (n : Nat)
  | bget (dev blockno : Nat)
  | brelse_ref (b : Nat)
  | timer

def exec : Act → Prog Kern Unit
  | .proc a => do
    onProcs (Procs.exec a)
    modify forget
  | .sleep_lock n => sleep_lock n
  | .sleep_lock_retry => sleep_lock_retry
  | .sleep_unlock n => sleep_unlock n
  | .bget dev blockno => bget dev blockno
  | .brelse_ref b => brelse_ref b
  | .timer => do
    kernel_trap_ret
    modify forget

/-- The wait queues of the sleep locks are used by them only. -/
def Elsewhere : Procs.Act → Prop
  | .wq_sleep n | .wq_wake_one (.other n) | .wq_wake_all (.other n) => n % 2 = 1
  | _ => True

/-- The process has no sleep lock, no buffer and no child that it has not
published. -/
def Idle (k : Kern) (p : Nat) : Prop := k.held p = ∅ ∧ k.uses p = [] ∧ (k.procs.proc p).forking = none

/-- `proc_exit` is called by system calls, between which a process is idle, and
by `kernel_trap_ret`. A process that is back in `sleep_lock` goes on there, with
interrupts off. -/
def Enabled (k : Kern) : Act → Prop
  | .proc (.proc_exit _) => ∃ p, k.procs.current = some p ∧ k.waiting p = none ∧ k.Idle p
  | .proc a => k.procs.Enabled a ∧ (∀ p, k.procs.current = some p → k.waiting p = none) ∧ Elsewhere a
  | .sleep_lock_retry => ∃ p, k.procs.current = some p ∧ k.waiting p ≠ none
  | .sleep_unlock n => ∃ p, k.procs.current = some p ∧ k.waiting p = none ∧ n ∈ k.held p
  | .brelse_ref b => ∃ p, k.procs.current = some p ∧ k.waiting p = none ∧ b ∈ k.uses p
  | .sleep_lock _ | .bget _ _ | .timer => ∃ p, k.procs.current = some p ∧ k.waiting p = none

theorem Enabled.proc {k : Kern} {a : Procs.Act} (ha : k.Enabled (.proc a)) :
    k.procs.Enabled a ∧ (∀ p, k.procs.current = some p → k.waiting p = none) ∧ Elsewhere a ∧
      ∀ status, a = .proc_exit status → ∀ p, k.procs.current = some p → k.Idle p := by
  by_cases hexit : ∃ status, a = .proc_exit status
  · obtain ⟨status, rfl⟩ := hexit
    obtain ⟨p, hp, hw, hidle⟩ := ha
    have hself : ∀ q, k.procs.current = some q → q = p := by
      intro q hq
      rw [hp] at hq
      exact (Option.some.inj hq).symm
    refine ⟨by simp [Procs.Enabled, hp], fun q hq => ?_, trivial, fun _ _ q hq => ?_⟩
    · rwa [hself q hq]
    · rwa [hself q hq]
  · have ha' : k.procs.Enabled a ∧ (∀ p, k.procs.current = some p → k.waiting p = none) ∧ Elsewhere a := by
      cases a with
      | proc_exit status => exact absurd ⟨status, rfl⟩ hexit
      | _ => exact ha
    exact ⟨ha'.1, ha'.2.1, ha'.2.2, fun status heq => absurd ⟨status, heq⟩ hexit⟩

/-- Runs start after `proc_bootstrap` and `binit`. -/
def Boot (k : Kern) : Prop := ∃ procs, Procs.system.init procs ∧ k = { procs, cache := binit }

def system : Lts Kern Act where
  init := Boot
  step a k k' := k.Enabled a ∧ exec a k = .ok ((), k')

instance decidableElsewhere : DecidablePred Elsewhere
  | .wq_sleep n | .wq_wake_one (.other n) | .wq_wake_all (.other n) => inferInstanceAs (Decidable (n % 2 = 1))
  | .wq_wake_one (.child_wq _) | .wq_wake_all (.child_wq _) | .scheduler _ | .yield | .sys_sleep _ _
  | .sys_sleep_return | .wake_expired_sleepers _ | .proc_kill _ | .proc_exit _ | .proc_wait
  | .proc_create_kernel _ | .fork_create _ _ | .fork_fail _ | .fork_reparent _ | .fork_publish _ => isTrue trivial

instance decidableIdle (k : Kern) (p : Nat) : Decidable (k.Idle p) := inferInstanceAs (Decidable (_ ∧ _ ∧ _))

/-- `Enabled` for the steps of the scheduler but `proc_exit`. -/
def decidableProc (k : Kern) (a : Procs.Act) : Decidable (k.procs.Enabled a ∧
    (∀ p, k.procs.current = some p → k.waiting p = none) ∧ Elsewhere a) := inferInstance

instance decidableEnabled (k : Kern) : DecidablePred k.Enabled
  | .proc (.proc_exit _) => inferInstanceAs (Decidable
      (∃ p, k.procs.current = some p ∧ k.waiting p = none ∧ k.Idle p))
  | .sleep_lock_retry => inferInstanceAs (Decidable (∃ p, k.procs.current = some p ∧ k.waiting p ≠ none))
  | .sleep_unlock n => inferInstanceAs (Decidable
      (∃ p, k.procs.current = some p ∧ k.waiting p = none ∧ n ∈ k.held p))
  | .brelse_ref b => inferInstanceAs (Decidable
      (∃ p, k.procs.current = some p ∧ k.waiting p = none ∧ b ∈ k.uses p))
  | .sleep_lock _ | .bget _ _ | .timer => inferInstanceAs (Decidable
      (∃ p, k.procs.current = some p ∧ k.waiting p = none))
  | .proc (.scheduler now) => decidableProc k (.scheduler now)
  | .proc .yield => decidableProc k .yield
  | .proc (.wq_sleep n) => decidableProc k (.wq_sleep n)
  | .proc (.wq_wake_one w) => decidableProc k (.wq_wake_one w)
  | .proc (.wq_wake_all w) => decidableProc k (.wq_wake_all w)
  | .proc (.sys_sleep now ms) => decidableProc k (.sys_sleep now ms)
  | .proc .sys_sleep_return => decidableProc k .sys_sleep_return
  | .proc (.wake_expired_sleepers now) => decidableProc k (.wake_expired_sleepers now)
  | .proc (.proc_kill pid) => decidableProc k (.proc_kill pid)
  | .proc .proc_wait => decidableProc k .proc_wait
  | .proc (.proc_create_kernel p) => decidableProc k (.proc_create_kernel p)
  | .proc (.fork_create mem kstack) => decidableProc k (.fork_create mem kstack)
  | .proc (.fork_fail c) => decidableProc k (.fork_fail c)
  | .proc (.fork_reparent c) => decidableProc k (.fork_reparent c)
  | .proc (.fork_publish c) => decidableProc k (.fork_publish c)

section runs

variable (enabled : Kern → Act → Prop) [∀ k, DecidablePred (enabled k)]

/-- The steps `as` after a `proc_bootstrap` with idle at 1 and init at 2. -/
def bootRun (as : List Act) : Option Kern :=
  match proc_bootstrap 1 2 Procs.start with
  | .ok ((), procs) => runAll enabled exec as { procs, cache := binit }
  | .error _ => none

variable {enabled}

theorem reachable_bootRun {as : List Act} {k : Kern} {M : Lts Kern Act} (hinit : ∀ k, Boot k → M.init k)
    (hstep : ∀ a k k', enabled k a → exec a k = .ok ((), k') → M.step a k k') (hrun : bootRun enabled as = some k) :
    M.Reachable k := by
  unfold bootRun at hrun
  cases hboot : proc_bootstrap 1 2 Procs.start with
  | ok r =>
    rw [hboot] at hrun
    have hstart : M.Reachable { procs := r.2, cache := binit } :=
      .init (hinit _ ⟨r.2, ⟨1, 2, by decide, hboot⟩, rfl⟩)
    exact hstart.runAll hstep hrun
  | error halt =>
    rw [hboot] at hrun
    cases hrun

end runs

end Kern

end bobchouos
