import BobchouOS.Proc.Model
import BobchouOS.Vm.System

open lib

namespace bobchouos

def ENOSYS : Int := 38
def EBADF : Int := 9
def EINVAL : Int := 22

namespace Vm

/-- `sizeof(kbuf)` in `sys_write`. -/
def SIZEOF_KBUF : Nat := 128

/-- The loop of `sys_write`. The result has the bytes that went to `uart_putc`. Every
round writes at least one byte. -/
def writeLoop (p : Proc) (uaddr len : Nat) : Nat → Bytes → Prog Kmem (Int × Bytes)
  | 0, out => pure (out.length, out)
  | rounds + 1, out =>
    if out.length < len then do
      let n := min (len - out.length) SIZEOF_KBUF
      let (r, kbuf) ← copyin p ((uaddr + out.length) % 2 ^ 64) n
      if r < 0 then
        pure (-EFAULT, out)
      else
        writeLoop p uaddr len rounds (out ++ kbuf)
    else
      pure (out.length, out)

/-- `sys_write`. -/
def sys_write (p : Proc) (a0 a1 a2 : BitVec 64) : Prog Kmem (Int × Bytes) :=
  let fd := (a0.setWidth 32).toInt
  let len := a2.toNat
  if fd ≠ 1 then
    pure (-EBADF, [])
  else if len > 1024 then
    pure (-EINVAL, [])
  else
    writeLoop p a1.toNat len len []

/-- A string in a buffer, up to its NUL. -/
def cstr (bytes : Bytes) : Bytes := bytes.takeWhile (· ≠ 0)

/-- `sizeof(path)`, `sizeof(kargv_buf)` and the entries of `argv` in `sys_exec`. -/
def SIZEOF_PATH : Nat := 64
def SIZEOF_KARGV_BUF : Nat := 512
def NARGV : Nat := 16

/-- The loop of `sys_exec`. `argv` has the offsets in `kargv_buf` of the strings so
far, and `kargv_buf` the bytes up to `off`. The result is `none` for `-EFAULT`. -/
def fetchArgv (p : Proc) (uargv : Nat) : Nat → List Nat → Bytes → Prog Kmem (Option (List Nat × Bytes))
  | 0, argv, kargv_buf => pure (some (argv, kargv_buf))
  | rounds + 1, argv, kargv_buf => do
    let (r, bytes) ← copyin p ((uargv + argv.length * 8) % 2 ^ 64) 8
    if r < 0 then
      pure none
    else do
      let arg_va := (Mem.loadWord (fun i => bytes.getD i 0) 0).toNat
      if arg_va = 0 then
        pure (some (argv, kargv_buf))
      else do
        let (r, str) ← copyinstr p arg_va (SIZEOF_KARGV_BUF - kargv_buf.length)
        if r < 0 then
          pure none
        else
          fetchArgv p uargv rounds (argv ++ [kargv_buf.length]) (kargv_buf ++ str)

/-- `sys_exec` up to the call of `proc_exec`: the strings it passes, or `none` for
`-EFAULT`. -/
def fetchExec (p : Proc) (a0 a1 : BitVec 64) : Prog Kmem (Option (Bytes × List Bytes)) := do
  let (r, path) ← copyinstr p a0.toNat SIZEOF_PATH
  if r < 0 then
    pure none
  else do
    match ← fetchArgv p a1.toNat (NARGV - 1) [] [] with
    | none => pure none
    | some (argv, kargv_buf) => pure (some (cstr path, argv.map fun off => cstr (kargv_buf.drop off)))

/-- `sys_exec`. -/
def sys_exec (k : Symbols) (binaries : List Binary) (p : Proc) (a0 a1 : BitVec 64) : Prog Kmem (Int × Proc) := do
  match ← fetchExec p a0 a1 with
  | none => pure (-EFAULT, p)
  | some (path, argv) => proc_exec k binaries p path argv

/-- The memory that `proc_create` gets: the structure, and whether there is a page for
the kernel stack. -/
def proc_create_mem (s : Kmem) : Option Nat × Bool :=
  match kmalloc SIZEOF_PROC s with
  | .error _ => (none, false)
  | .ok (addr, s) =>
    if addr = 0 then
      (none, false)
    else
      match kalloc s with
      | .error _ => (some addr, false)
      | .ok (kstack, _) => (some addr, decide (kstack ≠ 0))

end Vm

/-- Where a process is in the kernel when the scheduler comes back to it: in
`user_proc_start`, in `sys_sleep`, or in `sys_wait`. -/
inductive Resumption where
  | start
  | sleep
  | wait (a0 : BitVec 64)
  deriving DecidableEq

/-- The process table, the memory, and what each process is to do in the kernel. -/
structure Os where
  procs : Procs
  mach : Vm.Machine
  call : Nat → Option Resumption

namespace Os

def onProcs {α : Type} (x : Prog Procs α) : Prog Os α := Prog.onField procs (fun s o => { o with procs := s }) x

def onMach {α : Type} (x : Prog Vm.Machine α) : Prog Os α := Prog.onField mach (fun m o => { o with mach := m }) x

def onKmem {α : Type} (x : Prog Kmem α) : Prog Os α := onMach (Vm.Machine.onKmem x)

def setCall (p : Nat) (call : Option Resumption) : Prog Os Unit :=
  modify fun o => { o with call := Function.update o.call p call }

/-- The process structure at an address, with its place in the machine. -/
def withProc {α : Type} (addr : Nat) (x : Nat → Vm.Proc → Prog Os α) : Prog Os α := do
  let o ← get
  let i := o.mach.procs.findIdx (·.addr == addr)
  match o.mach.procs[i]? with
  | none => Prog.undefined
  | some p => x i p

/-- The structure that `this_proc` returns. -/
def withCurrent {α : Type} (x : Nat → Vm.Proc → Prog Os α) : Prog Os α := do
  let c ← onProcs this_proc
  withProc c x

/-- `proc_exit`. The memory of the process stays until it is reaped. -/
def exit (status : BitVec 32) : Prog Os Unit := withCurrent fun i p => do
  onProcs (proc_exit status)
  onMach (Vm.Machine.setProc i { p with zombie := true })

/-- `sys_fork`, that is, `proc_fork`. -/
def sys_fork (k : Symbols) : Prog Os (Option Int) := withCurrent fun _ p => do
  let o ← get
  let (mem, kstack) := Vm.proc_create_mem o.mach.kmem
  onProcs (fork_create mem kstack)
  match ← onKmem (Vm.proc_fork k p) with
  | none => do
    match mem, kstack with
    | some child, true => onProcs (fork_fail child)
    | _, _ => pure ()
    pure (some (-1))
  | some child => do
    onMach (Vm.Machine.addProc child)
    setCall child.addr (some .start)
    onProcs (fork_reparent child.addr)
    onProcs (fork_publish child.addr)
    let x ← onProcs (getProc child.addr)
    pure (some x.pid.toInt)

/-- `sys_exec`. -/
def sys_exec (k : Symbols) (binaries : List Vm.Binary) (a0 a1 : BitVec 64) : Prog Os (Option Int) := withCurrent fun i p => do
  let (r, p') ← onKmem (Vm.sys_exec k binaries p a0 a1)
  onMach (Vm.Machine.setProc i p')
  pure (some r)

/-- The part of `free_proc` that is about memory, for the child that `proc_wait` has
taken off its lists. -/
def freeReaped : Prog Os Unit := do
  let o ← get
  let i := o.mach.procs.findIdx (·.addr ∉ o.procs.live)
  match o.mach.procs[i]? with
  | none => Prog.undefined
  | some child => do
    onKmem (Vm.free_proc child)
    onMach (modify fun m => { m with procs := m.procs.eraseIdx i })

/-- The bytes of an `int`. -/
def intBytes (x : BitVec 32) : Vm.Bytes := (List.range 4).map fun i => x.extractLsb' (8 * i) 8

/-- `sys_wait`. It does not return if the process sleeps or exits. -/
def sys_wait (a0 : BitVec 64) : Prog Os (Option Int) := withCurrent fun _ p => do
  match ← onProcs proc_wait with
  | .no_children => pure (some (-1))
  | .killed => do
    exit (-1)
    pure none
  | .slept => do
    setCall p.addr (some (.wait a0))
    pure none
  | .reaped pid kstatus => do
    freeReaped
    if 0 < pid.toInt ∧ a0 ≠ 0 then do
      let r ← onKmem (Vm.copyout p a0.toNat (intBytes kstatus))
      if r < 0 then
        pure (some (-EFAULT))
      else
        pure (some pid.toInt)
    else
      pure (some pid.toInt)

/-- `sys_getpid`. -/
def sys_getpid : Prog Os (Option Int) := do
  let c ← onProcs this_proc
  let x ← onProcs (getProc c)
  pure (some x.pid.toInt)

/-- `sys_kill`. -/
def sys_kill (a0 : BitVec 64) : Prog Os (Option Int) := do
  let r ← onProcs (proc_kill (a0.setWidth 32))
  pure (some r)

/-- `sys_sleep` up to `sched`. -/
def sys_sleep (now : Nat) (a0 : BitVec 64) : Prog Os (Option Int) := do
  let c ← onProcs this_proc
  onProcs (bobchouos.sys_sleep now a0.toNat)
  setCall c (some .sleep)
  pure none

/-- `sys_sbrk`. -/
def sys_sbrk (a0 : BitVec 64) : Prog Os (Option Int) := withCurrent fun i p => do
  let (r, p') ← onKmem (Vm.proc_sbrk p a0)
  onMach (Vm.Machine.setProc i p')
  pure (some r)

/-- The system calls. -/
inductive Sys where
  | write
  | exit
  | fork
  | exec
  | wait
  | getpid
  | kill
  | sleep
  | sbrk
  deriving DecidableEq

/-- The table `syscalls`. -/
def syscalls : List (Option Sys) :=
  [none, some .write, some .exit, some .fork, some .exec, some .wait, some .getpid, some .kill, some .sleep, some .sbrk]

/-- The entry for the number in `a7`. -/
def lookup (a7 : BitVec 64) : Option Sys :=
  let num := (a7.setWidth 32).toInt
  if 0 < num ∧ num < syscalls.length then syscalls[num.toNat]?.join else none

section Handlers

variable (k : Symbols) (binaries : List Vm.Binary) (now : Nat)

def handler (a0 a1 a2 : BitVec 64) : Sys → Prog Os (Option Int)
  | .write => withCurrent fun _ p => do
    let (r, _) ← onKmem (Vm.sys_write p a0 a1 a2)
    pure (some r)
  | .exit => do
    exit (a0.setWidth 32)
    pure none
  | .fork => sys_fork k
  | .exec => sys_exec k binaries a0 a1
  | .wait => sys_wait a0
  | .getpid => sys_getpid
  | .kill => sys_kill a0
  | .sleep => sys_sleep now a0
  | .sbrk => sys_sbrk a0

/-- `syscall`. The registers are those of the trapframe, `now` is the time. -/
def syscall (a7 a0 a1 a2 : BitVec 64) : Prog Os (Option Int) :=
  match lookup a7 with
  | some sys => handler k binaries now a0 a1 a2 sys
  | none => pure (some (-ENOSYS))

/-- The check of `user_trap_ret` and `kernel_trap_ret`. -/
def killed : Prog Os Bool := do
  let c ← onProcs this_proc
  let x ← onProcs (getProc c)
  pure x.killed

/-- `user_trap_ret` up to its scheduling decision. -/
def user_trap_ret : Prog Os Unit := do
  if ← killed then exit (-1) else pure ()

/-- The way back from a system call, if there is one. -/
def sysret (r : Option Int) : Prog Os (Option Int) :=
  match r with
  | none => pure none
  | some r => do
    user_trap_ret
    pure (some r)

/-- What happens next. A process makes an access, has an exception that is not a page
fault, or makes a system call; the scheduler goes on where a process was in the
kernel. -/
inductive Event where
  | scheduler (now : Nat)
  | idle
  | init_start
  | timer (now : Nat)
  | exception
  | load (va len : Nat)
  | store (va : Nat) (src : Vm.Bytes)
  | ecall (now : Nat) (a7 a0 a1 a2 : BitVec 64)
  | resume

/-- A user access. After a page fault that is not resolved, `user_trap` sets `killed`
and the process exits in `user_trap_ret`. -/
def access (op : Nat → Vm.Machine.Op) : Prog Os (Option Int) := withCurrent fun i _ => do
  match ← onMach ((op i).run k binaries) with
  | .ret r => do
    if r < 0 then exit (-1) else user_trap_ret
    pure none
  | _ => pure none

/-- The process goes on in the kernel. -/
def resume : Prog Os (Option Int) := do
  let c ← onProcs this_proc
  let o ← get
  match o.call c with
  | none => Prog.undefined
  | some call => do
    setCall c none
    match call with
    | .start => sysret (some 0)
    | .sleep => do
      onProcs sys_sleep_return
      sysret (some 0)
    | .wait a0 => do
      let r ← sys_wait a0
      sysret r

/-- What an event does. A system call gives back the value for `a0`. -/
def Event.run : Event → Prog Os (Option Int)
  | .scheduler now => do
    onProcs (bobchouos.scheduler now)
    pure none
  | .idle => do
    onProcs yield
    pure none
  | .init_start => withCurrent fun i _ => do
    let _ ← onMach ((Vm.Machine.Op.init_start i).run k binaries)
    user_trap_ret
    pure none
  | .timer now => do
    onProcs (wake_expired_sleepers now)
    if ← killed then exit (-1) else onProcs yield
    pure none
  | .exception => do
    exit (-1)
    pure none
  | .load va len => access k binaries fun i => .load i va len
  | .store va src => access k binaries fun i => .store i va src
  | .ecall now a7 a0 a1 a2 => do
    let r ← syscall k binaries now a7 a0 a1 a2
    sysret r
  | .resume => Os.resume

end Handlers

/-- `p` is the current process, in user mode or a kernel thread in its loop. -/
def Runs (o : Os) (p : Vm.Proc) : Prop := o.procs.current = some p.addr ∧ p ∈ o.mach.procs ∧ o.call p.addr = none

instance (o : Os) (p : Vm.Proc) : Decidable (o.Runs p) := inferInstanceAs (Decidable (_ ∧ _ ∧ _))

/-- A user process is in user mode. -/
def InUser (o : Os) : Prop := ∃ p ∈ o.mach.procs, o.Runs p ∧ p.pagetable ≠ 0

instance (o : Os) : Decidable o.InUser := inferInstanceAs (Decidable (∃ p ∈ o.mach.procs, o.Runs p ∧ p.pagetable ≠ 0))

/-- The kernel threads are `idle_thread` and `init_start`. One access stays on one
page. -/
def Event.Legal (o : Os) : Event → Prop
  | .scheduler _ => o.procs.current = none
  | .idle => ∃ p ∈ o.mach.procs, o.Runs p ∧ p.pagetable = 0 ∧ o.procs.init_proc ≠ some p.addr
  | .init_start => ∃ p ∈ o.mach.procs, o.Runs p ∧ p.pagetable = 0 ∧ o.procs.init_proc = some p.addr
  | .timer _ => ∃ p ∈ o.mach.procs, o.Runs p
  | .exception | .ecall _ _ _ _ _ => o.InUser
  | .load va len => o.InUser ∧ va % PG_SIZE + len ≤ PG_SIZE
  | .store va src => o.InUser ∧ va % PG_SIZE + src.length ≤ PG_SIZE
  | .resume => ∃ c ∈ o.procs.current, o.call c ≠ none

instance (o : Os) : DecidablePred (Event.Legal o)
  | .scheduler _ => inferInstanceAs (Decidable (o.procs.current = none))
  | .idle => inferInstanceAs (Decidable
      (∃ p ∈ o.mach.procs, o.Runs p ∧ p.pagetable = 0 ∧ o.procs.init_proc ≠ some p.addr))
  | .init_start => inferInstanceAs (Decidable
      (∃ p ∈ o.mach.procs, o.Runs p ∧ p.pagetable = 0 ∧ o.procs.init_proc = some p.addr))
  | .timer _ => inferInstanceAs (Decidable (∃ p ∈ o.mach.procs, o.Runs p))
  | .exception | .ecall _ _ _ _ _ => inferInstanceAs (Decidable o.InUser)
  | .load _ _ | .store _ _ => inferInstanceAs (Decidable (_ ∧ _))
  | .resume => inferInstanceAs (Decidable (∃ c ∈ o.procs.current, o.call c ≠ none))

def idleName : Vm.Bytes := [0x69, 0x64, 0x6c, 0x65]

/-- The state where `scheduler` starts: after `kmalloc_init` the drivers took pages, and
`proc_bootstrap` made two kernel threads. -/
def Boots (k : Symbols) (binaries : List Vm.Binary) (o : Os) : Prop :=
  ∃ m n outs idle init, (Vm.Machine.system k binaries).init m ∧
    Vm.Machine.runFrom k binaries (List.replicate n .kalloc ++ [.create idleName, .create Vm.Machine.initName]) m =
      some (o.mach, outs) ∧
    o.mach.procs.map Vm.Proc.addr = [idle, init] ∧ proc_bootstrap idle init Procs.start = .ok ((), o.procs) ∧
    o.call = fun _ => none

/-- The system calls of all processes, one at a time. -/
def system (k : Symbols) (binaries : List Vm.Binary) : Lts Os Event where
  init := Boots k binaries
  step e o o' := e.Legal o ∧ ∃ r, e.run k binaries o = .ok (r, o')

end Os

end bobchouos
