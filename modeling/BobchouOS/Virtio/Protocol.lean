import BobchouOS.Lib.Fifo
import BobchouOS.Lib.Lts
import BobchouOS.Virtio.Device

open lib

namespace bobchouos

/-- Where a process is in `virtio_blk_rw`. -/
inductive Pc where
  | idle
  | submit (b : Nat)
  | wait (b : Nat)
  deriving DecidableEq

/-- The block device in use: driver and device, whether the interrupt handler
is running, the processes, and the history of submissions and completions,
which no step reads. -/
structure BlkSys where
  machine : Machine := {}
  in_intr : Bool := false
  procs : Nat → Pc := fun _ => .idle
  submitted : List Nat := []
  completed : List Nat := []

namespace BlkSys

abbrev disk (s : BlkSys) : Disk := s.machine.blk.disk
abbrev bufs (s : BlkSys) : Nat → Buf := s.machine.blk.bufs
abbrev dev (s : BlkSys) : Device := s.machine.dev

/-- The steps: a process prepares a buffer or enters `virtio_blk_rw`, a pass
over one of the two critical sections of a process, the two moves of the
device, and the interrupt handler, which the device may overtake between any
two rounds of its loop. A sleeping process may wake and look again at any time,
since `wq_wake_all` and `proc_kill` both wake it. -/
inductive Act where
  | prepare (b : Nat) (blockno : Nat) (data : BlockData) (type : Nat)
  | call (p b : Nat)
  | submit (p : Nat)
  | wait (p : Nat)
  | fetch
  | complete (i : Nat)
  | intr_enter
  | reap
  | intr_exit

def onBlk {α : Type} (x : Prog Blk α) : Prog BlkSys α :=
  Prog.onField (fun s => s.machine.blk) (fun blk s => { s with machine := { s.machine with blk } }) x

def setPc (p : Nat) (pc : Pc) (s : BlkSys) : BlkSys := { s with procs := Function.update s.procs p pc }

/-- When a step can happen. A buffer in flight belongs to the device: it is
neither prepared nor submitted again. -/
def Enabled (s : BlkSys) : Act → Prop
  | .prepare b _ _ _ => (s.bufs b).disk = 0
  | .call p _ => s.procs p = .idle
  | .submit p => s.in_intr = false ∧ ∃ b, s.procs p = .submit b ∧ (s.bufs b).disk = 0
  | .wait p => s.in_intr = false ∧ ∃ b, s.procs p = .wait b
  | .fetch => s.dev.last_avail ≠ s.disk.avail.idx
  | .complete i => i < s.dev.taken.length
  | .intr_enter => s.in_intr = false
  | .reap => s.in_intr = true ∧ s.disk.used_idx ≠ s.disk.used.idx
  | .intr_exit => s.in_intr = true ∧ s.disk.used_idx = s.disk.used.idx

/-- A move of the device on the shared state. -/
def device (f : Machine → Option Machine) : Prog BlkSys Unit := do
  let s ← get
  match f s.machine with
  | some machine => set { s with machine }
  | none => Prog.undefined

/-- What a step does. -/
def exec : Act → Prog BlkSys Unit
  | .prepare b blockno data type =>
    onBlk (modify fun s => s.setBuf b
      { s.bufs b with blockno, data, req := { (s.bufs b).req with type } })
  | .call p b => modify (setPc p (.submit b))
  | .submit p => do
    let s ← get
    match s.procs p with
    | .submit b => do
      let published ← onBlk (virtio_blk_submit b)
      if published then
        modify fun s => { setPc p (.wait b) s with submitted := b :: s.submitted }
      else pure ()
    | _ => pure ()
  | .wait p => do
    let s ← get
    match s.procs p with
    | .wait b =>
      if (s.bufs b).disk = 1 then pure ()
      else if (s.bufs b).status ≠ VIRTIO_BLK_S_OK then
        Prog.panic "virtio_blk_rw: block %d failed, status=%d"
      else modify (setPc p .idle)
    | _ => pure ()
  | .fetch => device Machine.fetch
  | .complete i => device (Machine.complete i)
  | .intr_enter => modify fun s => { s with in_intr := true }
  | .reap => do
    let s ← get
    let owner := s.disk.info (s.disk.used.ring (s.disk.used_idx % NUM_DESC))
    onBlk bobchouos.reap
    modify fun s => { s with completed := owner.toList ++ s.completed }
  | .intr_exit => modify fun s => { s with in_intr := false }

/-- Runs start after `virtio_blk_init`, with no buffer in flight. -/
def system : Lts BlkSys Act where
  init s := s.disk = virtio_blk_init ∧ (∀ b, (s.bufs b).disk = 0) ∧ s.dev.last_avail = 0 ∧
    s.dev.taken = [] ∧ s.in_intr = false ∧ (∀ p, s.procs p = .idle) ∧ s.submitted = [] ∧ s.completed = []
  step a s s' := s.Enabled a ∧ exec a s = .ok ((), s')

end BlkSys

end bobchouos
