import BobchouOS.Lib.Lts
import BobchouOS.Virtio.Model

open lib

namespace bobchouos

def NBUF : Nat := 30

/-- `struct sleeplock`, without its internal spinlock and wait queue. -/
structure SleepLock where
  locked : Bool := false
  pid : Nat := 0
  deriving DecidableEq

/-- The static variable `bcache`: the buffer pool with the sleep lock of each
buffer, and the LRU list from the most to the least recently used. -/
structure Bcache where
  buf : Nat → Buf := fun _ => {}
  lock : Nat → SleepLock := fun _ => {}
  lru : List Nat := []

namespace Bcache

def setBuf (c : Bcache) (b : Nat) (buf : Buf) : Bcache := { c with buf := Function.update c.buf b buf }

def setLock (c : Bcache) (b : Nat) (lock : SleepLock) : Bcache :=
  { c with lock := Function.update c.lock b lock }

/-- Whether buffer `b` has the key that `bget` looks for. -/
def hasKey (c : Bcache) (dev blockno b : Nat) : Bool :=
  (c.buf b).dev = dev && (c.buf b).blockno = blockno

end Bcache

/-- `binit`: each buffer of the zeroed pool is put at the front of the list. -/
def binit : Bcache := { lru := (List.range NBUF).foldl (fun lru i => i :: lru) [] }

/-- The critical section of `bget`. Returns the buffer on which the caller then
takes the sleep lock. -/
def bget (dev blockno : Nat) : Prog Bcache Nat := do
  let c ← get
  match c.lru.find? (c.hasKey dev blockno) with
  | some b =>
    set (c.setBuf b { c.buf b with refcnt := (c.buf b).refcnt + 1 })
    pure b
  | none =>
    match c.lru.reverse.find? fun b => (c.buf b).refcnt = 0 with
    | some b =>
      set (c.setBuf b { c.buf b with dev, blockno, valid := false, refcnt := 1 })
      pure b
    | none => Prog.panic "bget: no buffers"

/-- The end of `sleep_lock`, when the lock has become free. -/
def sleep_lock (pid b : Nat) (c : Bcache) : Bcache := c.setLock b ⟨true, pid⟩

/-- `sleep_unlock`. -/
def sleep_unlock (b : Nat) (c : Bcache) : Bcache := c.setLock b ⟨false, 0⟩

/-- `sleep_holding`. -/
def sleep_holding (pid b : Nat) (c : Bcache) : Bool := (c.lock b).locked && (c.lock b).pid = pid

def setType (b type : Nat) (c : Bcache) : Bcache :=
  c.setBuf b { c.buf b with req := { (c.buf b).req with type } }

/-- `bwrite` up to the call of `virtio_blk_rw`. -/
def bwrite (pid b : Nat) : Prog Bcache Unit := do
  let c ← get
  if !sleep_holding pid b c then Prog.panic "bwrite: buf not locked"
  else set (setType b VIRTIO_BLK_T_OUT c)

/-- `brelse` up to its critical section. -/
def brelse (pid b : Nat) : Prog Bcache Unit := do
  let c ← get
  if !sleep_holding pid b c then Prog.panic "brelse: buf not locked"
  else set (sleep_unlock b c)

/-- The critical section of `brelse`. -/
def brelse_ref (b : Nat) (c : Bcache) : Bcache :=
  let c := c.setBuf b { c.buf b with refcnt := (c.buf b).refcnt - 1 }
  if (c.buf b).refcnt = 0 then { c with lru := b :: c.lru.erase b } else c

/-- `bpin`. -/
def bpin (b : Nat) (c : Bcache) : Bcache :=
  c.setBuf b { c.buf b with refcnt := (c.buf b).refcnt + 1 }

/-- `bunpin`. -/
def bunpin (b : Nat) (c : Bcache) : Bcache :=
  c.setBuf b { c.buf b with refcnt := (c.buf b).refcnt - 1 }

/-- How far a process is between the increment of `bget` and the decrement of
`brelse`: waiting for the sleep lock, returned from `bget`, in the
`virtio_blk_rw` of `bread`, returned from `bread`, in the `virtio_blk_rw` of
`bwrite`, behind the `sleep_unlock` of `brelse`. -/
inductive Stage where
  | locking
  | got
  | reading
  | held
  | writing
  | releasing
  deriving DecidableEq

/-- The stages in which the process has the sleep lock. -/
def Stage.owns : Stage → Bool
  | .locking | .releasing => false
  | .got | .reading | .held | .writing => true

/-- One use of a buffer by a process, with the key it asked for. The process has
changed the data since the last `bwrite` if `dirty`. -/
structure Session where
  pid : Nat
  buf : Nat
  dev : Nat
  blockno : Nat
  stage : Stage
  dirty : Bool := false
  deriving DecidableEq

/-- The buffer cache in use: the pool, the blocks of the disk, the open sessions
and the number of pins on each buffer. -/
structure Bio where
  cache : Bcache := {}
  platter : Nat → BlockData := fun _ _ => 0
  sessions : List Session := []
  pins : Nat → Nat := fun _ => 0

namespace Bio

/-- The steps of the processes, at the granularity of critical sections and
sleep-lock acquisitions. `i` is the position of a session. -/
inductive Act where
  | bread (pid dev blockno : Nat)
  | acquire (i : Nat)
  | check (i : Nat)
  | load (i : Nat)
  | modify (i : Nat) (data : BlockData)
  | bwrite (i : Nat)
  | store (i : Nat)
  | brelse (i : Nat)
  | brelse_ref (i : Nat)
  | bpin (i : Nat)
  | bunpin (b : Nat)

/-- The process is not inside a call. -/
def Ready (s : Bio) (pid : Nat) : Prop := ∀ x ∈ s.sessions, x.pid = pid → x.stage = .held

/-- Session `i` is in a stage. -/
def At (s : Bio) (i : Nat) (stage : Stage) : Prop := ∃ x, s.sessions[i]? = some x ∧ x.stage = stage

/-- Session `i` has returned from `bread` and its process makes another call. -/
def Calls (s : Bio) (i : Nat) : Prop :=
  ∃ x, s.sessions[i]? = some x ∧ x.stage = .held ∧ s.Ready x.pid

def Enabled (s : Bio) : Act → Prop
  | .bread pid _ _ => s.Ready pid
  | .acquire i => ∃ x, s.sessions[i]? = some x ∧ x.stage = .locking ∧ (s.cache.lock x.buf).locked = false
  | .check i => s.At i .got
  | .load i => s.At i .reading
  | .modify i _ => s.Calls i
  | .bwrite i => s.Calls i
  | .store i => s.At i .writing
  | .brelse i => s.Calls i
  | .brelse_ref i => s.At i .releasing
  | .bpin i => s.Calls i
  | .bunpin b => 0 < s.pins b

def onCache {α : Type} (x : Prog Bcache α) : Prog Bio α :=
  Prog.onField cache (fun cache s => { s with cache }) x

def setSession (i : Nat) (x : Session) (s : Bio) : Bio := { s with sessions := s.sessions.set i x }

/-- A step of session `i`. -/
def withSession (i : Nat) (f : Session → Prog Bio Unit) : Prog Bio Unit := do
  let s ← get
  match s.sessions[i]? with
  | some x => f x
  | none => pure ()

/-- The end of the `virtio_blk_rw` of `bread` and the assignment behind it. The
driver addresses the disk by the block number alone. -/
def loadBuf (b : Nat) (s : Bio) : Bio :=
  let buf := s.cache.buf b
  { s with cache := s.cache.setBuf b { buf with data := s.platter buf.blockno, valid := true } }

/-- The end of the `virtio_blk_rw` of `bwrite`. -/
def storeBuf (b : Nat) (s : Bio) : Bio :=
  let buf := s.cache.buf b
  { s with platter := Function.update s.platter buf.blockno buf.data }

def setData (b : Nat) (data : BlockData) (s : Bio) : Bio :=
  let buf := s.cache.buf b
  { s with cache := s.cache.setBuf b { buf with data } }

def exec : Act → Prog Bio Unit
  | .bread pid dev blockno => do
    let b ← onCache (bget dev blockno)
    modify fun s => { s with sessions := ⟨pid, b, dev, blockno, .locking, false⟩ :: s.sessions }
  | .acquire i => withSession i fun x => do
    onCache (modify (sleep_lock x.pid x.buf))
    modify (setSession i { x with stage := .got })
  | .check i => withSession i fun x => do
    let s ← get
    if (s.cache.buf x.buf).valid then
      modify (setSession i { x with stage := .held })
    else do
      onCache (modify (setType x.buf VIRTIO_BLK_T_IN))
      modify (setSession i { x with stage := .reading })
  | .load i => withSession i fun x => do
    modify (loadBuf x.buf)
    modify (setSession i { x with stage := .held })
  | .modify i data => withSession i fun x => do
    modify (setData x.buf data)
    modify (setSession i { x with dirty := true })
  | .bwrite i => withSession i fun x => do
    onCache (bobchouos.bwrite x.pid x.buf)
    modify (setSession i { x with stage := .writing })
  | .store i => withSession i fun x => do
    modify (storeBuf x.buf)
    modify (setSession i { x with stage := .held, dirty := false })
  | .brelse i => withSession i fun x => do
    onCache (bobchouos.brelse x.pid x.buf)
    modify (setSession i { x with stage := .releasing })
  | .brelse_ref i => withSession i fun x => do
    onCache (modify (bobchouos.brelse_ref x.buf))
    modify fun s => { s with sessions := s.sessions.eraseIdx i }
  | .bpin i => withSession i fun x => do
    onCache (modify (bobchouos.bpin x.buf))
    modify fun s => { s with pins := Function.update s.pins x.buf (s.pins x.buf + 1) }
  | .bunpin b => do
    onCache (modify (bobchouos.bunpin b))
    modify fun s => { s with pins := Function.update s.pins b (s.pins b - 1) }

/-- Runs start after `binit`, with any disk. -/
def Boot (s : Bio) : Prop := s.cache = binit ∧ s.sessions = [] ∧ ∀ b, s.pins b = 0

def system : Lts Bio Act where
  init := Boot
  step a s s' := s.Enabled a ∧ exec a s = .ok ((), s')

end Bio

end bobchouos
