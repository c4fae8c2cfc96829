import BobchouOS.Lib.Wp
import Mathlib

open lib

namespace bobchouos

def NUM_DESC : Nat := 8
def SECTOR_SIZE : Nat := 512
def BSIZE : Nat := 4096
def SECTORS_PER_BLOCK : Nat := BSIZE / SECTOR_SIZE

def VIRTQ_DESC_F_NEXT : Nat := 1 <<< 0
def VIRTQ_DESC_F_WRITE : Nat := 1 <<< 1

def VIRTIO_BLK_T_IN : Nat := 0
def VIRTIO_BLK_T_OUT : Nat := 1

def VIRTIO_BLK_S_OK : Nat := 0
def VIRTIO_BLK_S_UNSUPP : Nat := 2

/-- The contents of one block, in a buffer or on the disk. -/
abbrev BlockData := Fin BSIZE → BitVec 8

/-- `struct virtio_blk_req`. -/
structure VirtioBlkReq where
  type : Nat := 0
  reserved : Nat := 0
  sector : Nat := 0
  deriving DecidableEq

/-- `struct buf`, without its sleep lock and its LRU link. -/
structure Buf where
  dev : Nat := 0
  blockno : Nat := 0
  data : BlockData := fun _ => 0
  req : VirtioBlkReq := {}
  status : Nat := 0
  disk : Nat := 0
  valid : Bool := false
  refcnt : Int := 0

/-- What a descriptor's `addr` points at: one of the three fields of a buffer
that the driver lets the device access. A `struct buf *` is a number. -/
inductive DmaAddr where
  | null
  | req (b : Nat)
  | data (b : Nat)
  | status (b : Nat)
  deriving DecidableEq

/-- `struct virtq_desc`. -/
structure VirtqDesc where
  addr : DmaAddr := .null
  len : Nat := 0
  flags : Nat := 0
  next : Nat := 0
  deriving DecidableEq

/-- `struct virtq_avail` and, with the ids of its elements, `struct virtq_used`.
The index is 16 bits wide. -/
structure Virtq where
  idx : Nat := 0
  ring : Nat → Nat := fun _ => 0

/-- The static variable `disk` of the driver. `info` has no entry for null. -/
structure Disk where
  desc : Nat → VirtqDesc := fun _ => {}
  avail : Virtq := {}
  used : Virtq := {}
  used_idx : Nat := 0
  free : Nat → Bool := fun _ => false
  info : Nat → Option Nat := fun _ => none

/-- The driver and the buffers it is called with. -/
structure Blk where
  disk : Disk := {}
  bufs : Nat → Buf := fun _ => {}

namespace Blk

def setDesc (s : Blk) (i : Nat) (d : VirtqDesc) : Blk :=
  { s with disk := { s.disk with desc := Function.update s.disk.desc i d } }

def setFree (s : Blk) (i : Nat) (v : Bool) : Blk :=
  { s with disk := { s.disk with free := Function.update s.disk.free i v } }

def setInfo (s : Blk) (i : Nat) (b : Option Nat) : Blk :=
  { s with disk := { s.disk with info := Function.update s.disk.info i b } }

def setBuf (s : Blk) (b : Nat) (buf : Buf) : Blk :=
  { s with bufs := Function.update s.bufs b buf }

end Blk

/-- `count_free`. -/
def count_free (d : Disk) : Nat := (List.range NUM_DESC).countP fun i => d.free i

/-- `alloc_desc`. The source's -1 is `none`. -/
def alloc_desc : Prog Blk (Option Nat) := do
  let s ← get
  match (List.range NUM_DESC).find? fun i => s.disk.free i with
  | some i =>
    set (s.setFree i false)
    pure (some i)
  | none => pure none

/-- `free_desc`. -/
def free_desc (i : Nat) : Prog Blk Unit := do
  let s ← get
  if NUM_DESC ≤ i then Prog.undefined
  else if s.disk.free i then Prog.panic "free_desc: attempt to double free disk.free[%d]"
  else set (s.setFree i true)

/-- `free_chain`. A chain that is longer than the table frees some descriptor
twice, which `free_desc` does not survive, so the rounds never run out first. -/
def free_chain : Nat → Nat → Prog Blk Unit
  | 0, _ => Prog.diverge
  | fuel + 1, i => do
    let s ← get
    let has_next := (s.disk.desc i).flags &&& VIRTQ_DESC_F_NEXT
    let next := (s.disk.desc i).next
    free_desc i
    if has_next = 0 then pure () else free_chain fuel next

/-- The state after `virtio_blk_init`: every descriptor free, the rings zeroed
by `kalloc`, the rest zero from boot. -/
def virtio_blk_init : Disk := { free := fun i => decide (i < NUM_DESC) }

/-- The statements of `virtio_blk_submit` behind the allocations, up to the
doorbell. -/
def fillChain (b d0 d1 d2 : Nat) (s : Blk) : Blk :=
  let buf := s.bufs b
  let buf := { buf with
    req := { buf.req with reserved := 0, sector := buf.blockno * SECTORS_PER_BLOCK } }
  let s := s.setBuf b buf
  let s := s.setDesc d0
    { addr := .req b, len := 16, flags := VIRTQ_DESC_F_NEXT, next := d1 }
  let s := s.setDesc d1
    { addr := .data b, len := BSIZE,
      flags := VIRTQ_DESC_F_NEXT ||| (if buf.req.type = VIRTIO_BLK_T_OUT then VIRTQ_DESC_F_WRITE else 0),
      next := d2 }
  let s := s.setDesc d2
    { addr := .status b, len := 1, flags := VIRTQ_DESC_F_WRITE, next := 0 }
  let s := s.setInfo d0 (some b)
  let s := s.setBuf b { buf with disk := 1 }
  let avail := s.disk.avail
  { s with disk := { s.disk with avail :=
    { ring := Function.update avail.ring (avail.idx % NUM_DESC) d0
      idx := (avail.idx + 1) % 2 ^ 16 } } }

/-- One pass of `virtio_blk_submit` over its critical section: false when it
goes to sleep because fewer than three descriptors are free, true when it has
published the chain. -/
def virtio_blk_submit (b : Nat) : Prog Blk Bool := do
  let s ← get
  if count_free s.disk < 3 then pure false
  else
    let d0 ← alloc_desc
    let d1 ← alloc_desc
    let d2 ← alloc_desc
    match d0, d1, d2 with
    | some d0, some d1, some d2 =>
      modify (fillChain b d0 d1 d2)
      pure true
    | _, _, _ => Prog.undefined

/-- One round of the loop of `virtio_blk_intr`. -/
def reap : Prog Blk Unit := do
  let s ← get
  let id := s.disk.used.ring (s.disk.used_idx % NUM_DESC)
  match s.disk.info id with
  | none => Prog.undefined
  | some b =>
    modify fun s => s.setBuf b { s.bufs b with disk := 0 }
    free_chain (NUM_DESC + 1) id
    modify fun s => s.setInfo id none
    modify fun s => { s with disk := { s.disk with used_idx := (s.disk.used_idx + 1) % 2 ^ 16 } }

/-- `virtio_blk_intr` while the device is still: the counters are 16 bits wide
and meet within a period. -/
def virtio_blk_intr : Nat → Prog Blk Unit
  | 0 => Prog.diverge
  | fuel + 1 => do
    let s ← get
    if s.disk.used_idx ≠ s.disk.used.idx then do
      reap
      virtio_blk_intr fuel
    else pure ()

end bobchouos
