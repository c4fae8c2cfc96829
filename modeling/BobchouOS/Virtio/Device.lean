import BobchouOS.Virtio.Driver

open lib

namespace bobchouos

/-- A conforming block device: how far it has read the available ring, the
chains it has fetched and not finished, and the bytes of the disk. -/
structure Device where
  last_avail : Nat := 0
  taken : List Nat := []
  platter : Nat → BitVec 8 := fun _ => 0

/-- The driver and the device around the shared queue. -/
structure Machine where
  blk : Blk := {}
  dev : Device := {}

namespace Device

/-- Whether the device may write the buffer of a descriptor. If not, it may
read it. -/
def writable (d : VirtqDesc) : Bool := decide (d.flags &&& VIRTQ_DESC_F_WRITE ≠ 0)

/-- The bytes of a descriptor's buffer, in order. -/
def bytes (d : VirtqDesc) : List (DmaAddr × Nat) := (List.range d.len).map fun i => (d.addr, i)

/-- The descriptors of a chain, following at most `fuel` links. -/
def chain (desc : Nat → VirtqDesc) : Nat → Nat → List VirtqDesc
  | 0, _ => []
  | fuel + 1, i =>
    desc i :: if (desc i).flags &&& VIRTQ_DESC_F_NEXT = 0 then [] else chain desc fuel (desc i).next

/-- Reading a byte of a data buffer. The device reads the other fields whole. -/
def readByte (bufs : Nat → Buf) : DmaAddr × Nat → BitVec 8
  | (.data b, i) => if h : i < BSIZE then (bufs b).data ⟨i, h⟩ else 0
  | _ => 0

def writeByte (bufs : Nat → Buf) (v : BitVec 8) : DmaAddr × Nat → Nat → Buf
  | (.data b, i) =>
    if h : i < BSIZE then
      Function.update bufs b { bufs b with data := Function.update (bufs b).data ⟨i, h⟩ v }
    else bufs
  | (.status b, _) => Function.update bufs b { bufs b with status := v.toNat }
  | _ => bufs

/-- Copying the disk from byte `pos` on into buffers. -/
def copyIn (platter : Nat → BitVec 8) : Nat → List (DmaAddr × Nat) → (Nat → Buf) → Nat → Buf
  | _, [], bufs => bufs
  | pos, a :: rest, bufs => copyIn platter (pos + 1) rest (writeByte bufs (platter pos) a)

/-- Copying buffers to the disk from byte `pos` on. -/
def copyOut (bufs : Nat → Buf) : Nat → List (DmaAddr × Nat) → (Nat → BitVec 8) → Nat → BitVec 8
  | _, [], platter => platter
  | pos, a :: rest, platter =>
    copyOut bufs (pos + 1) rest (Function.update platter pos (readByte bufs a))

/-- Executing the request of a chain. Behind the header, the buffers the device
may read are the data to write to the disk; the last byte it may write is the
status, and those before it receive the data read from the disk. A chain
without a readable header or a status byte is never completed. -/
def serve (desc : Nat → VirtqDesc) (head : Nat) (bufs : Nat → Buf) (platter : Nat → BitVec 8) :
    Option ((Nat → Buf) × (Nat → BitVec 8)) :=
  match chain desc NUM_DESC head with
  | [] => none
  | header :: rest =>
    let out := (rest.filter fun d => !writable d).flatMap bytes
    let inp := (rest.filter writable).flatMap bytes
    match header.addr, inp.getLast? with
    | .req b, some status =>
      let req := (bufs b).req
      let pos := req.sector * SECTOR_SIZE
      if writable header then none
      else if req.type = VIRTIO_BLK_T_IN then
        some (writeByte (copyIn platter pos inp.dropLast bufs) (BitVec.ofNat 8 VIRTIO_BLK_S_OK) status, platter)
      else if req.type = VIRTIO_BLK_T_OUT then
        some (writeByte bufs (BitVec.ofNat 8 VIRTIO_BLK_S_OK) status, copyOut bufs pos out platter)
      else some (writeByte bufs (BitVec.ofNat 8 VIRTIO_BLK_S_UNSUPP) status, platter)
    | _, _ => none

theorem writeByte_disk (bufs : Nat → Buf) (v : BitVec 8) (a : DmaAddr × Nat) (b : Nat) :
    (writeByte bufs v a b).disk = (bufs b).disk := by
  have hupdate : ∀ c (buf : Buf), buf.disk = (bufs c).disk →
      (Function.update bufs c buf b).disk = (bufs b).disk := by
    intro c buf hbuf
    by_cases hbc : b = c
    · subst hbc
      rw [Function.update_self, hbuf]
    · rw [Function.update_of_ne hbc]
  obtain ⟨addr, i⟩ := a
  cases addr with
  | null => rfl
  | req c => rfl
  | status c => exact hupdate c _ rfl
  | data c =>
    by_cases hi : i < BSIZE
    · simp only [writeByte, dif_pos hi]
      exact hupdate c _ rfl
    · simp only [writeByte, dif_neg hi]

theorem copyIn_disk (platter : Nat → BitVec 8) (l : List (DmaAddr × Nat)) (pos : Nat) (bufs : Nat → Buf)
    (b : Nat) : (copyIn platter pos l bufs b).disk = (bufs b).disk := by
  induction l generalizing pos bufs with
  | nil => rfl
  | cons a rest ih => rw [copyIn, ih, writeByte_disk]

/-- The device never touches a completion flag. -/
theorem serve_disk {desc : Nat → VirtqDesc} {head : Nat} {bufs bufs' : Nat → Buf}
    {platter platter' : Nat → BitVec 8} (h : serve desc head bufs platter = some (bufs', platter')) (b : Nat) :
    (bufs' b).disk = (bufs b).disk := by
  unfold serve at h
  split at h
  · cases h
  · dsimp only at h
    split at h
    · split_ifs at h
      · cases h
        rw [writeByte_disk, copyIn_disk]
      · cases h
        rw [writeByte_disk]
      · cases h
        rw [writeByte_disk]
    · cases h

/-- The device sees the three descriptors of a chain. -/
theorem chain_of_linked {d : Disk} {r : Req} (h : Linked d r) :
    chain d.desc NUM_DESC r.d0 = [d.desc r.d0, d.desc r.d1, d.desc r.d2] := by
  rw [show NUM_DESC = 5 + 1 + 1 + 1 from rfl, chain, if_neg h.flag0, h.next0, chain,
    if_neg h.flag1, h.next1, chain, if_pos h.flag2]

theorem header_of_linked {d : Disk} {r : Req} (h : Linked d r) :
    writable (d.desc r.d0) = false ∧ (d.desc r.d0).addr = .req r.buf := by
  rw [h.desc0]
  simp [writable, VIRTQ_DESC_F_NEXT, VIRTQ_DESC_F_WRITE]

theorem status_of_linked {d : Disk} {r : Req} (h : Linked d r) :
    writable (d.desc r.d2) = true ∧ bytes (d.desc r.d2) = [(.status r.buf, 0)] := by
  rw [h.desc2]
  exact ⟨by simp [writable, VIRTQ_DESC_F_WRITE], rfl⟩

/-- The device can complete every chain that the driver publishes. -/
theorem serve_of_linked {d : Disk} {r : Req} (h : Linked d r) (bufs : Nat → Buf) (platter : Nat → BitVec 8) :
    ∃ bufs' platter', serve d.desc r.d0 bufs platter = some (bufs', platter') := by
  obtain ⟨hw0, haddr⟩ := header_of_linked h
  obtain ⟨hw2, hbytes⟩ := status_of_linked h
  unfold serve
  rw [chain_of_linked h]
  have hlast : (([d.desc r.d1, d.desc r.d2].filter writable).flatMap bytes).getLast? =
      some (.status r.buf, 0) := by
    cases hw1 : writable (d.desc r.d1) with
    | false => simp [hw1, hw2, hbytes]
    | true => simp [hw1, hw2, hbytes]
  simp only [haddr, hlast, hw0, Bool.false_eq_true, if_false]
  split_ifs <;> exact ⟨_, _, rfl⟩

end Device

namespace Machine

/-- The device takes the next entry of the available ring. -/
def fetch (m : Machine) : Option Machine :=
  if m.dev.last_avail = m.blk.disk.avail.idx then none
  else some { m with dev :=
    { m.dev with
      taken := m.dev.taken ++ [m.blk.disk.avail.ring (m.dev.last_avail % NUM_DESC)]
      last_avail := (m.dev.last_avail + 1) % 2 ^ 16 } }

/-- The device finishes the `i`-th of the chains it has taken and posts it to
the used ring. -/
def complete (i : Nat) (m : Machine) : Option Machine := do
  let head ← m.dev.taken[i]?
  let (bufs, platter) ← Device.serve m.blk.disk.desc head m.blk.bufs m.dev.platter
  let used := m.blk.disk.used
  some
    { blk := { bufs, disk := { m.blk.disk with used :=
        { ring := Function.update used.ring (used.idx % NUM_DESC) head
          idx := (used.idx + 1) % 2 ^ 16 } } }
      dev := { m.dev with taken := m.dev.taken.eraseIdx i, platter } }

end Machine

end bobchouos
