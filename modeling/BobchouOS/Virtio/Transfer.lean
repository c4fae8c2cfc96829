import BobchouOS.Virtio.Device

open lib

namespace bobchouos

/-- The data descriptor has the direction bit that `virtio_blk_submit` sets, so
behind the header the device finds no data it may use for either type: it only
writes the status. -/
theorem serve_submitted {d : Disk} {r : Req} (h : Linked d r) (bufs : Nat → Buf)
    (platter : Nat → BitVec 8)
    (hdir : (d.desc r.d1).flags = VIRTQ_DESC_F_NEXT |||
      (if (bufs r.buf).req.type = VIRTIO_BLK_T_OUT then VIRTQ_DESC_F_WRITE else 0))
    (htype : (bufs r.buf).req.type = VIRTIO_BLK_T_IN ∨ (bufs r.buf).req.type = VIRTIO_BLK_T_OUT) :
    Device.serve d.desc r.d0 bufs platter =
      some (Function.update bufs r.buf { bufs r.buf with status := VIRTIO_BLK_S_OK }, platter) := by
  have hdir' : (d.desc r.d1).flags &&& VIRTQ_DESC_F_WRITE =
      if (bufs r.buf).req.type = VIRTIO_BLK_T_OUT then VIRTQ_DESC_F_WRITE else 0 := by
    rw [hdir]
    split_ifs <;> rfl
  obtain ⟨hw0, haddr⟩ := Device.header_of_linked h
  obtain ⟨hw2, hbytes⟩ := Device.status_of_linked h
  unfold Device.serve
  rw [Device.chain_of_linked h]
  rcases htype with hin | hout
  · have hw1 : Device.writable (d.desc r.d1) = false := by
      simp [Device.writable, hdir', hin, VIRTIO_BLK_T_IN, VIRTIO_BLK_T_OUT]
    simp [haddr, hw0, hw1, hw2, hbytes, hin, Device.copyIn, Device.writeByte, VIRTIO_BLK_S_OK]
  · have hw1 : Device.writable (d.desc r.d1) = true := by
      rw [Device.writable, hdir', if_pos hout]
      rfl
    simp [haddr, hw0, hw1, hw2, hbytes, hout, Device.copyOut, Device.writeByte, VIRTIO_BLK_S_OK,
      VIRTIO_BLK_T_IN, VIRTIO_BLK_T_OUT]

/-- The contents of a block of the disk. -/
def blockOf (platter : Nat → BitVec 8) (blockno : Nat) : BlockData :=
  fun i => platter (blockno * BSIZE + i)

namespace Machine

def onBlk {α : Type} (x : Prog Blk α) : Prog Machine α :=
  Prog.onField blk (fun s m => { m with blk := s }) x

/-- Sleeping while the request is alone in the queue: the device takes it,
finishes it and interrupts. With nothing in the queue there is no wakeup. -/
def sleep : Prog Machine Unit := do
  let m ← get
  match m.fetch.bind (complete 0) with
  | none => Prog.diverge
  | some m =>
    set m
    onBlk (virtio_blk_intr (2 ^ 16))

/-- The wait loop of `virtio_blk_rw`. -/
def awaitDisk (b : Nat) : Nat → Prog Machine Unit
  | 0 => Prog.diverge
  | fuel + 1 => do
    let m ← get
    if (m.blk.bufs b).disk = 1 then do
      sleep
      awaitDisk b fuel
    else pure ()

/-- `virtio_blk_rw` with no other request in the queue. -/
def virtio_blk_rw (b : Nat) : Prog Machine Unit := do
  let published ← onBlk (virtio_blk_submit b)
  if !published then Prog.diverge
  else do
    awaitDisk b 2
    let m ← get
    if (m.blk.bufs b).status ≠ VIRTIO_BLK_S_OK then
      Prog.panic "virtio_blk_rw: block %d failed, status=%d"
    else pure ()

/-- No request is in flight. The counters, the old contents of the rings and of
the descriptors, and the buffers are arbitrary. -/
structure Quiet (m : Machine) : Prop where
  free : ∀ i < NUM_DESC, m.blk.disk.free i = true
  taken : m.dev.taken = []
  avail : m.dev.last_avail = m.blk.disk.avail.idx
  used : m.blk.disk.used_idx = m.blk.disk.used.idx
  avail_lt : m.blk.disk.avail.idx < 2 ^ 16
  used_lt : m.blk.disk.used.idx < 2 ^ 16

/-- What a transfer for buffer `b` between two states has to do. -/
def Transferred (b : Nat) (m m' : Machine) : Prop :=
  let buf := m.blk.bufs b
  (buf.req.type = VIRTIO_BLK_T_IN →
    (m'.blk.bufs b).data = blockOf m.dev.platter buf.blockno ∧ m'.dev.platter = m.dev.platter) ∧
  (buf.req.type = VIRTIO_BLK_T_OUT →
    blockOf m'.dev.platter buf.blockno = buf.data ∧ (m'.blk.bufs b).data = buf.data ∧
      ∀ n, n ≠ buf.blockno → blockOf m'.dev.platter n = blockOf m.dev.platter n)

theorem count_free_of_quiet {m : Machine} (h : Quiet m) : count_free m.blk.disk = NUM_DESC := by
  unfold count_free
  rw [List.countP_eq_length.mpr]
  · exact List.length_range
  · intro i hi
    exact h.free i (List.mem_range.mp hi)

theorem succ_mod_ne (x : Nat) : x ≠ (x + 1) % 2 ^ 16 := by omega

/-- While the process sleeps, the device finishes the only request and the
interrupt handler reaps it. Of the buffer only the status and the flag change. -/
theorem sleep_spec {m : Machine} {r : Req} (hlinked : Linked m.blk.disk r)
    (htaken : ∀ i ∈ r.descs, m.blk.disk.free i = false)
    (hdir : (m.blk.disk.desc r.d1).flags = VIRTQ_DESC_F_NEXT |||
      (if (m.blk.bufs r.buf).req.type = VIRTIO_BLK_T_OUT then VIRTQ_DESC_F_WRITE else 0))
    (htype : (m.blk.bufs r.buf).req.type = VIRTIO_BLK_T_IN ∨ (m.blk.bufs r.buf).req.type = VIRTIO_BLK_T_OUT)
    (hfetched : m.dev.taken = []) (hpending : m.dev.last_avail ≠ m.blk.disk.avail.idx)
    (hslot : m.blk.disk.avail.ring (m.dev.last_avail % NUM_DESC) = r.d0)
    (hused : m.blk.disk.used_idx = m.blk.disk.used.idx) :
    wp sleep (fun _ m' => m'.dev.platter = m.dev.platter ∧
      m'.blk.bufs r.buf = { m.blk.bufs r.buf with status := VIRTIO_BLK_S_OK, disk := 0 }) m := by
  have hserve := serve_submitted hlinked m.blk.bufs m.dev.platter hdir htype
  have hdone : m.fetch.bind (complete 0) = some
      { blk :=
          { bufs := Function.update m.blk.bufs r.buf { m.blk.bufs r.buf with status := VIRTIO_BLK_S_OK }
            disk := { m.blk.disk with used :=
              { ring := Function.update m.blk.disk.used.ring (m.blk.disk.used.idx % NUM_DESC) r.d0
                idx := (m.blk.disk.used.idx + 1) % 2 ^ 16 } } }
        dev := { m.dev with taken := [], last_avail := (m.dev.last_avail + 1) % 2 ^ 16 } } := by
    simp [fetch, if_neg hpending, complete, hfetched, hslot, hserve]
  unfold sleep
  simp only [wp_bind, wp_get, hdone, wp_set, onBlk, wp_onField]
  rw [show (2 : Nat) ^ 16 = 65534 + 1 + 1 from rfl, virtio_blk_intr]
  simp only [wp_bind, wp_get]
  rw [if_pos (by rw [hused]; exact succ_mod_ne _)]
  simp only [wp_bind]
  refine wp_mono (reap_spec (r := r) (by simp [hused]) ⟨hlinked.desc0, hlinked.desc1, hlinked.desc2,
    hlinked.info⟩ htaken) ?_
  rintro _ _ rfl
  rw [virtio_blk_intr]
  simp only [wp_bind, wp_get]
  rw [if_neg (by simp [reaped, Blk.setChain, hused])]
  refine wp_pure.mpr ⟨trivial, ?_⟩
  simp [reaped, Blk.setChain]

/-- `virtio_blk_rw` always returns and leaves the disk and the data as they
were, whatever the direction: the device is only given the status byte. -/
theorem virtio_blk_rw_spec {m : Machine} {b : Nat} (h : Quiet m)
    (htype : (m.blk.bufs b).req.type = VIRTIO_BLK_T_IN ∨ (m.blk.bufs b).req.type = VIRTIO_BLK_T_OUT) :
    wp (virtio_blk_rw b) (fun _ m' =>
      (m'.blk.bufs b).data = (m.blk.bufs b).data ∧ m'.dev.platter = m.dev.platter) m := by
  unfold virtio_blk_rw
  simp only [wp_bind, onBlk, wp_onField]
  refine wp_mono (virtio_blk_submit_spec (b := b) (by rw [count_free_of_quiet h]; decide)) ?_
  rintro published s₁ ⟨rfl, r, rfl, hfree, rfl⟩
  simp only [Bool.not_true, Bool.false_eq_true, if_false, wp_bind]
  have hlinked := linked_fillChain (m.blk.setChain r false) r
  set s₁ := fillChain r.buf r.d0 r.d1 r.d2 (m.blk.setChain r false) with hs₁
  have hbuf : s₁.bufs r.buf = { m.blk.bufs r.buf with
      req := { (m.blk.bufs r.buf).req with
        reserved := 0, sector := (m.blk.bufs r.buf).blockno * SECTORS_PER_BLOCK }
      disk := 1 } := by
    simp [hs₁, fillChain, Blk.setChain]
  have hdir : (s₁.disk.desc r.d1).flags = VIRTQ_DESC_F_NEXT |||
      (if (s₁.bufs r.buf).req.type = VIRTIO_BLK_T_OUT then VIRTQ_DESC_F_WRITE else 0) := by
    rw [hbuf]
    simp [hs₁, fillChain, Blk.setChain, Function.update_of_ne r.ne12]
    rfl
  have htaken : ∀ i ∈ r.descs, s₁.disk.free i = false := by
    intro i hi
    have hset := setChain_free m.blk r false i
    rw [if_pos hi] at hset
    simpa [hs₁, fillChain] using hset
  rw [awaitDisk]
  simp only [wp_bind, wp_get]
  rw [if_pos (by rw [hbuf])]
  simp only [wp_bind]
  refine wp_mono (sleep_spec (r := r) hlinked htaken hdir (by rw [hbuf]; exact htype) h.taken ?_ ?_ ?_) ?_
  · rw [h.avail]
    simpa [hs₁, fillChain, Blk.setChain] using succ_mod_ne m.blk.disk.avail.idx
  · simp [hs₁, fillChain, Blk.setChain, h.avail]
  · simpa [hs₁, fillChain, Blk.setChain] using h.used
  · rintro _ m₂ ⟨hplatter, hbuf₂⟩
    rw [awaitDisk]
    simp only [wp_bind, wp_get]
    rw [if_neg (by rw [hbuf₂]; simp)]
    simp only [wp_pure]
    rw [if_neg (by rw [hbuf₂]; simp)]
    refine wp_pure.mpr ⟨?_, hplatter⟩
    rw [hbuf₂, hbuf]

/-- A call transfers the block exactly when there was nothing to transfer: the
buffer already held what is on the disk. The direction bit of the data
descriptor is set for writes instead of reads, so the device is never given a
data buffer it may use. -/
theorem virtio_blk_rw_transfers_iff (m : Machine) (b : Nat) (hquiet : Quiet m)
    (htype : (m.blk.bufs b).req.type = VIRTIO_BLK_T_IN ∨ (m.blk.bufs b).req.type = VIRTIO_BLK_T_OUT) :
    ∃ m', virtio_blk_rw b m = .ok ((), m') ∧
      (Transferred b m m' ↔
        (m.blk.bufs b).data = blockOf m.dev.platter (m.blk.bufs b).blockno) := by
  obtain ⟨_, m', hrun, hdata, hplatter⟩ := virtio_blk_rw_spec hquiet htype
  refine ⟨m', hrun, ?_⟩
  unfold Transferred
  dsimp only
  rw [hdata, hplatter]
  constructor
  · rintro ⟨hin, hout⟩
    rcases htype with htype | htype
    · exact (hin htype).1
    · exact (hout htype).1.symm
  · intro heq
    exact ⟨fun _ => ⟨heq, rfl⟩, fun _ => ⟨heq.symm, rfl, fun _ _ => rfl⟩⟩

/-- After `virtio_blk_init`, with a cleared buffer and a disk full of ones. -/
def freshDisk : Machine :=
  { blk := { disk := bobchouos.virtio_blk_init }, dev := { platter := fun _ => 1 } }

theorem quiet_freshDisk : Quiet freshDisk := by
  refine ⟨?_, rfl, rfl, rfl, by decide, by decide⟩
  intro i hi
  exact decide_eq_true hi

theorem virtio_blk_rw_transfers_iff_freshDisk :
    ∃ m', virtio_blk_rw 0 freshDisk = .ok ((), m') ∧
      (Transferred 0 freshDisk m' ↔
        (freshDisk.blk.bufs 0).data = blockOf freshDisk.dev.platter (freshDisk.blk.bufs 0).blockno) :=
  virtio_blk_rw_transfers_iff freshDisk 0 quiet_freshDisk (.inl rfl)

/-- Reading block 0 of that disk returns with the buffer still zero. -/
theorem virtio_blk_rw_reads_nothing :
    (freshDisk.blk.bufs 0).req.type = VIRTIO_BLK_T_IN ∧
      ∃ m', virtio_blk_rw 0 freshDisk = .ok ((), m') ∧ ¬ Transferred 0 freshDisk m' := by
  obtain ⟨_, m', hrun, hdata, -⟩ := virtio_blk_rw_spec quiet_freshDisk (b := 0) (.inl rfl)
  refine ⟨rfl, m', hrun, ?_⟩
  intro htransferred
  have hread := (htransferred.1 rfl).1
  rw [hdata] at hread
  exact absurd (congrFun hread ⟨0, by decide⟩) (by decide)

end Machine

end bobchouos
