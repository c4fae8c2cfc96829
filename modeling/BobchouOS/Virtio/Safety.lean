import BobchouOS.Virtio.Protocol
import Mathlib

open lib

namespace bobchouos

/-- The driver's tables hold exactly the requests in `flight`: disjoint chains
in the descriptors that are not free, their buffers in the owner table, and the
completion flag of each buffer. -/
structure Tables (blk : Blk) (flight : List Req) : Prop where
  nodup : (flight.flatMap Req.descs).Nodup
  free : ∀ i < NUM_DESC, blk.disk.free i = false ↔ i ∈ flight.flatMap Req.descs
  linked : ∀ r ∈ flight, Linked blk.disk r
  flag : ∀ b, (blk.bufs b).disk = if b ∈ flight.map Req.buf then 1 else 0
  owners : (flight.map Req.buf).Nodup

theorem Req.lt_of_mem_descs {r : Req} {i : Nat} (h : i ∈ r.descs) : i < NUM_DESC := by
  simp only [Req.descs, List.mem_cons, List.not_mem_nil, or_false] at h
  rcases h with rfl | rfl | rfl
  · exact r.lt0
  · exact r.lt1
  · exact r.lt2

theorem Req.descs_nodup (r : Req) : r.descs.Nodup := by
  simp [Req.descs, r.ne01, r.ne02, r.ne12]

namespace Tables

variable {blk blk' : Blk} {flight : List Req} {r : Req}

/-- Three descriptors for each request, out of eight. -/
theorem length_le (h : Tables blk flight) : 3 * flight.length ≤ NUM_DESC := by
  have hsub : flight.flatMap Req.descs ⊆ List.range NUM_DESC := by
    intro i hi
    obtain ⟨r, -, hri⟩ := List.mem_flatMap.mp hi
    exact List.mem_range.mpr (Req.lt_of_mem_descs hri)
  have hle := (List.subperm_of_subset h.nodup hsub).length_le
  have hlen : (flight.flatMap Req.descs).length = 3 * flight.length := by
    simp [List.length_flatMap, Req.descs, Nat.mul_comm]
  rw [hlen, List.length_range] at hle
  exact hle

/-- Nothing but the tables matters. -/
theorem congr (h : Tables blk flight) (hdesc : blk'.disk.desc = blk.disk.desc)
    (hfree : blk'.disk.free = blk.disk.free) (hinfo : blk'.disk.info = blk.disk.info)
    (hflag : ∀ b, (blk'.bufs b).disk = (blk.bufs b).disk) : Tables blk' flight := by
  refine ⟨h.nodup, by rw [hfree]; exact h.free, ?_, ?_, h.owners⟩
  · intro r hr
    have hl := h.linked r hr
    exact ⟨by rw [hdesc]; exact hl.desc0, by rw [hdesc]; exact hl.desc1, by rw [hdesc]; exact hl.desc2,
      by rw [hinfo]; exact hl.info⟩
  · intro b
    rw [hflag]
    exact h.flag b

theorem taken_of_mem (h : Tables blk flight) (hr : r ∈ flight) : ∀ i ∈ r.descs, blk.disk.free i = false := by
  intro i hi
  exact (h.free i (Req.lt_of_mem_descs hi)).mpr (List.mem_flatMap.mpr ⟨r, hr, hi⟩)

/-- A new chain in free descriptors joins the others. -/
theorem submit (h : Tables blk flight) (hfree : ∀ i ∈ r.descs, blk.disk.free i = true)
    (hidle : (blk.bufs r.buf).disk = 0) :
    Tables (fillChain r.buf r.d0 r.d1 r.d2 (blk.setChain r false)) (r :: flight) := by
  have hnew : ∀ i ∈ r.descs, i ∉ flight.flatMap Req.descs := by
    intro i hi hold
    have hfalse := (h.free i (Req.lt_of_mem_descs hi)).mpr hold
    rw [hfree i hi] at hfalse
    cases hfalse
  have howner : r.buf ∉ flight.map Req.buf := by
    intro hmem
    have hone := h.flag r.buf
    rw [if_pos hmem, hidle] at hone
    cases hone
  have hset : ∀ i, (fillChain r.buf r.d0 r.d1 r.d2 (blk.setChain r false)).disk.free i =
      if i ∈ r.descs then false else blk.disk.free i := fun i => setChain_free blk r false i
  refine ⟨?_, ?_, ?_, ?_, ?_⟩
  · rw [List.flatMap_cons, List.nodup_append]
    refine ⟨r.descs_nodup, h.nodup, ?_⟩
    intro i hi j hj heq
    subst heq
    exact hnew i hi hj
  · intro i hi
    rw [hset, List.flatMap_cons, List.mem_append]
    by_cases hir : i ∈ r.descs
    · simp [hir]
    · rw [if_neg hir, h.free i hi]
      simp [hir]
  · intro r' hr'
    rcases List.mem_cons.mp hr' with rfl | hr'
    · exact linked_fillChain _ _
    · have hl : Linked (blk.setChain r false).disk r' :=
        ⟨(h.linked r' hr').desc0, (h.linked r' hr').desc1, (h.linked r' hr').desc2, (h.linked r' hr').info⟩
      apply hl.fillChain_of_disjoint
      intro i hi' hi
      exact hnew i hi (List.mem_flatMap.mpr ⟨r', hr', hi'⟩)
  · intro b
    by_cases hb : b = r.buf
    · subst hb
      simp [fillChain, Blk.setChain]
    · have hsame : ((fillChain r.buf r.d0 r.d1 r.d2 (blk.setChain r false)).bufs b) = blk.bufs b := by
        simp [fillChain, Blk.setChain, Function.update_of_ne hb]
      rw [hsame, h.flag b]
      simp [hb]
  · exact List.nodup_cons.mpr ⟨howner, h.owners⟩

theorem perm {flight' : List Req} (h : Tables blk flight) (hperm : flight.Perm flight') :
    Tables blk flight' := by
  refine ⟨(hperm.flatMap_right _).nodup_iff.mp h.nodup, ?_, ?_, ?_, (hperm.map _).nodup_iff.mp h.owners⟩
  · intro i hi
    rw [h.free i hi]
    exact (hperm.flatMap_right _).mem_iff
  · intro r hr
    exact h.linked r (hperm.mem_iff.mpr hr)
  · intro b
    rw [h.flag b]
    simp only [(hperm.map Req.buf).mem_iff]

/-- Reaping a chain takes it out of the tables. -/
theorem reap (h : Tables blk (r :: flight)) : Tables (reaped r blk) flight := by
  have hnodup := h.nodup
  rw [List.flatMap_cons, List.nodup_append] at hnodup
  obtain ⟨-, hrest, hdisj⟩ := hnodup
  have howners := List.nodup_cons.mp h.owners
  have hset : ∀ i, (reaped r blk).disk.free i = if i ∈ r.descs then true else blk.disk.free i :=
    fun i => setChain_free _ r true i
  refine ⟨hrest, ?_, ?_, ?_, howners.2⟩
  · intro i hi
    have hold := h.free i hi
    rw [List.flatMap_cons, List.mem_append] at hold
    rw [hset]
    by_cases hir : i ∈ r.descs
    · rw [if_pos hir]
      exact iff_of_false (by simp) fun hmem => hdisj i hir i hmem rfl
    · rw [if_neg hir, hold]
      simp [hir]
  · intro r' hr'
    have hl := h.linked r' (List.mem_cons_of_mem _ hr')
    have hne : r'.d0 ≠ r.d0 := by
      intro heq
      exact hdisj r.d0 (by simp [Req.descs]) r'.d0
        (List.mem_flatMap.mpr ⟨r', hr', by simp [Req.descs]⟩) heq.symm
    refine ⟨hl.desc0, hl.desc1, hl.desc2, ?_⟩
    simpa [reaped, Blk.setChain, Function.update_of_ne hne] using hl.info
  · intro b
    have hold := h.flag b
    by_cases hb : b = r.buf
    · subst hb
      rw [if_neg howners.1]
      simp [reaped, Blk.setChain]
    · have hsame : (reaped r blk).bufs b = blk.bufs b := by
        simp [reaped, Blk.setChain, Function.update_of_ne hb]
      rw [hsame, hold]
      simp [hb]

end Tables

namespace BlkSys

/-- The requests in flight are in one of three places: published and not yet
fetched, held by the device, or posted and not yet reaped. Both rings hold the
heads of the unread ones, and the history accounts for every buffer. -/
structure Inv (s : BlkSys) (flight queued taken posted : List Req) : Prop where
  tables : Tables s.machine.blk flight
  perm : flight.Perm (queued ++ (taken ++ posted))
  avail : Fifo (2 ^ 16) NUM_DESC s.disk.avail.ring s.disk.avail.idx s.dev.last_avail (queued.map Req.d0)
  used : Fifo (2 ^ 16) NUM_DESC s.disk.used.ring s.disk.used.idx s.disk.used_idx (posted.map Req.d0)
  taken : s.dev.taken = taken.map Req.d0
  log : ∀ b, s.submitted.count b = s.completed.count b + (flight.map Req.buf).count b

variable {s : BlkSys} {flight queued taken posted : List Req}

namespace Inv

theorem queued_lt (h : Inv s flight queued taken posted) : queued.length < NUM_DESC := by
  have hlen := h.perm.length_eq
  have hle := h.tables.length_le
  simp only [List.length_append, NUM_DESC] at *
  omega

theorem posted_lt (h : Inv s flight queued taken posted) : posted.length < NUM_DESC := by
  have hlen := h.perm.length_eq
  have hle := h.tables.length_le
  simp only [List.length_append, NUM_DESC] at *
  omega

/-- A step that changes only processes, the handler's flag or free buffers. -/
theorem of_blk {s' : BlkSys} (h : Inv s flight queued taken posted) (hdisk : s'.disk = s.disk)
    (hflag : ∀ b, (s'.bufs b).disk = (s.bufs b).disk) (hdev : s'.dev = s.dev)
    (hsub : s'.submitted = s.submitted) (hcomp : s'.completed = s.completed) :
    Inv s' flight queued taken posted := by
  refine ⟨?_, h.perm, by rw [hdisk, hdev]; exact h.avail, by rw [hdisk]; exact h.used,
    by rw [hdev]; exact h.taken, by rw [hsub, hcomp]; exact h.log⟩
  exact h.tables.congr (congrArg Disk.desc hdisk) (congrArg Disk.free hdisk) (congrArg Disk.info hdisk) hflag

theorem submit_spec {p b : Nat} (h : Inv s flight queued taken posted) (hpc : s.procs p = .submit b)
    (hidle : (s.bufs b).disk = 0) :
    wp (exec (.submit p)) (fun _ s' => ∃ flight' queued', Inv s' flight' queued' taken posted) s := by
  unfold exec onBlk
  simp only [wp_bind, wp_get, hpc, wp_onField]
  by_cases hfew : count_free s.machine.blk.disk < 3
  · refine wp_mono (virtio_blk_submit_sleeps hfew) ?_
    rintro published blk ⟨rfl, rfl⟩
    exact wp_pure.mpr ⟨flight, queued, h⟩
  · refine wp_mono (virtio_blk_submit_spec (b := b) (by omega)) ?_
    rintro published blk ⟨rfl, r, rfl, hfree, rfl⟩
    simp only [if_true, wp_modify]
    refine ⟨r :: flight, queued ++ [r], h.tables.submit hfree hidle, ?_, ?_, ?_, h.taken, ?_⟩
    · rw [List.append_assoc, List.singleton_append]
      exact (h.perm.cons r).trans List.perm_middle.symm
    · rw [List.map_append]
      exact h.avail.push (by decide) (by rw [List.length_map]; exact h.queued_lt) r.d0
    · exact h.used
    · intro c
      have hlog := h.log c
      simp only [setPc, List.map_cons, List.count_cons] at hlog ⊢
      omega

theorem fetch_spec (h : Inv s flight queued taken posted) (hmore : s.dev.last_avail ≠ s.disk.avail.idx) :
    wp (exec .fetch) (fun _ s' => ∃ queued' taken', Inv s' flight queued' taken' posted) s := by
  cases queued with
  | nil =>
    refine absurd ?_ hmore
    rw [h.avail.counters_eq_iff (by simp)]
    rfl
  | cons r queued =>
    obtain ⟨hslot, hrest⟩ := h.avail.pop (by decide)
    unfold exec device
    simp only [wp_bind, wp_get, Machine.fetch]
    rw [if_neg (show ¬ s.machine.dev.last_avail = s.machine.blk.disk.avail.idx from hmore)]
    simp only [wp_set]
    refine ⟨queued, taken ++ [r], h.tables, ?_, hrest, h.used, ?_, h.log⟩
    · have hmove : (queued ++ taken ++ r :: posted).Perm (r :: (queued ++ taken ++ posted)) :=
        List.perm_middle
      apply h.perm.trans
      simpa using hmove.symm
    · rw [List.map_append, ← h.taken, List.map_singleton, ← hslot]

theorem complete_spec {i : Nat} (h : Inv s flight queued taken posted) (hi : i < s.dev.taken.length) :
    wp (exec (.complete i)) (fun _ s' => ∃ taken' posted', Inv s' flight queued taken' posted') s := by
  have hlen : i < taken.length := by simpa [h.taken] using hi
  have hhead : s.machine.dev.taken[i]? = some taken[i].d0 := by
    rw [show s.machine.dev.taken = _ from h.taken]
    simp [hlen]
  have hmem : taken[i] ∈ flight := h.perm.mem_iff.mpr (by simp)
  obtain ⟨bufs', platter', hserve⟩ :=
    Device.serve_of_linked (h.tables.linked _ hmem) s.machine.blk.bufs s.machine.dev.platter
  unfold exec device
  simp only [wp_bind, wp_get, Machine.complete, hhead, hserve, Option.bind_eq_bind, Option.bind_some, wp_set]
  refine ⟨taken.eraseIdx i, posted ++ [taken[i]], ?_, ?_, h.avail, ?_, ?_, h.log⟩
  · exact h.tables.congr rfl rfl rfl (Device.serve_disk hserve)
  · apply h.perm.trans
    apply List.Perm.append_left
    have htaken := (List.getElem_cons_eraseIdx_perm hlen).symm
    apply (htaken.append_right posted).trans
    rw [List.cons_append, ← List.append_assoc]
    exact (List.perm_append_singleton _ _).symm
  · rw [List.map_append]
    exact h.used.push (by decide) (by rw [List.length_map]; exact h.posted_lt) _
  · rw [← List.eraseIdx_map, ← h.taken]

theorem reap_spec (h : Inv s flight queued taken posted) (hmore : s.disk.used_idx ≠ s.disk.used.idx) :
    wp (exec .reap) (fun _ s' => ∃ flight' posted', Inv s' flight' queued taken posted') s := by
  cases posted with
  | nil =>
    refine absurd ?_ hmore
    rw [h.used.counters_eq_iff (by simp)]
    rfl
  | cons r posted =>
    obtain ⟨hslot, hrest⟩ := h.used.pop (by decide)
    have hperm : flight.Perm (r :: (queued ++ (taken ++ posted))) := by
      have hmove : (queued ++ taken ++ r :: posted).Perm (r :: (queued ++ taken ++ posted)) :=
        List.perm_middle
      apply h.perm.trans
      simpa using hmove
    have htables := h.tables.perm hperm
    unfold exec onBlk
    simp only [wp_bind, wp_get, wp_onField, wp_modify]
    refine wp_mono (bobchouos.reap_spec hslot (htables.linked r (by simp)) (htables.taken_of_mem (by simp))) ?_
    rintro _ _ rfl
    refine ⟨queued ++ (taken ++ posted), posted, htables.reap, List.Perm.refl _, h.avail, hrest, h.taken, ?_⟩
    intro b
    have hlog := h.log b
    have howner : s.disk.info (s.disk.used.ring (s.disk.used_idx % NUM_DESC)) = some r.buf := by
      rw [hslot]
      exact (htables.linked r (by simp)).info
    rw [(hperm.map Req.buf).count_eq, List.map_cons, List.count_cons] at hlog
    simp only [howner, Option.toList_some, List.singleton_append, List.count_cons]
    omega

end Inv

/-- A process finds that the device reported an error for its request. This is
the only step that does not return. -/
def Failed (s : BlkSys) (a : Act) : Prop :=
  ∃ p b, a = .wait p ∧ s.procs p = .wait b ∧ (s.bufs b).disk ≠ 1 ∧ (s.bufs b).status ≠ VIRTIO_BLK_S_OK

theorem exec_spec {a : Act} (h : Inv s flight queued taken posted) (hen : s.Enabled a) :
    wp (exec a) (fun _ s' => ∃ flight' queued' taken' posted', Inv s' flight' queued' taken' posted') s ∨
      s.Failed a := by
  cases a with
  | prepare b blockno data type =>
    refine .inl ?_
    unfold exec onBlk
    simp only [wp_onField, wp_modify]
    refine ⟨flight, queued, taken, posted, h.of_blk rfl (fun c => ?_) rfl rfl rfl⟩
    by_cases hc : c = b
    · subst hc
      simp [bufs]
    · simp [bufs, Function.update_of_ne hc]
  | call p b => exact .inl (wp_modify.mpr ⟨flight, queued, taken, posted, h.of_blk rfl (fun _ => rfl) rfl rfl rfl⟩)
  | submit p =>
    obtain ⟨-, b, hpc, hidle⟩ := hen
    refine .inl (wp_mono (h.submit_spec hpc hidle) ?_)
    rintro _ _ ⟨f, q, hinv⟩
    exact ⟨f, q, taken, posted, hinv⟩
  | wait p =>
    obtain ⟨-, b, hpc⟩ := hen
    by_cases hfailed : (s.bufs b).disk ≠ 1 ∧ (s.bufs b).status ≠ VIRTIO_BLK_S_OK
    · exact .inr ⟨p, b, rfl, hpc, hfailed⟩
    · refine .inl ?_
      unfold exec
      simp only [wp_bind, wp_get, hpc]
      refine wp_ite.mpr ⟨fun _ => wp_pure.mpr ⟨flight, queued, taken, posted, h⟩, fun hdone => ?_⟩
      rw [if_neg fun hstatus => hfailed ⟨hdone, hstatus⟩]
      exact wp_modify.mpr ⟨flight, queued, taken, posted, h.of_blk rfl (fun _ => rfl) rfl rfl rfl⟩
  | fetch =>
    refine .inl (wp_mono (h.fetch_spec hen) ?_)
    rintro _ _ ⟨q, t, hinv⟩
    exact ⟨flight, q, t, posted, hinv⟩
  | complete i =>
    refine .inl (wp_mono (h.complete_spec hen) ?_)
    rintro _ _ ⟨t, p, hinv⟩
    exact ⟨flight, queued, t, p, hinv⟩
  | intr_enter => exact .inl (wp_modify.mpr ⟨flight, queued, taken, posted, h.of_blk rfl (fun _ => rfl) rfl rfl rfl⟩)
  | reap =>
    refine .inl (wp_mono (h.reap_spec hen.2) ?_)
    rintro _ _ ⟨f, p, hinv⟩
    exact ⟨f, queued, taken, p, hinv⟩
  | intr_exit => exact .inl (wp_modify.mpr ⟨flight, queued, taken, posted, h.of_blk rfl (fun _ => rfl) rfl rfl rfl⟩)

theorem exec_inv {a : Act} {s' : BlkSys} (h : Inv s flight queued taken posted) (hen : s.Enabled a)
    (hexec : exec a s = .ok ((), s')) :
    ∃ flight' queued' taken' posted', Inv s' flight' queued' taken' posted' := by
  rcases exec_spec h hen with hspec | ⟨p, b, rfl, hpc, hdone, hstatus⟩
  · exact hspec.post hexec
  · -- the panic of `virtio_blk_rw` is not a step
    have hreturns : wp (exec (.wait p)) (fun _ _ => True) s := wp_of_ok hexec trivial
    unfold exec at hreturns
    simp only [wp_bind, wp_get, hpc] at hreturns
    rw [if_neg hdone, if_pos hstatus] at hreturns
    exact absurd hreturns wp_panic

theorem inv_of_reachable (hreach : system.Reachable s) :
    ∃ flight queued taken posted, Inv s flight queued taken posted := by
  apply hreach.invariant
  · intro s ⟨hdisk, hflag, hlast, htaken, _, _, hsub, hcomp⟩
    refine ⟨[], [], [], [], ⟨by simp, ?_, by simp, by simpa using hflag, by simp⟩, by simp, ?_, ?_,
      by simpa using htaken, ?_⟩
    · intro i hi
      rw [show s.machine.blk.disk = _ from hdisk]
      simp [virtio_blk_init, hi]
    · rw [hdisk, hlast]
      exact Fifo.nil (by decide)
    · rw [hdisk]
      exact Fifo.nil (by decide)
    · simp [hsub, hcomp]
  · intro a s s' ⟨flight, queued, taken, posted, hinv⟩ ⟨hen, hexec⟩
    exact exec_inv hinv hen hexec

/-- What holds of the virtqueue in a state, for the requests that are published
and not yet fetched, held by the device, and posted and not yet reaped. -/
structure Consistent (s : BlkSys) (queued taken posted : List Req) : Prop where
  /-- The descriptors that are not free are the disjoint union of the chains. -/
  chains_disjoint : ((queued ++ taken ++ posted).flatMap Req.descs).Nodup
  chains_taken : ∀ i < NUM_DESC,
    s.disk.free i = false ↔ i ∈ (queued ++ taken ++ posted).flatMap Req.descs
  /-- Each chain has its three links in the table and ends there. -/
  chain : ∀ r ∈ queued ++ taken ++ posted, Linked s.disk r ∧
    Device.chain s.disk.desc NUM_DESC r.d0 = [s.disk.desc r.d0, s.disk.desc r.d1, s.disk.desc r.d2]
  owners_distinct : ((queued ++ taken ++ posted).map Req.buf).Nodup
  in_flight : ∀ b, (s.bufs b).disk = 1 ↔ b ∈ (queued ++ taken ++ posted).map Req.buf
  /-- The unread slots of both rings hold the heads published there, the
  counters have advanced by as many modulo their width, and the slot that the
  producer writes next is not an unread one. -/
  avail : Fifo (2 ^ 16) NUM_DESC s.disk.avail.ring s.disk.avail.idx s.dev.last_avail (queued.map Req.d0)
  avail_slot : ∀ j < queued.length, (s.dev.last_avail + j) % NUM_DESC ≠ s.disk.avail.idx % NUM_DESC
  used : Fifo (2 ^ 16) NUM_DESC s.disk.used.ring s.disk.used.idx s.disk.used_idx (posted.map Req.d0)
  used_slot : ∀ j < posted.length, (s.disk.used_idx + j) % NUM_DESC ≠ s.disk.used.idx % NUM_DESC
  device : s.dev.taken = taken.map Req.d0
  /-- A used entry leads through `info` to the buffer of its chain. -/
  owner : ∀ j, (hj : j < posted.length) →
    s.disk.info (s.disk.used.ring ((s.disk.used_idx + j) % NUM_DESC)) = some posted[j].buf
  /-- Every submission was completed once, or is in flight. -/
  once : ∀ b, s.submitted.count b =
    s.completed.count b + ((queued ++ taken ++ posted).map Req.buf).count b

theorem Inv.consistent (h : Inv s flight queued taken posted) : Consistent s queued taken posted := by
  have hperm : flight.Perm (queued ++ taken ++ posted) := by simpa using h.perm
  have htables := h.tables.perm hperm
  refine ⟨htables.nodup, htables.free, ?_, htables.owners, ?_, h.avail, ?_, h.used, ?_, h.taken, ?_, ?_⟩
  · intro r hr
    exact ⟨htables.linked r hr, Device.chain_of_linked (htables.linked r hr)⟩
  · intro b
    rw [show (s.bufs b).disk = _ from htables.flag b]
    by_cases hb : b ∈ (queued ++ taken ++ posted).map Req.buf
    · rw [if_pos hb]
      exact iff_of_true rfl hb
    · rw [if_neg hb]
      exact iff_of_false (by simp) hb
  · intro j hj
    exact h.avail.slot_ne (by decide) (by rw [List.length_map]; exact h.queued_lt) (by simpa using hj)
  · intro j hj
    exact h.used.slot_ne (by decide) (by rw [List.length_map]; exact h.posted_lt) (by simpa using hj)
  · intro j hj
    have hslot := h.used.slots j (by simpa using hj)
    rw [List.getElem_map] at hslot
    rw [hslot]
    exact (htables.linked _ (by simp)).info
  · intro b
    rw [h.log b, (hperm.map Req.buf).count_eq]

/-- In every run of the block device, whatever the processes, the device and the
interrupt handler do, the tables, the rings and the flags describe the same
requests, and no step of the driver panics or leaves its tables. The only step
that does not return is the panic of `virtio_blk_rw` on an error that the device
reported. -/
theorem virtqueue_safe (s : BlkSys) (hreach : system.Reachable s) :
    (∃ queued taken posted, Consistent s queued taken posted) ∧
      ∀ a, s.Enabled a → (∃ s', exec a s = .ok ((), s')) ∨ s.Failed a := by
  obtain ⟨flight, queued, taken, posted, hinv⟩ := inv_of_reachable hreach
  refine ⟨⟨queued, taken, posted, hinv.consistent⟩, ?_⟩
  intro a hen
  rcases exec_spec hinv hen with ⟨_, s', hexec, -⟩ | hfailed
  · exact .inl ⟨s', hexec⟩
  · exact .inr hfailed

/-- After boot, a call by process 0 for buffer 7 and its submission. -/
theorem virtqueue_safe_one_request :
    ∃ s, system.Reachable s ∧ ∃ queued taken posted, Consistent s queued taken posted := by
  have hboot : system.Reachable { machine := { blk := { disk := virtio_blk_init } } } :=
    .init ⟨rfl, fun _ => rfl, rfl, rfl, rfl, fun _ => rfl, rfl, rfl⟩
  have hcall : system.Reachable
      (setPc 0 (.submit 7) { machine := { blk := { disk := virtio_blk_init } } }) :=
    hboot.step (a := .call 0 7) ⟨by rfl, by rfl⟩
  have hen : Enabled (setPc 0 (.submit 7) { machine := { blk := { disk := virtio_blk_init } } }) (.submit 0) :=
    ⟨rfl, 7, by simp [setPc], rfl⟩
  rcases (virtqueue_safe _ hcall).2 _ hen with ⟨s, hexec⟩ | ⟨p, b, hact, -⟩
  · have hreach : system.Reachable s := hcall.step ⟨hen, hexec⟩
    exact ⟨s, hreach, (virtqueue_safe s hreach).1⟩
  · cases hact

end BlkSys

end bobchouos
