import BobchouOS.Virtio.Model
import Mathlib

open lib

namespace bobchouos

variable {s : Blk} {b d0 d1 d2 : Nat}

section Fields

variable (s) (i : Nat) (d : VirtqDesc) (v : Bool) (o : Option Nat) (buf : Buf)

@[simp] theorem setDesc_desc : (s.setDesc i d).disk.desc = Function.update s.disk.desc i d := rfl
@[simp] theorem setDesc_avail : (s.setDesc i d).disk.avail = s.disk.avail := rfl
@[simp] theorem setDesc_used : (s.setDesc i d).disk.used = s.disk.used := rfl
@[simp] theorem setDesc_used_idx : (s.setDesc i d).disk.used_idx = s.disk.used_idx := rfl
@[simp] theorem setDesc_free : (s.setDesc i d).disk.free = s.disk.free := rfl
@[simp] theorem setDesc_info : (s.setDesc i d).disk.info = s.disk.info := rfl
@[simp] theorem setDesc_bufs : (s.setDesc i d).bufs = s.bufs := rfl

@[simp] theorem setFree_desc : (s.setFree i v).disk.desc = s.disk.desc := rfl
@[simp] theorem setFree_avail : (s.setFree i v).disk.avail = s.disk.avail := rfl
@[simp] theorem setFree_used : (s.setFree i v).disk.used = s.disk.used := rfl
@[simp] theorem setFree_used_idx : (s.setFree i v).disk.used_idx = s.disk.used_idx := rfl
@[simp] theorem setFree_free : (s.setFree i v).disk.free = Function.update s.disk.free i v := rfl
@[simp] theorem setFree_info : (s.setFree i v).disk.info = s.disk.info := rfl
@[simp] theorem setFree_bufs : (s.setFree i v).bufs = s.bufs := rfl

@[simp] theorem setInfo_desc : (s.setInfo i o).disk.desc = s.disk.desc := rfl
@[simp] theorem setInfo_avail : (s.setInfo i o).disk.avail = s.disk.avail := rfl
@[simp] theorem setInfo_used : (s.setInfo i o).disk.used = s.disk.used := rfl
@[simp] theorem setInfo_used_idx : (s.setInfo i o).disk.used_idx = s.disk.used_idx := rfl
@[simp] theorem setInfo_free : (s.setInfo i o).disk.free = s.disk.free := rfl
@[simp] theorem setInfo_info : (s.setInfo i o).disk.info = Function.update s.disk.info i o := rfl
@[simp] theorem setInfo_bufs : (s.setInfo i o).bufs = s.bufs := rfl

@[simp] theorem setBuf_disk : (s.setBuf i buf).disk = s.disk := rfl
@[simp] theorem setBuf_bufs : (s.setBuf i buf).bufs = Function.update s.bufs i buf := rfl

end Fields

/-- `alloc_desc` returns a free descriptor whenever one is counted. -/
theorem alloc_desc_spec (hfree : 0 < count_free s.disk) :
    wp alloc_desc (fun r s' => ∃ i, r = some i ∧ i < NUM_DESC ∧ s.disk.free i = true ∧
      s' = s.setFree i false) s := by
  unfold alloc_desc
  simp only [wp_bind, wp_get]
  cases hfind : (List.range NUM_DESC).find? fun i => s.disk.free i with
  | none =>
    rw [List.find?_eq_none] at hfind
    obtain ⟨i, hi, hone⟩ := List.countP_pos_iff.mp hfree
    exact absurd hone (hfind i hi)
  | some i =>
    simp only [wp_bind, wp_set, wp_pure]
    exact ⟨i, rfl, List.mem_range.mp (List.mem_of_find?_eq_some hfind), List.find?_some hfind, rfl⟩

/-- Taking a free descriptor lowers the count by one. -/
theorem count_free_setFree {i : Nat} (hi : i < NUM_DESC) (hfree : s.disk.free i = true) :
    count_free (s.setFree i false).disk + 1 = count_free s.disk := by
  have hmem : i ∈ List.range NUM_DESC := List.mem_range.mpr hi
  have hperm := List.perm_cons_erase hmem
  unfold count_free
  rw [hperm.countP_eq, hperm.countP_eq, List.countP_cons_of_neg (by simp),
    List.countP_cons_of_pos (by simpa using hfree)]
  congr 1
  apply List.countP_congr
  intro j hj
  have hne : j ≠ i := ((List.nodup_range.mem_erase_iff).mp hj).1
  simp [Function.update_of_ne hne]

/-- A request in flight: its buffer and the three descriptors of its chain,
which are distinct entries of the table. -/
structure Req where
  d0 : Nat
  d1 : Nat
  d2 : Nat
  buf : Nat
  lt0 : d0 < NUM_DESC
  lt1 : d1 < NUM_DESC
  lt2 : d2 < NUM_DESC
  ne01 : d0 ≠ d1
  ne02 : d0 ≠ d2
  ne12 : d1 ≠ d2
  deriving DecidableEq

def Req.descs (r : Req) : List Nat := [r.d0, r.d1, r.d2]

/-- The state with the descriptors of a chain taken or given back. -/
def Blk.setChain (s : Blk) (r : Req) (v : Bool) : Blk :=
  ((s.setFree r.d0 v).setFree r.d1 v).setFree r.d2 v

@[simp] theorem setChain_free (s : Blk) (r : Req) (v : Bool) (i : Nat) :
    (s.setChain r v).disk.free i = if i ∈ r.descs then v else s.disk.free i := by
  simp only [Blk.setChain, setFree_free, Function.update_apply, Req.descs, List.mem_cons,
    List.not_mem_nil, or_false]
  split_ifs <;> tauto

/-- The descriptor table and the owner table hold the chain of a request. The
direction flag of the data descriptor is either of the two. -/
structure Linked (d : Disk) (r : Req) : Prop where
  desc0 : d.desc r.d0 = { addr := .req r.buf, len := 16, flags := VIRTQ_DESC_F_NEXT, next := r.d1 }
  desc1 : ∃ dir, (dir = 0 ∨ dir = VIRTQ_DESC_F_WRITE) ∧ d.desc r.d1 =
    { addr := .data r.buf, len := BSIZE, flags := VIRTQ_DESC_F_NEXT ||| dir, next := r.d2 }
  desc2 : d.desc r.d2 = { addr := .status r.buf, len := 1, flags := VIRTQ_DESC_F_WRITE, next := 0 }
  info : d.info r.d0 = some r.buf

namespace Linked

variable {d : Disk} {r : Req}

theorem flag0 (h : Linked d r) : (d.desc r.d0).flags &&& VIRTQ_DESC_F_NEXT ≠ 0 := by
  rw [h.desc0]
  simp [VIRTQ_DESC_F_NEXT]

theorem flag1 (h : Linked d r) : (d.desc r.d1).flags &&& VIRTQ_DESC_F_NEXT ≠ 0 := by
  obtain ⟨dir, hdir, hdesc⟩ := h.desc1
  have hflag : (VIRTQ_DESC_F_NEXT ||| dir) &&& VIRTQ_DESC_F_NEXT ≠ 0 := by
    rcases hdir with rfl | rfl <;> decide
  rw [hdesc]
  exact hflag

theorem flag2 (h : Linked d r) : (d.desc r.d2).flags &&& VIRTQ_DESC_F_NEXT = 0 := by
  rw [h.desc2]
  simp [VIRTQ_DESC_F_WRITE, VIRTQ_DESC_F_NEXT]

theorem next0 (h : Linked d r) : (d.desc r.d0).next = r.d1 := by rw [h.desc0]

theorem next1 (h : Linked d r) : (d.desc r.d1).next = r.d2 := by
  obtain ⟨dir, -, hdesc⟩ := h.desc1
  rw [hdesc]

end Linked

/-- With three descriptors free, `virtio_blk_submit` takes three distinct ones
and publishes the chain. -/
theorem virtio_blk_submit_spec (hfree : 3 ≤ count_free s.disk) :
    wp (virtio_blk_submit b) (fun published s' => published = true ∧ ∃ r : Req, r.buf = b ∧
      (∀ i ∈ r.descs, s.disk.free i = true) ∧
      s' = fillChain b r.d0 r.d1 r.d2 (s.setChain r false)) s := by
  unfold virtio_blk_submit
  simp only [wp_bind, wp_get]
  rw [if_neg (by omega)]
  simp only [wp_bind]
  refine wp_mono (alloc_desc_spec (by omega)) ?_
  rintro r0 s0 ⟨d0, rfl, hlt0, hfree0, rfl⟩
  have hcount0 := count_free_setFree hlt0 hfree0
  refine wp_mono (alloc_desc_spec (by omega)) ?_
  rintro r1 s1 ⟨d1, rfl, hlt1, hfree1, rfl⟩
  have hcount1 := count_free_setFree hlt1 hfree1
  refine wp_mono (alloc_desc_spec (by omega)) ?_
  rintro r2 s2 ⟨d2, rfl, hlt2, hfree2, rfl⟩
  simp only [wp_bind, wp_modify, wp_pure]
  simp only [setFree_free, Function.update_apply] at hfree1 hfree2
  have hne01 : d0 ≠ d1 := by
    rintro rfl
    simp at hfree1
  have hne12 : d1 ≠ d2 := by
    rintro rfl
    simp at hfree2
  have hne02 : d0 ≠ d2 := by
    rintro rfl
    rw [if_neg hne12.symm, if_pos rfl] at hfree2
    cases hfree2
  rw [if_neg hne01.symm] at hfree1
  rw [if_neg hne12.symm, if_neg hne02.symm] at hfree2
  refine ⟨trivial, ⟨d0, d1, d2, b, hlt0, hlt1, hlt2, hne01, hne02, hne12⟩, rfl, ?_, rfl⟩
  simp [Req.descs, hfree0, hfree1, hfree2]

theorem virtio_blk_submit_sleeps (hfew : count_free s.disk < 3) :
    wp (virtio_blk_submit b) (fun published s' => published = false ∧ s' = s) s := by
  unfold virtio_blk_submit
  simp only [wp_bind, wp_get]
  rw [if_pos hfew]
  exact wp_pure.mpr ⟨rfl, rfl⟩

/-- A published chain is the one `fillChain` wrote, for the buffer's direction. -/
theorem linked_fillChain (s : Blk) (r : Req) :
    Linked (fillChain r.buf r.d0 r.d1 r.d2 s).disk r := by
  have h01 := r.ne01
  have h02 := r.ne02
  have h12 := r.ne12
  refine ⟨?_, ⟨if (s.bufs r.buf).req.type = VIRTIO_BLK_T_OUT then VIRTQ_DESC_F_WRITE else 0, ?_, ?_⟩, ?_, ?_⟩
  · simp [fillChain, Function.update_of_ne h01, Function.update_of_ne h02]
  · split_ifs
    · exact .inr rfl
    · exact .inl rfl
  · simp [fillChain, Function.update_of_ne h12]
  · simp [fillChain]
  · simp [fillChain]

/-- Chains in other descriptors are not touched. -/
theorem Linked.fillChain_of_disjoint {r r' : Req} (h : Linked s.disk r') (hdisj : r'.descs.Disjoint r.descs) :
    Linked (fillChain r.buf r.d0 r.d1 r.d2 s).disk r' := by
  simp only [Req.descs, List.disjoint_cons_left, List.mem_cons, List.not_mem_nil, or_false, not_or] at hdisj
  obtain ⟨⟨h00, h01, h02⟩, ⟨h10, h11, h12⟩, ⟨h20, h21, h22⟩, -⟩ := hdisj
  refine ⟨?_, ?_, ?_, ?_⟩
  · simpa [fillChain, Function.update_of_ne, h00, h01, h02] using h.desc0
  · simpa [fillChain, Function.update_of_ne, h10, h11, h12] using h.desc1
  · simpa [fillChain, Function.update_of_ne, h20, h21, h22] using h.desc2
  · simpa [fillChain, Function.update_of_ne, h00] using h.info

theorem free_desc_spec {i : Nat} (hi : i < NUM_DESC) (htaken : s.disk.free i = false) :
    wp (free_desc i) (fun _ s' => s' = s.setFree i true) s := by
  unfold free_desc
  simp only [wp_bind, wp_get]
  rw [if_neg (by omega), if_neg (by simp [htaken])]
  simp only [wp_set]

/-- One round of `free_chain` at a taken descriptor. -/
theorem free_chain_step {n i : Nat} {Q : Unit → Blk → Prop} (hi : i < NUM_DESC)
    (htaken : s.disk.free i = false)
    (hlast : (s.disk.desc i).flags &&& VIRTQ_DESC_F_NEXT = 0 → Q () (s.setFree i true))
    (hnext : (s.disk.desc i).flags &&& VIRTQ_DESC_F_NEXT ≠ 0 →
      wp (free_chain n (s.disk.desc i).next) Q (s.setFree i true)) :
    wp (free_chain (n + 1) i) Q s := by
  rw [free_chain]
  simp only [wp_bind, wp_get]
  refine wp_mono (free_desc_spec hi htaken) ?_
  rintro _ _ rfl
  exact wp_ite.mpr ⟨fun h => wp_pure.mpr (hlast h), hnext⟩

/-- `free_chain` follows the links of a taken chain and frees each descriptor
once. -/
theorem free_chain_spec {r : Req} (h : Linked s.disk r) (htaken : ∀ i ∈ r.descs, s.disk.free i = false) :
    wp (free_chain (NUM_DESC + 1) r.d0) (fun _ s' => s' = s.setChain r true) s := by
  have htaken1 : (s.setFree r.d0 true).disk.free r.d1 = false := by
    simpa [Function.update_of_ne r.ne01.symm] using htaken r.d1 (by simp [Req.descs])
  have htaken2 : ((s.setFree r.d0 true).setFree r.d1 true).disk.free r.d2 = false := by
    simpa [Function.update_of_ne r.ne02.symm, Function.update_of_ne r.ne12.symm] using
      htaken r.d2 (by simp [Req.descs])
  refine free_chain_step r.lt0 (htaken r.d0 (by simp [Req.descs])) (fun hz => absurd hz h.flag0) fun _ => ?_
  rw [h.next0]
  refine free_chain_step (n := 7) r.lt1 htaken1 (fun hz => absurd hz h.flag1) fun _ => ?_
  rw [setFree_desc, h.next1]
  exact free_chain_step (n := 6) r.lt2 htaken2 (fun _ => rfl) fun hn => absurd h.flag2 hn

/-- The state after one round of the interrupt handler's loop. -/
def reaped (r : Req) (s : Blk) : Blk :=
  let s := (s.setBuf r.buf { s.bufs r.buf with disk := 0 }).setChain r true
  let s := s.setInfo r.d0 none
  { s with disk := { s.disk with used_idx := (s.disk.used_idx + 1) % 2 ^ 16 } }

/-- A round of the interrupt handler that finds a completed chain clears the
buffer's flag and frees the chain. -/
theorem reap_spec {r : Req} (hid : s.disk.used.ring (s.disk.used_idx % NUM_DESC) = r.d0)
    (h : Linked s.disk r) (htaken : ∀ i ∈ r.descs, s.disk.free i = false) :
    wp reap (fun _ s' => s' = reaped r s) s := by
  unfold reap
  simp only [wp_bind, wp_get]
  rw [hid, h.info]
  simp only [wp_bind, wp_modify]
  refine wp_mono (free_chain_spec (s := s.setBuf r.buf _) ⟨h.desc0, h.desc1, h.desc2, h.info⟩ htaken) ?_
  rintro _ _ rfl
  rfl

end bobchouos
