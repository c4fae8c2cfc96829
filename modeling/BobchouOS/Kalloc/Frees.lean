import BobchouOS.Kalloc.Runs
import BobchouOS.Kalloc.Steps
import BobchouOS.Vm.Model

open lib

namespace bobchouos

namespace Heap

/-- The calls of the allocator's interface and of the reference counts, and the
writes of the users. -/
inductive SharedOp where
  | alloc (order : Nat)
  | free (pa order : Nat)
  | page_get (pa : Nat)
  | page_put (pa : Nat)
  | store (a : Nat) (v : BitVec 8)

/-- A block that may be given back: it is live and has a single reference. -/
def Freeable (h : Heap) (pa order : Nat) : Prop := (pa, order) ∈ h.live ∧ (h.kmem.pa_to_page pa).refcount = 1

instance (h : Heap) (pa order : Nat) : Decidable (h.Freeable pa order) := inferInstanceAs (Decidable (_ ∧ _))

def SharedOp.Legal (h : Heap) : SharedOp → Prop
  | .alloc order => order ≤ MAX_ORDER
  | .free pa order => h.Freeable pa order
  | .page_get pa => (pa, 0) ∈ h.live
  | .page_put pa => (pa, 0) ∈ h.live
  | .store a _ => ∃ b ∈ h.live, InBlock a b

/-- One call. The last `page_put` of a page gives it back. -/
def SharedOp.exec : SharedOp → Prog Heap Nat
  | .alloc order => take order (kalloc_pages order)
  | .free pa order => giveBack pa order (kfree_pages pa order)
  | .page_get pa => do
    onKmem (bobchouos.page_get pa)
    pure 0
  | .page_put pa => do
    let h ← get
    onKmem (bobchouos.page_put pa)
    if h.Freeable pa 0 then
      modify fun h => { h with live := h.live.erase (pa, 0) }
    pure 0
  | .store a v => do
    modify fun h => { h with kmem := { h.kmem with mem := Function.update h.kmem.mem a v } }
    pure 0

/-- The allocator with shared pages. A call that panics has no successor. -/
def sharedSystem (kernel_end : Nat) : Lts Heap SharedOp where
  init h := ∃ s₀ s, kalloc_init kernel_end s₀ = .ok ((), s) ∧ h = ⟨s, []⟩
  step op h h' := op.Legal h ∧ ∃ r, op.exec h = .ok (r, h')

/-- What holds between calls. A count that has wrapped around is zero although its
block is live, so nothing is said about the counts of live blocks. -/
structure SharedInv (h : Heap) (free : FreeMap) (bs : List Block) : Prop where
  live : h.live = bs.map pairOf
  buddy : BuddyCore h.kmem free bs (PHYS_STOP / PG_SIZE)

variable {kernel_end : Nat} {h h' : Heap} {free : FreeMap} {bs : List Block} {pa order : Nat}

namespace SharedInv

theorem mem_live (hinv : SharedInv h free bs) (hmem : (pa, order) ∈ h.live) : ∃ b ∈ bs, pa = blockAddr b ∧ order = b.order := by
  rw [hinv.live] at hmem
  obtain ⟨b, hb, heq⟩ := List.mem_map.mp hmem
  exact ⟨b, hb, (Prod.ext_iff.mp heq).1.symm, (Prod.ext_iff.mp heq).2.symm⟩

theorem take_spec (hinv : SharedInv h free bs) (horder : order ≤ MAX_ORDER) :
    wp (take order (buddy_alloc order)) (fun _ h' => ∃ free' bs', SharedInv h' free' bs') h := by
  unfold take onKmem
  simp only [wp_bind, wp_onField]
  refine wp_mono (hinv.buddy.alloc_spec horder) ?_
  rintro r s' (⟨rfl, rfl, -⟩ | ⟨free', i, rfl, hr, hbuddy, -⟩)
  · rw [if_neg (by simp)]
    simp only [wp_pure]
    exact ⟨free, bs, hinv⟩
  · rw [if_pos hr]
    simp only [wp_bind, wp_modify, wp_pure]
    refine ⟨free', ⟨order, i⟩ :: bs, ?_, hbuddy⟩
    rw [hinv.live]
    rfl

/-- A block with a single reference is accepted. -/
theorem buddy_free_spec (hinv : SharedInv h free bs) (hfree : h.Freeable pa order) :
    wp (buddy_free pa order)
      (fun _ s' => ∃ free' bs', SharedInv ⟨s', h.live.erase (pa, order)⟩ free' bs') h.kmem := by
  obtain ⟨b, hb, rfl, rfl⟩ := hinv.mem_live hfree.1
  refine wp_mono (hinv.buddy.free_spec hb hfree.2) ?_
  rintro _ s' ⟨free', hbuddy, -⟩
  refine ⟨free', bs.erase b, ?_, hbuddy⟩
  rw [List.map_erase pairOf_injective, ← hinv.live]
  rfl

/-- Changing the count of a live page. -/
theorem setRefcount (hinv : SharedInv h free bs) (hmem : (pa, 0) ∈ h.live) (n : Nat) :
    SharedInv { h with kmem := h.kmem.setPage pa { h.kmem.pa_to_page pa with refcount := n } } free bs := by
  obtain ⟨b, hb, rfl, -⟩ := hinv.mem_live hmem
  have hbuddy := hinv.buddy
  refine ⟨hinv.live, hbuddy.toFreeInv.of_mem rfl rfl fun _ _ => rfl, hbuddy.coalesced, hbuddy.live_order,
    fun c hc => ?_, fun n hlo hhi hnot => ?_⟩
  · by_cases hcb : c = b
    · rw [hcb]
      simp only [pa_to_page_setPage_self]
      exact hbuddy.page_order b hb
    · simp only [pa_to_page_setPage_of_ne _ _ (hbuddy.pageIdx_live_ne hc hb hcb)]
      exact hbuddy.page_order c hc
  · have hge := hbuddy.start_ge
    have hbge : KERN_BASE ≤ blockAddr b := hge.trans (hbuddy.range_of_held hb).1
    have hne : Kmem.pageIdx (n * PG_SIZE) ≠ Kmem.pageIdx (blockAddr b) := by
      intro heq
      have haddr := pageIdx_inj (hge.trans hlo) hbge (Nat.mul_mod_left _ _) (blockAddr_aligned b) heq
      refine hnot b hb ?_
      rw [← blockAddr_div, ← haddr, Nat.mul_div_cancel _ (by decide)]
    simp only [pa_to_page_setPage_of_ne _ _ hne]
    exact hbuddy.other_page n hlo hhi hnot

/-- A user's write stays inside a live block, where no free list has its links. -/
theorem store (hinv : SharedInv h free bs) {a : Nat} (hin : ∃ b ∈ h.live, InBlock a b) (v : BitVec 8) :
    SharedInv { h with kmem := { h.kmem with mem := Function.update h.kmem.mem a v } } free bs := by
  have hbuddy := hinv.buddy
  refine ⟨hinv.live, hbuddy.toFreeInv.of_mem rfl rfl fun x hx => ?_, hbuddy.coalesced, hbuddy.live_order,
    hbuddy.page_order, hbuddy.other_page⟩
  obtain ⟨k, hk, hfree⟩ := hx
  have hne : x ≠ a := by
    rintro rfl
    obtain ⟨pair, hpair, hin⟩ := hin
    rw [hinv.live] at hpair
    obtain ⟨b, hb, rfl⟩ := List.mem_map.mp hpair
    exact hbuddy.tiled.not_live_of_free hk hfree rfl hb ((inBlock_pairOf b x).mp hin)
  exact Function.update_of_ne hne _ _

/-- Every call that returns keeps the invariant. Only `page_get` and `page_put` can
panic, on a page whose count has wrapped around. -/
theorem exec_spec {op : SharedOp} (hinv : SharedInv h free bs) (hlegal : op.Legal h) :
    wpe (fun _ => True) op.exec (fun _ h' => ∃ free' bs', SharedInv h' free' bs') h := by
  cases op with
  | alloc order => exact (hinv.take_spec hlegal).wpe
  | free pa order =>
    simp only [SharedOp.exec, giveBack, onKmem, wpe_bind, wpe_onField, wpe_modify, wpe_pure]
    exact (hinv.buddy_free_spec hlegal).wpe
  | page_get pa =>
    simp only [SharedOp.exec, onKmem, bobchouos.page_get, wpe_bind, wpe_onField, wpe_get, wpe_ite, wpe_panic, wpe_modify,
      wpe_pure]
    exact ⟨fun _ => trivial, fun _ => ⟨free, bs, hinv.setRefcount hlegal _⟩⟩
  | page_put pa =>
    simp only [SharedOp.exec, onKmem, bobchouos.page_put, wpe_bind, wpe_get, wpe_onField, wpe_ite, wpe_panic, wpe_modify,
      wpe_pure]
    refine ⟨fun _ => trivial, fun _ => ⟨fun hone => ?_, fun hmore => ?_⟩⟩
    · refine (wp_mono (hinv.buddy_free_spec ⟨hlegal, hone⟩) ?_).wpe
      rintro _ s' hspec
      exact ⟨fun _ => hspec, fun hnot => absurd ⟨hlegal, hone⟩ hnot⟩
    · exact ⟨fun hfree => absurd hfree.2 hmore, fun _ => ⟨free, bs, hinv.setRefcount hlegal _⟩⟩
  | store a v =>
    simp only [SharedOp.exec, wpe_bind, wpe_modify, wpe_pure]
    exact ⟨free, bs, hinv.store hlegal v⟩

end SharedInv

theorem sharedInv_of_reachable (hlo : KERN_BASE ≤ freeStart kernel_end) (hhi : freeStart kernel_end ≤ PHYS_STOP)
    (hreach : (sharedSystem kernel_end).Reachable h) : ∃ free bs, SharedInv h free bs := by
  refine hreach.invariant (P := fun h => ∃ free bs, SharedInv h free bs) ?_ ?_
  · rintro _ ⟨s₀, s, hinit, rfl⟩
    obtain ⟨-, free, hbuddy⟩ := (kalloc_init_spec s₀ hlo hhi).post hinit
    exact ⟨free, [], rfl, hbuddy.core⟩
  · rintro op h h' ⟨free, bs, hinv⟩ ⟨hlegal, r, hexec⟩
    exact (hinv.exec_spec hlegal).post hexec

/-- A call that is not legal fails one of the two checks. -/
theorem SharedInv.check_of_not_freeable (hinv : SharedInv h free bs) (hnot : ¬ h.Freeable pa order)
    (hvalid : ¬ (order > MAX_ORDER ∨ pa % (PG_SIZE <<< order) ≠ 0 ∨ pa < h.kmem.free_start ∨ pa ≥ PHYS_STOP)) :
    (h.kmem.pa_to_page pa).refcount ≠ 1 ∨ (h.kmem.pa_to_page pa).order ≠ order := by
  by_contra hpass
  rw [not_or, not_not, not_not] at hpass
  obtain ⟨hone, horder⟩ := hpass
  rw [not_or, not_or, not_or, not_not] at hvalid
  obtain ⟨-, haligned, hlo, hhi⟩ := hvalid
  have hpage : pa / PG_SIZE * PG_SIZE = pa := by
    refine Nat.div_mul_cancel (Nat.dvd_of_mod_eq_zero ?_)
    rw [PG_SIZE_shiftLeft] at haligned
    exact Nat.mod_eq_zero_of_dvd (dvd_of_mul_left_dvd (Nat.dvd_of_mod_eq_zero haligned))
  by_cases hlive : ∃ b ∈ bs, b.base = pa / PG_SIZE
  · obtain ⟨b, hb, hbase⟩ := hlive
    have haddr : blockAddr b = pa := by rw [blockAddr, hbase, hpage]
    refine hnot ⟨?_, hone⟩
    rw [hinv.live, ← haddr, ← horder, ← haddr, hinv.buddy.page_order b hb]
    exact List.mem_map_of_mem hb
  · have hzero := hinv.buddy.other_page (pa / PG_SIZE) (by omega) (by omega) fun b hb hbase => hlive ⟨b, hb, hbase⟩
    rw [hpage] at hzero
    omega

/-- `buddy_free` accepts the blocks that may be given back and refuses everything
else, before it has written anything. -/
theorem buddy_free_accepts_iff (kernel_end : Nat) (hlo : KERN_BASE ≤ freeStart kernel_end)
    (hhi : freeStart kernel_end ≤ PHYS_STOP) (h : Heap) (hreach : (sharedSystem kernel_end).Reachable h) (pa order : Nat) :
    (h.Freeable pa order → ∃ s', buddy_free pa order h.kmem = .ok ((), s')) ∧
    (¬ h.Freeable pa order → ∃ m, buddy_free pa order h.kmem = .error (.panic m) ∧
      (steps.buddy_free pa order).haltsIn h.kmem = some (.panic m, h.kmem)) := by
  obtain ⟨free, bs, hinv⟩ := sharedInv_of_reachable hlo hhi hreach
  refine ⟨fun hfree => ?_, fun hnot => ?_⟩
  · obtain ⟨_, s', hrun, -⟩ := hinv.buddy_free_spec hfree
    exact ⟨s', hrun⟩
  · simp only [← steps.run_buddy_free, steps.buddy_free, Micro.run_read_bind, Micro.haltsIn_read_bind, steps.getRefcount,
      steps.getOrder, Micro.run_ite]
    by_cases hvalid : order > MAX_ORDER ∨ pa % (PG_SIZE <<< order) ≠ 0 ∨ pa < h.kmem.free_start ∨ pa ≥ PHYS_STOP
    · rw [if_pos hvalid, if_pos hvalid]
      exact ⟨_, rfl, rfl⟩
    · rw [if_neg hvalid, if_neg hvalid]
      have hcheck := hinv.check_of_not_freeable hnot hvalid
      simp only [Micro.haltsIn_read_bind, if_pos hcheck]
      exact ⟨_, rfl, rfl⟩

/-- A page with two references is refused, and accepted after one of them is gone. -/
theorem buddy_free_accepts_iff_shared : ∃ h h' pa, (sharedSystem 0x87EF8000).Reachable h ∧
    (sharedSystem 0x87EF8000).Reachable h' ∧ (pa, 0) ∈ h.live ∧ (h.kmem.pa_to_page pa).refcount = 2 ∧
    (∃ m, buddy_free pa 0 h.kmem = .error (.panic m)) ∧ ∃ s', buddy_free pa 0 h'.kmem = .ok ((), s') := by
  have hstart := freeStart_eq (k := 0x87EF8000) (by decide)
  have hlo : KERN_BASE ≤ freeStart 0x87EF8000 := by rw [hstart]; decide
  have hhi : freeStart 0x87EF8000 ≤ PHYS_STOP := by rw [hstart]; decide
  have hrun : (match kalloc_init 0x87EF8000 ⟨fun _ => 0, fun _ => {}, fun _ => {}, 0, fun _ => {}⟩ with
      | .error _ => false
      | .ok (_, s) => match (SharedOp.alloc 0).exec ⟨s, []⟩ with
        | .error _ => false
        | .ok (pa, h) => match (SharedOp.page_get pa).exec h with
          | .error _ => false
          | .ok (_, h') => decide ((pa, 0) ∈ h.live ∧ (h.kmem.pa_to_page pa).refcount = 1 ∧ (pa, 0) ∈ h'.live ∧
              (h'.kmem.pa_to_page pa).refcount = 2)) = true := by decide +kernel
  cases hinit : kalloc_init 0x87EF8000 ⟨fun _ => 0, fun _ => {}, fun _ => {}, 0, fun _ => {}⟩ with
  | error e =>
    rw [hinit] at hrun
    cases hrun
  | ok res =>
    obtain ⟨_, s⟩ := res
    have hboot : (sharedSystem 0x87EF8000).Reachable ⟨s, []⟩ := .init ⟨_, s, hinit, rfl⟩
    rw [hinit] at hrun
    dsimp only at hrun
    cases halloc : (SharedOp.alloc 0).exec ⟨s, []⟩ with
    | error e =>
      rw [halloc] at hrun
      cases hrun
    | ok res =>
      obtain ⟨pa, h⟩ := res
      have hreach : (sharedSystem 0x87EF8000).Reachable h := hboot.step (a := .alloc 0) ⟨Nat.zero_le _, pa, halloc⟩
      rw [halloc] at hrun
      dsimp only at hrun
      cases hget : (SharedOp.page_get pa).exec h with
      | error e =>
        rw [hget] at hrun
        cases hrun
      | ok res =>
        obtain ⟨r, h'⟩ := res
        rw [hget] at hrun
        obtain ⟨hlive, hone, hlive', htwo⟩ := of_decide_eq_true hrun
        have hreach' : (sharedSystem 0x87EF8000).Reachable h' := hreach.step (a := .page_get pa) ⟨hlive, r, hget⟩
        have hrefuse := (buddy_free_accepts_iff 0x87EF8000 hlo hhi h' hreach' pa 0).2 fun hfree => by
          have hcount := hfree.2
          omega
        obtain ⟨m, hpanic, -⟩ := hrefuse
        exact ⟨h', h, pa, hreach', hreach, hlive', htwo, ⟨m, hpanic⟩,
          (buddy_free_accepts_iff 0x87EF8000 hlo hhi h hreach pa 0).1 ⟨hlive, hone⟩⟩

end Heap

end bobchouos
