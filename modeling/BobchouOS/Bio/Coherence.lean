import BobchouOS.Bio.Cache

open lib

namespace bobchouos

/-- What the users of the buffer cache see, for one device: `bread` returned
with the data, a process looked at or changed the data of its buffer, and a
session ended. -/
inductive BlockEvent where
  | opened (pid blockno : Nat) (data : BlockData)
  | looked (pid blockno : Nat) (data : BlockData)
  | edited (pid blockno : Nat) (data : BlockData)
  | closed (pid blockno : Nat)

/-- A register for each block: its value, and the process that has it open with
its private copy. -/
structure Registers where
  value : Nat → BlockData
  owner : Nat → Option (Nat × BlockData)

/-- Atomic registers. A session starts with the value of the block, works on a
copy that nobody else sees, and installs it when it ends. -/
def registers (initial : Nat → BlockData) : Lts Registers (Option BlockEvent) where
  init r := r.value = initial ∧ ∀ n, r.owner n = none
  step
    | none, _, _ => False
    | some (.opened p n data), r, r' => r.owner n = none ∧ data = r.value n ∧
        r' = { r with owner := Function.update r.owner n (some (p, data)) }
    | some (.looked p n data), r, r' => r.owner n = some (p, data) ∧ r' = r
    | some (.edited p n data), r, r' => (∃ old, r.owner n = some (p, old)) ∧
        r' = { r with owner := Function.update r.owner n (some (p, data)) }
    | some (.closed p n), r, r' => ∃ data, r.owner n = some (p, data) ∧
        r' = ⟨Function.update r.value n data, Function.update r.owner n none⟩

namespace Bio

/-- One device number, and no unwritten change at `brelse`. -/
def Disciplined (dev : Nat) (s : Bio) : Act → Prop
  | .bread _ d _ => d = dev
  | .brelse i => ∀ x, s.sessions[i]? = some x → x.dirty = false
  | _ => True

/-- What a step shows to the users. -/
def event (s s' : Bio) : Act → Option BlockEvent
  | .check i => s.sessions[i]?.bind fun x =>
    if (s.cache.buf x.buf).valid then some (.opened x.pid x.blockno (s.cache.buf x.buf).data) else none
  | .load i => s.sessions[i]?.map fun x => .opened x.pid x.blockno (s'.cache.buf x.buf).data
  | .modify i data => s.sessions[i]?.map fun x => .edited x.pid x.blockno data
  | .brelse i => s.sessions[i]?.map fun x => .closed x.pid x.blockno
  | _ => none

/-- The buffer cache and the disk as their users see them. A process may look
at the data of a buffer whenever it has it from `bread`. -/
def coherent (dev : Nat) (initial : Nat → BlockData) : Lts Bio (Option BlockEvent) where
  init s := Boot s ∧ s.platter = initial
  step e s s' :=
    (∃ a, Disciplined dev s a ∧ system.step a s s' ∧ e = event s s' a) ∨
    (∃ (i : Nat) (x : Session), s.sessions[i]? = some x ∧ x.stage = .held ∧ s.Ready x.pid ∧ s' = s ∧
      e = some (.looked x.pid x.blockno (s.cache.buf x.buf).data))

end Bio

/-- The stages in which a process has the buffer from `bread`. -/
def Stage.opened : Stage → Bool
  | .held | .writing => true
  | .locking | .got | .reading | .releasing => false

theorem Stage.owns_of_opened {stage : Stage} (h : stage.opened = true) : stage.owns = true := by
  cases stage <;> first | rfl | cases h

namespace Bio

/-- How the cache and the disk represent the registers. The copy of an open
session is the data of its buffer; a block that is not open has its value on
the disk and in every valid buffer. -/
structure Coh (dev : Nat) (s : Bio) (r : Registers) : Prop where
  inv : Inv s
  one_dev : ∀ b < NBUF, (s.cache.buf b).Active → (s.cache.buf b).dev = dev
  clean : ∀ x ∈ s.sessions, x.stage.opened = true → x.dirty = false →
    (s.cache.buf x.buf).data = s.platter x.blockno
  owner : ∀ x ∈ s.sessions, x.stage.opened = true →
    r.owner x.blockno = some (x.pid, (s.cache.buf x.buf).data)
  owned : ∀ n, r.owner n ≠ none → ∃ x ∈ s.sessions, x.stage.opened = true ∧ x.blockno = n
  value : ∀ n, r.owner n = none → r.value n = s.platter n
  cached : ∀ b < NBUF, (s.cache.buf b).valid = true → r.owner (s.cache.buf b).blockno = none →
    (s.cache.buf b).data = s.platter (s.cache.buf b).blockno

theorem buf_setType (c : Bcache) (b type a : Nat) : ∃ req, (setType b type c).buf a = { c.buf a with req } := by
  by_cases hab : a = b
  · subst hab
    exact ⟨_, Identity.buf_setBuf_self _⟩
  · exact ⟨_, Identity.buf_setBuf_of_ne hab _⟩

theorem buf_setRefcnt (c : Bcache) (b a : Nat) (n : Int) :
    ∃ m, (c.setBuf b { c.buf b with refcnt := n }).buf a = { c.buf a with refcnt := m } ∧
      (a ≠ b → m = (c.buf a).refcnt) ∧ (a = b → m = n) := by
  by_cases hab : a = b
  · subst hab
    exact ⟨n, Identity.buf_setBuf_self _, fun hne => absurd rfl hne, fun _ => rfl⟩
  · exact ⟨_, Identity.buf_setBuf_of_ne hab _, fun _ => rfl, fun heq => absurd heq hab⟩

namespace Coh

variable {dev : Nat} {s s' : Bio} {r : Registers} {i : Nat} {x y z : Session}

/-- A block has one active buffer. -/
theorem buf_unique (h : Coh dev s r) {a b : Nat} (ha : a < NBUF) (hb : b < NBUF)
    (haa : (s.cache.buf a).Active) (hba : (s.cache.buf b).Active)
    (heq : (s.cache.buf a).blockno = (s.cache.buf b).blockno) : a = b := by
  apply h.inv.refs.unique a ha b hb haa hba
  exact Prod.ext ((h.one_dev a ha haa).trans (h.one_dev b hb hba).symm) heq

theorem active_of_mem (h : Coh dev s r) (hx : x ∈ s.sessions) : (s.cache.buf x.buf).Active :=
  .inl (h.inv.refs.refcnt_pos hx)

theorem blockno_of_mem (h : Coh dev s r) (hx : x ∈ s.sessions) : (s.cache.buf x.buf).blockno = x.blockno :=
  (Prod.ext_iff.mp (h.inv.refs.key x hx)).2

theorem mem_of_getElem? (hx : s.sessions[i]? = some x) : x ∈ s.sessions :=
  List.mem_of_getElem? hx

/-- While a session has the sleep lock, no other one has its block open. -/
theorem blockno_ne (h : Coh dev s r) (hx : s.sessions[i]? = some x) (howns : x.stage.owns = true)
    (hz : z ∈ s.sessions.eraseIdx i) (hopen : z.stage.opened = true) : z.blockno ≠ x.blockno := by
  intro heq
  have hxm := mem_of_getElem? hx
  have hzm : z ∈ s.sessions := List.mem_of_mem_eraseIdx hz
  have hbuf : z.buf = x.buf := by
    apply h.buf_unique (h.inv.refs.member z hzm) (h.inv.refs.member x hxm) (h.active_of_mem hzm)
      (h.active_of_mem hxm)
    rw [h.blockno_of_mem hzm, h.blockno_of_mem hxm, heq]
  have hnot := (h.inv.locks_at hx).owner_unique howns hz hbuf
  rw [Stage.owns_of_opened hopen] at hnot
  cases hnot

/-- Before `bread` returns, its block is not open. -/
theorem owner_eq_none (h : Coh dev s r) (hx : s.sessions[i]? = some x) (howns : x.stage.owns = true)
    (hclosed : x.stage.opened = false) : r.owner x.blockno = none := by
  by_contra howner
  obtain ⟨z, hz, hopen, heq⟩ := h.owned _ howner
  rcases List.mem_cons.mp ((perm_of_getElem? hx).mem_iff.mp hz) with rfl | hrest
  · rw [hclosed] at hopen
    cases hopen
  · exact h.blockno_ne hx howns hrest hopen heq

/-- Steps that keep the open sessions, the data and the disk. A buffer may lose
its contents, and a re-keyed one has none. -/
theorem silent (h : Coh dev s r) (hinv : Inv s')
    (hdev : ∀ b < NBUF, (s'.cache.buf b).Active → (s'.cache.buf b).dev = dev)
    (hplatter : s'.platter = s.platter) (hdata : ∀ b, (s'.cache.buf b).data = (s.cache.buf b).data)
    (hvalid : ∀ b, (s'.cache.buf b).valid = true →
      (s.cache.buf b).valid = true ∧ (s'.cache.buf b).blockno = (s.cache.buf b).blockno)
    (hopen : ∀ y ∈ s'.sessions, y.stage.opened = true → ∃ x ∈ s.sessions, x.stage.opened = true ∧
      x.pid = y.pid ∧ x.buf = y.buf ∧ x.blockno = y.blockno ∧ x.dirty = y.dirty)
    (hback : ∀ x ∈ s.sessions, x.stage.opened = true → ∃ y ∈ s'.sessions, y.stage.opened = true ∧
      y.blockno = x.blockno) : Coh dev s' r := by
  refine ⟨hinv, hdev, ?_, ?_, ?_, ?_, ?_⟩
  · intro y hy ho hclean
    obtain ⟨x, hx, hxo, -, hbuf, hblock, hdirty⟩ := hopen y hy ho
    rw [hplatter, hdata, ← hbuf, ← hblock]
    exact h.clean x hx hxo (hdirty.trans hclean)
  · intro y hy ho
    obtain ⟨x, hx, hxo, hpid, hbuf, hblock, -⟩ := hopen y hy ho
    rw [hdata, ← hbuf, ← hblock, ← hpid]
    exact h.owner x hx hxo
  · intro n hn
    obtain ⟨x, hx, hxo, rfl⟩ := h.owned n hn
    obtain ⟨y, hy, hyo, hblock⟩ := hback x hx hxo
    exact ⟨y, hy, hyo, hblock⟩
  · intro n hn
    rw [hplatter]
    exact h.value n hn
  · intro b hb hv hn
    obtain ⟨hold, hblock⟩ := hvalid b hv
    rw [hblock] at hn ⊢
    rw [hdata, hplatter]
    exact h.cached b hb hold hn

/-- A session that has the sleep lock puts new data into its buffer. -/
theorem put {new : Buf} (h : Coh dev s r) (hinv : Inv s') (hx : s.sessions[i]? = some x)
    (hsessions : s'.sessions = s.sessions.set i y) (howns : x.stage.owns = true) (hxy : x.Same y)
    (hopen : y.stage.opened = true) (hplatter : s'.platter = s.platter)
    (hother : ∀ b, b ≠ x.buf → s'.cache.buf b = s.cache.buf b)
    (hnew : s'.cache.buf x.buf = new) (hkey : new.key = (s.cache.buf x.buf).key)
    (hclean : y.dirty = false → new.data = s.platter x.blockno) :
    Coh dev s' { r with owner := Function.update r.owner x.blockno (some (x.pid, new.data)) } := by
  have hxm := mem_of_getElem? hx
  obtain ⟨hdev, hblock⟩ := Prod.ext_iff.mp hkey
  have hperm : s'.sessions.Perm (y :: s.sessions.eraseIdx i) := hsessions ▸ perm_set_of_getElem? hx
  have hsplit : ∀ w ∈ s'.sessions, w = y ∨ w ∈ s.sessions.eraseIdx i := fun w hw =>
    List.mem_cons.mp (hperm.mem_iff.mp hw)
  -- an open session of another process is on another block, so on another buffer
  have hrest : ∀ w ∈ s.sessions.eraseIdx i, w.stage.opened = true →
      w.blockno ≠ x.blockno ∧ w ∈ s.sessions ∧ s'.cache.buf w.buf = s.cache.buf w.buf := by
    intro w hw ho
    have hwm : w ∈ s.sessions := List.mem_of_mem_eraseIdx hw
    have hne := h.blockno_ne hx howns hw ho
    refine ⟨hne, hwm, hother _ fun hbuf => hne ?_⟩
    rw [← h.blockno_of_mem hwm, ← h.blockno_of_mem hxm, hbuf]
  refine ⟨hinv, ?_, ?_, ?_, ?_, ?_, ?_⟩
  · intro b hb hactive
    by_cases hbx : b = x.buf
    · rw [hbx, hnew]
      exact hdev.trans (h.one_dev _ (h.inv.refs.member x hxm) (h.active_of_mem hxm))
    · rw [hother b hbx] at hactive ⊢
      exact h.one_dev b hb hactive
  · intro w hw ho hc
    rw [hplatter]
    rcases hsplit w hw with rfl | hw
    · rw [hxy.buf, hxy.blockno, hnew]
      exact hclean hc
    · rw [(hrest w hw ho).2.2]
      exact h.clean w (hrest w hw ho).2.1 ho hc
  · intro w hw ho
    dsimp only
    rcases hsplit w hw with rfl | hw
    · rw [hxy.buf, hxy.blockno, hxy.pid, hnew, Function.update_self]
    · rw [Function.update_of_ne (hrest w hw ho).1, (hrest w hw ho).2.2]
      exact h.owner w (hrest w hw ho).2.1 ho
  · intro n hn
    by_cases hnx : n = x.blockno
    · exact ⟨y, hperm.mem_iff.mpr (by simp), hopen, hxy.blockno.trans hnx.symm⟩
    · simp only [Function.update_of_ne hnx] at hn
      obtain ⟨w, hw, ho, heq⟩ := h.owned n hn
      rcases List.mem_cons.mp ((perm_of_getElem? hx).mem_iff.mp hw) with rfl | hw
      · exact absurd heq.symm hnx
      · exact ⟨w, hperm.mem_iff.mpr (by simp [hw]), ho, heq⟩
  · intro n hn
    have hnx : n ≠ x.blockno := by
      rintro rfl
      simp at hn
    simp only [Function.update_of_ne hnx] at hn
    rw [hplatter]
    exact h.value n hn
  · intro b hb hv hn
    have hbx : b ≠ x.buf := by
      rintro rfl
      rw [hnew, show new.blockno = x.blockno from hblock.trans (h.blockno_of_mem hxm)] at hn
      simp at hn
    rw [hother b hbx] at hv hn ⊢
    have hnx : (s.cache.buf b).blockno ≠ x.blockno := by
      intro heq
      simp [heq] at hn
    simp only [Function.update_of_ne hnx] at hn
    rw [hplatter]
    exact h.cached b hb hv hn

/-- A session ends after its last change was written. -/
theorem close (h : Coh dev s r) (hinv : Inv s') (hx : s.sessions[i]? = some x)
    (hsessions : s'.sessions = s.sessions.set i y) (hopen : x.stage.opened = true) (hdirty : x.dirty = false)
    (hclosed : y.stage.opened = false) (hplatter : s'.platter = s.platter)
    (hbuf : s'.cache.buf = s.cache.buf) :
    Coh dev s' ⟨Function.update r.value x.blockno (s.cache.buf x.buf).data,
      Function.update r.owner x.blockno none⟩ := by
  have hxm := mem_of_getElem? hx
  have hclean := h.clean x hxm hopen hdirty
  have hperm : s'.sessions.Perm (y :: s.sessions.eraseIdx i) := hsessions ▸ perm_set_of_getElem? hx
  have hrest : ∀ w ∈ s'.sessions, w.stage.opened = true → w.blockno ≠ x.blockno ∧ w ∈ s.sessions := by
    intro w hw ho
    rcases List.mem_cons.mp (hperm.mem_iff.mp hw) with rfl | hw
    · rw [hclosed] at ho
      cases ho
    · exact ⟨h.blockno_ne hx (Stage.owns_of_opened hopen) hw ho, List.mem_of_mem_eraseIdx hw⟩
  refine ⟨hinv, ?_, ?_, ?_, ?_, ?_, ?_⟩
  · rw [hbuf]
    exact h.one_dev
  · intro w hw ho hc
    rw [hbuf, hplatter]
    exact h.clean w (hrest w hw ho).2 ho hc
  · intro w hw ho
    dsimp only
    rw [hbuf, Function.update_of_ne (hrest w hw ho).1]
    exact h.owner w (hrest w hw ho).2 ho
  · intro n hn
    have hnx : n ≠ x.blockno := by
      rintro rfl
      simp at hn
    simp only [Function.update_of_ne hnx] at hn
    obtain ⟨w, hw, ho, heq⟩ := h.owned n hn
    rcases List.mem_cons.mp ((perm_of_getElem? hx).mem_iff.mp hw) with rfl | hw
    · exact absurd heq.symm hnx
    · exact ⟨w, hperm.mem_iff.mpr (by simp [hw]), ho, heq⟩
  · intro n hn
    dsimp only
    rw [hplatter]
    by_cases hnx : n = x.blockno
    · rw [hnx, Function.update_self, hclean]
    · simp only [Function.update_of_ne hnx] at hn
      rw [Function.update_of_ne hnx]
      exact h.value n hn
  · intro b hb hv hn
    rw [hbuf] at hv hn ⊢
    rw [hplatter]
    by_cases hbx : (s.cache.buf b).blockno = x.blockno
    · have heq : b = x.buf := h.buf_unique hb (h.inv.refs.member x hxm) (.inr hv) (h.active_of_mem hxm)
        (hbx.trans (h.blockno_of_mem hxm).symm)
      rw [heq, h.blockno_of_mem hxm, hclean]
    · simp only [Function.update_of_ne hbx] at hn
      exact h.cached b hb hv hn

/-- The block of an open session is written to the disk. -/
theorem store (h : Coh dev s r) (hinv : Inv s') (hx : s.sessions[i]? = some x)
    (hsessions : s'.sessions = s.sessions.set i y) (hopen : x.stage.opened = true) (hxy : x.Same y)
    (hyopen : y.stage.opened = true) (hbuf : s'.cache.buf = s.cache.buf)
    (hplatter : s'.platter = Function.update s.platter x.blockno (s.cache.buf x.buf).data) :
    Coh dev s' r := by
  have hxm := mem_of_getElem? hx
  have hperm : s'.sessions.Perm (y :: s.sessions.eraseIdx i) := hsessions ▸ perm_set_of_getElem? hx
  have howner := h.owner x hxm hopen
  have hfree : ∀ n, r.owner n = none → n ≠ x.blockno := by
    rintro n hn rfl
    rw [howner] at hn
    cases hn
  refine ⟨hinv, ?_, ?_, ?_, ?_, ?_, ?_⟩
  · rw [hbuf]
    exact h.one_dev
  · intro w hw ho hc
    rw [hbuf, hplatter]
    rcases List.mem_cons.mp (hperm.mem_iff.mp hw) with rfl | hw
    · rw [hxy.buf, hxy.blockno, Function.update_self]
    · rw [Function.update_of_ne (h.blockno_ne hx (Stage.owns_of_opened hopen) hw ho)]
      exact h.clean w (List.mem_of_mem_eraseIdx hw) ho hc
  · intro w hw ho
    rw [hbuf]
    rcases List.mem_cons.mp (hperm.mem_iff.mp hw) with rfl | hw
    · rw [hxy.buf, hxy.blockno, hxy.pid]
      exact howner
    · exact h.owner w (List.mem_of_mem_eraseIdx hw) ho
  · intro n hn
    obtain ⟨w, hw, ho, heq⟩ := h.owned n hn
    rcases List.mem_cons.mp ((perm_of_getElem? hx).mem_iff.mp hw) with rfl | hw
    · exact ⟨y, hperm.mem_iff.mpr (by simp), hyopen, hxy.blockno.trans heq⟩
    · exact ⟨w, hperm.mem_iff.mpr (by simp [hw]), ho, heq⟩
  · intro n hn
    rw [hplatter, Function.update_of_ne (hfree n hn)]
    exact h.value n hn
  · intro b hb hv hn
    rw [hbuf] at hv hn ⊢
    rw [hplatter, Function.update_of_ne (hfree _ hn)]
    exact h.cached b hb hv hn

/-- A session moves on without changing any data, and stays open or closed. -/
theorem relabel (h : Coh dev s r) (hinv : Inv s') (hx : s.sessions[i]? = some x)
    (hsessions : s'.sessions = s.sessions.set i y) (hxy : x.Same y) (hopen : y.stage.opened = x.stage.opened)
    (hdirty : y.dirty = x.dirty) (hplatter : s'.platter = s.platter)
    (hdata : ∀ b, (s'.cache.buf b).data = (s.cache.buf b).data)
    (hbuf : ∀ b, (s'.cache.buf b).key = (s.cache.buf b).key ∧ (s'.cache.buf b).valid = (s.cache.buf b).valid ∧
      (s'.cache.buf b).refcnt = (s.cache.buf b).refcnt) : Coh dev s' r := by
  have hperm : s'.sessions.Perm (y :: s.sessions.eraseIdx i) := hsessions ▸ perm_set_of_getElem? hx
  have hold := perm_of_getElem? hx
  refine h.silent hinv ?_ hplatter hdata ?_ ?_ ?_
  · intro b hb hactive
    obtain ⟨hkey, hv, href⟩ := hbuf b
    rw [show (s'.cache.buf b).dev = _ from (Prod.ext_iff.mp hkey).1]
    unfold Buf.Active at hactive
    rw [hv, href] at hactive
    exact h.one_dev b hb hactive
  · intro b hv
    rw [(hbuf b).2.1] at hv
    exact ⟨hv, (Prod.ext_iff.mp (hbuf b).1).2⟩
  · intro w hw ho
    rcases List.mem_cons.mp (hperm.mem_iff.mp hw) with rfl | hw
    · exact ⟨x, mem_of_getElem? hx, hopen ▸ ho, hxy.pid.symm, hxy.buf.symm, hxy.blockno.symm, hdirty.symm⟩
    · exact ⟨w, List.mem_of_mem_eraseIdx hw, ho, rfl, rfl, rfl, rfl⟩
  · intro w hw ho
    rcases List.mem_cons.mp (hold.mem_iff.mp hw) with rfl | hw
    · exact ⟨y, hperm.mem_iff.mpr (by simp), hopen.trans ho, hxy.blockno⟩
    · exact ⟨w, hperm.mem_iff.mpr (by simp [hw]), ho, rfl⟩

/-- The first half of `bread`. A recycled buffer loses its contents, which are
on the disk. -/
theorem bget {pid b blockno : Nat} {c : Bcache} (h : Coh dev s r)
    (hget : bobchouos.bget dev blockno s.cache = .ok (b, c))
    (hinv : Inv { s with cache := c, sessions := ⟨pid, b, dev, blockno, .locking, false⟩ :: s.sessions }) :
    Coh dev { s with cache := c, sessions := ⟨pid, b, dev, blockno, .locking, false⟩ :: s.sessions } r := by
  have hopen : ∀ z, z ∈ (⟨pid, b, dev, blockno, .locking, false⟩ :: s.sessions : List Session) →
      z.stage.opened = true → z ∈ s.sessions := by
    intro z hz ho
    rcases List.mem_cons.mp hz with rfl | hz
    · cases ho
    · exact hz
  -- either way the other buffers are as before, and this one has the key
  obtain ⟨new, rfl, hkey, hdata, hvalid⟩ : ∃ new : Buf, c = s.cache.setBuf b new ∧ new.key = (dev, blockno) ∧
      new.data = (s.cache.buf b).data ∧
      (new.valid = true → (s.cache.buf b).valid = true ∧ new.blockno = (s.cache.buf b).blockno) := by
    rcases bget_cases hget with ⟨hfind, rfl⟩ | ⟨-, -, -, rfl⟩
    · exact ⟨_, rfl, (hasKey_iff _ _ _ _).mp (List.find?_some hfind), rfl, fun hv => ⟨hv, rfl⟩⟩
    · exact ⟨_, rfl, rfl, rfl, fun hv => by cases hv⟩
  have hcase : ∀ a, (s.cache.setBuf b new).buf a = s.cache.buf a ∨
      (a = b ∧ (s.cache.setBuf b new).buf a = new) := by
    intro a
    by_cases hab : a = b
    · exact .inr ⟨hab, by rw [hab, Identity.buf_setBuf_self]⟩
    · exact .inl (Identity.buf_setBuf_of_ne hab _)
  refine h.silent hinv ?_ rfl ?_ ?_ ?_ ?_
  · intro a ha hactive
    dsimp only at hactive ⊢
    rcases hcase a with heq | ⟨-, heq⟩
    · rw [heq] at hactive ⊢
      exact h.one_dev a ha hactive
    · rw [heq]
      exact (Prod.ext_iff.mp hkey).1
  · intro a
    dsimp only
    rcases hcase a with heq | ⟨rfl, heq⟩
    · rw [heq]
    · rw [heq, hdata]
  · intro a hv
    dsimp only at hv ⊢
    rcases hcase a with heq | ⟨rfl, heq⟩
    · rw [heq] at hv ⊢
      exact ⟨hv, rfl⟩
    · rw [heq] at hv ⊢
      exact hvalid hv
  · intro z hz ho
    exact ⟨z, hopen z hz ho, ho, rfl, rfl, rfl, rfl⟩
  · intro z hz ho
    exact ⟨z, List.mem_cons_of_mem _ hz, ho, rfl⟩

/-- References come and go without changing what a buffer holds. -/
theorem recount {b : Nat} {n : Int} (h : Coh dev s r) (hinv : Inv s') (hplatter : s'.platter = s.platter)
    (hsessions : ∀ z : Session, z.stage.opened = true → (z ∈ s'.sessions ↔ z ∈ s.sessions))
    (hbuf : s'.cache.buf = (s.cache.setBuf b { s.cache.buf b with refcnt := n }).buf)
    (hactive : 0 < n → (s.cache.buf b).Active) : Coh dev s' r := by
  refine h.silent hinv ?_ hplatter ?_ ?_ ?_ ?_
  · intro a ha hnow
    obtain ⟨m, heq, hne, hself⟩ := buf_setRefcnt s.cache b a n
    rw [hbuf, heq] at hnow ⊢
    refine h.one_dev a ha ?_
    rcases hnow with hpos | hv
    · by_cases hab : a = b
      · exact hab ▸ hactive (hself hab ▸ hpos)
      · exact .inl (hne hab ▸ hpos)
    · exact .inr hv
  · intro a
    obtain ⟨m, heq, -⟩ := buf_setRefcnt s.cache b a n
    rw [hbuf, heq]
  · intro a hv
    obtain ⟨m, heq, -⟩ := buf_setRefcnt s.cache b a n
    rw [hbuf, heq] at hv ⊢
    exact ⟨hv, rfl⟩
  · intro z hz ho
    exact ⟨z, (hsessions z ho).mp hz, ho, rfl, rfl, rfl, rfl⟩
  · intro z hz ho
    exact ⟨z, (hsessions z ho).mpr hz, ho, rfl⟩

/-- The same for a step that sets the direction of the request as well. -/
theorem retype {type : Nat} (h : Coh dev s r) (hinv : Inv s') (hx : s.sessions[i]? = some x)
    (hsessions : s'.sessions = s.sessions.set i y) (hxy : x.Same y) (hopen : y.stage.opened = x.stage.opened)
    (hdirty : y.dirty = x.dirty) (hplatter : s'.platter = s.platter)
    (hcache : s'.cache = setType x.buf type s.cache) : Coh dev s' r := by
  refine h.relabel hinv hx hsessions hxy hopen hdirty hplatter ?_ ?_
  · intro b
    obtain ⟨req, heq⟩ := buf_setType s.cache x.buf type b
    rw [hcache, heq]
  · intro b
    obtain ⟨req, heq⟩ := buf_setType s.cache x.buf type b
    rw [hcache, heq]
    exact ⟨rfl, rfl, rfl⟩

end Coh

variable {dev : Nat} {s s' : Bio} {r : Registers}

/-- A step either shows nothing and keeps the registers represented, or shows an
event that the registers can take. -/
def Simulates (dev : Nat) (initial : Nat → BlockData) (s' : Bio) (r : Registers) : Option BlockEvent → Prop
  | none => Coh dev s' r
  | some e => ∃ r', (registers initial).step (some e) r r' ∧ Coh dev s' r'

theorem Moves.simulates {initial : Nat → BlockData} {a : Act} (hmoves : Moves s a s') (h : Coh dev s r)
    (hd : Disciplined dev s a) : Simulates dev initial s' r (event s s' a) := by
  have hinv := hmoves.inv h.inv
  cases hmoves with
  | bread hready hget =>
    cases hd
    exact h.bget hget hinv
  | acquire hx hstage hfree =>
    exact h.relabel hinv hx rfl ⟨rfl, rfl, rfl, rfl⟩ (by rw [hstage]; rfl) rfl rfl (fun _ => rfl)
      fun _ => ⟨rfl, rfl, rfl⟩
  | @check_valid i x hx hstage hv =>
    have hxm := Coh.mem_of_getElem? hx
    have howner := h.owner_eq_none hx (by rw [hstage]; rfl) (by rw [hstage]; rfl)
    have hblock := h.blockno_of_mem hxm
    have hdata := h.cached _ (h.inv.refs.member x hxm) hv (hblock ▸ howner)
    rw [hblock] at hdata
    simp only [event, hx, Option.bind_some, hv, if_true]
    refine ⟨_, ⟨howner, ?_, rfl⟩, ?_⟩
    · rw [hdata, h.value _ howner]
    · exact h.put hinv hx rfl (by rw [hstage]; rfl) ⟨rfl, rfl, rfl, rfl⟩ rfl rfl (fun _ _ => rfl) rfl rfl
        fun _ => hdata
  | @check_invalid i x hx hstage hv =>
    simp only [event, hx, Option.bind_some, hv, Bool.false_eq_true, if_false]
    exact h.retype hinv hx rfl ⟨rfl, rfl, rfl, rfl⟩ (by rw [hstage]; rfl) rfl rfl rfl
  | @load i x hx hstage =>
    have howner := h.owner_eq_none hx (by rw [hstage]; rfl) (by rw [hstage]; rfl)
    have hblock := h.blockno_of_mem (Coh.mem_of_getElem? hx)
    have hself : (loadBuf x.buf s).cache.buf x.buf =
        { s.cache.buf x.buf with data := s.platter (s.cache.buf x.buf).blockno, valid := true } :=
      Identity.buf_setBuf_self _
    have hdata : ((loadBuf x.buf s).cache.buf x.buf).data = s.platter x.blockno := by
      rw [hself, hblock]
    have hkey : ((loadBuf x.buf s).cache.buf x.buf).key = (s.cache.buf x.buf).key := by
      rw [hself]
      rfl
    simp only [event, hx, Option.map_some]
    refine ⟨_, ⟨howner, ?_, rfl⟩, ?_⟩
    · rw [h.value _ howner]
      exact hdata
    · exact h.put hinv hx rfl (by rw [hstage]; rfl) ⟨rfl, rfl, rfl, rfl⟩ rfl rfl
        (fun b hb => Identity.buf_setBuf_of_ne hb _) rfl hkey fun _ => hdata
  | @modify i x data hx hstage hready =>
    have howner := h.owner x (Coh.mem_of_getElem? hx) (by rw [hstage]; rfl)
    simp only [event, hx, Option.map_some]
    refine ⟨_, ⟨⟨_, howner⟩, rfl⟩, ?_⟩
    exact h.put hinv hx rfl (by rw [hstage]; rfl) ⟨rfl, rfl, rfl, rfl⟩ (by dsimp only; rw [hstage]; rfl) rfl
      (fun b hb => Identity.buf_setBuf_of_ne hb _) (Identity.buf_setBuf_self _) rfl fun hclean => by cases hclean
  | bwrite hx hstage hready hold =>
    exact h.retype hinv hx rfl ⟨rfl, rfl, rfl, rfl⟩ (by rw [hstage]; rfl) rfl rfl rfl
  | store hx hstage =>
    refine h.store hinv hx rfl (by rw [hstage]; rfl) ⟨rfl, rfl, rfl, rfl⟩ rfl rfl ?_
    rw [← h.blockno_of_mem (Coh.mem_of_getElem? hx)]
    rfl
  | @brelse i x hx hstage hready hold =>
    have howner := h.owner x (Coh.mem_of_getElem? hx) (by rw [hstage]; rfl)
    simp only [event, hx, Option.map_some]
    refine ⟨_, ⟨_, howner, rfl⟩, ?_⟩
    exact h.close hinv hx rfl (by rw [hstage]; rfl) (hd x hx) rfl rfl rfl
  | @brelse_ref i x hx hstage =>
    have hbuf : (bobchouos.brelse_ref x.buf s.cache).buf =
        (s.cache.setBuf x.buf { s.cache.buf x.buf with refcnt := (s.cache.buf x.buf).refcnt - 1 }).buf := by
      dsimp only [bobchouos.brelse_ref]
      split <;> rfl
    refine h.recount hinv rfl ?_ hbuf fun _ => h.active_of_mem (Coh.mem_of_getElem? hx)
    intro z ho
    rw [(perm_of_getElem? hx).mem_iff, List.mem_cons]
    refine ⟨.inr, fun hz => hz.resolve_left ?_⟩
    rintro rfl
    rw [hstage] at ho
    cases ho
  | @bpin i x hx hstage hready =>
    exact h.recount hinv rfl (fun _ _ => .rfl) rfl fun _ => h.active_of_mem (Coh.mem_of_getElem? hx)
  | bunpin hpin =>
    refine h.recount hinv rfl (fun _ _ => .rfl) rfl fun hpos => .inl ?_
    omega

theorem coh_of_init {initial : Nat → BlockData} (h : (coherent dev initial).init s) :
    Coh dev s ⟨initial, fun _ => none⟩ := by
  obtain ⟨hboot, hplatter⟩ := h
  have hsessions : s.sessions = [] := hboot.2.1
  have hinactive : ∀ b, ¬ (s.cache.buf b).Active := by
    rw [hboot.1]
    rintro b (hpos | hv)
    · exact absurd hpos (Int.lt_irrefl 0)
    · cases hv
  refine ⟨inv_of_boot hboot, ?_, ?_, ?_, ?_, ?_, ?_⟩
  · exact fun b _ hb => absurd hb (hinactive b)
  · simp [hsessions]
  · simp [hsessions]
  · exact fun n hn => absurd rfl hn
  · exact fun n _ => congrFun hplatter.symm n
  · exact fun b _ hv _ => absurd (.inr hv) (hinactive b)

theorem simulates_of_step {initial : Nat → BlockData} {e : Option BlockEvent} (h : Coh dev s r)
    (hstep : (coherent dev initial).step e s s') : Simulates dev initial s' r e := by
  rcases hstep with ⟨a, hd, hstep, rfl⟩ | ⟨i, x, hx, hstage, hready, rfl, rfl⟩
  · exact (moves_of_step hstep).simulates h hd
  · have howner := h.owner x (Coh.mem_of_getElem? hx) (by rw [hstage]; rfl)
    exact ⟨r, ⟨howner, rfl⟩, h⟩

/-- The buffer cache over the disk is an atomic register for each block. What
the processes see in a run is what the registers show in a run of their own: a
`bread` returns what the last session on the block left, or the initial
contents of the disk, and while a session works on its copy nobody else has
the block. -/
theorem bcache_coherent (dev : Nat) (initial : Nat → BlockData) (es : List BlockEvent) (s : Bio)
    (htrace : (coherent dev initial).Trace es s) : ∃ r, (registers initial).Trace es r := by
  obtain ⟨r, hr, -⟩ := htrace.simulate (R := Coh dev) (N := registers initial)
    (fun _ hinit => ⟨_, ⟨rfl, fun _ => rfl⟩, coh_of_init hinit⟩)
    (fun _ _ _ h hstep => simulates_of_step h hstep)
    (fun _ _ _ _ h hstep => simulates_of_step h hstep)
  exact ⟨r, hr⟩

/-- After boot, process 1 gets block (0, 0) from a disk of zeros. -/
theorem bcache_coherent_first_bread :
    ∃ s r, (coherent 0 fun _ _ => 0).Trace [.opened 1 0 fun _ => 0] s ∧
      (registers fun _ _ => 0).Trace [.opened 1 0 fun _ => 0] r := by
  have hget : bobchouos.bget 0 0 binit = .ok (29, binit.setBuf 29 { binit.buf 29 with refcnt := 1 }) :=
    bget_of_find (by decide)
  have hboot : (coherent 0 fun _ _ => 0).Trace [] { cache := binit } := .init ⟨⟨rfl, rfl, fun _ => rfl⟩, rfl⟩
  have hbread := hboot.silent (.inl ⟨.bread 1 0 0, rfl, ⟨by simp [Enabled, Ready], exec_bread hget⟩, rfl⟩)
  have hacquire := hbread.silent (.inl ⟨.acquire 0, trivial, ⟨⟨_, rfl, rfl, rfl⟩, rfl⟩, rfl⟩)
  have hcheck := hacquire.silent (.inl ⟨.check 0, trivial, ⟨⟨_, rfl, rfl⟩, rfl⟩, rfl⟩)
  have hload := hcheck.visible (.inl ⟨.load 0, trivial, ⟨⟨_, rfl, rfl⟩, rfl⟩, rfl⟩)
  obtain ⟨r, hr⟩ := bcache_coherent _ _ _ _ hload
  exact ⟨_, r, hload, hr⟩

end Bio

end bobchouos
