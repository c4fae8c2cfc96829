import BobchouOS.Bio.Identity

open lib

namespace bobchouos

/-- The stages behind the validity check of `bread`. -/
def Stage.loaded : Stage → Bool
  | .held | .writing | .releasing => true
  | .locking | .got | .reading => false

/-- The reference counts are the open sessions and the pins, and each session
has the buffer of its key, with valid contents once `bread` has checked. -/
structure Refs (c : Bcache) (ss : List Session) (pins : Nat → Nat) : Prop extends Identity c where
  refs : ∀ b, (c.buf b).refcnt = (ss.countP (fun x => x.buf = b) : Nat) + (pins b : Int)
  pinned : ∀ b, 0 < pins b → b < NBUF ∧ (c.buf b).valid = true
  member : ∀ x ∈ ss, x.buf < NBUF
  key : ∀ x ∈ ss, (c.buf x.buf).key = (x.dev, x.blockno)
  valid : ∀ x ∈ ss, x.stage.loaded = true → (c.buf x.buf).valid = true

/-- The sleep locks are held by the sessions that own them, one for each. -/
structure Locks (c : Bcache) (ss : List Session) : Prop where
  count : ∀ b, ss.countP (fun x => x.buf = b && x.stage.owns) = if (c.lock b).locked then 1 else 0
  pid : ∀ x ∈ ss, x.stage.owns = true → (c.lock x.buf).pid = x.pid

/-- Two records of one session. -/
structure Session.Same (x y : Session) : Prop where
  pid : y.pid = x.pid
  buf : y.buf = x.buf
  dev : y.dev = x.dev
  blockno : y.blockno = x.blockno

/-- What a session may do to the buffers while it is open: no key, no reference
count and no list position changes, and a valid buffer stays valid. -/
structure SameIds (c c' : Bcache) : Prop where
  lru : c'.lru = c.lru
  key : ∀ b, (c'.buf b).key = (c.buf b).key
  refcnt : ∀ b, (c'.buf b).refcnt = (c.buf b).refcnt
  valid : ∀ b, (c.buf b).valid = true → (c'.buf b).valid = true

variable {c c' : Bcache} {ss ss' rest : List Session} {x y : Session} {pins : Nat → Nat} {b dev blockno : Nat}

namespace Refs

theorem perm (h : Refs c ss pins) (hperm : ss.Perm ss') : Refs c ss' pins := by
  refine ⟨h.toIdentity, ?_, h.pinned, ?_, ?_, ?_⟩
  · intro b
    rw [← hperm.countP_eq]
    exact h.refs b
  · exact fun x hx => h.member x (hperm.mem_iff.mpr hx)
  · exact fun x hx => h.key x (hperm.mem_iff.mpr hx)
  · exact fun x hx => h.valid x (hperm.mem_iff.mpr hx)

theorem refcnt_pos (h : Refs c ss pins) (hx : x ∈ ss) : 0 < (c.buf x.buf).refcnt := by
  have hcount : 0 < ss.countP fun y => y.buf = x.buf := List.countP_pos_iff.mpr ⟨x, hx, by simp⟩
  rw [h.refs]
  omega

/-- A session moves on. Its own buffer may become valid. -/
theorem relabel (h : Refs c (x :: rest) pins) (hids : SameIds c c')
    (hother : ∀ b, b ≠ x.buf → (c'.buf b).valid = (c.buf b).valid) (hxy : x.Same y)
    (hloaded : y.stage.loaded = true → (c'.buf x.buf).valid = true) : Refs c' (y :: rest) pins := by
  have hactive : ∀ b, (c'.buf b).Active ↔ (c.buf b).Active := by
    intro b
    unfold Buf.Active
    rw [hids.refcnt]
    by_cases hbx : b = x.buf
    · have hpos := h.refcnt_pos (x := x) (by simp)
      rw [← hbx] at hpos
      exact iff_of_true (.inl hpos) (.inl hpos)
    · rw [hother b hbx]
  refine ⟨h.toIdentity.congr hids.lru hids.key hactive, ?_, ?_, ?_, ?_, ?_⟩
  · intro b
    have hrefs := h.refs b
    rw [hids.refcnt, hrefs, List.countP_cons, List.countP_cons, hxy.buf]
  · intro b hb
    exact ⟨(h.pinned b hb).1, hids.valid b (h.pinned b hb).2⟩
  · intro z hz
    rcases List.mem_cons.mp hz with rfl | hz
    · rw [hxy.buf]
      exact h.member x (by simp)
    · exact h.member z (by simp [hz])
  · intro z hz
    rw [hids.key]
    rcases List.mem_cons.mp hz with rfl | hz
    · rw [hxy.buf, hxy.dev, hxy.blockno]
      exact h.key x (by simp)
    · exact h.key z (by simp [hz])
  · intro z hz hl
    rcases List.mem_cons.mp hz with rfl | hz
    · rw [hxy.buf]
      exact hloaded hl
    · exact hids.valid _ (h.valid z (by simp [hz]) hl)

/-- A new session on a buffer with one more reference. The buffer is the one
that was found, or had no reference and no session. -/
theorem enter {buf : Buf} (h : Refs c ss pins) (hid : Identity (c.setBuf b buf)) (hb : b < NBUF)
    (href : buf.refcnt = (c.buf b).refcnt + 1) (hkey : buf.key = (x.dev, x.blockno)) (hx : x.buf = b)
    (hstage : x.stage.loaded = false)
    (hkeep : buf.key = (c.buf b).key ∧ buf.valid = (c.buf b).valid ∨ (c.buf b).refcnt = 0) :
    Refs (c.setBuf b buf) (x :: ss) pins := by
  have hsame : (∃ z ∈ ss, z.buf = b) ∨ 0 < pins b →
      buf.key = (c.buf b).key ∧ buf.valid = (c.buf b).valid := by
    intro hused
    rcases hkeep with hkeep | hzero
    · exact hkeep
    · have hrefs := h.refs b
      rcases hused with ⟨z, hz, rfl⟩ | hpin
      · have hpos := h.refcnt_pos hz
        omega
      · omega
  have hbuf : ∀ z ∈ ss, ((c.setBuf b buf).buf z.buf).key = (c.buf z.buf).key ∧
      ((c.setBuf b buf).buf z.buf).valid = (c.buf z.buf).valid := by
    intro z hz
    by_cases hzb : z.buf = b
    · rw [hzb, Identity.buf_setBuf_self]
      exact hsame (.inl ⟨z, hz, hzb⟩)
    · rw [Identity.buf_setBuf_of_ne hzb]
      exact ⟨rfl, rfl⟩
  refine ⟨hid, ?_, ?_, ?_, ?_, ?_⟩
  · intro a
    have hrefs := h.refs a
    rw [List.countP_cons]
    by_cases hab : a = b
    · subst hab
      rw [Identity.buf_setBuf_self, href, hrefs]
      simp only [hx, decide_true, if_true]
      omega
    · rw [Identity.buf_setBuf_of_ne hab, hrefs]
      simp [hx, Ne.symm hab]
  · intro a ha
    refine ⟨(h.pinned a ha).1, ?_⟩
    by_cases hab : a = b
    · subst hab
      rw [Identity.buf_setBuf_self, (hsame (.inr ha)).2]
      exact (h.pinned a ha).2
    · rw [Identity.buf_setBuf_of_ne hab]
      exact (h.pinned a ha).2
  · intro z hz
    rcases List.mem_cons.mp hz with rfl | hz
    · rw [hx]
      exact hb
    · exact h.member z hz
  · intro z hz
    rcases List.mem_cons.mp hz with rfl | hz
    · rw [hx, Identity.buf_setBuf_self, hkey]
    · rw [(hbuf z hz).1]
      exact h.key z hz
  · intro z hz hl
    rcases List.mem_cons.mp hz with rfl | hz
    · rw [hstage] at hl
      cases hl
    · rw [(hbuf z hz).2]
      exact h.valid z hz hl

/-- The reference count of a valid buffer changes along with the sessions or the
pins on it. -/
theorem recount {pins' : Nat → Nat} {n : Int} (h : Refs c ss pins) (hb : b < NBUF)
    (hvalid : (c.buf b).valid = true) (hsub : ∀ x ∈ ss', x ∈ ss)
    (hpins : ∀ a, 0 < pins' a → 0 < pins a ∨ a = b)
    (hn : n = (ss'.countP (fun x => x.buf = b) : Nat) + (pins' b : Int))
    (hother : ∀ a, a ≠ b → ss'.countP (fun x => x.buf = a) = ss.countP (fun x => x.buf = a) ∧
      pins' a = pins a) :
    Refs (c.setBuf b { c.buf b with refcnt := n }) ss' pins' := by
  have hbuf : ∀ a, ((c.setBuf b { c.buf b with refcnt := n }).buf a).key = (c.buf a).key ∧
      ((c.setBuf b { c.buf b with refcnt := n }).buf a).valid = (c.buf a).valid := by
    intro a
    by_cases hab : a = b
    · subst hab
      rw [Identity.buf_setBuf_self]
      exact ⟨rfl, rfl⟩
    · rw [Identity.buf_setBuf_of_ne hab]
      exact ⟨rfl, rfl⟩
  have hactive : ∀ a, ((c.setBuf b { c.buf b with refcnt := n }).buf a).Active ↔ (c.buf a).Active := by
    intro a
    by_cases hab : a = b
    · subst hab
      exact iff_of_true (.inr ((hbuf a).2.trans hvalid)) (.inr hvalid)
    · rw [Identity.buf_setBuf_of_ne hab]
  refine ⟨h.toIdentity.congr rfl (fun a => (hbuf a).1) hactive, ?_, ?_, ?_, ?_, ?_⟩
  · intro a
    by_cases hab : a = b
    · subst hab
      rw [Identity.buf_setBuf_self]
      exact hn
    · rw [Identity.buf_setBuf_of_ne hab, (hother a hab).1, (hother a hab).2]
      exact h.refs a
  · intro a ha
    rw [(hbuf a).2]
    rcases hpins a ha with hold | rfl
    · exact h.pinned a hold
    · exact ⟨hb, hvalid⟩
  · exact fun x hx => h.member x (hsub x hx)
  · intro x hx
    rw [(hbuf x.buf).1]
    exact h.key x (hsub x hx)
  · intro x hx hl
    rw [(hbuf x.buf).2]
    exact h.valid x (hsub x hx) hl

/-- The last step of a session. Its buffer is valid, so it stays active without
references and may move to the front of the list. -/
theorem leave (h : Refs c (x :: rest) pins) (hloaded : x.stage.loaded = true) :
    Refs (brelse_ref x.buf c) rest pins := by
  have hvalid := h.valid x (by simp) hloaded
  have hb := h.member x (by simp)
  have hrefs := h.refs x.buf
  rw [List.countP_cons_of_pos (by simp)] at hrefs
  have hrecount : Refs (c.setBuf x.buf { c.buf x.buf with refcnt := (c.buf x.buf).refcnt - 1 }) rest pins := by
    refine h.recount hb hvalid (fun z hz => by simp [hz]) (fun a ha => .inl ha) (by omega) ?_
    intro a hab
    rw [List.countP_cons_of_neg (by simp [Ne.symm hab])]
    exact ⟨rfl, rfl⟩
  unfold brelse_ref
  dsimp only
  split
  · refine ⟨hrecount.toIdentity.move hb (.inr ?_), hrecount.refs, hrecount.pinned, hrecount.member,
      hrecount.key, hrecount.valid⟩
    rw [Identity.buf_setBuf_self]
    exact hvalid
  · exact hrecount

theorem pin (h : Refs c (x :: rest) pins) (hloaded : x.stage.loaded = true) :
    Refs (bpin x.buf c) (x :: rest) (Function.update pins x.buf (pins x.buf + 1)) := by
  have hrefs := h.refs x.buf
  refine h.recount (h.member x (by simp)) (h.valid x (by simp) hloaded) (fun _ hz => hz) ?_ ?_ ?_
  · intro a ha
    by_cases hab : a = x.buf
    · exact .inr hab
    · rw [Function.update_of_ne hab] at ha
      exact .inl ha
  · rw [Function.update_self]
    omega
  · intro a hab
    rw [Function.update_of_ne hab]
    exact ⟨rfl, rfl⟩

theorem unpin (h : Refs c ss pins) (hpin : 0 < pins b) :
    Refs (bunpin b c) ss (Function.update pins b (pins b - 1)) := by
  have hrefs := h.refs b
  refine h.recount (h.pinned b hpin).1 (h.pinned b hpin).2 (fun _ hz => hz) ?_ ?_ ?_
  · intro a ha
    by_cases hab : a = b
    · exact .inr hab
    · rw [Function.update_of_ne hab] at ha
      exact .inl ha
  · rw [Function.update_self]
    omega
  · intro a hab
    rw [Function.update_of_ne hab]
    exact ⟨rfl, rfl⟩

end Refs

namespace Locks

theorem perm (h : Locks c ss) (hperm : ss.Perm ss') : Locks c ss' := by
  refine ⟨?_, fun x hx => h.pid x (hperm.mem_iff.mpr hx)⟩
  intro b
  rw [← hperm.countP_eq]
  exact h.count b

theorem locked_of_owns (h : Locks c ss) (hx : x ∈ ss) (howns : x.stage.owns = true) :
    (c.lock x.buf).locked = true := by
  have hcount : 0 < ss.countP fun y => y.buf = x.buf && y.stage.owns :=
    List.countP_pos_iff.mpr ⟨x, hx, by simp [howns]⟩
  rw [h.count] at hcount
  by_contra hnot
  rw [if_neg hnot] at hcount
  omega

theorem sleep_holding_of_owns (h : Locks c ss) (hx : x ∈ ss) (howns : x.stage.owns = true) :
    sleep_holding x.pid x.buf c = true := by
  simp [sleep_holding, h.locked_of_owns hx howns, h.pid x hx howns]

/-- How many of the other sessions own the lock of session `x`'s buffer. -/
theorem count_rest (h : Locks c (x :: rest)) :
    rest.countP (fun z => z.buf = x.buf && z.stage.owns) =
      if (c.lock x.buf).locked = true ∧ x.stage.owns = false then 1 else 0 := by
  have hcount := h.count x.buf
  cases howns : x.stage.owns with
  | false =>
    rw [List.countP_cons_of_neg (by simp [howns])] at hcount
    rw [hcount]
    simp
  | true =>
    rw [List.countP_cons_of_pos (by simp [howns]), if_pos (h.locked_of_owns (by simp) howns)] at hcount
    rw [if_neg (by simp)]
    omega

/-- A session that owns its lock is the only one that does. -/
theorem owner_unique (h : Locks c (x :: rest)) (howns : x.stage.owns = true) (hy : y ∈ rest)
    (hbuf : y.buf = x.buf) : y.stage.owns = false := by
  have hnone := h.count_rest
  rw [if_neg (by simp [howns]), List.countP_eq_zero] at hnone
  simpa [hbuf] using hnone y hy

/-- The lock of session `x`'s buffer changes along with the session. -/
theorem relock {lock : SleepLock} (h : Locks c (x :: rest)) (hlock : c'.lock = Function.update c.lock x.buf lock)
    (hxy : x.Same y) (hnone : rest.countP (fun z => z.buf = x.buf && z.stage.owns) = 0)
    (hlocked : lock.locked = y.stage.owns) (hpid : y.stage.owns = true → lock.pid = x.pid) :
    Locks c' (y :: rest) := by
  refine ⟨?_, ?_⟩
  · intro b
    rw [hlock, List.countP_cons, hxy.buf]
    by_cases hb : b = x.buf
    · subst hb
      rw [hnone, Function.update_self, hlocked]
      simp
    · have hcount := h.count b
      rw [List.countP_cons_of_neg (by simp [Ne.symm hb])] at hcount
      rw [Function.update_of_ne hb, hcount]
      simp [Ne.symm hb]
  · intro z hz ho
    rw [hlock]
    rcases List.mem_cons.mp hz with rfl | hz
    · rw [hxy.buf, hxy.pid, Function.update_self]
      exact hpid ho
    · have hne : z.buf ≠ x.buf := by
        intro heq
        rw [List.countP_eq_zero] at hnone
        exact hnone z hz (by simp [heq, ho])
      rw [Function.update_of_ne hne]
      exact h.pid z (by simp [hz]) ho

theorem relabel (h : Locks c (x :: rest)) (hlock : c'.lock = c.lock) (hxy : x.Same y)
    (howns : y.stage.owns = x.stage.owns) : Locks c' (y :: rest) := by
  refine ⟨?_, ?_⟩
  · intro b
    have hcount := h.count b
    rw [hlock, ← hcount, List.countP_cons, List.countP_cons, hxy.buf, howns]
  · intro z hz ho
    rw [hlock]
    rcases List.mem_cons.mp hz with rfl | hz
    · rw [hxy.buf, hxy.pid]
      exact h.pid x (by simp) (by rw [← howns]; exact ho)
    · exact h.pid z (by simp [hz]) ho

/-- Sessions that own no lock come and go. -/
theorem cons_iff (hlock : c'.lock = c.lock) (howns : x.stage.owns = false) :
    Locks c' (x :: rest) ↔ Locks c rest := by
  constructor
  · intro h
    refine ⟨fun b => ?_, fun z hz ho => ?_⟩
    · have hcount := h.count b
      rwa [hlock, List.countP_cons_of_neg (by simp [howns])] at hcount
    · rw [← hlock]
      exact h.pid z (by simp [hz]) ho
  · intro h
    refine ⟨fun b => ?_, fun z hz ho => ?_⟩
    · rw [hlock, List.countP_cons_of_neg (by simp [howns])]
      exact h.count b
    · rw [hlock]
      rcases List.mem_cons.mp hz with rfl | hz
      · rw [howns] at ho
        cases ho
      · exact h.pid z hz ho

end Locks

end bobchouos
