import BobchouOS.Bio.Cache
import Mathlib

open lib

namespace bobchouos

/-- What is recorded of a run. `released` is the time of the last `brelse` that
dropped the last reference of a buffer, `used` has the buffers `bget` ever
returned, `touched` the blocks asked for, and `reads` counts the reads from disk. -/
structure Uses where
  clock : Nat := 0
  released : Nat → Option Nat := fun _ => none
  used : Nat → Bool := fun _ => false
  touched : List (Nat × Nat) := []
  reads : Nat × Nat → Nat := fun _ => 0

namespace Uses

def claim (b : Nat) (key : Nat × Nat) (u : Uses) : Uses :=
  { u with used := Function.update u.used b true, touched := key :: u.touched }

def release (b : Nat) (u : Uses) : Uses :=
  { u with clock := u.clock + 1, released := Function.update u.released b (some u.clock) }

def read (key : Nat × Nat) (u : Uses) : Uses :=
  { u with reads := Function.update u.reads key (u.reads key + 1) }

def note (a : Bio.Act) (s s' : Bio) (u : Uses) : Uses :=
  match a with
  | .bread _ dev blockno => (s'.sessions.head?.map fun x => u.claim x.buf (dev, blockno)).getD u
  | .load i => (s.sessions[i]?.map fun x => u.read (x.dev, x.blockno)).getD u
  | .brelse_ref i =>
    (s.sessions[i]?.map fun x => if (s'.cache.buf x.buf).refcnt = 0 then u.release x.buf else u).getD u
  | _ => u

/-- The last release of `a` was before that of `b`. -/
def Older (u : Uses) (a b : Nat) : Prop := ∃ t v, u.released a = some t ∧ u.released b = some v ∧ t < v

end Uses

/-- The order of the list: behind a buffer that was never used there is no idle
one that was, and idle ones were released before those in front of them. -/
def Uses.Front (c : Bcache) (u : Uses) (a b : Nat) : Prop :=
  (c.buf b).Active → (c.buf b).refcnt = 0 →
    (c.buf a).Active ∧ ((c.buf a).refcnt = 0 → u.Older b a)

structure Lru (c : Bcache) (u : Uses) : Prop where
  used : ∀ b < NBUF, u.used b = true ↔ (c.buf b).Active
  released : ∀ b < NBUF, (c.buf b).Active → (c.buf b).refcnt = 0 → ∃ t, u.released b = some t ∧ t < u.clock
  order : c.lru.Pairwise (u.Front c)

namespace Lru

variable {c c' : Bcache} {u u' : Uses} {b : Nat}

theorem congr (h : Lru c u) (hlru : c'.lru = c.lru) (href : ∀ b, (c'.buf b).refcnt = (c.buf b).refcnt)
    (hactive : ∀ b, (c'.buf b).Active ↔ (c.buf b).Active) (hused : u'.used = u.used)
    (hreleased : u'.released = u.released) (hclock : u'.clock = u.clock) : Lru c' u' := by
  refine ⟨fun b hb => ?_, fun b hb => ?_, ?_⟩
  · rw [hused, hactive]
    exact h.used b hb
  · rw [hactive, href, hreleased, hclock]
    exact h.released b hb
  · rw [hlru]
    refine h.order.imp fun {a b} hfront => ?_
    unfold Uses.Front Uses.Older at hfront ⊢
    rw [hactive, hactive, href, href, hreleased]
    exact hfront

/-- `bget` returns a buffer, which has a reference then. -/
theorem claim {buf : Buf} {key : Nat × Nat} (h : Lru c u) (hpos : 0 < buf.refcnt) :
    Lru (c.setBuf b buf) (u.claim b key) := by
  have hself : (c.setBuf b buf).buf b = buf := Identity.buf_setBuf_self buf
  have hother : ∀ a, a ≠ b → (c.setBuf b buf).buf a = c.buf a := fun a ha => Identity.buf_setBuf_of_ne ha buf
  have hactive : buf.Active := .inl hpos
  refine ⟨fun a ha => ?_, fun a ha => ?_, h.order.imp fun {a d} hfront => ?_⟩
  · by_cases hab : a = b
    · subst hab
      simp [Uses.claim, hactive]
    · rw [hother a hab, ← h.used a ha]
      simp [Uses.claim, hab]
  · by_cases hab : a = b
    · subst hab
      rw [hself]
      exact fun _ hzero => absurd hzero (by omega)
    · rw [hother a hab]
      exact h.released a ha
  · intro hd hzero
    by_cases hdb : d = b
    · subst hdb
      rw [hself] at hzero
      omega
    · rw [hother d hdb] at hd hzero
      obtain ⟨ha, hold⟩ := hfront hd hzero
      by_cases hab : a = b
      · subst hab
        rw [hself]
        exact ⟨hactive, fun hfree => absurd hfree (by omega)⟩
      · rw [hother a hab]
        exact ⟨ha, hold⟩

/-- The last reference goes, and the buffer comes to the front. -/
theorem release {buf : Buf} (h : Lru c u) (hperm : c.lru.Perm (List.range NBUF)) (hactive : (c.buf b).Active)
    (hvalid : buf.Active) : Lru { c.setBuf b buf with lru := b :: c.lru.erase b } (u.release b) := by
  have hself : (c.setBuf b buf).buf b = buf := Identity.buf_setBuf_self buf
  have hother : ∀ a, a ≠ b → (c.setBuf b buf).buf a = c.buf a := fun a ha => Identity.buf_setBuf_of_ne ha buf
  have hnodup : c.lru.Nodup := hperm.nodup_iff.mpr List.nodup_range
  have hrel : ∀ a, a ≠ b → (u.release b).released a = u.released a := fun a ha => Function.update_of_ne ha _ _
  refine ⟨fun a ha => ?_, fun a ha => ?_, List.pairwise_cons.mpr ⟨fun a ha => ?_, ?_⟩⟩
  · change u.used a = true ↔ ((c.setBuf b buf).buf a).Active
    by_cases hab : a = b
    · subst hab
      rw [hself, h.used a ha]
      exact iff_of_true hactive hvalid
    · rw [hother a hab]
      exact h.used a ha
  · change ((c.setBuf b buf).buf a).Active → ((c.setBuf b buf).buf a).refcnt = 0 → _
    by_cases hab : a = b
    · subst hab
      exact fun _ _ => ⟨u.clock, Function.update_self .., Nat.lt_succ_self _⟩
    · rw [hother a hab, hrel a hab]
      intro hact hzero
      obtain ⟨t, ht, hlt⟩ := h.released a ha hact hzero
      exact ⟨t, ht, Nat.lt_succ_of_lt hlt⟩
  · have hab : a ≠ b := fun heq => hnodup.not_mem_erase (heq ▸ ha)
    have hmem : a < NBUF := List.mem_range.mp (hperm.mem_iff.mp (List.mem_of_mem_erase ha))
    change ((c.setBuf b buf).buf a).Active → ((c.setBuf b buf).buf a).refcnt = 0 → _
    rw [hother a hab]
    intro hact hzero
    obtain ⟨t, ht, hlt⟩ := h.released a hmem hact hzero
    refine ⟨by change ((c.setBuf b buf).buf b).Active; rw [hself]; exact hvalid, fun _ => ?_⟩
    exact ⟨t, u.clock, by rw [hrel a hab, ht], Function.update_self .., hlt⟩
  · refine (h.order.sublist List.erase_sublist).imp_of_mem fun {a d} ha hd hfront => ?_
    have hab : a ≠ b := fun heq => hnodup.not_mem_erase (heq ▸ ha)
    have hdb : d ≠ b := fun heq => hnodup.not_mem_erase (heq ▸ hd)
    change ((c.setBuf b buf).buf d).Active → ((c.setBuf b buf).buf d).refcnt = 0 →
      ((c.setBuf b buf).buf a).Active ∧ (((c.setBuf b buf).buf a).refcnt = 0 → (u.release b).Older d a)
    unfold Uses.Older
    rw [hother a hab, hother d hdb, hrel a hab, hrel d hdb]
    exact hfront

/-- The buffer that `bget` recycles. -/
theorem victim (h : Lru c u) (hperm : c.lru.Perm (List.range NBUF))
    (hfind : (c.lru.reverse.find? fun b => (c.buf b).refcnt = 0) = some b) :
    ∀ a < NBUF, a ≠ b → (c.buf a).refcnt = 0 → (c.buf b).Active → (c.buf a).Active ∧ u.Older b a := by
  intro a ha hab hzero hactive
  obtain ⟨hb, post, pre, hsplit, hpost⟩ := List.find?_eq_some_iff_append.mp hfind
  have hlru : c.lru = pre.reverse ++ b :: post.reverse := by
    rw [← List.reverse_reverse c.lru, hsplit]
    simp
  have hmem : a ∈ c.lru := hperm.mem_iff.mpr (List.mem_range.mpr ha)
  have hpre : a ∈ pre.reverse := by
    rw [hlru, List.mem_append, List.mem_cons] at hmem
    rcases hmem with hmem | heq | hmem
    · exact hmem
    · exact absurd heq hab
    · have hnot := hpost a (List.mem_reverse.mp hmem)
      simp [hzero] at hnot
  have horder := h.order
  rw [hlru, List.pairwise_append] at horder
  obtain ⟨hact, hold⟩ := horder.2.2 a hpre b List.mem_cons_self hactive (by simpa using hb)
  exact ⟨hact, hold hzero⟩

end Lru

theorem bget_recycles {c c' : Bcache} {dev blockno b : Nat} (hget : bget dev blockno c = .ok (b, c'))
    (hmiss : c.lru.find? (c.hasKey dev blockno) = none) :
    (c.lru.reverse.find? fun b => (c.buf b).refcnt = 0) = some b := by
  have hwp : wp (bget dev blockno) (fun r _ => r = b) c := ⟨b, c', hget, rfl⟩
  unfold bget at hwp
  simp only [wp_bind, wp_get, hmiss] at hwp
  cases hunused : c.lru.reverse.find? fun b => (c.buf b).refcnt = 0 with
  | some a =>
    simp only [hunused, wp_bind, wp_set, wp_pure] at hwp
    rw [hwp]
  | none =>
    simp only [hunused] at hwp
    exact absurd hwp wp_panic

/-- `bget` halts in one way. -/
theorem bget_error {c : Bcache} {dev blockno : Nat} {halt : Halt} (hget : bget dev blockno c = .error halt) :
    halt = .panic "bget: no buffers" ∧ ∀ b ∈ c.lru, (c.buf b).refcnt ≠ 0 := by
  unfold bget at hget
  rw [get_bind_eq] at hget
  cases hmiss : c.lru.find? (c.hasKey dev blockno) with
  | some a =>
    simp only [hmiss] at hget
    cases hget
  | none =>
    simp only [hmiss] at hget
    cases hunused : c.lru.reverse.find? fun b => (c.buf b).refcnt = 0 with
    | some a =>
      simp only [hunused] at hget
      cases hget
    | none =>
      simp only [hunused] at hget
      cases hget
      refine ⟨rfl, fun b hb => ?_⟩
      simpa using List.find?_eq_none.mp hunused b (List.mem_reverse.mpr hb)

namespace Bio

variable {s s' : Bio} {u : Uses} {i : Nat} {x : Session}

/-- No pins are taken or dropped. -/
def Act.unpinned : Act → Bool
  | .bpin _ | .bunpin _ => false
  | _ => true

/-- Runs without pins, with their record. -/
def recorded : Lts (Bio × Uses) Act where
  init x := Boot x.1 ∧ x.2 = {}
  step a x x' := a.unpinned = true ∧ system.step a x.1 x'.1 ∧ x'.2 = x.2.note a x.1 x'.1

/-- The calls that change neither the list nor the key, the references or the
validity of a buffer. -/
def Act.still : Act → Bool
  | .bread _ _ _ | .load _ | .brelse_ref _ | .bpin _ | .bunpin _ => false
  | _ => true

theorem Moves.still {a : Act} (hmoves : Moves s a s') (ha : a.still = true) : s'.cache.lru = s.cache.lru ∧
    s'.pins = s.pins ∧ ∀ b, (s'.cache.buf b).key = (s.cache.buf b).key ∧
      (s'.cache.buf b).refcnt = (s.cache.buf b).refcnt ∧ (s'.cache.buf b).valid = (s.cache.buf b).valid := by
  have hset : ∀ (d : Nat) (buf : Buf), buf.key = (s.cache.buf d).key → buf.refcnt = (s.cache.buf d).refcnt →
      buf.valid = (s.cache.buf d).valid → ∀ b, ((s.cache.setBuf d buf).buf b).key = (s.cache.buf b).key ∧
        ((s.cache.setBuf d buf).buf b).refcnt = (s.cache.buf b).refcnt ∧
        ((s.cache.setBuf d buf).buf b).valid = (s.cache.buf b).valid := by
    intro d buf hkey href hvalid b
    by_cases hbd : b = d
    · subst hbd
      rw [Identity.buf_setBuf_self]
      exact ⟨hkey, href, hvalid⟩
    · rw [Identity.buf_setBuf_of_ne hbd]
      exact ⟨rfl, rfl, rfl⟩
  cases hmoves with
  | bread => cases ha
  | acquire => exact ⟨rfl, rfl, fun _ => ⟨rfl, rfl, rfl⟩⟩
  | check_valid => exact ⟨rfl, rfl, fun _ => ⟨rfl, rfl, rfl⟩⟩
  | check_invalid => exact ⟨rfl, rfl, hset _ _ rfl rfl rfl⟩
  | load => cases ha
  | modify => exact ⟨rfl, rfl, hset _ _ rfl rfl rfl⟩
  | bwrite => exact ⟨rfl, rfl, hset _ _ rfl rfl rfl⟩
  | store => exact ⟨rfl, rfl, fun _ => ⟨rfl, rfl, rfl⟩⟩
  | brelse => exact ⟨rfl, rfl, fun _ => ⟨rfl, rfl, rfl⟩⟩
  | brelse_ref => cases ha
  | bpin => cases ha
  | bunpin => cases ha

/-- A process that waits for a read has found the buffer invalid, and nobody else
fills it. -/
def Reading (s : Bio) : Prop := ∀ x ∈ s.sessions, x.stage = .reading → (s.cache.buf x.buf).valid = false

theorem Reading.set {y : Session} (h : Reading s) (hsessions : s'.sessions = s.sessions.set i y)
    (hvalid : ∀ b, (s'.cache.buf b).valid = (s.cache.buf b).valid)
    (hy : y.stage = .reading → (s.cache.buf y.buf).valid = false) : Reading s' := by
  intro z hz hstage
  rw [hsessions] at hz
  rw [hvalid]
  rcases List.mem_or_eq_of_mem_set hz with hz | rfl
  · exact h z hz hstage
  · exact hy hstage

theorem buf_brelse_ref (c : Bcache) (b : Nat) : (brelse_ref b c).buf =
    (c.setBuf b { c.buf b with refcnt := (c.buf b).refcnt - 1 }).buf := by
  unfold bobchouos.brelse_ref
  dsimp only
  split <;> rfl

theorem valid_brelse_ref (c : Bcache) (b a : Nat) : ((brelse_ref b c).buf a).valid = (c.buf a).valid ∧
    ((brelse_ref b c).buf a).key = (c.buf a).key := by
  rw [buf_brelse_ref]
  by_cases hab : a = b
  · subst hab
    rw [Identity.buf_setBuf_self]
    exact ⟨rfl, rfl⟩
  · rw [Identity.buf_setBuf_of_ne hab]
    exact ⟨rfl, rfl⟩

theorem Moves.reading {a : Act} (hmoves : Moves s a s') (hinv : Inv s) (h : Reading s) (ha : a.unpinned = true) :
    Reading s' := by
  by_cases hstill : a.still = true
  · have hvalid := fun b => ((hmoves.still hstill).2.2 b).2.2
    cases hmoves with
    | bread => cases hstill
    | load => cases hstill
    | brelse_ref => cases hstill
    | bpin => cases hstill
    | bunpin => cases hstill
    | acquire => exact h.set rfl hvalid (by simp)
    | check_valid => exact h.set rfl hvalid (by simp)
    | check_invalid _ _ hv => exact h.set rfl hvalid fun _ => hv
    | @modify i x data hx => exact h.set rfl hvalid (h x (List.mem_of_getElem? hx))
    | bwrite => exact h.set rfl hvalid (by simp)
    | store => exact h.set rfl hvalid (by simp)
    | brelse => exact h.set rfl hvalid (by simp)
  · cases hmoves with
    | @bread pid dev blockno b c hready hget =>
      intro z hz hstage
      rcases List.mem_cons.mp hz with rfl | hz
      · cases hstage
      have hpos := hinv.refs.refcnt_pos hz
      have hzv := h z hz hstage
      rcases bget_cases hget with ⟨hfind, rfl⟩ | ⟨hfind, hmem, hzero, rfl⟩
      · by_cases hzb : z.buf = b
        · subst hzb
          rwa [Identity.buf_setBuf_self]
        · rwa [Identity.buf_setBuf_of_ne hzb]
      · rwa [Identity.buf_setBuf_of_ne]
        rintro heq
        rw [heq] at hpos
        omega
    | @load i x hx hstage =>
      intro z hz hzs
      have hrest := (perm_set_of_getElem? hx).mem_iff.mp hz
      rcases List.mem_cons.mp hrest with rfl | hrest
      · cases hzs
      have hzb : z.buf ≠ x.buf := fun heq => by
        have hnot := (hinv.locks_at hx).owner_unique (by rw [hstage]; rfl) hrest heq
        rw [hzs] at hnot
        cases hnot
      change ((s.cache.setBuf x.buf _).buf z.buf).valid = false
      rw [Identity.buf_setBuf_of_ne hzb]
      exact h z (List.mem_of_mem_eraseIdx hrest) hzs
    | @brelse_ref i x hx hstage =>
      intro z hz hzs
      rw [(valid_brelse_ref _ _ _).1]
      exact h z (List.mem_of_mem_eraseIdx hz) hzs
    | bpin => cases ha
    | bunpin => cases ha
    | _ => exact absurd rfl hstill

structure Recorded (s : Bio) (u : Uses) : Prop where
  inv : Inv s
  lru : Lru s.cache u
  pins : ∀ b, s.pins b = 0
  reading : Reading s

namespace Recorded

theorem refcnt_zero (h : Recorded s u) {b : Nat} (hb : ¬ (s.cache.buf b).Active) : (s.cache.buf b).refcnt = 0 := by
  have hrefs := h.inv.refs.refs b
  have hnot : ¬ 0 < (s.cache.buf b).refcnt := fun hpos => hb (.inl hpos)
  omega

theorem still {a : Act} (h : Recorded s u) (hmoves : Moves s a s') (ha : a.still = true) : Lru s'.cache (u.note a s s') := by
  obtain ⟨hlru, -, hbuf⟩ := hmoves.still ha
  have hnote : u.note a s s' = u := by
    cases a with
    | bread => cases ha
    | load => cases ha
    | brelse_ref => cases ha
    | _ => rfl
  rw [hnote]
  refine h.lru.congr hlru (fun b => (hbuf b).2.1) (fun b => ?_) rfl rfl rfl
  unfold Buf.Active
  rw [(hbuf b).2.1, (hbuf b).2.2]

theorem bread {dev blockno b : Nat} {c : Bcache} (h : Recorded s u) (hget : bget dev blockno s.cache = .ok (b, c)) :
    Lru c (u.claim b (dev, blockno)) := by
  rcases bget_cases hget with ⟨-, rfl⟩ | ⟨-, -, -, rfl⟩
  · refine h.lru.claim ?_
    have hrefs := h.inv.refs.refs b
    dsimp only
    omega
  · exact h.lru.claim Int.one_pos

theorem load (h : Recorded s u) (hx : s.sessions[i]? = some x) {u' : Uses} (hused : u'.used = u.used)
    (hreleased : u'.released = u.released) (hclock : u'.clock = u.clock) : Lru (loadBuf x.buf s).cache u' := by
  have hpos := h.inv.refs.refcnt_pos (List.mem_of_getElem? hx)
  refine h.lru.congr rfl (fun b => ?_) (fun b => ?_) hused hreleased hclock
  · change ((s.cache.setBuf x.buf _).buf b).refcnt = _
    by_cases hb : b = x.buf
    · subst hb
      rw [Identity.buf_setBuf_self]
    · rw [Identity.buf_setBuf_of_ne hb]
  · change ((s.cache.setBuf x.buf _).buf b).Active ↔ _
    by_cases hb : b = x.buf
    · subst hb
      rw [Identity.buf_setBuf_self]
      exact iff_of_true (.inl hpos) (.inl hpos)
    · rw [Identity.buf_setBuf_of_ne hb]

theorem brelse_ref (h : Recorded s u) (hx : s.sessions[i]? = some x) (hstage : x.stage = .releasing) :
    Lru (bobchouos.brelse_ref x.buf s.cache)
      (if ((bobchouos.brelse_ref x.buf s.cache).buf x.buf).refcnt = 0 then u.release x.buf else u) := by
  have hmem := List.mem_of_getElem? hx
  have hpos := h.inv.refs.refcnt_pos hmem
  have hvalid : (s.cache.buf x.buf).valid = true := h.inv.refs.valid x hmem (by rw [hstage]; rfl)
  rw [buf_brelse_ref, Identity.buf_setBuf_self]
  unfold bobchouos.brelse_ref
  simp only [Identity.buf_setBuf_self]
  by_cases hzero : (s.cache.buf x.buf).refcnt - 1 = 0
  · rw [if_pos hzero, if_pos hzero]
    exact h.lru.release h.inv.refs.pool (.inl hpos) (.inr hvalid)
  · rw [if_neg hzero, if_neg hzero]
    -- the buffer is in use before and after
    have hclaim : Lru (s.cache.setBuf x.buf { s.cache.buf x.buf with refcnt := (s.cache.buf x.buf).refcnt - 1 })
        (u.claim x.buf (0, 0)) := h.lru.claim (show 0 < _ - 1 by omega)
    refine hclaim.congr rfl (fun _ => rfl) (fun _ => Iff.rfl) ?_ rfl rfl
    have hused := (h.lru.used x.buf (h.inv.refs.member x hmem)).mpr (.inl hpos)
    exact (Function.update_eq_self_iff.mpr hused.symm).symm

theorem step {a : Act} (h : Recorded s u) (ha : a.unpinned = true) (hmoves : Moves s a s') : Recorded s' (u.note a s s') := by
  have hinv := hmoves.inv h.inv
  have hreading := hmoves.reading h.inv h.reading ha
  by_cases hstill : a.still = true
  · exact ⟨hinv, h.still hmoves hstill, fun b => by rw [(hmoves.still hstill).2.1]; exact h.pins b, hreading⟩
  · cases hmoves with
    | bread hready hget => exact ⟨hinv, h.bread hget, h.pins, hreading⟩
    | @load i x hx hstage =>
      refine ⟨hinv, ?_, h.pins, hreading⟩
      simp only [Uses.note, hx, Option.map_some, Option.getD_some]
      exact h.load hx rfl rfl rfl
    | @brelse_ref i x hx hstage =>
      refine ⟨hinv, ?_, h.pins, hreading⟩
      simp only [Uses.note, hx, Option.map_some, Option.getD_some]
      exact h.brelse_ref hx hstage
    | bpin => cases ha
    | bunpin => cases ha
    | _ => exact absurd rfl hstill

theorem of_boot (hboot : Boot s) : Recorded s {} := by
  have hinv := inv_of_boot hboot
  obtain ⟨hcache, hsessions, hpins⟩ := hboot
  have hactive : ∀ b, ¬ (s.cache.buf b).Active := by
    intro b
    rw [hcache]
    simp [Buf.Active, binit]
  refine ⟨hinv, ⟨fun b _ => ?_, fun b _ hact => absurd hact (hactive b), ?_⟩, hpins, ?_⟩
  · exact iff_of_false (by simp) (hactive b)
  · exact List.pairwise_of_forall fun a b hact => absurd hact (hactive b)
  · intro x hx
    rw [hsessions] at hx
    cases hx

end Recorded

/-- While there is a buffer for every block, each block keeps its own. -/
structure Warm (s : Bio) (u : Uses) : Prop where
  touched : ∀ b < NBUF, (s.cache.buf b).Active → (s.cache.buf b).key ∈ u.touched
  cached : ∀ key ∈ u.touched, ∃ b < NBUF, (s.cache.buf b).Active ∧ (s.cache.buf b).key = key
  reads : ∀ b < NBUF, (s.cache.buf b).Active →
    u.reads (s.cache.buf b).key = if (s.cache.buf b).valid then 1 else 0
  unread : ∀ key ∉ u.touched, u.reads key = 0

namespace Warm

variable {b dev blockno : Nat} {c : Bcache}

/-- With fewer blocks than buffers one was never used. -/
theorem exists_unused (h : Warm s u) (hinv : Inv s) (hlt : u.touched.toFinset.card < NBUF) :
    ∃ b < NBUF, ¬ (s.cache.buf b).Active := by
  by_contra hnone
  have hall : ∀ b < NBUF, (s.cache.buf b).Active := by
    intro b hb
    by_contra hnot
    exact hnone ⟨b, hb, hnot⟩
  -- then the keys of the buffers are as many blocks
  have hle : (Finset.range NBUF).card ≤ u.touched.toFinset.card := by
    refine Finset.card_le_card_of_injOn (fun b => (s.cache.buf b).key) ?_ ?_
    · intro b hb
      have hb' : b < NBUF := by simpa using hb
      simpa using h.touched b hb' (hall b hb')
    · intro a ha b hb heq
      have ha' : a < NBUF := by simpa using ha
      have hb' : b < NBUF := by simpa using hb
      exact hinv.refs.unique a ha' b hb' (hall a ha') (hall b hb') heq
  rw [Finset.card_range] at hle
  omega

/-- The block is in the cache, or a buffer that was never used is taken for it. -/
theorem bread_cases (h : Warm s u) (hrec : Recorded s u) (hget : bget dev blockno s.cache = .ok (b, c))
    (hle : ((dev, blockno) :: u.touched).toFinset.card ≤ NBUF) :
    b < NBUF ∧ c.lru = s.cache.lru ∧ ∃ buf, c = s.cache.setBuf b buf ∧ buf.key = (dev, blockno) ∧ buf.Active ∧
      (((s.cache.buf b).Active ∧ (s.cache.buf b).key = (dev, blockno) ∧ buf.valid = (s.cache.buf b).valid) ∨
        (¬ (s.cache.buf b).Active ∧ buf.valid = false ∧ (dev, blockno) ∉ u.touched)) := by
  have hnew : ∀ a < NBUF, (s.cache.buf a).Active → s.cache.lru.find? (s.cache.hasKey dev blockno) ≠ some a →
      (s.cache.buf a).key ≠ (dev, blockno) := fun a ha hact hne hkey => hne (hrec.inv.refs.find_active ha hact hkey)
  rcases bget_cases hget with ⟨hfind, rfl⟩ | ⟨hfind, hmem, hzero, rfl⟩
  · have hb := hrec.inv.refs.mem_lru.mp (List.mem_of_find?_eq_some hfind)
    have hkey := (hasKey_iff _ _ _ _).mp (List.find?_some hfind)
    have hpos : 0 < (s.cache.buf b).refcnt + 1 := by
      have hrefs := hrec.inv.refs.refs b
      omega
    refine ⟨hb, rfl, _, rfl, hkey, .inl hpos, ?_⟩
    by_cases hact : (s.cache.buf b).Active
    · exact .inl ⟨hact, hkey, rfl⟩
    · refine .inr ⟨hact, ?_, fun hin => ?_⟩
      · exact Bool.eq_false_iff.mpr fun hv => hact (.inr hv)
      · obtain ⟨a, ha, hact', hkey'⟩ := h.cached _ hin
        refine hnew a ha hact' ?_ hkey'
        rw [hfind]
        rintro heq
        cases heq
        exact hact hact'
  · have hnot : (dev, blockno) ∉ u.touched := by
      intro hin
      obtain ⟨a, ha, hact, hkey⟩ := h.cached _ hin
      exact hnew a ha hact (by rw [hfind]; simp) hkey
    have hlt : u.touched.toFinset.card < NBUF := by
      rw [List.toFinset_cons, Finset.card_insert_of_notMem (by simpa using hnot)] at hle
      omega
    obtain ⟨a, ha, hidle⟩ := h.exists_unused hrec.inv hlt
    refine ⟨hrec.inv.refs.mem_lru.mp hmem, rfl, _, rfl, rfl, .inl Int.one_pos, .inr ⟨fun hact => hidle ?_, rfl, hnot⟩⟩
    have hab : a ≠ b := fun heq => hidle (heq ▸ hact)
    exact (hrec.lru.victim hrec.inv.refs.pool (bget_recycles hget hfind) a ha hab (hrec.refcnt_zero hidle) hact).1

theorem bread (h : Warm s u) (hrec : Recorded s u) (hget : bget dev blockno s.cache = .ok (b, c))
    (hle : ((dev, blockno) :: u.touched).toFinset.card ≤ NBUF) (hcache : s'.cache = c) :
    Warm s' (u.claim b (dev, blockno)) := by
  obtain ⟨hb, -, buf, hc, hkey, hact, hold⟩ := h.bread_cases hrec hget hle
  have hself : s'.cache.buf b = buf := by rw [hcache, hc, Identity.buf_setBuf_self]
  have hother : ∀ a, a ≠ b → s'.cache.buf a = s.cache.buf a := fun a ha => by
    rw [hcache, hc, Identity.buf_setBuf_of_ne ha]
  refine ⟨fun a ha hact' => ?_, fun key hin => ?_, fun a ha hact' => ?_, fun key hnot => ?_⟩
  · by_cases hab : a = b
    · subst hab
      rw [hself, hkey]
      exact List.mem_cons_self
    · rw [hother a hab] at hact' ⊢
      exact List.mem_cons_of_mem _ (h.touched a ha hact')
  · rcases List.mem_cons.mp hin with rfl | hin
    · exact ⟨b, hb, by rw [hself]; exact hact, by rw [hself]; exact hkey⟩
    · obtain ⟨a, ha, hact', hkey'⟩ := h.cached key hin
      by_cases hab : a = b
      · subst hab
        refine ⟨a, ha, by rw [hself]; exact hact, ?_⟩
        rcases hold with ⟨-, hkey₀, -⟩ | ⟨hnot, -⟩
        · rw [hself, hkey, ← hkey', hkey₀]
        · exact absurd hact' hnot
      · exact ⟨a, ha, by rw [hother a hab]; exact hact', by rw [hother a hab]; exact hkey'⟩
  · change u.reads _ = _
    by_cases hab : a = b
    · subst hab
      rw [hself, hkey]
      rcases hold with ⟨hact₀, hkey₀, hvalid⟩ | ⟨-, hvalid, hnot⟩
      · rw [hvalid, ← hkey₀]
        exact h.reads a ha hact₀
      · rw [hvalid, h.unread _ hnot]
        rfl
    · rw [hother a hab] at hact' ⊢
      exact h.reads a ha hact'
  · exact h.unread key fun hin => hnot (List.mem_cons_of_mem _ hin)

/-- A block is read into its buffer. -/
theorem load (h : Warm s u) (hrec : Recorded s u) (hx : s.sessions[i]? = some x) (hstage : x.stage = .reading)
    (hcache : s'.cache = (loadBuf x.buf s).cache) : Warm s' (u.read (x.dev, x.blockno)) := by
  have hmem := List.mem_of_getElem? hx
  have hb := hrec.inv.refs.member x hmem
  have hkey := hrec.inv.refs.key x hmem
  have hact : (s.cache.buf x.buf).Active := .inl (hrec.inv.refs.refcnt_pos hmem)
  have hinvalid := hrec.reading x hmem hstage
  obtain ⟨buf, hbuf, hbkey, hbvalid⟩ : ∃ buf : Buf, (loadBuf x.buf s).cache = s.cache.setBuf x.buf buf ∧
      buf.key = (x.dev, x.blockno) ∧ buf.valid = true := ⟨_, rfl, hkey, rfl⟩
  rw [hbuf] at hcache
  have hself : s'.cache.buf x.buf = buf := by rw [hcache, Identity.buf_setBuf_self]
  have hother : ∀ a, a ≠ x.buf → s'.cache.buf a = s.cache.buf a := fun a ha => by
    rw [hcache, Identity.buf_setBuf_of_ne ha]
  have hkeys : ∀ a, (s'.cache.buf a).key = (s.cache.buf a).key := fun a => by
    by_cases hab : a = x.buf
    · subst hab
      rw [hself, hbkey, hkey]
    · rw [hother a hab]
  have hacts : ∀ a, (s'.cache.buf a).Active ↔ (s.cache.buf a).Active := fun a => by
    by_cases hab : a = x.buf
    · subst hab
      rw [hself]
      exact iff_of_true (.inr hbvalid) hact
    · rw [hother a hab]
  refine ⟨fun a ha hact' => ?_, fun key hin => ?_, fun a ha hact' => ?_, fun key hnot => ?_⟩
  · rw [hkeys]
    exact h.touched a ha ((hacts a).mp hact')
  · obtain ⟨a, ha, hact', hkey'⟩ := h.cached key hin
    exact ⟨a, ha, (hacts a).mpr hact', by rw [hkeys, hkey']⟩
  · rw [hkeys]
    change Function.update u.reads _ _ _ = _
    by_cases hab : a = x.buf
    · subst hab
      have hzero := h.reads x.buf hb hact
      rw [hinvalid, hkey] at hzero
      rw [hkey, Function.update_self, hzero, hself, hbvalid]
      rfl
    · have hne : (s.cache.buf a).key ≠ (x.dev, x.blockno) := fun heq =>
        hab (hrec.inv.refs.unique a ha x.buf hb ((hacts a).mp hact') hact (heq.trans hkey.symm))
      rw [Function.update_of_ne hne, hother a hab]
      exact h.reads a ha ((hacts a).mp hact')
  · have hne : key ≠ (x.dev, x.blockno) := by
      rintro rfl
      exact hnot (hkey ▸ h.touched x.buf hb hact)
    change Function.update u.reads _ _ _ = _
    rw [Function.update_of_ne hne]
    exact h.unread key hnot

theorem congr {u' : Uses} (h : Warm s u) (hkey : ∀ b, (s'.cache.buf b).key = (s.cache.buf b).key)
    (hactive : ∀ b < NBUF, (s'.cache.buf b).Active ↔ (s.cache.buf b).Active)
    (hvalid : ∀ b, (s'.cache.buf b).valid = (s.cache.buf b).valid) (htouched : u'.touched = u.touched)
    (hreads : u'.reads = u.reads) : Warm s' u' := by
  refine ⟨fun b hb => ?_, fun key => ?_, fun b hb => ?_, ?_⟩
  · rw [hactive b hb, hkey, htouched]
    exact h.touched b hb
  · rw [htouched]
    intro hin
    obtain ⟨b, hb, hact, hk⟩ := h.cached key hin
    exact ⟨b, hb, (hactive b hb).mpr hact, by rw [hkey, hk]⟩
  · rw [hactive b hb, hkey, hvalid, hreads]
    exact h.reads b hb
  · rw [htouched, hreads]
    exact h.unread

theorem brelse_ref {u' : Uses} (h : Warm s u) (hrec : Recorded s u) (hx : s.sessions[i]? = some x)
    (hstage : x.stage = .releasing) (hcache : s'.cache = bobchouos.brelse_ref x.buf s.cache)
    (htouched : u'.touched = u.touched) (hreads : u'.reads = u.reads) : Warm s' u' := by
  have hmem := List.mem_of_getElem? hx
  have hvalid : (s.cache.buf x.buf).valid = true := hrec.inv.refs.valid x hmem (by rw [hstage]; rfl)
  refine h.congr (fun b => ?_) (fun b _ => ?_) (fun b => ?_) htouched hreads
  · rw [hcache]
    exact (valid_brelse_ref _ _ _).2
  · rw [hcache, buf_brelse_ref]
    by_cases hb : b = x.buf
    · subst hb
      rw [Identity.buf_setBuf_self]
      exact iff_of_true (.inr hvalid) (.inr hvalid)
    · rw [Identity.buf_setBuf_of_ne hb]
  · rw [hcache]
    exact (valid_brelse_ref _ _ _).1

theorem step {a : Act} (h : Warm s u) (hrec : Recorded s u) (ha : a.unpinned = true) (hmoves : Moves s a s')
    (hle : (u.note a s s').touched.toFinset.card ≤ NBUF) : Warm s' (u.note a s s') := by
  by_cases hstill : a.still = true
  · have hnote : u.note a s s' = u := by
      cases a with
      | bread => cases hstill
      | load => cases hstill
      | brelse_ref => cases hstill
      | _ => rfl
    obtain ⟨-, -, hbuf⟩ := hmoves.still hstill
    rw [hnote]
    refine h.congr (fun b => (hbuf b).1) (fun b _ => ?_) (fun b => (hbuf b).2.2) rfl rfl
    unfold Buf.Active
    rw [(hbuf b).2.1, (hbuf b).2.2]
  · cases hmoves with
    | bread hready hget => exact h.bread hrec hget hle rfl
    | @load i x hx hstage =>
      simp only [Uses.note, hx, Option.map_some, Option.getD_some]
      exact h.load hrec hx hstage rfl
    | @brelse_ref i x hx hstage =>
      simp only [Uses.note, hx, Option.map_some, Option.getD_some]
      refine h.brelse_ref hrec hx hstage rfl ?_ ?_
      · split <;> rfl
      · split <;> rfl
    | bpin => cases ha
    | bunpin => cases ha
    | _ => exact absurd rfl hstill

theorem of_boot (hboot : Boot s) : Warm s {} := by
  have hnot : ∀ b < NBUF, ¬ (s.cache.buf b).Active := fun b hb hact => by
    simpa using (((Recorded.of_boot hboot).lru.used b hb).mpr hact)
  exact ⟨fun b hb hact => absurd hact (hnot b hb), by simp, fun b hb hact => absurd hact (hnot b hb), fun _ _ => rfl⟩

end Warm

theorem touched_note (a : Act) (s s' : Bio) (u : Uses) : u.touched ⊆ (u.note a s s').touched := by
  cases a with
  | bread pid dev blockno =>
    unfold Uses.note
    cases s'.sessions.head? with
    | none => exact List.Subset.refl _
    | some x => exact List.subset_cons_self _ _
  | load i =>
    cases hx : s.sessions[i]? with
    | none => simp [Uses.note, hx]
    | some x => simp [Uses.note, hx, Uses.read]
  | brelse_ref i =>
    cases hx : s.sessions[i]? with
    | none => simp [Uses.note, hx]
    | some x =>
      simp only [Uses.note, hx, Option.map_some, Option.getD_some]
      split <;> exact List.Subset.refl _
  | _ => exact List.Subset.refl _

theorem recorded_of_reachable {z : Bio × Uses} (hz : recorded.Reachable z) :
    Recorded z.1 z.2 ∧ (z.2.touched.toFinset.card ≤ NBUF → Warm z.1 z.2) := by
  refine hz.invariant (P := fun z => Recorded z.1 z.2 ∧ (z.2.touched.toFinset.card ≤ NBUF → Warm z.1 z.2)) ?_ ?_
  · rintro ⟨s, u⟩ ⟨hboot, rfl⟩
    exact ⟨.of_boot hboot, fun _ => .of_boot hboot⟩
  · rintro a ⟨s, u⟩ ⟨s', u'⟩ ⟨hrec, hwarm⟩ ⟨ha, hstep, hu⟩
    dsimp only at hrec hwarm hstep hu ⊢
    subst hu
    have hmoves := moves_of_step hstep
    refine ⟨hrec.step ha hmoves, fun hle => (hwarm ?_).step hrec ha hmoves hle⟩
    have hsub : u.touched.toFinset ⊆ (u.note a s s').touched.toFinset := fun key hkey =>
      List.mem_toFinset.mpr (touched_note a s s' u (List.mem_toFinset.mp hkey))
    exact Nat.le_trans (Finset.card_le_card hsub) hle

/-- No buffer that was used holds the block. -/
def Miss (s : Bio) (u : Uses) (dev blockno : Nat) : Prop :=
  ∀ b < NBUF, u.used b = true → ¬ ((s.cache.buf b).dev = dev ∧ (s.cache.buf b).blockno = blockno)

/-- In every run of `bread` and `brelse`, a miss takes an idle buffer that was
never used, or else the idle one released longest ago, `bget` panics only when
every buffer is referenced, and as long as the blocks fit each is read once. -/
theorem replacement_lru (s : Bio) (u : Uses) (hreach : recorded.Reachable (s, u)) :
    (∀ dev blockno b c, Miss s u dev blockno → bget dev blockno s.cache = .ok (b, c) →
      b < NBUF ∧ (s.cache.buf b).refcnt = 0 ∧ ((∃ a < NBUF, u.used a = false) → u.used b = false) ∧
      (u.used b = true → ∀ a < NBUF, a ≠ b → (s.cache.buf a).refcnt = 0 → u.Older b a)) ∧
    (∀ dev blockno halt, bget dev blockno s.cache = .error halt →
      halt = .panic "bget: no buffers" ∧ ∀ b < NBUF, 0 < (s.cache.buf b).refcnt) ∧
    (u.touched.toFinset.card ≤ NBUF → ∀ key, u.reads key ≤ 1) := by
  obtain ⟨hrec, hwarm⟩ := recorded_of_reachable hreach
  dsimp only at hrec hwarm
  refine ⟨fun dev blockno b c hmiss hget => ?_, fun dev blockno halt hget => ?_, fun hle key => ?_⟩
  · rcases bget_cases hget with ⟨hfind, -⟩ | ⟨hfind, hmem, hzero, -⟩
    · -- a buffer that still answers to block (0, 0)
      have hb := hrec.inv.refs.mem_lru.mp (List.mem_of_find?_eq_some hfind)
      have hkey := Prod.ext_iff.mp ((hasKey_iff _ _ _ _).mp (List.find?_some hfind))
      have hunused : u.used b = false := Bool.eq_false_iff.mpr fun hused => hmiss b hb hused hkey
      have hidle : ¬ (s.cache.buf b).Active := fun hact => by
        rw [(hrec.lru.used b hb).mpr hact] at hunused
        cases hunused
      refine ⟨hb, hrec.refcnt_zero hidle, fun _ => hunused, fun hused => ?_⟩
      rw [hunused] at hused
      cases hused
    · have hb := hrec.inv.refs.mem_lru.mp hmem
      have hvictim := hrec.lru.victim hrec.inv.refs.pool (bget_recycles hget hfind)
      refine ⟨hb, hzero, ?_, fun hused a ha hab hidle => (hvictim a ha hab hidle ((hrec.lru.used b hb).mp hused)).2⟩
      rintro ⟨a, ha, hunused⟩
      have hidle : ¬ (s.cache.buf a).Active := fun hact => by
        rw [(hrec.lru.used a ha).mpr hact] at hunused
        cases hunused
      refine Bool.eq_false_iff.mpr fun hused => ?_
      have hab : a ≠ b := by
        rintro rfl
        rw [hunused] at hused
        cases hused
      exact hidle (hvictim a ha hab (hrec.refcnt_zero hidle) ((hrec.lru.used b hb).mp hused)).1
  · obtain ⟨hpanic, hall⟩ := bget_error hget
    refine ⟨hpanic, fun b hb => ?_⟩
    have hne := hall b (hrec.inv.refs.mem_lru.mpr hb)
    have hrefs := hrec.inv.refs.refs b
    omega
  · have h := hwarm hle
    by_cases hin : key ∈ u.touched
    · obtain ⟨b, hb, hact, rfl⟩ := h.cached key hin
      rw [h.reads b hb hact]
      split <;> decide
    · rw [h.unread key hin]
      exact Nat.zero_le 1

/-- Process 1 has asked for block 7, and block 8 gets another buffer. -/
theorem replacement_lru_second : ∃ s u b c, recorded.Reachable (s, u) ∧ u.touched = [(0, 7)] ∧ Miss s u 0 8 ∧
    bget 0 8 s.cache = .ok (b, c) ∧ (s.cache.buf b).refcnt = 0 ∧ u.used b = false := by
  have hboot : recorded.Reachable ({ cache := binit }, {}) := .init ⟨⟨rfl, rfl, fun _ => rfl⟩, rfl⟩
  have hget : bget 0 7 binit = .ok (0, binit.setBuf 0 { binit.buf 0 with blockno := 7, refcnt := 1 }) := by rfl
  have hexec : exec (.bread 1 0 7) { cache := binit } = .ok ((),
      { cache := binit.setBuf 0 { binit.buf 0 with blockno := 7, refcnt := 1 }
        sessions := [⟨1, 0, 0, 7, .locking, false⟩] }) := exec_bread hget
  obtain ⟨s, hs⟩ : ∃ s : Bio, s = { cache := binit.setBuf 0 { binit.buf 0 with blockno := 7, refcnt := 1 }
                                    sessions := [⟨1, 0, 0, 7, .locking, false⟩] } := ⟨_, rfl⟩
  rw [← hs] at hexec
  have hnote : Uses.claim 0 (0, 7) {} = Uses.note (.bread 1 0 7) { cache := binit } s {} := by
    rw [hs]
    rfl
  have hreach : recorded.Reachable (s, Uses.claim 0 (0, 7) {}) :=
    hboot.step (a := .bread 1 0 7) ⟨rfl, ⟨by simp [Enabled, Ready], hexec⟩, hnote⟩
  have hmiss : Miss s (Uses.claim 0 (0, 7) {}) 0 8 := by
    intro b _ hused
    have hb : b = 0 := by
      by_contra hne
      simp [Uses.claim, hne] at hused
    rw [hb, hs]
    decide
  have hget' : ∃ c, bget 0 8 s.cache = .ok (1, c) := by
    rw [hs]
    exact ⟨_, rfl⟩
  obtain ⟨c, hget'⟩ := hget'
  obtain ⟨hlru, -, -⟩ := replacement_lru s _ hreach
  obtain ⟨-, hzero, hunused, -⟩ := hlru 0 8 1 c hmiss hget'
  exact ⟨s, _, 1, c, hreach, rfl, hmiss, hget', hzero, hunused ⟨1, by decide, rfl⟩⟩

end Bio

end bobchouos
