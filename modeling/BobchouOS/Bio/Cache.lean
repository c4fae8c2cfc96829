import BobchouOS.Bio.Steps

open lib

namespace bobchouos

/-- Changing a buffer without its key and its reference count. -/
theorem SameIds.setBuf {c : Bcache} {b : Nat} {buf : Buf} (hkey : buf.key = (c.buf b).key)
    (href : buf.refcnt = (c.buf b).refcnt) (hvalid : (c.buf b).valid = true → buf.valid = true) :
    SameIds c (c.setBuf b buf) := by
  have hsplit : ∀ a, a = b ∨ (c.setBuf b buf).buf a = c.buf a := by
    intro a
    by_cases hab : a = b
    · exact .inl hab
    · exact .inr (Identity.buf_setBuf_of_ne hab buf)
  refine ⟨rfl, ?_, ?_, ?_⟩
  · intro a
    rcases hsplit a with rfl | heq
    · rw [Identity.buf_setBuf_self, hkey]
    · rw [heq]
  · intro a
    rcases hsplit a with rfl | heq
    · rw [Identity.buf_setBuf_self, href]
    · rw [heq]
  · intro a ha
    rcases hsplit a with rfl | heq
    · rw [Identity.buf_setBuf_self]
      exact hvalid ha
    · rw [heq]
      exact ha

namespace Bio

variable {s s' : Bio} {i : Nat} {x y : Session}

/-- The invariant of the buffer cache. -/
structure Inv (s : Bio) : Prop where
  refs : Refs s.cache s.sessions s.pins
  locks : Locks s.cache s.sessions

namespace Inv

theorem refs_at (h : Inv s) (hx : s.sessions[i]? = some x) :
    Refs s.cache (x :: s.sessions.eraseIdx i) s.pins := h.refs.perm (perm_of_getElem? hx)

theorem locks_at (h : Inv s) (hx : s.sessions[i]? = some x) :
    Locks s.cache (x :: s.sessions.eraseIdx i) := h.locks.perm (perm_of_getElem? hx)

/-- Session `i` continues as `y`. -/
theorem of_set (hx : s.sessions[i]? = some x) (hsessions : s'.sessions = s.sessions.set i y)
    (hrefs : Refs s'.cache (y :: s.sessions.eraseIdx i) s'.pins)
    (hlocks : Locks s'.cache (y :: s.sessions.eraseIdx i)) : Inv s' := by
  have hperm := (perm_set_of_getElem? (y := y) hx).symm
  rw [← hsessions] at hperm
  exact ⟨hrefs.perm hperm, hlocks.perm hperm⟩

/-- A step of a session that changes at most its own buffer, and no lock. -/
theorem of_buf {buf : Buf} (h : Inv s) (hx : s.sessions[i]? = some x)
    (hsessions : s'.sessions = s.sessions.set i y) (hcache : s'.cache = s.cache.setBuf x.buf buf)
    (hpins : s'.pins = s.pins) (hxy : x.Same y) (howns : y.stage.owns = x.stage.owns)
    (hkey : buf.key = (s.cache.buf x.buf).key) (href : buf.refcnt = (s.cache.buf x.buf).refcnt)
    (hvalid : (s.cache.buf x.buf).valid = true → buf.valid = true)
    (hloaded : y.stage.loaded = true → buf.valid = true) : Inv s' := by
  apply of_set hx hsessions
  · rw [hpins, hcache]
    refine (h.refs_at hx).relabel (SameIds.setBuf hkey href hvalid) ?_ hxy ?_
    · intro b hb
      rw [Identity.buf_setBuf_of_ne hb]
    · rw [Identity.buf_setBuf_self]
      exact hloaded
  · rw [hcache]
    exact (h.locks_at hx).relabel rfl hxy howns

end Inv

theorem Moves.inv {a : Act} (hmoves : Moves s a s') (h : Inv s) : Inv s' := by
  cases hmoves with
  | @bread pid dev blockno b c hready hget =>
    rcases bget_cases hget with ⟨hfind, rfl⟩ | ⟨hfind, hmem, hzero, rfl⟩
    · have hkey : (s.cache.buf b).key = (dev, blockno) :=
        (hasKey_iff _ _ _ _).mp (List.find?_some hfind)
      have hb : b < NBUF := h.refs.mem_lru.mp (List.mem_of_find?_eq_some hfind)
      have hpos : 0 < (s.cache.buf b).refcnt + 1 := by
        have hrefs := h.refs.refs b
        omega
      refine ⟨?_, ?_⟩
      · exact h.refs.enter (h.refs.hit hfind rfl (.inl hpos)) hb rfl hkey rfl rfl (.inl ⟨rfl, rfl⟩)
      · refine (Locks.cons_iff (c := s.cache) ?_ ?_).mpr h.locks <;> rfl
    · refine ⟨?_, ?_⟩
      · refine h.refs.enter (h.refs.miss hfind rfl (.inl Int.one_pos)) (h.refs.mem_lru.mp hmem) ?_ rfl rfl rfl
          (.inr hzero)
        rw [hzero]
        rfl
      · refine (Locks.cons_iff (c := s.cache) ?_ ?_).mpr h.locks <;> rfl
  | acquire hx hstage hfree =>
    refine Inv.of_set hx rfl ?_ ?_
    · exact (h.refs_at hx).relabel ⟨rfl, fun _ => rfl, fun _ => rfl, fun _ hv => hv⟩ (fun _ _ => rfl)
        ⟨rfl, rfl, rfl, rfl⟩ (by simp [Stage.loaded])
    · have hlocks := h.locks_at hx
      refine hlocks.relock rfl ⟨rfl, rfl, rfl, rfl⟩ ?_ rfl fun _ => rfl
      rw [hlocks.count_rest, hfree]
      simp
  | check_valid hx hstage hv =>
    refine Inv.of_set hx rfl ?_ ?_
    · exact (h.refs_at hx).relabel ⟨rfl, fun _ => rfl, fun _ => rfl, fun _ hv => hv⟩ (fun _ _ => rfl)
        ⟨rfl, rfl, rfl, rfl⟩ fun _ => hv
    · exact (h.locks_at hx).relabel rfl ⟨rfl, rfl, rfl, rfl⟩ (by rw [hstage]; rfl)
  | check_invalid hx hstage hv =>
    exact h.of_buf hx rfl rfl rfl ⟨rfl, rfl, rfl, rfl⟩ (by rw [hstage]; rfl) rfl rfl id (by simp [Stage.loaded])
  | load hx hstage =>
    exact h.of_buf hx rfl rfl rfl ⟨rfl, rfl, rfl, rfl⟩ (by rw [hstage]; rfl) rfl rfl (fun _ => rfl) fun _ => rfl
  | modify hx hstage hready =>
    refine h.of_buf hx rfl rfl rfl ⟨rfl, rfl, rfl, rfl⟩ rfl rfl rfl id fun hl => ?_
    exact (h.refs_at hx).valid _ (by simp) hl
  | bwrite hx hstage hready hold =>
    refine h.of_buf hx rfl rfl rfl ⟨rfl, rfl, rfl, rfl⟩ (by rw [hstage]; rfl) rfl rfl id fun _ => ?_
    exact (h.refs_at hx).valid _ (by simp) (by rw [hstage]; rfl)
  | store hx hstage =>
    refine Inv.of_set hx rfl ?_ ?_
    · exact (h.refs_at hx).relabel ⟨rfl, fun _ => rfl, fun _ => rfl, fun _ hv => hv⟩ (fun _ _ => rfl)
        ⟨rfl, rfl, rfl, rfl⟩ fun _ => (h.refs_at hx).valid _ (by simp) (by rw [hstage]; rfl)
    · exact (h.locks_at hx).relabel rfl ⟨rfl, rfl, rfl, rfl⟩ (by rw [hstage]; rfl)
  | brelse hx hstage hready hold =>
    refine Inv.of_set hx rfl ?_ ?_
    · exact (h.refs_at hx).relabel ⟨rfl, fun _ => rfl, fun _ => rfl, fun _ hv => hv⟩ (fun _ _ => rfl)
        ⟨rfl, rfl, rfl, rfl⟩ fun _ => (h.refs_at hx).valid _ (by simp) (by rw [hstage]; rfl)
    · have hlocks := h.locks_at hx
      refine hlocks.relock rfl ⟨rfl, rfl, rfl, rfl⟩ ?_ rfl (by simp [Stage.owns])
      rw [hlocks.count_rest, hstage]
      simp [Stage.owns]
  | @brelse_ref i x hx hstage =>
    have hlock : s.cache.lock = (bobchouos.brelse_ref x.buf s.cache).lock := by
      unfold bobchouos.brelse_ref
      dsimp only
      split <;> rfl
    exact ⟨(h.refs_at hx).leave (by rw [hstage]; rfl),
      (Locks.cons_iff hlock (by rw [hstage]; rfl)).mp (h.locks_at hx)⟩
  | bpin hx hstage hready =>
    refine ⟨?_, ⟨h.locks.count, h.locks.pid⟩⟩
    exact ((h.refs_at hx).pin (by rw [hstage]; rfl)).perm (perm_of_getElem? hx).symm
  | bunpin hpin => exact ⟨h.refs.unpin hpin, ⟨h.locks.count, h.locks.pid⟩⟩

theorem inv_of_boot (h : Boot s) : Inv s := by
  obtain ⟨hcache, hsessions, hpins⟩ := h
  have hinactive : ∀ b, ¬ (s.cache.buf b).Active := by
    rw [hcache]
    rintro b (hpos | hv)
    · exact absurd hpos (Int.lt_irrefl 0)
    · cases hv
  refine ⟨⟨⟨?_, ?_, ?_, ?_⟩, ?_, ?_, ?_, ?_, ?_⟩, ?_, ?_⟩
  · rw [hcache]
    decide
  · exact fun a _ b _ ha => absurd ha (hinactive a)
  · rw [hcache]
    exact fun b _ _ => rfl
  · exact List.pairwise_of_forall fun _ b _ hb => absurd hb (hinactive b)
  · intro b
    rw [hcache, hsessions, hpins]
    rfl
  · intro b hb
    rw [hpins] at hb
    cases hb
  · simp [hsessions]
  · simp [hsessions]
  · simp [hsessions]
  · rw [hsessions, hcache]
    exact fun _ => rfl
  · simp [hsessions]

theorem inv_of_reachable (h : system.Reachable s) : Inv s :=
  h.invariant (fun _ => inv_of_boot) fun _ _ _ hinv hstep => (moves_of_step hstep).inv hinv

/-- A step re-keys only a buffer without references. -/
theorem Moves.key_of_refcnt_pos {a : Act} {b : Nat} (hmoves : Moves s a s')
    (hpos : 0 < (s.cache.buf b).refcnt) : (s'.cache.buf b).key = (s.cache.buf b).key := by
  have hset : ∀ (d : Nat) (buf : Buf), (d = b → buf.key = (s.cache.buf b).key) →
      ((s.cache.setBuf d buf).buf b).key = (s.cache.buf b).key := by
    intro d buf hkey
    by_cases hdb : b = d
    · subst hdb
      rw [Identity.buf_setBuf_self]
      exact hkey rfl
    · rw [Identity.buf_setBuf_of_ne hdb]
  cases hmoves with
  | bread hready hget =>
    rcases bget_cases hget with ⟨hfind, rfl⟩ | ⟨hfind, hmem, hzero, rfl⟩
    · exact hset _ _ fun heq => by rw [heq]; rfl
    · refine hset _ _ fun heq => ?_
      rw [heq] at hzero
      omega
  | acquire => rfl
  | check_valid => rfl
  | check_invalid => exact hset _ _ fun heq => by rw [heq]; rfl
  | load => exact hset _ _ fun heq => by rw [heq]; rfl
  | modify => exact hset _ _ fun heq => by rw [heq]; rfl
  | bwrite => exact hset _ _ fun heq => by rw [heq]; rfl
  | store => rfl
  | brelse => rfl
  | @brelse_ref i x hx hstage =>
    have hkey := hset x.buf { s.cache.buf x.buf with refcnt := (s.cache.buf x.buf).refcnt - 1 }
      fun heq => by rw [heq]; rfl
    dsimp only [bobchouos.brelse_ref]
    split
    · exact hkey
    · exact hkey
  | bpin => exact hset _ _ fun heq => by rw [heq]; rfl
  | bunpin => exact hset _ _ fun heq => by rw [heq]; rfl

/-- The identity of the cached blocks in a state. -/
structure Identified (s : Bio) : Prop where
  /-- At most one buffer of a key is in use or valid. -/
  unique : ∀ a < NBUF, ∀ b < NBUF, (s.cache.buf a).Active → (s.cache.buf b).Active →
    (s.cache.buf a).dev = (s.cache.buf b).dev → (s.cache.buf a).blockno = (s.cache.buf b).blockno → a = b
  /-- `bget` returns it, with one more reference. -/
  found : ∀ b < NBUF, (s.cache.buf b).Active →
    bget (s.cache.buf b).dev (s.cache.buf b).blockno s.cache =
      .ok (b, s.cache.setBuf b { s.cache.buf b with refcnt := (s.cache.buf b).refcnt + 1 })
  refcnt : ∀ b, (s.cache.buf b).refcnt =
    ((s.sessions.countP fun x => x.buf = b : Nat) : Int) + (s.pins b : Int)
  lru : s.cache.lru.Perm (List.range NBUF)
  /-- What `bread` has returned and `brelse` has not taken back. -/
  returned : ∀ x ∈ s.sessions, x.stage = .held → x.buf < NBUF ∧ (s.cache.buf x.buf).dev = x.dev ∧
    (s.cache.buf x.buf).blockno = x.blockno ∧ (s.cache.buf x.buf).valid = true ∧
    s.cache.lock x.buf = ⟨true, x.pid⟩

/-- In every run of the buffer cache a block has one buffer, the LRU list holds
the whole pool, the reference counts are the open sessions and the pins, and a
buffer keeps its key while it is referenced. This includes block (0, 0), whose
key all unused buffers carry. -/
theorem bcache_identity (s : Bio) (hreach : system.Reachable s) :
    Identified s ∧ ∀ a s', system.step a s s' → ∀ b, 0 < (s.cache.buf b).refcnt →
      (s'.cache.buf b).dev = (s.cache.buf b).dev ∧ (s'.cache.buf b).blockno = (s.cache.buf b).blockno := by
  have hinv := inv_of_reachable hreach
  refine ⟨⟨?_, ?_, hinv.refs.refs, hinv.refs.pool, ?_⟩, ?_⟩
  · intro a ha b hb haa hba hdev hblock
    exact hinv.refs.unique a ha b hb haa hba (Prod.ext hdev hblock)
  · intro b hb hactive
    exact bget_of_find (hinv.refs.find_active hb hactive rfl)
  · intro x hx hstage
    have hkey := Prod.ext_iff.mp (hinv.refs.key x hx)
    have howns : x.stage.owns = true := by rw [hstage]; rfl
    have hlocked := hinv.locks.locked_of_owns hx howns
    have hpid := hinv.locks.pid x hx howns
    refine ⟨hinv.refs.member x hx, hkey.1, hkey.2, hinv.refs.valid x hx (by rw [hstage]; rfl), ?_⟩
    rw [← hlocked, ← hpid]
  · intro a s' hstep b hpos
    exact Prod.ext_iff.mp ((moves_of_step hstep).key_of_refcnt_pos hpos)

/-- After boot and the first half of a `bread` of block (0, 0) by process 1. -/
theorem bcache_identity_first_bread :
    ∃ s, system.Reachable s ∧ s.sessions = [⟨1, 29, 0, 0, .locking, false⟩] ∧ Identified s := by
  have hboot : system.Reachable { cache := binit } := .init ⟨rfl, rfl, fun _ => rfl⟩
  have hget : bget 0 0 binit = .ok (29, binit.setBuf 29 { binit.buf 29 with refcnt := 1 }) :=
    bget_of_find (by decide)
  have hexec : exec (.bread 1 0 0) { cache := binit } = .ok ((),
      { cache := binit.setBuf 29 { binit.buf 29 with refcnt := 1 }
        sessions := [⟨1, 29, 0, 0, .locking, false⟩] }) := exec_bread hget
  have hreach := hboot.step (a := .bread 1 0 0) ⟨by simp [Enabled, Ready], hexec⟩
  exact ⟨_, hreach, rfl, (bcache_identity _ hreach).1⟩

end Bio

end bobchouos
