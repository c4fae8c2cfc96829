import BobchouOS.Bio.Sessions
import Mathlib

open lib

namespace bobchouos

variable {c c' : Bcache} {b dev blockno : Nat}

/-- The two ways `bget` returns: the first buffer of the list with the key, or,
if there is none, the last one without references. -/
theorem bget_cases (h : bget dev blockno c = .ok (b, c')) :
    (c.lru.find? (c.hasKey dev blockno) = some b ∧
      c' = c.setBuf b { c.buf b with refcnt := (c.buf b).refcnt + 1 }) ∨
    (c.lru.find? (c.hasKey dev blockno) = none ∧ b ∈ c.lru ∧ (c.buf b).refcnt = 0 ∧
      c' = c.setBuf b { c.buf b with dev, blockno, valid := false, refcnt := 1 }) := by
  have hwp : wp (bget dev blockno) (fun r s => r = b ∧ s = c') c := ⟨b, c', h, rfl, rfl⟩
  unfold bget at hwp
  simp only [wp_bind, wp_get] at hwp
  cases hfind : c.lru.find? (c.hasKey dev blockno) with
  | some a =>
    simp only [hfind, wp_bind, wp_set, wp_pure] at hwp
    obtain ⟨rfl, rfl⟩ := hwp
    exact .inl ⟨rfl, rfl⟩
  | none =>
    simp only [hfind] at hwp
    cases hunused : c.lru.reverse.find? fun b => (c.buf b).refcnt = 0 with
    | some a =>
      simp only [hunused, wp_bind, wp_set, wp_pure] at hwp
      obtain ⟨rfl, rfl⟩ := hwp
      refine .inr ⟨rfl, List.mem_reverse.mp (List.mem_of_find?_eq_some hunused), ?_, rfl⟩
      simpa using List.find?_some hunused
    | none =>
      simp only [hunused] at hwp
      exact absurd hwp wp_panic

theorem bget_of_find (h : c.lru.find? (c.hasKey dev blockno) = some b) :
    bget dev blockno c = .ok (b, c.setBuf b { c.buf b with refcnt := (c.buf b).refcnt + 1 }) := by
  obtain ⟨b', c', hrun, rfl, rfl⟩ : wp (bget dev blockno) (fun r s => r = b ∧
      s = c.setBuf b { c.buf b with refcnt := (c.buf b).refcnt + 1 }) c := by
    unfold bget
    simp only [wp_bind, wp_get, h, wp_set, wp_pure, and_self]
  exact hrun

namespace Bio

variable {s s' : Bio} {i : Nat} {x y : Session}

/-- A session in the list is a session and the others. -/
theorem perm_of_getElem? {ss : List Session} (h : ss[i]? = some x) : ss.Perm (x :: ss.eraseIdx i) := by
  obtain ⟨hi, rfl⟩ := List.getElem?_eq_some_iff.mp h
  exact (List.getElem_cons_eraseIdx_perm hi).symm

theorem perm_set_of_getElem? {ss : List Session} (h : ss[i]? = some x) :
    (ss.set i y).Perm (y :: ss.eraseIdx i) := by
  obtain ⟨hi, -⟩ := List.getElem?_eq_some_iff.mp h
  exact List.set_perm_cons_eraseIdx hi y

/-- Everything a step can do, with the guard under which it happens. -/
inductive Moves (s : Bio) : Act → Bio → Prop
  | bread {pid dev blockno b : Nat} {c : Bcache} : s.Ready pid → bget dev blockno s.cache = .ok (b, c) →
      Moves s (.bread pid dev blockno)
        { s with cache := c, sessions := ⟨pid, b, dev, blockno, .locking, false⟩ :: s.sessions }
  | acquire {i : Nat} {x : Session} : s.sessions[i]? = some x → x.stage = .locking →
      (s.cache.lock x.buf).locked = false →
      Moves s (.acquire i)
        (setSession i { x with stage := .got } { s with cache := sleep_lock x.pid x.buf s.cache })
  | check_valid {i : Nat} {x : Session} : s.sessions[i]? = some x → x.stage = .got →
      (s.cache.buf x.buf).valid = true → Moves s (.check i) (setSession i { x with stage := .held } s)
  | check_invalid {i : Nat} {x : Session} : s.sessions[i]? = some x → x.stage = .got →
      (s.cache.buf x.buf).valid = false →
      Moves s (.check i) (setSession i { x with stage := .reading }
        { s with cache := setType x.buf VIRTIO_BLK_T_IN s.cache })
  | load {i : Nat} {x : Session} : s.sessions[i]? = some x → x.stage = .reading →
      Moves s (.load i) (setSession i { x with stage := .held } (loadBuf x.buf s))
  | modify {i : Nat} {x : Session} {data : BlockData} : s.sessions[i]? = some x → x.stage = .held →
      s.Ready x.pid →
      Moves s (.modify i data) (setSession i { x with dirty := true } (setData x.buf data s))
  | bwrite {i : Nat} {x : Session} : s.sessions[i]? = some x → x.stage = .held → s.Ready x.pid →
      sleep_holding x.pid x.buf s.cache = true →
      Moves s (.bwrite i) (setSession i { x with stage := .writing }
        { s with cache := setType x.buf VIRTIO_BLK_T_OUT s.cache })
  | store {i : Nat} {x : Session} : s.sessions[i]? = some x → x.stage = .writing →
      Moves s (.store i) (setSession i { x with stage := .held, dirty := false } (storeBuf x.buf s))
  | brelse {i : Nat} {x : Session} : s.sessions[i]? = some x → x.stage = .held → s.Ready x.pid →
      sleep_holding x.pid x.buf s.cache = true →
      Moves s (.brelse i) (setSession i { x with stage := .releasing }
        { s with cache := sleep_unlock x.buf s.cache })
  | brelse_ref {i : Nat} {x : Session} : s.sessions[i]? = some x → x.stage = .releasing →
      Moves s (.brelse_ref i)
        { s with cache := bobchouos.brelse_ref x.buf s.cache, sessions := s.sessions.eraseIdx i }
  | bpin {i : Nat} {x : Session} : s.sessions[i]? = some x → x.stage = .held → s.Ready x.pid →
      Moves s (.bpin i) { s with
        cache := bobchouos.bpin x.buf s.cache
        pins := Function.update s.pins x.buf (s.pins x.buf + 1) }
  | bunpin {b : Nat} : 0 < s.pins b →
      Moves s (.bunpin b) { s with
        cache := bobchouos.bunpin b s.cache
        pins := Function.update s.pins b (s.pins b - 1) }

theorem wp_withSession {f : Session → Prog Bio Unit} {Q : Unit → Bio → Prop} (hx : s.sessions[i]? = some x) :
    wp (withSession i f) Q s ↔ wp (f x) Q s := by
  unfold withSession
  simp only [wp_bind, wp_get, hx]

theorem exec_bread {pid dev blockno b : Nat} {c : Bcache} (h : bget dev blockno s.cache = .ok (b, c)) :
    exec (.bread pid dev blockno) s = .ok ((),
      { s with cache := c, sessions := ⟨pid, b, dev, blockno, .locking, false⟩ :: s.sessions }) := by
  obtain ⟨_, s', hrun, rfl⟩ : wp (exec (.bread pid dev blockno)) (fun _ t => t =
      { s with cache := c, sessions := ⟨pid, b, dev, blockno, .locking, false⟩ :: s.sessions }) s := by
    simp only [exec, onCache, wp_bind, wp_onField, wp_modify]
    exact wp_of_ok h rfl
  exact hrun

theorem moves_of_step {a : Act} (h : system.step a s s') : Moves s a s' := by
  obtain ⟨hen, hexec⟩ := h
  have hrun : wp (exec a) (fun _ t => t = s') s := wp_of_ok hexec rfl
  cases a with
  | bread pid dev blockno =>
    simp only [exec, onCache, wp_bind, wp_onField, wp_modify] at hrun
    obtain ⟨b, c, hget, rfl⟩ := hrun
    exact .bread hen hget
  | acquire i =>
    obtain ⟨x, hx, hstage, hfree⟩ := hen
    simp only [exec, wp_withSession hx, onCache, wp_bind, wp_onField, wp_modify] at hrun
    subst hrun
    exact .acquire hx hstage hfree
  | check i =>
    obtain ⟨x, hx, hstage⟩ := hen
    simp only [exec, wp_withSession hx, wp_bind, wp_get] at hrun
    cases hv : (s.cache.buf x.buf).valid with
    | true =>
      simp only [hv, if_true, wp_modify] at hrun
      subst hrun
      exact .check_valid hx hstage hv
    | false =>
      simp only [hv, Bool.false_eq_true, if_false, onCache, wp_bind, wp_onField, wp_modify] at hrun
      subst hrun
      exact .check_invalid hx hstage hv
  | load i =>
    obtain ⟨x, hx, hstage⟩ := hen
    simp only [exec, wp_withSession hx, wp_bind, wp_modify] at hrun
    subst hrun
    exact .load hx hstage
  | modify i data =>
    obtain ⟨x, hx, hstage, hready⟩ := hen
    simp only [exec, wp_withSession hx, wp_bind, wp_modify] at hrun
    subst hrun
    exact .modify hx hstage hready
  | bwrite i =>
    obtain ⟨x, hx, hstage, hready⟩ := hen
    simp only [exec, wp_withSession hx, onCache, wp_bind, wp_onField, wp_modify, bobchouos.bwrite, wp_get] at hrun
    cases hold : sleep_holding x.pid x.buf s.cache with
    | true =>
      simp only [hold, Bool.not_true, Bool.false_eq_true, if_false, wp_set] at hrun
      subst hrun
      exact .bwrite hx hstage hready hold
    | false =>
      simp only [hold, Bool.not_false, if_true] at hrun
      exact absurd hrun wp_panic
  | store i =>
    obtain ⟨x, hx, hstage⟩ := hen
    simp only [exec, wp_withSession hx, wp_bind, wp_modify] at hrun
    subst hrun
    exact .store hx hstage
  | brelse i =>
    obtain ⟨x, hx, hstage, hready⟩ := hen
    simp only [exec, wp_withSession hx, onCache, wp_bind, wp_onField, wp_modify, bobchouos.brelse, wp_get] at hrun
    cases hold : sleep_holding x.pid x.buf s.cache with
    | true =>
      simp only [hold, Bool.not_true, Bool.false_eq_true, if_false, wp_set] at hrun
      subst hrun
      exact .brelse hx hstage hready hold
    | false =>
      simp only [hold, Bool.not_false, if_true] at hrun
      exact absurd hrun wp_panic
  | brelse_ref i =>
    obtain ⟨x, hx, hstage⟩ := hen
    simp only [exec, wp_withSession hx, onCache, wp_bind, wp_onField, wp_modify] at hrun
    subst hrun
    exact .brelse_ref hx hstage
  | bpin i =>
    obtain ⟨x, hx, hstage, hready⟩ := hen
    simp only [exec, wp_withSession hx, onCache, wp_bind, wp_onField, wp_modify] at hrun
    subst hrun
    exact .bpin hx hstage hready
  | bunpin b =>
    simp only [exec, onCache, wp_bind, wp_onField, wp_modify] at hrun
    subst hrun
    exact .bunpin hen

end Bio

end bobchouos
