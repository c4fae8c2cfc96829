import BobchouOS.Kern.Model
import BobchouOS.Proc.Family
import BobchouOS.Bio.Steps

open lib

namespace bobchouos

variable {s s' : Procs} {t t' : Tasks} {h : Head} {p q n : Nat}

namespace Tasks

/-- A step that leaves the wait queues `w` alone: nobody comes onto them, and who
leaves them or waits to run is not freed. -/
structure Spares (w : WaitQueue → Prop) (t t' : Tasks) : Prop where
  pid : ∀ q ∈ t.live, q ∈ t'.live → (t'.proc q).pid = (t.proc q).pid
  sleeps : ∀ v, w v → ∀ q ∈ t'.list .all_procs, t'.place q = .queue (.wq v) →
    q ∈ t.list .all_procs ∧ t.place q = .queue (.wq v)
  woken : ∀ v, w v → ∀ q ∈ t.list .all_procs, t.place q = .queue (.wq v) →
    q ∈ t'.list .all_procs ∧ (t'.place q = .queue (.wq v) ∨ t'.place q = .queue .run_queue)
  runs : ∀ q ∈ t.list .all_procs, t.place q = .queue .run_queue →
    q ∈ t'.list .all_procs ∧ (t'.place q = .queue .run_queue ∨ t'.place q = .cpu)

variable {w : WaitQueue → Prop}

theorem Spares.refl (t : Tasks) : Spares w t t :=
  ⟨fun _ _ _ => rfl, fun _ _ _ hq hplace => ⟨hq, hplace⟩, fun _ _ _ hq hplace => ⟨hq, .inl hplace⟩,
    fun _ hq hplace => ⟨hq, .inl hplace⟩⟩

/-- At most the process `p` changes its place. -/
theorem Spares.move (p : Nat) (hpid : ∀ q ∈ t.live, q ∈ t'.live → (t'.proc q).pid = (t.proc q).pid)
    (hall : ∀ q ≠ p, (q ∈ t'.list .all_procs ↔ q ∈ t.list .all_procs)) (hplace : ∀ q ≠ p, t'.place q = t.place q)
    (hsleeps : ∀ v, w v → p ∈ t'.list .all_procs → t'.place p ≠ .queue (.wq v))
    (hwoken : ∀ v, w v → p ∈ t.list .all_procs → t.place p = .queue (.wq v) →
      p ∈ t'.list .all_procs ∧ t'.place p = .queue .run_queue)
    (hruns : p ∈ t.list .all_procs → t.place p = .queue .run_queue →
      p ∈ t'.list .all_procs ∧ (t'.place p = .queue .run_queue ∨ t'.place p = .cpu)) : Spares w t t' := by
  refine ⟨hpid, fun v hv q hq hon => ?_, fun v hv q hq hon => ?_, fun q hq hon => ?_⟩
  · by_cases hqp : q = p
    · subst hqp
      exact absurd hon (hsleeps v hv hq)
    · exact ⟨(hall q hqp).mp hq, (hplace q hqp) ▸ hon⟩
  · by_cases hqp : q = p
    · subst hqp
      exact ⟨(hwoken v hv hq hon).1, .inr (hwoken v hv hq hon).2⟩
    · exact ⟨(hall q hqp).mpr hq, .inl ((hplace q hqp).trans hon)⟩
  · by_cases hqp : q = p
    · subst hqp
      exact hruns hq hon
    · exact ⟨(hall q hqp).mpr hq, .inl ((hplace q hqp).trans hon)⟩

/-- All published processes stay, and each is moved in one of the allowed ways. -/
theorem Spares.of_place (hpid : ∀ q ∈ t.live, (t'.proc q).pid = (t.proc q).pid)
    (hall : t'.list .all_procs = t.list .all_procs)
    (hplace : ∀ q ∈ t.list .all_procs, t'.place q = t.place q ∨ t'.place q = .queue .run_queue ∨
      t.place q = .queue .run_queue ∧ t'.place q = .cpu ∨
      t.place q = .cpu ∧ ∀ v, w v → t'.place q ≠ .queue (.wq v)) : Spares w t t' := by
  refine ⟨fun q hq _ => hpid q hq, fun v hv q hq hon => ?_, fun v hv q hq hon => ?_, fun q hq hon => ?_⟩
  · rw [hall] at hq
    refine ⟨hq, ?_⟩
    rcases hplace q hq with heq | heq | ⟨-, heq⟩ | ⟨-, hne⟩
    · rw [← heq, hon]
    · rw [hon] at heq
      cases heq
    · rw [hon] at heq
      cases heq
    · exact absurd hon (hne v hv)
  · rw [hall]
    refine ⟨hq, ?_⟩
    rcases hplace q hq with heq | heq | ⟨heq, -⟩ | ⟨heq, -⟩
    · exact .inl (heq.trans hon)
    · exact .inr heq
    · rw [hon] at heq
      cases heq
    · rw [hon] at heq
      cases heq
  · rw [hall]
    refine ⟨hq, ?_⟩
    rcases hplace q hq with heq | heq | ⟨-, heq⟩ | ⟨heq, -⟩
    · exact .inl (heq.trans hon)
    · exact .inl heq
    · exact .inr heq
    · rw [hon] at heq
      cases heq

theorem Spares.same (hsame : SameLives t t') (hplace : t'.place = t.place) : Spares w t t' :=
  .of_place hsame.pid hsame.all fun q _ => .inl (by rw [hplace])

theorem place_block {xs : List Nat} (t : Tasks) (h : Head) (p q : Nat) :
    (t.block h xs p).place q = if q = p then .queue h else t.place q := by
  by_cases hqp : q = p <;> simp [Tasks.block, enter, put, hqp]

theorem place_wake (t : Tasks) (h : Head) (p q : Nat) :
    (t.wake h p).place q = if q = p then .queue .run_queue else t.place q := by
  by_cases hqp : q = p <;> simp [Tasks.wake, enter, push, drop, put, hqp]

/-- The current process leaves the CPU for a list that is not one of the queues. -/
theorem Spares.block {xs : List Nat} (hinv : t.Inv) (hp : t.current = some p) (hqueue : h.isQueue = true)
    (hh : ∀ v, w v → h ≠ .wq v) : Spares w t (t.block h xs p) := by
  have hsame : SameLives t (t.block h xs p) := .block hinv hp hqueue
  refine .of_place hsame.pid hsame.all fun q _ => ?_
  rw [place_block]
  split
  · rename_i hqp
    subst hqp
    refine .inr (.inr (.inr ⟨((hinv.placed.current q).mp hp).2, fun v hv heq => ?_⟩))
    cases heq
    exact hh v hv rfl
  · exact .inl rfl

theorem Wakes.place (hwakes : t.Wakes h t') (q : Nat) : t'.place q = t.place q ∨ t'.place q = .queue .run_queue := by
  induction hwakes with
  | refl => exact .inl rfl
  | @step t₁ p xs _ _ _ ih =>
    rw [place_wake]
    split
    · exact .inr rfl
    · exact ih

theorem Spares.wakes (hinv : t.Inv) (hwakes : t.Wakes h t') (hqueue : h.isQueue = true)
    (halive : (Node.head h).alive t.live = true) (hne : h ≠ .run_queue) : Spares w t t' := by
  have hsame : SameLives t t' := .wakes hinv hwakes hqueue halive hne
  refine .of_place hsame.pid hsame.all fun q _ => ?_
  rcases hwakes.place q with heq | heq
  · exact .inl heq
  · exact .inr (.inl heq)

theorem Spares.exits {status : BitVec 32} (hinv : t.Inv) (hp : t.current = some p) (hexits : t.Exits p status t') :
    Spares w t t' := by
  cases hexits with
  | @exit i q t₁ t₂ hi hpid hadopts hnil hparent hwakes _ =>
    have hpl := hinv.placed.current_live hp
    obtain ⟨hinv₁, hlive₁, -, -, hplace₁, -⟩ := hadopts.inv hinv hpl hi
    have hq : q ∈ t₁.live := hinv₁.placed.live q (hinv₁.tree.parent p (hlive₁ ▸ hpl) q hparent)
    have hsame : SameLives t t₂ :=
      (SameLives.adopts hadopts).trans (.wakes hinv₁ hwakes rfl (Node.alive_child_wq.mpr hq) (by simp))
    refine .of_place (fun r hr => ?_) hsame.all fun r _ => ?_
    · rw [← hsame.pid r hr]
      by_cases hrp : r = p
      · subst hrp
        simp [Tasks.die, enter, Tasks.setProc, ProcTable.setProc]
      · simp [Tasks.die, enter, Tasks.setProc, ProcTable.setProc, hrp]
    · by_cases hrp : r = p
      · subst hrp
        refine .inr (.inr (.inr ⟨((hinv.placed.current r).mp hp).2, fun v _ => ?_⟩))
        simp [Tasks.die, enter]
      · have hdie : (t₂.die p status).place r = t₂.place r := by simp [Tasks.die, enter, Tasks.setProc, hrp]
        rw [hdie, ← hplace₁]
        rcases hwakes.place r with heq | heq
        · exact .inl heq
        · exact .inr (.inl heq)

/-- What comes before a step moves nobody. -/
theorem Spares.after {t'' : Tasks} (hpid : ∀ q ∈ t.live, q ∈ t'.live ∧ (t'.proc q).pid = (t.proc q).pid)
    (hall : t'.list .all_procs = t.list .all_procs) (hplace : t'.place = t.place) (hspares : Spares w t' t'') :
    Spares w t t'' := by
  refine ⟨fun q hq hq' => ?_, ?_, ?_, ?_⟩
  · rw [hspares.pid q (hpid q hq).1 hq', (hpid q hq).2]
  · rw [← hall, ← hplace]
    exact hspares.sleeps
  · rw [← hall, ← hplace]
    exact hspares.woken
  · rw [← hall, ← hplace]
    exact hspares.runs

theorem Spares.after_same {t'' : Tasks} (hsame : SameLives t t') (hplace : t'.place = t.place)
    (hspares : Spares w t' t'') : Spares w t t'' :=
  hspares.after (fun q hq => ⟨hsame.live ▸ hq, hsame.pid q hq⟩) hsame.all hplace

theorem pid_create {c : Nat} (hc : c ∉ t.live) (hq : q ∈ t.live) :
    q ∈ (t.create c).live ∧ ((t.create c).proc q).pid = (t.proc q).pid := by
  have hqc : q ≠ c := fun heq => hc (heq ▸ hq)
  rw [Tree.proc_create, Function.update_of_ne hqc, Tree.live_create]
  exact ⟨List.mem_cons_of_mem c hq, rfl⟩

theorem Spares.create {c : Nat} (hc : c ∉ t.live) : Spares w t (t.create c) := by
  refine .of_place (fun q hq => (pid_create hc hq).2) (Tree.list_create (by simp) (by simp)) fun q _ => ?_
  exact .inl (by rw [Tree.place_create])

theorem Spares.publish {c : Nat} (hca : c ∉ t.list .all_procs) : Spares w t (t.publish c) := by
  have hself : (t.publish c).place c = .queue .run_queue := by simp [Tasks.publish, enter, put]
  refine .move c (fun q _ _ => (proc_publish t c q).1) (fun q hq => ?_) (fun q hq => ?_) (fun v _ _ hon => ?_)
    (fun v _ hc => absurd hc hca) fun hc => absurd hc hca
  · rw [list_publish_all]
    simp [hq]
  · simp [Tasks.publish, enter, push, put, hq]
  · rw [hself] at hon
    cases hon

/-- The steps of the scheduler leave a wait queue alone on which they neither put
nor wake anybody. -/
theorem Moves.spares {a : Procs.Act} (hmoves : t.Moves a t') (hinv : t.Inv)
    (hsleep : ∀ m, a = .wq_sleep m → ¬ w (.other m)) (hwait : ∀ r, ¬ w (.child_wq r)) : Spares w t t' := by
  have hrun : ∀ v, w v → Head.run_queue ≠ .wq v := fun v _ heq => by cases heq
  cases hmoves with
  | @scheduler now timer p xs hnone hlist =>
    obtain ⟨hall, hon⟩ := (hinv.placed.mem .run_queue rfl rfl p).mp (by simp [hlist])
    refine .of_place (fun q _ => (Inv.proc_enter (t.drop .run_queue p) p .cpu q).1) ?_ fun q _ => ?_
    · simp [Tasks.dispatch, enter, Tasks.setProc, drop, put]
    · by_cases hqp : q = p
      · subst hqp
        exact .inr (.inr (.inl ⟨hon, by simp [Tasks.dispatch, enter]⟩))
      · exact .inl (by simp [Tasks.dispatch, enter, drop, put, hqp])
  | yield hp => exact .block hinv hp rfl hrun
  | @wq_sleep m p hp =>
    refine .block hinv hp rfl fun v hv heq => ?_
    cases heq
    exact hsleep m rfl hv
  | wq_wake_one hw hwakes => exact .wakes hinv hwakes rfl hw (by simp)
  | wq_wake_all hw hwakes => exact .wakes hinv hwakes rfl hw (by simp)
  | @sys_sleep now ms p xs ys hp hplace =>
    have hinv' : (t.setProc p fun x => { x with wake_time := wakeTime now ms }).Inv :=
      hinv.setData (fun _ => rfl) (fun _ => rfl) (fun _ => rfl) fun _ => rfl
    have hset : SameLives t (t.setProc p fun x => { x with wake_time := wakeTime now ms }) :=
      .setProc t p (fun _ => rfl) (fun _ => rfl) (fun _ => rfl) fun _ => id
    exact .after_same hset rfl (.block (h := .tsleep_list) hinv' hp rfl fun v _ => by simp)
  | @sys_sleep_return p =>
    exact .same (.setProc t p (fun _ => rfl) (fun _ => rfl) (fun _ => rfl) fun _ => id) rfl
  | wake_expired_sleepers hwakes => exact .wakes hinv hwakes rfl rfl (by simp)
  | proc_kill hkills =>
    cases hkills with
    | missing => exact .refl t
    | @marked p => exact .same (.setProc t p (fun _ => rfl) (fun _ => rfl) (fun _ => rfl) fun _ => id) rfl
    | @woken p h hall _ hne hplace _ =>
      obtain ⟨hqueue, halive⟩ := hinv.placed.queue p hall h hplace
      have hinv' : (t.setProc p fun x => { x with killed := true }).Inv :=
        hinv.setData (fun _ => rfl) (fun _ => rfl) (fun _ => rfl) fun _ => rfl
      have hmem := (hinv.placed.mem h hqueue halive p).mpr ⟨hall, hplace⟩
      have hwake : SameLives (t.setProc p fun x => { x with killed := true }) _ := .wake hinv' hqueue halive hmem
      have hset : SameLives t (t.setProc p fun x => { x with killed := true }) :=
        .setProc t p (fun _ => rfl) (fun _ => rfl) (fun _ => rfl) fun _ => id
      refine .after_same hset rfl (.of_place hwake.pid hwake.all fun q _ => ?_)
      rw [place_wake]
      split
      · exact .inr (.inl rfl)
      · exact .inl rfl
  | proc_exit hp hexits => exact .exits hinv hp hexits
  | @proc_wait p r _ hp hwaits =>
    cases hwaits with
    | no_children => exact .refl t
    | killed => exact .refl t
    | @reaped c hc _ hnodup _ hz =>
      have hcl := ((hinv.tree.child p (hinv.placed.current_live hp) c).mp hc).1
      have hplace := (hinv.zombie_published hcl hz).2
      have heq : (t.reap p c).list .all_procs = (t.list .all_procs).erase c := by
        simp [Tasks.reap, free, drop, put]
      refine .move c (fun _ _ _ => rfl) (fun q hq => by rw [heq, List.mem_erase_of_ne hq]) (fun _ _ => rfl)
        (fun v _ hcc => ?_) (fun v _ _ hon => ?_) fun _ hon => ?_
      · rw [heq] at hcc
        exact absurd hcc hnodup.not_mem_erase
      · rw [hplace] at hon
        cases hon
      · rw [hplace] at hon
        cases hon
    | slept =>
      refine .block hinv hp rfl fun v hv heq => ?_
      cases heq
      exact hwait p hv
  | @proc_create_kernel c hc =>
    have hca : c ∉ (t.create c).list .all_procs := by
      rw [Tree.list_create (by simp) (by simp)]
      exact fun hmem => hc (hinv.placed.live c hmem)
    exact .after (fun q hq => pid_create hc hq) (Tree.list_create (by simp) (by simp)) (Tree.place_create t c)
      (.publish hca)
  | @fork_create mem kstack p _ hp hfork =>
    cases hfork with
    | no_memory => exact .refl t
    | no_stack hc => exact .same (.abandon hc) rfl
    | @created c hc =>
      have hset' : SameLives (t.create c) ((t.create c).setForking p (some (c, .created))) :=
        .setProc _ p (fun _ => rfl) (fun _ => rfl) (fun _ => rfl) fun _ => id
      exact .after (fun q hq => pid_create hc hq) (Tree.list_create (by simp) (by simp)) (Tree.place_create t c)
        (.same hset' rfl)
  | @fork_fail p q c stage hp hfork =>
    refine .of_place (fun r _ => ?_) ?_ fun r _ => .inl rfl
    · by_cases hrp : r = p
      · subst hrp
        simp [setForking, Tasks.setProc, ProcTable.setProc, Tasks.discard, free, drop, put]
      · simp [setForking, Tasks.setProc, ProcTable.setProc, Tasks.discard, free, drop, put, hrp]
    · simp [setForking, Tasks.setProc, Tasks.discard, free, drop, put]
  | @fork_reparent p q c =>
    have hset' : SameLives (t.adopt q p c) ((t.adopt q p c).setForking p (some (c, .reparented))) :=
      .setProc _ p (fun _ => rfl) (fun _ => rfl) (fun _ => rfl) fun _ => id
    exact .same ((SameLives.adopt t).trans hset') rfl
  | @fork_publish p c stage hp hfork =>
    obtain ⟨-, hca, -⟩ := hinv.forking (hinv.placed.current_live hp) hfork
    have hset : SameLives t (t.setForking p none) :=
      .setProc t p (fun _ => rfl) (fun _ => rfl) (fun _ => rfl) fun _ => id
    exact .after_same hset rfl (.publish hca)

end Tasks

theorem lockQueue_injective {m : Nat} (heq : lockQueue n = lockQueue m) : n = m := by
  simp only [lockQueue, WaitQueue.other.injEq] at heq
  omega

namespace Kern

/-- A process that waits for lock `n` sleeps on its queue, or it was taken off
and has not run since then. -/
def AtLock (t : Tasks) (p n : Nat) : Prop :=
  t.place p = .queue (.wq (lockQueue n)) ∨ t.place p = .queue .run_queue ∨ t.place p = .cpu

/-- The lists of `k` are those of `t`, a held lock is locked in the name of its
one holder, and a lock that is free although processes sleep on its queue has a
waiter that is not on the queue. -/
structure LockInv (k : Kern) (t : Tasks) : Prop where
  rep : Rep k.procs t
  inv : t.Inv
  gone : ∀ p ∉ t.live, k.held p = ∅ ∧ k.waiting p = none ∧ k.uses p = []
  holder : ∀ p n, n ∈ k.held p → (k.cache.lock n).locked = true ∧ (k.cache.lock n).pid = (t.proc p).pid.toNat
  unique : ∀ p q n, n ∈ k.held p → n ∈ k.held q → p = q
  waits : ∀ p n, k.waiting p = some n → p ∈ t.list .all_procs ∧ AtLock t p n
  sleeps : ∀ p ∈ t.list .all_procs, ∀ n, t.place p = .queue (.wq (lockQueue n)) → k.waiting p = some n
  woken : ∀ n, (k.cache.lock n).locked = false → (∃ q ∈ t.list .all_procs, t.place q = .queue (.wq (lockQueue n))) →
    ∃ p, k.waiting p = some n ∧ (t.place p = .queue .run_queue ∨ t.place p = .cpu)

variable {k k' : Kern}

theorem LockInv.live_of_held (hk : LockInv k t) (hn : n ∈ k.held p) : p ∈ t.live := by
  by_contra hp
  simp [(hk.gone p hp).1] at hn

/-- The current process is not one that waits, unless it is about to try again. -/
theorem LockInv.not_cpu (hk : LockInv k t) (hcur : ∀ p, t.current = some p → k.waiting p = none)
    (hw : k.waiting p = some n) : t.place p ≠ .cpu := by
  intro hcpu
  rw [hcur p ((hk.inv.placed.current p).mpr ⟨(hk.waits p n hw).1, hcpu⟩)] at hw
  cases hw

/-- A step of the scheduler that does not use the queues of the locks. -/
theorem LockInv.moves {a : Procs.Act} (hk : LockInv k t) (hcur : ∀ p, t.current = some p → k.waiting p = none)
    (ha : Elsewhere a) (hrep : Rep s' t') (hmoves : t.Moves a t') :
    LockInv (forget { k with procs := s' }) t' := by
  have hspares : Tasks.Spares (fun w => ∃ n, w = lockQueue n) t t' := by
    refine hmoves.spares hk.inv ?_ ?_
    · rintro m rfl ⟨n, heq⟩
      simp only [lockQueue, WaitQueue.other.injEq] at heq
      change m % 2 = 1 at ha
      omega
    · rintro r ⟨n, heq⟩
      cases heq
  have hinv' := hmoves.inv hk.inv
  have hheld : ∀ {p n}, n ∈ (forget { k with procs := s' }).held p → p ∈ t'.live ∧ n ∈ k.held p := by
    intro p n hn
    simp only [forget, hrep.live] at hn
    split at hn
    · exact ⟨‹_›, hn⟩
    · simp at hn
  have hwaiting : ∀ {p n}, (forget { k with procs := s' }).waiting p = some n ↔ p ∈ t'.live ∧ k.waiting p = some n := by
    intro p n
    simp only [forget, hrep.live]
    split <;> simp_all
  have hready : ∀ {p n}, k.waiting p = some n → t.place p = .queue .run_queue →
      p ∈ t'.list .all_procs ∧ (t'.place p = .queue .run_queue ∨ t'.place p = .cpu) :=
    fun hw hon => hspares.runs _ (hk.waits _ _ hw).1 hon
  refine ⟨hrep, hinv', fun p hp => ?_, fun p n hn => ?_, fun p q n hp hq => ?_, fun p n hw => ?_,
    fun p hp n hon => ?_, fun n hfree hex => ?_⟩
  · simp [forget, hrep.live, hp]
  · obtain ⟨hp, hn⟩ := hheld hn
    rw [hspares.pid p (hk.live_of_held hn) hp]
    exact hk.holder p n hn
  · exact hk.unique p q n (hheld hp).2 (hheld hq).2
  · have hw := (hwaiting.mp hw).2
    obtain ⟨hall, hon | hon | hon⟩ := hk.waits p n hw
    · obtain ⟨hall', hon' | hon'⟩ := hspares.woken _ ⟨n, rfl⟩ p hall hon
      · exact ⟨hall', .inl hon'⟩
      · exact ⟨hall', .inr (.inl hon')⟩
    · obtain ⟨hall', hon'⟩ := hready hw hon
      exact ⟨hall', .inr hon'⟩
    · exact absurd hon (hk.not_cpu hcur hw)
  · obtain ⟨hall, hon'⟩ := hspares.sleeps _ ⟨n, rfl⟩ p hp hon
    exact hwaiting.mpr ⟨hinv'.placed.live p hp, hk.sleeps p hall n hon'⟩
  · obtain ⟨q, hq, hon⟩ := hex
    obtain ⟨p, hw, hon'⟩ := hk.woken n hfree ⟨q, hspares.sleeps _ ⟨n, rfl⟩ q hq hon⟩
    obtain ⟨hall, hon'⟩ := hready hw (hon'.resolve_right (hk.not_cpu hcur hw))
    exact ⟨p, hwaiting.mpr ⟨hinv'.placed.live p hall, hw⟩, hon'⟩

/-- The current process finds the lock taken and goes to sleep. -/
theorem LockInv.sleep (hk : LockInv k t) (hp : t.current = some p) (hw : ∀ m, k.waiting p = some m → m = n)
    (hlocked : (k.cache.lock n).locked = true)
    (hrep : Rep s' (t.block (.wq (lockQueue n)) (t.list (.wq (lockQueue n)) ++ [p]) p)) :
    LockInv (setWaiting p (some n) { k with procs := s' })
      (t.block (.wq (lockQueue n)) (t.list (.wq (lockQueue n)) ++ [p]) p) := by
  have hsame : Tasks.SameLives t (t.block (.wq (lockQueue n)) (t.list (.wq (lockQueue n)) ++ [p]) p) :=
    .block hk.inv hp rfl
  have hinv' := hk.inv.block (h := .wq (lockQueue n)) hp rfl rfl (List.perm_append_singleton p _) fun r hr => by cases hr
  have hpl := hk.inv.placed.current_live hp
  have hall := ((hk.inv.placed.current p).mp hp).1
  have hwaiting : ∀ {q}, q ≠ p → (setWaiting p (some n) { k with procs := s' }).waiting q = k.waiting q := by
    intro q hq
    simp [setWaiting, hq]
  refine ⟨hrep, hinv', fun q hq => ?_, fun q m hm => ?_, hk.unique, fun q m hq => ?_, fun q hq m hon => ?_,
    fun m hfree hex => ?_⟩
  · have hqp : q ≠ p := fun heq => hq (heq ▸ hpl)
    rw [hwaiting hqp]
    exact hk.gone q hq
  · rw [hsame.pid q (hk.live_of_held hm)]
    exact hk.holder q m hm
  · rw [AtLock, Tasks.place_block, hsame.all]
    by_cases hqp : q = p
    · subst hqp
      obtain rfl : n = m := by simpa [setWaiting] using hq
      exact ⟨hall, .inl (if_pos rfl)⟩
    · rw [if_neg hqp]
      exact hk.waits q m (hwaiting hqp ▸ hq)
  · rw [Tasks.place_block] at hon
    by_cases hqp : q = p
    · subst hqp
      rw [if_pos rfl] at hon
      obtain rfl : n = m := lockQueue_injective (by simpa using hon)
      simp [setWaiting]
    · rw [if_neg hqp] at hon
      rw [hwaiting hqp]
      exact hk.sleeps q (hsame.all ▸ hq) m hon
  · have hmn : m ≠ n := by
      rintro rfl
      exact absurd hlocked (by simpa [setWaiting] using hfree)
    obtain ⟨q, hq, hon⟩ := hex
    rw [Tasks.place_block] at hon
    split at hon
    · exact absurd (lockQueue_injective (by simpa using hon)).symm hmn
    · obtain ⟨r, hr, hon'⟩ := hk.woken m hfree ⟨q, hsame.all ▸ hq, hon⟩
      have hrp : r ≠ p := by
        rintro rfl
        exact hmn (hw m hr)
      refine ⟨r, (hwaiting hrp).trans hr, ?_⟩
      rw [Tasks.place_block, if_neg hrp]
      exact hon'

/-- The current process finds the lock free and takes it. -/
theorem LockInv.take (hk : LockInv k t) (hp : t.current = some p) (hw : ∀ m, k.waiting p = some m → m = n)
    (hfree : (k.cache.lock n).locked = false) :
    LockInv (setHeld p (insert n) (setWaiting p none
      { k with cache := bobchouos.sleep_lock (t.proc p).pid.toNat n k.cache })) t := by
  have hpl := hk.inv.placed.current_live hp
  have hnot : ∀ q, n ∉ k.held q := by
    intro q hq
    rw [(hk.holder q n hq).1] at hfree
    cases hfree
  have hheld : ∀ {q m}, m ∈ (setHeld p (insert n) (setWaiting p none
      { k with cache := bobchouos.sleep_lock (t.proc p).pid.toNat n k.cache })).held q →
      q = p ∧ m = n ∨ m ∈ k.held q ∧ m ≠ n := by
    intro q m hm
    have hmn : ∀ {q}, m ∈ k.held q → m ≠ n := fun hm heq => hnot _ (heq ▸ hm)
    by_cases hqp : q = p
    · subst hqp
      rcases (by simpa [setHeld, setWaiting] using hm : m = n ∨ m ∈ k.held q) with rfl | hm
      · exact .inl ⟨rfl, rfl⟩
      · exact .inr ⟨hm, hmn hm⟩
    · have hm : m ∈ k.held q := by simpa [setHeld, setWaiting, hqp] using hm
      exact .inr ⟨hm, hmn hm⟩
  have hwaiting : ∀ {q m}, k.waiting q = some m → m ≠ n → q ≠ p := by
    rintro q m hq hmn rfl
    exact hmn (hw m hq)
  refine ⟨hk.rep, hk.inv, fun q hq => ?_, fun q m hm => ?_, fun q r m hq hr => ?_, fun q m hq => ?_,
    fun q hq m hon => ?_, fun m hfree' hex => ?_⟩
  · have hqp : q ≠ p := fun heq => hq (heq ▸ hpl)
    simpa [setHeld, setWaiting, hqp] using hk.gone q hq
  · rcases hheld hm with ⟨rfl, rfl⟩ | ⟨hm, hmn⟩
    · simp [setHeld, setWaiting, bobchouos.sleep_lock, Bcache.setLock]
    · simpa [setHeld, setWaiting, bobchouos.sleep_lock, Bcache.setLock, hmn] using hk.holder q m hm
  · rcases hheld hq with ⟨rfl, rfl⟩ | ⟨hq, hmn⟩
    · rcases hheld hr with ⟨rfl, -⟩ | ⟨-, hmn⟩
      · rfl
      · exact absurd rfl hmn
    · rcases hheld hr with ⟨-, rfl⟩ | ⟨hr, -⟩
      · exact absurd rfl hmn
      · exact hk.unique q r m hq hr
  · by_cases hqp : q = p
    · simp [setHeld, setWaiting, hqp] at hq
    · exact hk.waits q m (by simpa [setHeld, setWaiting, hqp] using hq)
  · have hqp : q ≠ p := by
      rintro rfl
      rw [((hk.inv.placed.current q).mp hp).2] at hon
      cases hon
    simpa [setHeld, setWaiting, hqp] using hk.sleeps q hq m hon
  · have hmn : m ≠ n := by
      rintro rfl
      simp [setHeld, setWaiting, bobchouos.sleep_lock, Bcache.setLock] at hfree'
    have hfree' : (k.cache.lock m).locked = false := by
      simpa [setHeld, setWaiting, bobchouos.sleep_lock, Bcache.setLock, hmn] using hfree'
    obtain ⟨q, hq, hon⟩ := hk.woken m hfree' hex
    exact ⟨q, by simpa [setHeld, setWaiting, hwaiting hq hmn] using hq, hon⟩

/-- `sleep_lock` from the test of `locked` on. -/
theorem sleep_lock_spec (hk : LockInv k t) (hp : t.current = some p) (hw : ∀ m, k.waiting p = some m → m = n) :
    wp (sleep_lock n) (fun _ k' => ∃ t', LockInv k' t') k := by
  have hpl := hk.inv.placed.current_live hp
  simp only [sleep_lock, onProcs, onCache, wp_bind, wp_onField, wp_get]
  refine this_proc_spec hk.rep hp (getProc_spec hk.rep hpl ?_)
  rw [wp_ite]
  refine ⟨fun hlocked => ?_, fun hfree => ?_⟩
  · simp only [wp_bind, wp_onField, wp_modify]
    exact wp_mono (wq_sleep_spec hk.rep hk.inv.placed hp rfl) fun _ s' hrep => ⟨_, hk.sleep hp hw hlocked hrep⟩
  · simp only [wp_bind, wp_onField, wp_modify]
    exact ⟨t, hk.take hp hw (by simpa using hfree)⟩

theorem sleep_lock_retry_spec (hk : LockInv k t) (hp : t.current = some p) :
    wp sleep_lock_retry (fun _ k' => ∃ t', LockInv k' t') k := by
  simp only [sleep_lock_retry, onProcs, wp_bind, wp_onField, wp_get]
  refine this_proc_spec hk.rep hp ?_
  cases hw : k.waiting p with
  | none => exact wp_pure.mpr ⟨t, hk⟩
  | some n => exact sleep_lock_spec hk hp fun m hm => (Option.some.inj (hw.symm.trans hm)).symm

/-- The lock is released. At most one process is woken, by `hplace` one of those
that sleep on the queue of the lock, and if nobody is woken nobody sleeps there. -/
theorem LockInv.release (hk : LockInv k t) (hp : t.current = some p) (hn : n ∈ k.held p) (hrep : Rep s' t')
    (hinv : t'.Inv) (hsame : Tasks.SameLives t t')
    (hplace : ∀ q ∈ t.list .all_procs, t'.place q = t.place q ∨
      t.place q = .queue (.wq (lockQueue n)) ∧ t'.place q = .queue .run_queue)
    (hwake : (∃ q ∈ t.list .all_procs, t.place q = .queue (.wq (lockQueue n))) →
      ∃ q ∈ t.list .all_procs, t.place q = .queue (.wq (lockQueue n)) ∧ t'.place q = .queue .run_queue) :
    LockInv (setHeld p (·.erase n) { k with cache := bobchouos.sleep_unlock n k.cache, procs := s' }) t' := by
  have hpl := hk.inv.placed.current_live hp
  have hheld : ∀ {q m}, m ∈ (setHeld p (·.erase n)
      { k with cache := bobchouos.sleep_unlock n k.cache, procs := s' }).held q → m ∈ k.held q ∧ m ≠ n := by
    intro q m hm
    by_cases hqp : q = p
    · subst hqp
      have hm : m ≠ n ∧ m ∈ k.held q := by simpa [setHeld] using hm
      exact ⟨hm.2, hm.1⟩
    · have hm' : m ∈ k.held q := by simpa [setHeld, hqp] using hm
      refine ⟨hm', ?_⟩
      rintro rfl
      exact hqp (hk.unique q p m hm' hn)
  -- where a waiter that is not asleep was, and is
  have hready : ∀ {q}, q ∈ t.list .all_procs → t.place q = .queue .run_queue ∨ t.place q = .cpu →
      t'.place q = .queue .run_queue ∨ t'.place q = .cpu := by
    intro q hq hon
    rcases hplace q hq with heq | ⟨-, heq⟩
    · rwa [heq]
    · exact .inl heq
  have hasleep : ∀ {q m}, q ∈ t'.list .all_procs → t'.place q = .queue (.wq (lockQueue m)) →
      q ∈ t.list .all_procs ∧ t.place q = .queue (.wq (lockQueue m)) := by
    intro q m hq hon
    rw [hsame.all] at hq
    rcases hplace q hq with heq | ⟨-, heq⟩
    · exact ⟨hq, heq ▸ hon⟩
    · rw [hon] at heq
      cases heq
  refine ⟨hrep, hinv, fun q hq => ?_, fun q m hm => ?_, fun q r m hq hr => ?_, fun q m hq => ?_,
    fun q hq m hon => ?_, fun m hfree hex => ?_⟩
  · rw [hsame.live] at hq
    have hqp : q ≠ p := fun heq => hq (heq ▸ hpl)
    simpa [setHeld, hqp] using hk.gone q hq
  · obtain ⟨hm, hmn⟩ := hheld hm
    rw [hsame.pid q (hk.live_of_held hm)]
    simpa [setHeld, bobchouos.sleep_unlock, Bcache.setLock, hmn] using hk.holder q m hm
  · exact hk.unique q r m (hheld hq).1 (hheld hr).1
  · obtain ⟨hall, hon⟩ := hk.waits q m hq
    rw [hsame.all]
    refine ⟨hall, ?_⟩
    rcases hon with hon | hon
    · rcases hplace q hall with heq | ⟨-, heq⟩
      · exact .inl (heq.trans hon)
      · exact .inr (.inl heq)
    · exact .inr (hready hall hon)
  · obtain ⟨hall, hon⟩ := hasleep hq hon
    exact hk.sleeps q hall m hon
  · obtain ⟨q, hq, hon⟩ := hex
    obtain ⟨hall, hon⟩ := hasleep hq hon
    by_cases hmn : m = n
    · subst hmn
      obtain ⟨r, hr, hon', hrun⟩ := hwake ⟨q, hall, hon⟩
      exact ⟨r, hk.sleeps r hr m hon', .inl hrun⟩
    · have hfree : (k.cache.lock m).locked = false := by
        simpa [setHeld, bobchouos.sleep_unlock, Bcache.setLock, hmn] using hfree
      obtain ⟨r, hr, hon'⟩ := hk.woken m hfree ⟨q, hall, hon⟩
      exact ⟨r, hr, hready (hk.waits r m hr).1 hon'⟩

theorem sleep_unlock_spec (hk : LockInv k t) (hp : t.current = some p) (hn : n ∈ k.held p) :
    wp (sleep_unlock n) (fun _ k' => ∃ t', LockInv k' t') k := by
  have hmem := hk.inv.placed.mem (.wq (lockQueue n)) rfl rfl
  simp only [sleep_unlock, onProcs, onCache, wp_bind, wp_onField, wp_modify]
  refine this_proc_spec hk.rep hp (wp_mono (wq_wake_one_spec (w := lockQueue n) hk.rep hk.inv rfl) fun r s' hr => ?_)
  cases hlist : t.list (.wq (lockQueue n)) with
  | nil =>
    rw [hlist] at hr
    refine ⟨t, hk.release hp hn hr.2 hk.inv (.refl t) (fun _ _ => .inl rfl) ?_⟩
    rintro ⟨q, hq, hon⟩
    have hq' := (hmem q).mpr ⟨hq, hon⟩
    rw [hlist] at hq'
    cases hq'
  | cons q xs =>
    rw [hlist] at hr
    have hnodup := hk.rep.nodup (h := .wq (lockQueue n)) rfl
    have hq : q ∈ t.list (.wq (lockQueue n)) := by simp [hlist]
    obtain ⟨hall, hon⟩ := (hmem q).mp hq
    have hinv' := hk.inv.wake (h := .wq (lockQueue n)) rfl rfl hnodup (by simp) hq
    refine ⟨_, hk.release hp hn hr.2 hinv' (.wake hk.inv rfl rfl hq) (fun r hr => ?_) fun _ => ⟨q, hall, hon, ?_⟩⟩
    · rw [Tasks.place_wake]
      split
      · rename_i hrq
        exact .inr ⟨hrq ▸ hon, rfl⟩
      · exact .inl rfl
    · rw [Tasks.place_wake, if_pos rfl]

/-- A step that changes neither the processes nor the sleep locks. -/
theorem LockInv.uses {cache : Bcache} {us : List Nat} (hk : LockInv k t) (hp : t.current = some p)
    (hlock : cache.lock = k.cache.lock) :
    LockInv { k with cache := cache, uses := Function.update k.uses p us } t := by
  refine ⟨hk.rep, hk.inv, fun q hq => ?_, ?_, hk.unique, hk.waits, hk.sleeps, ?_⟩
  · have hqp : q ≠ p := fun heq => hq (heq ▸ hk.inv.placed.current_live hp)
    simpa [hqp] using hk.gone q hq
  · rw [hlock]
    exact hk.holder
  · rw [hlock]
    exact hk.woken

theorem bget_lock {c c' : Bcache} {dev blockno b : Nat} (hrun : bobchouos.bget dev blockno c = .ok (b, c')) :
    c'.lock = c.lock := by
  rcases bget_cases hrun with ⟨-, rfl⟩ | ⟨-, -, -, rfl⟩
  · rfl
  · rfl

theorem brelse_ref_lock (b : Nat) (c : Bcache) : (bobchouos.brelse_ref b c).lock = c.lock := by
  unfold bobchouos.brelse_ref
  dsimp only
  split <;> rfl

/-- A step of the scheduler in the larger system. -/
theorem LockInv.exec_procs {b : Procs.Act} (hk : LockInv k t) (hb : k.procs.Enabled b)
    (hcur : ∀ p, k.procs.current = some p → k.waiting p = none) (helse : Elsewhere b)
    (hok : Procs.exec b k.procs = .ok ((), s')) : ∃ t', LockInv (forget { k with procs := s' }) t' := by
  rcases exec_spec hk.rep hk.inv hb with ⟨message, hpanic⟩ | hwp
  · rw [hok] at hpanic
    cases hpanic
  · obtain ⟨t', hrep', hmoves⟩ := hwp.post hok
    exact ⟨t', hk.moves (fun p hp => hcur p (hk.rep.current.trans hp)) helse hrep' hmoves⟩

theorem this_proc_ok (hk : LockInv k t) (hp : t.current = some p) : onProcs this_proc k = .ok (p, k) := by
  obtain ⟨q, k₁, hok, rfl, rfl⟩ : wp (onProcs this_proc) (fun q k₁ => q = p ∧ k₁ = k) k := by
    simp only [onProcs, wp_onField]
    exact this_proc_spec hk.rep hp ⟨rfl, rfl⟩
  exact hok

/-- A timer interrupt is a step of the scheduler. -/
theorem kernel_trap_ret_cases (hk : LockInv k t) (hp : t.current = some p)
    (hrun : kernel_trap_ret k = .ok ((), k')) :
    ∃ s', k' = { k with procs := s' } ∧
      ((t.proc p).killed = true ∧ Procs.exec (.proc_exit (-1)) k.procs = .ok ((), s') ∨
        (t.proc p).killed = false ∧ Procs.exec .yield k.procs = .ok ((), s')) := by
  obtain ⟨q, k₁, hthis, hrun₁⟩ := bind_eq_ok_iff.mp hrun
  rw [this_proc_ok hk hp] at hthis
  cases hthis
  obtain ⟨x, k₂, hget, hrun₂⟩ := bind_eq_ok_iff.mp hrun₁
  obtain ⟨rfl, rfl⟩ : x = t.proc p ∧ k₂ = k := by
    have hwp : wp (onProcs (getProc p)) (fun x k₁ => x = t.proc p ∧ k₁ = k) k := by
      simp only [onProcs, wp_onField]
      exact getProc_spec hk.rep (hk.inv.placed.current_live hp) ⟨rfl, rfl⟩
    exact hwp.post hget
  cases hkilled : (t.proc p).killed with
  | true =>
    rw [hkilled, if_pos rfl] at hrun₂
    obtain ⟨s', hok, rfl⟩ := onField_eq_ok_iff.mp hrun₂
    exact ⟨s', rfl, .inl ⟨rfl, hok⟩⟩
  | false =>
    rw [hkilled, if_neg (by simp)] at hrun₂
    obtain ⟨s', hok, rfl⟩ := onField_eq_ok_iff.mp hrun₂
    exact ⟨s', rfl, .inr ⟨rfl, hok⟩⟩

theorem bget_ok {dev blockno : Nat} (hk : LockInv k t) (hp : t.current = some p)
    (hrun : bget dev blockno k = .ok ((), k')) : ∃ b c, bobchouos.bget dev blockno k.cache = .ok (b, c) ∧
      k' = { k with cache := c, uses := Function.update k.uses p (b :: k.uses p) } := by
  obtain ⟨q, k₁, hthis, hrun₁⟩ := bind_eq_ok_iff.mp hrun
  rw [this_proc_ok hk hp] at hthis
  cases hthis
  obtain ⟨b, k₂, hget, hmodify⟩ := bind_eq_ok_iff.mp hrun₁
  obtain ⟨c, hok, rfl⟩ := onField_eq_ok_iff.mp hget
  cases hmodify
  exact ⟨b, c, hok, rfl⟩

theorem brelse_ref_ok {b : Nat} (hk : LockInv k t) (hp : t.current = some p)
    (hrun : brelse_ref b k = .ok ((), k')) :
    k' = { k with cache := bobchouos.brelse_ref b k.cache, uses := Function.update k.uses p ((k.uses p).erase b) } := by
  obtain ⟨q, k₁, hthis, hrun₁⟩ := bind_eq_ok_iff.mp hrun
  rw [this_proc_ok hk hp] at hthis
  cases hthis
  obtain ⟨_, k₂, hmod, hmodify⟩ := bind_eq_ok_iff.mp hrun₁
  obtain ⟨c, hok, rfl⟩ := onField_eq_ok_iff.mp hmod
  cases hok
  cases hmodify
  rfl

/-- Every step keeps the invariant. -/
theorem LockInv.step {a : Act} (hk : LockInv k t) (hstep : system.step a k k') : ∃ t', LockInv k' t' := by
  obtain ⟨ha, hrun⟩ := hstep
  have hcurrent : ∀ {p}, k.procs.current = some p → t.current = some p := fun hp => hk.rep.current ▸ hp
  have hawake : ∀ {p}, k.procs.current = some p → k.waiting p = none →
      ∀ q, k.procs.current = some q → k.waiting q = none := by
    intro p hp hw q hq
    rw [hp] at hq
    cases hq
    exact hw
  cases a with
  | proc b =>
    obtain ⟨_, k₁, hon, hforget⟩ := bind_eq_ok_iff.mp hrun
    obtain ⟨s', hok, rfl⟩ := onField_eq_ok_iff.mp hon
    cases hforget
    obtain ⟨hb, hcur, helse, -⟩ := ha.proc
    exact hk.exec_procs hb hcur helse hok
  | sleep_lock n =>
    obtain ⟨p, hp, hw⟩ := ha
    exact (sleep_lock_spec hk (hcurrent hp) fun m hm => by simp [hw] at hm).post hrun
  | sleep_lock_retry =>
    obtain ⟨p, hp, -⟩ := ha
    exact (sleep_lock_retry_spec hk (hcurrent hp)).post hrun
  | sleep_unlock n =>
    obtain ⟨p, hp, -, hn⟩ := ha
    exact (sleep_unlock_spec hk (hcurrent hp) hn).post hrun
  | bget dev blockno =>
    obtain ⟨p, hp, -⟩ := ha
    obtain ⟨b, c, hget, rfl⟩ := bget_ok hk (hcurrent hp) hrun
    exact ⟨t, hk.uses (hcurrent hp) (bget_lock hget)⟩
  | brelse_ref b =>
    obtain ⟨p, hp, -⟩ := ha
    obtain rfl := brelse_ref_ok hk (hcurrent hp) hrun
    exact ⟨t, hk.uses (hcurrent hp) (brelse_ref_lock b _)⟩
  | timer =>
    obtain ⟨p, hp, hw⟩ := ha
    obtain ⟨_, k₁, htrap, hforget⟩ := bind_eq_ok_iff.mp hrun
    cases hforget
    obtain ⟨s', rfl, ⟨-, hok⟩ | ⟨-, hok⟩⟩ := kernel_trap_ret_cases hk (hcurrent hp) htrap
    · exact hk.exec_procs (b := .proc_exit (-1)) (by simp [Procs.Enabled, hp]) (hawake hp hw) trivial hok
    · exact hk.exec_procs (b := .yield) (by simp [Procs.Enabled, hp]) (hawake hp hw) trivial hok

theorem Boot.lockInv (hk : Boot k) : ∃ t, LockInv k t := by
  obtain ⟨procs, ⟨idle, init, hne, hrun⟩, rfl⟩ := hk
  obtain ⟨hwp, hinv⟩ := proc_bootstrap_spec hne
  have hnot : ∀ p n, (Tasks.boot idle init).place p ≠ .queue (.wq (lockQueue n)) := by
    intro p n hon
    rcases Tasks.boot_place idle init p with hplace | hplace
    · rw [hon] at hplace
      cases hplace
    · rw [hon] at hplace
      cases hplace
  refine ⟨_, hwp.post hrun, hinv, fun _ _ => ⟨rfl, rfl, rfl⟩, fun p n hn => ?_, fun p q n hn => ?_,
    fun p n hw => absurd hw nofun, fun p _ n hon => absurd hon (hnot p n), fun n _ hex => ?_⟩
  · simp at hn
  · simp at hn
  · obtain ⟨q, -, hon⟩ := hex
    exact absurd hon (hnot q n)

/-- At most one process is between its `sleep_lock` and its `sleep_unlock`, and
the lock has its pid. If a lock is free and processes sleep on its queue, then a
process that was taken off the queue is runnable or was just dispatched, and has
not tested the lock since. -/
theorem sleeplock_correct (hk : system.Reachable k) (n : Nat) :
    (∀ p q, n ∈ k.held p → n ∈ k.held q → p = q) ∧
    (∀ p, n ∈ k.held p → (k.cache.lock n).locked = true ∧
      (k.cache.lock n).pid = (k.procs.proc p).pid.toNat) ∧
    ((k.cache.lock n).locked = false → ∀ xs, k.procs.Listed (.wq (lockQueue n)) xs → xs ≠ [] →
      ∃ p, k.waiting p = some n ∧ p ∉ xs ∧
        ((k.procs.proc p).state = .PROC_RUNNABLE ∨ k.procs.current = some p)) := by
  obtain ⟨t, ht⟩ : ∃ t, LockInv k t := by
    refine hk.invariant (P := fun k => ∃ t, LockInv k t) (fun k hk => hk.lockInv) ?_
    rintro a k k' ⟨t, ht⟩ hstep
    exact ht.step hstep
  refine ⟨fun p q => ht.unique p q n, fun p hp => ?_, fun hfree xs hxs hne => ?_⟩
  · rw [ht.rep.proc]
    exact ht.holder p n hp
  · obtain rfl := hxs.unique (Procs.listed_of_rep ht.rep (h := .wq (lockQueue n)) rfl)
    have hmem := ht.inv.placed.mem (.wq (lockQueue n)) rfl rfl
    obtain ⟨q, hq⟩ := List.exists_mem_of_ne_nil _ hne
    obtain ⟨p, hw, hon⟩ := ht.woken n hfree ⟨q, (hmem q).mp hq⟩
    have hall := (ht.waits p n hw).1
    refine ⟨p, hw, fun hp => ?_, ?_⟩
    · rw [((hmem p).mp hp).2] at hon
      rcases hon with hon | hon <;> cases hon
    · rcases hon with hon | hon
      · left
        rw [ht.rep.proc, ht.inv.placed.state p hall, hon]
        rfl
      · right
        rw [ht.rep.current]
        exact (ht.inv.placed.current p).mpr ⟨hall, hon⟩

/-- Init forks 3 and 4. -/
def twoChildren : List Act := [.proc (.scheduler 0), .proc .yield, .proc (.scheduler 0)] ++
  (Procs.proc_fork 3 ++ Procs.proc_fork 4).map .proc ++ [.timer, .proc (.scheduler 0), .timer, .proc (.scheduler 0)]

/-- Process 3 takes lock 0, 4 and init wait for it, and 3 releases it. -/
def contention : List Act := twoChildren ++
  [.sleep_lock 0, .timer, .proc (.scheduler 0), .sleep_lock 0, .proc (.scheduler 0), .sleep_lock 0,
    .proc (.scheduler 0), .timer, .proc (.scheduler 0), .sleep_unlock 0]

/-- Init sleeps on the queue of the free lock, and 4 is woken. -/
theorem sleeplock_correct_contention : ∃ k, system.Reachable k ∧ (k.cache.lock 0).locked = false ∧
    k.procs.Listed (.wq (lockQueue 0)) [2] ∧ ∃ p, k.waiting p = some 0 ∧ p ∉ [2] ∧
      ((k.procs.proc p).state = .PROC_RUNNABLE ∨ k.procs.current = some p) := by
  obtain ⟨k, hrun, hfree, hon⟩ := exists_of_any (o := bootRun Enabled contention)
    (P := fun k => (k.cache.lock 0).locked = false ∧
      k.procs.links.Ring (.head (.wq (lockQueue 0))) [.link .wait_link 2]) (by decide +kernel)
  have hk : system.Reachable k := reachable_bootRun (fun _ hk => hk) (fun _ _ _ ha hok => ⟨ha, hok⟩) hrun
  exact ⟨k, hk, hfree, hon, (sleeplock_correct hk 0).2.2 hfree [2] hon (by simp)⟩

end Kern

end bobchouos
