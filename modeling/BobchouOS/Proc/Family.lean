import BobchouOS.Proc.Wait

open lib

namespace bobchouos

namespace Procs

/-- What happens to the process at an address. -/
inductive Event where
  | created (c : Nat)
  | discarded (c : Nat)
  | published (c : Nat)
  | exited (c : Nat) (pid status : BitVec 32)
  | reaped (c parent : Nat) (pid status : BitVec 32)
  deriving DecidableEq

namespace Event

def subject : Event → Nat
  | created c | discarded c | published c | exited c _ _ | reaped c _ _ _ => c

/-- The process is on `all_procs` after the event. -/
def listed : Event → Bool
  | published _ | exited _ _ _ => true
  | created _ | discarded _ | reaped _ _ _ _ => false

/-- The process is freed by the event. -/
def ends : Event → Bool
  | discarded _ | reaped _ _ _ _ => true
  | created _ | published _ | exited _ _ _ => false

/-- The event that may come next for a process, given its last one. Only a
process that exited is reaped, with the pid and the status of its exit. -/
inductive Follows : Option Event → Event → Prop
  | first {c : Nat} : Follows none (created c)
  | reused {e : Event} : e.ends = true → Follows (some e) (created e.subject)
  | discarded {c : Nat} : Follows (some (created c)) (discarded c)
  | published {c : Nat} : Follows (some (created c)) (published c)
  | exited {c : Nat} {pid status : BitVec 32} : Follows (some (published c)) (exited c pid status)
  | reaped {c parent : Nat} {pid status : BitVec 32} :
      Follows (some (exited c pid status)) (reaped c parent pid status)

end Event

/-- The last event of a process. The newest event of a log is its first one. -/
def last (log : List Event) (c : Nat) : Option Event := log.find? (·.subject == c)

/-- The logs in which every event may follow the last one of its process. -/
inductive History : List Event → Prop
  | nil : History []
  | cons {e : Event} {log : List Event} : History log → Event.Follows (last log e.subject) e → History (e :: log)

/-- The events of a step. The process that `proc_wait` reaped is the one that is
no longer allocated. -/
def events (a : Act) (s s' : Procs) : List Event :=
  match a with
  | .proc_create_kernel p => [.published p, .created p]
  | .fork_create _ _ => (s'.live.filter (· ∉ s.live)).map .created
  | .fork_fail c => [.discarded c]
  | .fork_publish c => [.published c]
  | .proc_exit status => s.current.toList.map fun p => .exited p (s.proc p).pid status
  | .proc_wait =>
    match s.current, bobchouos.proc_wait s with
    | some p, .ok (.reaped pid status, _) => (s.live.filter (· ∉ s'.live)).map fun c => .reaped c p pid status
    | _, _ => []
  | _ => []

/-- The system with a log of the lives of its processes. -/
def recorded : Lts (Procs × List Event) Act where
  init x := ∃ idle init, idle ≠ init ∧ proc_bootstrap idle init start = .ok ((), x.1) ∧
    x.2 = [.published init, .created init, .published idle, .created idle]
  step a x x' := system.step a x.1 x'.1 ∧ x'.2 = events a x.1 x'.1 ++ x.2

theorem last_cons_self (e : Event) (log : List Event) : last (e :: log) e.subject = some e := by
  simp [last]

theorem last_cons_of_ne {e : Event} {c : Nat} (log : List Event) (hc : c ≠ e.subject) :
    last (e :: log) c = last log c := by
  simp [last, Ne.symm hc]

theorem subject_of_last {log : List Event} {c : Nat} {e : Event} (he : last log c = some e) : e.subject = c := by
  simpa using List.find?_some he

end Procs

open Procs (Act Event History last)

variable {s s' : Procs} {t t' : Tasks} {h : Head} {p : Nat} {log : List Event}

namespace Tasks

/-- The last event of an allocated process. -/
def stage (t : Tasks) (p : Nat) : Event :=
  if p ∉ t.list .all_procs then .created p
  else if (t.proc p).state = .PROC_ZOMBIE then .exited p (t.proc p).pid (t.proc p).exit_status
  else .published p

@[simp] theorem subject_stage (t : Tasks) (p : Nat) : (t.stage p).subject = p := by
  unfold stage
  split
  · rfl
  · split <;> rfl

theorem listed_stage (t : Tasks) (p : Nat) : (t.stage p).listed = true ↔ p ∈ t.list .all_procs := by
  unfold stage
  by_cases hp : p ∈ t.list .all_procs
  · rw [if_neg (not_not.mpr hp)]
    split <;> simp [hp, Event.listed]
  · simp [hp, Event.listed]

/-- The log tells what the processes are. -/
structure Recorded (t : Tasks) (log : List Event) : Prop where
  history : History log
  live : ∀ p ∈ t.live, last log p = some (t.stage p)
  gone : ∀ p ∉ t.live, ∀ e, last log p = some e → e.ends = true
  rooted : ∀ c ∈ t.live, (t.proc c).parent = none → (t.proc c).pid = 0 ∨ (t.proc c).pid = 1

/-- A step that no process is created, published, ended or freed by. -/
structure SameLives (t t' : Tasks) : Prop where
  live : t'.live = t.live
  all : t'.list .all_procs = t.list .all_procs
  pid : ∀ q ∈ t.live, (t'.proc q).pid = (t.proc q).pid
  status : ∀ q ∈ t.live, (t'.proc q).exit_status = (t.proc q).exit_status
  zombie : ∀ q ∈ t.live, (t'.proc q).state = .PROC_ZOMBIE ↔ (t.proc q).state = .PROC_ZOMBIE
  rooted : ∀ q ∈ t.live, (t'.proc q).parent = none → (t.proc q).parent = none

theorem SameLives.refl (t : Tasks) : SameLives t t :=
  ⟨rfl, rfl, fun _ _ => rfl, fun _ _ => rfl, fun _ _ => .rfl, fun _ _ => id⟩

theorem SameLives.trans {t'' : Tasks} (hsame : SameLives t t') (hsame' : SameLives t' t'') : SameLives t t'' where
  live := hsame'.live.trans hsame.live
  all := hsame'.all.trans hsame.all
  pid q hq := (hsame'.pid q (hsame.live ▸ hq)).trans (hsame.pid q hq)
  status q hq := (hsame'.status q (hsame.live ▸ hq)).trans (hsame.status q hq)
  zombie q hq := (hsame'.zombie q (hsame.live ▸ hq)).trans (hsame.zombie q hq)
  rooted q hq hnone := hsame.rooted q hq (hsame'.rooted q (hsame.live ▸ hq) hnone)

theorem SameLives.stage {q : Nat} (hsame : SameLives t t') (hq : q ∈ t.live) : t'.stage q = t.stage q := by
  unfold Tasks.stage
  simp only [hsame.all, hsame.pid q hq, hsame.status q hq, hsame.zombie q hq]

theorem SameLives.setProc {f : Proc → Proc} (t : Tasks) (p : Nat) (hpid : ∀ x, (f x).pid = x.pid)
    (hstatus : ∀ x, (f x).exit_status = x.exit_status) (hstate : ∀ x, (f x).state = x.state)
    (hparent : ∀ x, (f x).parent = none → x.parent = none) : SameLives t (t.setProc p f) := by
  have hproc : ∀ q, (t.setProc p f).proc q = t.proc q ∨ (t.setProc p f).proc q = f (t.proc q) := by
    intro q
    by_cases hqp : q = p
    · subst hqp
      simp [Tasks.setProc, ProcTable.setProc]
    · simp [Tasks.setProc, ProcTable.setProc, hqp]
  refine ⟨rfl, rfl, fun q _ => ?_, fun q _ => ?_, fun q _ => ?_, fun q _ hnone => ?_⟩
  · rcases hproc q with heq | heq <;> simp [heq, hpid]
  · rcases hproc q with heq | heq <;> simp [heq, hstatus]
  · rcases hproc q with heq | heq <;> simp [heq, hstate]
  · rcases hproc q with heq | heq
    · rwa [heq] at hnone
    · rw [heq] at hnone
      exact hparent _ hnone

theorem SameLives.put {xs : List Nat} (t : Tasks) (hh : h ≠ .all_procs) : SameLives t (t.put h xs) :=
  ⟨rfl, by simp [Tasks.put, hh.symm], fun _ _ => rfl, fun _ _ => rfl, fun _ _ => .rfl, fun _ _ => id⟩

/-- A process that is not a zombie changes its place. -/
theorem SameLives.enter {b : Place} (t : Tasks) (hz : (t.proc p).state ≠ .PROC_ZOMBIE) (hb : b.state ≠ .PROC_ZOMBIE) :
    SameLives t (t.enter p b) := by
  obtain ⟨hpid, hparent⟩ : (∀ q, ((t.enter p b).proc q).pid = (t.proc q).pid) ∧
      ∀ q, ((t.enter p b).proc q).parent = (t.proc q).parent :=
    ⟨fun q => (Inv.proc_enter t p b q).1, fun q => (Inv.proc_enter t p b q).2.1⟩
  refine ⟨rfl, rfl, fun q _ => hpid q, fun q _ => ?_, fun q _ => ?_, fun q _ hnone => (hparent q).symm.trans hnone⟩
  · by_cases hqp : q = p
    · subst hqp
      simp [Tasks.enter, Tasks.setProc, ProcTable.setProc]
    · simp [Tasks.enter, Tasks.setProc, ProcTable.setProc, hqp]
  · by_cases hqp : q = p
    · subst hqp
      rw [Placed.state_enter_self]
      exact ⟨fun heq => absurd heq hb, fun heq => absurd heq hz⟩
    · rw [Placed.state_enter hqp]

theorem SameLives.of_eq {t'' : Tasks} (hsame : SameLives t t') (hlive : t''.live = t'.live)
    (hall : t''.list .all_procs = t'.list .all_procs) (hproc : t''.proc = t'.proc) : SameLives t t'' :=
  ⟨hlive.trans hsame.live, hall.trans hsame.all, by rw [hproc]; exact hsame.pid, by rw [hproc]; exact hsame.status,
    by rw [hproc]; exact hsame.zombie, by rw [hproc]; exact hsame.rooted⟩

theorem Inv.not_zombie {b : Place} (hinv : t.Inv) (hp : p ∈ t.list .all_procs) (hplace : t.place p = b)
    (hb : b.state ≠ .PROC_ZOMBIE) : (t.proc p).state ≠ .PROC_ZOMBIE := by
  rw [hinv.placed.state p hp, hplace]
  exact hb

theorem queue_state_ne (h : Head) : (Place.queue h).state ≠ .PROC_ZOMBIE := by
  cases h <;> simp [Place.state]

theorem Inv.current_not_zombie (hinv : t.Inv) (hp : t.current = some p) : (t.proc p).state ≠ .PROC_ZOMBIE := by
  obtain ⟨hall, hcpu⟩ := (hinv.placed.current p).mp hp
  exact hinv.not_zombie hall hcpu (by simp [Place.state])

theorem SameLives.block {xs : List Nat} (hinv : t.Inv) (hp : t.current = some p) (hqueue : h.isQueue = true) :
    SameLives t (t.block h xs p) := by
  have hne : h ≠ .all_procs := by
    rintro rfl
    cases hqueue
  have hput : SameLives t (t.put h xs) := .put t hne
  exact (hput.trans (.enter _ (hinv.current_not_zombie hp) (queue_state_ne h))).of_eq rfl rfl rfl

theorem SameLives.wake (hinv : t.Inv) (hqueue : h.isQueue = true) (halive : (Node.head h).alive t.live = true)
    (hp : p ∈ t.list h) : SameLives t (t.wake h p) := by
  obtain ⟨hall, hplace⟩ := (hinv.placed.mem h hqueue halive p).mp hp
  have hne : h ≠ .all_procs := by
    rintro rfl
    cases hqueue
  have hdrop : SameLives t (t.drop h p) := .put t hne
  have hpush : SameLives (t.drop h p) ((t.drop h p).push .run_queue p) := .put _ (by simp)
  exact (hdrop.trans hpush).trans (.enter _ (hinv.not_zombie hall hplace (queue_state_ne h)) (queue_state_ne _))

theorem SameLives.wakes (hinv : t.Inv) (hwakes : t.Wakes h t') (hqueue : h.isQueue = true)
    (halive : (Node.head h).alive t.live = true) (hne : h ≠ .run_queue) : SameLives t t' := by
  induction hwakes with
  | refl => exact .refl t
  | @step t₁ p xs hwakes hlist _ ih =>
    obtain ⟨hinv₁, hlive₁, -⟩ := hwakes.inv hinv hqueue halive hne
    exact ih.trans (.wake hinv₁ hqueue (hlive₁ ▸ halive) (by simp [hlist]))

theorem SameLives.adopt {i c : Nat} (t : Tasks) : SameLives t (t.adopt p i c) := by
  have hset : SameLives t (t.setProc c fun x => { x with parent := some i }) :=
    .setProc t c (fun _ => rfl) (fun _ => rfl) (fun _ => rfl) fun _ hnone => by cases hnone
  exact (hset.trans (.put _ (by simp))).trans (.put _ (by simp))

theorem SameLives.adopts {i : Nat} (hadopts : t.Adopts p i t') : SameLives t t' := by
  induction hadopts with
  | refl => exact .refl t
  | step _ _ _ ih => exact ih.trans (.adopt _)

theorem SameLives.abandon {c : Nat} (hc : c ∉ t.live) : SameLives t (t.abandon c) := by
  have hproc : ∀ q ∈ t.live, (t.abandon c).proc q = t.proc q := by
    intro q hq
    have hqc : q ≠ c := fun heq => hc (heq ▸ hq)
    simp [Tasks.abandon, hqc]
  refine ⟨rfl, rfl, fun q hq => ?_, fun q hq => ?_, fun q hq => ?_, fun q hq hnone => ?_⟩
  · rw [hproc q hq]
  · rw [hproc q hq]
  · rw [hproc q hq]
  · rwa [hproc q hq] at hnone

theorem Recorded.same (hrec : t.Recorded log) (hsame : SameLives t t') : t'.Recorded log := by
  refine ⟨hrec.history, fun q hq => ?_, fun q hq => ?_, fun q hq hnone => ?_⟩
  · rw [hsame.live] at hq
    rw [hsame.stage hq]
    exact hrec.live q hq
  · rw [hsame.live] at hq
    exact hrec.gone q hq
  · rw [hsame.live] at hq
    rw [hsame.pid q hq]
    exact hrec.rooted q hq (hsame.rooted q hq hnone)

/-- One event changes the stage of its process. -/
theorem Recorded.next {e : Event} (hrec : t.Recorded log) (hfollows : Event.Follows (last log e.subject) e)
    (hlive : ∀ q ≠ e.subject, (q ∈ t'.live ↔ q ∈ t.live))
    (hstage : ∀ q ∈ t.live, q ≠ e.subject → t'.stage q = t.stage q)
    (hself : e.subject ∈ t'.live → t'.stage e.subject = e) (hover : e.subject ∉ t'.live → e.ends = true)
    (hrooted : ∀ q ∈ t'.live, (t'.proc q).parent = none → (t'.proc q).pid = 0 ∨ (t'.proc q).pid = 1) :
    t'.Recorded (e :: log) := by
  refine ⟨.cons hrec.history hfollows, fun q hq => ?_, fun q hq => ?_, hrooted⟩
  · by_cases hqe : q = e.subject
    · subst hqe
      rw [Procs.last_cons_self, hself hq]
    · have hql := (hlive q hqe).mp hq
      rw [Procs.last_cons_of_ne log hqe, hstage q hql hqe]
      exact hrec.live q hql
  · by_cases hqe : q = e.subject
    · subst hqe
      intro e' he'
      rw [Procs.last_cons_self] at he'
      cases he'
      exact hover hq
    · rw [Procs.last_cons_of_ne log hqe]
      exact hrec.gone q fun hql => hq ((hlive q hqe).mpr hql)

theorem stage_congr {q : Nat} (hall : q ∈ t'.list .all_procs ↔ q ∈ t.list .all_procs)
    (hproc : (t'.proc q).pid = (t.proc q).pid ∧ (t'.proc q).exit_status = (t.proc q).exit_status ∧
      (t'.proc q).state = (t.proc q).state) : t'.stage q = t.stage q := by
  unfold stage
  simp only [hall, hproc.1, hproc.2.1, hproc.2.2]

/-- Only the first two processes are created without a parent. -/
theorem Recorded.create {c : Nat} (hrec : t.Recorded log) (hplaced : t.Placed) (hc : c ∉ t.live)
    (hroot : t.init_proc = none → t.next_pid = 0 ∨ t.next_pid = 1) :
    (t.create c).Recorded (.created c :: log) := by
  have hall : (t.create c).list .all_procs = t.list .all_procs := Tree.list_create (by simp) (by simp)
  have hproc : ∀ q ≠ c, (t.create c).proc q = t.proc q := by
    intro q hq
    rw [Tree.proc_create, Function.update_of_ne hq]
  refine hrec.next (e := .created c) ?_ ?_ ?_ ?_ ?_ ?_
  · change Event.Follows (last log c) (.created c)
    cases hlast : last log c with
    | none => exact .first
    | some e =>
      have hfollows := Event.Follows.reused (hrec.gone c hc e hlast)
      rwa [Procs.subject_of_last hlast] at hfollows
  · intro q hq
    simp [Tree.live_create, show q ≠ c from hq]
  · intro q _ hq
    refine stage_congr (by rw [hall]) ?_
    rw [hproc q hq]
    exact ⟨rfl, rfl, rfl⟩
  · intro _
    have hnot : c ∉ (t.create c).list .all_procs := fun hmem => hc (hplaced.live c (hall ▸ hmem))
    change (t.create c).stage c = .created c
    rw [stage, if_pos hnot]
  · intro hnot
    simp [Tree.live_create, Event.subject] at hnot
  · intro q hq hnone
    by_cases hqc : q = c
    · subst hqc
      rw [Tree.proc_create, Function.update_self] at hnone ⊢
      exact hroot hnone
    · rw [hproc q hqc] at hnone ⊢
      rw [Tree.live_create] at hq
      exact hrec.rooted q ((List.mem_cons.mp hq).resolve_left hqc) hnone

/-- A child that is not on `all_procs` comes onto it. -/
theorem Recorded.publish {c : Nat} (hrec : t.Recorded log) (hc : c ∈ t.live) (hca : c ∉ t.list .all_procs) :
    (t.publish c).Recorded (.published c :: log) := by
  have hall : ∀ q, q ∈ (t.publish c).list .all_procs ↔ q ∈ t.list .all_procs ∨ q = c := by
    intro q
    rw [list_publish_all]
    simp
  have hproc : ∀ q ≠ c, (t.publish c).proc q = t.proc q := by
    intro q hq
    simp [Tasks.publish, enter, Tasks.setProc, ProcTable.setProc, push, put, hq]
  refine hrec.next (e := .published c) ?_ (fun _ _ => .rfl) ?_ ?_ (fun hnot => absurd hc hnot) ?_
  · change Event.Follows (last log c) (.published c)
    rw [hrec.live c hc, stage, if_pos hca]
    exact .published
  · intro q _ hq
    refine stage_congr ?_ ?_
    · rw [hall]
      simp [show q ≠ c from hq]
    · rw [hproc q hq]
      exact ⟨rfl, rfl, rfl⟩
  · intro _
    change (t.publish c).stage c = .published c
    have hstate : ((t.publish c).proc c).state = .PROC_RUNNABLE := by
      simp [Tasks.publish, enter, Tasks.setProc, ProcTable.setProc, push, put, Place.state]
    rw [stage, if_neg (by simp [hall]), if_neg (by simp [hstate])]
  · intro q hq hnone
    obtain ⟨hpid, hparent, -⟩ := proc_publish t c q
    rw [hpid]
    exact hrec.rooted q hq (hparent ▸ hnone)

theorem Recorded.die (status : BitVec 32) (hrec : t.Recorded log) (hinv : t.Inv) (hp : t.current = some p) :
    (t.die p status).Recorded (.exited p (t.proc p).pid status :: log) := by
  have hall := ((hinv.placed.current p).mp hp).1
  have hpl := hinv.placed.live p hall
  have hproc : ∀ q ≠ p, (t.die p status).proc q = t.proc q := by
    intro q hq
    simp [Tasks.die, enter, Tasks.setProc, ProcTable.setProc, hq]
  have hself : (t.die p status).proc p = { t.proc p with exit_status := status, state := .PROC_ZOMBIE } := by
    simp [Tasks.die, enter, Tasks.setProc, ProcTable.setProc, Place.state]
  refine hrec.next (e := .exited p (t.proc p).pid status) ?_ (fun _ _ => .rfl) ?_ ?_ (fun hnot => absurd hpl hnot) ?_
  · change Event.Follows (last log p) _
    rw [hrec.live p hpl, stage, if_neg (not_not.mpr hall), if_neg (hinv.current_not_zombie hp)]
    exact .exited
  · intro q _ hq
    refine stage_congr .rfl ?_
    rw [hproc q hq]
    exact ⟨rfl, rfl, rfl⟩
  · intro _
    have hall' : p ∈ (t.die p status).list .all_procs := hall
    change (t.die p status).stage p = .exited p (t.proc p).pid status
    rw [stage, if_neg (not_not.mpr hall'), hself]
    simp
  · intro q hq hnone
    by_cases hqp : q = p
    · subst hqp
      rw [hself] at hnone ⊢
      exact hrec.rooted q hq hnone
    · rw [hproc q hqp] at hnone ⊢
      exact hrec.rooted q hq hnone

theorem forking_wakes (hwakes : t.Wakes h t') (q : Nat) : (t'.proc q).forking = (t.proc q).forking := by
  induction hwakes with
  | refl => rfl
  | step _ _ _ ih => exact (Inv.proc_enter _ _ _ q).2.2.trans ih

theorem forking_adopts {i : Nat} (hadopts : t.Adopts p i t') (q : Nat) :
    (t'.proc q).forking = (t.proc q).forking := by
  induction hadopts with
  | refl => rfl
  | step _ _ _ ih => exact (Tree.proc_adopt _ _ _ _ q).2.2.trans ih

/-- `proc_exit` up to the death of the process. -/
theorem Exits.dies {status : BitVec 32} (hexits : t.Exits p status t') (hinv : t.Inv) (hp : t.current = some p) :
    ∃ t₂, SameLives t t₂ ∧ t₂.Inv ∧ t₂.current = some p ∧
      (∀ q, (t₂.proc q).forking = (t.proc q).forking) ∧ t' = t₂.die p status := by
  cases hexits with
  | @exit i q t₁ t₂ hi hpid hadopts hnil hparent hwakes _ =>
    have hpl := hinv.placed.current_live hp
    obtain ⟨hinv₁, hlive₁, hcur₁, -⟩ := hadopts.inv hinv hpl hi
    have hq : q ∈ t₁.live := hinv₁.placed.live q (hinv₁.tree.parent p (hlive₁ ▸ hpl) q hparent)
    obtain ⟨hinv₂, -, hcur₂, -⟩ := hwakes.inv hinv₁ rfl (Node.alive_child_wq.mpr hq) (by simp)
    exact ⟨t₂, (SameLives.adopts hadopts).trans (.wakes hinv₁ hwakes rfl (Node.alive_child_wq.mpr hq) (by simp)),
      hinv₂, hcur₂.trans (hcur₁.trans hp), fun q => (forking_wakes hwakes q).trans (forking_adopts hadopts q), rfl⟩

theorem Recorded.exits {status : BitVec 32} (hrec : t.Recorded log) (hinv : t.Inv) (hp : t.current = some p)
    (hexits : t.Exits p status t') : t'.Recorded (.exited p (t.proc p).pid status :: log) := by
  obtain ⟨t₂, hsame, hinv₂, hp₂, -, rfl⟩ := hexits.dies hinv hp
  have hdie := (hrec.same hsame).die status hinv₂ hp₂
  rwa [hsame.pid p (hinv.placed.current_live hp)] at hdie

/-- A process is freed. -/
theorem Recorded.leave {e : Event} (hrec : t.Recorded log) (hnodup : t.live.Nodup) (hover : e.ends = true)
    (hfollows : Event.Follows (last log e.subject) e) (hlive : t'.live = t.live.erase e.subject)
    (hall : ∀ q ≠ e.subject, (q ∈ t'.list .all_procs ↔ q ∈ t.list .all_procs))
    (hproc : ∀ q, (t'.proc q).pid = (t.proc q).pid ∧ (t'.proc q).exit_status = (t.proc q).exit_status ∧
      (t'.proc q).state = (t.proc q).state) (hparent : ∀ q, (t'.proc q).parent = (t.proc q).parent) :
    t'.Recorded (e :: log) := by
  refine hrec.next hfollows (fun q hq => ?_) (fun q _ hq => stage_congr (hall q hq) (hproc q)) (fun hself => ?_)
    (fun _ => hover) fun q hq hnone => ?_
  · rw [hlive, List.mem_erase_of_ne hq]
  · rw [hlive] at hself
    exact absurd hself hnodup.not_mem_erase
  · rw [hlive] at hq
    rw [hparent] at hnone
    rw [(hproc q).1]
    exact hrec.rooted q (List.mem_of_mem_erase hq) hnone

theorem Recorded.reap {c : Nat} (hrec : t.Recorded log) (hinv : t.Inv) (hc : c ∈ t.live)
    (hz : (t.proc c).state = .PROC_ZOMBIE) :
    (t.reap p c).Recorded (.reaped c p (t.proc c).pid (t.proc c).exit_status :: log) := by
  have hall := (hinv.zombie_published hc hz).1
  refine hrec.leave (e := .reaped c p (t.proc c).pid (t.proc c).exit_status) hinv.tree.nodup rfl ?_ rfl ?_
    (fun _ => ⟨rfl, rfl, rfl⟩) fun _ => rfl
  · change Event.Follows (last log c) _
    rw [hrec.live c hc, stage, if_neg (not_not.mpr hall), if_pos hz]
    exact .reaped
  · intro q hq
    have heq : (t.reap p c).list .all_procs = (t.list .all_procs).erase c := by
      simp [Tasks.reap, free, drop, put]
    rw [heq, List.mem_erase_of_ne (show q ≠ c from hq)]

theorem Recorded.discard {c q : Nat} (hrec : t.Recorded log) (hinv : t.Inv) (hc : c ∈ t.live)
    (hca : c ∉ t.list .all_procs) : ((t.discard q c).setForking p none).Recorded (.discarded c :: log) := by
  have hset : SameLives (t.discard q c) ((t.discard q c).setForking p none) :=
    .setProc _ p (fun _ => rfl) (fun _ => rfl) (fun _ => rfl) fun _ => id
  refine Recorded.same ?_ hset
  refine hrec.leave (e := .discarded c) hinv.tree.nodup rfl ?_ rfl ?_ (fun _ => ⟨rfl, rfl, rfl⟩) fun _ => rfl
  · change Event.Follows (last log c) _
    rw [hrec.live c hc, stage, if_pos hca]
    exact .discarded
  · intro r _
    simp [Tasks.discard, free, drop, put]

end Tasks

open Tasks (Recorded SameLives)

/-- The newly allocated processes of a step. -/
theorem filter_new {live : List Nat} {c : Nat} (hc : c ∉ live) : (c :: live).filter (· ∉ live) = [c] := by
  have hnil : live.filter (· ∉ live) = [] := by simp
  rw [List.filter_cons_of_pos (by simpa using hc), hnil]

/-- The steps that no process is created, published, ended or freed by, and that
do not belong to a `proc_fork`. -/
def Procs.Act.quiet : Act → Bool
  | .scheduler _ | .yield | .wq_sleep _ | .wq_wake_one _ | .wq_wake_all _ | .sys_sleep _ _ | .sys_sleep_return
  | .wake_expired_sleepers _ | .proc_kill _ => true
  | .proc_exit _ | .proc_wait | .proc_create_kernel _ | .fork_create _ _ | .fork_fail _ | .fork_reparent _
  | .fork_publish _ => false

theorem Tasks.Moves.sameLives {a : Act} (hmoves : t.Moves a t') (hinv : t.Inv) (ha : a.quiet = true) :
    SameLives t t' := by
  cases hmoves with
  | @scheduler now timer p xs hnone hlist =>
    obtain ⟨hall, hplace⟩ := (hinv.placed.mem .run_queue rfl rfl p).mp (by simp [hlist])
    have hdrop : SameLives t (t.drop .run_queue p) := .put t (by simp)
    have henter := SameLives.enter (b := .cpu) (t.drop .run_queue p)
      (hinv.not_zombie hall hplace (by simp [Place.state])) (by simp [Place.state])
    exact (hdrop.trans henter).of_eq rfl rfl rfl
  | yield hp => exact .block hinv hp rfl
  | wq_sleep hp => exact .block hinv hp rfl
  | wq_wake_one hw hwakes => exact .wakes hinv hwakes rfl hw (by simp)
  | wq_wake_all hw hwakes => exact .wakes hinv hwakes rfl hw (by simp)
  | @sys_sleep now ms p xs ys hp hplace =>
    have hset : SameLives t (t.setProc p fun x => { x with wake_time := wakeTime now ms }) :=
      .setProc t p (fun _ => rfl) (fun _ => rfl) (fun _ => rfl) fun _ => id
    have hinv' : (t.setProc p fun x => { x with wake_time := wakeTime now ms }).Inv :=
      hinv.setData (fun _ => rfl) (fun _ => rfl) (fun _ => rfl) fun _ => rfl
    exact hset.trans (.block hinv' hp rfl)
  | @sys_sleep_return p => exact .setProc t p (fun _ => rfl) (fun _ => rfl) (fun _ => rfl) fun _ => id
  | wake_expired_sleepers hwakes => exact .wakes hinv hwakes rfl rfl (by simp)
  | proc_kill hkills =>
    cases hkills with
    | missing => exact .refl t
    | @marked p => exact .setProc t p (fun _ => rfl) (fun _ => rfl) (fun _ => rfl) fun _ => id
    | @woken p h hall _ hne hplace _ =>
      obtain ⟨hqueue, halive⟩ := hinv.placed.queue p hall h hplace
      have hset : SameLives t (t.setProc p fun x => { x with killed := true }) :=
        .setProc t p (fun _ => rfl) (fun _ => rfl) (fun _ => rfl) fun _ => id
      have hinv' : (t.setProc p fun x => { x with killed := true }).Inv :=
        hinv.setData (fun _ => rfl) (fun _ => rfl) (fun _ => rfl) fun _ => rfl
      have hmem := (hinv.placed.mem h hqueue halive p).mpr ⟨hall, hplace⟩
      exact hset.trans (.wake hinv' hqueue halive hmem)
  | _ => cases ha

/-- The log keeps up with the steps. -/
theorem recorded_step {a : Act} (hrep : Rep s t) (hinv : t.Inv) (hrep' : Rep s' t') (hmoves : t.Moves a t')
    (ha : a ≠ .proc_wait) (hrec : t.Recorded log) : t'.Recorded (Procs.events a s s' ++ log) := by
  have hsame : SameLives t t' → Procs.events a s s' = [] → t'.Recorded (Procs.events a s s' ++ log) := by
    intro hsame hnil
    rw [hnil]
    exact hrec.same hsame
  by_cases hquiet : a.quiet = true
  · refine hsame (hmoves.sameLives hinv hquiet) ?_
    cases a <;> first | rfl | cases hquiet
  cases hmoves with
  | @proc_exit status p _ hp hexits =>
    have hevents : Procs.events (.proc_exit status) s s' = [.exited p (t.proc p).pid status] := by
      simp [Procs.events, hrep.current, hrep.proc, hp]
    rw [hevents]
    exact hrec.exits hinv hp hexits
  | proc_wait => exact absurd rfl ha
  | @proc_create_kernel p hp =>
    have hcreate := hrec.create hinv.placed hp fun hnone => absurd hnone hinv.booted
    refine hcreate.publish (by simp [Tasks.Tree.live_create]) ?_
    rw [Tasks.Tree.list_create (by simp) (by simp)]
    exact fun hmem => hp (hinv.placed.live p hmem)
  | @fork_create mem kstack p _ hp hfork =>
    cases hfork with
    | no_memory =>
      refine hsame (.refl t) ?_
      simp [Procs.events, hrep.live, hrep'.live]
    | @no_stack c hc =>
      refine hsame (.abandon hc) ?_
      simp [Procs.events, hrep.live, hrep'.live, Tasks.abandon]
    | @created c hc =>
      have hlive : s'.live = c :: s.live := by
        rw [hrep'.live, hrep.live]
        exact Tasks.Tree.live_create t c
      have hevents : Procs.events (.fork_create mem kstack) s s' = [.created c] := by
        rw [← hrep.live] at hc
        simp only [Procs.events, hlive, filter_new hc, List.map_cons, List.map_nil]
      rw [hevents]
      have hcreate := hrec.create hinv.placed hc fun hnone => absurd hnone hinv.booted
      exact hcreate.same (.setProc _ p (fun _ => rfl) (fun _ => rfl) (fun _ => rfl) fun _ => id)
  | @fork_fail p q c stage hp hfork hq hc hnodup =>
    obtain ⟨hcl, hca, -⟩ := hinv.forking (hinv.placed.current_live hp) hfork
    exact hrec.discard hinv hcl hca
  | @fork_reparent p q c stage hp hfork hq hc hnodup =>
    exact hsame ((SameLives.adopt t).trans
      (.setProc _ p (fun _ => rfl) (fun _ => rfl) (fun _ => rfl) fun _ => id)) rfl
  | @fork_publish p c stage hp hfork =>
    obtain ⟨hcl, hca, -⟩ := hinv.forking (hinv.placed.current_live hp) hfork
    have hset : SameLives t (t.setForking p none) :=
      .setProc t p (fun _ => rfl) (fun _ => rfl) (fun _ => rfl) fun _ => id
    exact (hrec.same hset).publish hcl hca
  | _ => exact absurd rfl hquiet

/-- `proc_wait` frees at most one process, which is then logged. -/
theorem recorded_wait {r : WaitResult} (hrep : Rep s t) (hinv : t.Inv) (hrep' : Rep s' t') (hp : t.current = some p)
    (hrun : proc_wait s = .ok (r, s')) (hwaits : t.Waits p r t') (hrec : t.Recorded log) :
    t'.Recorded (Procs.events .proc_wait s s' ++ log) ∧ ∀ pid status, r = .reaped pid status →
      ∃ c ∈ t.list (.children p), (t.proc c).state = .PROC_ZOMBIE ∧ pid = (t.proc c).pid ∧
        status = (t.proc c).exit_status ∧ t'.live = t.live.erase c ∧
        Procs.events .proc_wait s s' = [.reaped c p pid status] := by
  have hcur : s.current = some p := hrep.current.trans hp
  cases hwaits with
  | no_children =>
    simp only [Procs.events, hcur, hrun, List.nil_append]
    exact ⟨hrec, nofun⟩
  | @reaped c hc _ _ _ hz =>
    have hcl := ((hinv.tree.child p (hinv.placed.current_live hp) c).mp hc).1
    have hfreed : t.live.filter (· ∉ t.live.erase c) = [c] := by
      have hiff : ∀ q ∈ t.live, (decide (q ∉ t.live.erase c) = true ↔ (q == c) = true) := by
        intro q hq
        simp [hinv.tree.nodup.mem_erase_iff, hq]
      rw [List.filter_congr fun q hq => Bool.eq_iff_iff.mpr (hiff q hq), List.filter_beq,
        List.count_eq_one_of_mem hinv.tree.nodup hcl]
      rfl
    have hevents : Procs.events .proc_wait s s' = [.reaped c p (t.proc c).pid (t.proc c).exit_status] := by
      have hlive : s'.live = t.live.erase c := hrep'.live
      simp only [Procs.events, hcur, hrun, hrep.live, hlive, hfreed, List.map_cons, List.map_nil]
    rw [hevents]
    refine ⟨hrec.reap hinv hcl hz, fun pid status hr => ?_⟩
    cases hr
    exact ⟨c, hc, hz, rfl, rfl, rfl, rfl⟩
  | killed =>
    simp only [Procs.events, hcur, hrun, List.nil_append]
    exact ⟨hrec, nofun⟩
  | slept =>
    simp only [Procs.events, hcur, hrun, List.nil_append]
    exact ⟨hrec.same (.block hinv hp rfl), nofun⟩

namespace Procs

theorem boot_recorded {idle init : Nat} (hne : idle ≠ init) : (Tasks.boot idle init).Recorded
    [.published init, .created init, .published idle, .created idle] := by
  have hempty : Tasks.empty.Recorded [] :=
    ⟨.nil, fun _ hp => absurd hp List.not_mem_nil, fun _ _ _ he => by simp [last] at he,
      fun _ hp => absurd hp List.not_mem_nil⟩
  have hidle := hempty.create (c := idle) Tasks.empty_placed List.not_mem_nil fun _ => .inl rfl
  have hidle' := hidle.publish (c := idle) (by simp [Tasks.Tree.live_create]) (by
    rw [Tasks.Tree.list_create (by simp) (by simp)]
    exact List.not_mem_nil)
  have hplaced := (Tasks.empty_placed.create (p := idle) List.not_mem_nil).publish (p := idle)
    (by simp [Tasks.Tree.live_create]) (by
      rw [Tasks.Tree.list_create (by simp) (by simp)]
      exact List.not_mem_nil)
  have hlive : init ∉ ((Tasks.empty.create idle).publish idle).live := by
    simpa [Tasks.live_publish, Tasks.Tree.live_create, Tasks.empty] using hne.symm
  have hinit := hidle'.create (c := init) hplaced hlive fun _ => .inr rfl
  have hinit' := hinit.publish (c := init) (by simp [Tasks.Tree.live_create]) (by
    rw [Tasks.Tree.list_create (by simp) (by simp)]
    exact fun hmem => hlive (hplaced.live init hmem))
  exact hinit'.same ((Tasks.SameLives.refl _).of_eq rfl rfl rfl)

/-- The lists and the log of every reachable state agree. -/
theorem recorded_of_reachable {x : Procs × List Event} (hs : recorded.Reachable x) :
    ∃ t, Rep x.1 t ∧ t.Inv ∧ t.Recorded x.2 := by
  refine hs.invariant (P := fun x => ∃ t, Rep x.1 t ∧ t.Inv ∧ t.Recorded x.2) ?_ ?_
  · rintro ⟨s, log⟩ ⟨idle, init, hne, hrun, rfl⟩
    obtain ⟨hwp, hinv⟩ := proc_bootstrap_spec hne
    exact ⟨_, hwp.post hrun, hinv, boot_recorded hne⟩
  · rintro a ⟨s, log⟩ ⟨s', log'⟩ ⟨t, hrep, hinv, hrec⟩ ⟨⟨ha, hrun⟩, hlog⟩
    change log' = events a s s' ++ log at hlog
    subst hlog
    by_cases hwait : a = .proc_wait
    · subst hwait
      obtain ⟨p, hp⟩ := Option.ne_none_iff_exists'.mp ha
      obtain ⟨r, s₁, hok, hpure⟩ := bind_eq_ok_iff.mp hrun
      cases hpure
      obtain ⟨t', hrep', hwaits⟩ := (proc_wait_spec hrep hinv (hrep.current ▸ hp)).post hok
      refine ⟨t', hrep', hwaits.inv hinv (hrep.current ▸ hp), ?_⟩
      exact (recorded_wait hrep hinv hrep' (hrep.current ▸ hp) hok hwaits hrec).1
    · rcases exec_spec hrep hinv ha with ⟨message, hpanic⟩ | hwp
      · rw [show exec a s = _ from hrun] at hpanic
        cases hpanic
      · obtain ⟨t', hrep', hmoves⟩ := hwp.post hrun
        exact ⟨t', hrep', hmoves.inv hinv, recorded_step hrep hinv hrep' hmoves hwait hrec⟩

theorem count_eq_ite {xs : List Nat} {c : Nat} {P : Prop} [Decidable P] (hnodup : xs.Nodup) (hmem : c ∈ xs ↔ P) :
    xs.count c = if P then 1 else 0 := by
  split
  · rename_i hP
    exact List.count_eq_one_of_mem hnodup (hmem.mpr hP)
  · rename_i hP
    exact List.count_eq_zero_of_not_mem fun hc => hP (hmem.mp hc)

theorem listed_iff {c : Nat} (hinv : t.Inv) (hrec : t.Recorded log) :
    (last log c).any Event.listed = true ↔ c ∈ t.list .all_procs := by
  by_cases hc : c ∈ t.live
  · rw [hrec.live c hc, Option.any_some]
    exact Tasks.listed_stage t c
  · refine ⟨fun hany => ?_, fun hall => absurd (hinv.placed.live c hall) hc⟩
    cases hlast : last log c with
    | none => simp [hlast] at hany
    | some e =>
      have hover := hrec.gone c hc e hlast
      rw [hlast, Option.any_some] at hany
      cases e <;> simp [Event.ends, Event.listed] at hover hany

theorem proc_wait_childless (hrep : Rep s t) (hinv : t.Inv) (hp : t.current = some p)
    (hnil : t.list (.children p) = []) : wp proc_wait (fun r _ => r = .no_children) s := by
  simp only [proc_wait, wp_bind]
  refine this_proc_spec hrep hp (isEmpty_spec hrep (Node.alive_children.mpr (hinv.placed.current_live hp)) ?_)
  simp only [hnil, List.isEmpty_nil, if_true, wp_pure]

/-- Every process but those with the pids 0 and 1 is on the list of children of
its parent, which is allocated, once, and on no other such list. The published
processes that were not reaped are on `all_procs` and in the bucket of their
pid once, and no others are. Every log is a history, so a process is reaped only
after its exit and only once, and with the pid and the status of the exit.
`proc_wait` reaps a child of its caller and returns -1 if there is none. -/
theorem family_recorded (hs : recorded.Reachable (s, log)) :
    (∀ c ∈ s.live, (s.proc c).pid ≠ 0 → (s.proc c).pid ≠ 1 → ∃ p ∈ s.live, (s.proc c).parent = some p ∧
      ∀ q ∈ s.live, ∃ xs, s.Listed (.children q) xs ∧ xs.count c = if q = p then 1 else 0) ∧
    (∃ xs, s.Listed .all_procs xs ∧ ∀ c, xs.count c = if (last log c).any Event.listed then 1 else 0) ∧
    (∀ b, ∃ xs, s.Listed (.pid_table b) xs ∧ ∀ c, xs.count c =
      if (last log c).any Event.listed ∧ bucket (s.proc c).pid = b then 1 else 0) ∧
    History log ∧
    ∀ p, s.current = some p → ∃ r s', proc_wait s = .ok (r, s') ∧ (r = .no_children ↔ s.Listed (.children p) []) ∧
      ∀ pid status, r = .reaped pid status → ∃ c ∈ s.live, (s.proc c).parent = some p ∧ (s.proc c).pid = pid ∧
        last log c = some (.exited c pid status) ∧ s'.live = s.live.erase c ∧
        events .proc_wait s s' = [.reaped c p pid status] := by
  obtain ⟨t, hrep, hinv, hrec⟩ := recorded_of_reachable hs
  refine ⟨fun c hc h0 h1 => ?_, ?_, fun b => ?_, hrec.history, fun p hp => ?_⟩
  · rw [hrep.live] at hc
    rw [hrep.proc] at h0 h1 ⊢
    cases hparent : (t.proc c).parent with
    | none => exact (hrec.rooted c hc hparent).elim (absurd · h0) (absurd · h1)
    | some p =>
      have hpl := hinv.placed.live p (hinv.tree.parent c hc p hparent)
      refine ⟨p, hrep.live ▸ hpl, rfl, fun q hq => ?_⟩
      rw [hrep.live] at hq
      have halive := Node.alive_children.mpr hq
      refine ⟨_, listed_of_rep hrep halive, count_eq_ite (hrep.nodup halive) ?_⟩
      rw [hinv.tree.child q hq c, hparent]
      simp [hc, eq_comm]
  · exact ⟨_, listed_of_rep hrep (h := .all_procs) rfl, fun c =>
      count_eq_ite (hrep.nodup (h := .all_procs) rfl) (listed_iff hinv hrec).symm⟩
  · refine ⟨_, listed_of_rep hrep (h := .pid_table b) rfl, fun c =>
      count_eq_ite (hrep.nodup (h := .pid_table b) rfl) ?_⟩
    rw [hinv.tree.bucket, listed_iff hinv hrec, hrep.proc]
  · have hcur : t.current = some p := hrep.current ▸ hp
    have hpl := hinv.placed.current_live hcur
    obtain ⟨r, s', hrun, t', hrep', hwaits⟩ := proc_wait_spec hrep hinv hcur
    obtain ⟨-, hreaped⟩ := recorded_wait hrep hinv hrep' hcur hrun hwaits hrec
    have hlisted := listed_of_rep hrep (Node.alive_children.mpr hpl)
    refine ⟨r, s', hrun, ?_, fun pid status hr => ?_⟩
    · have hnil : s.Listed (.children p) [] ↔ t.list (.children p) = [] := by
        refine ⟨fun hnil => hlisted.unique hnil, fun heq => ?_⟩
        rwa [heq] at hlisted
      rw [hnil]
      refine ⟨fun hr => ?_, fun heq => (proc_wait_childless hrep hinv hcur heq).post hrun⟩
      subst hr
      cases hwaits with
      | no_children heq => exact heq
    · obtain ⟨c, hc, hz, rfl, rfl, hlive, hevents⟩ := hreaped pid status hr
      obtain ⟨hcl, hparent⟩ := (hinv.tree.child p hpl c).mp hc
      have hall := (hinv.zombie_published hcl hz).1
      refine ⟨c, hrep.live ▸ hcl, hrep.proc ▸ hparent, by rw [hrep.proc], ?_, ?_, hevents⟩
      · rw [hrec.live c hcl, Tasks.stage, if_neg (not_not.mpr hall), if_pos hz]
      · rw [hrep'.live, hrep.live]
        exact hlive

theorem exists_recorded (hs : system.Reachable s) : ∃ log, recorded.Reachable (s, log) := by
  induction hs with
  | @init s hs =>
    obtain ⟨idle, init, hne, hrun⟩ := hs
    exact ⟨_, .init ⟨idle, init, hne, hrun, rfl⟩⟩
  | @step s s' a _ hstep ih =>
    obtain ⟨log, hlog⟩ := ih
    exact ⟨events a s s' ++ log, hlog.step ⟨hstep, rfl⟩⟩

/-- Init forks 3 and waits, and 3 exits with status 7. -/
def childExits : List Act := initWaits ++
  [.scheduler 0, .yield, .scheduler 0, .proc_exit 7, .scheduler 0, .yield, .scheduler 0]

/-- Init reaps 3 with the status of its exit. -/
theorem family_recorded_childExits : ∃ s log s', recorded.Reachable (s, log) ∧
    proc_wait s = .ok (.reaped 2 7, s') ∧ ∃ c, last log c = some (.exited c 2 7) ∧ s'.live = s.live.erase c := by
  obtain ⟨s, hrun, hcur, hwait⟩ := exists_of_bootRun childExits (P := fun s => s.current = some 2 ∧
    (proc_wait s).toOption.map Prod.fst = some (.reaped 2 7)) (by decide +kernel)
  obtain ⟨log, hs⟩ := exists_recorded (reachable_bootRun (fun _ hs => hs) (fun _ _ _ _ hstep => hstep) hrun)
  obtain ⟨-, -, -, -, hwaits⟩ := family_recorded hs
  obtain ⟨r, s', hok, -, hreaped⟩ := hwaits 2 hcur
  rw [hok] at hwait
  obtain rfl : r = .reaped 2 7 := by simpa [Except.toOption] using hwait
  obtain ⟨c, -, -, -, hlast, hlive, -⟩ := hreaped 2 7 rfl
  exact ⟨s, log, s', hs, hok, c, hlast, hlive⟩

end Procs

end bobchouos
