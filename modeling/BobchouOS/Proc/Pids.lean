import BobchouOS.Proc.Kill

open lib

namespace bobchouos

open Procs (Act)

/-- The steps that call `alloc_pid`. -/
def Procs.Act.allocatesPid : Act → Bool
  | .proc_create_kernel _ | .fork_create (some _) _ => true
  | _ => false

variable {s s' : Procs} {t t' t'' : Tasks} {h : Head} {p c : Nat}

namespace Tasks

/-- The pids given out so far are below the counter, which is not negative as an
`int` yet, and those of the first two processes are the only ones below 2. -/
structure Numbered (t : Tasks) : Prop where
  two_le : 2 ≤ t.next_pid.toNat
  next_le : t.next_pid.toNat ≤ 2 ^ 31
  lt : ∀ p ∈ t.live, (t.proc p).pid.toNat < t.next_pid.toNat
  distinct : ∀ p ∈ t.live, ∀ q ∈ t.live, (t.proc p).pid = (t.proc q).pid → p = q
  ordinary : ∀ p ∈ t.live, (t.proc p).parent ≠ none → 2 ≤ (t.proc p).pid.toNat

/-- A step that gives out no pid. -/
structure KeepsPids (t t' : Tasks) : Prop where
  next : t'.next_pid = t.next_pid
  live : ∀ q ∈ t'.live, q ∈ t.live
  pid : ∀ q ∈ t'.live, (t'.proc q).pid = (t.proc q).pid
  rooted : ∀ q ∈ t'.live, (t.proc q).parent = none → (t'.proc q).parent = none

namespace KeepsPids

theorem refl (t : Tasks) : KeepsPids t t := ⟨rfl, fun _ => id, fun _ _ => rfl, fun _ _ => id⟩

theorem trans (hkeeps : KeepsPids t t') (hkeeps' : KeepsPids t' t'') : KeepsPids t t'' where
  next := hkeeps'.next.trans hkeeps.next
  live q hq := hkeeps.live q (hkeeps'.live q hq)
  pid q hq := (hkeeps'.pid q hq).trans (hkeeps.pid q (hkeeps'.live q hq))
  rooted q hq hnone := hkeeps'.rooted q hq (hkeeps.rooted q (hkeeps'.live q hq) hnone)

theorem of_proc (hnext : t'.next_pid = t.next_pid) (hlive : ∀ q ∈ t'.live, q ∈ t.live) (hproc : t'.proc = t.proc) :
    KeepsPids t t' :=
  ⟨hnext, hlive, fun q _ => by rw [hproc], fun q _ hnone => by rwa [hproc]⟩

theorem put {xs : List Nat} (t : Tasks) (h : Head) : KeepsPids t (t.put h xs) := .of_proc rfl (fun _ => id) rfl

theorem setProc (t : Tasks) (p : Nat) (f : Proc → Proc) (hpid : ∀ x, (f x).pid = x.pid)
    (hparent : (t.proc p).parent = none → (f (t.proc p)).parent = none) : KeepsPids t (t.setProc p f) := by
  refine ⟨rfl, fun _ => id, fun q _ => ?_, fun q _ hnone => ?_⟩
  · by_cases hqp : q = p
    · subst hqp
      simp [Tasks.setProc, ProcTable.setProc, hpid]
    · simp [Tasks.setProc, ProcTable.setProc, hqp]
  · by_cases hqp : q = p
    · subst hqp
      simpa [Tasks.setProc, ProcTable.setProc] using hparent hnone
    · simpa [Tasks.setProc, ProcTable.setProc, hqp] using hnone

theorem enter (t : Tasks) (p : Nat) (b : Place) : KeepsPids t (t.enter p b) :=
  (setProc t p (fun x => { x with state := b.state }) (fun _ => rfl) id).trans (.of_proc rfl (fun _ => id) rfl)

theorem block {xs : List Nat} (t : Tasks) (h : Head) (p : Nat) : KeepsPids t (t.block h xs p) :=
  ((put t h).trans (enter _ p _)).trans (.of_proc rfl (fun _ => id) rfl)

theorem wake (t : Tasks) (h : Head) (p : Nat) : KeepsPids t (t.wake h p) :=
  ((put t h).trans (put _ .run_queue)).trans (enter _ p _)

theorem wakes (hwakes : t.Wakes h t') : KeepsPids t t' := by
  induction hwakes with
  | refl => exact .refl t
  | step _ _ _ ih => exact ih.trans (.wake _ _ _)

theorem adopt {i : Nat} (hinv : t.Inv) (hp : p ∈ t.live) (hc : c ∈ t.list (.children p)) :
    KeepsPids t (t.adopt p i c) := by
  have hparent := ((hinv.tree.child p hp c).mp hc).2
  have hset : KeepsPids t (t.setProc c fun x => { x with parent := some i }) :=
    .setProc t c _ (fun _ => rfl) fun hnone => by rw [hparent] at hnone; cases hnone
  exact (hset.trans (put _ _)).trans (put _ _)

theorem adopts {i : Nat} (hinv : t.Inv) (hp : p ∈ t.live) (hi : t.init_proc = some i) (hadopts : t.Adopts p i t') :
    KeepsPids t t' := by
  induction hadopts with
  | refl => exact .refl t
  | @step t₁ c xs hadopts hlist _ ih =>
    obtain ⟨hinv₁, hlive₁, -⟩ := hadopts.inv hinv hp hi
    exact ih.trans (.adopt hinv₁ (hlive₁ ▸ hp) (by simp [hlist]))

theorem kills {pid : BitVec 32} {r : Int} (hkills : t.Kills pid r t') : KeepsPids t t' := by
  cases hkills with
  | missing => exact .refl t
  | marked => exact .setProc t _ _ (fun _ => rfl) id
  | woken => exact (KeepsPids.setProc t _ (fun x => { x with killed := true }) (fun _ => rfl) id).trans (.wake _ _ _)

theorem exits {status : BitVec 32} (hinv : t.Inv) (hp : t.current = some p) (hexits : t.Exits p status t') :
    KeepsPids t t' := by
  cases hexits with
  | @exit i q t₁ t₂ hi _ hadopts _ _ hwakes _ =>
    have hset : KeepsPids t₂ (t₂.setProc p fun x => { x with exit_status := status }) := .setProc t₂ p _ (fun _ => rfl) id
    exact ((((adopts hinv (hinv.placed.current_live hp) hi hadopts).trans (wakes hwakes)).trans hset).trans
      (enter _ p .zombie)).trans (.of_proc rfl (fun _ => id) rfl)

theorem waits {r : WaitResult} (hwaits : t.Waits p r t') : KeepsPids t t' := by
  cases hwaits with
  | no_children => exact .refl t
  | killed => exact .refl t
  | reaped => exact .of_proc rfl (fun q hq => List.mem_of_mem_erase hq) rfl
  | slept => exact .block t _ p

theorem publish (t : Tasks) (c : Nat) : KeepsPids t (t.publish c) :=
  (((put t .all_procs).trans (put _ .run_queue)).trans (enter _ c _)).trans (put _ _)

end KeepsPids

namespace Numbered

theorem keep (hnum : t.Numbered) (hkeeps : KeepsPids t t') : t'.Numbered := by
  refine ⟨?_, ?_, fun q hq => ?_, fun q hq q' hq' heq => ?_, fun q hq hparent => ?_⟩
  · rw [hkeeps.next]
    exact hnum.two_le
  · rw [hkeeps.next]
    exact hnum.next_le
  · rw [hkeeps.next, hkeeps.pid q hq]
    exact hnum.lt q (hkeeps.live q hq)
  · rw [hkeeps.pid q hq, hkeeps.pid q' hq'] at heq
    exact hnum.distinct q (hkeeps.live q hq) q' (hkeeps.live q' hq') heq
  · rw [hkeeps.pid q hq]
    exact hnum.ordinary q (hkeeps.live q hq) fun hnone => hparent (hkeeps.rooted q hq hnone)

theorem next_succ (hlt : t.next_pid.toNat < 2 ^ 31) : (t.next_pid + 1).toNat = t.next_pid.toNat + 1 := by
  rw [BitVec.toNat_add, show (1 : BitVec 32).toNat = 1 from rfl]
  omega

theorem abandon (hnum : t.Numbered) (hc : c ∉ t.live) (hlt : t.next_pid.toNat < 2 ^ 31) : (t.abandon c).Numbered := by
  have hnext : (t.abandon c).next_pid.toNat = t.next_pid.toNat + 1 := next_succ hlt
  have hproc : ∀ q ∈ t.live, (t.abandon c).proc q = t.proc q := by
    intro q hq
    have hqc : q ≠ c := fun heq => hc (heq ▸ hq)
    simp [Tasks.abandon, hqc]
  have htwo := hnum.two_le
  refine ⟨by omega, by omega, fun q hq => ?_, fun q hq q' hq' heq => ?_, fun q hq => ?_⟩
  · rw [hnext, hproc q hq]
    have := hnum.lt q hq
    omega
  · rw [hproc q hq, hproc q' hq'] at heq
    exact hnum.distinct q hq q' hq' heq
  · rw [hproc q hq]
    exact hnum.ordinary q hq

/-- A new process has the pid that the counter had. -/
theorem create (hnum : t.Numbered) (hc : c ∉ t.live) (hlt : t.next_pid.toNat < 2 ^ 31) : (t.create c).Numbered := by
  have hnext : (t.create c).next_pid.toNat = t.next_pid.toNat + 1 := by
    rw [← next_succ hlt]
    unfold Tasks.create
    split <;> rfl
  have hself : ((t.create c).proc c).pid = t.next_pid := by
    rw [Tree.proc_create, Function.update_self]
  have hproc : ∀ q ∈ t.live, (t.create c).proc q = t.proc q := by
    intro q hq
    have hqc : q ≠ c := fun heq => hc (heq ▸ hq)
    rw [Tree.proc_create, Function.update_of_ne hqc]
  have hne : ∀ q ∈ t.live, (t.proc q).pid ≠ t.next_pid := by
    intro q hq heq
    have := hnum.lt q hq
    rw [heq] at this
    omega
  have htwo := hnum.two_le
  have hlive : ∀ q ∈ (t.create c).live, q = c ∨ q ∈ t.live := by
    intro q hq
    rw [Tree.live_create] at hq
    exact List.mem_cons.mp hq
  refine ⟨by omega, by omega, fun q hq => ?_, fun q hq q' hq' heq => ?_, fun q hq hparent => ?_⟩
  · rw [hnext]
    rcases hlive q hq with rfl | hq
    · rw [hself]
      omega
    · rw [hproc q hq]
      have := hnum.lt q hq
      omega
  · rcases hlive q hq with hqc | hq <;> rcases hlive q' hq' with hqc' | hq'
    · rw [hqc, hqc']
    · rw [hqc, hself, hproc q' hq'] at heq
      exact absurd heq.symm (hne q' hq')
    · rw [hqc', hself, hproc q hq] at heq
      exact absurd heq (hne q hq)
    · rw [hproc q hq, hproc q' hq'] at heq
      exact hnum.distinct q hq q' hq' heq
  · rcases hlive q hq with rfl | hq
    · rw [hself]
      exact htwo
    · rw [hproc q hq] at hparent ⊢
      exact hnum.ordinary q hq hparent

theorem moves {a : Act} (hnum : t.Numbered) (hinv : t.Inv) (hmoves : t.Moves a t')
    (hmem : ∀ kstack, a ≠ .fork_create none kstack)
    (hlt : a.allocatesPid = true → t.next_pid.toNat < 2 ^ 31) : t'.Numbered := by
  cases hmoves with
  | @scheduler now timer p xs =>
    have hput : KeepsPids t (t.drop .run_queue p) := .put t _
    exact hnum.keep ((hput.trans (.enter _ p .cpu)).trans (.of_proc rfl (fun _ => id) rfl))
  | yield => exact hnum.keep (.block t _ _)
  | wq_sleep => exact hnum.keep (.block t _ _)
  | wq_wake_one _ hwakes => exact hnum.keep (.wakes hwakes)
  | wq_wake_all _ hwakes => exact hnum.keep (.wakes hwakes)
  | @sys_sleep now ms p =>
    have hset : KeepsPids t (t.setProc p fun x => { x with wake_time := wakeTime now ms }) :=
      .setProc t p _ (fun _ => rfl) id
    exact hnum.keep (hset.trans (.block _ _ _))
  | sys_sleep_return => exact hnum.keep (.setProc t _ _ (fun _ => rfl) id)
  | wake_expired_sleepers hwakes => exact hnum.keep (.wakes hwakes)
  | proc_kill hkills => exact hnum.keep (.kills hkills)
  | proc_exit hp hexits => exact hnum.keep (.exits hinv hp hexits)
  | proc_wait _ hwaits => exact hnum.keep (.waits hwaits)
  | @proc_create_kernel p hp => exact (hnum.create hp (hlt rfl)).keep (.publish _ p)
  | @fork_create mem kstack p _ _ hfork =>
    cases mem with
    | none => exact absurd rfl (hmem kstack)
    | some c =>
      cases hfork with
      | no_memory => exact hnum
      | no_stack hc => exact hnum.abandon hc (hlt rfl)
      | created hc => exact (hnum.create hc (hlt rfl)).keep (.setProc _ p _ (fun _ => rfl) id)
  | @fork_fail p q c =>
    have hdrop : KeepsPids t (t.discard q c) := .of_proc rfl (fun q hq => List.mem_of_mem_erase hq) rfl
    exact hnum.keep (hdrop.trans (.setProc _ p _ (fun _ => rfl) id))
  | @fork_reparent p q c stage _ _ hq hc =>
    exact hnum.keep ((KeepsPids.adopt hinv hq hc).trans (.setProc _ p _ (fun _ => rfl) id))
  | @fork_publish p c =>
    have hset : KeepsPids t (t.setForking p none) := .setProc t p _ (fun _ => rfl) id
    exact hnum.keep (hset.trans (.publish _ c))

end Numbered

end Tasks

namespace Procs

/-- What `proc_kill` does with a pid: it marks the process that has it, or there
is none. -/
def Marks (s s' : Procs) (pid : BitVec 32) (r : Int) : Prop :=
  (r = 0 ∧ ∃ p, s.Published p ∧ (s.proc p).pid = pid ∧ (s'.proc p).killed = true ∧
      ∀ q ∈ s.live, q ≠ p → (s'.proc q).killed = (s.proc q).killed) ∨
    (r = -1 ∧ (∀ p, s.Published p → (s.proc p).pid ≠ pid) ∧ ∀ q ∈ s.live, (s'.proc q).killed = (s.proc q).killed)

/-- The pids are unique and of use to their processes. `proc_fork` returns the pid
of its child after the last step. The processes without a parent are idle and init. -/
structure PidsUsable (s : Procs) : Prop where
  distinct : ∀ p ∈ s.live, ∀ q ∈ s.live, (s.proc p).pid = (s.proc q).pid → p = q
  nonneg : ∀ p ∈ s.live, 0 ≤ (s.proc p).pid.toInt
  fork : ∀ c, s.Enabled (.fork_publish c) → 0 < (s.proc c).pid.toInt
  kill : ∀ pid, ∃ r s', bobchouos.proc_kill pid s = .ok (r, s') ∧ s.Marks s' pid r
  exit : ∀ p status, s.current = some p → (s.proc p).parent ≠ none →
    ∃ s', bobchouos.proc_exit status s = .ok ((), s')

/-- The runs in which `alloc_pid` is called only as long as the counter is not
negative. -/
def countedSystem : Lts Procs Act where
  init := system.init
  step a s s' := (a.allocatesPid = true → 0 ≤ s.next_pid.toInt) ∧ system.step a s s'

end Procs

namespace Tasks

theorem boot_numbered {idle init : Nat} (hne : idle ≠ init) : (boot idle init).Numbered := by
  have hidle : ((boot idle init).proc idle).pid = 0 := by
    simp [boot, publish, create, enter, Tasks.setProc, ProcTable.setProc, push, put, empty, hne]
  have hinit : ((boot idle init).proc init).pid = 1 := by
    simp [boot, publish, create, enter, Tasks.setProc, ProcTable.setProc, push, put, empty]
  have hroot : ∀ p, ((boot idle init).proc p).parent = none := by
    intro p
    by_cases hpi : p = init <;> by_cases hpd : p = idle <;>
      simp [boot, publish, create, enter, Tasks.setProc, ProcTable.setProc, push, put, empty, hpi, hpd, hne]
  have hlive : ∀ p ∈ (boot idle init).live, p = init ∨ p = idle := by
    intro p hp
    simpa [boot, publish, create, enter, Tasks.setProc, ProcTable.setProc, push, put, empty] using hp
  refine ⟨Nat.le_refl 2, Nat.le_of_lt (by decide : 2 < 2 ^ 31), fun p hp => ?_, fun p hp q hq heq => ?_, fun p _ hparent => absurd (hroot p) hparent⟩
  · rcases hlive p hp with rfl | rfl
    · rw [hinit]
      exact Nat.lt_succ_self 1
    · rw [hidle]
      exact Nat.zero_lt_two
  · rcases hlive p hp with hp | hp <;> rcases hlive q hq with hq | hq
    · rw [hp, hq]
    · rw [hp, hq, hinit, hidle] at heq
      cases heq
    · rw [hp, hq, hinit, hidle] at heq
      cases heq
    · rw [hp, hq]

namespace Numbered

variable {q : Nat}

theorem toInt_eq (hnum : t.Numbered) (hp : p ∈ t.live) : (t.proc p).pid.toInt = (t.proc p).pid.toNat := by
  have hlt := hnum.lt p hp
  have hle := hnum.next_le
  rw [BitVec.toInt_eq_toNat_of_lt (by omega)]

end Numbered

end Tasks

theorem Tasks.Kills.marks {pid : BitVec 32} {r : Int} (hkills : t.Kills pid r t') (hrep : Rep s t) (hrep' : Rep s' t') :
    s.Marks s' pid r := by
  have hsetKilled : ∀ q p, q ≠ p → (((t.setProc p fun x => { x with killed := true }).proc q).killed = (t.proc q).killed) := by
    intro q p hqp
    simp [Tasks.setProc, ProcTable.setProc, hqp]
  have hself : ∀ p, ((t.setProc p fun x => { x with killed := true }).proc p).killed = true := by
    intro p
    simp [Tasks.setProc, ProcTable.setProc]
  unfold Procs.Marks
  rw [hrep.proc, hrep'.proc]
  cases hkills with
  | missing hnone => exact .inr ⟨rfl, fun p hp => hnone p ((Procs.published_iff hrep).mp hp), fun _ _ => rfl⟩
  | @marked p hall hpid =>
    exact .inl ⟨rfl, p, (Procs.published_iff hrep).mpr hall, hpid, hself p, fun q _ hqp => hsetKilled q p hqp⟩
  | @woken p h hall hpid =>
    refine .inl ⟨rfl, p, (Procs.published_iff hrep).mpr hall, hpid, ?_, fun q _ hqp => ?_⟩
    · have hkeep := Tasks.killed_enter (((t.setProc p fun x => { x with killed := true }).drop h p).push .run_queue p) p
        (.queue .run_queue) p
      exact hkeep.trans (hself p)
    · have hkeep := Tasks.killed_enter (((t.setProc p fun x => { x with killed := true }).drop h p).push .run_queue p) p
        (.queue .run_queue) q
      exact hkeep.trans (hsetKilled q p hqp)

namespace Procs

theorem pidsUsable_of_numbered (hrep : Rep s t) (hinv : t.Inv) (hnum : t.Numbered) : s.PidsUsable := by
  refine ⟨?_, ?_, ?_, fun pid => ?_, fun p status hp hparent => ?_⟩
  · rw [hrep.live, hrep.proc]
    exact hnum.distinct
  · intro p hp
    rw [hrep.live] at hp
    rw [hrep.proc, hnum.toInt_eq hp]
    omega
  · rintro c ⟨p, hp, hfork⟩
    rw [hrep.current] at hp
    rw [hrep.proc] at hfork ⊢
    obtain ⟨hc, -, hparent⟩ := hinv.tree.fork p (hinv.placed.current_live hp) c _ hfork
    have htwo := hnum.ordinary c hc hparent
    rw [hnum.toInt_eq hc]
    omega
  · obtain ⟨r, s', hrun, t', hrep', hkills⟩ :=
      (show wp (proc_kill pid) _ _ from proc_kill_spec hrep hinv)
    exact ⟨r, s', hrun, hkills.marks hrep hrep'⟩
  · rw [hrep.current] at hp
    rw [hrep.proc] at hparent
    have hlive := hinv.placed.current_live hp
    have htwo := hnum.ordinary p hlive hparent
    have hpid : 1 < (t.proc p).pid.toInt := by
      rw [hnum.toInt_eq hlive]
      omega
    obtain ⟨_, s', hrun, -⟩ :=
      (show wp (proc_exit status) _ _ from proc_exit_spec hrep hinv hp hpid)
    exact ⟨s', hrun⟩

/-- Without memory for the structure nothing happens. -/
theorem fork_create_none {kstack : Bool} (ha : s.Enabled (.fork_create none kstack))
    (hrun : exec (.fork_create none kstack) s = .ok ((), s')) : s' = s := by
  obtain ⟨p, hp, -⟩ := ha
  have hspec : wp (fork_create none kstack) (fun _ s' => s' = s) s := by
    simp only [fork_create, this_proc, proc_create, wp_bind, wp_get, hp, wp_pure]
  exact hspec.post hrun

/-- In the runs in which the counter does not become negative before a call of
`alloc_pid` the pids are unique and of use. -/
theorem pidsUsable_of_counted (hs : countedSystem.Reachable s) : s.PidsUsable := by
  obtain ⟨t, hrep, hinv, hnum⟩ : ∃ t, Rep s t ∧ t.Inv ∧ t.Numbered := by
    refine hs.invariant (P := fun s => ∃ t, Rep s t ∧ t.Inv ∧ t.Numbered) ?_ ?_
    · rintro s ⟨idle, init, hne, hrun⟩
      obtain ⟨hwp, hinv⟩ := proc_bootstrap_spec hne
      exact ⟨_, hwp.post hrun, hinv, Tasks.boot_numbered hne⟩
    · rintro a s s' ⟨t, hrep, hinv, hnum⟩ ⟨hcounted, ha, hrun⟩
      by_cases hmem : ∃ kstack, a = .fork_create none kstack
      · obtain ⟨kstack, rfl⟩ := hmem
        rw [fork_create_none ha hrun]
        exact ⟨t, hrep, hinv, hnum⟩
      rcases exec_spec hrep hinv ha with ⟨message, hpanic⟩ | hwp
      · rw [hrun] at hpanic
        cases hpanic
      · obtain ⟨t', hrep', hmoves⟩ := hwp.post hrun
        refine ⟨t', hrep', hmoves.inv hinv,
          hnum.moves hinv hmoves (fun kstack heq => hmem ⟨kstack, heq⟩) fun halloc => ?_⟩
        have hsign := hcounted halloc
        rw [hrep.next_pid] at hsign
        rw [BitVec.toInt_eq_toNat_cond] at hsign
        split at hsign <;> omega
  exact pidsUsable_of_numbered hrep hinv hnum

theorem step_of_run {a : Act} (hrun : run [a] s = some s') : system.step a s s' := by
  unfold run at hrun
  split at hrun
  · rename_i ha
    cases hexec : exec a s with
    | error halt =>
      rw [hexec] at hrun
      cases hrun
    | ok x =>
      rw [hexec] at hrun
      cases hrun
      exact ⟨ha, hexec⟩
  · cases hrun

/-- Idle has run and init is on the CPU. -/
def initRuns : List Act := [.scheduler 0, .yield, .scheduler 0]

/-- Init forks and its child has pid 2. -/
theorem pidsUsable_of_counted_fork : ∃ s, countedSystem.Reachable s ∧ 3 ∈ s.live ∧ (s.proc 3).pid = 2 ∧
    s.PidsUsable := by
  obtain ⟨s, hrun, hsign, hfork⟩ := exists_of_bootRun initRuns
    (P := fun s => 0 ≤ s.next_pid.toInt ∧
      (run [.fork_create (some 3) true] s).any (fun s' => decide (3 ∈ s'.live ∧ (s'.proc 3).pid = 2)) = true)
    (by decide +kernel)
  have hs : countedSystem.Reachable s := by
    refine reachable_bootRun (fun _ hs => hs) (fun a ha s s' hstep => ⟨fun halloc => ?_, hstep⟩) hrun
    have hnone : ∀ a ∈ initRuns, a.allocatesPid = false := by decide
    rw [hnone a ha] at halloc
    cases halloc
  cases hrun' : run [.fork_create (some 3) true] s with
  | none =>
    rw [hrun'] at hfork
    cases hfork
  | some s' =>
    rw [hrun', Option.any_some, decide_eq_true_eq] at hfork
    have hs' : countedSystem.Reachable s' := hs.step ⟨fun _ => hsign, step_of_run hrun'⟩
    exact ⟨s', hs', hfork.1, hfork.2, pidsUsable_of_counted hs'⟩

/-- The state after `n` calls of `proc_fork` by init without memory for a stack. -/
theorem counter_reaches (n : Nat) : ∃ s t, system.Reachable s ∧ Rep s t ∧ t.Inv ∧ t.current = some 2 ∧
    (t.proc 2).forking = none ∧ 3 ∉ t.live ∧ t.next_pid = BitVec.ofNat 32 (n + 2) := by
  induction n with
  | zero =>
    obtain ⟨s, hrun, hcur, hfork, hlive, hnext⟩ := exists_of_bootRun initRuns
      (P := fun s => s.current = some 2 ∧ (s.proc 2).forking = none ∧ 3 ∉ s.live ∧ s.next_pid = 2) (by decide +kernel)
    have hs : system.Reachable s := reachable_bootRun (fun _ hs => hs) (fun _ _ _ _ hstep => hstep) hrun
    obtain ⟨t, hrep, hinv⟩ := rep_of_reachable hs
    rw [hrep.current] at hcur
    rw [hrep.proc] at hfork
    rw [hrep.live] at hlive
    rw [hrep.next_pid] at hnext
    exact ⟨s, t, hs, hrep, hinv, hcur, hfork, hlive, hnext⟩
  | succ n ih =>
    obtain ⟨s, t, hs, hrep, hinv, hcur, hfork, hlive, hnext⟩ := ih
    obtain ⟨_, s', hrun, hrep'⟩ := fork_create_no_stack_spec hrep hinv hcur hlive
    have ha : s.Enabled (.fork_create (some 3) false) := by
      refine ⟨2, hrep.current.trans hcur, by rw [hrep.proc]; exact hfork, ?_⟩
      rintro c hc
      cases hc
      rw [hrep.live]
      exact hlive
    refine ⟨s', t.abandon 3, hs.step ⟨ha, hrun⟩, hrep', hinv.abandon hlive, hcur, ?_, hlive, ?_⟩
    · simpa [Tasks.abandon] using hfork
    · change t.next_pid + 1 = _
      rw [hnext]
      apply BitVec.eq_of_toNat_eq
      simp [BitVec.toNat_add, BitVec.toNat_ofNat]

/-- After 2147483646 calls of `proc_fork` that failed, the child of the next one
has a negative pid. -/
theorem pid_negative : ∃ s, system.Reachable s ∧ ¬ s.PidsUsable := by
  obtain ⟨s, t, hs, hrep, hinv, hcur, hfork, hlive, hnext⟩ := counter_reaches (2 ^ 31 - 2)
  obtain ⟨_, s', hrun, hrep'⟩ := fork_create_created_spec hrep hinv hcur hlive
  have ha : s.Enabled (.fork_create (some 3) true) := by
    refine ⟨2, hrep.current.trans hcur, by rw [hrep.proc]; exact hfork, ?_⟩
    rintro c hc
    cases hc
    rw [hrep.live]
    exact hlive
  refine ⟨s', hs.step ⟨ha, hrun⟩, fun husable => ?_⟩
  have hpid := husable.nonneg 3 (by
    rw [hrep'.live]
    change 3 ∈ (t.create 3).live
    rw [Tasks.Tree.live_create]
    exact List.mem_cons_self)
  have hneg : (s'.proc 3).pid = BitVec.ofNat 32 (2 ^ 31) := by
    rw [hrep'.proc]
    simpa [Tasks.setForking, Tasks.setProc, ProcTable.setProc, Tasks.Tree.proc_create] using hnext
  rw [hneg] at hpid
  exact absurd hpid (by decide)

end Procs

end bobchouos
