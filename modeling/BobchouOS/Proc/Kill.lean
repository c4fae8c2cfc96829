import BobchouOS.Proc.Wait

open lib

namespace bobchouos

open Procs (Act)

variable {s s' : Procs} {t t' : Tasks} {h : Head} {p : Nat}

/-- The places from which `proc_kill` has to wake a process: the timed sleep and
the sleep in its own `proc_wait`. -/
def Place.Interruptible (b : Place) (p : Nat) : Prop := b = .queue .tsleep_list ∨ b = .queue (.wq (.child_wq p))

namespace Tasks

/-- No killed process is in an interruptible sleep. -/
def Heeds (t : Tasks) : Prop :=
  ∀ p ∈ t.list .all_procs, (t.proc p).killed = true → ¬ (t.place p).Interruptible p

/-- A step that moves at most the process `p`, to a place where it may be. -/
theorem Heeds.move (hheeds : t.Heeds) (p : Nat)
    (hall : ∀ q ≠ p, q ∈ t'.list .all_procs → q ∈ t.list .all_procs)
    (hkilled : ∀ q ≠ p, (t'.proc q).killed = true → (t.proc q).killed = true)
    (hplace : ∀ q ≠ p, t'.place q = t.place q)
    (hself : p ∈ t'.list .all_procs → (t'.proc p).killed = true → ¬ (t'.place p).Interruptible p) : t'.Heeds := by
  intro q hq hk
  by_cases hqp : q = p
  · subst hqp
    exact hself hq hk
  · rw [hplace q hqp]
    exact hheeds q (hall q hqp hq) (hkilled q hqp hk)

theorem killed_enter (t : Tasks) (p : Nat) (b : Place) (q : Nat) :
    ((t.enter p b).proc q).killed = (t.proc q).killed := by
  by_cases hqp : q = p
  · subst hqp
    simp [enter, Tasks.setProc, ProcTable.setProc]
  · simp [enter, Tasks.setProc, ProcTable.setProc, hqp]

/-- The process comes to a place that is interruptible only if it is not killed. -/
theorem Heeds.enter {b : Place} (hheeds : t.Heeds) (hb : (t.proc p).killed = true → ¬ b.Interruptible p) :
    (t.enter p b).Heeds := by
  refine hheeds.move p (fun _ _ hq => hq) (fun q _ hk => (killed_enter t p b q).symm.trans hk)
    (fun q hq => Inv.place_enter hq) fun _ hk => ?_
  rw [killed_enter] at hk
  rw [show (t.enter p b).place p = b by simp [Tasks.enter]]
  exact hb hk

theorem Heeds.of_eq (hheeds : t.Heeds) (hall : ∀ q, q ∈ t'.list .all_procs → q ∈ t.list .all_procs)
    (hkilled : ∀ q, (t'.proc q).killed = (t.proc q).killed) (hplace : t'.place = t.place) : t'.Heeds := by
  intro q hq hk
  rw [hplace]
  exact hheeds q (hall q hq) ((hkilled q).symm.trans hk)

theorem Heeds.put {xs : List Nat} (hheeds : t.Heeds) (hh : h ≠ .all_procs) : (t.put h xs).Heeds :=
  hheeds.of_eq (fun q hq => by simpa [Tasks.put, hh.symm] using hq) (fun _ => rfl) rfl

theorem Heeds.setProc {f : Proc → Proc} (hheeds : t.Heeds) (hf : ∀ x, (f x).killed = x.killed) :
    (t.setProc p f).Heeds := by
  refine hheeds.of_eq (fun _ hq => hq) (fun q => ?_) rfl
  by_cases hqp : q = p
  · subst hqp
    simp [Tasks.setProc, ProcTable.setProc, hf]
  · simp [Tasks.setProc, ProcTable.setProc, hqp]

theorem not_interruptible_run (p : Nat) : ¬ (Place.queue .run_queue).Interruptible p := by
  simp [Place.Interruptible]

theorem Heeds.block {xs : List Nat} (hheeds : t.Heeds) (hh : h ≠ .all_procs)
    (hb : (t.proc p).killed = true → ¬ (Place.queue h).Interruptible p) : (t.block h xs p).Heeds := by
  have henter : ((t.put h xs).enter p (.queue h)).Heeds := (hheeds.put hh).enter hb
  exact henter.of_eq (fun _ hq => hq) (fun _ => rfl) rfl

theorem Heeds.wake (hheeds : t.Heeds) (hh : h ≠ .all_procs) : (t.wake h p).Heeds := by
  have hdrop : (t.drop h p).Heeds := hheeds.put hh
  have hpush : ((t.drop h p).push .run_queue p).Heeds := hdrop.put (by simp)
  exact hpush.enter fun _ => not_interruptible_run p

theorem Heeds.wakes (hheeds : t.Heeds) (hh : h ≠ .all_procs) (hwakes : t.Wakes h t') : t'.Heeds := by
  induction hwakes with
  | refl => exact hheeds
  | step _ _ _ ih => exact ih.wake hh

theorem Heeds.adopt {i c : Nat} (hheeds : t.Heeds) : (t.adopt p i c).Heeds := by
  have hset : (t.setProc c fun x => { x with parent := some i }).Heeds := hheeds.setProc fun _ => rfl
  have hdrop : ((t.setProc c fun x => { x with parent := some i }).drop (.children p) c).Heeds := hset.put (by simp)
  exact hdrop.put (by simp)

theorem Heeds.adopts {i : Nat} (hheeds : t.Heeds) (hadopts : t.Adopts p i t') : t'.Heeds := by
  induction hadopts with
  | refl => exact hheeds
  | step _ _ _ ih => exact ih.adopt

theorem Heeds.create {c : Nat} (hheeds : t.Heeds) (hinv : t.Inv) (hc : c ∉ t.live) : (t.create c).Heeds := by
  have hall : (t.create c).list .all_procs = t.list .all_procs := Tree.list_create (by simp) (by simp)
  refine hheeds.move c (fun q _ hq => hall ▸ hq) (fun q hq hk => ?_) (fun q _ => ?_) fun hca => ?_
  · rwa [Tree.proc_create, Function.update_of_ne hq] at hk
  · rw [Tree.place_create]
  · exact absurd (hinv.placed.live c (hall ▸ hca)) hc

theorem Heeds.publish {c : Nat} (hheeds : t.Heeds) : (t.publish c).Heeds := by
  refine hheeds.move c (fun q hqc hq => ?_) (fun q hq hk => ?_) (fun q hq => ?_) fun _ _ => ?_
  · rw [list_publish_all] at hq
    simpa [hqc] using hq
  · simpa [Tasks.publish, Tasks.enter, Tasks.setProc, ProcTable.setProc, push, Tasks.put, hq] using hk
  · simp [Tasks.publish, Tasks.enter, push, Tasks.put, hq]
  · rw [show (t.publish c).place c = .queue .run_queue by
      simp [Tasks.publish, Tasks.enter, Tasks.put]]
    exact not_interruptible_run c

/-- `proc_kill` wakes whom it has to. -/
theorem Heeds.kills {pid : BitVec 32} {r : Int} (hheeds : t.Heeds) (hinv : t.Inv) (hkills : t.Kills pid r t') :
    t'.Heeds := by
  cases hkills with
  | missing => exact hheeds
  | @marked p hall _ hstate =>
    refine hheeds.move p (fun _ _ hq => hq) (fun q hq hk => ?_) (fun _ _ => rfl) fun _ _ hb => ?_
    · simpa [Tasks.setProc, ProcTable.setProc, hq] using hk
    · have hplace := hinv.placed.state p hall
      change (t.place p).Interruptible p at hb
      rcases hb with hb | hb <;> rw [hb] at hplace <;> exact hstate hplace
  | @woken p h hall _ _ hplace _ =>
    have hh : h ≠ .all_procs := by
      rintro rfl
      cases (hinv.placed.queue p hall _ hplace).1
    refine hheeds.move p (fun q _ hq => ?_) (fun q hq hk => ?_) (fun q hq => ?_) fun _ _ => ?_
    · simpa [Tasks.wake, Tasks.enter, Tasks.setProc, push, Tasks.drop, Tasks.put, hh.symm] using hq
    · simpa [Tasks.wake, Tasks.enter, Tasks.setProc, ProcTable.setProc, push, Tasks.drop, Tasks.put, hq] using hk
    · simp [Tasks.wake, Tasks.enter, push, Tasks.drop, Tasks.put, Tasks.setProc, hq]
    · rw [show ((t.setProc p fun x => { x with killed := true }).wake h p).place p = .queue .run_queue by
        simp [Tasks.wake, Tasks.enter]]
      exact not_interruptible_run p

theorem Heeds.exits {status : BitVec 32} (hheeds : t.Heeds) (hexits : t.Exits p status t') : t'.Heeds := by
  cases hexits with
  | exit _ _ hadopts _ _ hwakes _ =>
    have hset := ((hheeds.adopts hadopts).wakes (by simp) hwakes).setProc (p := p)
      (f := fun x => { x with exit_status := status }) fun _ => rfl
    have hdead := hset.enter (p := p) (b := .zombie) fun _ => by simp [Place.Interruptible]
    exact hdead.of_eq (fun _ hq => hq) (fun _ => rfl) rfl

/-- `proc_wait` tests the flag before it sleeps, `sys_sleep` does not. -/
theorem Heeds.moves {a : Act} (hheeds : t.Heeds) (hinv : t.Inv) (hmoves : t.Moves a t')
    (hsleep : ∀ now ms p, a = .sys_sleep now ms → t.current = some p → (t.proc p).killed = false) : t'.Heeds := by
  cases hmoves with
  | @scheduler now timer p xs =>
    have hdrop : (t.drop .run_queue p).Heeds := hheeds.put (by simp)
    have hcpu := hdrop.enter (p := p) (b := .cpu) fun _ => by simp [Place.Interruptible]
    exact hcpu.of_eq (fun _ hq => hq) (fun _ => rfl) rfl
  | yield => exact hheeds.block (by simp) fun _ => not_interruptible_run _
  | wq_sleep => exact hheeds.block (by simp) fun _ => by simp [Place.Interruptible]
  | wq_wake_one _ hwakes => exact hheeds.wakes (by simp) hwakes
  | wq_wake_all _ hwakes => exact hheeds.wakes (by simp) hwakes
  | @sys_sleep now ms p xs ys hp =>
    have hset : (t.setProc p fun x => { x with wake_time := wakeTime now ms }).Heeds := hheeds.setProc fun _ => rfl
    refine hset.block (by simp) fun hk => absurd (hsleep now ms p rfl hp) ?_
    simpa [Tasks.setProc, ProcTable.setProc] using hk
  | sys_sleep_return => exact hheeds.setProc fun _ => rfl
  | wake_expired_sleepers hwakes => exact hheeds.wakes (by simp) hwakes
  | proc_kill hkills => exact hheeds.kills hinv hkills
  | proc_exit _ hexits => exact hheeds.exits hexits
  | @proc_wait p r _ _ hwaits =>
    cases hwaits with
    | no_children => exact hheeds
    | killed => exact hheeds
    | reaped =>
      refine hheeds.of_eq (fun q hq => ?_) (fun _ => rfl) rfl
      exact List.mem_of_mem_erase (by simpa [Tasks.reap, Tasks.free, Tasks.drop, Tasks.put] using hq)
    | slept _ hk => exact hheeds.block (by simp) fun hk' => absurd hk (by simp [hk'])
  | proc_create_kernel hp => exact (hheeds.create hinv hp).publish
  | fork_create _ hfork =>
    cases hfork with
    | no_memory => exact hheeds
    | @no_stack c hc =>
      refine hheeds.move c (fun _ _ hq => hq) (fun q hq hk => ?_) (fun _ _ => rfl) fun hca => ?_
      · simpa [Tasks.abandon, hq] using hk
      · exact absurd (hinv.placed.live c hca) hc
    | created hc => exact (hheeds.create hinv hc).setProc fun _ => rfl
  | @fork_fail p q c =>
    have hfree : (t.discard q c).Heeds :=
      (hheeds.put (h := .children q) (by simp)).of_eq (fun _ hq => hq) (fun _ => rfl) rfl
    exact hfree.setProc fun _ => rfl
  | fork_reparent => exact hheeds.adopt.setProc fun _ => rfl
  | @fork_publish p c =>
    have hset : (t.setForking p none).Heeds := hheeds.setProc fun _ => rfl
    exact hset.publish

end Tasks

namespace Procs

/-- No process with `killed` set sleeps on `tsleep_list` or on its `child_wq`. -/
def KillHeeded (s : Procs) : Prop :=
  ∀ p ∈ s.live, (s.proc p).killed = true →
    (∀ xs, s.Listed .tsleep_list xs → p ∉ xs) ∧ ∀ xs, s.Listed (.wq (.child_wq p)) xs → p ∉ xs

/-- `sys_sleep` is called only by processes that are not killed. -/
def SleepsUnkilled (s : Procs) : Act → Prop
  | .sys_sleep _ _ => ∀ p, s.current = some p → (s.proc p).killed = false
  | _ => True

/-- The runs in which no killed process calls `sys_sleep`. -/
def unkilledSystem : Lts Procs Act where
  init := system.init
  step a s s' := s.SleepsUnkilled a ∧ system.step a s s'

/-- Idle and init are on the run queue after `proc_bootstrap`. -/
theorem boot_heeds {idle init : Nat} : (Tasks.boot idle init).Heeds := by
  intro p _ _ hb
  rcases Tasks.boot_place idle init p with hplace | hplace
  · rw [hplace] at hb
    exact Tasks.not_interruptible_run p hb
  · rw [hplace] at hb
    simp [Place.Interruptible] at hb

/-- In the runs in which no killed process calls `sys_sleep` no killed process is
in an interruptible sleep. -/
theorem killHeeded_of_unkilled (hs : unkilledSystem.Reachable s) : s.KillHeeded := by
  obtain ⟨t, hrep, hinv, hheeds⟩ : ∃ t, Rep s t ∧ t.Inv ∧ t.Heeds := by
    refine hs.invariant (P := fun s => ∃ t, Rep s t ∧ t.Inv ∧ t.Heeds) ?_ ?_
    · rintro s ⟨idle, init, hne, hrun⟩
      obtain ⟨hwp, hinv⟩ := proc_bootstrap_spec hne
      exact ⟨_, hwp.post hrun, hinv, boot_heeds⟩
    · rintro a s s' ⟨t, hrep, hinv, hheeds⟩ ⟨hunkilled, ha, hrun⟩
      rcases exec_spec hrep hinv ha with ⟨message, hpanic⟩ | hwp
      · rw [hrun] at hpanic
        cases hpanic
      · obtain ⟨t', hrep', hmoves⟩ := hwp.post hrun
        refine ⟨t', hrep', hmoves.inv hinv, hheeds.moves hinv hmoves fun now ms p ha hp => ?_⟩
        subst ha
        rw [← hrep.proc]
        exact hunkilled p (hrep.current.trans hp)
  intro p hp hk
  rw [hrep.live] at hp
  rw [hrep.proc] at hk
  have hnot : ∀ h, h.isQueue = true → (Node.head h).alive t.live = true → (Place.queue h).Interruptible p →
      ∀ xs, s.Listed h xs → p ∉ xs := by
    intro h hqueue halive hb xs hxs hmem
    rw [hxs.unique (listed_of_rep hrep halive), hinv.placed.mem h hqueue halive] at hmem
    exact hheeds p hmem.1 hk (hmem.2 ▸ hb)
  exact ⟨hnot .tsleep_list rfl rfl (.inl rfl), hnot _ rfl (Node.alive_child_wq.mpr hp) (.inr rfl)⟩

/-- Init forks 3, which runs until the timer. -/
def childRuns : List Act := [.scheduler 0, .yield, .scheduler 0] ++ proc_fork 3 ++ [.yield, .scheduler 0, .yield, .scheduler 0]

/-- Process 3 forks 4, waits for it and is killed by init. -/
def killedWaits : List Act := childRuns ++ proc_fork 4 ++ [.proc_wait, .scheduler 0, .proc_kill 2]

/-- The kill wakes process 3 from its `proc_wait`. -/
theorem killHeeded_of_unkilled_killedWaits : ∃ s, unkilledSystem.Reachable s ∧ 3 ∈ s.live ∧
    (s.proc 3).killed = true ∧ (s.proc 3).state = .PROC_RUNNABLE ∧ s.KillHeeded := by
  obtain ⟨s, hrun, hlive, hkilled, hstate⟩ := exists_of_bootRun killedWaits
    (P := fun s => 3 ∈ s.live ∧ (s.proc 3).killed = true ∧ (s.proc 3).state = .PROC_RUNNABLE) (by decide +kernel)
  have hs : unkilledSystem.Reachable s := by
    refine reachable_bootRun (fun _ hs => hs) (fun a ha s s' hstep => ⟨?_, hstep⟩) hrun
    have hnot : ∀ now ms, a ≠ .sys_sleep now ms := by
      rintro now ms rfl
      simp [killedWaits, childRuns, proc_fork] at ha
    cases a with
    | sys_sleep now ms => exact absurd rfl (hnot now ms)
    | _ => trivial
  exact ⟨s, hs, hlive, hkilled, hstate, killHeeded_of_unkilled hs⟩

/-- Process 3 is preempted in user mode, killed while it is on the run queue, and
calls `sys_sleep` when it runs again. -/
def killedSleeps : List Act := childRuns ++
  [.yield, .scheduler 0, .proc_kill 2, .yield, .scheduler 0, .yield, .scheduler 0, .sys_sleep 0 1000]

/-- A killed process sleeps on `tsleep_list`. -/
theorem kill_lost : ∃ s, system.Reachable s ∧ ¬ s.KillHeeded := by
  obtain ⟨s, hrun, hlive, hkilled, hon⟩ := exists_of_bootRun killedSleeps
    (P := fun s => 3 ∈ s.live ∧ (s.proc 3).killed = true ∧ s.links.Ring (.head .tsleep_list) [.link .tsleep_link 3])
    (by decide +kernel)
  refine ⟨s, reachable_bootRun (fun _ hs => hs) (fun _ _ _ _ hstep => hstep) hrun, fun hheeded => ?_⟩
  exact (hheeded 3 hlive hkilled).1 [3] hon (by simp)

end Procs

end bobchouos
