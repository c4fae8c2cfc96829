import BobchouOS.Proc.Queues
import BobchouOS.Trap.Model

open lib

namespace bobchouos

open Procs (Act)

variable {s s' : Procs} {t t' t'' : Tasks} {h : Head} {p c : Nat}

namespace Tasks

/-- The sleepers are in the order of their wake times. -/
def Sorted (t : Tasks) : Prop :=
  (t.list .tsleep_list).Pairwise fun a b => (t.proc a).wake_time ≤ (t.proc b).wake_time

/-- A step that sets no timer and adds no sleeper, and after which the same
process runs or none. -/
structure KeepsTimer (t t' : Tasks) : Prop where
  timer : t'.timer = t.timer
  current : t'.current = t.current ∨ t'.current = none
  sub : (t'.list .tsleep_list).Sublist (t.list .tsleep_list)
  wake_time : ∀ q ∈ t'.list .tsleep_list, (t'.proc q).wake_time = (t.proc q).wake_time

namespace KeepsTimer

theorem refl (t : Tasks) : KeepsTimer t t := ⟨rfl, .inl rfl, .refl _, fun _ _ => rfl⟩

theorem trans (hkeeps : KeepsTimer t t') (hkeeps' : KeepsTimer t' t'') : KeepsTimer t t'' where
  timer := hkeeps'.timer.trans hkeeps.timer
  current := by
    rcases hkeeps'.current with heq | hnone
    · rw [heq]
      exact hkeeps.current
    · exact .inr hnone
  sub := hkeeps'.sub.trans hkeeps.sub
  wake_time q hq := (hkeeps'.wake_time q hq).trans (hkeeps.wake_time q (hkeeps'.sub.subset hq))

theorem of_eq (htimer : t'.timer = t.timer) (hcurrent : t'.current = t.current ∨ t'.current = none)
    (hlist : t'.list .tsleep_list = t.list .tsleep_list)
    (hwake : ∀ q ∈ t.list .tsleep_list, (t'.proc q).wake_time = (t.proc q).wake_time) : KeepsTimer t t' :=
  ⟨htimer, hcurrent, by rw [hlist], by rw [hlist]; exact hwake⟩

theorem put {xs : List Nat} (t : Tasks) (hh : h ≠ .tsleep_list) : KeepsTimer t (t.put h xs) :=
  .of_eq rfl (.inl rfl) (by simp [Tasks.put, hh.symm]) fun _ _ => rfl

theorem drop (t : Tasks) (h : Head) (p : Nat) : KeepsTimer t (t.drop h p) := by
  by_cases hh : h = .tsleep_list
  · subst hh
    refine ⟨rfl, .inl rfl, ?_, fun _ _ => rfl⟩
    simpa [Tasks.drop, Tasks.put] using List.erase_sublist
  · exact put t hh

theorem setProc (t : Tasks) (p : Nat) (f : Proc → Proc)
    (hf : p ∈ t.list .tsleep_list → (f (t.proc p)).wake_time = (t.proc p).wake_time) :
    KeepsTimer t (t.setProc p f) := by
  refine .of_eq rfl (.inl rfl) rfl fun q hq => ?_
  by_cases hqp : q = p
  · subst hqp
    simpa [Tasks.setProc, ProcTable.setProc] using hf hq
  · simp [Tasks.setProc, ProcTable.setProc, hqp]

theorem enter (t : Tasks) (p : Nat) (b : Place) : KeepsTimer t (t.enter p b) :=
  (setProc t p (fun x => { x with state := b.state }) fun _ => rfl).trans (.of_eq rfl (.inl rfl) rfl fun _ _ => rfl)

theorem block {xs : List Nat} (t : Tasks) (p : Nat) (hh : h ≠ .tsleep_list) : KeepsTimer t (t.block h xs p) :=
  ((put t hh).trans (enter _ p _)).trans (.of_eq rfl (.inr rfl) rfl fun _ _ => rfl)

theorem wake (t : Tasks) (h : Head) (p : Nat) : KeepsTimer t (t.wake h p) :=
  ((drop t h p).trans (put _ (by simp))).trans (enter _ p _)

theorem wakes (hwakes : t.Wakes h t') : KeepsTimer t t' := by
  induction hwakes with
  | refl => exact .refl t
  | step _ _ _ ih => exact ih.trans (.wake _ _ _)

theorem adopt (t : Tasks) (p i c : Nat) : KeepsTimer t (t.adopt p i c) :=
  ((setProc t c (fun x => { x with parent := some i }) fun _ => rfl).trans (drop _ _ c)).trans (put _ (by simp))

theorem adopts {i : Nat} (hadopts : t.Adopts p i t') : KeepsTimer t t' := by
  induction hadopts with
  | refl => exact .refl t
  | step _ _ _ ih => exact ih.trans (.adopt _ _ _ _)

theorem kills {pid : BitVec 32} {r : Int} (hkills : t.Kills pid r t') : KeepsTimer t t' := by
  cases hkills with
  | missing => exact .refl t
  | marked => exact .setProc t _ _ fun _ => rfl
  | woken => exact (setProc t _ (fun x => { x with killed := true }) fun _ => rfl).trans (.wake _ _ _)

theorem exits {status : BitVec 32} (hexits : t.Exits p status t') : KeepsTimer t t' := by
  cases hexits with
  | @exit i q t₁ t₂ _ _ hadopts _ _ hwakes _ =>
    have hset : KeepsTimer t₂ (t₂.setProc p fun x => { x with exit_status := status }) := .setProc t₂ p _ fun _ => rfl
    exact ((((adopts hadopts).trans (wakes hwakes)).trans hset).trans (enter _ p .zombie)).trans
      (.of_eq rfl (.inr rfl) rfl fun _ _ => rfl)

theorem waits {r : WaitResult} (hwaits : t.Waits p r t') : KeepsTimer t t' := by
  cases hwaits with
  | no_children => exact .refl t
  | killed => exact .refl t
  | reaped =>
    exact (((drop t _ _).trans (drop _ _ _)).trans (drop _ _ _)).trans (.of_eq rfl (.inl rfl) rfl fun _ _ => rfl)
  | slept => exact .block t p (by simp)

theorem publish (t : Tasks) (c : Nat) : KeepsTimer t (t.publish c) :=
  (((put t (by simp)).trans (put _ (by simp))).trans (enter _ c _)).trans (put _ (by simp))

theorem create (hinv : t.Inv) (hc : c ∉ t.live) : KeepsTimer t (t.create c) := by
  refine .of_eq ?_ (.inl (Tree.current_create t c)) (Tree.list_create (by simp) (by simp)) fun q hq => ?_
  · unfold Tasks.create
    split <;> rfl
  · have hqc : q ≠ c := fun heq => hc (heq ▸ hinv.placed.list_live (h := .tsleep_list) rfl rfl q hq)
    rw [Tree.proc_create, Function.update_of_ne hqc]

theorem abandon (hinv : t.Inv) (hc : c ∉ t.live) : KeepsTimer t (t.abandon c) := by
  refine .of_eq rfl (.inl rfl) rfl fun q hq => ?_
  have hqc : q ≠ c := fun heq => hc (heq ▸ hinv.placed.list_live (h := .tsleep_list) rfl rfl q hq)
  simp [Tasks.abandon, hqc]

/-- Only the scheduler sets the timer here, and only `sys_sleep` adds a sleeper. -/
theorem moves {a : Act} (hinv : t.Inv) (hmoves : t.Moves a t') (hsched : ∀ now, a ≠ .scheduler now)
    (hsleep : ∀ now ms, a ≠ .sys_sleep now ms) : KeepsTimer t t' := by
  cases hmoves with
  | scheduler => exact absurd rfl (hsched _)
  | sys_sleep => exact absurd rfl (hsleep _ _)
  | yield => exact .block t _ (by simp)
  | wq_sleep => exact .block t _ (by simp)
  | wq_wake_one _ hwakes => exact .wakes hwakes
  | wq_wake_all _ hwakes => exact .wakes hwakes
  | @sys_sleep_return p hp =>
    exact .setProc t p _ fun hmem => absurd hmem (hinv.placed.current_free hp rfl rfl)
  | wake_expired_sleepers hwakes => exact .wakes hwakes
  | proc_kill hkills => exact .kills hkills
  | proc_exit _ hexits => exact .exits hexits
  | proc_wait _ hwaits => exact .waits hwaits
  | @proc_create_kernel p hp => exact (create hinv hp).trans (.publish _ p)
  | @fork_create mem kstack p _ _ hfork =>
    cases hfork with
    | no_memory => exact .refl t
    | no_stack hc => exact .abandon hinv hc
    | created hc => exact (create hinv hc).trans (.setProc _ p _ fun _ => rfl)
  | @fork_fail p q c =>
    have hfree : KeepsTimer t (t.discard q c) := (drop t _ c).trans (.of_eq rfl (.inl rfl) rfl fun _ _ => rfl)
    exact hfree.trans (.setProc _ p _ fun _ => rfl)
  | @fork_reparent p q c => exact (adopt t q p c).trans (.setProc _ p _ fun _ => rfl)
  | @fork_publish p c =>
    have hset : KeepsTimer t (t.setForking p none) := .setProc t p _ fun _ => rfl
    exact hset.trans (.publish _ c)

end KeepsTimer

namespace Sorted

theorem keep (hsorted : t.Sorted) (hkeeps : KeepsTimer t t') : t'.Sorted := by
  refine (hsorted.sublist hkeeps.sub).imp_of_mem fun ha hb hle => ?_
  rw [hkeeps.wake_time _ ha, hkeeps.wake_time _ hb]
  exact hle

/-- A new sleeper comes behind those that wake no later. -/
theorem sleep {time : Nat} {xs ys : List Nat} (hsorted : t.Sorted) (hp : p ∉ t.list .tsleep_list)
    (hplace : t.SleepPlace time xs ys) : (t.sleep time (xs ++ p :: ys) p).Sorted := by
  have hlist : (t.sleep time (xs ++ p :: ys) p).list .tsleep_list = xs ++ p :: ys := by
    simp [Tasks.sleep, Tasks.block, Tasks.enter, Tasks.setProc, Tasks.put]
  have hself : ((t.sleep time (xs ++ p :: ys) p).proc p).wake_time = time := by
    simp [Tasks.sleep, Tasks.block, Tasks.enter, Tasks.setProc, ProcTable.setProc, Tasks.put]
  have hother : ∀ q ∈ xs ++ ys, ((t.sleep time (xs ++ p :: ys) p).proc q).wake_time = (t.proc q).wake_time := by
    intro q hq
    have hqp : q ≠ p := fun heq => hp (heq ▸ hplace.split ▸ hq)
    simp [Tasks.sleep, Tasks.block, Tasks.enter, Tasks.setProc, ProcTable.setProc, Tasks.put, hqp]
  unfold Tasks.Sorted at hsorted
  rw [hplace.split, List.pairwise_append] at hsorted
  obtain ⟨hxs, hys, hcross⟩ := hsorted
  -- the first of the later sleepers wakes first of them
  have hlate : ∀ q ∈ ys, time ≤ (t.proc q).wake_time := by
    cases ys with
    | nil => simp
    | cons y ys =>
      have hy := hplace.late y rfl
      intro q hq
      rcases List.mem_cons.mp hq with rfl | hq
      · omega
      · have := (List.pairwise_cons.mp hys).1 q hq
        omega
  unfold Tasks.Sorted
  rw [hlist, List.pairwise_append, List.pairwise_cons]
  refine ⟨hxs.imp_of_mem fun ha hb hle => ?_, ⟨fun q hq => ?_, hys.imp_of_mem fun ha hb hle => ?_⟩, fun a ha b hb => ?_⟩
  · rwa [hother _ (List.mem_append_left _ ha), hother _ (List.mem_append_left _ hb)]
  · rw [hself, hother q (List.mem_append_right _ hq)]
    exact hlate q hq
  · rwa [hother _ (List.mem_append_right _ ha), hother _ (List.mem_append_right _ hb)]
  · rw [hother a (List.mem_append_left _ ha)]
    rcases List.mem_cons.mp hb with rfl | hb
    · rw [hself]
      exact hplace.early a ha
    · rw [hother b (List.mem_append_right _ hb)]
      exact hcross a ha b hb

end Sorted

/-- The timer is set early enough for a process that was dispatched at the time `now`. -/
structure TimerSet (t : Tasks) (now : Nat) : Prop where
  interval : t.timer ≤ now + TIMER_INTERVAL
  sleepers : ∀ q ∈ t.list .tsleep_list, t.timer ≤ (t.proc q).wake_time

theorem TimerSet.keep {now : Nat} (hset : t.TimerSet now) (hkeeps : KeepsTimer t t') : t'.TimerSet now := by
  refine ⟨?_, fun q hq => ?_⟩
  · rw [hkeeps.timer]
    exact hset.interval
  · rw [hkeeps.timer, hkeeps.wake_time q hq]
    exact hset.sleepers q (hkeeps.sub.subset hq)

/-- The scheduler looks at the first sleeper only. -/
theorem Sorted.dispatch {now : Nat} (hsorted : t.Sorted) (p : Nat) :
    Sorted { t.dispatch p with timer := t.deadline now } ∧
      TimerSet { t.dispatch p with timer := t.deadline now } now := by
  have hlist : (t.dispatch p).list .tsleep_list = t.list .tsleep_list := by
    simp [Tasks.dispatch, Tasks.enter, Tasks.setProc, Tasks.drop, Tasks.put]
  have hwake : ∀ q, ((t.dispatch p).proc q).wake_time = (t.proc q).wake_time := by
    intro q
    by_cases hqp : q = p
    · subst hqp
      simp [Tasks.dispatch, Tasks.enter, Tasks.setProc, ProcTable.setProc, Tasks.drop, Tasks.put]
    · simp [Tasks.dispatch, Tasks.enter, Tasks.setProc, ProcTable.setProc, Tasks.drop, Tasks.put, hqp]
  have hmod : (now + TIMER_INTERVAL) % 2 ^ 64 ≤ now + TIMER_INTERVAL := Nat.mod_le _ _
  refine ⟨?_, ?_, ?_⟩
  · change ((t.dispatch p).list .tsleep_list).Pairwise _
    rw [hlist]
    simp only [hwake]
    exact hsorted
  · change t.deadline now ≤ _
    unfold Tasks.deadline
    split
    · exact hmod
    · split <;> omega
  · change ∀ q ∈ (t.dispatch p).list .tsleep_list, t.deadline now ≤ ((t.dispatch p).proc q).wake_time
    intro q hq
    rw [hlist] at hq
    rw [hwake q]
    unfold Tasks.Sorted at hsorted
    unfold Tasks.deadline
    cases hcases : t.list .tsleep_list with
    | nil =>
      rw [hcases] at hq
      cases hq
    | cons first rest =>
      rw [hcases] at hq hsorted
      have hfirst : (t.proc first).wake_time ≤ (t.proc q).wake_time := by
        rcases List.mem_cons.mp hq with rfl | hq
        · exact Nat.le_refl _
        · exact (List.pairwise_cons.mp hsorted).1 q hq
      change (if _ then _ else _) ≤ _
      split
      · exact hfirst
      · rename_i hlt
        exact (Nat.le_of_not_lt hlt).trans hfirst

end Tasks

namespace Clocked

variable {x x' : Clocked}

/-- The points after `set_timer(-1)`, up to the test of `need_resched`. -/
def Disarmed (point : Point) (need_resched : Bool) : Prop :=
  ∃ back, point = .trap .disarmed back ∨ point = .trap .expired back ∨
    point = .trap (.ret false) back ∧ need_resched = true

theorem Disarmed.not_deliverable {point : Point} {need_resched : Bool} (h : Disarmed point need_resched) :
    point.deliverable = false := by
  obtain ⟨back, rfl | rfl | ⟨rfl, -⟩⟩ := h <;> rfl

/-- The timer is set for the current process, or it is in a trap that ends with
`yield` or `proc_exit`. -/
structure Inv (x : Clocked) (t : Tasks) : Prop where
  rep : Rep x.procs t
  tasks : t.Inv
  sorted : t.Sorted
  timer : ∀ p, t.current = some p → (x.armed = true ∧ t.TimerSet x.dispatched) ∨ Disarmed (x.point p) x.need_resched

/-- The current process takes a step that does not touch the timer. -/
theorem Inv.keep {procs : Procs} (hinv : x.Inv t) (hrep : Rep procs t') (htasks : t'.Inv) (hkeeps : t.KeepsTimer t')
    (hprocs : x'.procs = procs) (harmed : x'.armed = x.armed) (hdispatched : x'.dispatched = x.dispatched)
    (hpoint : ∀ p, t.current = some p → t'.current = some p → Disarmed (x.point p) x.need_resched →
      Disarmed (x'.point p) x'.need_resched) : x'.Inv t' := by
  refine ⟨hprocs ▸ hrep, htasks, hinv.sorted.keep hkeeps, fun p hp => ?_⟩
  have hcur : t.current = some p := by
    rcases hkeeps.current with heq | hnone
    · rw [← heq]
      exact hp
    · rw [hnone] at hp
      cases hp
  rw [harmed, hdispatched]
  rcases hinv.timer p hcur with ⟨hset, htimer⟩ | hdis
  · exact .inl ⟨hset, htimer.keep hkeeps⟩
  · exact .inr (hpoint p hcur hp hdis)

/-- No process runs after the step. -/
theorem Inv.idle {procs : Procs} (hrep : Rep procs t) (htasks : t.Inv) (hsorted : t.Sorted) (hprocs : x'.procs = procs)
    (hnone : t.current = none) : x'.Inv t :=
  ⟨hprocs ▸ hrep, htasks, hsorted, fun p hp => by rw [hnone] at hp; cases hp⟩

theorem wpe_of_exec_spec {a : Procs.Act} {Q : Unit → Procs → Prop} (hrep : Rep s t) (hinv : t.Inv)
    (ha : s.Enabled a) (hQ : ∀ s' t', Rep s' t' → t.Moves a t' → Q () s') : wpe (fun _ => True) (Procs.exec a) Q s := by
  rcases exec_spec hrep hinv ha with ⟨message, hpanic⟩ | hwp
  · unfold wpe
    rw [hpanic]
    trivial
  · refine wpe_mono hwp.wpe ?_
    rintro _ s' ⟨t', hrep', hmoves⟩
    exact hQ s' t' hrep' hmoves

/-- A step of the processes that is neither of the scheduler nor `sys_sleep`. -/
theorem Inv.moves {a : Procs.Act} (hinv : x.Inv t) (ha : x.procs.Enabled a) (hsched : ∀ now, a ≠ .scheduler now)
    (hsleep : ∀ now ms, a ≠ .sys_sleep now ms) {Q : Unit → Clocked → Prop}
    (hQ : ∀ procs t', Rep procs t' → t'.Inv → t.KeepsTimer t' → Q () { x with procs }) :
    wpe (fun _ => True) (onProcs (Procs.exec a)) Q x := by
  unfold onProcs
  rw [wpe_onField]
  refine wpe_of_exec_spec hinv.rep hinv.tasks ha fun procs t' hrep' hmoves => ?_
  exact hQ procs t' hrep' (hmoves.inv hinv.tasks) (.moves hinv.tasks hmoves hsched hsleep)

theorem goto_spec {p : Nat} {point : Point} {Q : Unit → Clocked → Prop} :
    wpe (fun _ => True) (goto p point) Q x ↔ Q () { x with point := Function.update x.point p point } := Iff.rfl

theorem start_spec {a : Procs.Act} {Q : Unit → Clocked → Prop}
    (hQ : ∀ point, Q () { x with point }) : wpe (fun _ => True) (start a) Q x := by
  cases a <;> exact hQ _

/-- A point of a system call or a kernel thread is not behind `set_timer(-1)`. -/
theorem Inv.armed {p : Nat} (sie : Bool) (hinv : x.Inv t) (hp : t.current = some p)
    (hpoint : (x.point p).deliverable = true ∨ x.point p = .kernel sie) :
    x.armed = true ∧ t.TimerSet x.dispatched := by
  rcases hinv.timer p hp with hset | ⟨back, hdis⟩
  · exact hset
  · rcases hpoint with hdel | hpoint
    · rw [Disarmed.not_deliverable ⟨back, hdis⟩] at hdel
      cases hdel
    · rw [hpoint] at hdis
      rcases hdis with heq | heq | ⟨heq, -⟩ <;> cases heq

theorem exec_call {a : Procs.Act} (hinv : x.Inv t) (ha : x.Enabled (.call a)) :
    wpe (fun _ => True) (exec (.call a)) (fun _ x' => ∃ t', x'.Inv t') x := by
  obtain ⟨hcall, ha, p, sie, hp, hpoint⟩ := ha
  have hcur : t.current = some p := hinv.rep.current ▸ hp
  have hset := hinv.armed sie hcur (.inr hpoint)
  simp only [exec, wpe_bind, wpe_get]
  by_cases hsleep : ∃ now ms, a = .sys_sleep now ms
  · obtain ⟨now, ms, rfl⟩ := hsleep
    unfold onProcs
    rw [wpe_onField]
    refine wpe_of_exec_spec hinv.rep hinv.tasks ha fun procs t' hrep' hmoves => ?_
    refine start_spec fun point => ⟨t', ?_⟩
    have htasks := hmoves.inv hinv.tasks
    cases hmoves with
    | @sys_sleep now ms p xs ys hp' hplace =>
      have hfree := hinv.tasks.placed.current_free hp' (h := .tsleep_list) rfl rfl
      exact .idle hrep' htasks (hinv.sorted.sleep hfree hplace) rfl rfl
  · refine hinv.moves ha ?_ (fun now ms heq => hsleep ⟨now, ms, heq⟩) fun procs t' hrep' htasks hkeeps => ?_
    · rintro now rfl
      cases hcall
    · refine start_spec fun point => ⟨t', hrep', htasks, hinv.sorted.keep hkeeps, fun q hq => .inl ⟨hset.1, ?_⟩⟩
      exact hset.2.keep hkeeps

theorem exec_scheduler (hinv : x.Inv t) (ha : x.Enabled .scheduler) :
    wpe (fun _ => True) (exec .scheduler) (fun _ x' => ∃ t', x'.Inv t') x := by
  have hnone : t.current = none := hinv.rep.current ▸ ha
  simp only [exec, wpe_bind, wpe_get, onProcs, wpe_onField, wpe_modify]
  cases hlist : t.list .run_queue with
  | nil =>
    unfold wpe
    rw [scheduler_panic hinv.rep hlist]
    trivial
  | cons p xs =>
    refine wpe_mono (scheduler_spec hinv.rep hinv.tasks.placed hlist).wpe fun _ procs hrep' => ⟨_, hrep', ?_, ?_, ?_⟩
    · have hmoves : t.Moves (.scheduler x.time) { t.dispatch p with timer := t.deadline x.time } :=
        .scheduler hnone hlist (hinv.rep.nodup (h := .run_queue) rfl)
      exact hmoves.inv hinv.tasks
    · exact (hinv.sorted.dispatch p).1
    · exact fun q _ => .inl ⟨rfl, (hinv.sorted.dispatch p).2⟩

/-- The current process goes to another point and the timer is set. -/
theorem Inv.goto {p : Nat} {point : Point} (hinv : x.Inv t) (hp : t.current = some p)
    (hset : (x.armed = true ∧ t.TimerSet x.dispatched) ∨ Disarmed point x.need_resched) :
    Inv { x with point := Function.update x.point p point } t := by
  refine ⟨hinv.rep, hinv.tasks, hinv.sorted, fun q hq => ?_⟩
  rw [hp] at hq
  cases hq
  rcases hset with hset | hdis
  · exact .inl hset
  · exact .inr (by simpa using hdis)

/-- `set_timer(-1)` and the statements behind it. -/
theorem exec_timer {p : Nat} {back : Point} {stage : TrapStage} (hinv : x.Inv t) (hp : t.current = some p)
    (hstage : stage = .timer ∨ stage = .disarmed ∨ stage = .expired) (hpoint : x.point p = .trap stage back) :
    wpe (fun _ => True) (trapStep p back stage) (fun _ x' => ∃ t', x'.Inv t') x := by
  rcases hstage with rfl | rfl | rfl
  · simp only [trapStep, disarm, wpe_bind, wpe_modify, goto_spec]
    refine ⟨{ t with timer := 2 ^ 64 - 1 }, hinv.rep.setTimer _, hinv.tasks.setTimer _, hinv.sorted, fun q hq => ?_⟩
    rw [show t.current = some q from hq] at hp
    cases hp
    exact .inr ⟨back, .inl (Function.update_self ..)⟩
  · simp only [trapStep, wpe_bind, wpe_get]
    refine hinv.moves (a := .wake_expired_sleepers x.time) ?_ (by simp) (by simp) fun procs t' hrep' htasks hkeeps => ?_
    · change x.procs.current ≠ none
      rw [hinv.rep.current, hp]
      simp
    · rw [goto_spec]
      refine ⟨t', hinv.keep hrep' htasks hkeeps rfl rfl rfl fun q hq _ _ => ?_⟩
      rw [hp] at hq
      cases hq
      exact ⟨back, .inr (.inl (Function.update_self ..))⟩
  · simp only [trapStep, wpe_bind, wpe_modify, goto_spec]
    refine ⟨t, hinv.rep, hinv.tasks, hinv.sorted, fun q hq => ?_⟩
    rw [hp] at hq
    cases hq
    exact .inr ⟨back, .inr (.inr ⟨Function.update_self .., rfl⟩)⟩

/-- The tests at the end of a trap. A process that is behind `set_timer(-1)` gives
up the CPU here. -/
theorem exec_ret {p : Nat} {back : Point} {sie : Bool} (hinv : x.Inv t) (hp : t.current = some p)
    (hpoint : x.point p = .trap (.ret sie) back) :
    wpe (fun _ => True) (trapStep p back (.ret sie)) (fun _ x' => ∃ t', x'.Inv t') x := by
  have hrunning : x.procs.current ≠ none := by
    rw [hinv.rep.current, hp]
    simp
  simp only [trapStep, wpe_bind, onProcs, wpe_onField, wpe_get, wpe_ite]
  refine (getProc_spec hinv.rep (hinv.tasks.placed.current_live hp) ?_).wpe
  refine ⟨fun _ => ?_, fun _ => ⟨fun _ => ?_, fun hno => ?_⟩⟩
  · refine wpe_of_exec_spec (a := .proc_exit (-1)) hinv.rep hinv.tasks hrunning fun procs t' hrep' hmoves => ⟨t', ?_⟩
    have hkeeps : t.KeepsTimer t' := .moves hinv.tasks hmoves (by simp) (by simp)
    refine .idle hrep' (hmoves.inv hinv.tasks) (hinv.sorted.keep hkeeps) rfl ?_
    cases hmoves with
    | proc_exit _ hexits =>
      cases hexits
      rfl
  · simp only [wpe_modify, goto_spec]
    refine wpe_mono (yield_spec hinv.rep hinv.tasks.placed hp).wpe fun _ procs hrep' => ?_
    have hmoves : t.Moves .yield (t.block .run_queue (t.list .run_queue ++ [p]) p) := .yield hp
    exact ⟨_, .idle hrep' (hmoves.inv hinv.tasks) (hinv.sorted.keep (.block t p (by simp))) rfl rfl⟩
  · rw [goto_spec]
    refine ⟨t, hinv.goto hp (.inl ?_)⟩
    rcases hinv.timer p hp with hset | ⟨back', hdis⟩
    · exact hset
    · rw [hpoint] at hdis
      rcases hdis with heq | heq | ⟨-, hneed⟩
      · cases heq
      · cases heq
      · exact absurd hneed hno

/-- The other statements of traps do not come after `set_timer(-1)`. -/
theorem exec_trap {p : Nat} {back : Point} {stage : TrapStage} (hinv : x.Inv t) (hp : t.current = some p)
    (hpoint : x.point p = .trap stage back) :
    wpe (fun _ => True) (trapStep p back stage) (fun _ x' => ∃ t', x'.Inv t') x := by
  have hset : (∀ sie, stage ≠ .ret sie) → stage ≠ .disarmed → stage ≠ .expired →
      x.armed = true ∧ t.TimerSet x.dispatched := by
    intro hret hdisarmed hexpired
    rcases hinv.timer p hp with hset | ⟨back', hdis⟩
    · exact hset
    · rw [hpoint] at hdis
      rcases hdis with heq | heq | ⟨heq, -⟩ <;> cases heq
      · exact absurd rfl hdisarmed
      · exact absurd rfl hexpired
      · exact absurd rfl (hret false)
  cases stage with
  | timer => exact exec_timer hinv hp (.inl rfl) hpoint
  | disarmed => exact exec_timer hinv hp (.inr (.inl rfl)) hpoint
  | expired => exact exec_timer hinv hp (.inr (.inr rfl)) hpoint
  | ret sie => exact exec_ret hinv hp hpoint
  | resume sie => exact ⟨t, hinv.goto hp (.inl (hset (by simp) (by simp) (by simp)))⟩
  | external wq =>
    replace hset := hset (by simp) (by simp) (by simp)
    cases wq with
    | none => exact ⟨t, hinv.goto hp (.inl hset)⟩
    | some n =>
      simp only [trapStep, wpe_bind]
      refine hinv.moves (a := .wq_wake_all (.other n)) ⟨?_, rfl⟩ (by simp) (by simp) fun procs t' hrep' htasks hkeeps => ?_
      · rw [hinv.rep.current, hp]
        simp
      · exact ⟨t', hrep', htasks, hinv.sorted.keep hkeeps, fun q _ => .inl ⟨hset.1, hset.2.keep hkeeps⟩⟩
  | exception killed =>
    replace hset := hset (by simp) (by simp) (by simp)
    simp only [trapStep, wpe_bind, onProcs, wpe_onField]
    refine (setProc_spec hinv.rep (hinv.tasks.placed.current_live hp) fun procs hrep' => ?_).wpe
    have hkeeps : t.KeepsTimer (t.setProc p fun x => { x with killed := x.killed || killed }) := .setProc t p _ fun _ => rfl
    exact ⟨_, hrep', hinv.tasks.setData (fun _ => rfl) (fun _ => rfl) (fun _ => rfl) fun _ => rfl,
      hinv.sorted.keep hkeeps, fun q _ => .inl ⟨hset.1, hset.2.keep hkeeps⟩⟩

theorem exec_inv {a : Act} (hinv : x.Inv t) (ha : x.Enabled a) :
    wpe (fun _ => True) (exec a) (fun _ x' => ∃ t', x'.Inv t') x := by
  cases a with
  | tick time => exact ⟨t, hinv.rep, hinv.tasks, hinv.sorted, hinv.timer⟩
  | scheduler => exact exec_scheduler hinv ha
  | call a => exact exec_call hinv ha
  | set_sie sie =>
    obtain ⟨p, sie', hp, hpoint⟩ := ha
    have hcur : t.current = some p := hinv.rep.current ▸ hp
    simp only [exec, wpe_bind, wpe_get, hp]
    exact ⟨t, hinv.goto hcur (.inl (hinv.armed sie' hcur (.inr hpoint)))⟩
  | user_trap_ret =>
    obtain ⟨p, sie, hp, hpoint⟩ := ha
    have hcur : t.current = some p := hinv.rep.current ▸ hp
    simp only [exec, wpe_bind, wpe_get, hp, hpoint]
    exact ⟨t, hinv.goto hcur (.inl (hinv.armed sie hcur (.inr hpoint)))⟩
  | ecall =>
    obtain ⟨p, hp, hpoint⟩ := ha
    have hcur : t.current = some p := hinv.rep.current ▸ hp
    simp only [exec, wpe_bind, wpe_get, hp]
    exact ⟨t, hinv.goto hcur (.inl (hinv.armed true hcur (.inl (by rw [hpoint]; rfl))))⟩
  | exception killed =>
    obtain ⟨p, hp, hpoint⟩ := ha
    have hcur : t.current = some p := hinv.rep.current ▸ hp
    simp only [exec, wpe_bind, wpe_get, hp]
    exact ⟨t, hinv.goto hcur (.inl (hinv.armed true hcur (.inl (by rw [hpoint]; rfl))))⟩
  | interrupt stage =>
    obtain ⟨-, p, hp, hdel⟩ := ha
    have hcur : t.current = some p := hinv.rep.current ▸ hp
    simp only [exec, wpe_bind, wpe_get, hp]
    exact ⟨t, hinv.goto hcur (.inl (hinv.armed true hcur (.inl hdel)))⟩
  | trap =>
    obtain ⟨p, stage, back, hp, hpoint⟩ := ha
    simp only [exec, wpe_bind, wpe_get, hp, hpoint]
    exact exec_trap hinv (hinv.rep.current ▸ hp) hpoint

/-- Whenever an interrupt can be delivered to the current process, the timer is
set: to a deadline no later than the wake time of any sleeper, and at most one
interval after the process was dispatched. -/
theorem timer_armed (hx : system.Reachable x) {p : Nat} (hp : x.procs.current = some p)
    (hdel : (x.point p).deliverable = true) :
    x.armed = true ∧ x.procs.timer ≤ x.dispatched + TIMER_INTERVAL ∧
      ∃ xs, x.procs.Listed .tsleep_list xs ∧ ∀ q ∈ xs, x.procs.timer ≤ (x.procs.proc q).wake_time := by
  obtain ⟨t, hinv⟩ : ∃ t, x.Inv t := by
    refine hx.invariant (P := fun x => ∃ t, x.Inv t) ?_ ?_
    · rintro x ⟨⟨idle, init, hne, hrun⟩, -, -⟩
      obtain ⟨hwp, hinv⟩ := proc_bootstrap_spec hne
      exact ⟨_, .idle (hwp.post hrun) hinv .nil rfl rfl⟩
    · rintro a x x' ⟨t, hinv⟩ ⟨ha, hrun⟩
      exact (exec_inv hinv ha).post hrun
  obtain ⟨harmed, hset⟩ := hinv.armed true (hinv.rep.current ▸ hp) (.inl hdel)
  have htimer : x.procs.timer = t.timer := congrArg ProcTable.timer hinv.rep.table
  refine ⟨harmed, htimer ▸ hset.interval, _, Procs.listed_of_rep hinv.rep rfl, fun q hq => ?_⟩
  rw [htimer, hinv.rep.proc]
  exact hset.sleepers q hq

/-- Idle has been dispatched at the time 5 and has executed `intr_on`. -/
theorem timer_armed_idle : ∃ x, system.Reachable x ∧ x.procs.current = some 1 ∧ (x.point 1).deliverable = true ∧
    x.dispatched = 5 ∧ x.procs.timer ≤ 5 + TIMER_INTERVAL := by
  obtain ⟨⟨_, s₀, hboot, hrep₀⟩, hinv₀⟩ := proc_bootstrap_spec (show 1 ≠ 2 by decide)
  obtain ⟨x₀, rfl, hx₀⟩ : ∃ x : Clocked, x = ⟨s₀, fun _ => .kernel false, false, 5, 0, false⟩ ∧ system.Reachable x :=
    ⟨_, rfl, .init ⟨⟨1, 2, by decide, hboot⟩, rfl, rfl⟩⟩
  have hsched : wp (exec .scheduler) (fun _ x => x.procs.current = some 1 ∧ x.point 1 = .kernel false ∧
      x.dispatched = 5) ⟨s₀, fun _ => .kernel false, false, 5, 0, false⟩ := by
    simp only [exec, wp_bind, wp_get, onProcs, wp_onField, wp_modify]
    refine wp_mono (scheduler_spec hrep₀ hinv₀.placed (show (Tasks.boot 1 2).list .run_queue = 1 :: [2] from rfl)) fun _ s₁ hrep₁ => ?_
    exact ⟨hrep₁.current, trivial, trivial⟩
  obtain ⟨_, x₁, hrun₁, hcur₁, hpoint₁, hdis₁⟩ := hsched
  have hx₁ : system.Reachable x₁ := hx₀.step (a := .scheduler) ⟨hrep₀.current, hrun₁⟩
  have hsie : wp (exec (.set_sie true)) (fun _ x => x.procs.current = some 1 ∧ (x.point 1).deliverable = true ∧
      x.dispatched = 5) x₁ := by
    simp only [exec, wp_bind, wp_get, hcur₁, goto, wp_modify]
    exact ⟨trivial, by rw [Function.update_self]; rfl, hdis₁⟩
  obtain ⟨_, x₂, hrun₂, hcur₂, hdel₂, hdis₂⟩ := hsie
  have hx₂ : system.Reachable x₂ := hx₁.step (a := .set_sie true) ⟨⟨1, false, hcur₁, hpoint₁⟩, hrun₂⟩
  exact ⟨x₂, hx₂, hcur₂, hdel₂, hdis₂, hdis₂ ▸ (timer_armed hx₂ hcur₂ hdel₂).2.1⟩

end Clocked

end bobchouos
