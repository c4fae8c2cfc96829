import BobchouOS.Proc.Wait
import BobchouOS.Trap.Timer

open lib

namespace bobchouos

open Procs (Act)

variable {s s' : Procs} {t t' : Tasks} {h : Head} {p : Nat}

namespace Tasks

theorem tsleep_wakes (hwakes : t.Wakes h t') (hh : h ≠ .tsleep_list) : t'.list .tsleep_list = t.list .tsleep_list := by
  induction hwakes with
  | refl => rfl
  | step _ _ _ ih => simpa [Tasks.wake, enter, Tasks.setProc, push, drop, put, hh.symm] using ih

theorem tsleep_adopts {i : Nat} (hadopts : t.Adopts p i t') : t'.list .tsleep_list = t.list .tsleep_list := by
  induction hadopts with
  | refl => rfl
  | step _ _ _ ih => simpa [Tasks.adopt, Tasks.setProc, push, drop, put] using ih

theorem tsleep_create (t : Tasks) (c : Nat) : (t.create c).list .tsleep_list = t.list .tsleep_list :=
  Tree.list_create (by simp) (by simp)

theorem tsleep_publish (t : Tasks) (c : Nat) : (t.publish c).list .tsleep_list = t.list .tsleep_list := by
  simp [Tasks.publish, enter, Tasks.setProc, push, put]

/-- Only three calls change the list of sleepers. -/
theorem Moves.tsleep_list {a : Act} (hmoves : t.Moves a t') (hsleep : ∀ now ms, a ≠ .sys_sleep now ms)
    (hwake : ∀ now, a ≠ .wake_expired_sleepers now) (hkill : ∀ pid, a ≠ .proc_kill pid) :
    t'.list .tsleep_list = t.list .tsleep_list := by
  cases hmoves with
  | scheduler => simp [Tasks.dispatch, enter, Tasks.setProc, drop, put]
  | yield => simp [Tasks.block, enter, Tasks.setProc, put]
  | wq_sleep => simp [Tasks.block, enter, Tasks.setProc, put]
  | wq_wake_one _ hwakes => exact tsleep_wakes hwakes (by simp)
  | wq_wake_all _ hwakes => exact tsleep_wakes hwakes (by simp)
  | sys_sleep => exact absurd rfl (hsleep _ _)
  | sys_sleep_return => rfl
  | wake_expired_sleepers => exact absurd rfl (hwake _)
  | proc_kill => exact absurd rfl (hkill _)
  | proc_exit _ hexits =>
    cases hexits with
    | exit _ _ hadopts _ _ hwakes => exact (tsleep_wakes hwakes (by simp)).trans (tsleep_adopts hadopts)
  | proc_wait _ hwaits =>
    cases hwaits with
    | no_children => rfl
    | killed => rfl
    | reaped => simp [Tasks.reap, Tasks.free, drop, put]
    | slept => simp [Tasks.block, enter, Tasks.setProc, put]
  | proc_create_kernel => rw [tsleep_publish, tsleep_create]
  | fork_create _ hfork =>
    cases hfork with
    | no_memory => rfl
    | no_stack => rfl
    | created => exact tsleep_create t _
  | fork_fail => simp [Tasks.discard, Tasks.free, setForking, Tasks.setProc, drop, put]
  | fork_reparent => simp [Tasks.adopt, setForking, Tasks.setProc, push, drop, put]
  | fork_publish => exact tsleep_publish _ _

theorem wake_time_dispatch (t : Tasks) (p q : Nat) : ((t.dispatch p).proc q).wake_time = (t.proc q).wake_time := by
  by_cases hqp : q = p
  · subst hqp
    simp [Tasks.dispatch, enter, Tasks.setProc, ProcTable.setProc, drop, put]
  · simp [Tasks.dispatch, enter, Tasks.setProc, ProcTable.setProc, drop, put, hqp]

/-- A sleeper that `proc_kill` takes off the list is killed. -/
theorem Kills.sleeper {pid : BitVec 32} {r : Int} (hkills : t.Kills pid r t') {q : Nat} (hq : q ∈ t.list .tsleep_list)
    (hq' : q ∉ t'.list .tsleep_list) : (t'.proc q).state = .PROC_RUNNABLE ∧ (t'.proc q).killed = true := by
  cases hkills with
  | missing => exact absurd hq hq'
  | marked => exact absurd hq hq'
  | @woken p h =>
    by_cases hqp : q = p
    · subst hqp
      simp [Tasks.wake, enter, Tasks.setProc, ProcTable.setProc, push, drop, put, Place.state]
    · refine absurd ?_ hq'
      by_cases hh : h = .tsleep_list
      · subst hh
        simpa [Tasks.wake, enter, Tasks.setProc, push, drop, put] using (List.mem_erase_of_ne hqp).mpr hq
      · simpa [Tasks.wake, enter, Tasks.setProc, push, drop, put, Ne.symm hh] using hq

/-- What `wake_expired_sleepers` does at the time `now`: the expired sleepers, a
first part of the list, go to the run queue. -/
structure Expires (t : Tasks) (now : Nat) (expired : List Nat) (t' : Tasks) : Prop where
  split : t.list .tsleep_list = expired ++ t'.list .tsleep_list
  early : ∀ q ∈ expired, (t.proc q).wake_time ≤ now
  run_queue : t'.list .run_queue = t.list .run_queue ++ expired
  proc : ∀ q, t'.proc q = if q ∈ expired then { t.proc q with state := .PROC_RUNNABLE } else t.proc q

theorem Expires.refl (t : Tasks) (now : Nat) : Expires t now [] t :=
  ⟨rfl, by simp, by simp, by simp⟩

theorem Expires.step {now : Nat} {expired xs : List Nat} (hexp : Expires t now expired t')
    (hlist : t'.list .tsleep_list = p :: xs) (hnodup : (t.list .tsleep_list).Nodup) (htime : (t'.proc p).wake_time ≤ now) :
    Expires t now (expired ++ [p]) (t'.wake .tsleep_list p) := by
  have hnext : (t'.wake .tsleep_list p).list .tsleep_list = xs := wake_list (by simp) hlist
  have hp : p ∉ expired := by
    intro hmem
    rw [hexp.split, hlist] at hnodup
    exact (List.nodup_append.mp hnodup).2.2 p hmem p List.mem_cons_self rfl
  have hproc : t'.proc p = t.proc p := by rw [hexp.proc, if_neg hp]
  refine ⟨?_, ?_, ?_, fun q => ?_⟩
  · rw [hexp.split, hlist, hnext, List.append_assoc, List.singleton_append]
  · intro q hq
    rcases List.mem_append.mp hq with hq | hq
    · exact hexp.early q hq
    · rw [List.mem_singleton.mp hq, ← hproc]
      exact htime
  · simp [Tasks.wake, enter, Tasks.setProc, push, drop, put, hexp.run_queue]
  · by_cases hqp : q = p
    · subst hqp
      simp [Tasks.wake, enter, Tasks.setProc, ProcTable.setProc, push, drop, put, hproc, Place.state]
    · simp [Tasks.wake, enter, Tasks.setProc, ProcTable.setProc, push, drop, put, hqp, hexp.proc]

theorem Expires.wake_time {now : Nat} {expired : List Nat} (hexp : Expires t now expired t') (q : Nat) :
    (t'.proc q).wake_time = (t.proc q).wake_time := by
  rw [hexp.proc]
  split <;> rfl

end Tasks

theorem wake_expired_sleepers_exact (now : Nat) (hrep : Rep s t) (hinv : t.Inv) (hsorted : t.Sorted) :
    wp (wake_expired_sleepers now) (fun _ s' => ∃ t' expired, Rep s' t' ∧ t'.Inv ∧ t.Expires now expired t' ∧
      ∀ q ∈ t'.list .tsleep_list, now < (t.proc q).wake_time) s := by
  have hnodup := hrep.nodup (h := .tsleep_list) rfl
  simp only [wake_expired_sleepers, wp_bind, wp_pure]
  refine list_for_each_entry_safe_spec (I := fun t' => t'.Inv ∧ ∃ expired, t.Expires now expired t') ⟨hinv, [], .refl t now⟩
    hrep (fun _ _ => rfl) (hinv.placed.list_live rfl rfl) ?_ ?_
  · rintro p xs s' t' ⟨hinv', expired, hexp⟩ hrep' hlist
    have hp : p ∈ t'.list .tsleep_list := by simp [hlist]
    rw [wp_bind]
    refine getProc_spec hrep' (hinv'.placed.list_live rfl rfl p hp) ?_
    rw [wp_ite]
    refine ⟨fun hlate => ?_, fun htime => ?_⟩
    · rw [wp_pure]
      refine ⟨t', expired, hrep', hinv', hexp, fun q hq => ?_⟩
      have htail := hsorted
      rw [Tasks.Sorted, hexp.split, List.pairwise_append, hlist, List.pairwise_cons] at htail
      rw [hexp.wake_time] at hlate
      rw [hlist] at hq
      rcases List.mem_cons.mp hq with rfl | hq
      · exact hlate
      · exact Nat.lt_of_lt_of_le hlate (htail.2.1.1 q hq)
    · simp only [wp_bind]
      refine wake_tsleep_spec hrep' hinv' hp fun s₁ h₁ => ?_
      rw [wp_pure]
      refine ⟨_, ⟨hinv'.wake rfl rfl (hrep'.nodup rfl) (by simp) hp, _, hexp.step hlist hnodup (by omega)⟩, h₁,
        Tasks.wake_list (by simp) hlist⟩
  · rintro s' t' ⟨hinv', expired, hexp⟩ hrep' hnil
    exact ⟨t', expired, hrep', hinv', hexp, by simp [hnil]⟩

/-- The processes with a clock. `asleep` keeps, for a process blocked in
`sys_sleep`, the time it read there and its argument. -/
structure Timed where
  procs : Procs
  time : Nat
  asleep : Nat → Option (Nat × Nat)

namespace Timed

/-- The clock stays below this. -/
def TIME_END : Nat := 2 ^ 64 - 36000000000

inductive Act where
  | tick (time : Nat)
  | call (a : Procs.Act)

/-- A call knows the clock as it is or was before. Arguments are 64 bits wide. -/
def Clock (time : Nat) : Procs.Act → Prop
  | .sys_sleep now ms => now ≤ time ∧ ms < 2 ^ 64
  | .wake_expired_sleepers now => now ≤ time
  | _ => True

/-- A process is blocked in `sys_sleep` from the call until it does not sleep any more. -/
def note (a : Procs.Act) (s s' : Procs) (asleep : Nat → Option (Nat × Nat)) (q : Nat) : Option (Nat × Nat) :=
  if (s'.proc q).state = .PROC_SLEEPING then
    match a with
    | .sys_sleep now ms => if s.current = some q then some (now, ms) else asleep q
    | _ => asleep q
  else
    none

def system : Lts Timed Act where
  init x := Procs.system.init x.procs ∧ x.time < TIME_END ∧ x.asleep = fun _ => none
  step a x x' :=
    match a with
    | .tick time => x.time ≤ time ∧ time < TIME_END ∧ x' = { x with time }
    | .call a => x.procs.Enabled a ∧ Clock x.time a ∧ ∃ procs, Procs.exec a x.procs = .ok ((), procs) ∧
        x' = ⟨procs, x.time, note a x.procs procs x.asleep⟩

/-- The ticks of the clock in which a `sys_sleep` with this argument may not end. -/
def ticks (ms : Nat) : Nat := MS_TO_MTIME (min ms SLEEP_MS_MAX)

structure Inv (x : Timed) (t : Tasks) : Prop where
  rep : Rep x.procs t
  tasks : t.Inv
  sorted : t.Sorted
  time_lt : x.time < TIME_END
  mem : ∀ q, q ∈ t.list .tsleep_list ↔ x.asleep q ≠ none
  wake_time : ∀ q now ms, x.asleep q = some (now, ms) → (t.proc q).wake_time = now + ticks ms

/-- The clamp keeps the sum from wrapping. -/
theorem wakeTime_eq {now ms time : Nat} (hnow : now ≤ time) (htime : time < TIME_END) :
    wakeTime now ms = now + ticks ms := by
  have hmin : (if ms < SLEEP_MS_MAX then ms else SLEEP_MS_MAX) = min ms SLEEP_MS_MAX := by
    split <;> omega
  have hle : min ms SLEEP_MS_MAX ≤ SLEEP_MS_MAX := Nat.min_le_right _ _
  rw [wakeTime, hmin, ticks, Nat.mod_eq_of_lt]
  simp only [MS_TO_MTIME, MTIME_FREQ, TIME_END, SLEEP_MS_MAX] at *
  omega

variable {x x' : Timed}

theorem sleeping_of_mem (hinv : t.Inv) {q : Nat} (hq : q ∈ t.list .tsleep_list) : (t.proc q).state = .PROC_SLEEPING := by
  obtain ⟨hall, hplace⟩ := (hinv.placed.mem .tsleep_list rfl rfl q).mp hq
  rw [hinv.placed.state q hall, hplace]
  rfl

/-- Nobody starts to sleep, and who leaves the list does not sleep any more. -/
theorem Inv.call {a : Procs.Act} {procs : Procs} (hinv : x.Inv t) (hrep : Rep procs t') (htasks : t'.Inv)
    (hsorted : t'.Sorted) (ha : ∀ now ms, a ≠ .sys_sleep now ms)
    (hsub : ∀ q ∈ t'.list .tsleep_list, q ∈ t.list .tsleep_list)
    (hwake : ∀ q ∈ t'.list .tsleep_list, (t'.proc q).wake_time = (t.proc q).wake_time)
    (hleft : ∀ q ∈ t.list .tsleep_list, q ∉ t'.list .tsleep_list → (t'.proc q).state = .PROC_RUNNABLE) :
    Inv ⟨procs, x.time, note a x.procs procs x.asleep⟩ t' := by
  have hnote : ∀ q, note a x.procs procs x.asleep q =
      if (t'.proc q).state = .PROC_SLEEPING then x.asleep q else none := by
    intro q
    unfold note
    rw [hrep.proc]
    cases a with
    | sys_sleep now ms => exact absurd rfl (ha now ms)
    | _ => rfl
  have hmem : ∀ q, q ∈ t'.list .tsleep_list ↔ note a x.procs procs x.asleep q ≠ none := by
    intro q
    rw [hnote]
    constructor
    · intro hq
      rw [if_pos (sleeping_of_mem htasks hq)]
      exact (hinv.mem q).mp (hsub q hq)
    · intro hne
      split at hne
      case isTrue hsleeping =>
        by_contra hq
        rw [hleft q ((hinv.mem q).mpr hne) hq] at hsleeping
        cases hsleeping
      case isFalse => exact absurd rfl hne
  refine ⟨hrep, htasks, hsorted, hinv.time_lt, hmem, fun q now ms hsome => ?_⟩
  change note a x.procs procs x.asleep q = some (now, ms) at hsome
  rw [hwake q ((hmem q).mpr (by rw [hsome]; simp))]
  refine hinv.wake_time q now ms ?_
  rw [hnote] at hsome
  split at hsome
  · exact hsome
  · cases hsome

theorem Inv.sys_sleep {now ms : Nat} {procs : Procs} {xs ys : List Nat} (hinv : x.Inv t) (hp : t.current = some p)
    (hnow : now ≤ x.time) (hplace : t.SleepPlace (wakeTime now ms) xs ys)
    (hrep : Rep procs (t.sleep (wakeTime now ms) (xs ++ p :: ys) p))
    (htasks : (t.sleep (wakeTime now ms) (xs ++ p :: ys) p).Inv) :
    Inv ⟨procs, x.time, note (.sys_sleep now ms) x.procs procs x.asleep⟩ (t.sleep (wakeTime now ms) (xs ++ p :: ys) p) := by
  have hfree : p ∉ t.list .tsleep_list := hinv.tasks.placed.current_free hp rfl rfl
  have hlist : (t.sleep (wakeTime now ms) (xs ++ p :: ys) p).list .tsleep_list = xs ++ p :: ys := by
    simp [Tasks.sleep, Tasks.block, Tasks.enter, Tasks.setProc, Tasks.put]
  have hmem : ∀ q, q ∈ xs ++ p :: ys ↔ q = p ∨ q ∈ t.list .tsleep_list := by
    intro q
    rw [hplace.split]
    simp [or_left_comm]
  have hnote : ∀ q ∈ xs ++ p :: ys, note (.sys_sleep now ms) x.procs procs x.asleep q =
      if p = q then some (now, ms) else x.asleep q := by
    intro q hq
    rw [note, hrep.proc, if_pos (sleeping_of_mem htasks (hlist ▸ hq)), hinv.rep.current, hp]
    simp
  have hiff : ∀ q, q ∈ xs ++ p :: ys ↔ note (.sys_sleep now ms) x.procs procs x.asleep q ≠ none := by
    intro q
    constructor
    · intro hq
      rw [hnote q hq]
      by_cases hqp : p = q
      · simp [hqp]
      · rw [if_neg hqp]
        exact (hinv.mem q).mp (((hmem q).mp hq).resolve_left (Ne.symm hqp))
    · intro hne
      by_contra hq
      obtain ⟨hqp, hqt⟩ := not_or.mp ((hmem q).not.mp hq)
      have hnone : x.asleep q = none := by
        by_contra hsome
        exact hqt ((hinv.mem q).mpr hsome)
      refine hne ?_
      simp [note, hinv.rep.current, hp, Ne.symm hqp, hnone]
  refine ⟨hrep, htasks, hinv.sorted.sleep hfree hplace, hinv.time_lt, fun q => ?_, fun q now' ms' hsome => ?_⟩
  · rw [hlist]
    exact hiff q
  · change note (.sys_sleep now ms) x.procs procs x.asleep q = some (now', ms') at hsome
    rw [hnote q ((hiff q).mpr (by rw [hsome]; simp))] at hsome
    by_cases hqp : p = q
    · subst hqp
      rw [if_pos rfl] at hsome
      cases hsome
      rw [← wakeTime_eq hnow hinv.time_lt]
      simp [Tasks.sleep, Tasks.block, Tasks.enter, Tasks.setProc, ProcTable.setProc, Tasks.put]
    · rw [if_neg hqp] at hsome
      rw [← hinv.wake_time q now' ms' hsome]
      simp [Tasks.sleep, Tasks.block, Tasks.enter, Tasks.setProc, ProcTable.setProc, Tasks.put, Ne.symm hqp]

/-- A sleeper leaves the list only when it is killed or its time has come. -/
theorem call_spec {a : Procs.Act} {procs : Procs} (hinv : x.Inv t) (ha : x.procs.Enabled a) (hclock : Clock x.time a)
    (hrun : Procs.exec a x.procs = .ok ((), procs)) :
    ∃ t', Inv ⟨procs, x.time, note a x.procs procs x.asleep⟩ t' ∧
      ∀ q ∈ t.list .tsleep_list, q ∈ t'.list .tsleep_list ∨ (t'.proc q).state = .PROC_RUNNABLE ∧
        ((t'.proc q).killed = true ∨ (t.proc q).wake_time ≤ x.time) := by
  have hmoves : ∃ t', Rep procs t' ∧ t.Moves a t' := by
    rcases exec_spec hinv.rep hinv.tasks ha with ⟨message, hpanic⟩ | hwp
    · rw [hrun] at hpanic
      cases hpanic
    · exact hwp.post hrun
  by_cases hwake : ∃ now, a = .wake_expired_sleepers now
  · obtain ⟨now, rfl⟩ := hwake
    obtain ⟨t', expired, hrep, htasks, hexp, -⟩ :=
      (wake_expired_sleepers_exact now hinv.rep hinv.tasks hinv.sorted).post hrun
    have hsub : ∀ q ∈ t'.list .tsleep_list, q ∈ t.list .tsleep_list := fun q hq => by
      rw [hexp.split]
      exact List.mem_append_right _ hq
    have hleft : ∀ q ∈ t.list .tsleep_list, q ∉ t'.list .tsleep_list → q ∈ expired := fun q hq hq' => by
      rw [hexp.split] at hq
      exact (List.mem_append.mp hq).resolve_right hq'
    have hstate : ∀ q ∈ expired, (t'.proc q).state = .PROC_RUNNABLE := fun q hq => by
      rw [hexp.proc, if_pos hq]
    have hsorted : t'.Sorted := by
      have hall := hinv.sorted
      rw [Tasks.Sorted, hexp.split, List.pairwise_append] at hall
      unfold Tasks.Sorted
      simp only [hexp.wake_time]
      exact hall.2.1
    refine ⟨t', hinv.call hrep htasks hsorted (by simp) hsub (fun q _ => hexp.wake_time q) fun q hq hq' =>
      hstate q (hleft q hq hq'), fun q hq => ?_⟩
    by_cases hq' : q ∈ t'.list .tsleep_list
    · exact .inl hq'
    · exact .inr ⟨hstate q (hleft q hq hq'), .inr (Nat.le_trans (hexp.early q (hleft q hq hq')) hclock)⟩
  obtain ⟨t', hrep, hmoves⟩ := hmoves
  have htasks := hmoves.inv hinv.tasks
  by_cases hsleep : ∃ now ms, a = .sys_sleep now ms
  · obtain ⟨now, ms, rfl⟩ := hsleep
    cases hmoves with
    | @sys_sleep _ _ p xs ys hp hplace =>
      refine ⟨_, hinv.sys_sleep hp hclock.1 hplace hrep htasks, fun q hq => .inl ?_⟩
      rw [hplace.split] at hq
      simp only [Tasks.sleep, Tasks.block, Tasks.enter, Tasks.setProc, Tasks.put, Function.update_self]
      exact (List.Sublist.append_left (List.sublist_cons_self p ys) xs).mem hq
  have hsleep' : ∀ now ms, a ≠ .sys_sleep now ms := fun now ms heq => hsleep ⟨now, ms, heq⟩
  have hwakes : t'.Sorted ∧ ∀ q ∈ t'.list .tsleep_list, (t'.proc q).wake_time = (t.proc q).wake_time := by
    by_cases hsched : ∃ now, a = .scheduler now
    · obtain ⟨now, rfl⟩ := hsched
      cases hmoves with
      | @scheduler _ _ p =>
        have hsorted : Tasks.Sorted { t.dispatch p with timer := t.deadline now } := (hinv.sorted.dispatch p).1
        exact ⟨hsorted, fun q _ => Tasks.wake_time_dispatch t p q⟩
    · have hkeeps := Tasks.KeepsTimer.moves hinv.tasks hmoves (fun now heq => hsched ⟨now, heq⟩) hsleep'
      exact ⟨hinv.sorted.keep hkeeps, hkeeps.wake_time⟩
  by_cases hkill : ∃ pid, a = .proc_kill pid
  · obtain ⟨pid, rfl⟩ := hkill
    have hkilled : ∀ q ∈ t.list .tsleep_list, q ∉ t'.list .tsleep_list →
        (t'.proc q).state = .PROC_RUNNABLE ∧ (t'.proc q).killed = true := by
      cases hmoves with
      | proc_kill hkills => exact fun q => hkills.sleeper
    have hkeeps := Tasks.KeepsTimer.moves hinv.tasks hmoves (by simp) hsleep'
    refine ⟨t', hinv.call hrep htasks hwakes.1 hsleep' (fun q hq => hkeeps.sub.subset hq) hwakes.2 fun q hq hq' =>
      (hkilled q hq hq').1, fun q hq => ?_⟩
    by_cases hq' : q ∈ t'.list .tsleep_list
    · exact .inl hq'
    · obtain ⟨hstate, hmark⟩ := hkilled q hq hq'
      exact .inr ⟨hstate, .inl hmark⟩
  · have hlist := hmoves.tsleep_list hsleep' (fun now heq => hwake ⟨now, heq⟩) fun pid heq => hkill ⟨pid, heq⟩
    refine ⟨t', hinv.call hrep htasks hwakes.1 hsleep' (fun q hq => hlist ▸ hq) hwakes.2 fun q hq hq' =>
      absurd (hlist ▸ hq) hq', fun q hq => .inl (hlist ▸ hq)⟩

theorem inv_of_reachable (hx : system.Reachable x) : ∃ t, x.Inv t := by
  refine hx.invariant (P := fun x => ∃ t, x.Inv t) ?_ ?_
  · rintro x ⟨⟨idle, init, hne, hrun⟩, htime, hnone⟩
    obtain ⟨hwp, hinv⟩ := proc_bootstrap_spec hne
    refine ⟨_, hwp.post hrun, hinv, .nil, htime, fun q => ?_, fun q now ms hsome => ?_⟩
    · rw [hnone]
      simp [Tasks.boot, Tasks.tsleep_publish, Tasks.tsleep_create, Tasks.empty]
    · rw [hnone] at hsome
      cases hsome
  · rintro a x x' ⟨t, hinv⟩ hstep
    cases a with
    | tick time =>
      obtain ⟨hle, hlt, rfl⟩ := hstep
      exact ⟨t, { hinv with time_lt := hlt }⟩
    | call a =>
      obtain ⟨ha, hclock, procs, hrun, rfl⟩ := hstep
      obtain ⟨t', hinv', -⟩ := call_spec hinv ha hclock hrun
      exact ⟨t', hinv'⟩

/-- A process that is not killed does not become runnable before its time. -/
theorem Inv.not_early {a : Act} (hinv : x.Inv t) (hstep : system.step a x x') {q now ms : Nat}
    (hsome : x.asleep q = some (now, ms)) (hstate : (x'.procs.proc q).state = .PROC_RUNNABLE)
    (hkilled : (x'.procs.proc q).killed = false) : now + ticks ms ≤ x'.time := by
  have hq : q ∈ t.list .tsleep_list := (hinv.mem q).mpr (by rw [hsome]; simp)
  cases a with
  | tick time =>
    obtain ⟨-, -, rfl⟩ := hstep
    rw [hinv.rep.proc, sleeping_of_mem hinv.tasks hq] at hstate
    cases hstate
  | call a =>
    obtain ⟨ha, hclock, procs, hrun, rfl⟩ := hstep
    obtain ⟨t', hinv', hleft⟩ := call_spec hinv ha hclock hrun
    rw [hinv'.rep.proc] at hstate hkilled
    rcases hleft q hq with hq' | ⟨-, hmark | htime⟩
    · rw [sleeping_of_mem hinv'.tasks hq'] at hstate
      cases hstate
    · rw [hmark] at hkilled
      cases hkilled
    · rw [hinv.wake_time q now ms hsome] at htime
      exact htime

/-- The expired part is those whose time has come. -/
theorem expired_iff {now : Nat} {expired : List Nat} (hexp : t.Expires now expired t')
    (hlate : ∀ q ∈ t'.list .tsleep_list, now < (t.proc q).wake_time) :
    (∀ q, q ∈ expired ↔ q ∈ t.list .tsleep_list ∧ (t.proc q).wake_time ≤ now) ∧
      t'.list .tsleep_list = (t.list .tsleep_list).filter fun q => now < (t.proc q).wake_time := by
  constructor
  · intro q
    rw [hexp.split, List.mem_append]
    constructor
    · exact fun hq => ⟨.inl hq, hexp.early q hq⟩
    · rintro ⟨hq | hq, htime⟩
      · exact hq
      · exact absurd (hlate q hq) (by omega)
  · rw [hexp.split, List.filter_append, List.filter_eq_nil_iff.mpr, List.nil_append, List.filter_eq_self.mpr]
    · exact fun q hq => decide_eq_true (hlate q hq)
    · intro q hq
      have := hexp.early q hq
      simpa using this

/-- In every run of calls and ticks, `tsleep_list` is sorted and has the processes
blocked in `sys_sleep`, `wake_expired_sleepers` wakes those whose time has come
and no others, and nobody that is not killed wakes early. -/
theorem timed_sleep_exact (x : Timed) (hx : system.Reachable x) :
    (∃ xs, x.procs.Listed .tsleep_list xs ∧ xs.Nodup ∧
      xs.Pairwise (fun a b => (x.procs.proc a).wake_time ≤ (x.procs.proc b).wake_time) ∧
      ∀ q, q ∈ xs ↔ x.asleep q ≠ none) ∧
    (∀ now xs, x.procs.Listed .tsleep_list xs → ∃ s', wake_expired_sleepers now x.procs = .ok ((), s') ∧
      s'.Listed .tsleep_list (xs.filter fun q => now < (x.procs.proc q).wake_time) ∧
      ∀ q, (s'.proc q).state =
        if q ∈ xs ∧ (x.procs.proc q).wake_time ≤ now then .PROC_RUNNABLE else (x.procs.proc q).state) ∧
    ∀ a x', system.step a x x' → ∀ q now ms, x.asleep q = some (now, ms) →
      (x'.procs.proc q).state = .PROC_RUNNABLE → (x'.procs.proc q).killed = false →
      now + MS_TO_MTIME (min ms SLEEP_MS_MAX) ≤ x'.time := by
  obtain ⟨t, hinv⟩ := inv_of_reachable hx
  have hlisted : x.procs.Listed .tsleep_list (t.list .tsleep_list) := Procs.listed_of_rep hinv.rep rfl
  refine ⟨⟨_, hlisted, hinv.rep.nodup rfl, ?_, hinv.mem⟩, fun now xs hxs => ?_,
    fun a x' hstep q now ms hsome hstate hkilled => hinv.not_early hstep hsome hstate hkilled⟩
  · rw [hinv.rep.proc]
    exact hinv.sorted
  · obtain rfl := hxs.unique hlisted
    obtain ⟨_, s', hrun, t', expired, hrep', -, hexp, hlate⟩ :=
      wake_expired_sleepers_exact now hinv.rep hinv.tasks hinv.sorted
    obtain ⟨hiff, hfilter⟩ := expired_iff hexp hlate
    refine ⟨s', hrun, ?_, fun q => ?_⟩
    · rw [hinv.rep.proc, ← hfilter]
      exact Procs.listed_of_rep hrep' rfl
    · rw [hrep'.proc, hinv.rep.proc, hexp.proc]
      simp only [hiff]
      split <;> rfl

theorem reachable_run {as : List Procs.Act} {procs : Procs} (hx : system.Reachable x) (hclock : ∀ a ∈ as, Clock x.time a)
    (hrun : Procs.run as x.procs = some procs) : ∃ asleep, system.Reachable ⟨procs, x.time, asleep⟩ := by
  induction as generalizing x with
  | nil =>
    cases hrun
    exact ⟨x.asleep, hx⟩
  | cons a as ih =>
    simp only [Procs.run] at hrun
    split at hrun
    · rename_i ha
      cases hexec : Procs.exec a x.procs with
      | ok r =>
        rw [hexec] at hrun
        have hstep : system.step (.call a) x ⟨r.2, x.time, note a x.procs r.2 x.asleep⟩ :=
          ⟨ha, hclock a List.mem_cons_self, r.2, hexec, rfl⟩
        exact ih (x := ⟨r.2, x.time, note a x.procs r.2 x.asleep⟩) (hx.step hstep)
          (fun b hb => hclock b (List.mem_cons_of_mem a hb)) hrun
      | error halt =>
        rw [hexec] at hrun
        cases hrun
    · cases hrun

/-- Idle sleeps for five milliseconds at the time 7. -/
theorem timed_sleep_exact_idle : ∃ x, system.Reachable x ∧ x.asleep 1 ≠ none ∧ (x.procs.proc 1).wake_time = 50007 ∧
    x.procs.Listed .tsleep_list [1] := by
  obtain ⟨s, hrun, hlist, htime⟩ := Procs.exists_of_bootRun [.scheduler 7, .sys_sleep 7 5]
    (P := fun s => s.links.Ring (.head .tsleep_list) [.link .tsleep_link 1] ∧ (s.proc 1).wake_time = 50007)
    (by decide +kernel)
  cases hboot : proc_bootstrap 1 2 Procs.start with
  | error halt =>
    rw [Procs.bootRun, hboot] at hrun
    cases hrun
  | ok r =>
    rw [Procs.bootRun, hboot] at hrun
    have hinit : system.Reachable ⟨r.2, 7, fun _ => none⟩ := .init ⟨⟨1, 2, by decide, hboot⟩, show 7 < TIME_END by decide, rfl⟩
    obtain ⟨asleep, hx⟩ := reachable_run hinit (by simp [Clock]) hrun
    obtain ⟨⟨xs, hxs, -, -, hmem⟩, -, -⟩ := timed_sleep_exact _ hx
    have hone : s.Listed .tsleep_list [1] := hlist
    obtain rfl := hxs.unique hone
    exact ⟨_, hx, (hmem 1).mp (by simp), htime, hone⟩

end Timed

end bobchouos
