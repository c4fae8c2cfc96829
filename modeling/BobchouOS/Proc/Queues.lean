import BobchouOS.Proc.Fork

open lib

namespace bobchouos

variable {s s' : Procs} {t t' : Tasks} {h : Head} {p : Nat}

namespace Tasks

/-- Before the first process. -/
def empty : Tasks where
  list _ := []
  place _ := .zombie

theorem empty_placed : empty.Placed where
  live _ hp := absurd hp List.not_mem_nil
  queue _ hp := absurd hp List.not_mem_nil
  mem _ _ _ _ := ⟨fun hp => absurd hp List.not_mem_nil, fun hp => absurd hp.1 List.not_mem_nil⟩
  state _ hp := absurd hp List.not_mem_nil
  current _ := ⟨fun hp => absurd hp nofun, fun hp => absurd hp.1 List.not_mem_nil⟩
  own _ hp := absurd hp List.not_mem_nil

theorem empty_tree : empty.Tree where
  nodup := List.nodup_nil
  child _ hp := absurd hp List.not_mem_nil
  parent _ hp := absurd hp List.not_mem_nil
  root _ hp := absurd hp List.not_mem_nil
  dead _ hp := absurd hp List.not_mem_nil
  hidden _ hp := absurd hp List.not_mem_nil
  init _ hi := by cases hi
  bucket _ _ := ⟨fun hp => absurd hp List.not_mem_nil, fun hp => absurd hp.1 List.not_mem_nil⟩
  fork _ hp := absurd hp List.not_mem_nil
  fork_unique _ hp := absurd hp List.not_mem_nil

/-- After `proc_bootstrap`. -/
def boot (idle init : Nat) : Tasks :=
  { ((((empty.create idle).publish idle).create init).publish init) with init_proc := some init }

theorem boot_place (idle init p : Nat) :
    (boot idle init).place p = .queue .run_queue ∨ (boot idle init).place p = .zombie := by
  have hplace : (boot idle init).place =
      Function.update (Function.update (fun _ => .zombie) idle (.queue .run_queue)) init (.queue .run_queue) := rfl
  rw [hplace, Function.update_apply, Function.update_apply]
  split
  · exact .inl rfl
  · split
    · exact .inl rfl
    · exact .inr rfl

end Tasks

theorem start_rep : Rep Procs.start Tasks.empty := by
  have hrings : ∀ n zs, Tasks.empty.rings n = some zs → n.owner = none ∧ zs = [] := by
    intro n zs hn
    cases n with
    | head g =>
      obtain ⟨halive, rfl⟩ := Tasks.rings_head_iff.mp hn
      refine ⟨?_, rfl⟩
      cases howner : (Node.head g).owner with
      | none => rfl
      | some r => simp [Node.alive, howner, Tasks.empty] at halive
    | link l q => exact absurd (Tasks.rings_link_iff.mp hn).2.1 List.not_mem_nil
  refine ⟨rfl, fun {n zs} hn => ?_, fun {n zs m ys a} hn hm ha ha' => ?_⟩
  · obtain ⟨howner, rfl⟩ := hrings n zs hn
    refine ⟨List.isChain_pair.mpr ⟨?_, ?_⟩, by simp⟩
    · simp [Procs.start, howner]
    · simp [Procs.start, howner]
  · obtain ⟨-, rfl⟩ := hrings n zs hn
    obtain ⟨-, rfl⟩ := hrings m ys hm
    rw [← List.mem_singleton.mp ha, ← List.mem_singleton.mp ha']

/-- `proc_bootstrap` returns with idle and init on the run queue. -/
theorem proc_bootstrap_spec {idle init : Nat} (hne : idle ≠ init) :
    wp (proc_bootstrap idle init) (fun _ s' => Rep s' (Tasks.boot idle init)) Procs.start ∧
      (Tasks.boot idle init).Inv := by
  obtain ⟨⟨r₁, s₁, hrun₁, rfl, h₁⟩, hplaced₁, htree₁⟩ := proc_create_kernel_spec (p := idle) start_rep
    Tasks.empty_placed Tasks.empty_tree List.not_mem_nil (fun _ => by decide)
  have hlive : init ∉ ((Tasks.empty.create r₁).publish r₁).live := by
    simpa [Tasks.live_publish, Tasks.Tree.live_create, Tasks.empty] using hne.symm
  have hpid : ((Tasks.empty.create r₁).publish r₁).next_pid = 1 := rfl
  obtain ⟨⟨r₂, s₂, hrun₂, rfl, h₂⟩, hplaced₂, htree₂⟩ := proc_create_kernel_spec h₁ hplaced₁ htree₁ hlive
    fun _ => by simp [hpid]
  refine ⟨?_, ⟨hplaced₂.congr rfl (fun _ _ => rfl) rfl rfl rfl fun _ => rfl, ?_, by simp [Tasks.boot]⟩⟩
  · simp only [proc_bootstrap, wp_bind, wp_modify]
    exact ⟨r₁, s₁, hrun₁, r₂, s₂, hrun₂, h₂.setInit (some r₂)⟩
  · refine { htree₂ with init := ?_ }
    intro j hj
    obtain rfl : r₂ = j := Option.some.inj hj
    refine ⟨?_, ?_, ?_⟩
    · rw [show (Tasks.boot r₁ r₂).list .all_procs = _ from Tasks.list_publish_all _ _]
      simp
    · rw [show ((Tasks.boot r₁ r₂).proc r₂).pid = _ from (Tasks.proc_publish _ r₂ r₂).1, Tasks.Tree.proc_create]
      simp [hpid]
    · simp [Tasks.boot, Tasks.publish, Tasks.enter, Tasks.put]

namespace Tasks

open Procs (Act)

/-- What the steps do to the lists and the processes. -/
inductive Moves (t : Tasks) : Act → Tasks → Prop
  | scheduler {now timer p : Nat} {xs : List Nat} : t.current = none → t.list .run_queue = p :: xs →
      (t.list .run_queue).Nodup → Moves t (.scheduler now) { t.dispatch p with timer }
  | yield {p : Nat} : t.current = some p → Moves t .yield (t.block .run_queue (t.list .run_queue ++ [p]) p)
  | wq_sleep {n p : Nat} : t.current = some p →
      Moves t (.wq_sleep n) (t.block (.wq (.other n)) (t.list (.wq (.other n)) ++ [p]) p)
  | wq_wake_one {w : WaitQueue} {t' : Tasks} : (Node.head (.wq w)).alive t.live = true → t.Wakes (.wq w) t' →
      Moves t (.wq_wake_one w) t'
  | wq_wake_all {w : WaitQueue} {t' : Tasks} : (Node.head (.wq w)).alive t.live = true → t.Wakes (.wq w) t' →
      Moves t (.wq_wake_all w) t'
  | sys_sleep {now ms p : Nat} {xs ys : List Nat} : t.current = some p → t.SleepPlace (wakeTime now ms) xs ys →
      Moves t (.sys_sleep now ms) (t.sleep (wakeTime now ms) (xs ++ p :: ys) p)
  | sys_sleep_return {p : Nat} : t.current = some p →
      Moves t .sys_sleep_return (t.setProc p fun x => { x with wake_time := 0 })
  | wake_expired_sleepers {now : Nat} {t' : Tasks} : t.Wakes .tsleep_list t' → Moves t (.wake_expired_sleepers now) t'
  | proc_kill {pid : BitVec 32} {r : Int} {t' : Tasks} : t.Kills pid r t' → Moves t (.proc_kill pid) t'
  | proc_exit {status : BitVec 32} {p : Nat} {t' : Tasks} : t.current = some p → t.Exits p status t' →
      Moves t (.proc_exit status) t'
  | proc_wait {p : Nat} {r : WaitResult} {t' : Tasks} : t.current = some p → t.Waits p r t' → Moves t .proc_wait t'
  | proc_create_kernel {p : Nat} : p ∉ t.live → Moves t (.proc_create_kernel p) ((t.create p).publish p)
  | fork_create {mem : Option Nat} {kstack : Bool} {p : Nat} {t' : Tasks} : t.current = some p → t.ForkCreates p t' →
      Moves t (.fork_create mem kstack) t'
  | fork_fail {p q c : Nat} {stage : ForkStage} : t.current = some p → (t.proc p).forking = some (c, stage) →
      q ∈ t.live → c ∈ t.list (.children q) → (t.list (.children q)).Nodup →
      Moves t (.fork_fail c) ((t.discard q c).setForking p none)
  | fork_reparent {p q c : Nat} {stage : ForkStage} : t.current = some p → (t.proc p).forking = some (c, stage) →
      q ∈ t.live → c ∈ t.list (.children q) → (t.list (.children q)).Nodup →
      Moves t (.fork_reparent c) ((t.adopt q p c).setForking p (some (c, .reparented)))
  | fork_publish {p c : Nat} {stage : ForkStage} : t.current = some p → (t.proc p).forking = some (c, stage) →
      Moves t (.fork_publish c) ((t.setForking p none).publish c)

theorem Inv.setTimer (hinv : t.Inv) (timer : Nat) : Inv { t with timer } :=
  ⟨hinv.placed.congr rfl (fun _ _ => rfl) rfl rfl rfl fun _ => rfl, { hinv.tree with }, hinv.booted⟩

theorem Moves.inv {a : Act} (hmoves : t.Moves a t') (hinv : t.Inv) : t'.Inv := by
  cases hmoves with
  | scheduler hnone hlist hnodup => exact (hinv.dispatch hnodup hnone (by simp [hlist])).setTimer _
  | yield hp => exact hinv.block hp rfl rfl (List.perm_append_singleton _ _) fun r hr => by cases hr
  | wq_sleep hp => exact hinv.block hp rfl rfl (List.perm_append_singleton _ _) fun r hr => by cases hr
  | wq_wake_one hw hwakes => exact (hwakes.inv hinv rfl hw (by simp)).1
  | wq_wake_all hw hwakes => exact (hwakes.inv hinv rfl hw (by simp)).1
  | @sys_sleep now ms p xs ys hp hplace =>
    have hinv' : (t.setProc p fun x => { x with wake_time := wakeTime now ms }).Inv :=
      hinv.setData (fun _ => rfl) (fun _ => rfl) (fun _ => rfl) fun _ => rfl
    refine hinv'.block hp rfl rfl ?_ fun r hr => by cases hr
    rw [show (t.setProc p fun x => { x with wake_time := wakeTime now ms }).list .tsleep_list = _ from hplace.split]
    exact List.perm_middle
  | sys_sleep_return => exact hinv.setData (fun _ => rfl) (fun _ => rfl) (fun _ => rfl) fun _ => rfl
  | wake_expired_sleepers hwakes => exact (hwakes.inv hinv rfl rfl (by simp)).1
  | proc_kill hkills => exact hkills.inv hinv
  | proc_exit hp hexits => exact hexits.inv hinv hp
  | proc_wait hp hwaits => exact hwaits.inv hinv hp
  | @proc_create_kernel p hp =>
    refine (hinv.create hp).publish ?_ ?_ (hinv.tree.fork_create hp)
    · simp [Tree.live_create]
    · rw [Tree.list_create (by simp) (by simp)]
      exact fun hmem => hp (hinv.placed.live p hmem)
  | fork_create _ hfork => exact hfork.inv hinv
  | fork_fail hp hfork hq hc hnodup => exact hinv.discard hp hfork hq hnodup hc
  | fork_reparent hp hfork hq hc hnodup => exact hinv.reparent hp hfork hq hnodup hc
  | fork_publish hp hfork => exact hinv.fork_publish hp hfork

end Tasks

theorem scheduler_panic {now : Nat} (hrep : Rep s t) (hnil : t.list .run_queue = []) :
    scheduler now s = .error (.panic "pick_next: run queue empty") := by
  refine bind_eq_error (wp.bind_eq (isEmpty_spec hrep rfl ?_))
  simp only [hnil, List.isEmpty_nil, if_true]
  rfl

theorem proc_exit_panic {status : BitVec 32} (hrep : Rep s t) (hinv : t.Inv) (hp : t.current = some p)
    (hpid : (t.proc p).pid.toInt ≤ 1) : proc_exit status s = .error (.panic "idle or init exiting") := by
  refine wp.bind_eq (this_proc_spec hrep hp (wp.bind_eq (getProc_spec hrep (hinv.placed.current_live hp) ?_)))
  simp only [hpid, if_true]
  rfl

/-- A step panics or does what `Moves` says. No step reads freed memory, follows
a null pointer or loops. -/
theorem exec_spec {a : Procs.Act} (hrep : Rep s t) (hinv : t.Inv) (ha : s.Enabled a) :
    (∃ message, Procs.exec a s = .error (.panic message)) ∨
      wp (Procs.exec a) (fun _ s' => ∃ t', Rep s' t' ∧ t.Moves a t') s := by
  have hrunning : s.current ≠ none → ∃ p, t.current = some p := by
    rw [hrep.current]
    exact Option.ne_none_iff_exists'.mp
  cases a with
  | scheduler now =>
    have hnone : t.current = none := hrep.current ▸ ha
    cases hlist : t.list .run_queue with
    | nil => exact .inl ⟨_, scheduler_panic hrep hlist⟩
    | cons p xs =>
      refine .inr (wp_mono (scheduler_spec hrep hinv.placed hlist) fun _ s₁ h₁ => ?_)
      exact ⟨_, h₁, .scheduler hnone hlist (hrep.nodup (h := .run_queue) rfl)⟩
  | yield =>
    obtain ⟨p, hp⟩ := hrunning ha
    exact .inr (wp_mono (yield_spec hrep hinv.placed hp) fun _ s₁ h₁ => ⟨_, h₁, .yield hp⟩)
  | wq_sleep n =>
    obtain ⟨p, hp⟩ := hrunning ha
    exact .inr (wp_mono (wq_sleep_spec hrep hinv.placed hp rfl) fun _ s₁ h₁ => ⟨_, h₁, .wq_sleep hp⟩)
  | wq_wake_one w =>
    have hw : (Node.head (.wq w)).alive t.live = true := hrep.live ▸ ha.2
    right
    simp only [Procs.exec, wp_bind]
    refine wp_mono (wq_wake_one_spec hrep hinv hw) fun r s₁ h₁ => ?_
    rw [wp_pure]
    cases hlist : t.list (.wq w) with
    | nil =>
      rw [hlist] at h₁
      exact ⟨t, h₁.2, .wq_wake_one hw .refl⟩
    | cons p xs =>
      rw [hlist] at h₁
      exact ⟨_, h₁.2, .wq_wake_one hw (.step .refl hlist (hrep.nodup hw))⟩
  | wq_wake_all w =>
    have hw : (Node.head (.wq w)).alive t.live = true := hrep.live ▸ ha.2
    refine .inr (wp_mono (wq_wake_all_spec hrep hinv hw) fun _ s₁ h₁ => ?_)
    obtain ⟨t', h₁, -, hwakes⟩ := h₁
    exact ⟨t', h₁, .wq_wake_all hw hwakes⟩
  | sys_sleep now ms =>
    obtain ⟨p, hp⟩ := hrunning ha
    refine .inr (wp_mono (sys_sleep_spec hrep hinv hp) fun _ s₁ h₁ => ?_)
    obtain ⟨xs, ys, hplace, h₁⟩ := h₁
    exact ⟨_, h₁, .sys_sleep hp hplace⟩
  | sys_sleep_return =>
    obtain ⟨p, hp⟩ := hrunning ha
    right
    simp only [Procs.exec, sys_sleep_return, wp_bind]
    refine this_proc_spec hrep hp (setProc_spec hrep (hinv.placed.current_live hp) fun s₁ h₁ => ?_)
    exact ⟨_, h₁, .sys_sleep_return hp⟩
  | wake_expired_sleepers now =>
    refine .inr (wp_mono (wake_expired_sleepers_spec hrep hinv) fun _ s₁ h₁ => ?_)
    obtain ⟨t', h₁, -, hwakes⟩ := h₁
    exact ⟨t', h₁, .wake_expired_sleepers hwakes⟩
  | proc_kill pid =>
    right
    simp only [Procs.exec, wp_bind]
    refine wp_mono (proc_kill_spec hrep hinv) fun r s₁ h₁ => ?_
    obtain ⟨t', h₁, hkills⟩ := h₁
    rw [wp_pure]
    exact ⟨t', h₁, .proc_kill hkills⟩
  | proc_exit status =>
    obtain ⟨p, hp⟩ := hrunning ha
    by_cases hpid : (t.proc p).pid.toInt ≤ 1
    · exact .inl ⟨_, proc_exit_panic hrep hinv hp hpid⟩
    · refine .inr (wp_mono (proc_exit_spec hrep hinv hp (Int.not_le.mp hpid)) fun _ s₁ h₁ => ?_)
      obtain ⟨t', h₁, hexits⟩ := h₁
      exact ⟨t', h₁, .proc_exit hp hexits⟩
  | proc_wait =>
    obtain ⟨p, hp⟩ := hrunning ha
    right
    simp only [Procs.exec, wp_bind]
    refine wp_mono (proc_wait_spec hrep hinv hp) fun r s₁ h₁ => ?_
    obtain ⟨t', h₁, hwaits⟩ := h₁
    rw [wp_pure]
    exact ⟨t', h₁, .proc_wait hp hwaits⟩
  | proc_create_kernel p =>
    have hp : p ∉ t.live := hrep.live ▸ ha.2
    right
    simp only [Procs.exec, wp_bind]
    refine wp_mono (proc_create_kernel_spec hrep hinv.placed hinv.tree hp ?_).1 fun r s₁ h₁ => ?_
    · exact fun hnone => absurd hnone hinv.booted
    · rw [wp_pure]
      exact ⟨_, h₁.2, .proc_create_kernel hp⟩
  | fork_create mem kstack =>
    obtain ⟨p, hp, -, hmem⟩ := ha
    rw [hrep.current] at hp
    rw [hrep.live] at hmem
    refine .inr (wp_mono (fork_create_spec hrep hinv hp hmem) fun _ s₁ h₁ => ?_)
    obtain ⟨t', h₁, hfork⟩ := h₁
    exact ⟨t', h₁, .fork_create hp hfork⟩
  | fork_fail c =>
    obtain ⟨p, hp, hfork⟩ := ha
    rw [hrep.current] at hp
    rw [hrep.proc] at hfork
    obtain ⟨-, -, ⟨q, hq, hc⟩, -⟩ := hinv.forking (hinv.placed.current_live hp) hfork
    refine .inr (wp_mono (fork_fail_spec hrep hinv hp (hinv.current_ne hp hfork) hq hc) fun _ s₁ h₁ => ?_)
    exact ⟨_, h₁, .fork_fail hp hfork hq hc (hrep.nodup (Node.alive_children.mpr hq))⟩
  | fork_reparent c =>
    obtain ⟨p, hp, hfork⟩ := ha
    rw [hrep.current] at hp
    rw [hrep.proc] at hfork
    obtain ⟨-, -, ⟨q, hq, hc⟩, -⟩ := hinv.forking (hinv.placed.current_live hp) hfork
    refine .inr (wp_mono (fork_reparent_spec hrep hinv hp hq hc) fun _ s₁ h₁ => ?_)
    exact ⟨_, h₁, .fork_reparent hp hfork hq hc (hrep.nodup (Node.alive_children.mpr hq))⟩
  | fork_publish c =>
    obtain ⟨p, hp, hfork⟩ := ha
    rw [hrep.current] at hp
    rw [hrep.proc] at hfork
    refine .inr (wp_mono (fork_publish_spec hrep hinv hp hfork) fun _ s₁ h₁ => ?_)
    exact ⟨_, h₁, .fork_publish hp hfork⟩

/-- The lists of every reachable state are in order. -/
theorem Procs.rep_of_reachable (hs : Procs.system.Reachable s) : ∃ t, Rep s t ∧ t.Inv := by
  refine hs.invariant (P := fun s => ∃ t, Rep s t ∧ t.Inv) ?_ ?_
  · rintro s ⟨idle, init, hne, hrun⟩
    obtain ⟨hwp, hinv⟩ := proc_bootstrap_spec hne
    exact ⟨_, hwp.post hrun, hinv⟩
  · rintro a s s' ⟨t, hrep, hinv⟩ ⟨ha, hrun⟩
    rcases exec_spec hrep hinv ha with ⟨message, hpanic⟩ | hwp
    · rw [hrun] at hpanic
      cases hpanic
    · obtain ⟨t', hrep', hmoves⟩ := hwp.post hrun
      exact ⟨t', hrep', hmoves.inv hinv⟩

namespace Procs

/-- The nodes linked at `h` are those of the processes `xs`, in this order. -/
def Listed (s : Procs) (h : Head) (xs : List Nat) : Prop := s.links.Ring (.head h) (xs.map (.link h.link))

/-- The process is on `all_procs`. -/
def Published (s : Procs) (p : Nat) : Prop := ∃ xs, s.Listed .all_procs xs ∧ p ∈ xs

/-- The process `p` is in the place `b` and in no other: its state fits, it is
current if the place is the CPU, it is once on the list `b` and not on the other
ones, and its `tsleep_link` points to itself unless the list is `tsleep_list`. -/
structure Situated (s : Procs) (p : Nat) (b : Place) : Prop where
  state : (s.proc p).state = b.state
  current : s.current = some p ↔ b = .cpu
  queue : ∀ h, b = .queue h → h.isQueue = true ∧ (Node.head h).alive s.live = true
  count : ∀ h, h.isQueue = true → (Node.head h).alive s.live = true →
    ∃ xs, s.Listed h xs ∧ xs.count p = if b = .queue h then 1 else 0
  tsleep_link : s.links.next (.link .tsleep_link p) = some (.link .tsleep_link p) ↔ b ≠ .queue .tsleep_list

theorem Listed.unique {xs ys : List Nat} (hxs : s.Listed h xs) (hys : s.Listed h ys) : xs = ys := by
  have hmap := Links.Ring.unique hxs hys
  exact List.map_injective_iff.mpr (fun _ _ heq => (Node.link.inj heq).2) hmap

theorem listed_of_rep (hrep : Rep s t) (hh : (Node.head h).alive t.live = true) : s.Listed h (t.list h) := hrep.ring hh

theorem Situated.unique {b b' : Place} (hb : s.Situated p b) (hb' : s.Situated p b') : b' = b := by
  cases b with
  | cpu => exact hb'.current.mp (hb.current.mpr rfl)
  | queue h =>
    obtain ⟨hqueue, halive⟩ := hb.queue h rfl
    obtain ⟨xs, hxs, hcount⟩ := hb.count h hqueue halive
    obtain ⟨ys, hys, hcount'⟩ := hb'.count h hqueue halive
    by_contra hne
    rw [← hxs.unique hys, hcount] at hcount'
    simp [hne] at hcount'
  | zombie =>
    have hstate := hb.state.symm.trans hb'.state
    cases b' with
    | cpu => cases hstate
    | zombie => rfl
    | queue h => cases h <;> cases hstate

/-- The place of a process in a state whose lists are in order. -/
theorem situated_of_rep (hrep : Rep s t) (hinv : t.Inv) (hp : p ∈ t.list .all_procs) : s.Situated p (t.place p) where
  state := by
    rw [hrep.proc]
    exact hinv.placed.state p hp
  current := by
    rw [hrep.current, hinv.placed.current]
    simp [hp]
  queue h hb := by
    rw [hrep.live]
    exact hinv.placed.queue p hp h hb
  count h hqueue halive := by
    rw [hrep.live] at halive
    refine ⟨t.list h, listed_of_rep hrep halive, ?_⟩
    have hmem := hinv.placed.mem h hqueue halive p
    split
    · rename_i hb
      exact List.count_eq_one_of_mem (hrep.nodup halive) (hmem.mpr ⟨hp, hb⟩)
    · rename_i hb
      exact List.count_eq_zero_of_not_mem fun hon => hb (hmem.mp hon).2
  tsleep_link := by
    have hmem := hinv.placed.mem .tsleep_list rfl rfl p
    rw [hrep.tsleep_link_self (hinv.placed.live p hp), hmem]
    simp [hp]

theorem published_iff (hrep : Rep s t) : s.Published p ↔ p ∈ t.list .all_procs := by
  have hlisted := listed_of_rep hrep (h := .all_procs) rfl
  refine ⟨?_, fun hp => ⟨_, hlisted, hp⟩⟩
  rintro ⟨xs, hxs, hp⟩
  rw [← hxs.unique hlisted]
  exact hp

/-- In every reachable state each published process is in exactly one place: on
the CPU, on the run queue, on `tsleep_list`, on one wait queue, or a zombie on
none of them. A step from there returns or panics, so no list operation meets a
node that is not linked as it expects. -/
theorem procs_situated (hs : system.Reachable s) : (∀ p, s.Published p → ∃! b, s.Situated p b) ∧
    ∀ a halt, s.Enabled a → exec a s = .error halt → ∃ message, halt = .panic message := by
  obtain ⟨t, hrep, hinv⟩ := rep_of_reachable hs
  constructor
  · intro p hp
    have hsituated := situated_of_rep hrep hinv ((published_iff hrep).mp hp)
    exact ⟨t.place p, hsituated, fun b hb => hsituated.unique hb⟩
  · intro a halt ha hrun
    rcases exec_spec hrep hinv ha with ⟨message, hpanic⟩ | hwp
    · rw [hrun] at hpanic
      cases hpanic
      exact ⟨message, rfl⟩
    · obtain ⟨_, s', hok, -⟩ := hwp
      rw [hrun] at hok
      cases hok

/-- After `proc_bootstrap`, with init among the published processes. -/
theorem procs_situated_boot : ∃ s, system.Reachable s ∧ s.Published 2 ∧ ∃! b, s.Situated 2 b := by
  obtain ⟨⟨_, s, hrun, hrep⟩, -⟩ := proc_bootstrap_spec (show 1 ≠ 2 by decide)
  have hs : system.Reachable s := .init ⟨1, 2, by decide, hrun⟩
  have hp : s.Published 2 := by
    rw [published_iff hrep, show (Tasks.boot 1 2).list .all_procs = _ from Tasks.list_publish_all _ _]
    simp
  exact ⟨s, hs, hp, (procs_situated hs).1 2 hp⟩

end Procs

end bobchouos
