import BobchouOS.Proc.Tree

open lib

namespace bobchouos

namespace Tasks

/-- What holds between the steps once init exists. -/
structure Inv (t : Tasks) : Prop where
  placed : Placed t
  tree : Tree t
  booted : t.init_proc ≠ none

namespace Inv

variable {t : Tasks} {h : Head} {p : Nat} {b : Place}

theorem proc_enter (t : Tasks) (p : Nat) (b : Place) (q : Nat) : ((t.enter p b).proc q).pid = (t.proc q).pid ∧
    ((t.enter p b).proc q).parent = (t.proc q).parent ∧ ((t.enter p b).proc q).forking = (t.proc q).forking := by
  by_cases hqp : q = p
  · subst hqp
    simp [enter, setProc, ProcTable.setProc]
  · simp [enter, setProc, ProcTable.setProc, hqp]

theorem place_enter {q : Nat} (hq : q ≠ p) : (t.enter p b).place q = t.place q := by
  simp [enter, hq]

theorem list_put {g : Head} {xs : List Nat} (hg : g.isQueue = false) (hqueue : h.isQueue = true) :
    (t.put h xs).list g = t.list g := by
  have hne : g ≠ h := by
    rintro rfl
    rw [hg] at hqueue
    cases hqueue
  simp [put, hne]

theorem block {xs : List Nat} (hinv : Inv t) (hp : t.current = some p) (hqueue : h.isQueue = true)
    (halive : (Node.head h).alive t.live = true) (hxs : xs.Perm (p :: t.list h))
    (hown : ∀ r, h = .wq (.child_wq r) → r = p) : Inv (t.block h xs p) := by
  refine ⟨hinv.placed.block hp hqueue halive hxs hown, ?_, hinv.booted⟩
  refine hinv.tree.move ((hinv.placed.current p).mp hp).1 rfl (fun g hg => list_put hg hqueue) rfl
    (proc_enter _ p _) (fun q => Placed.state_enter) (fun q => place_enter) ?_
  simp [Tasks.block, enter]

theorem wake (hinv : Inv t) (hqueue : h.isQueue = true) (halive : (Node.head h).alive t.live = true)
    (hnodup : (t.list h).Nodup) (hne : h ≠ .run_queue) (hp : p ∈ t.list h) : Inv (t.wake h p) := by
  refine ⟨hinv.placed.wake hqueue halive hnodup hne hp, ?_, hinv.booted⟩
  refine hinv.tree.move ((hinv.placed.mem h hqueue halive p).mp hp).1 rfl ?_ rfl (proc_enter _ p _)
    (fun q => Placed.state_enter) (fun q => place_enter) ?_
  · intro g hg
    exact (list_put hg rfl).trans (list_put hg hqueue)
  · simp [Tasks.wake, enter]

theorem dispatch (hinv : Inv t) (hnodup : (t.list .run_queue).Nodup) (hnone : t.current = none)
    (hp : p ∈ t.list .run_queue) : Inv (t.dispatch p) := by
  refine ⟨hinv.placed.dispatch hnodup hnone hp, ?_, hinv.booted⟩
  refine hinv.tree.move ((hinv.placed.mem .run_queue rfl rfl p).mp hp).1 rfl (fun g hg => list_put hg rfl) rfl
    (proc_enter _ p _) (fun q => Placed.state_enter) (fun q => place_enter) ?_
  simp [Tasks.dispatch, enter]

theorem die {status : BitVec 32} (hinv : Inv t) (hp : t.current = some p) (hnil : t.list (.children p) = [])
    (hpid : 1 < (t.proc p).pid.toInt) : Inv (t.die p status) := by
  refine ⟨hinv.placed.die hp, ?_, hinv.booted⟩
  refine hinv.tree.move ((hinv.placed.current p).mp hp).1 rfl (fun _ _ => rfl) rfl ?_ ?_ (fun q => place_enter) ?_
  · intro q
    by_cases hqp : q = p
    · subst hqp
      simp [Tasks.die, enter, setProc, ProcTable.setProc]
    · simp [Tasks.die, enter, setProc, ProcTable.setProc, hqp]
  · intro q hqp
    simp [Tasks.die, enter, setProc, ProcTable.setProc, hqp]
  · intro _
    refine ⟨hnil, fun hi => ?_⟩
    have hle := (hinv.tree.init p hi).2.1
    omega

/-- Data of a process that no list depends on. -/
theorem setData {f : Proc → Proc} (hinv : Inv t) (hpid : ∀ x, (f x).pid = x.pid) (hstate : ∀ x, (f x).state = x.state)
    (hparent : ∀ x, (f x).parent = x.parent) (hfork : ∀ x, (f x).forking = x.forking) : Inv (t.setProc p f) := by
  have hproc : ∀ q, ((t.setProc p f).proc q).pid = (t.proc q).pid ∧
      ((t.setProc p f).proc q).parent = (t.proc q).parent ∧
      ((t.setProc p f).proc q).forking = (t.proc q).forking ∧ ((t.setProc p f).proc q).state = (t.proc q).state := by
    intro q
    by_cases hqp : q = p
    · subst hqp
      simp [setProc, ProcTable.setProc, hpid, hstate, hparent, hfork]
    · simp [setProc, ProcTable.setProc, hqp]
  refine ⟨hinv.placed.congr rfl (fun _ _ => rfl) rfl rfl rfl fun q => (hproc q).2.2.2, ?_, hinv.booted⟩
  exact hinv.tree.restate rfl rfl (fun _ => rfl) (fun _ => rfl) rfl
    (fun q => ⟨(hproc q).1, (hproc q).2.1, (hproc q).2.2.1⟩) (fun q _ => (hproc q).2.2.2) fun _ _ hz => .inl hz

end Inv

end Tasks

variable {s : Procs} {t : Tasks} {h : Head} {p : Nat}

namespace Rep

theorem setCurrent (hrep : Rep s t) (v : Option Nat) : Rep { s with current := v } { t with current := v } := by
  rw [hrep.table]
  exact hrep.setTable { t.toProcTable with current := v } rfl

theorem setInit (hrep : Rep s t) (v : Option Nat) : Rep { s with init_proc := v } { t with init_proc := v } := by
  rw [hrep.table]
  exact hrep.setTable { t.toProcTable with init_proc := v } rfl

theorem setTimer (hrep : Rep s t) (v : Nat) : Rep { s with timer := v } { t with timer := v } := by
  rw [hrep.table]
  exact hrep.setTable { t.toProcTable with timer := v } rfl

end Rep

namespace Tasks.Placed

theorem current_live (hplaced : Placed t) (hp : t.current = some p) : p ∈ t.live :=
  hplaced.live p ((hplaced.current p).mp hp).1

/-- The current process is on no queue. -/
theorem current_free (hplaced : Placed t) (hp : t.current = some p) (hqueue : h.isQueue = true)
    (halive : (Node.head h).alive t.live = true) : p ∉ t.list h :=
  hplaced.not_mem hqueue halive (by simp [((hplaced.current p).mp hp).2])

theorem list_live (hplaced : Placed t) (hqueue : h.isQueue = true) (halive : (Node.head h).alive t.live = true) :
    ∀ p ∈ t.list h, p ∈ t.live := fun p hp => hplaced.live p ((hplaced.mem h hqueue halive p).mp hp).1

end Tasks.Placed

theorem Head.isQueue_of_link {g : Head} (hqueue : h.isQueue = true) (hlink : g.link = h.link) : g.isQueue = true := by
  cases g <;> cases h <;> simp_all [Head.link, Head.isQueue]

theorem run_queue_of_link {g : Head} (hlink : g.link = .run_list) : g = .run_queue := by
  cases g <;> simp_all [Head.link]

/-- The end of every wakeup: the process is off its list and comes to the run queue. -/
theorem run_spec {Q : Unit → Procs → Prop} (hrep : Rep s t) (hp : p ∈ t.live) (hfree : p ∉ t.list .run_queue)
    (hQ : ∀ s', Rep s' ((t.push .run_queue p).enter p (.queue .run_queue)) → Q () s') :
    wp (setProc p (fun x => { x with state := .PROC_RUNNABLE })) (fun _ s' => wp (run_queue_add p) Q s') s := by
  refine setProc_spec hrep hp fun s₁ h₁ => ?_
  refine addTail_spec h₁ hp rfl ?_ fun s₂ h₂ => hQ s₂ (h₂.of_eq rfl rfl)
  intro g hlink _
  rw [run_queue_of_link hlink]
  exact hfree

theorem yield_spec (hrep : Rep s t) (hplaced : t.Placed) (hp : t.current = some p) :
    wp yield (fun _ s' => Rep s' (t.block .run_queue (t.list .run_queue ++ [p]) p)) s := by
  simp only [yield, wp_bind]
  refine this_proc_spec hrep hp ?_
  refine run_spec hrep (hplaced.current_live hp) (hplaced.current_free hp rfl rfl) fun s₁ h₁ => ?_
  exact sched_spec h₁ fun s₂ h₂ => h₂.of_eq rfl rfl

theorem wq_sleep_spec {w : WaitQueue} (hrep : Rep s t) (hplaced : t.Placed) (hp : t.current = some p)
    (hw : (Node.head (.wq w)).alive t.live = true) :
    wp (wq_sleep w) (fun _ s' => Rep s' (t.block (.wq w) (t.list (.wq w) ++ [p]) p)) s := by
  simp only [wq_sleep, wp_bind]
  refine this_proc_spec hrep hp ?_
  refine addTail_spec hrep (hplaced.current_live hp) hw ?_ fun s₁ h₁ => ?_
  · exact fun g hlink halive => hplaced.current_free hp (Head.isQueue_of_link rfl hlink) halive
  · refine setProc_spec h₁ (hplaced.current_live hp) fun s₂ h₂ => ?_
    exact sched_spec h₂ fun s₃ h₃ => h₃.of_eq rfl rfl

/-- The deadline that the scheduler sets at the time `now`. -/
def Tasks.deadline (t : Tasks) (now : Nat) : Nat :=
  match t.list .tsleep_list with
  | [] => (now + TIMER_INTERVAL) % 2 ^ 64
  | q :: _ =>
    if (t.proc q).wake_time < (now + TIMER_INTERVAL) % 2 ^ 64 then (t.proc q).wake_time
    else (now + TIMER_INTERVAL) % 2 ^ 64

theorem scheduler_spec {now : Nat} {xs : List Nat} (hrep : Rep s t) (hplaced : t.Placed)
    (hlist : t.list .run_queue = p :: xs) :
    wp (scheduler now) (fun _ s' => Rep s' { t.dispatch p with timer := t.deadline now }) s := by
  have hp : p ∈ t.live := hplaced.list_live (h := .run_queue) rfl rfl p (by simp [hlist])
  simp only [scheduler, pick_next, wp_bind]
  refine isEmpty_spec hrep rfl ?_
  simp only [hlist, List.isEmpty_cons, Bool.false_eq_true, if_false, wp_bind]
  refine list_first_entry_spec hrep rfl hlist ?_
  refine del_spec (h := .run_queue) hrep hp rfl (by simp) (by simp [hlist]) fun s₁ h₁ => ?_
  rw [wp_pure]
  refine setProc_spec h₁ hp fun s₂ h₂ => ?_
  rw [wp_modify]
  have h₃ : Rep { s₂ with current := some p } (t.dispatch p) := (h₂.setCurrent (some p)).of_eq rfl rfl
  refine isEmpty_spec h₃ (h := .tsleep_list) rfl ?_
  have htsleep : (t.dispatch p).list .tsleep_list = t.list .tsleep_list := by
    simp [Tasks.dispatch, Tasks.enter, Tasks.setProc, Tasks.drop, Tasks.put]
  rw [htsleep]
  cases hsleep : t.list .tsleep_list with
  | nil =>
    simp only [List.isEmpty_nil, if_true, wp_modify, Tasks.deadline, hsleep]
    exact h₃.setTimer _
  | cons q ys =>
    simp only [List.isEmpty_cons, Bool.false_eq_true, if_false, wp_bind]
    refine list_first_entry_spec h₃ rfl (htsleep.trans hsleep) ?_
    refine getProc_spec h₃ (hplaced.list_live (h := .tsleep_list) rfl rfl q (by simp [hsleep])) ?_
    have hwake : ((t.dispatch p).proc q).wake_time = (t.proc q).wake_time := by
      by_cases hqp : q = p
      · subst hqp
        simp [Tasks.dispatch, Tasks.enter, Tasks.setProc, ProcTable.setProc, Tasks.drop, Tasks.put]
      · simp [Tasks.dispatch, Tasks.enter, Tasks.setProc, ProcTable.setProc, Tasks.drop, Tasks.put, hqp]
    rw [wp_modify, hwake]
    simp only [Tasks.deadline, hsleep]
    exact h₃.setTimer _

/-- Processes come from the front of a list to the run queue, one after the other. -/
inductive Tasks.Wakes (h : Head) (t : Tasks) : Tasks → Prop
  | refl : Wakes h t t
  | step {t' : Tasks} {p : Nat} {xs : List Nat} : Wakes h t t' → t'.list h = p :: xs → (t'.list h).Nodup →
      Wakes h t (t'.wake h p)

theorem Tasks.wake_list {xs : List Nat} (hne : h ≠ .run_queue) (hlist : t.list h = p :: xs) :
    (t.wake h p).list h = xs := by
  simp [Tasks.wake, Tasks.enter, Tasks.setProc, Tasks.push, Tasks.drop, Tasks.put, hne, hlist]

/-- A sleeper on a wait queue is woken. -/
theorem wake_wq_spec {w : WaitQueue} {Q : Unit → Procs → Prop} (hrep : Rep s t) (hinv : t.Inv)
    (hw : (Node.head (.wq w)).alive t.live = true) (hp : p ∈ t.list (.wq w))
    (hQ : ∀ s', Rep s' (t.wake (.wq w) p) → Q () s') :
    wp (del .wait_link p) (fun _ s' => wp (setProc p (fun x => { x with state := .PROC_RUNNABLE }))
      (fun _ s' => wp (run_queue_add p) Q s') s') s := by
  obtain ⟨hall, hplace⟩ := (hinv.placed.mem (.wq w) rfl hw p).mp hp
  have hlive := hinv.placed.live p hall
  refine del_spec (h := .wq w) hrep hlive hw (by simp) hp fun s₁ h₁ => ?_
  refine run_spec h₁ hlive ?_ hQ
  exact hinv.placed.not_mem (h := .run_queue) rfl rfl (by simp [hplace])

/-- A timed sleeper is woken. -/
theorem wake_tsleep_spec {Q : Unit → Procs → Prop} (hrep : Rep s t) (hinv : t.Inv) (hp : p ∈ t.list .tsleep_list)
    (hQ : ∀ s', Rep s' (t.wake .tsleep_list p) → Q () s') :
    wp (onNodes [.link .tsleep_link p] (list_del_init (.link .tsleep_link p))) (fun _ s' =>
      wp (setProc p (fun x => { x with state := .PROC_RUNNABLE })) (fun _ s' => wp (run_queue_add p) Q s') s') s := by
  obtain ⟨hall, hplace⟩ := (hinv.placed.mem .tsleep_list rfl rfl p).mp hp
  have hlive := hinv.placed.live p hall
  refine tsleep_del_spec hrep hlive hp fun s₁ h₁ => ?_
  refine run_spec h₁ hlive ?_ hQ
  exact hinv.placed.not_mem (h := .run_queue) rfl rfl (by simp [hplace])

theorem wq_wake_one_spec {w : WaitQueue} (hrep : Rep s t) (hinv : t.Inv)
    (hw : (Node.head (.wq w)).alive t.live = true) : wp (wq_wake_one w) (fun r s' =>
      match t.list (.wq w) with
      | [] => r = false ∧ Rep s' t
      | p :: _ => r = true ∧ Rep s' (t.wake (.wq w) p)) s := by
  simp only [wq_wake_one, wp_bind]
  refine isEmpty_spec hrep hw ?_
  cases hlist : t.list (.wq w) with
  | nil =>
    simp only [List.isEmpty_nil, if_true, wp_pure]
    exact ⟨trivial, hrep⟩
  | cons p xs =>
    simp only [List.isEmpty_cons, Bool.false_eq_true, if_false, wp_bind]
    refine list_first_entry_spec hrep hw hlist ?_
    refine wake_wq_spec hrep hinv hw (by simp [hlist]) fun s₁ h₁ => ?_
    rw [wp_pure]
    exact ⟨rfl, h₁⟩

theorem wq_wake_all_spec {w : WaitQueue} (hrep : Rep s t) (hinv : t.Inv)
    (hw : (Node.head (.wq w)).alive t.live = true) :
    wp (wq_wake_all w) (fun _ s' => ∃ t', Rep s' t' ∧ t'.Inv ∧ t.Wakes (.wq w) t') s := by
  -- induction on the number of waiters
  have hloop : ∀ (n fuel : Nat) (s' : Procs) (t' : Tasks), Rep s' t' → t'.Inv → t.Wakes (.wq w) t' →
      (Node.head (.wq w)).alive t'.live = true → (t'.list (.wq w)).length = n → n < fuel →
      wp (wq_wake_all_loop w fuel) (fun _ s' => ∃ t', Rep s' t' ∧ t'.Inv ∧ t.Wakes (.wq w) t') s' := by
    intro n
    induction n with
    | zero =>
      intro fuel s' t' hrep hinv hwakes hw hlen hfuel
      cases fuel with
      | zero => cases hfuel
      | succ fuel =>
        simp only [wq_wake_all_loop, wp_bind]
        refine wp_mono (wq_wake_one_spec hrep hinv hw) fun r s₁ h₁ => ?_
        rw [List.length_eq_zero_iff.mp hlen] at h₁
        obtain ⟨rfl, h₁⟩ := h₁
        simp only [Bool.false_eq_true, if_false, wp_pure]
        exact ⟨t', h₁, hinv, hwakes⟩
    | succ n ih =>
      intro fuel s' t' hrep hinv hwakes hw hlen hfuel
      cases fuel with
      | zero => cases hfuel
      | succ fuel =>
        obtain ⟨p, xs, hlist⟩ := List.exists_cons_of_length_eq_add_one hlen
        have hnodup := hrep.nodup hw
        simp only [wq_wake_all_loop, wp_bind]
        refine wp_mono (wq_wake_one_spec hrep hinv hw) fun r s₁ h₁ => ?_
        rw [hlist] at h₁
        obtain ⟨rfl, h₁⟩ := h₁
        simp only [if_true]
        refine ih fuel s₁ _ h₁ (hinv.wake rfl hw hnodup (by simp) (by simp [hlist]))
          (hwakes.step hlist hnodup) hw ?_ (Nat.lt_of_succ_lt_succ hfuel)
        rw [Tasks.wake_list (by simp) hlist]
        simpa [hlist] using hlen
  have hlength : (t.list (.wq w)).length ≤ t.live.length :=
    (List.subperm_of_subset (hrep.nodup hw) (hinv.placed.list_live rfl hw)).length_le
  simp only [wq_wake_all, wp_bind, wp_get]
  refine hloop _ _ s t hrep hinv .refl hw rfl ?_
  rw [hrep.live]
  exact Nat.lt_succ_of_le hlength

theorem wake_expired_sleepers_spec {now : Nat} (hrep : Rep s t) (hinv : t.Inv) :
    wp (wake_expired_sleepers now) (fun _ s' => ∃ t', Rep s' t' ∧ t'.Inv ∧ t.Wakes .tsleep_list t') s := by
  simp only [wake_expired_sleepers, wp_bind, wp_pure]
  refine list_for_each_entry_safe_spec (I := fun t' => t'.Inv ∧ t.Wakes .tsleep_list t') ⟨hinv, .refl⟩ hrep
    (fun _ _ => rfl) (hinv.placed.list_live rfl rfl) ?_ ?_
  · rintro p xs s' t' ⟨hinv', hwakes⟩ hrep' hlist
    have hp : p ∈ t'.list .tsleep_list := by simp [hlist]
    have hnodup := hrep'.nodup (h := .tsleep_list) rfl
    rw [wp_bind]
    refine getProc_spec hrep' (hinv'.placed.list_live rfl rfl p hp) ?_
    rw [wp_ite]
    refine ⟨fun _ => ?_, fun _ => ?_⟩
    · rw [wp_pure]
      exact ⟨t', hrep', hinv', hwakes⟩
    · simp only [wp_bind]
      refine wake_tsleep_spec hrep' hinv' hp fun s₁ h₁ => ?_
      rw [wp_pure]
      exact ⟨_, ⟨hinv'.wake rfl rfl hnodup (by simp) hp, hwakes.step hlist hnodup⟩, h₁,
        Tasks.wake_list (by simp) hlist⟩
  · exact fun s' t' hI hrep' _ => ⟨t', hrep', hI⟩

/-- When a `sys_sleep` at `now` ends. -/
def wakeTime (now ms : Nat) : Nat :=
  (now + MS_TO_MTIME (if ms < SLEEP_MS_MAX then ms else SLEEP_MS_MAX)) % 2 ^ 64

/-- The current process goes to sleep until `time`. -/
def Tasks.sleep (time : Nat) (xs : List Nat) (p : Nat) (t : Tasks) : Tasks :=
  (t.setProc p fun x => { x with wake_time := time }).block .tsleep_list xs p

/-- The place for a new sleeper: before the first one that wakes later. -/
structure Tasks.SleepPlace (t : Tasks) (time : Nat) (xs ys : List Nat) : Prop where
  split : t.list .tsleep_list = xs ++ ys
  early : ∀ q ∈ xs, (t.proc q).wake_time ≤ time
  late : ∀ q ∈ ys.head?, time < (t.proc q).wake_time

theorem sys_sleep_spec {now ms : Nat} (hrep : Rep s t) (hinv : t.Inv) (hp : t.current = some p) :
    wp (sys_sleep now ms) (fun _ s' => ∃ xs ys,
      t.SleepPlace (wakeTime now ms) xs ys ∧ Rep s' (t.sleep (wakeTime now ms) (xs ++ p :: ys) p)) s := by
  have hlive := hinv.placed.current_live hp
  have hsub := hinv.placed.list_live (h := .tsleep_list) rfl rfl
  have hfree : ∀ g, g.link = Head.tsleep_list.link → (Node.head g).alive t.live = true → p ∉ t.list g :=
    fun g hlink halive => hinv.placed.current_free hp (Head.isQueue_of_link rfl hlink) halive
  simp only [sys_sleep, wp_bind]
  refine this_proc_spec hrep hp ?_
  rw [← wakeTime]
  generalize wakeTime now ms = time
  refine setProc_spec hrep hlive fun s₁ h₁ => ?_
  -- the time of the others is as before
  have hsame : ∀ q ∈ t.list .tsleep_list,
      ((t.setProc p fun x => { x with wake_time := time }).proc q).wake_time = (t.proc q).wake_time := by
    intro q hq
    have hqp : q ≠ p := by
      rintro rfl
      exact hfree .tsleep_list rfl rfl hq
    simp [Tasks.setProc, ProcTable.setProc, hqp]
  have hself : ((t.setProc p fun x => { x with wake_time := time }).proc p).wake_time = time := by
    simp [Tasks.setProc, ProcTable.setProc]
  refine getProc_spec h₁ hlive ?_
  rw [hself]
  refine list_for_each_entry_spec (h := .tsleep_list) (P := fun q => (t.proc q).wake_time ≤ time) h₁ rfl hsub ?_ ?_
  · intro pre q post hsplit hskip
    have hq : q ∈ t.list .tsleep_list := by
      rw [show t.list .tsleep_list = _ from hsplit]
      simp
    rw [wp_bind]
    refine getProc_spec h₁ (hsub q hq) ?_
    rw [hsame q hq, wp_ite]
    refine ⟨fun hlt => ?_, fun hle => ?_⟩
    · rw [wp_pure]
      refine insert_spec (h := .tsleep_list) pre (q :: post) h₁ rfl hsplit
        (by simp [show p ∈ (t.setProc p _).live from hlive, show q ∈ (t.setProc p _).live from hsub q hq]) hfree ?_
        fun s₂ h₂ => ?_
      · intro lists hf hlists hfree'
        exact list_add_tail_spec _ _ hf hlists hfree' (by simp)
      · refine setProc_spec h₂ hlive fun s₃ h₃ => ?_
        refine sched_spec h₃ fun s₄ h₄ => ⟨pre, q :: post, ⟨hsplit, hskip, ?_⟩, h₄.of_eq rfl rfl⟩
        simpa using hlt
    · rw [wp_pure]
      exact ⟨rfl, Nat.le_of_not_lt hle⟩
  · intro hskip
    refine insert_spec (h := .tsleep_list) (t.list .tsleep_list) [] h₁ rfl (List.append_nil _).symm
      ?_ hfree ?_ fun s₂ h₂ => ?_
    · simp [Node.alive, Node.owner, Head.owner, show p ∈ (t.setProc p _).live from hlive]
    · intro lists hf hlists hfree'
      exact list_add_tail_spec _ [] hf hlists hfree' (by simp)
    · refine setProc_spec h₂ hlive fun s₃ h₃ => ?_
      refine sched_spec h₃ fun s₄ h₄ =>
        ⟨t.list .tsleep_list, [], ⟨(List.append_nil _).symm, hskip, ?_⟩, h₄.of_eq rfl rfl⟩
      simp

end bobchouos
