import BobchouOS.Kern.Sleeplock
import Mathlib

open lib

namespace bobchouos

open Procs (Act)

variable {s s' : Procs} {t t' : Tasks} {h : Head} {p q n : Nat}

namespace Tasks

theorem forking_setProc {f : Proc → Proc} (t : Tasks) (p q : Nat) (hf : ∀ x, (f x).forking = x.forking) :
    ((t.setProc p f).proc q).forking = (t.proc q).forking := by
  by_cases hqp : q = p
  · subst hqp
    simp [Tasks.setProc, ProcTable.setProc, hf]
  · simp [Tasks.setProc, ProcTable.setProc, hqp]

theorem forking_setForking (t : Tasks) (p q : Nat) (v : Option (Nat × ForkStage)) :
    ((t.setForking p v).proc q).forking = if q = p then v else (t.proc q).forking := by
  by_cases hqp : q = p
  · subst hqp
    simp [setForking, Tasks.setProc, ProcTable.setProc]
  · simp [setForking, Tasks.setProc, ProcTable.setProc, hqp]

theorem state_setForking (t : Tasks) (p q : Nat) (v : Option (Nat × ForkStage)) :
    ((t.setForking p v).proc q).state = (t.proc q).state := by
  by_cases hqp : q = p
  · subst hqp
    simp [setForking, Tasks.setProc, ProcTable.setProc]
  · simp [setForking, Tasks.setProc, ProcTable.setProc, hqp]

/-- A `proc_fork` goes on by its own steps only. -/
theorem Moves.forking {a : Act} (hmoves : t.Moves a t') (ha : a.quiet = true) (q : Nat) :
    (t'.proc q).forking = (t.proc q).forking := by
  cases hmoves with
  | scheduler => exact (Inv.proc_enter _ _ _ q).2.2
  | yield => exact (Inv.proc_enter _ _ _ q).2.2
  | wq_sleep => exact (Inv.proc_enter _ _ _ q).2.2
  | wq_wake_one _ hwakes => exact forking_wakes hwakes q
  | wq_wake_all _ hwakes => exact forking_wakes hwakes q
  | @sys_sleep now ms p =>
    have hset : ((t.setProc p fun x => { x with wake_time := wakeTime now ms }).proc q).forking =
        (t.proc q).forking := forking_setProc t p q fun _ => rfl
    exact (Inv.proc_enter _ _ _ q).2.2.trans hset
  | sys_sleep_return => exact forking_setProc t _ q fun _ => rfl
  | wake_expired_sleepers hwakes => exact forking_wakes hwakes q
  | proc_kill hkills =>
    cases hkills with
    | missing => rfl
    | marked => exact forking_setProc t _ q fun _ => rfl
    | @woken p =>
      have hset : ((t.setProc p fun x => { x with killed := true }).proc q).forking = (t.proc q).forking :=
        forking_setProc t p q fun _ => rfl
      exact (Inv.proc_enter _ _ _ q).2.2.trans hset
  | _ => cases ha

/-- What the processes that do not run have. The dead ones and those that are not
published yet are not `busy`, and a process that is not published is the child of
a `proc_fork` that goes on. -/
structure Spent (t : Tasks) (busy : Nat → Prop) : Prop where
  zombie : ∀ p ∈ t.live, (t.proc p).state = .PROC_ZOMBIE → ¬ busy p ∧ (t.proc p).forking = none
  hidden : ∀ c ∈ t.live, c ∉ t.list .all_procs → ¬ busy c ∧ (t.proc c).forking = none ∧
    ∃ p ∈ t.live, ∃ stage, (t.proc p).forking = some (c, stage)

variable {busy : Nat → Prop}

theorem Spent.same (hspent : t.Spent busy) (hsame : SameLives t t')
    (hforking : ∀ q ∈ t.live, (t'.proc q).forking = (t.proc q).forking) : t'.Spent busy := by
  refine ⟨fun p hp hz => ?_, fun c hc hca => ?_⟩
  · rw [hsame.live] at hp
    rw [hforking p hp]
    exact hspent.zombie p hp ((hsame.zombie p hp).mp hz)
  · rw [hsame.live] at hc
    rw [hsame.all] at hca
    obtain ⟨hbusy, hnone, p, hp, stage, hfork⟩ := hspent.hidden c hc hca
    rw [hforking c hc, hsame.live]
    exact ⟨hbusy, hnone, p, hp, stage, (hforking p hp).trans hfork⟩

theorem Spent.exits {status : BitVec 32} (hspent : t.Spent busy) (hinv : t.Inv) (hp : t.current = some p)
    (hbusy : ¬ busy p) (hnone : (t.proc p).forking = none) (hexits : t.Exits p status t') : t'.Spent busy := by
  obtain ⟨t₂, hsame, hinv₂, hp₂, hforking, rfl⟩ := hexits.dies hinv hp
  have hspent₂ := hspent.same hsame fun q _ => hforking q
  have hdie : ∀ q, ((t₂.die p status).proc q).forking = (t₂.proc q).forking := by
    intro q
    by_cases hqp : q = p
    · subst hqp
      simp [die, enter, Tasks.setProc, ProcTable.setProc]
    · simp [die, enter, Tasks.setProc, ProcTable.setProc, hqp]
  refine ⟨fun q hq hz => ?_, fun c hc hca => ?_⟩
  · rw [hdie q]
    by_cases hqp : q = p
    · subst hqp
      exact ⟨hbusy, (hforking q).trans hnone⟩
    · refine hspent₂.zombie q hq ?_
      simpa [die, enter, Tasks.setProc, ProcTable.setProc, hqp] using hz
  · obtain ⟨hidle, hnone', r, hr, stage, hfork⟩ := hspent₂.hidden c hc hca
    exact ⟨hidle, (hdie c).trans hnone', r, hr, stage, (hdie r).trans hfork⟩

/-- A step that changes the process `c` and, if there is another one, the process
`p` that has forked it. -/
theorem Spent.change (hspent : t.Spent busy) (p c : Nat) (hlive : ∀ q ≠ c, (q ∈ t'.live ↔ q ∈ t.live))
    (hall : ∀ q ≠ c, (q ∈ t'.list .all_procs ↔ q ∈ t.list .all_procs))
    (hstate : ∀ q ≠ c, (t'.proc q).state = (t.proc q).state)
    (hforking : ∀ q ≠ c, q ≠ p → (t'.proc q).forking = (t.proc q).forking)
    (hp : p ≠ c → p ∈ t.list .all_procs ∧ (t.proc p).state ≠ .PROC_ZOMBIE ∧
      ∀ d stage, (t.proc p).forking = some (d, stage) → d = c)
    (hc : c ∈ t.live → (t.proc c).forking = none)
    (hself : c ∈ t'.live → (t'.proc c).state ≠ .PROC_ZOMBIE ∧ (c ∉ t'.list .all_procs → ¬ busy c ∧
      (t'.proc c).forking = none ∧ ∃ r ∈ t'.live, ∃ stage, (t'.proc r).forking = some (c, stage))) :
    t'.Spent busy := by
  refine ⟨fun q hq hz => ?_, fun d hd hda => ?_⟩
  · have hqc : q ≠ c := by
      rintro rfl
      exact (hself hq).1 hz
    rw [hstate q hqc] at hz
    have hqp : q ≠ p := by
      rintro rfl
      exact (hp hqc).2.1 hz
    rw [hforking q hqc hqp]
    exact hspent.zombie q ((hlive q hqc).mp hq) hz
  · by_cases hdc : d = c
    · subst hdc
      exact (hself hd).2 hda
    rw [hlive d hdc] at hd
    rw [hall d hdc] at hda
    have hdp : d ≠ p := by
      rintro rfl
      exact hda (hp hdc).1
    obtain ⟨hbusy, hnone, r, hr, stage, hfork⟩ := hspent.hidden d hd hda
    have hrc : r ≠ c := by
      rintro rfl
      rw [hc hr] at hfork
      cases hfork
    have hrp : r ≠ p := by
      rintro rfl
      exact hdc ((hp hrc).2.2 d stage hfork)
    rw [hforking d hdc hdp]
    exact ⟨hbusy, hnone, r, (hlive r hrc).mpr hr, stage, (hforking r hrc hrp).trans hfork⟩

theorem Spent.create_kernel {c : Nat} (hspent : t.Spent busy) (hc : c ∉ t.live) :
    ((t.create c).publish c).Spent busy := by
  have hproc : ∀ q ≠ c, ((t.create c).publish c).proc q = t.proc q := by
    intro q hq
    simp [publish, enter, Tasks.setProc, ProcTable.setProc, push, put, hq, Tree.proc_create]
  have hall : ((t.create c).publish c).list .all_procs = t.list .all_procs ++ [c] := by
    rw [list_publish_all, Tree.list_create (by simp) (by simp)]
  refine hspent.change c c (fun q hq => ?_) (fun q hq => ?_) (fun q hq => ?_) (fun q hq _ => ?_)
    (fun hne => absurd rfl hne) (fun hmem => absurd hmem hc) fun _ => ⟨?_, fun hnot => ?_⟩
  · simp [live_publish, Tree.live_create, hq]
  · simp [hall, hq]
  · rw [hproc q hq]
  · rw [hproc q hq]
  · simp [publish, enter, Tasks.setProc, ProcTable.setProc, push, put, Place.state]
  · simp [hall] at hnot

theorem Spent.fork_create {c : Nat} (hspent : t.Spent busy) (hinv : t.Inv) (hp : t.current = some p)
    (hnone : (t.proc p).forking = none) (hc : c ∉ t.live) (hbusy : ¬ busy c) :
    ((t.create c).setForking p (some (c, .created))).Spent busy := by
  obtain ⟨hpa, -⟩ := (hinv.placed.current p).mp hp
  have hpc : p ≠ c := by
    rintro rfl
    exact hc (hinv.placed.live p hpa)
  have hlive : ∀ q, q ∈ ((t.create c).setForking p (some (c, .created))).live ↔ q = c ∨ q ∈ t.live := by
    intro q
    rw [← List.mem_cons, ← Tree.live_create]
    rfl
  have hall : ((t.create c).setForking p (some (c, .created))).list .all_procs = t.list .all_procs :=
    Tree.list_create (by simp) (by simp)
  have hself : (t.create c).proc c = { pid := t.next_pid, parent := t.init_proc } := by
    rw [Tree.proc_create, Function.update_self]
  refine hspent.change p c (fun q hq => ?_) (fun q _ => by rw [hall]) (fun q hq => ?_) (fun q hq hqp => ?_)
    (fun _ => ⟨hpa, hinv.current_not_zombie hp, fun d stage hd => ?_⟩) (fun hmem => absurd hmem hc)
    fun _ => ⟨?_, fun _ => ⟨hbusy, ?_, p, ?_, .created, ?_⟩⟩
  · simp [hlive, hq]
  · rw [state_setForking, Tree.proc_create, Function.update_of_ne hq]
  · rw [forking_setForking, if_neg hqp, Tree.proc_create, Function.update_of_ne hq]
  · rw [hnone] at hd
    cases hd
  · simp [setForking, Tasks.setProc, ProcTable.setProc, Ne.symm hpc, hself]
  · rw [forking_setForking, if_neg hpc.symm, hself]
  · simp [hlive, hinv.placed.live p hpa]
  · rw [forking_setForking, if_pos rfl]

/-- A later step of the `proc_fork` of `p`, which has the child `c`. -/
theorem Spent.fork {c : Nat} {stage : ForkStage} (hspent : t.Spent busy) (hinv : t.Inv) (hp : t.current = some p)
    (hfork : (t.proc p).forking = some (c, stage)) (hlive : ∀ q ≠ c, (q ∈ t'.live ↔ q ∈ t.live))
    (hall : ∀ q ≠ c, (q ∈ t'.list .all_procs ↔ q ∈ t.list .all_procs))
    (hstate : ∀ q ≠ c, (t'.proc q).state = (t.proc q).state)
    (hforking : ∀ q ≠ p, (t'.proc q).forking = (t.proc q).forking)
    (hself : c ∈ t'.live → (t'.proc c).state ≠ .PROC_ZOMBIE ∧
      (c ∉ t'.list .all_procs → ∃ stage', (t'.proc p).forking = some (c, stage'))) : t'.Spent busy := by
  obtain ⟨hpa, -⟩ := (hinv.placed.current p).mp hp
  have hpl := hinv.placed.live p hpa
  obtain ⟨hcl, hca, -⟩ := hinv.forking hpl hfork
  obtain ⟨hbusy, hnone, -⟩ := hspent.hidden c hcl hca
  have hpc : p ≠ c := by
    rintro rfl
    exact hca hpa
  refine hspent.change p c hlive hall hstate (fun q _ hqp => hforking q hqp)
    (fun _ => ⟨hpa, hinv.current_not_zombie hp, fun d stage' hd => ?_⟩) (fun _ => hnone)
    fun hmem => ⟨(hself hmem).1, fun hnot => ⟨hbusy, (hforking c hpc.symm).trans hnone, p, (hlive p hpc).mpr hpl,
      (hself hmem).2 hnot⟩⟩
  rw [hfork] at hd
  cases hd
  rfl

theorem Spent.reap {c : Nat} (hspent : t.Spent busy) (hinv : t.Inv) (hc : c ∈ t.live)
    (hz : (t.proc c).state = .PROC_ZOMBIE) : (t.reap p c).Spent busy := by
  have hlive : (t.reap p c).live = t.live.erase c := rfl
  have hall : (t.reap p c).list .all_procs = (t.list .all_procs).erase c := by
    simp [Tasks.reap, free, drop, put]
  refine hspent.change c c (fun q hq => ?_) (fun q hq => ?_) (fun _ _ => rfl) (fun _ _ _ => rfl)
    (fun hne => absurd rfl hne) (fun _ => (hspent.zombie c hc hz).2) fun hmem => ?_
  · rw [hlive, List.mem_erase_of_ne hq]
  · rw [hall, List.mem_erase_of_ne hq]
  · rw [hlive] at hmem
    exact absurd hmem hinv.tree.nodup.not_mem_erase

/-- Steps keep this if only a process that is not busy exits, and between its
`proc_fork`s. -/
theorem Moves.spent {a : Act} (hmoves : t.Moves a t') (hinv : t.Inv) (hspent : t.Spent busy)
    (hgone : ∀ q ∉ t.live, ¬ busy q)
    (hexit : ∀ status, a = .proc_exit status → ∀ p, t.current = some p → ¬ busy p ∧ (t.proc p).forking = none)
    (hfork : ∀ mem kstack, a = .fork_create mem kstack → ∀ p, t.current = some p → (t.proc p).forking = none) :
    t'.Spent busy := by
  by_cases hquiet : a.quiet = true
  · exact hspent.same (hmoves.sameLives hinv hquiet) fun q _ => hmoves.forking hquiet q
  cases hmoves with
  | @proc_exit status p _ hp hexits =>
    obtain ⟨hbusy, hnone⟩ := hexit status rfl p hp
    exact hspent.exits hinv hp hbusy hnone hexits
  | @proc_wait p r _ hp hwaits =>
    cases hwaits with
    | no_children => exact hspent
    | @reaped c hc _ _ _ hz =>
      exact hspent.reap hinv ((hinv.tree.child p (hinv.placed.current_live hp) c).mp hc).1 hz
    | killed => exact hspent
    | slept => exact hspent.same (.block hinv hp rfl) fun q _ => (Inv.proc_enter _ _ _ q).2.2
  | proc_create_kernel hc => exact hspent.create_kernel hc
  | @fork_create mem kstack p _ hp hforks =>
    cases hforks with
    | no_memory => exact hspent
    | @no_stack c hc =>
      refine hspent.same (.abandon hc) fun q hq => ?_
      have hqc : q ≠ c := fun heq => hc (heq ▸ hq)
      simp [abandon, hqc]
    | @created c hc => exact hspent.fork_create hinv hp (hfork mem kstack rfl p hp) hc (hgone c hc)
  | @fork_fail p q c stage hp hforking hq hc hnodup =>
    have hlive : ((t.discard q c).setForking p none).live = t.live.erase c := rfl
    refine hspent.fork hinv hp hforking (fun r hr => ?_) (fun r _ => ?_) (fun r _ => ?_) (fun r hr => ?_) fun hmem => ?_
    · rw [hlive, List.mem_erase_of_ne hr]
    · simp [setForking, Tasks.setProc, Tasks.discard, free, drop, put]
    · rw [state_setForking]
      rfl
    · rw [forking_setForking, if_neg hr]
      rfl
    · rw [hlive] at hmem
      exact absurd hmem hinv.tree.nodup.not_mem_erase
  | @fork_reparent p q c stage hp hforking hq hc hnodup =>
    have hcl := ((hinv.tree.child q hq c).mp hc).1
    have hstate : ∀ r, (((t.adopt q p c).setForking p (some (c, .reparented))).proc r).state = (t.proc r).state :=
      fun r => (state_setForking _ p r _).trans (Tree.proc_adopt t q p c r).2.1
    have hall : ((t.adopt q p c).setForking p (some (c, .reparented))).list .all_procs = t.list .all_procs :=
      Tree.list_adopt (t := t) (p := q) (i := p) (c := c) (g := .all_procs) (by simp)
    have hca := (hinv.forking (hinv.placed.current_live hp) hforking).2.1
    refine hspent.fork hinv hp hforking (fun _ _ => .rfl) (fun r _ => ?_) (fun r _ => hstate r) (fun r hr => ?_)
      fun _ => ⟨?_, fun _ => ⟨.reparented, ?_⟩⟩
    · rw [hall]
    · rw [forking_setForking, if_neg hr]
      exact (Tree.proc_adopt t q p c r).2.2
    · rw [hstate, hinv.tree.hidden c hcl hca]
      simp
    · rw [forking_setForking, if_pos rfl]
  | @fork_publish p c stage hp hforking =>
    have hproc : ∀ r ≠ c, ((t.setForking p none).publish c).proc r = (t.setForking p none).proc r := by
      intro r hr
      simp [publish, enter, Tasks.setProc, ProcTable.setProc, push, put, hr]
    have hall : ((t.setForking p none).publish c).list .all_procs = t.list .all_procs ++ [c] := list_publish_all _ c
    refine hspent.fork hinv hp hforking (fun _ _ => .rfl) (fun r hr => ?_) (fun r hr => ?_) (fun r hr => ?_)
      fun _ => ⟨?_, fun hnot => ?_⟩
    · simp [hall, hr]
    · rw [hproc r hr, state_setForking]
    · rw [(proc_publish _ c r).2.2, forking_setForking, if_neg hr]
    · simp [publish, enter, Tasks.setProc, ProcTable.setProc, push, put, Place.state]
    · simp [hall] at hnot
  | _ => exact absurd rfl hquiet

/-- The processes that a step frees. -/
theorem Moves.freed {a : Act} (hmoves : t.Moves a t') (hinv : t.Inv) (hq : q ∈ t.live) (hq' : q ∉ t'.live) :
    (t.proc q).state = .PROC_ZOMBIE ∨ q ∉ t.list .all_procs := by
  by_cases hquiet : a.quiet = true
  · rw [(hmoves.sameLives hinv hquiet).live] at hq'
    exact absurd hq hq'
  cases hmoves with
  | @proc_exit status p _ hp hexits =>
    obtain ⟨t₂, hsame, -, -, -, rfl⟩ := hexits.dies hinv hp
    exact absurd (show q ∈ t₂.live from hsame.live ▸ hq) hq'
  | @proc_wait p r _ hp hwaits =>
    cases hwaits with
    | @reaped c hc _ _ _ hz =>
      by_cases hqc : q = c
      · exact .inl (hqc ▸ hz)
      · exact absurd ((List.mem_erase_of_ne hqc).mpr hq) hq'
    | _ => exact absurd hq hq'
  | proc_create_kernel => exact absurd (by simp [live_publish, Tree.live_create, hq]) hq'
  | @fork_create mem kstack p _ hp hforks =>
    cases hforks with
    | created => exact absurd (by simp [setForking, Tasks.setProc, ProcTable.setProc, Tree.live_create, hq]) hq'
    | _ => exact absurd hq hq'
  | @fork_fail p r c stage hp hforking =>
    by_cases hqc : q = c
    · exact .inr (hqc ▸ (hinv.forking (hinv.placed.current_live hp) hforking).2.1)
    · exact absurd ((List.mem_erase_of_ne hqc).mpr hq) hq'
  | fork_reparent => exact absurd hq hq'
  | fork_publish => exact absurd hq hq'
  | _ => exact absurd rfl hquiet

/-- What is current does not belong to the processes that do not run. -/
theorem Spent.mono {busy' : Nat → Prop} (hspent : t.Spent busy) (hinv : t.Inv)
    (hbusy : ∀ q, t.current ≠ some q → busy' q → busy q) : t.Spent busy' := by
  refine ⟨fun q hq hz => ?_, fun c hc hca => ?_⟩
  · obtain ⟨hidle, hnone⟩ := hspent.zombie q hq hz
    exact ⟨fun hq' => hidle (hbusy q (fun hcur => hinv.current_not_zombie hcur hz) hq'), hnone⟩
  · obtain ⟨hidle, hfork⟩ := hspent.hidden c hc hca
    exact ⟨fun hc' => hidle (hbusy c (fun hcur => hca ((hinv.placed.current c).mp hcur).1) hc'), hfork⟩

theorem Spent.of_rep (hspent : t.Spent busy) (hrep : Rep s t) (hrep' : Rep s t') : t'.Spent busy := by
  have htable : t'.toProcTable = t.toProcTable := hrep'.table.symm.trans hrep.table
  have hall : t'.list .all_procs = t.list .all_procs :=
    (Procs.listed_of_rep hrep' (h := .all_procs) rfl).unique (Procs.listed_of_rep hrep (h := .all_procs) rfl)
  refine ⟨?_, ?_⟩
  · rw [htable]
    exact hspent.zombie
  · rw [htable, hall]
    exact hspent.hidden

end Tasks

namespace Kern

variable {k k' : Kern}

/-- The process has a sleep lock or a buffer. -/
def Busy (k : Kern) (p : Nat) : Prop := k.held p ≠ ∅ ∨ k.uses p ≠ []

/-- How many of the references to buffer `b` the processes account for. -/
def refs (k : Kern) (b : Nat) : Nat := ∑ p ∈ k.procs.live.toFinset, (k.uses p).count b

/-- Every locked sleep lock has a holder. -/
def Owned (k : Kern) : Prop := ∀ n, (k.cache.lock n).locked = true → ∃ p, n ∈ k.held p

/-- The dead processes have released what they had, and what is taken is
accounted for by processes that are not dead. -/
structure ReleaseInv (k : Kern) (t : Tasks) : Prop where
  lock : LockInv k t
  spent : t.Spent k.Busy
  owned : k.Owned
  refs : ∀ b, (k.cache.buf b).refcnt = k.refs b

theorem not_busy_of_gone (hk : LockInv k t) (hp : p ∉ t.live) : ¬ k.Busy p := by
  simp [Busy, (hk.gone p hp).1, (hk.gone p hp).2.2]

/-- One process has other buffers than before. -/
theorem refs_update (cache : Bcache) (us : List Nat) (b : Nat) (hp : p ∈ k.procs.live) :
    refs { k with cache, uses := Function.update k.uses p us } b + (k.uses p).count b = k.refs b + us.count b := by
  have hmem : p ∈ k.procs.live.toFinset := List.mem_toFinset.mpr hp
  simp only [refs]
  rw [← Finset.add_sum_erase _ _ hmem, ← Finset.add_sum_erase _ (fun q => (k.uses q).count b) hmem]
  have hrest : ∑ q ∈ k.procs.live.toFinset.erase p, (Function.update k.uses p us q).count b =
      ∑ q ∈ k.procs.live.toFinset.erase p, (k.uses q).count b := by
    refine Finset.sum_congr rfl fun q hq => ?_
    rw [Function.update_of_ne (Finset.ne_of_mem_erase hq)]
  rw [hrest, Function.update_self]
  omega

/-- Processes that have no buffer come and go. -/
theorem refs_forget {b : Nat} (hnew : ∀ q ∉ k.procs.live, k.uses q = [])
    (hfreed : ∀ q ∈ k.procs.live, q ∉ s'.live → k.uses q = []) :
    (forget { k with procs := s' }).refs b = k.refs b := by
  have hnew' : ∀ q ∉ s'.live, k.uses q = [] := by
    intro q hq
    by_cases hq' : q ∈ k.procs.live
    · exact hfreed q hq' hq
    · exact hnew q hq'
  have hleft : ∑ q ∈ s'.live.toFinset, (k.uses q).count b =
      ∑ q ∈ s'.live.toFinset ∪ k.procs.live.toFinset, (k.uses q).count b := by
    refine Finset.sum_subset Finset.subset_union_left fun q _ hq => ?_
    simp [hnew' q (by simpa using hq)]
  have hright : k.refs b = ∑ q ∈ s'.live.toFinset ∪ k.procs.live.toFinset, (k.uses q).count b := by
    refine Finset.sum_subset Finset.subset_union_right fun q _ hq => ?_
    simp [hnew q (by simpa using hq)]
  rw [hright, ← hleft]
  refine Finset.sum_congr rfl fun q hq => ?_
  simp [forget, List.mem_toFinset.mp hq]

/-- A step of the scheduler, in which only a process that is idle exits. -/
theorem ReleaseInv.moves {a : Procs.Act} (hk : ReleaseInv k t) (hrep : Rep s' t') (hmoves : t.Moves a t')
    (hexit : ∀ status, a = .proc_exit status → ∀ p, t.current = some p → k.Idle p)
    (hfork : ∀ mem kstack, a = .fork_create mem kstack → ∀ p, t.current = some p → (t.proc p).forking = none) :
    t'.Spent (forget { k with procs := s' }).Busy ∧ (forget { k with procs := s' }).Owned ∧
      ∀ b, (k.cache.buf b).refcnt = (forget { k with procs := s' }).refs b := by
  have hinv := hk.lock.inv
  have hspent : t'.Spent k.Busy := by
    refine hmoves.spent hinv hk.spent (fun q hq => not_busy_of_gone hk.lock hq) (fun status ha p hp => ?_) hfork
    obtain ⟨hheld, huses, hnone⟩ := hexit status ha p hp
    rw [hk.lock.rep.proc] at hnone
    exact ⟨by simp [Busy, hheld, huses], hnone⟩
  have hfreed : ∀ q ∈ t.live, q ∉ t'.live → ¬ k.Busy q := by
    intro q hq hq'
    rcases hmoves.freed hinv hq hq' with hz | hnot
    · exact (hk.spent.zombie q hq hz).1
    · exact (hk.spent.hidden q hq hnot).1
  refine ⟨hspent.mono (hmoves.inv hinv) fun q _ hbusy => ?_, fun n hlocked => ?_, fun b => ?_⟩
  · simp only [Busy, forget] at hbusy
    split at hbusy
    · exact hbusy
    · simp at hbusy
  · obtain ⟨p, hp⟩ := hk.owned n hlocked
    refine ⟨p, ?_⟩
    have hpl : p ∈ t'.live := by
      by_contra hnot
      refine hfreed p (hk.lock.live_of_held hp) hnot (.inl ?_)
      exact Finset.ne_empty_of_mem hp
    simpa [forget, hrep.live, hpl] using hp
  · rw [refs_forget, hk.refs b]
    · intro q hq
      rw [hk.lock.rep.live] at hq
      exact (hk.lock.gone q hq).2.2
    · intro q hq hq'
      rw [hk.lock.rep.live] at hq
      rw [hrep.live] at hq'
      by_contra huses
      exact hfreed q hq hq' (.inr huses)

/-- A step of the current process at a sleep lock. -/
structure AtLocks (k : Kern) (t : Tasks) (k' : Kern) : Prop where
  rep : ∃ t', Rep k'.procs t' ∧ Tasks.SameLives t t' ∧ ∀ q, (t'.proc q).forking = (t.proc q).forking
  buf : k'.cache.buf = k.cache.buf
  uses : k'.uses = k.uses
  held : ∀ q, t.current ≠ some q → k'.held q = k.held q
  owned : k.Owned → k'.Owned

theorem sleep_lock_atLocks (hk : LockInv k t) (hp : t.current = some p) :
    wp (sleep_lock n) (fun _ k' => AtLocks k t k') k := by
  have hother : ∀ {q}, t.current ≠ some q → q ≠ p := by
    rintro q hq rfl
    exact hq hp
  simp only [sleep_lock, onProcs, onCache, wp_bind, wp_onField, wp_get]
  refine this_proc_spec hk.rep hp (getProc_spec hk.rep (hk.inv.placed.current_live hp) ?_)
  rw [wp_ite]
  refine ⟨fun hlocked => ?_, fun hfree => ?_⟩
  · simp only [wp_bind, wp_onField, wp_modify]
    refine wp_mono (wq_sleep_spec hk.rep hk.inv.placed hp rfl) fun _ s' hrep => ?_
    exact ⟨⟨_, hrep, .block hk.inv hp rfl, fun q => (Tasks.Inv.proc_enter _ _ _ q).2.2⟩, rfl, rfl, fun _ _ => rfl, id⟩
  · simp only [wp_bind, wp_onField, wp_modify]
    refine ⟨⟨t, hk.rep, .refl t, fun _ => rfl⟩, rfl, rfl, fun q hq => ?_, fun howned m hm => ?_⟩
    · simp [setHeld, setWaiting, hother hq]
    · by_cases hmn : m = n
      · exact ⟨p, by simp [setHeld, setWaiting, hmn]⟩
      · have hm' : (k.cache.lock m).locked = true := by
          simpa [setHeld, setWaiting, bobchouos.sleep_lock, Bcache.setLock, hmn] using hm
        obtain ⟨q, hq⟩ := howned m hm'
        refine ⟨q, ?_⟩
        by_cases hqp : q = p
        · subst hqp
          simp [setHeld, setWaiting, hq]
        · simpa [setHeld, setWaiting, hqp] using hq

theorem sleep_lock_retry_atLocks (hk : LockInv k t) (hp : t.current = some p) :
    wp sleep_lock_retry (fun _ k' => AtLocks k t k') k := by
  simp only [sleep_lock_retry, onProcs, wp_bind, wp_onField, wp_get]
  refine this_proc_spec hk.rep hp ?_
  cases hw : k.waiting p with
  | none => exact wp_pure.mpr ⟨⟨t, hk.rep, .refl t, fun _ => rfl⟩, rfl, rfl, fun _ _ => rfl, id⟩
  | some n => exact sleep_lock_atLocks hk hp

theorem sleep_unlock_atLocks (hk : LockInv k t) (hp : t.current = some p) :
    wp (sleep_unlock n) (fun _ k' => AtLocks k t k') k := by
  simp only [sleep_unlock, onProcs, onCache, wp_bind, wp_onField, wp_modify]
  refine this_proc_spec hk.rep hp (wp_mono (wq_wake_one_spec (w := lockQueue n) hk.rep hk.inv rfl) fun r s' hr => ?_)
  refine ⟨?_, rfl, rfl, fun q hq => ?_, fun howned m hm => ?_⟩
  · cases hlist : t.list (.wq (lockQueue n)) with
    | nil =>
      rw [hlist] at hr
      exact ⟨t, hr.2, .refl t, fun _ => rfl⟩
    | cons q xs =>
      rw [hlist] at hr
      exact ⟨_, hr.2, .wake hk.inv rfl rfl (by simp [hlist]), fun q => (Tasks.Inv.proc_enter _ _ _ q).2.2⟩
  · have hqp : q ≠ p := by
      rintro rfl
      exact hq hp
    simp [setHeld, hqp]
  · have hmn : m ≠ n := by
      rintro rfl
      simp [setHeld, bobchouos.sleep_unlock, Bcache.setLock] at hm
    have hm' : (k.cache.lock m).locked = true := by
      simpa [setHeld, bobchouos.sleep_unlock, Bcache.setLock, hmn] using hm
    obtain ⟨q, hq⟩ := howned m hm'
    refine ⟨q, ?_⟩
    by_cases hqp : q = p
    · subst hqp
      simp [setHeld, hq, hmn]
    · simpa [setHeld, hqp] using hq

theorem ReleaseInv.atLocks (hk : ReleaseInv k t) (hstep : AtLocks k t k') (hlock : LockInv k' t') :
    ReleaseInv k' t' := by
  obtain ⟨t₁, hrep₁, hsame, hforking⟩ := hstep.rep
  have hlive : k'.procs.live = k.procs.live := by
    rw [hrep₁.live, hsame.live, hk.lock.rep.live]
  have hspent : t.Spent k'.Busy := by
    refine hk.spent.mono hk.lock.inv fun q hq hbusy => ?_
    rwa [Busy, hstep.held q hq, hstep.uses] at hbusy
  refine ⟨hlock, (hspent.same hsame fun q _ => hforking q).of_rep hrep₁ hlock.rep, hstep.owned hk.owned, fun b => ?_⟩
  rw [hstep.buf, hk.refs b]
  simp only [Kern.refs, hlive, hstep.uses]

/-- A step of the current process at a buffer. -/
theorem ReleaseInv.atBuffer {cache : Bcache} {us : List Nat} (hk : ReleaseInv k t) (hp : t.current = some p)
    (hlock : cache.lock = k.cache.lock)
    (hrefs : ∀ b, (cache.buf b).refcnt + (k.uses p).count b = (k.cache.buf b).refcnt + us.count b) :
    ReleaseInv { k with cache, uses := Function.update k.uses p us } t := by
  refine ⟨hk.lock.uses hp hlock, hk.spent.mono hk.lock.inv fun q hq hbusy => ?_, ?_, fun b => ?_⟩
  · have hqp : q ≠ p := by
      rintro rfl
      exact hq hp
    simpa [Busy, hqp] using hbusy
  · intro n hn
    refine hk.owned n ?_
    rwa [← hlock]
  · have hpl : p ∈ k.procs.live := hk.lock.rep.live ▸ hk.lock.inv.placed.current_live hp
    have hsum := refs_update cache us b hpl
    have hbuf := hrefs b
    rw [hk.refs b] at hbuf
    change (cache.buf b).refcnt = _
    omega

theorem refcnt_brelse_ref (b b' : Nat) (c : Bcache) : ((bobchouos.brelse_ref b c).buf b').refcnt =
    if b' = b then (c.buf b).refcnt - 1 else (c.buf b').refcnt := by
  have hbuf : (bobchouos.brelse_ref b c).buf = (c.setBuf b { c.buf b with refcnt := (c.buf b).refcnt - 1 }).buf := by
    unfold bobchouos.brelse_ref
    dsimp only
    split <;> rfl
  rw [hbuf]
  by_cases hb : b' = b
  · simp [Bcache.setBuf, hb]
  · simp [Bcache.setBuf, hb]

theorem refcnt_bget {c c' : Bcache} {dev blockno b : Nat} (hrun : bobchouos.bget dev blockno c = .ok (b, c'))
    (b' : Nat) : (c'.buf b').refcnt = if b' = b then (c.buf b).refcnt + 1 else (c.buf b').refcnt := by
  rcases bget_cases hrun with ⟨-, rfl⟩ | ⟨-, -, hzero, rfl⟩
  · by_cases hb : b' = b
    · simp [Bcache.setBuf, hb]
    · simp [Bcache.setBuf, hb]
  · by_cases hb : b' = b
    · simp [Bcache.setBuf, hb, hzero]
    · simp [Bcache.setBuf, hb]

/-- A timer interrupt that ends a killed process finds it idle. -/
def Gentle (k : Kern) : Act → Prop
  | .timer => ∀ p, k.procs.current = some p → (k.procs.proc p).killed = true → k.Idle p
  | _ => True

theorem ReleaseInv.exec_procs {b : Procs.Act} (hk : ReleaseInv k t) (hb : k.procs.Enabled b)
    (hexit : ∀ status, b = .proc_exit status → ∀ p, t.current = some p → k.Idle p)
    (hok : Procs.exec b k.procs = .ok ((), s')) (hlock : LockInv (forget { k with procs := s' }) t') :
    ReleaseInv (forget { k with procs := s' }) t' := by
  rcases exec_spec hk.lock.rep hk.lock.inv hb with ⟨message, hpanic⟩ | hwp
  · rw [hok] at hpanic
    cases hpanic
  obtain ⟨t₁, hrep₁, hmoves⟩ := hwp.post hok
  obtain ⟨hspent, howned, hrefs⟩ := hk.moves hrep₁ hmoves hexit fun mem kstack ha p hp => by
    subst ha
    obtain ⟨q, hq, hnone, -⟩ := hb
    rw [hk.lock.rep.current, hp] at hq
    cases hq
    rwa [← hk.lock.rep.proc]
  exact ⟨hlock, hspent.of_rep hrep₁ hlock.rep, howned, hrefs⟩

theorem ReleaseInv.step {a : Act} (hk : ReleaseInv k t) (hgentle : k.Gentle a) (hstep : system.step a k k') :
    ∃ t', ReleaseInv k' t' := by
  obtain ⟨t', hlock⟩ := hk.lock.step hstep
  obtain ⟨ha, hrun⟩ := hstep
  have hcurrent : ∀ {p}, k.procs.current = some p → t.current = some p := fun hp => hk.lock.rep.current ▸ hp
  cases a with
  | proc b =>
    obtain ⟨_, k₁, hon, hforget⟩ := bind_eq_ok_iff.mp hrun
    obtain ⟨s', hok, rfl⟩ := onField_eq_ok_iff.mp hon
    cases hforget
    obtain ⟨hb, -, -, hexit⟩ := ha.proc
    exact ⟨t', hk.exec_procs hb (fun status heq p hp => hexit status heq p (hk.lock.rep.current ▸ hp)) hok hlock⟩
  | sleep_lock n =>
    obtain ⟨p, hp, -⟩ := ha
    exact ⟨t', hk.atLocks ((sleep_lock_atLocks hk.lock (hcurrent hp)).post hrun) hlock⟩
  | sleep_lock_retry =>
    obtain ⟨p, hp, -⟩ := ha
    exact ⟨t', hk.atLocks ((sleep_lock_retry_atLocks hk.lock (hcurrent hp)).post hrun) hlock⟩
  | sleep_unlock n =>
    obtain ⟨p, hp, -⟩ := ha
    exact ⟨t', hk.atLocks ((sleep_unlock_atLocks hk.lock (hcurrent hp)).post hrun) hlock⟩
  | bget dev blockno =>
    obtain ⟨p, hp, -⟩ := ha
    obtain ⟨b, c, hget, rfl⟩ := bget_ok hk.lock (hcurrent hp) hrun
    refine ⟨t, hk.atBuffer (hcurrent hp) (bget_lock hget) fun b' => ?_⟩
    rw [refcnt_bget hget, List.count_cons]
    by_cases hb : b' = b
    · subst hb
      simp
      omega
    · simp [hb, Ne.symm hb]
  | brelse_ref b =>
    obtain ⟨p, hp, -, hb⟩ := ha
    obtain rfl := brelse_ref_ok hk.lock (hcurrent hp) hrun
    refine ⟨t, hk.atBuffer (hcurrent hp) (brelse_ref_lock b _) fun b' => ?_⟩
    rw [refcnt_brelse_ref]
    by_cases hbb : b' = b
    · subst hbb
      have hpos : 0 < (k.uses p).count b' := List.count_pos_iff.mpr hb
      rw [if_pos rfl, List.count_erase_self]
      omega
    · rw [if_neg hbb, List.count_erase_of_ne hbb]
  | timer =>
    obtain ⟨p, hp, -⟩ := ha
    obtain ⟨_, k₁, htrap, hforget⟩ := bind_eq_ok_iff.mp hrun
    cases hforget
    have henabled : ∀ {b}, b = .proc_exit (-1) ∨ b = .yield → k.procs.Enabled b := by
      rintro b (rfl | rfl)
      · simp [Procs.Enabled, hp]
      · simp [Procs.Enabled, hp]
    obtain ⟨s', rfl, ⟨hkilled, hok⟩ | ⟨-, hok⟩⟩ := kernel_trap_ret_cases hk.lock (hcurrent hp) htrap
    · refine ⟨t', hk.exec_procs (henabled (.inl rfl)) (fun _ _ q hq => ?_) hok hlock⟩
      rw [hcurrent hp] at hq
      cases hq
      exact hgentle p hp (hk.lock.rep.proc ▸ hkilled)
    · exact ⟨t', hk.exec_procs (henabled (.inr rfl)) (fun _ heq => by cases heq) hok hlock⟩

/-- What the dead processes had is released: they have no lock, no buffer and no
child that is not published, every locked lock is held by a process that is not
dead, every reference to a buffer is that of a process, and who is not published
is the child of a `proc_fork` that goes on. -/
structure Released (k : Kern) : Prop where
  idle : ∀ p ∈ k.procs.live, (k.procs.proc p).state = .PROC_ZOMBIE → k.Idle p
  locks : ∀ n, (k.cache.lock n).locked = true → ∃ p ∈ k.procs.live, (k.procs.proc p).state ≠ .PROC_ZOMBIE ∧
    n ∈ k.held p ∧ (k.cache.lock n).pid = (k.procs.proc p).pid.toNat
  buffers : ∀ b, (k.cache.buf b).refcnt = k.refs b
  children : ∀ c ∈ k.procs.live, ¬ k.procs.Published c → ∃ p ∈ k.procs.live,
    (k.procs.proc p).state ≠ .PROC_ZOMBIE ∧ ∃ stage, (k.procs.proc p).forking = some (c, stage)

theorem ReleaseInv.released (hk : ReleaseInv k t) : k.Released := by
  have hlive := hk.lock.rep.live
  have hproc := hk.lock.rep.proc
  refine ⟨?_, fun n hn => ?_, hk.refs, fun c hc hnot => ?_⟩
  · rw [hlive, hproc]
    intro p hp hz
    obtain ⟨hbusy, hnone⟩ := hk.spent.zombie p hp hz
    simp only [Busy, not_or, not_not] at hbusy
    exact ⟨hbusy.1, hbusy.2, hproc ▸ hnone⟩
  · obtain ⟨p, hp⟩ := hk.owned n hn
    have hpl := hk.lock.live_of_held hp
    refine ⟨p, hlive ▸ hpl, fun hz => ?_, hp, ?_⟩
    · rw [hproc] at hz
      exact (hk.spent.zombie p hpl hz).1 (.inl (Finset.ne_empty_of_mem hp))
    · rw [hproc]
      exact (hk.lock.holder p n hp).2
  · rw [hlive] at hc ⊢
    have hca : c ∉ t.list .all_procs := fun hmem =>
      hnot ⟨_, Procs.listed_of_rep hk.lock.rep (h := .all_procs) rfl, hmem⟩
    obtain ⟨-, -, p, hp, stage, hfork⟩ := hk.spent.hidden c hc hca
    rw [hproc]
    refine ⟨p, hp, fun hz => ?_, stage, hfork⟩
    rw [(hk.spent.zombie p hp hz).2] at hfork
    cases hfork

instance decidableGentle (k : Kern) : DecidablePred k.Gentle
  | .timer => inferInstanceAs (Decidable
      (∀ p, k.procs.current = some p → (k.procs.proc p).killed = true → k.Idle p))
  | .proc _ | .sleep_lock _ | .sleep_lock_retry | .sleep_unlock _ | .bget _ _ | .brelse_ref _ => isTrue trivial

/-- Process 3 does `as`, and then a timer interrupt comes, init kills it, and
another timer interrupt comes when it runs again. -/
def killedAfter (as : List Act) : List Act := twoChildren ++ as ++
  [.timer, .proc (.scheduler 0), .timer, .proc (.scheduler 0), .proc (.proc_kill 2), .timer, .proc (.scheduler 0),
    .timer, .proc (.scheduler 0), .timer]

/-- Process 3 dies in its `proc_fork`. The child stays on the list of init, and
nobody will publish or free it. -/
theorem exit_keeps_child : ∃ k, system.Reachable k ∧ (k.procs.proc 3).state = .PROC_ZOMBIE ∧ 5 ∈ k.procs.live ∧
    (k.procs.proc 5).parent = some 2 ∧ ¬ k.Released := by
  obtain ⟨k, hrun, hlive, hz, hfork, hchild⟩ := exists_of_any
    (o := bootRun Enabled (killedAfter [.proc (.fork_create (some 5) true)]))
    (P := fun k => 3 ∈ k.procs.live ∧ (k.procs.proc 3).state = .PROC_ZOMBIE ∧ (k.procs.proc 3).forking ≠ none ∧
      5 ∈ k.procs.live ∧ (k.procs.proc 5).parent = some 2) (by decide +kernel)
  refine ⟨k, reachable_bootRun (fun _ hk => hk) (fun _ _ _ ha hok => ⟨ha, hok⟩) hrun, hz, hchild.1, hchild.2, ?_⟩
  exact fun hreleased => hfork (hreleased.idle 3 hlive hz).2.2

end Kern

end bobchouos
