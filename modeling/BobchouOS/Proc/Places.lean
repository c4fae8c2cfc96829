import BobchouOS.Proc.Tasks

open lib

namespace bobchouos

/-- The lists on which a process waits. -/
def Head.isQueue : Head → Bool
  | .run_queue | .tsleep_list | .wq _ => true
  | .all_procs | .pid_table _ | .children _ => false

/-- The state that a process has in its place. -/
def Place.state : Place → ProcState
  | .cpu => .PROC_RUNNING
  | .queue .run_queue => .PROC_RUNNABLE
  | .queue _ => .PROC_SLEEPING
  | .zombie => .PROC_ZOMBIE

namespace Tasks

/-- A process comes to a place. -/
def enter (p : Nat) (b : Place) (t : Tasks) : Tasks :=
  { t.setProc p (fun x => { x with state := b.state }) with place := Function.update t.place p b }

/-- The current process leaves the CPU for a list, which then is `xs`. -/
def block (h : Head) (xs : List Nat) (p : Nat) (t : Tasks) : Tasks :=
  { (t.put h xs).enter p (.queue h) with current := none }

/-- A process comes from a list to the run queue. -/
def wake (h : Head) (p : Nat) (t : Tasks) : Tasks :=
  ((t.drop h p).push .run_queue p).enter p (.queue .run_queue)

/-- A process comes from the run queue to the CPU. -/
def dispatch (p : Nat) (t : Tasks) : Tasks :=
  { (t.drop .run_queue p).enter p .cpu with current := some p }

/-- The current process dies. -/
def die (p : Nat) (status : BitVec 32) (t : Tasks) : Tasks :=
  { (t.setProc p fun x => { x with exit_status := status }).enter p .zombie with current := none }

/-- The published processes and their places. -/
structure Placed (t : Tasks) : Prop where
  live : ∀ p ∈ t.list .all_procs, p ∈ t.live
  queue : ∀ p ∈ t.list .all_procs, ∀ h, t.place p = .queue h →
    h.isQueue = true ∧ (Node.head h).alive t.live = true
  mem : ∀ h, h.isQueue = true → (Node.head h).alive t.live = true → ∀ p,
    p ∈ t.list h ↔ p ∈ t.list .all_procs ∧ t.place p = .queue h
  state : ∀ p ∈ t.list .all_procs, (t.proc p).state = (t.place p).state
  current : ∀ p, t.current = some p ↔ p ∈ t.list .all_procs ∧ t.place p = .cpu
  own : ∀ p ∈ t.list .all_procs, ∀ r, t.place p = .queue (.wq (.child_wq r)) → r = p

namespace Placed

variable {t t' : Tasks} {h : Head} {p : Nat} {b : Place}

/-- One process changes its place. -/
theorem move (hplaced : Placed t) (hp : p ∈ t.list .all_procs) (hlive : t'.live = t.live)
    (hall : t'.list .all_procs = t.list .all_procs) (hplace : t'.place = Function.update t.place p b)
    (hself : (t'.proc p).state = b.state) (hstate : ∀ q ≠ p, (t'.proc q).state = (t.proc q).state)
    (hlist : ∀ h, h.isQueue = true → (Node.head h).alive t.live = true → ∀ q ≠ p, (q ∈ t'.list h ↔ q ∈ t.list h))
    (hmem : ∀ h, h.isQueue = true → (Node.head h).alive t.live = true → (p ∈ t'.list h ↔ b = .queue h))
    (hcurrent : ∀ q ≠ p, (t'.current = some q ↔ t.current = some q)) (hcpu : t'.current = some p ↔ b = .cpu)
    (hb : ∀ h, b = .queue h → h.isQueue = true ∧ (Node.head h).alive t.live = true)
    (hown : ∀ r, b = .queue (.wq (.child_wq r)) → r = p) : Placed t' := by
  have hsame : ∀ q, q ≠ p → t'.place q = t.place q := fun q hq => by rw [hplace, Function.update_of_ne hq]
  have hnew : t'.place p = b := by rw [hplace, Function.update_self]
  refine ⟨?_, ?_, ?_, ?_, ?_, ?_⟩
  · rw [hall, hlive]
    exact hplaced.live
  · intro q hq h hqh
    rw [hall] at hq
    rw [hlive]
    by_cases hqp : q = p
    · exact hb h (by rw [← hnew, ← hqp, hqh])
    · exact hplaced.queue q hq h (by rw [← hsame q hqp, hqh])
  · intro h hqueue halive q
    rw [hlive] at halive
    rw [hall]
    by_cases hqp : q = p
    · subst hqp
      rw [hnew, hmem h hqueue halive]
      exact ⟨fun hb => ⟨hp, hb⟩, fun hb => hb.2⟩
    · rw [hsame q hqp, hlist h hqueue halive q hqp]
      exact hplaced.mem h hqueue halive q
  · intro q hq
    rw [hall] at hq
    by_cases hqp : q = p
    · subst hqp
      rw [hnew, hself]
    · rw [hsame q hqp, hstate q hqp]
      exact hplaced.state q hq
  · intro q
    rw [hall]
    by_cases hqp : q = p
    · subst hqp
      rw [hnew, hcpu]
      exact ⟨fun hb => ⟨hp, hb⟩, fun hb => hb.2⟩
    · rw [hsame q hqp, hcurrent q hqp]
      exact hplaced.current q
  · intro q hq r hqr
    rw [hall] at hq
    by_cases hqp : q = p
    · subst hqp
      exact hown r (hnew ▸ hqr)
    · exact hplaced.own q hq r (hsame q hqp ▸ hqr)

theorem not_mem (hplaced : Placed t) (hqueue : h.isQueue = true) (halive : (Node.head h).alive t.live = true)
    (hplace : t.place p ≠ .queue h) : p ∉ t.list h :=
  fun hmem => hplace ((hplaced.mem h hqueue halive p).mp hmem).2

theorem state_enter {q : Nat} (hq : q ≠ p) : ((t.enter p b).proc q).state = (t.proc q).state := by
  simp [enter, setProc, ProcTable.setProc, hq]

theorem state_enter_self : ((t.enter p b).proc p).state = b.state := by
  simp [enter, setProc, ProcTable.setProc]

theorem block {xs : List Nat} (hplaced : Placed t) (hp : t.current = some p) (hqueue : h.isQueue = true)
    (halive : (Node.head h).alive t.live = true) (hxs : xs.Perm (p :: t.list h))
    (hown : ∀ r, h = .wq (.child_wq r) → r = p) : Placed (t.block h xs p) := by
  obtain ⟨hall, hcpu⟩ := (hplaced.current p).mp hp
  refine hplaced.move (b := .queue h) hall rfl ?_ rfl state_enter_self (fun q => state_enter) ?_ ?_ ?_ ?_ ?_ ?_
  · have hne : Head.all_procs ≠ h := by
      rintro rfl
      cases hqueue
    simp [Tasks.block, enter, setProc, put, hne]
  · intro g _ _ q hq
    by_cases hgh : g = h
    · subst hgh
      simp [Tasks.block, enter, setProc, put, hxs.mem_iff, hq]
    · simp [Tasks.block, enter, setProc, put, hgh]
  · intro g hgq hga
    by_cases hgh : g = h
    · subst hgh
      simp [Tasks.block, enter, setProc, put, hxs.mem_iff]
    · have hnot := hplaced.not_mem hgq hga (p := p) (by simp [hcpu])
      simp [Tasks.block, enter, setProc, put, hgh, hnot, Ne.symm hgh]
  · intro q hq
    simp [Tasks.block, hp, Ne.symm hq]
  · simp [Tasks.block]
  · rintro g hg
    cases hg
    exact ⟨hqueue, halive⟩
  · rintro r hr
    cases hr
    exact hown r rfl

theorem wake (hplaced : Placed t) (hqueue : h.isQueue = true) (halive : (Node.head h).alive t.live = true)
    (hnodup : (t.list h).Nodup) (hne : h ≠ .run_queue) (hp : p ∈ t.list h) : Placed (t.wake h p) := by
  obtain ⟨hall, hplace⟩ := (hplaced.mem h hqueue halive p).mp hp
  refine hplaced.move (b := .queue .run_queue) hall rfl ?_ rfl state_enter_self (fun q => state_enter) ?_ ?_ ?_ ?_ ?_ ?_
  · have hne' : Head.all_procs ≠ h := by
      rintro rfl
      cases hqueue
    simp [Tasks.wake, enter, setProc, push, drop, put, hne']
  · intro g _ _ q hq
    by_cases hgr : g = .run_queue
    · subst hgr
      simp [Tasks.wake, enter, setProc, push, drop, put, hq, hne.symm]
    · by_cases hgh : g = h
      · subst hgh
        simp [Tasks.wake, enter, setProc, push, drop, put, hgr, List.mem_erase_of_ne hq]
      · simp [Tasks.wake, enter, setProc, push, drop, put, hgr, hgh]
  · intro g hgq hga
    by_cases hgr : g = .run_queue
    · subst hgr
      simp [Tasks.wake, enter, setProc, push, put]
    · by_cases hgh : g = h
      · subst hgh
        simp [Tasks.wake, enter, setProc, push, drop, put, hgr, hnodup.not_mem_erase, Ne.symm hgr]
      · have hnot := hplaced.not_mem hgq hga (p := p) (by simpa [hplace] using Ne.symm hgh)
        simp [Tasks.wake, enter, setProc, push, drop, put, hgr, hgh, hnot, Ne.symm hgr]
  · exact fun q _ => .rfl
  · have hnot : t.current ≠ some p := fun hcur => by
      have hcpu := ((hplaced.current p).mp hcur).2
      rw [hplace] at hcpu
      cases hcpu
    exact ⟨fun hcur => absurd hcur hnot, fun hb => by cases hb⟩
  · rintro g hg
    cases hg
    exact ⟨rfl, rfl⟩
  · rintro r hr
    cases hr

theorem dispatch (hplaced : Placed t) (hnodup : (t.list .run_queue).Nodup) (hnone : t.current = none)
    (hp : p ∈ t.list .run_queue) : Placed (t.dispatch p) := by
  obtain ⟨hall, hplace⟩ := (hplaced.mem .run_queue rfl rfl p).mp hp
  refine hplaced.move (b := .cpu) hall rfl ?_ rfl state_enter_self (fun q => state_enter) ?_ ?_ ?_ ?_ ?_ ?_
  · simp [Tasks.dispatch, enter, setProc, drop, put]
  · intro g _ _ q hq
    by_cases hgr : g = .run_queue
    · subst hgr
      simp [Tasks.dispatch, enter, setProc, drop, put, List.mem_erase_of_ne hq]
    · simp [Tasks.dispatch, enter, setProc, drop, put, hgr]
  · intro g hgq hga
    by_cases hgr : g = .run_queue
    · subst hgr
      simp [Tasks.dispatch, enter, setProc, drop, put, hnodup.not_mem_erase]
    · have hnot := hplaced.not_mem hgq hga (p := p) (by simpa [hplace] using Ne.symm hgr)
      simp [Tasks.dispatch, enter, setProc, drop, put, hgr, hnot]
  · intro q hq
    simp [Tasks.dispatch, hnone, Ne.symm hq]
  · simp [Tasks.dispatch]
  · rintro g hg
    cases hg
  · rintro r hr
    cases hr

theorem die {status : BitVec 32} (hplaced : Placed t) (hp : t.current = some p) : Placed (t.die p status) := by
  obtain ⟨hall, hcpu⟩ := (hplaced.current p).mp hp
  refine hplaced.move (b := .zombie) hall rfl rfl rfl state_enter_self ?_ (fun g _ _ q _ => .rfl) ?_ ?_ ?_ ?_ ?_
  · intro q hq
    rw [Tasks.die, state_enter hq]
    simp [setProc, ProcTable.setProc, hq]
  · intro g hgq hga
    have hnot := hplaced.not_mem hgq hga (p := p) (by simp [hcpu])
    exact ⟨fun hmem => absurd hmem hnot, fun hb => by cases hb⟩
  · intro q hq
    simp [Tasks.die, hp, Ne.symm hq]
  · simp [Tasks.die]
  · rintro g hg
    cases hg
  · rintro r hr
    cases hr

end Placed

end Tasks

end bobchouos
