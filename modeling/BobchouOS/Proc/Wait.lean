import BobchouOS.Proc.Queues

open lib

namespace bobchouos

variable {s s' : Procs} {t t' : Tasks} {h : Head} {p : Nat}

namespace Tasks

/-- No process sleeps in `proc_wait` while it has a zombie child. -/
def Calm (t : Tasks) : Prop :=
  ∀ p ∈ t.live, p ∈ t.list (.wq (.child_wq p)) → ∀ c ∈ t.list (.children p), (t.proc c).state ≠ .PROC_ZOMBIE

/-- A step after which nobody sleeps more and no child is a zombie more. -/
theorem Calm.mono (hcalm : t.Calm) (hsleep : ∀ p ∈ t'.live, p ∈ t'.list (.wq (.child_wq p)) →
      p ∈ t.live ∧ p ∈ t.list (.wq (.child_wq p)))
    (hzombie : ∀ p ∈ t'.live, ∀ c ∈ t'.list (.children p), (t'.proc c).state = .PROC_ZOMBIE →
      c ∈ t.list (.children p) ∧ (t.proc c).state = .PROC_ZOMBIE) : t'.Calm := by
  intro p hp hon c hc hz
  obtain ⟨hpl, hon⟩ := hsleep p hp hon
  obtain ⟨hc, hz⟩ := hzombie p hp c hc hz
  exact hcalm p hpl hon c hc hz

/-- A step that leaves the tree as it is. -/
theorem Calm.move (hcalm : t.Calm) (hlive : t'.live = t.live)
    (hsub : ∀ p, t'.list (.wq (.child_wq p)) ⊆ t.list (.wq (.child_wq p)))
    (hchild : ∀ p, t'.list (.children p) = t.list (.children p))
    (hstate : ∀ c, (t'.proc c).state = .PROC_ZOMBIE → (t.proc c).state = .PROC_ZOMBIE) : t'.Calm := by
  refine hcalm.mono ?_ ?_
  · intro p hp hon
    exact ⟨hlive ▸ hp, hsub p hon⟩
  · intro p _ c hc hz
    exact ⟨hchild p ▸ hc, hstate c hz⟩

theorem zombie_enter {b : Place} {c : Nat} (hb : b.state ≠ .PROC_ZOMBIE)
    (hz : ((t.enter p b).proc c).state = .PROC_ZOMBIE) : c ≠ p ∧ (t.proc c).state = .PROC_ZOMBIE := by
  by_cases hcp : c = p
  · subst hcp
    rw [Placed.state_enter_self] at hz
    exact absurd hz hb
  · rw [Placed.state_enter hcp] at hz
    exact ⟨hcp, hz⟩

theorem Calm.setProc {f : Proc → Proc} (hcalm : t.Calm) (hf : ∀ x, (f x).state = x.state) : (t.setProc p f).Calm := by
  refine hcalm.move rfl (fun _ => List.Subset.refl _) (fun _ => rfl) fun c hz => ?_
  by_cases hcp : c = p
  · subst hcp
    simpa [Tasks.setProc, ProcTable.setProc, hf] using hz
  · simpa [Tasks.setProc, ProcTable.setProc, hcp] using hz

theorem Calm.block {xs : List Nat} (hcalm : t.Calm) (hqueue : h.isQueue = true) (hh : ∀ r, h ≠ .wq (.child_wq r)) :
    (t.block h xs p).Calm := by
  refine hcalm.move rfl ?_ (fun q => Inv.list_put rfl hqueue) fun c hz => ?_
  · intro q
    have heq : (t.block h xs p).list (.wq (.child_wq q)) = t.list (.wq (.child_wq q)) := by
      simp [Tasks.block, enter, Tasks.setProc, put, (hh q).symm]
    rw [heq]
    exact List.Subset.refl _
  · refine (zombie_enter (b := .queue h) ?_ hz).2
    cases h <;> simp [Place.state]

/-- `proc_wait` has looked at all children before it sleeps. -/
theorem Calm.wait {xs : List Nat} (hcalm : t.Calm)
    (hnone : ∀ c ∈ t.list (.children p), (t.proc c).state ≠ .PROC_ZOMBIE) :
    (t.block (.wq (.child_wq p)) xs p).Calm := by
  intro q hq hon c hc hz
  have hz₀ := (zombie_enter (b := .queue (.wq (.child_wq p))) (by simp [Place.state]) hz).2
  have hc₀ : c ∈ t.list (.children q) := by
    simpa [Tasks.block, enter, Tasks.setProc, put] using hc
  by_cases hqp : q = p
  · subst hqp
    exact hnone c hc₀ hz₀
  · refine hcalm q hq ?_ c hc₀ hz₀
    simpa [Tasks.block, enter, Tasks.setProc, put, hqp] using hon

theorem wake_sub (t : Tasks) (h : Head) (p q : Nat) :
    (t.wake h p).list (.wq (.child_wq q)) ⊆ t.list (.wq (.child_wq q)) := by
  by_cases hh : h = .wq (.child_wq q)
  · subst hh
    simpa [Tasks.wake, enter, Tasks.setProc, push, drop, put] using List.erase_subset
  · simp [Tasks.wake, enter, Tasks.setProc, push, drop, put, Ne.symm hh]

theorem Calm.wake (hcalm : t.Calm) (hqueue : h.isQueue = true) : (t.wake h p).Calm := by
  refine hcalm.move rfl (wake_sub t h p) (fun q => ?_) fun c hz => (zombie_enter (by simp [Place.state]) hz).2
  have hne : Head.children q ≠ h := by
    rintro rfl
    cases hqueue
  simp [Tasks.wake, enter, Tasks.setProc, push, drop, put, hne]

theorem Calm.wakes (hcalm : t.Calm) (hqueue : h.isQueue = true) (hwakes : t.Wakes h t') : t'.Calm := by
  induction hwakes with
  | refl => exact hcalm
  | step _ _ _ ih => exact ih.wake hqueue

theorem Calm.create (hcalm : t.Calm) (hinit : t.init_proc ≠ some p) : (t.create p).Calm := by
  have hstate : ∀ c, ((t.create p).proc c).state = .PROC_ZOMBIE → c ≠ p ∧ (t.proc c).state = .PROC_ZOMBIE := by
    intro c hz
    rw [Tree.proc_create] at hz
    by_cases hcp : c = p
    · simp [hcp] at hz
    · rw [Function.update_of_ne hcp] at hz
      exact ⟨hcp, hz⟩
  refine hcalm.mono ?_ ?_
  · intro q hq hon
    by_cases hqp : q = p
    · subst hqp
      have hnil : (t.create q).list (.wq (.child_wq q)) = [] := by
        unfold Tasks.create
        split <;> simp [push, put]
      simp [hnil] at hon
    · rw [Tree.list_create (by simp) (by simpa using hqp)] at hon
      rw [Tree.live_create] at hq
      exact ⟨(List.mem_cons.mp hq).resolve_left hqp, hon⟩
  · intro q _ c hc hz
    obtain ⟨hcp, hz⟩ := hstate c hz
    rcases (Tree.mem_create_children hinit).mp hc with ⟨-, hc⟩ | ⟨heq, -⟩
    · exact ⟨hc, hz⟩
    · exact absurd heq hcp

theorem Calm.publish (hcalm : t.Calm) : (t.publish p).Calm := by
  refine hcalm.move rfl (fun q => ?_) (fun q => ?_) fun c hz => ?_
  · rw [Placed.list_publish (by simp)]
    simp [push, put]
  · rw [Placed.list_publish (by simp)]
    simp [push, put]
  · exact (zombie_enter (p := p) (b := .queue .run_queue) (by simp [Place.state]) hz).2

/-- A process is freed. -/
theorem Calm.free {c : Nat} (hcalm : t.Calm) : (t.free c).Calm := by
  refine hcalm.mono (fun q hq hon => ⟨List.mem_of_mem_erase hq, hon⟩) fun q _ d hd hz => ⟨hd, hz⟩

theorem Calm.drop {c : Nat} (hcalm : t.Calm) (hh : ∀ r, h ≠ .wq (.child_wq r)) : (t.drop h c).Calm := by
  refine hcalm.mono (fun q hq hon => ⟨hq, ?_⟩) fun q _ d hd hz => ⟨?_, hz⟩
  · simpa [Tasks.drop, put, (hh q).symm] using hon
  · by_cases hqh : Head.children q = h
    · subst hqh
      refine List.mem_of_mem_erase (a := d) (b := c) ?_
      simpa [Tasks.drop, put] using hd
    · simpa [Tasks.drop, put, hqh] using hd

theorem mem_adopt {i c q d : Nat} (hd : d ∈ (t.adopt p i c).list (.children q)) :
    d ∈ t.list (.children q) ∨ q = i ∧ d = c := by
  by_cases hdc : d = c
  · subst hdc
    by_cases hqi : q = i
    · exact .inr ⟨hqi, rfl⟩
    · left
      by_cases hqp : q = p
      · subst hqp
        refine List.mem_of_mem_erase (a := d) (b := d) ?_
        simpa [adopt, push, Tasks.drop, put, Tasks.setProc, hqi] using hd
      · simpa [adopt, push, Tasks.drop, put, Tasks.setProc, hqi, hqp] using hd
  · exact .inl ((Tree.mem_adopt_of_ne hdc).mp hd)

/-- A child that is not a zombie gets another parent. -/
theorem Calm.adopt {i c : Nat} (hcalm : t.Calm) (hc : (t.proc c).state ≠ .PROC_ZOMBIE) : (t.adopt p i c).Calm := by
  refine hcalm.mono (fun q hq hon => ⟨hq, ?_⟩) fun q _ d hd hz => ?_
  · rw [Tree.list_adopt (by simp)] at hon
    exact hon
  · rw [(Tree.proc_adopt t p i c d).2.1] at hz
    rcases mem_adopt hd with hd | ⟨-, rfl⟩
    · exact ⟨hd, hz⟩
    · exact absurd hz hc

/-- An exit of `p` that may hand its children to init: init is its parent, or
does not sleep in `proc_wait`, or none of the children is a zombie. -/
def HandsOver (t : Tasks) (p : Nat) : Prop :=
  ∀ i, t.init_proc = some i → (t.proc p).parent ≠ some i → i ∈ t.list (.wq (.child_wq i)) →
    ∀ c ∈ t.list (.children p), (t.proc c).state ≠ .PROC_ZOMBIE

theorem Adopts.children {i : Nat} (hadopts : t.Adopts p i t') : (∀ q, t'.list (.wq (.child_wq q)) =
      t.list (.wq (.child_wq q))) ∧ ((t.proc p).parent = some i → (t'.proc p).parent = some i) ∧
    ∀ q d, d ∈ t'.list (.children q) → d ∈ t.list (.children q) ∨ q = i ∧ d ∈ t.list (.children p) := by
  induction hadopts with
  | refl => exact ⟨fun _ => rfl, id, fun _ _ hd => .inl hd⟩
  | @step t₁ c xs _ hlist _ ih =>
    obtain ⟨hwq, hparent, hchild⟩ := ih
    refine ⟨fun q => ?_, fun hp => ?_, fun q d hd => ?_⟩
    · rw [Tree.list_adopt (by simp), hwq]
    · rw [Tree.parent_adopt, hparent hp]
      simp
    · rcases mem_adopt hd with hd | ⟨rfl, rfl⟩
      · exact hchild q d hd
      · have hold := hchild p d (by simp [hlist])
        exact .inr ⟨rfl, hold.elim id And.right⟩

theorem Wakes.sub (hwakes : t.Wakes h t') : (∀ q, t'.list (.wq (.child_wq q)) ⊆ t.list (.wq (.child_wq q))) ∧
    ∀ c, (t'.proc c).state = .PROC_ZOMBIE → (t.proc c).state = .PROC_ZOMBIE := by
  induction hwakes with
  | refl => exact ⟨fun _ => List.Subset.refl _, fun _ => id⟩
  | @step t₁ p xs _ _ _ ih =>
    refine ⟨fun q => List.Subset.trans (wake_sub t₁ h p q) (ih.1 q), fun c hz => ih.2 c ?_⟩
    exact (zombie_enter (by simp [Place.state]) hz).2

/-- The parent of a process that exits does not sleep after it. -/
theorem Calm.exits {status : BitVec 32} (hcalm : t.Calm) (hinv : t.Inv) (hp : t.current = some p)
    (hover : t.HandsOver p) (hexits : t.Exits p status t') : t'.Calm := by
  cases hexits with
  | @exit i q t₁ t₂ hi hpid hadopts hnil hparent hwakes hempty =>
    have hpl := hinv.placed.current_live hp
    obtain ⟨hinv₁, hlive₁, -, -, -, hproc₁⟩ := hadopts.inv hinv hpl hi
    obtain ⟨hwq₁, hparent₁, hchild₁⟩ := hadopts.children
    have hq : q ∈ t₁.live := hinv₁.placed.live q (hinv₁.tree.parent p (hlive₁ ▸ hpl) q hparent)
    obtain ⟨-, hlive₂, -, -, hlist₂, -⟩ := hwakes.inv hinv₁ rfl (Node.alive_child_wq.mpr hq) (by simp)
    obtain ⟨hsub₂, hzombie₂⟩ := hwakes.sub
    intro r hr hon c hc hz
    have hrl : r ∈ t₁.live := hlive₂ ▸ hr
    have hrq : r ≠ q := by
      rintro rfl
      rw [show (t₂.die p status).list (.wq (.child_wq r)) = _ from hempty] at hon
      cases hon
    have hon₁ : r ∈ t.list (.wq (.child_wq r)) := hwq₁ r ▸ hsub₂ r hon
    have hc₁ : c ∈ t₁.list (.children r) := hlist₂ (.children r) rfl ▸ hc
    -- `p` is a child of `q` only
    have hcp : c ≠ p := by
      rintro rfl
      have hr' := ((hinv₁.tree.child r hrl c).mp hc₁).2
      rw [hparent] at hr'
      exact hrq (Option.some.inj hr').symm
    have hz₂ : (t₂.proc c).state = .PROC_ZOMBIE := by
      simpa [Tasks.die, enter, Tasks.setProc, ProcTable.setProc, hcp] using hz
    have hz₀ : (t.proc c).state = .PROC_ZOMBIE := (hproc₁ c).2 ▸ hzombie₂ c hz₂
    rcases hchild₁ r c hc₁ with hc₀ | ⟨rfl, hc₀⟩
    · exact hcalm r (hlive₁ ▸ hrl) hon₁ c hc₀ hz₀
    · refine hover r hi (fun hpr => hrq ?_) hon₁ c hc₀ hz₀
      exact Option.some.inj ((hparent₁ hpr).symm.trans hparent)

theorem Calm.moves {a : Procs.Act} (hcalm : t.Calm) (hinv : t.Inv) (hmoves : t.Moves a t')
    (hover : ∀ p status, t.current = some p → a = .proc_exit status → t.HandsOver p) : t'.Calm := by
  have hnew : ∀ {c}, c ∉ t.live → t.init_proc ≠ some c := fun hc hi => hc (hinv.init_live hi)
  cases hmoves with
  | @scheduler now timer p xs =>
    refine hcalm.move rfl (fun q => ?_) (fun q => ?_) fun c hz => ?_
    · simp [Tasks.dispatch, enter, Tasks.setProc, Tasks.drop, put]
    · simp [Tasks.dispatch, enter, Tasks.setProc, Tasks.drop, put]
    · exact (zombie_enter (p := p) (b := .cpu) (by simp [Place.state]) hz).2
  | yield => exact hcalm.block rfl (by simp)
  | wq_sleep => exact hcalm.block rfl (by simp)
  | wq_wake_one _ hwakes => exact hcalm.wakes rfl hwakes
  | wq_wake_all _ hwakes => exact hcalm.wakes rfl hwakes
  | @sys_sleep now ms p =>
    have hcalm' : (t.setProc p fun x => { x with wake_time := wakeTime now ms }).Calm := hcalm.setProc fun _ => rfl
    exact hcalm'.block rfl (by simp)
  | sys_sleep_return => exact hcalm.setProc fun _ => rfl
  | wake_expired_sleepers hwakes => exact hcalm.wakes rfl hwakes
  | proc_kill hkills =>
    cases hkills with
    | missing => exact hcalm
    | marked => exact hcalm.setProc fun _ => rfl
    | @woken p h hall _ _ hplace =>
      have hcalm' : (t.setProc p fun x => { x with killed := true }).Calm := hcalm.setProc fun _ => rfl
      exact hcalm'.wake (hinv.placed.queue p hall h hplace).1
  | @proc_exit status p _ hp hexits => exact hcalm.exits hinv hp (hover p status hp rfl) hexits
  | @proc_wait p r _ hp hwaits =>
    cases hwaits with
    | no_children => exact hcalm
    | killed => exact hcalm
    | reaped => exact (((hcalm.drop (by simp)).drop (by simp)).drop (by simp)).free
    | slept hnone => exact hcalm.wait hnone
  | proc_create_kernel hp => exact (hcalm.create (hnew hp)).publish
  | fork_create _ hfork =>
    cases hfork with
    | no_memory => exact hcalm
    | @no_stack c hc =>
      refine hcalm.move rfl (fun _ => List.Subset.refl _) (fun _ => rfl) fun d hz => ?_
      by_cases hdc : d = c
      · simp [abandon, hdc] at hz
      · simpa [abandon, hdc] using hz
    | created hc => exact (hcalm.create (hnew hc)).setProc fun _ => rfl
  | fork_fail => exact ((hcalm.drop (by simp)).free).setProc fun _ => rfl
  | @fork_reparent p q c stage hp hfork =>
    obtain ⟨hcl, hca, -⟩ := hinv.forking (hinv.placed.current_live hp) hfork
    refine (hcalm.adopt ?_).setProc fun _ => rfl
    simp [hinv.tree.hidden c hcl hca]
  | @fork_publish p c =>
    have hcalm' : (t.setForking p none).Calm := hcalm.setProc fun _ => rfl
    exact hcalm'.publish

end Tasks

namespace Procs

instance decidableCurrent (current : Option Nat) (Q : Nat → Prop) [DecidablePred Q] :
    Decidable (∃ p, current = some p ∧ Q p) :=
  match current with
  | none => isFalse (by simp)
  | some p => decidable_of_iff (Q p) (by simp)

instance decidableMem (mem : Option Nat) (Q : Nat → Prop) [DecidablePred Q] : Decidable (∀ c, mem = some c → Q c) :=
  match mem with
  | none => isTrue (by simp)
  | some c => decidable_of_iff (Q c) (by simp)

instance decidableEnabled (s : Procs) : DecidablePred s.Enabled
  | .scheduler _ => inferInstanceAs (Decidable (s.current = none))
  | .wq_wake_one w | .wq_wake_all w =>
    inferInstanceAs (Decidable (s.current ≠ none ∧ (Node.head (.wq w)).alive s.live = true))
  | .proc_create_kernel p => inferInstanceAs (Decidable (s.current ≠ none ∧ p ∉ s.live))
  | .fork_create mem _ => inferInstanceAs (Decidable
      (∃ p, s.current = some p ∧ (s.proc p).forking = none ∧ ∀ c, mem = some c → c ∉ s.live))
  | .fork_fail c | .fork_reparent c =>
    inferInstanceAs (Decidable (∃ p, s.current = some p ∧ (s.proc p).forking = some (c, .created)))
  | .fork_publish c =>
    inferInstanceAs (Decidable (∃ p, s.current = some p ∧ (s.proc p).forking = some (c, .reparented)))
  | .yield | .wq_sleep _ | .sys_sleep _ _ | .sys_sleep_return | .wake_expired_sleepers _ | .proc_kill _
  | .proc_exit _ | .proc_wait => inferInstanceAs (Decidable (s.current ≠ none))

/-- The steps `as` from `s` on, if they can be taken. -/
def run : List Act → Procs → Option Procs
  | [], s => some s
  | a :: as, s =>
    if s.Enabled a then
      match exec a s with
      | .ok ((), s') => run as s'
      | .error _ => none
    else none

/-- The steps `as` after a `proc_bootstrap` with idle at 1 and init at 2. -/
def bootRun (as : List Act) : Option Procs :=
  match proc_bootstrap 1 2 start with
  | .ok ((), s) => run as s
  | .error _ => none

section runs

variable {M : Lts Procs Act} {as : List Act}

theorem reachable_run (hstep : ∀ a ∈ as, ∀ s s', system.step a s s' → M.step a s s') (hs : M.Reachable s)
    (hrun : run as s = some s') : M.Reachable s' := by
  induction as generalizing s with
  | nil =>
    cases hrun
    exact hs
  | cons a as ih =>
    simp only [run] at hrun
    split at hrun
    · rename_i ha
      cases hexec : exec a s with
      | ok r =>
        rw [hexec] at hrun
        have hnext := hstep a List.mem_cons_self s r.2 ⟨ha, hexec⟩
        exact ih (fun b hb => hstep b (List.mem_cons_of_mem a hb)) (hs.step hnext) hrun
      | error halt =>
        rw [hexec] at hrun
        cases hrun
    · cases hrun

theorem reachable_bootRun (hinit : ∀ s, system.init s → M.init s)
    (hstep : ∀ a ∈ as, ∀ s s', system.step a s s' → M.step a s s') (hrun : bootRun as = some s) : M.Reachable s := by
  cases hboot : proc_bootstrap 1 2 start with
  | ok r =>
    rw [bootRun, hboot] at hrun
    exact reachable_run hstep (.init (hinit r.2 ⟨1, 2, by decide, hboot⟩)) hrun
  | error halt =>
    rw [bootRun, hboot] at hrun
    cases hrun

/-- A property of the end of a run that is found by running it. -/
theorem exists_of_bootRun (as : List Act) {P : Procs → Prop} [DecidablePred P]
    (hany : (bootRun as).any (fun s => decide (P s)) = true) : ∃ s, bootRun as = some s ∧ P s := by
  cases hend : bootRun as with
  | none => simp [hend] at hany
  | some s => exact ⟨s, rfl, by simpa [hend] using hany⟩

end runs

/-- No process that sleeps on its `child_wq` has a zombie on its list of children. -/
def NoLostWakeup (s : Procs) : Prop :=
  ∀ p ∈ s.live, ∀ xs cs, s.Listed (.wq (.child_wq p)) xs → p ∈ xs → s.Listed (.children p) cs →
    ∀ c ∈ cs, (s.proc c).state ≠ .PROC_ZOMBIE

/-- A process exits only if it is a child of init, or init does not sleep on its
`child_wq`, or none of the children it hands to init is a zombie. -/
def Careful (s : Procs) : Act → Prop
  | .proc_exit _ => ∀ p i xs cs, s.current = some p → s.init_proc = some i → (s.proc p).parent ≠ some i →
      s.Listed (.wq (.child_wq i)) xs → i ∈ xs → s.Listed (.children p) cs →
      ∀ c ∈ cs, (s.proc c).state ≠ .PROC_ZOMBIE
  | _ => True

/-- The runs in which every exit is a careful one. -/
def carefulSystem : Lts Procs Act where
  init := system.init
  step a s s' := s.Careful a ∧ system.step a s s'

theorem noLostWakeup_of_calm (hrep : Rep s t) (hcalm : t.Calm) : s.NoLostWakeup := by
  intro p hp xs cs hxs hon hcs c hc
  rw [hrep.live] at hp
  rw [hrep.proc]
  refine hcalm p hp ?_ c ?_
  · rw [← hxs.unique (listed_of_rep hrep (Node.alive_child_wq.mpr hp))]
    exact hon
  · rw [← hcs.unique (listed_of_rep hrep (Node.alive_children.mpr hp))]
    exact hc

theorem handsOver_of_careful {status : BitVec 32} (hrep : Rep s t) (hinv : t.Inv) (hp : t.current = some p)
    (hcareful : s.Careful (.proc_exit status)) : t.HandsOver p := by
  intro i hi hparent hon c hc
  have hlisted := listed_of_rep hrep (Node.alive_child_wq.mpr (hinv.init_live hi))
  have hchildren := listed_of_rep hrep (Node.alive_children.mpr (hinv.placed.current_live hp))
  rw [← hrep.proc]
  rw [← hrep.proc] at hparent
  exact hcareful p i _ _ (hrep.current.trans hp) (hrep.init_proc.trans hi) hparent hlisted hon hchildren c hc

/-- No process waits after `proc_bootstrap`. -/
theorem boot_calm {idle init : Nat} : (Tasks.boot idle init).Calm := by
  have hempty : Tasks.empty.Calm := fun p hp => absurd hp List.not_mem_nil
  have hidle := (hempty.create (p := idle) nofun).publish (p := idle)
  have hinit := (hidle.create (p := init) nofun).publish (p := init)
  exact fun p hp hon c hc => hinit p hp hon c hc

/-- In the runs in which every exit is careful no wakeup of a parent is lost. -/
theorem noLostWakeup_of_careful (hs : carefulSystem.Reachable s) : s.NoLostWakeup := by
  obtain ⟨t, hrep, -, hcalm⟩ : ∃ t, Rep s t ∧ t.Inv ∧ t.Calm := by
    refine hs.invariant (P := fun s => ∃ t, Rep s t ∧ t.Inv ∧ t.Calm) ?_ ?_
    · rintro s ⟨idle, init, hne, hrun⟩
      obtain ⟨hwp, hinv⟩ := proc_bootstrap_spec hne
      exact ⟨_, hwp.post hrun, hinv, boot_calm⟩
    · rintro a s s' ⟨t, hrep, hinv, hcalm⟩ ⟨hcareful, ha, hrun⟩
      rcases exec_spec hrep hinv ha with ⟨message, hpanic⟩ | hwp
      · rw [hrun] at hpanic
        cases hpanic
      · obtain ⟨t', hrep', hmoves⟩ := hwp.post hrun
        refine ⟨t', hrep', hmoves.inv hinv, hcalm.moves hinv hmoves fun p status hp ha => ?_⟩
        subst ha
        exact handsOver_of_careful hrep hinv hp hcareful
  exact noLostWakeup_of_calm hrep hcalm

/-- The three steps of a `proc_fork`. -/
def proc_fork (child : Nat) : List Act := [.fork_create (some child) true, .fork_reparent child, .fork_publish child]

/-- Idle yields, init forks 3 and waits. -/
def initWaits : List Act := [.scheduler 0, .yield, .scheduler 0] ++ proc_fork 3 ++ [.proc_wait]

/-- Init sleeps in `proc_wait` while 3 is runnable. -/
theorem noLostWakeup_of_careful_initWaits : ∃ s, carefulSystem.Reachable s ∧
    s.links.Ring (.head (.wq (.child_wq 2))) [.link .wait_link 2] ∧ s.NoLostWakeup := by
  obtain ⟨s, hrun, hon⟩ := exists_of_bootRun initWaits
    (P := fun s => s.links.Ring (.head (.wq (.child_wq 2))) [.link .wait_link 2]) (by decide +kernel)
  have hs : carefulSystem.Reachable s := by
    refine reachable_bootRun (fun _ hs => hs) (fun a ha s s' hstep => ⟨?_, hstep⟩) hrun
    simp only [initWaits, proc_fork, List.cons_append, List.nil_append, List.mem_cons, List.not_mem_nil, or_false] at ha
    rcases ha with rfl | rfl | rfl | rfl | rfl | rfl | rfl <;> trivial
  exact ⟨s, hs, hon, noLostWakeup_of_careful hs⟩

/-- Init waits for 3, 3 forks 4, and 4 forks 5. Then 5 exits, and 4 after it,
which hands the zombie 5 to init and wakes 3. -/
def orphan : List Act :=
  initWaits ++ [.scheduler 0, .yield, .scheduler 0] ++ proc_fork 4 ++
  [.yield, .scheduler 0, .yield, .scheduler 0] ++ proc_fork 5 ++
  [.yield, .scheduler 0, .yield, .scheduler 0, .yield, .scheduler 0, .proc_exit 0, .scheduler 0, .proc_exit 0]

/-- A zombie comes onto the list of init and init sleeps on. -/
theorem wakeup_lost : ∃ s, system.Reachable s ∧ ¬ s.NoLostWakeup := by
  obtain ⟨s, hrun, hlive, hon, hchildren, hzombie⟩ := exists_of_bootRun orphan
    (P := fun s => 2 ∈ s.live ∧ s.links.Ring (.head (.wq (.child_wq 2))) [.link .wait_link 2] ∧
      s.links.Ring (.head (.children 2)) [.link .sibling 3, .link .sibling 5] ∧ (s.proc 5).state = .PROC_ZOMBIE)
    (by decide +kernel)
  refine ⟨s, reachable_bootRun (fun _ hs => hs) (fun _ _ _ _ hstep => hstep) hrun, fun hno => ?_⟩
  exact hno 2 hlive [2] [3, 5] hon (by simp) hchildren 5 (by simp) hzombie

end Procs

end bobchouos
