import BobchouOS.Proc.Creation

open lib

namespace bobchouos

variable {s : Procs} {t : Tasks} {p c : Nat}

namespace Tasks

def setForking (p : Nat) (v : Option (Nat × ForkStage)) (t : Tasks) : Tasks :=
  t.setProc p fun x => { x with forking := v }

/-- The three outcomes of `proc_create` in a `proc_fork` of `p`. -/
inductive ForkCreates (t : Tasks) (p : Nat) : Tasks → Prop
  | no_memory : ForkCreates t p t
  | no_stack {c : Nat} : c ∉ t.live → ForkCreates t p (t.abandon c)
  | created {c : Nat} : c ∉ t.live → ForkCreates t p ((t.create c).setForking p (some (c, .created)))

namespace Inv

theorem abandon (hinv : t.Inv) (hc : c ∉ t.live) : (t.abandon c).Inv := by
  have hproc : ∀ q ∈ t.live, (t.abandon c).proc q = t.proc q := by
    intro q hq
    have hqc : q ≠ c := fun heq => hc (heq ▸ hq)
    simp [Tasks.abandon, hqc]
  have hall := hinv.placed.live
  refine ⟨⟨hall, hinv.placed.queue, hinv.placed.mem, ?_, hinv.placed.current, hinv.placed.own⟩, ?_, hinv.booted⟩
  · intro q hq
    rw [hproc q (hall q hq)]
    exact hinv.placed.state q hq
  · refine ⟨hinv.tree.nodup, ?_, ?_, ?_, hinv.tree.dead, ?_, ?_, ?_, ?_, ?_⟩
    · intro q hq d
      rw [show d ∈ (t.abandon c).list (.children q) ↔ _ from hinv.tree.child q hq d]
      refine and_congr_right fun hd => ?_
      rw [hproc d hd]
    · intro d hd q hdq
      rw [hproc d hd] at hdq
      exact hinv.tree.parent d hd q hdq
    · intro d hd hnone
      rw [hproc d hd] at hnone ⊢
      exact hinv.tree.root d hd hnone
    · intro q hq hnot
      rw [hproc q hq]
      exact hinv.tree.hidden q hq hnot
    · intro j hj
      rw [hproc j (hall j (hinv.tree.init j hj).1)]
      exact hinv.tree.init j hj
    · intro q b
      rw [show q ∈ (t.abandon c).list (.pid_table b) ↔ _ from hinv.tree.bucket q b]
      refine and_congr_right fun hq => ?_
      rw [hproc q (hall q hq)]
    · intro q hq d stage hd
      rw [hproc q hq] at hd
      have hold := hinv.tree.fork q hq d stage hd
      rw [hproc d hold.1]
      exact hold
    · intro q hq r hr d stage stage' hqd hrd
      rw [hproc q hq] at hqd
      rw [hproc r hr] at hrd
      exact hinv.tree.fork_unique q hq r hr d stage stage' hqd hrd

theorem create (hinv : t.Inv) (hc : c ∉ t.live) : (t.create c).Inv := by
  refine ⟨hinv.placed.create hc, ?_, ?_⟩
  · exact hinv.tree.create hinv.placed.live hc fun hnone => absurd hnone hinv.booted
  · rw [Tree.init_create]
    exact hinv.booted

theorem setForking {v : Option (Nat × ForkStage)} (hinv : t.Inv)
    (hv : ∀ c stage, v = some (c, stage) → c ∈ t.live ∧ c ∉ t.list .all_procs ∧ (t.proc c).parent ≠ none ∧
      ∀ q ∈ t.live, q ≠ p → ∀ stage', (t.proc q).forking ≠ some (c, stage')) : (t.setForking p v).Inv := by
  refine ⟨hinv.placed.congr rfl (fun _ _ => rfl) rfl rfl rfl fun q => ?_, hinv.tree.setFork hv, hinv.booted⟩
  by_cases hqp : q = p
  · subst hqp
    simp [Tasks.setForking, setProc, ProcTable.setProc]
  · simp [Tasks.setForking, setProc, ProcTable.setProc, hqp]

/-- The child of a `proc_fork` is not published, it has no children, and no other
`proc_fork` has it. -/
theorem forking (hinv : t.Inv) {stage : ForkStage} (hp : p ∈ t.live) (hfork : (t.proc p).forking = some (c, stage)) :
    c ∈ t.live ∧ c ∉ t.list .all_procs ∧ (∃ q ∈ t.live, c ∈ t.list (.children q)) ∧
      (∀ d ∈ t.live, (t.proc d).parent ≠ some c) ∧
      ∀ q ∈ t.live, q ≠ p → ∀ stage', (t.proc q).forking ≠ some (c, stage') := by
  obtain ⟨hcl, hca, hparent⟩ := hinv.tree.fork p hp c stage hfork
  obtain ⟨q, hq⟩ := Option.ne_none_iff_exists'.mp hparent
  have hql := hinv.placed.live q (hinv.tree.parent c hcl q hq)
  refine ⟨hcl, hca, ⟨q, hql, (hinv.tree.child q hql c).mpr ⟨hcl, hq⟩⟩, ?_, ?_⟩
  · exact fun d hd hdc => hca (hinv.tree.parent d hd c hdc)
  · exact fun r hr hrp stage' hrc => hrp (hinv.tree.fork_unique r hr p hp c stage' stage hrc hfork)

end Inv

theorem ForkCreates.inv {t' : Tasks} (hfork : t.ForkCreates p t') (hinv : t.Inv) : t'.Inv := by
  cases hfork with
  | no_memory => exact hinv
  | no_stack hc => exact hinv.abandon hc
  | @created c hc =>
    refine (hinv.create hc).setForking fun d stage hd => ?_
    cases hd
    refine ⟨?_, ?_, ?_, ?_⟩
    · rw [Tree.live_create]
      exact List.mem_cons_self
    · rw [Tree.list_create (by simp) (by simp)]
      exact fun hmem => hc (hinv.placed.live c hmem)
    · rw [Tree.proc_create, Function.update_self]
      exact hinv.booted
    · exact fun q hq _ stage' => hinv.tree.fork_create hc q hq stage'

end Tasks

theorem fork_create_no_stack_spec (hrep : Rep s t) (hinv : t.Inv) (hp : t.current = some p) (hc : c ∉ t.live) :
    wp (fork_create (some c) false) (fun _ s' => Rep s' (t.abandon c)) s := by
  simp only [fork_create, wp_bind]
  refine this_proc_spec hrep hp (wp_mono (proc_create_fail_spec hrep hinv.placed hinv.tree hc) ?_)
  rintro _ s' ⟨rfl, hrep'⟩
  rw [wp_pure]
  exact hrep'

theorem fork_create_created_spec (hrep : Rep s t) (hinv : t.Inv) (hp : t.current = some p) (hc : c ∉ t.live) :
    wp (fork_create (some c) true) (fun _ s' => Rep s' ((t.create c).setForking p (some (c, .created)))) s := by
  simp only [fork_create, wp_bind]
  refine this_proc_spec hrep hp (wp_mono (proc_create_spec hrep hinv.placed hinv.tree hc) ?_)
  rintro _ s₁ ⟨rfl, h₁⟩
  refine setProc_spec h₁ ?_ fun s₂ h₂ => h₂
  rw [Tasks.Tree.live_create]
  exact List.mem_cons_of_mem _ (hinv.placed.current_live hp)

theorem fork_create_spec {mem : Option Nat} {kstack : Bool} (hrep : Rep s t) (hinv : t.Inv)
    (hp : t.current = some p) (hmem : ∀ c, mem = some c → c ∉ t.live) :
    wp (fork_create mem kstack) (fun _ s' => ∃ t', Rep s' t' ∧ t.ForkCreates p t') s := by
  cases mem with
  | none =>
    simp only [fork_create, wp_bind]
    refine this_proc_spec hrep hp ?_
    simp only [proc_create, wp_pure]
    exact ⟨t, hrep, .no_memory⟩
  | some c =>
    have hc := hmem c rfl
    cases kstack with
    | false => exact wp_mono (fork_create_no_stack_spec hrep hinv hp hc) fun _ s' hrep' => ⟨_, hrep', .no_stack hc⟩
    | true => exact wp_mono (fork_create_created_spec hrep hinv hp hc) fun _ s' hrep' => ⟨_, hrep', .created hc⟩

namespace Tasks.Inv

variable {q : Nat} {stage : ForkStage}

theorem current_ne (hinv : t.Inv) (hp : t.current = some p) (hfork : (t.proc p).forking = some (c, stage)) : p ≠ c := by
  rintro rfl
  exact (hinv.forking (hinv.placed.current_live hp) hfork).2.1 ((hinv.placed.current p).mp hp).1

theorem discard (hinv : t.Inv) (hp : t.current = some p) (hfork : (t.proc p).forking = some (c, stage))
    (hq : q ∈ t.live) (hnodup : (t.list (.children q)).Nodup) (hc : c ∈ t.list (.children q)) :
    ((t.discard q c).setForking p none).Inv := by
  have hpl := hinv.placed.current_live hp
  obtain ⟨-, hca, -, hnone, hunique⟩ := hinv.forking hpl hfork
  have hall : ∀ r, r ∈ t.list .all_procs ↔ r ∈ t.list .all_procs ∧ r ≠ c := by
    refine fun r => ⟨fun hr => ⟨hr, ?_⟩, fun hr => hr.1⟩
    rintro rfl
    exact hca hr
  have hlist : ∀ g, g ≠ .children q → ((t.discard q c).setForking p none).list g = t.list g := by
    intro g hg
    simp [Tasks.discard, Tasks.setForking, setProc, free, drop, put, hg]
  have hsame : ∀ r, (((t.discard q c).setForking p none).proc r).pid = (t.proc r).pid ∧
      (((t.discard q c).setForking p none).proc r).parent = (t.proc r).parent ∧
      (((t.discard q c).setForking p none).proc r).state = (t.proc r).state := by
    intro r
    by_cases hrp : r = p
    · subst hrp
      simp [Tasks.discard, Tasks.setForking, setProc, ProcTable.setProc, free, drop, put]
    · simp [Tasks.discard, Tasks.setForking, setProc, ProcTable.setProc, free, drop, put, hrp]
  refine ⟨?_, ?_, hinv.booted⟩
  · refine hinv.placed.leave hinv.tree.nodup rfl ?_ ?_ rfl rfl (fun r => (hsame r).2.2) fun hmem => absurd hmem hca
    · rw [hlist _ (by simp)]
      exact hall
    · intro g hg
      refine hlist g ?_
      rintro rfl
      cases hg
  · refine hinv.tree.leave ((t.discard q c).setForking p none) (c := c) rfl ?_ ?_ ?_ rfl rfl ?_ hnone
      (fun r _ => hsame r) ?_ hinv.placed.live
    · rw [hlist _ (by simp)]
      exact hall
    · intro b r
      rw [hlist _ (by simp)]
      refine ⟨fun hr => ⟨hr, ?_⟩, fun hr => hr.1⟩
      rintro rfl
      exact hca ((hinv.tree.bucket r b).mp hr).1
    · exact fun r hr d => hinv.tree.mem_drop_children hq hnodup hc hr
    · exact fun hi => hca (hinv.tree.init c hi).1
    · intro r hr _ d stage' hd
      by_cases hrp : r = p
      · subst hrp
        simp [Tasks.discard, Tasks.setForking, setProc, ProcTable.setProc] at hd
      · have hold : (t.proc r).forking = some (d, stage') := by
          simpa [Tasks.discard, Tasks.setForking, setProc, ProcTable.setProc, free, drop, put, hrp] using hd
        refine ⟨hold, ?_⟩
        rintro rfl
        exact hunique r hr hrp stage' hold

theorem reparent (hinv : t.Inv) (hp : t.current = some p) (hfork : (t.proc p).forking = some (c, stage))
    (hq : q ∈ t.live) (hnodup : (t.list (.children q)).Nodup) (hc : c ∈ t.list (.children q)) :
    ((t.adopt q p c).setForking p (some (c, .reparented))).Inv := by
  obtain ⟨hall, hcpu⟩ := (hinv.placed.current p).mp hp
  obtain ⟨hcl, hca, -, -, hunique⟩ := hinv.forking (hinv.placed.current_live hp) hfork
  refine (hinv.adopt hq hall (by simp [hcpu]) hnodup hc).setForking fun d stage' hd => ?_
  cases hd
  refine ⟨hcl, ?_, ?_, ?_⟩
  · rw [Tree.list_adopt (by simp)]
    exact hca
  · simp [Tree.parent_adopt]
  · intro r hr hrp stage'
    rw [(Tree.proc_adopt t q p c r).2.2]
    exact hunique r hr hrp stage'

theorem publish (hinv : t.Inv) (hc : c ∈ t.live) (hca : c ∉ t.list .all_procs)
    (hfork : ∀ q ∈ t.live, ∀ stage, (t.proc q).forking ≠ some (c, stage)) : (t.publish c).Inv :=
  ⟨hinv.placed.publish hc hca, hinv.tree.publish hfork, hinv.booted⟩

theorem fork_publish (hinv : t.Inv) (hp : t.current = some p) (hfork : (t.proc p).forking = some (c, stage)) :
    ((t.setForking p none).publish c).Inv := by
  obtain ⟨hcl, hca, -, -, hunique⟩ := hinv.forking (hinv.placed.current_live hp) hfork
  have hinv' : (t.setForking p none).Inv := hinv.setForking fun d stage' hd => by cases hd
  refine hinv'.publish hcl hca fun r hr stage' hd => ?_
  by_cases hrp : r = p
  · subst hrp
    simp [Tasks.setForking, setProc, ProcTable.setProc] at hd
  · refine hunique r hr hrp stage' ?_
    simpa [Tasks.setForking, setProc, ProcTable.setProc, hrp] using hd

end Tasks.Inv

theorem fork_fail_spec {q : Nat} (hrep : Rep s t) (hinv : t.Inv) (hp : t.current = some p) (hpc : p ≠ c)
    (hq : q ∈ t.live) (hc : c ∈ t.list (.children q)) :
    wp (fork_fail c) (fun _ s' => Rep s' ((t.discard q c).setForking p none)) s := by
  have hcl := ((hinv.tree.child q hq c).mp hc).1
  simp only [fork_fail, wp_bind]
  refine this_proc_spec hrep hp ?_
  refine del_spec (h := .children q) hrep hcl (Node.alive_children.mpr hq) (by simp) hc fun s₁ h₁ => ?_
  refine kmfree_proc_spec h₁ fun s₂ h₂ => setProc_spec h₂ ?_ fun s₃ h₃ => h₃
  exact (List.mem_erase_of_ne hpc).mpr (hinv.placed.current_live hp)

theorem fork_reparent_spec {q : Nat} (hrep : Rep s t) (hinv : t.Inv) (hp : t.current = some p)
    (hq : q ∈ t.live) (hc : c ∈ t.list (.children q)) :
    wp (fork_reparent c) (fun _ s' => Rep s' ((t.adopt q p c).setForking p (some (c, .reparented)))) s := by
  have hpl := hinv.placed.current_live hp
  have hcl := ((hinv.tree.child q hq c).mp hc).1
  have hnodup := hrep.nodup (Node.alive_children.mpr hq)
  simp only [fork_reparent, wp_bind]
  refine this_proc_spec hrep hp ?_
  refine del_spec (h := .children q) hrep hcl (Node.alive_children.mpr hq) (by simp) hc fun s₁ h₁ => ?_
  refine setProc_spec h₁ hcl fun s₂ h₂ => ?_
  refine addTail_spec h₂ hcl (Node.alive_children.mpr hpl) ?_ fun s₃ h₃ => ?_
  · exact fun g hlink halive => hinv.sibling_free hq hnodup hc hlink halive
  · exact setProc_spec h₃ hpl fun s₄ h₄ => h₄.of_eq rfl rfl

theorem fork_publish_spec {stage : ForkStage} (hrep : Rep s t) (hinv : t.Inv) (hp : t.current = some p)
    (hfork : (t.proc p).forking = some (c, stage)) :
    wp (fork_publish c) (fun _ s' => Rep s' ((t.setForking p none).publish c)) s := by
  have hpl := hinv.placed.current_live hp
  obtain ⟨hcl, hca, -⟩ := hinv.forking hpl hfork
  have hpc := hinv.current_ne hp hfork
  simp only [fork_publish, wp_bind]
  refine this_proc_spec hrep hp ?_
  refine publish_spec hrep hinv.placed hinv.tree hcl hca fun s₁ h₁ => setProc_spec h₁ hpl fun s₂ h₂ => ?_
  -- the two writes are to different processes
  refine h₂.of_eq ?_ ?_
  · simp [Tasks.publish, Tasks.setForking, Tasks.enter, Tasks.setProc, ProcTable.setProc, Tasks.put, Tasks.push, hpc,
      hpc.symm, Function.update_comm]
  · simp [Tasks.publish, Tasks.setForking, Tasks.enter, Tasks.setProc, ProcTable.setProc, Tasks.put, Tasks.push, hpc.symm]

end bobchouos
