import BobchouOS.Proc.Sleep

open lib

namespace bobchouos

variable {s : Procs} {t : Tasks} {h : Head} {p : Nat}

namespace Tasks

/-- What `proc_kill` does: nothing, or it marks a process and wakes it where it
sleeps. -/
inductive Kills (t : Tasks) (pid : BitVec 32) : Int → Tasks → Prop
  | missing : (∀ p ∈ t.list .all_procs, (t.proc p).pid ≠ pid) → Kills t pid (-1) t
  | marked {p : Nat} : p ∈ t.list .all_procs → (t.proc p).pid = pid → (t.proc p).state ≠ .PROC_SLEEPING →
      Kills t pid 0 (t.setProc p fun x => { x with killed := true })
  | woken {p : Nat} {h : Head} : p ∈ t.list .all_procs → (t.proc p).pid = pid → h ≠ .run_queue →
      t.place p = .queue h → (t.list h).Nodup →
      Kills t pid 0 ((t.setProc p fun x => { x with killed := true }).wake h p)

theorem Kills.inv {t' : Tasks} {pid : BitVec 32} {r : Int} (hkills : t.Kills pid r t') (hinv : t.Inv) : t'.Inv := by
  cases hkills with
  | missing => exact hinv
  | marked => exact hinv.setData (fun _ => rfl) (fun _ => rfl) (fun _ => rfl) fun _ => rfl
  | @woken p h hall _ hne hplace hnodup =>
    obtain ⟨hqueue, halive⟩ := hinv.placed.queue p hall h hplace
    have hmem := (hinv.placed.mem h hqueue halive p).mpr ⟨hall, hplace⟩
    have hinv' := hinv.setData (p := p) (f := fun x => { x with killed := true }) (fun _ => rfl) (fun _ => rfl)
      (fun _ => rfl) fun _ => rfl
    exact hinv'.wake hqueue halive hnodup hne hmem

end Tasks

/-- The test on `tsleep_link` finds the list that the victim is on. -/
theorem proc_kill_spec {pid : BitVec 32} (hrep : Rep s t) (hinv : t.Inv) :
    wp (proc_kill pid) (fun r s' => ∃ t', Rep s' t' ∧ t.Kills pid r t') s := by
  have hbucket : ∀ p ∈ t.list (.pid_table (bucket pid)), p ∈ t.list .all_procs := fun p hp =>
    ((hinv.tree.bucket p (bucket pid)).mp hp).1
  simp only [proc_kill, wp_bind]
  refine list_for_each_entry_spec (P := fun p => (t.proc p).pid ≠ pid) hrep rfl
    (fun p hp => hinv.placed.live p (hbucket p hp)) ?_ ?_
  · intro pre p post hsplit _
    have hall : p ∈ t.list .all_procs := hbucket p (by simp [hsplit])
    have hlive := hinv.placed.live p hall
    have hstate := hinv.placed.state p hall
    rw [wp_bind]
    refine getProc_spec hrep hlive ?_
    rw [wp_ite]
    refine ⟨fun hpid => ?_, fun hpid => ?_⟩
    · simp only [wp_pure, wp_bind]
      refine setProc_spec hrep hlive fun s₁ h₁ => ?_
      have hinv₁ : (t.setProc p fun x => { x with killed := true }).Inv :=
        hinv.setData (fun _ => rfl) (fun _ => rfl) (fun _ => rfl) fun _ => rfl
      have hself : ((t.setProc p fun x => { x with killed := true }).proc p).state = (t.proc p).state := by
        simp [Tasks.setProc, ProcTable.setProc]
      refine getProc_spec h₁ hlive ?_
      rw [hself, wp_ite]
      refine ⟨fun hsleep => ?_, fun hsleep => ?_⟩
      · rw [wp_bind]
        refine tsleep_isEmpty_spec h₁ hlive ?_
        cases hplace : t.place p with
        | cpu => simp [hstate, hplace, Place.state] at hsleep
        | zombie => simp [hstate, hplace, Place.state] at hsleep
        | queue h =>
          obtain ⟨hqueue, halive⟩ := hinv.placed.queue p hall h hplace
          have hmem := (hinv.placed.mem h hqueue halive p).mpr ⟨hall, hplace⟩
          have hnodup := hrep.nodup halive
          cases h with
          | run_queue => simp [hstate, hplace, Place.state] at hsleep
          | tsleep_list =>
            have hon : p ∈ (t.setProc p fun x => { x with killed := true }).list .tsleep_list := hmem
            simp only [hon, not_true_eq_false, decide_false, Bool.not_false, if_true, wp_bind]
            refine wake_tsleep_spec h₁ hinv₁ hmem fun s₂ h₂ => ?_
            rw [wp_pure]
            exact ⟨_, h₂, .woken hall hpid (by simp) hplace hnodup⟩
          | wq w =>
            have hoff : p ∉ (t.setProc p fun x => { x with killed := true }).list .tsleep_list :=
              hinv.placed.not_mem (h := .tsleep_list) rfl rfl (by simp [hplace])
            simp only [hoff, not_false_eq_true, decide_true, Bool.not_true, Bool.false_eq_true, if_false, wp_bind]
            refine wake_wq_spec h₁ hinv₁ halive hmem fun s₂ h₂ => ?_
            rw [wp_pure]
            exact ⟨_, h₂, .woken hall hpid (by simp) hplace hnodup⟩
          | _ => cases hqueue
      · rw [wp_pure]
        exact ⟨_, h₁, .marked hall hpid hsleep⟩
    · rw [wp_pure]
      exact ⟨rfl, hpid⟩
  · intro hskip
    simp only [wp_pure]
    refine ⟨t, hrep, .missing fun p hp hpid => ?_⟩
    exact hskip p ((hinv.tree.bucket p (bucket pid)).mpr ⟨hp, by rw [hpid]⟩) hpid

namespace Tasks

/-- Children go from the front of the list of `p` to init. -/
inductive Adopts (t : Tasks) (p i : Nat) : Tasks → Prop
  | refl : Adopts t p i t
  | step {t' : Tasks} {c : Nat} {xs : List Nat} : Adopts t p i t' → t'.list (.children p) = c :: xs →
      (t'.list (.children p)).Nodup → Adopts t p i (t'.adopt p i c)

/-- What `proc_exit` does: the children go to init `i`, the parent `q` is woken
if it sleeps, and the process dies. -/
inductive Exits (t : Tasks) (p : Nat) (status : BitVec 32) : Tasks → Prop
  | exit {i q : Nat} {t₁ t₂ : Tasks} : t.init_proc = some i → 1 < (t.proc p).pid.toInt → t.Adopts p i t₁ →
      t₁.list (.children p) = [] → (t₁.proc p).parent = some q → t₁.Wakes (.wq (.child_wq q)) t₂ →
      t₂.list (.wq (.child_wq q)) = [] → Exits t p status (t₂.die p status)

namespace Inv

variable {t' : Tasks} {i c : Nat}

theorem adopt (hinv : t.Inv) (hp : p ∈ t.live) (hi : i ∈ t.list .all_procs) (halive : t.place i ≠ .zombie)
    (hnodup : (t.list (.children p)).Nodup) (hc : c ∈ t.list (.children p)) : (t.adopt p i c).Inv := by
  refine ⟨hinv.placed.congr rfl ?_ ?_ rfl rfl fun q => (Tree.proc_adopt t p i c q).2.1,
    hinv.tree.adopt hinv.placed.live hp hi halive hnodup hc, hinv.booted⟩
  · intro g hg
    refine Tree.list_adopt fun q => ?_
    rintro rfl
    cases hg
  · exact Tree.list_adopt (by simp)

theorem init_live (hinv : t.Inv) (hi : t.init_proc = some i) : i ∈ t.live :=
  hinv.placed.live i (hinv.tree.init i hi).1

end Inv

theorem Adopts.inv {t' : Tasks} {i : Nat} (hadopts : t.Adopts p i t') (hinv : t.Inv) (hp : p ∈ t.live)
    (hi : t.init_proc = some i) : t'.Inv ∧ t'.live = t.live ∧ t'.current = t.current ∧
      t'.init_proc = t.init_proc ∧ t'.place = t.place ∧
      ∀ q, (t'.proc q).pid = (t.proc q).pid ∧ (t'.proc q).state = (t.proc q).state := by
  induction hadopts with
  | refl => exact ⟨hinv, rfl, rfl, rfl, rfl, fun q => ⟨rfl, rfl⟩⟩
  | @step t₁ c xs _ hlist hnodup ih =>
    obtain ⟨hinv₁, hlive, hcurrent, hinit, hplace, hproc⟩ := ih
    refine ⟨?_, hlive, hcurrent, hinit, hplace, fun q => ?_⟩
    · rw [← hinit] at hi
      refine hinv₁.adopt (hlive ▸ hp) (hinv₁.tree.init i hi).1 (hinv₁.tree.init i hi).2.2 hnodup (by simp [hlist])
    · obtain ⟨hpid, hstate, -⟩ := Tree.proc_adopt t₁ p i c q
      exact ⟨hpid.trans (hproc q).1, hstate.trans (hproc q).2⟩

theorem Wakes.inv {t' : Tasks} (hwakes : t.Wakes h t') (hinv : t.Inv) (hqueue : h.isQueue = true)
    (halive : (Node.head h).alive t.live = true) (hne : h ≠ .run_queue) : t'.Inv ∧ t'.live = t.live ∧
      t'.current = t.current ∧ t'.init_proc = t.init_proc ∧ (∀ g, g.isQueue = false → t'.list g = t.list g) ∧
      ∀ q, (t'.proc q).pid = (t.proc q).pid ∧ (t'.proc q).parent = (t.proc q).parent := by
  induction hwakes with
  | refl => exact ⟨hinv, rfl, rfl, rfl, fun _ _ => rfl, fun q => ⟨rfl, rfl⟩⟩
  | @step t₁ p xs _ hlist hnodup ih =>
    obtain ⟨hinv₁, hlive, hcurrent, hinit, hlists, hproc⟩ := ih
    refine ⟨hinv₁.wake hqueue (hlive ▸ halive) hnodup hne (by simp [hlist]), hlive, hcurrent, hinit, ?_, ?_⟩
    · intro g hg
      exact ((Inv.list_put hg rfl).trans (Inv.list_put hg hqueue)).trans (hlists g hg)
    · intro q
      obtain ⟨hpid, hparent, -⟩ := Inv.proc_enter ((t₁.drop h p).push .run_queue p) p (.queue .run_queue) q
      exact ⟨hpid.trans (hproc q).1, hparent.trans (hproc q).2⟩

theorem Exits.inv {t' : Tasks} {status : BitVec 32} (hexits : t.Exits p status t') (hinv : t.Inv)
    (hp : t.current = some p) : t'.Inv := by
  cases hexits with
  | @exit i q t₁ t₂ hi hpid hadopts hnil hparent hwakes _ =>
    have hpl := hinv.placed.current_live hp
    obtain ⟨hinv₁, hlive₁, hcur₁, -, -, hproc₁⟩ := hadopts.inv hinv hpl hi
    have hq : q ∈ t₁.live := hinv₁.placed.live q (hinv₁.tree.parent p (hlive₁ ▸ hpl) q hparent)
    obtain ⟨hinv₂, -, hcur₂, -, hlist₂, hproc₂⟩ :=
      hwakes.inv hinv₁ rfl (Node.alive_child_wq.mpr hq) (by simp)
    refine hinv₂.die (hcur₂.trans (hcur₁.trans hp)) ((hlist₂ _ rfl).trans hnil) ?_
    rw [(hproc₂ p).1, (hproc₁ p).1]
    exact hpid

end Tasks

/-- A child that is off the list of its parent is on none. -/
theorem Tasks.Inv.sibling_free {c : Nat} (hinv : t.Inv) (hp : p ∈ t.live) (hnodup : (t.list (.children p)).Nodup)
    (hc : c ∈ t.list (.children p)) (hlink : h.link = .sibling) (halive : (Node.head h).alive t.live = true) :
    c ∉ (t.drop (.children p) c).list h := by
  cases h with
  | children q =>
    rw [hinv.tree.mem_drop_children hp hnodup hc (Node.alive_children.mp halive)]
    exact fun hmem => hmem.2 rfl
  | _ => cases hlink

/-- A child gets another parent: `proc_exit` and `proc_fork`. -/
theorem adopt_spec {i c : Nat} {Q : Unit → Procs → Prop} (hrep : Rep s (t.setProc c fun x => { x with parent := some i }))
    (hnodup : (t.list (.children p)).Nodup) (hinv : t.Inv) (hp : p ∈ t.live) (hi : i ∈ t.live)
    (hc : c ∈ t.list (.children p)) (hQ : ∀ s', Rep s' (t.adopt p i c) → Q () s') :
    wp (del .sibling c) (fun _ s' => wp (addTail c (.children i)) Q s') s := by
  have hcl := ((hinv.tree.child p hp c).mp hc).1
  refine del_spec (h := .children p) hrep hcl (Node.alive_children.mpr hp) (by simp) hc fun s₁ h₁ => ?_
  refine addTail_spec h₁ hcl (Node.alive_children.mpr hi) ?_ hQ
  exact fun g hlink halive => hinv.sibling_free hp hnodup hc hlink halive

theorem reparent_loop_spec {i fuel : Nat} (hrep : Rep s t) (hinv : t.Inv) (hp : p ∈ t.live)
    (hi : t.init_proc = some i) (hpi : p ≠ i) (hfuel : (t.list (.children p)).length < fuel) :
    wp (reparent_loop p fuel) (fun _ s' => ∃ t', Rep s' t' ∧ t.Adopts p i t' ∧ t'.list (.children p) = []) s := by
  -- induction on the number of children
  have hloop : ∀ (n fuel : Nat) (s' : Procs) (t' : Tasks), Rep s' t' → t.Adopts p i t' →
      (t'.list (.children p)).length = n → n < fuel → wp (reparent_loop p fuel) (fun _ s' =>
        ∃ t', Rep s' t' ∧ t.Adopts p i t' ∧ t'.list (.children p) = []) s' := by
    intro n
    induction n with
    | zero =>
      intro fuel s' t' hrep hadopts hlen hfuel
      obtain ⟨-, hlive, -⟩ := hadopts.inv hinv hp hi
      have hnil := List.length_eq_zero_iff.mp hlen
      cases fuel with
      | zero => cases hfuel
      | succ fuel =>
        simp only [reparent_loop, wp_bind]
        refine isEmpty_spec hrep (Node.alive_children.mpr (hlive ▸ hp)) ?_
        simp only [hnil, List.isEmpty_nil, if_true, wp_pure]
        exact ⟨t', hrep, hadopts, hnil⟩
    | succ n ih =>
      intro fuel s' t' hrep hadopts hlen hfuel
      obtain ⟨hinv', hlive, -, hinit, -⟩ := hadopts.inv hinv hp hi
      obtain ⟨c, xs, hlist⟩ := List.exists_cons_of_length_eq_add_one hlen
      have hp' : p ∈ t'.live := hlive ▸ hp
      have hi' : t'.init_proc = some i := hinit.trans hi
      have hnodup := hrep.nodup (Node.alive_children.mpr hp')
      have hc : c ∈ t'.list (.children p) := by simp [hlist]
      cases fuel with
      | zero => cases hfuel
      | succ fuel =>
        simp only [reparent_loop, wp_bind]
        refine isEmpty_spec hrep (Node.alive_children.mpr hp') ?_
        simp only [hlist, List.isEmpty_cons, Bool.false_eq_true, if_false, wp_bind]
        refine list_first_entry_spec hrep (Node.alive_children.mpr hp') hlist ?_
        rw [wp_get, hrep.init_proc, hi']
        refine setProc_spec hrep ((hinv'.tree.child p hp' c).mp hc).1 fun s₁ h₁ => ?_
        simp only [wp_bind]
        refine adopt_spec h₁ hnodup hinv' hp' (hinv'.init_live hi') hc fun s₂ h₂ => ?_
        refine ih fuel s₂ _ h₂ (hadopts.step hlist hnodup) ?_ (Nat.lt_of_succ_lt_succ hfuel)
        have hrest : (t'.adopt p i c).list (.children p) = xs := by
          simp [Tasks.adopt, Tasks.push, Tasks.drop, Tasks.put, Tasks.setProc, hpi, hlist]
        rw [hrest]
        simpa [hlist] using hlen
  exact hloop _ _ s t hrep .refl rfl hfuel

/-- At most the process itself sleeps on its `child_wq`. -/
theorem Tasks.Inv.child_wq_cases {q : Nat} (hinv : t.Inv) (hnodup : (t.list (.wq (.child_wq q))).Nodup)
    (hq : q ∈ t.live) : t.list (.wq (.child_wq q)) = [] ∨ t.list (.wq (.child_wq q)) = [q] := by
  have hall : ∀ r ∈ t.list (.wq (.child_wq q)), r = q := by
    intro r hr
    obtain ⟨hra, hplace⟩ := (hinv.placed.mem (.wq (.child_wq q)) rfl (Node.alive_child_wq.mpr hq) r).mp hr
    exact (hinv.placed.own r hra q hplace).symm
  cases hlist : t.list (.wq (.child_wq q)) with
  | nil => exact .inl rfl
  | cons r rs =>
    rw [hlist] at hall hnodup
    have hr : r = q := hall r (by simp)
    cases rs with
    | nil => exact .inr (by rw [hr])
    | cons r' rs =>
      have hr' : r' = q := hall r' (by simp)
      simp [hr, hr'] at hnodup

theorem proc_exit_spec {status : BitVec 32} (hrep : Rep s t) (hinv : t.Inv) (hp : t.current = some p)
    (hpid : 1 < (t.proc p).pid.toInt) :
    wp (proc_exit status) (fun _ s' => ∃ t', Rep s' t' ∧ t.Exits p status t') s := by
  have hpl := hinv.placed.current_live hp
  obtain ⟨i, hi⟩ := Option.ne_none_iff_exists'.mp hinv.booted
  have hpi : p ≠ i := by
    rintro rfl
    have hle := (hinv.tree.init p hi).2.1
    omega
  have hlength : (t.list (.children p)).length ≤ t.live.length := by
    refine (List.subperm_of_subset (hrep.nodup (Node.alive_children.mpr hpl)) fun c hc => ?_).length_le
    exact ((hinv.tree.child p hpl c).mp hc).1
  simp only [proc_exit, wp_bind]
  refine this_proc_spec hrep hp (getProc_spec hrep hpl ?_)
  simp only [Int.not_le.mpr hpid, if_false, wp_bind, wp_get]
  refine wp_mono (reparent_loop_spec hrep hinv hpl hi hpi ?_) fun _ s₁ h₁ => ?_
  · rw [hrep.live]
    exact Nat.lt_succ_of_le hlength
  · obtain ⟨t₁, hrep₁, hadopts, hnil⟩ := h₁
    obtain ⟨hinv₁, hlive₁, hcur₁, -, -, hproc₁⟩ := hadopts.inv hinv hpl hi
    have hpl₁ : p ∈ t₁.live := hlive₁ ▸ hpl
    refine getProc_spec hrep₁ hpl₁ ?_
    cases hparent : (t₁.proc p).parent with
    | none =>
      -- only idle and init have no parent
      have hle := hinv₁.tree.root p hpl₁ hparent
      rw [(hproc₁ p).1] at hle
      omega
    | some q =>
      have hq := hinv₁.placed.live q (hinv₁.tree.parent p hpl₁ q hparent)
      have hqa := Node.alive_child_wq.mpr hq
      simp only [wp_bind]
      refine wp_mono (wq_wake_one_spec hrep₁ hinv₁ hqa) fun r s₂ h₂ => ?_
      have hnodup := hrep₁.nodup hqa
      obtain ⟨t₂, hrep₂, hwakes, hempty⟩ : ∃ t₂, Rep s₂ t₂ ∧ t₁.Wakes (.wq (.child_wq q)) t₂ ∧
          t₂.list (.wq (.child_wq q)) = [] := by
        rcases hinv₁.child_wq_cases hnodup hq with hlist | hlist
        · rw [hlist] at h₂
          exact ⟨t₁, h₂.2, .refl, hlist⟩
        · rw [hlist] at h₂
          exact ⟨_, h₂.2, .step .refl hlist hnodup, Tasks.wake_list (by simp) hlist⟩
      obtain ⟨-, hlive₂, -⟩ := hwakes.inv hinv₁ rfl hqa (by simp)
      refine setProc_spec hrep₂ (hlive₂ ▸ hpl₁) fun s₃ h₃ => ?_
      refine sched_spec h₃ fun s₄ h₄ => ⟨_, ?_, .exit hi hpid hadopts hnil hparent hwakes hempty⟩
      refine h₄.of_eq ?_ rfl
      simp [Tasks.die, Tasks.enter, Tasks.setProc, ProcTable.setProc, Place.state]

namespace Tasks

/-- A zombie child of `p` is freed. -/
def reap (p c : Nat) (t : Tasks) : Tasks :=
  (((t.drop (.children p) c).drop .all_procs c).drop (.pid_table (bucket (t.proc c).pid)) c).free c

/-- A child of `p` that was never published is freed. -/
def discard (p c : Nat) (t : Tasks) : Tasks := (t.drop (.children p) c).free c

end Tasks

theorem kmfree_proc_spec {c : Nat} {Q : Unit → Procs → Prop} (hrep : Rep s t)
    (hQ : ∀ s', Rep s' (t.free c) → Q () s') : wp (kmfree_proc c) Q s := by
  simp only [kmfree_proc, wp_modify]
  refine hQ _ ⟨?_, hrep.family.mono ?_⟩
  · rw [hrep.table]
    rfl
  · intro n xs hn
    cases n with
    | head g =>
      rw [Tasks.rings_head_iff] at hn ⊢
      exact ⟨Node.alive_of_subset (fun q hq => List.mem_of_mem_erase hq) hn.1, hn.2⟩
    | link l q =>
      rw [Tasks.rings_link_iff] at hn ⊢
      exact ⟨hn.1, List.mem_of_mem_erase hn.2.1, hn.2.2⟩

theorem free_proc_spec {c : Nat} {Q : Unit → Procs → Prop} (hrep : Rep s t) (hinv : t.Inv) (hp : p ∈ t.live)
    (hc : c ∈ t.list (.children p)) (hall : c ∈ t.list .all_procs) (hQ : ∀ s', Rep s' (t.reap p c) → Q () s') :
    wp (free_proc c) Q s := by
  have hcl := hinv.placed.live c hall
  simp only [free_proc, wp_bind]
  refine del_spec (h := .children p) hrep hcl (Node.alive_children.mpr hp) (by simp) hc fun s₁ h₁ => ?_
  refine del_spec (h := .all_procs) h₁ hcl rfl (by simp) ?_ fun s₂ h₂ => ?_
  · simpa [Tasks.drop, Tasks.put] using hall
  refine del_spec (h := .pid_table (bucket (t.proc c).pid)) h₂ hcl rfl (by simp) ?_ fun s₃ h₃ => ?_
  · simpa [Tasks.drop, Tasks.put] using (hinv.tree.bucket c _).mpr ⟨hall, rfl⟩
  exact kmfree_proc_spec h₃ hQ

namespace Tasks

/-- What one round of `proc_wait` does. -/
inductive Waits (t : Tasks) (p : Nat) : WaitResult → Tasks → Prop
  | no_children : t.list (.children p) = [] → Waits t p .no_children t
  | reaped {c : Nat} : c ∈ t.list (.children p) → (t.list (.children p)).Nodup → (t.list .all_procs).Nodup →
      (t.list (.pid_table (bucket (t.proc c).pid))).Nodup → (t.proc c).state = .PROC_ZOMBIE →
      Waits t p (.reaped (t.proc c).pid (t.proc c).exit_status) (t.reap p c)
  | killed : (∀ c ∈ t.list (.children p), (t.proc c).state ≠ .PROC_ZOMBIE) → (t.proc p).killed = true →
      Waits t p .killed t
  | slept : (∀ c ∈ t.list (.children p), (t.proc c).state ≠ .PROC_ZOMBIE) → (t.proc p).killed = false →
      Waits t p .slept (t.block (.wq (.child_wq p)) (t.list (.wq (.child_wq p)) ++ [p]) p)

/-- Zombies are published. -/
theorem Inv.zombie_published {c : Nat} (hinv : t.Inv) (hc : c ∈ t.live) (hz : (t.proc c).state = .PROC_ZOMBIE) :
    c ∈ t.list .all_procs ∧ t.place c = .zombie := by
  have hall : c ∈ t.list .all_procs := by
    by_contra hnot
    rw [hinv.tree.hidden c hc hnot] at hz
    cases hz
  refine ⟨hall, ?_⟩
  have hstate := hinv.placed.state c hall
  rw [hz] at hstate
  cases hplace : t.place c with
  | cpu => simp [hplace, Place.state] at hstate
  | zombie => rfl
  | queue h => cases h <;> simp [hplace, Place.state] at hstate

theorem Inv.reap {c : Nat} (hinv : t.Inv) (hp : p ∈ t.live) (hc : c ∈ t.list (.children p))
    (hnodup : (t.list (.children p)).Nodup) (hall : (t.list .all_procs).Nodup)
    (hbucket : (t.list (.pid_table (bucket (t.proc c).pid))).Nodup) (hz : (t.proc c).state = .PROC_ZOMBIE) :
    (t.reap p c).Inv := by
  have hcl := ((hinv.tree.child p hp c).mp hc).1
  obtain ⟨hca, hplace⟩ := hinv.zombie_published hcl hz
  have hci : t.init_proc ≠ some c := fun hi => (hinv.tree.init c hi).2.2 hplace
  have hall' : ∀ q, q ∈ (t.reap p c).list .all_procs ↔ q ∈ t.list .all_procs ∧ q ≠ c := by
    intro q
    have heq : (t.reap p c).list .all_procs = (t.list .all_procs).erase c := by
      simp [Tasks.reap, free, drop, put]
    rw [heq, hall.mem_erase_iff, and_comm]
  have hqueue : ∀ g, g.isQueue = true → (t.reap p c).list g = t.list g := by
    intro g hg
    have h₁ : g ≠ .children p := by rintro rfl; cases hg
    have h₂ : g ≠ .all_procs := by rintro rfl; cases hg
    have h₃ : g ≠ .pid_table (bucket (t.proc c).pid) := by rintro rfl; cases hg
    simp [Tasks.reap, free, drop, put, h₁, h₂, h₃]
  refine ⟨?_, ?_, hinv.booted⟩
  · exact hinv.placed.leave hinv.tree.nodup rfl hall' hqueue rfl rfl (fun _ => rfl) fun _ => hplace
  · refine hinv.tree.leave (t.reap p c) rfl hall' ?_ ?_ rfl rfl hci ?_ (fun _ _ => ⟨rfl, rfl, rfl⟩) ?_
      hinv.placed.live
    · intro b q
      by_cases hb : b = bucket (t.proc c).pid
      · subst hb
        have heq : (t.reap p c).list (.pid_table (bucket (t.proc c).pid)) =
            (t.list (.pid_table (bucket (t.proc c).pid))).erase c := by
          simp [Tasks.reap, free, drop, put]
        rw [heq, hbucket.mem_erase_iff, and_comm]
      · have heq : (t.reap p c).list (.pid_table b) = t.list (.pid_table b) := by
          simp [Tasks.reap, free, drop, put, hb]
        rw [heq]
        refine ⟨fun hq => ⟨hq, ?_⟩, fun hq => hq.1⟩
        rintro rfl
        exact hb ((hinv.tree.bucket q b).mp hq).2.symm
    · intro q hq d
      have heq : (t.reap p c).list (.children q) = (t.drop (.children p) c).list (.children q) := by
        simp [Tasks.reap, free, drop, put]
      rw [heq]
      exact hinv.tree.mem_drop_children hp hnodup hc hq
    · intro d hd hdc
      have hmem := (hinv.tree.child c hcl d).mpr ⟨hd, hdc⟩
      rw [hinv.tree.dead c hca hplace] at hmem
      cases hmem
    · intro q hq _ d stage hd
      refine ⟨hd, ?_⟩
      rintro rfl
      exact (hinv.tree.fork q hq d stage hd).2.1 hca

theorem Waits.inv {t' : Tasks} {r : WaitResult} (hwaits : t.Waits p r t') (hinv : t.Inv)
    (hp : t.current = some p) : t'.Inv := by
  have hpl := hinv.placed.current_live hp
  cases hwaits with
  | no_children => exact hinv
  | reaped hc hnodup hall hbucket hz => exact hinv.reap hpl hc hnodup hall hbucket hz
  | killed => exact hinv
  | slept =>
    refine hinv.block hp rfl (Node.alive_child_wq.mpr hpl) (List.perm_append_singleton p _) ?_
    rintro r hr
    cases hr
    rfl

end Tasks

theorem proc_wait_spec (hrep : Rep s t) (hinv : t.Inv) (hp : t.current = some p) :
    wp proc_wait (fun r s' => ∃ t', Rep s' t' ∧ t.Waits p r t') s := by
  have hpl := hinv.placed.current_live hp
  have halive := Node.alive_children.mpr hpl
  have hchild : ∀ c ∈ t.list (.children p), c ∈ t.live := fun c hc => ((hinv.tree.child p hpl c).mp hc).1
  simp only [proc_wait, wp_bind]
  refine this_proc_spec hrep hp (isEmpty_spec hrep halive ?_)
  cases hlist : t.list (.children p) with
  | nil =>
    simp only [List.isEmpty_nil, if_true, wp_pure]
    exact ⟨t, hrep, .no_children hlist⟩
  | cons c₀ cs =>
    simp only [List.isEmpty_cons, Bool.false_eq_true, if_false, wp_bind]
    refine list_for_each_entry_spec (P := fun c => (t.proc c).state ≠ .PROC_ZOMBIE) hrep halive hchild ?_ ?_
    · intro pre c post hsplit _
      have hc : c ∈ t.list (.children p) := by simp [hsplit]
      rw [wp_bind]
      refine getProc_spec hrep (hchild c hc) ?_
      rw [wp_ite]
      refine ⟨fun hz => ?_, fun hz => ?_⟩
      · rw [wp_bind]
        refine free_proc_spec hrep hinv hpl hc (hinv.zombie_published (hchild c hc) hz).1 fun s₁ h₁ => ?_
        simp only [wp_pure]
        exact ⟨_, h₁, .reaped hc (hrep.nodup halive) (hrep.nodup (h := .all_procs) rfl)
          (hrep.nodup (h := .pid_table _) rfl) hz⟩
      · rw [wp_pure]
        exact ⟨rfl, hz⟩
    · intro hskip
      simp only [wp_bind]
      refine getProc_spec hrep hpl ?_
      rw [wp_ite]
      refine ⟨fun hkilled => ?_, fun hkilled => ?_⟩
      · rw [wp_pure]
        exact ⟨t, hrep, .killed hskip hkilled⟩
      · rw [wp_bind]
        refine wp_mono (wq_sleep_spec hrep hinv.placed hp (Node.alive_child_wq.mpr hpl)) fun _ s₁ h₁ => ?_
        rw [wp_pure]
        exact ⟨_, h₁, .slept hskip (by simpa using hkilled)⟩

end bobchouos
