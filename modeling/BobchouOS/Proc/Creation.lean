import BobchouOS.Proc.Lifecycle

open lib

namespace bobchouos

variable {s : Procs} {t : Tasks} {h : Head} {p : Nat}

namespace Tasks

/-- Every list holds allocated processes only. -/
theorem list_live (hplaced : t.Placed) (htree : t.Tree) (hh : (Node.head h).alive t.live = true) :
    ∀ q ∈ t.list h, q ∈ t.live := by
  intro q hq
  cases h with
  | run_queue => exact hplaced.list_live (h := .run_queue) rfl rfl q hq
  | tsleep_list => exact hplaced.list_live (h := .tsleep_list) rfl rfl q hq
  | wq w => exact hplaced.list_live (h := .wq w) rfl hh q hq
  | all_procs => exact hplaced.live q hq
  | pid_table b => exact hplaced.live q ((htree.bucket q b).mp hq).1
  | children r => exact ((htree.child r (Node.alive_children.mp hh) q).mp hq).1

/-- The nodes of the lists are in allocated memory. -/
theorem rings_owner {g a : Node} {zs : List Node} (hplaced : t.Placed) (htree : t.Tree)
    (hg : t.rings g = some zs) (ha : a ∈ g :: zs) : a.alive t.live = true := by
  cases g with
  | head g =>
    obtain ⟨halive, rfl⟩ := rings_head_iff.mp hg
    rcases List.mem_cons.mp ha with rfl | ha
    · exact halive
    · obtain ⟨q, hq, rfl⟩ := List.mem_map.mp ha
      exact Node.alive_link.mpr (list_live hplaced htree halive q hq)
  | link l q =>
    obtain ⟨-, hq, -, rfl⟩ := rings_link_iff.mp hg
    rw [List.mem_singleton.mp ha]
    exact Node.alive_link.mpr hq

/-- A process structure after `memset` and the initialisation of its lists. -/
def allocate (p : Nat) (t : Tasks) : Tasks :=
  { t with
    live := p :: t.live
    proc := Function.update t.proc p { pid := t.next_pid }
    next_pid := t.next_pid + 1
    list := Function.update (Function.update t.list (.children p) []) (.wq (.child_wq p)) [] }

theorem allocate_rings (n : Node) (zs : List Node) (hn : (t.allocate p).rings n = some zs) :
    Function.update (Function.update (Function.update (Function.update t.rings (.head (.wq (.child_wq p))) (some []))
      (.head (.children p)) (some [])) (.link .wait_link p) (some [])) (.link .tsleep_link p) (some []) n =
      some zs := by
  cases n with
  | head g =>
    obtain ⟨hg, rfl⟩ := rings_head_iff.mp hn
    by_cases hw : g = .wq (.child_wq p)
    · subst hw
      simp [allocate]
    · by_cases hc : g = .children p
      · subst hc
        simp [allocate]
      · have hold : (Node.head g).alive t.live = true := by
          cases g with
          | wq w =>
            cases w with
            | child_wq r =>
              rw [Node.alive_child_wq] at hg ⊢
              refine (List.mem_cons.mp hg).resolve_left fun heq => hw ?_
              rw [heq]
            | other n => rfl
          | children r =>
            rw [Node.alive_children] at hg ⊢
            refine (List.mem_cons.mp hg).resolve_left fun heq => hc ?_
            rw [heq]
          | _ => rfl
        simp [allocate, hw, hc, rings_head hold]
  | link l q =>
    obtain ⟨rfl, hq, hnot, rfl⟩ := rings_link_iff.mp hn
    by_cases hqp : q = p
    · simp [hqp]
    · have hq' : q ∈ t.live := (List.mem_cons.mp hq).resolve_left hqp
      have hnot' : q ∉ t.list .tsleep_list := by simpa [allocate] using hnot
      simp [hqp, rings_tsleep_link hq' hnot']

theorem owner_ne {a : Node} (ha : a.alive t.live = true) (hp : p ∉ t.live) : a.owner ≠ some p := by
  intro howner
  rw [Node.alive, howner, Option.all_some, decide_eq_true_eq] at ha
  exact hp ha

/-- A node in memory that is not allocated is on no list. -/
theorem rings_free_of_owner {n : Node} (hplaced : t.Placed) (htree : t.Tree) (hp : p ∉ t.live)
    (hn : n.owner = some p) : Links.Free t.rings n :=
  fun _ _ hg hmem => absurd hn (owner_ne (rings_owner hplaced htree hg hmem) hp)

/-- A new process is on no list of children. -/
theorem sibling_free (htree : t.Tree) (hp : p ∉ t.live) (hlink : h.link = .sibling)
    (halive : (Node.head h).alive (p :: t.live) = true) : p ∉ (t.allocate p).list h := by
  cases h with
  | children r =>
    by_cases hrp : r = p
    · simp [allocate, hrp]
    · have hr : r ∈ t.live := (List.mem_cons.mp (Node.alive_children.mp halive)).resolve_left hrp
      have hnot : p ∉ t.list (.children r) := fun hmem => hp ((htree.child r hr p).mp hmem).1
      simpa [allocate, hrp] using hnot
  | _ => cases hlink

end Tasks

/-- The lists after `kmalloc`, `memset` and the four calls of `INIT_LIST_HEAD`. -/
theorem allocate_family {l : Links Node} (hrep : Rep s t) (hplaced : t.Placed) (htree : t.Tree) (hp : p ∉ t.live)
    (hl : ∀ n : Node, n.owner ≠ some p → l.next n = s.links.next n ∧ l.prev n = s.links.prev n) :
    wp (do
      INIT_LIST_HEAD (Node.head (.wq (.child_wq p)))
      INIT_LIST_HEAD (Node.head (.children p))
      INIT_LIST_HEAD (Node.link .wait_link p)
      INIT_LIST_HEAD (Node.link .tsleep_link p)) (fun _ l' => l'.Family (t.allocate p).rings) l := by
  have hfree : ∀ n : Node, n.owner = some p → Links.Free t.rings n :=
    fun n hn => Tasks.rings_free_of_owner hplaced htree hp hn
  have hfamily : l.Family t.rings := hrep.family.congr fun g zs hg a ha =>
    hl a (Tasks.owner_ne (Tasks.rings_owner hplaced htree hg ha) hp)
  simp only [wp_bind]
  refine wp_mono (INIT_LIST_HEAD_spec hfamily (hfree _ rfl)) fun _ l₁ h₁ => ?_
  have hchildren := hfree (.head (.children p)) rfl
  refine wp_mono (INIT_LIST_HEAD_spec h₁ (Links.Free.update hchildren (by simp))) fun _ l₂ h₂ => ?_
  have hwait := hfree (.link .wait_link p) rfl
  refine wp_mono (INIT_LIST_HEAD_spec h₂ (Links.Free.update (Links.Free.update hwait (by simp)) (by simp)))
    fun _ l₃ h₃ => ?_
  have htsleep := hfree (.link .tsleep_link p) rfl
  refine wp_mono (INIT_LIST_HEAD_spec h₃ (Links.Free.update (Links.Free.update (Links.Free.update htsleep
    (by simp)) (by simp)) (by simp))) fun _ l₄ h₄ => ?_
  exact h₄.mono fun n zs hn => Tasks.allocate_rings n zs hn

/-- The write of the pid to the new structure. -/
theorem setProc_new {f : Proc → Proc} {Q : Unit → Procs → Prop} {table : ProcTable} (hp : p ∈ s.live)
    (htable : s.toProcTable.setProc p f = table) (hQ : Q () { s with toProcTable := table }) : wp (setProc p f) Q s := by
  simp only [setProc, wp_bind, wp_get, hp, if_true, wp_set, htable]
  exact hQ

theorem proc_create_spec (hrep : Rep s t) (hplaced : t.Placed) (htree : t.Tree) (hp : p ∉ t.live) :
    wp (proc_create (some p) true) (fun r s' => r = some p ∧ Rep s' (t.create p)) s := by
  have hns : ∀ {n : Node}, n.owner = some p → [n].all (Node.alive (p :: s.live)) = true := by
    intro n hn
    simp [Node.alive, hn]
  have hlinks := allocate_family (l := {
      next := fun n => if n.owner = some p then none else s.links.next n
      prev := fun n => if n.owner = some p then none else s.links.prev n }) hrep hplaced htree hp
    fun n hn => by simp [hn]
  simp only [wp_bind] at hlinks
  have hproc : ProcTable.setProc p (fun x => { x with pid := s.next_pid }) { s.toProcTable with
      live := p :: s.live
      proc := Function.update s.proc p {}
      next_pid := s.next_pid + 1 } = (t.allocate p).toProcTable := by
    rw [hrep.table]
    simp [ProcTable.setProc, Tasks.allocate]
  simp only [proc_create, kmalloc_proc, alloc_pid, wp_bind, wp_modify, wp_get, wp_set, wp_pure]
  refine setProc_new List.mem_cons_self hproc ?_
  simp only [Bool.not_true, Bool.false_eq_true, if_false, wp_bind]
  have hlive : (t.allocate p).live = p :: s.live := by
    rw [hrep.live]
    rfl
  refine onNodes_spec hlive (hns rfl) (wp_mono hlinks fun _ l₁ h₁ => ?_)
  refine onNodes_spec hlive (hns rfl) (wp_mono h₁ fun _ l₂ h₂ => ?_)
  refine onNodes_spec hlive (hns rfl) (wp_mono h₂ fun _ l₃ h₃ => ?_)
  refine onNodes_spec hlive (hns rfl) (wp_mono h₃ fun _ l₄ h₄ => ?_)
  have hrep₄ : Rep ⟨(t.allocate p).toProcTable, l₄⟩ (t.allocate p) := ⟨rfl, h₄⟩
  rw [wp_get]
  have hinit : (t.allocate p).init_proc = t.init_proc := rfl
  rw [hinit]
  cases hi : t.init_proc with
  | none =>
    rw [wp_pure]
    refine ⟨rfl, hrep₄.of_eq ?_ ?_⟩
    · simp [Tasks.create, Tasks.allocate, hi]
    · simp [Tasks.create, Tasks.allocate, hi]
  | some i =>
    have hil : i ∈ t.live := hplaced.live i (htree.init i hi).1
    simp only [wp_bind]
    refine setProc_spec hrep₄ (by simp [Tasks.allocate]) fun s₅ h₅ => ?_
    refine addTail_spec h₅ (h := .children i) (by simp [Tasks.setProc, ProcTable.setProc, Tasks.allocate])
      (by simp [Tasks.setProc, ProcTable.setProc, Tasks.allocate, hil]) ?_ fun s₆ h₆ => ?_
    · intro g hlink halive
      exact Tasks.sibling_free htree hp hlink halive
    · rw [wp_pure]
      refine ⟨rfl, h₆.of_eq ?_ ?_⟩
      · simp [Tasks.create, Tasks.allocate, hi, Tasks.setProc, ProcTable.setProc, Tasks.push, Tasks.put]
      · simp [Tasks.create, Tasks.allocate, hi, Tasks.setProc, Tasks.push, Tasks.put]

/-- A process structure that was freed again for want of a stack. -/
def Tasks.abandon (p : Nat) (t : Tasks) : Tasks :=
  { t with
    proc := Function.update t.proc p { pid := t.next_pid }
    next_pid := t.next_pid + 1 }

theorem proc_create_fail_spec (hrep : Rep s t) (hplaced : t.Placed) (htree : t.Tree) (hp : p ∉ t.live) :
    wp (proc_create (some p) false) (fun r s' => r = none ∧ Rep s' (t.abandon p)) s := by
  simp only [proc_create, kmalloc_proc, kmfree_proc, alloc_pid, wp_bind, wp_modify, wp_get, wp_set, wp_pure]
  refine setProc_new List.mem_cons_self rfl ?_
  simp only [Bool.not_false, if_true, wp_bind, wp_modify, wp_pure]
  refine ⟨trivial, ?_, ?_⟩
  · rw [hrep.table]
    simp [ProcTable.setProc, Tasks.abandon]
  · -- the lists are in memory that `memset` did not reach
    have hrings : (t.abandon p).rings = t.rings := by
      funext n
      cases n with
      | head g => rfl
      | link l q => cases l <;> rfl
    rw [hrings]
    refine hrep.family.congr fun g zs hg a ha => ?_
    have hne := Tasks.owner_ne (Tasks.rings_owner hplaced htree hg ha) hp
    simp [hne]

theorem publish_spec {Q : Unit → Procs → Prop} (hrep : Rep s t) (hplaced : t.Placed) (htree : t.Tree)
    (hp : p ∈ t.live) (hpa : p ∉ t.list .all_procs) (hQ : ∀ s', Rep s' (t.publish p) → Q () s') :
    wp (publish p) Q s := by
  simp only [publish, wp_bind]
  refine setProc_spec hrep hp fun s₁ h₁ => ?_
  refine addTail_spec (h := .all_procs) h₁ hp rfl ?_ fun s₂ h₂ => ?_
  · intro g hlink _
    cases g with
    | all_procs => exact hpa
    | _ => cases hlink
  refine addTail_spec (h := .run_queue) h₂ hp rfl ?_ fun s₃ h₃ => ?_
  · intro g hlink halive
    cases g with
    | run_queue =>
      have hnot : p ∉ t.list .run_queue := fun hmem => hpa ((hplaced.mem .run_queue rfl rfl p).mp hmem).1
      simpa [Tasks.push, Tasks.put, Tasks.setProc] using hnot
    | _ => cases hlink
  refine getProc_spec h₃ hp ?_
  refine addFront_spec h₃ hp rfl ?_ fun s₄ h₄ => hQ s₄ (h₄.of_eq rfl rfl)
  intro g hlink _
  cases g with
  | pid_table b =>
    have hnot : p ∉ t.list (.pid_table b) := fun hmem => hpa ((htree.bucket p b).mp hmem).1
    simpa [Tasks.push, Tasks.put, Tasks.setProc] using hnot
  | _ => cases hlink

namespace Tasks

theorem live_publish (t : Tasks) (p : Nat) : (t.publish p).live = t.live := rfl

theorem init_publish (t : Tasks) (p : Nat) : (t.publish p).init_proc = t.init_proc := rfl

theorem list_publish_all (t : Tasks) (p : Nat) : (t.publish p).list .all_procs = t.list .all_procs ++ [p] := by
  rw [Placed.list_publish (by simp)]
  simp [push, put]

theorem proc_publish (t : Tasks) (p q : Nat) : ((t.publish p).proc q).pid = (t.proc q).pid ∧
    ((t.publish p).proc q).parent = (t.proc q).parent ∧ ((t.publish p).proc q).forking = (t.proc q).forking := by
  by_cases hqp : q = p
  · subst hqp
    simp [publish, enter, setProc, ProcTable.setProc, put, push]
  · simp [publish, enter, setProc, ProcTable.setProc, put, push, hqp]

/-- A new process is published. No `proc_fork` is left with it. -/
theorem Tree.publish (htree : t.Tree)
    (hfork : ∀ q ∈ t.live, ∀ stage, (t.proc q).forking ≠ some (p, stage)) : (t.publish p).Tree := by
  refine htree.appear (p := p) rfl ?_ (fun b q => Placed.mem_publish_bucket) ?_ rfl ?_ ?_ ?_ ?_ ?_
  · intro q
    rw [list_publish_all, List.mem_append, List.mem_singleton]
  · intro q
    rw [Placed.list_publish (by simp)]
    simp [push, put]
  · intro q hq
    simp [Tasks.publish, enter, setProc, put, push, hq]
  · simp [Tasks.publish, enter, put]
  · intro q
    obtain ⟨hpid, hparent, -⟩ := proc_publish t p q
    exact ⟨hpid, hparent⟩
  · intro q hq
    simp [Tasks.publish, enter, setProc, ProcTable.setProc, put, push, hq]
  · intro q hq d stage hd
    rw [(proc_publish t p q).2.2] at hd
    refine ⟨hd, ?_⟩
    rintro rfl
    exact hfork q hq stage hd

/-- A process that is new is in no `proc_fork`. -/
theorem Tree.fork_create (htree : t.Tree) (hp : p ∉ t.live) :
    ∀ q ∈ (t.create p).live, ∀ stage, ((t.create p).proc q).forking ≠ some (p, stage) := by
  intro q hq stage hd
  rw [Tree.proc_create] at hd
  by_cases hqp : q = p
  · simp [hqp] at hd
  · rw [Tree.live_create] at hq
    rw [Function.update_of_ne hqp] at hd
    exact hp (htree.fork q ((List.mem_cons.mp hq).resolve_left hqp) p stage hd).1

end Tasks

/-- `proc_create_kernel` before and after `init_proc` is set. -/
theorem proc_create_kernel_spec (hrep : Rep s t) (hplaced : t.Placed) (htree : t.Tree) (hp : p ∉ t.live)
    (hroot : t.init_proc = none → t.next_pid.toInt ≤ 1) :
    wp (proc_create_kernel (some p) true) (fun r s' => r = p ∧ Rep s' ((t.create p).publish p)) s ∧
      ((t.create p).publish p).Placed ∧ ((t.create p).publish p).Tree := by
  have hlive : p ∈ (t.create p).live := by simp [Tasks.Tree.live_create]
  have hpa : p ∉ (t.create p).list .all_procs := by
    rw [Tasks.Tree.list_create (by simp) (by simp)]
    exact fun hmem => hp (hplaced.live p hmem)
  have hplaced' := hplaced.create hp
  have htree' := htree.create hplaced.live hp hroot
  refine ⟨?_, hplaced'.publish hlive hpa, htree'.publish (htree.fork_create hp)⟩
  simp only [proc_create_kernel, wp_bind]
  refine wp_mono (proc_create_spec hrep hplaced htree hp) fun r s₁ h₁ => ?_
  obtain ⟨rfl, h₁⟩ := h₁
  simp only [wp_bind]
  refine publish_spec h₁ hplaced' htree' hlive hpa fun s₂ h₂ => ?_
  rw [wp_pure]
  exact ⟨rfl, h₂⟩

end bobchouos
