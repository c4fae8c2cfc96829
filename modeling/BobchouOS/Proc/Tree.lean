import BobchouOS.Proc.Places

open lib

namespace bobchouos

namespace Tasks

/-- A child goes from the list of `p` to that of `i`. -/
def adopt (p i c : Nat) (t : Tasks) : Tasks :=
  ((t.setProc c fun x => { x with parent := some i }).drop (.children p) c).push (.children i) c

/-- A new process, a child of init if there is one. -/
def create (p : Nat) (t : Tasks) : Tasks :=
  let new := { t with
    live := p :: t.live
    proc := Function.update t.proc p { pid := t.next_pid, parent := t.init_proc }
    next_pid := t.next_pid + 1
    list := Function.update (Function.update t.list (.children p) []) (.wq (.child_wq p)) [] }
  match t.init_proc with
  | some i => new.push (.children i) p
  | none => new

/-- A new process becomes runnable and can be found. -/
def publish (p : Nat) (t : Tasks) : Tasks :=
  let t := ((t.push .all_procs p).push .run_queue p).enter p (.queue .run_queue)
  let b := Head.pid_table (bucket (t.proc p).pid)
  t.put b (p :: t.list b)

def free (p : Nat) (t : Tasks) : Tasks := { t with live := t.live.erase p }

/-- The processes and their parents. Those outside of `all_procs` are children
that a `proc_fork` has not published yet. -/
structure Tree (t : Tasks) : Prop where
  nodup : t.live.Nodup
  child : ∀ p ∈ t.live, ∀ c, c ∈ t.list (.children p) ↔ c ∈ t.live ∧ (t.proc c).parent = some p
  parent : ∀ c ∈ t.live, ∀ p, (t.proc c).parent = some p → p ∈ t.list .all_procs
  root : ∀ c ∈ t.live, (t.proc c).parent = none → (t.proc c).pid.toInt ≤ 1
  dead : ∀ p ∈ t.list .all_procs, t.place p = .zombie → t.list (.children p) = []
  hidden : ∀ p ∈ t.live, p ∉ t.list .all_procs → (t.proc p).state = .PROC_RUNNABLE
  init : ∀ i, t.init_proc = some i → i ∈ t.list .all_procs ∧ (t.proc i).pid.toInt ≤ 1 ∧ t.place i ≠ .zombie
  bucket : ∀ p b, p ∈ t.list (.pid_table b) ↔ p ∈ t.list .all_procs ∧ bucket (t.proc p).pid = b
  fork : ∀ p ∈ t.live, ∀ c stage, (t.proc p).forking = some (c, stage) →
    c ∈ t.live ∧ c ∉ t.list .all_procs ∧ (t.proc c).parent ≠ none
  fork_unique : ∀ p ∈ t.live, ∀ q ∈ t.live, ∀ c stage stage', (t.proc p).forking = some (c, stage) →
    (t.proc q).forking = some (c, stage') → p = q

namespace Tree

variable {t t' : Tasks} {p c i : Nat}

/-- Processes change their places and their other data. -/
theorem restate (h : Tree t) (hlive : t'.live = t.live) (hall : t'.list .all_procs = t.list .all_procs)
    (hbucket : ∀ b, t'.list (.pid_table b) = t.list (.pid_table b))
    (hchild : ∀ p, t'.list (.children p) = t.list (.children p)) (hinit : t'.init_proc = t.init_proc)
    (hproc : ∀ q, (t'.proc q).pid = (t.proc q).pid ∧ (t'.proc q).parent = (t.proc q).parent ∧
      (t'.proc q).forking = (t.proc q).forking)
    (hhidden : ∀ q ∉ t.list .all_procs, (t'.proc q).state = (t.proc q).state)
    (hdead : ∀ q ∈ t.list .all_procs, t'.place q = .zombie → t.place q = .zombie ∨
      t.list (.children q) = [] ∧ t.init_proc ≠ some q) : Tree t' := by
  refine ⟨?_, ?_, ?_, ?_, ?_, ?_, ?_, ?_, ?_, ?_⟩
  · rw [hlive]
    exact h.nodup
  · intro q hq d
    rw [hlive] at hq ⊢
    rw [hchild, (hproc d).2.1]
    exact h.child q hq d
  · intro d hd q hdq
    rw [hlive] at hd
    rw [hall]
    exact h.parent d hd q ((hproc d).2.1 ▸ hdq)
  · intro d hd hnone
    rw [hlive] at hd
    rw [(hproc d).1]
    exact h.root d hd ((hproc d).2.1 ▸ hnone)
  · intro q hq hz
    rw [hall] at hq
    rw [hchild]
    rcases hdead q hq hz with hz | hz
    · exact h.dead q hq hz
    · exact hz.1
  · intro q hq hnot
    rw [hlive] at hq
    rw [hall] at hnot
    rw [hhidden q hnot]
    exact h.hidden q hq hnot
  · intro j hj
    rw [hinit] at hj
    obtain ⟨hja, hpid, hplace⟩ := h.init j hj
    rw [hall, (hproc j).1]
    refine ⟨hja, hpid, fun hz => ?_⟩
    rcases hdead j hja hz with hz | hz
    · exact hplace hz
    · exact hz.2 hj
  · intro q b
    rw [hbucket, hall, (hproc q).1]
    exact h.bucket q b
  · intro q hq d stage hd
    rw [hlive] at hq ⊢
    rw [hall, (hproc d).2.1]
    exact h.fork q hq d stage ((hproc q).2.2 ▸ hd)
  · intro q hq r hr d stage stage' hqd hrd
    rw [hlive] at hq hr
    exact h.fork_unique q hq r hr d stage stage' ((hproc q).2.2 ▸ hqd) ((hproc r).2.2 ▸ hrd)

/-- A published process changes its place. -/
theorem move (h : Tree t) (hp : p ∈ t.list .all_procs) (hlive : t'.live = t.live)
    (hlist : ∀ g, g.isQueue = false → t'.list g = t.list g) (hinit : t'.init_proc = t.init_proc)
    (hproc : ∀ q, (t'.proc q).pid = (t.proc q).pid ∧ (t'.proc q).parent = (t.proc q).parent ∧
      (t'.proc q).forking = (t.proc q).forking)
    (hstate : ∀ q ≠ p, (t'.proc q).state = (t.proc q).state) (hplace : ∀ q ≠ p, t'.place q = t.place q)
    (hdead : t'.place p = .zombie → t.list (.children p) = [] ∧ t.init_proc ≠ some p) : Tree t' := by
  refine h.restate hlive (hlist _ rfl) (fun b => hlist _ rfl) (fun q => hlist _ rfl) hinit hproc ?_ ?_
  · intro q hq
    refine hstate q ?_
    rintro rfl
    exact hq hp
  · intro q _ hz
    by_cases hqp : q = p
    · subst hqp
      exact .inr (hdead hz)
    · exact .inl (hplace q hqp ▸ hz)

/-- A process that has no children goes away. -/
theorem leave (h : Tree t) (t' : Tasks) (hlive : t'.live = t.live.erase c)
    (hall : ∀ q, q ∈ t'.list .all_procs ↔ q ∈ t.list .all_procs ∧ q ≠ c)
    (hbucket : ∀ b q, q ∈ t'.list (.pid_table b) ↔ q ∈ t.list (.pid_table b) ∧ q ≠ c)
    (hchild : ∀ q ∈ t.live, ∀ d, d ∈ t'.list (.children q) ↔ d ∈ t.list (.children q) ∧ d ≠ c)
    (hplace : t'.place = t.place) (hinit : t'.init_proc = t.init_proc) (hci : t.init_proc ≠ some c)
    (hnone : ∀ d ∈ t.live, (t.proc d).parent ≠ some c)
    (hproc : ∀ q ≠ c, (t'.proc q).pid = (t.proc q).pid ∧ (t'.proc q).parent = (t.proc q).parent ∧
      (t'.proc q).state = (t.proc q).state)
    (hfork : ∀ q ∈ t.live, q ≠ c → ∀ d stage, (t'.proc q).forking = some (d, stage) →
      (t.proc q).forking = some (d, stage) ∧ d ≠ c) (hsub : ∀ p ∈ t.list .all_procs, p ∈ t.live) : Tree t' := by
  have hmem : ∀ q, q ∈ t'.live ↔ q ≠ c ∧ q ∈ t.live := fun q => by rw [hlive, h.nodup.mem_erase_iff]
  refine ⟨?_, ?_, ?_, ?_, ?_, ?_, ?_, ?_, ?_, ?_⟩
  · rw [hlive]
    exact h.nodup.erase c
  · intro q hq d
    obtain ⟨hqc, hq⟩ := (hmem q).mp hq
    rw [hchild q hq, hmem, h.child q hq]
    by_cases hdc : d = c
    · simp [hdc]
    · rw [(hproc d hdc).2.1]
      simp [hdc]
  · intro d hd q hdq
    obtain ⟨hdc, hd⟩ := (hmem d).mp hd
    rw [(hproc d hdc).2.1] at hdq
    refine (hall q).mpr ⟨h.parent d hd q hdq, ?_⟩
    rintro rfl
    exact hnone d hd hdq
  · intro d hd hdn
    obtain ⟨hdc, hd⟩ := (hmem d).mp hd
    rw [(hproc d hdc).2.1] at hdn
    rw [(hproc d hdc).1]
    exact h.root d hd hdn
  · intro q hq hz
    obtain ⟨hq, -⟩ := (hall q).mp hq
    rw [hplace] at hz
    refine List.eq_nil_iff_forall_not_mem.mpr fun d hd => ?_
    have hold := ((hchild q (hsub q hq) d).mp hd).1
    rw [h.dead q hq hz] at hold
    cases hold
  · intro q hq hnot
    obtain ⟨hqc, hq⟩ := (hmem q).mp hq
    rw [(hproc q hqc).2.2]
    exact h.hidden q hq fun hqa => hnot ((hall q).mpr ⟨hqa, hqc⟩)
  · intro j hj
    rw [hinit] at hj
    have hjc : j ≠ c := by
      rintro rfl
      exact hci hj
    obtain ⟨hja, hpid, hz⟩ := h.init j hj
    rw [(hproc j hjc).1, hplace]
    exact ⟨(hall j).mpr ⟨hja, hjc⟩, hpid, hz⟩
  · intro q b
    rw [hbucket, hall, h.bucket]
    by_cases hqc : q = c
    · simp [hqc]
    · rw [(hproc q hqc).1]
      simp [hqc]
  · intro q hq d stage hd
    obtain ⟨hqc, hq⟩ := (hmem q).mp hq
    obtain ⟨hold, hdc⟩ := hfork q hq hqc d stage hd
    obtain ⟨hdl, hda, hdp⟩ := h.fork q hq d stage hold
    rw [hmem, hall, (hproc d hdc).2.1]
    exact ⟨⟨hdc, hdl⟩, fun hmem => hda hmem.1, hdp⟩
  · intro q hq r hr d stage stage' hqd hrd
    obtain ⟨hqc, hq⟩ := (hmem q).mp hq
    obtain ⟨hrc, hr⟩ := (hmem r).mp hr
    exact h.fork_unique q hq r hr d stage stage' (hfork q hq hqc d stage hqd).1 (hfork r hr hrc d stage' hrd).1

/-- A child is on the list of its parent only. -/
theorem mem_drop_children {q d : Nat} (h : Tree t) (hp : p ∈ t.live) (hnodup : (t.list (.children p)).Nodup)
    (hc : c ∈ t.list (.children p)) (hq : q ∈ t.live) :
    d ∈ (t.drop (.children p) c).list (.children q) ↔ d ∈ t.list (.children q) ∧ d ≠ c := by
  by_cases hqp : q = p
  · subst hqp
    simp only [drop, put, Function.update_self]
    rw [hnodup.mem_erase_iff, and_comm]
  · have heq : (t.drop (.children p) c).list (.children q) = t.list (.children q) := by
      simp [drop, put, hqp]
    rw [heq]
    refine ⟨fun hd => ⟨hd, ?_⟩, fun hd => hd.1⟩
    rintro rfl
    have hq' := ((h.child q hq d).mp hd).2
    rw [((h.child p hp d).mp hc).2] at hq'
    exact hqp (Option.some.inj hq').symm

theorem parent_adopt (t : Tasks) (p i c q : Nat) :
    ((t.adopt p i c).proc q).parent = if q = c then some i else (t.proc q).parent := by
  by_cases hqc : q = c
  · subst hqc
    simp [adopt, push, drop, put, setProc, ProcTable.setProc]
  · simp [adopt, push, drop, put, setProc, ProcTable.setProc, hqc]

theorem proc_adopt (t : Tasks) (p i c q : Nat) : ((t.adopt p i c).proc q).pid = (t.proc q).pid ∧
    ((t.adopt p i c).proc q).state = (t.proc q).state ∧ ((t.adopt p i c).proc q).forking = (t.proc q).forking := by
  by_cases hqc : q = c
  · subst hqc
    simp [adopt, push, drop, put, setProc, ProcTable.setProc]
  · simp [adopt, push, drop, put, setProc, ProcTable.setProc, hqc]

theorem list_adopt {g : Head} (hg : ∀ q, g ≠ .children q) : (t.adopt p i c).list g = t.list g := by
  simp [adopt, push, drop, put, setProc, hg]

theorem mem_adopt_of_ne {q d : Nat} (hdc : d ≠ c) :
    d ∈ (t.adopt p i c).list (.children q) ↔ d ∈ t.list (.children q) := by
  by_cases hqi : q = i
  · subst hqi
    by_cases hqp : q = p
    · subst hqp
      simp [adopt, push, drop, put, setProc, hdc, List.mem_erase_of_ne hdc]
    · simp [adopt, push, drop, put, setProc, hdc, hqp]
  · by_cases hqp : q = p
    · subst hqp
      simp [adopt, push, drop, put, setProc, hqi, List.mem_erase_of_ne hdc]
    · simp [adopt, push, drop, put, setProc, hqp, hqi]

theorem mem_adopt_self {q : Nat} (h : Tree t) (hq : q ∈ t.live) (hp : p ∈ t.live)
    (hnodup : (t.list (.children p)).Nodup) (hc : c ∈ t.list (.children p)) :
    c ∈ (t.adopt p i c).list (.children q) ↔ q = i := by
  by_cases hqi : q = i
  · subst hqi
    simp [adopt, push, put]
  · have heq : (t.adopt p i c).list (.children q) = (t.drop (.children p) c).list (.children q) := by
      simp [adopt, push, put, hqi, setProc, drop]
    rw [heq, h.mem_drop_children hp hnodup hc hq]
    simp [hqi]

/-- A process gets another parent. -/
theorem adopt (h : Tree t) (hsub : ∀ p ∈ t.list .all_procs, p ∈ t.live) (hp : p ∈ t.live) (hi : i ∈ t.list .all_procs)
    (halive : t.place i ≠ .zombie) (hnodup : (t.list (.children p)).Nodup) (hc : c ∈ t.list (.children p)) :
    Tree (t.adopt p i c) := by
  have hlist := fun (g : Head) (hg : ∀ q, g ≠ .children q) => list_adopt (t := t) (p := p) (i := i) (c := c) hg
  have hcl := ((h.child p hp c).mp hc).1
  refine ⟨h.nodup, ?_, ?_, ?_, ?_, ?_, ?_, ?_, ?_, ?_⟩
  · intro q hq d
    rw [parent_adopt]
    by_cases hdc : d = c
    · subst hdc
      rw [h.mem_adopt_self hq hp hnodup hc]
      simp [show d ∈ (t.adopt p i d).live from hcl, eq_comm]
    · rw [mem_adopt_of_ne hdc, if_neg hdc]
      exact h.child q hq d
  · intro d hd q hdq
    rw [parent_adopt] at hdq
    rw [hlist _ (by simp)]
    split at hdq
    · cases hdq
      exact hi
    · exact h.parent d hd q hdq
  · intro d hd hnone
    rw [parent_adopt] at hnone
    split at hnone
    · cases hnone
    · rw [(proc_adopt t p i c d).1]
      exact h.root d hd hnone
  · intro q hq hz
    rw [hlist _ (by simp)] at hq
    refine List.eq_nil_iff_forall_not_mem.mpr fun d hd => ?_
    by_cases hdc : d = c
    · subst hdc
      rw [(h.mem_adopt_self (hsub q hq) hp hnodup hc).mp hd] at hz
      exact halive hz
    · rw [mem_adopt_of_ne hdc, h.dead q hq hz] at hd
      cases hd
  · intro q hq hnot
    rw [hlist _ (by simp)] at hnot
    rw [(proc_adopt t p i c q).2.1]
    exact h.hidden q hq hnot
  · intro j hj
    rw [hlist _ (by simp), (proc_adopt t p i c j).1]
    exact h.init j hj
  · intro q b
    rw [hlist _ (by simp), hlist _ (by simp), (proc_adopt t p i c q).1]
    exact h.bucket q b
  · intro q hq d stage hd
    rw [(proc_adopt t p i c q).2.2] at hd
    obtain ⟨hdl, hda, hdp⟩ := h.fork q hq d stage hd
    rw [hlist _ (by simp), parent_adopt]
    refine ⟨hdl, hda, ?_⟩
    split
    · simp
    · exact hdp
  · intro q hq r hr d stage stage' hqd hrd
    rw [(proc_adopt t p i c q).2.2] at hqd
    rw [(proc_adopt t p i c r).2.2] at hrd
    exact h.fork_unique q hq r hr d stage stage' hqd hrd

theorem live_create (t : Tasks) (p : Nat) : (t.create p).live = p :: t.live := by
  unfold create
  split <;> rfl

theorem proc_create (t : Tasks) (p : Nat) :
    (t.create p).proc = Function.update t.proc p { pid := t.next_pid, parent := t.init_proc } := by
  unfold create
  split <;> rfl

theorem place_create (t : Tasks) (p : Nat) : (t.create p).place = t.place := by
  unfold create
  split <;> rfl

theorem init_create (t : Tasks) (p : Nat) : (t.create p).init_proc = t.init_proc := by
  unfold create
  split <;> simp_all [push, put]

theorem current_create (t : Tasks) (p : Nat) : (t.create p).current = t.current := by
  unfold create
  split <;> rfl

theorem list_create {g : Head} (hg : ∀ q, g ≠ .children q) (hw : g ≠ .wq (.child_wq p)) :
    (t.create p).list g = t.list g := by
  unfold create
  split <;> simp [push, put, hg, hw]

theorem mem_create_children {q d : Nat} (hpi : t.init_proc ≠ some p) :
    d ∈ (t.create p).list (.children q) ↔
      q ≠ p ∧ d ∈ t.list (.children q) ∨ d = p ∧ t.init_proc = some q := by
  unfold create
  split
  · rename_i i hi
    have hpi' : p ≠ i := by
      rintro rfl
      exact hpi hi
    by_cases hqi : q = i
    · subst hqi
      simp [push, put, hi, Ne.symm hpi']
    · by_cases hqp : q = p
      · subst hqp
        simp [push, put, hi, hqi, Ne.symm hqi]
      · simp [push, put, hi, hqi, hqp, Ne.symm hqi]
  · rename_i hi
    by_cases hqp : q = p
    · subst hqp
      simp [hi]
    · simp [hi, hqp]

/-- A new process that is not published yet. -/
theorem create (h : Tree t) (hsub : ∀ p ∈ t.list .all_procs, p ∈ t.live) (hp : p ∉ t.live)
    (hroot : t.init_proc = none → t.next_pid.toInt ≤ 1) : Tree (t.create p) := by
  have hpa : p ∉ t.list .all_procs := fun hmem => hp (hsub p hmem)
  have hpi : t.init_proc ≠ some p := fun hi => hpa (h.init p hi).1
  have hproc : ∀ q, q ≠ p → (t.create p).proc q = t.proc q := fun q hq => by
    rw [proc_create, Function.update_of_ne hq]
  have hself : (t.create p).proc p = { pid := t.next_pid, parent := t.init_proc } := by
    rw [proc_create, Function.update_self]
  have hne : ∀ q ∈ t.live, q ≠ p := fun q hq heq => hp (heq ▸ hq)
  have hall : (t.create p).list .all_procs = t.list .all_procs := list_create (by simp) (by simp)
  refine ⟨?_, ?_, ?_, ?_, ?_, ?_, ?_, ?_, ?_, ?_⟩
  · rw [live_create]
    exact List.nodup_cons.mpr ⟨hp, h.nodup⟩
  · intro q hq d
    rw [live_create] at hq ⊢
    rw [mem_create_children hpi, List.mem_cons]
    by_cases hdp : d = p
    · subst hdp
      have hnot : ¬ (q ≠ d ∧ d ∈ t.list (.children q)) := fun hmem =>
        hp ((h.child q ((List.mem_cons.mp hq).resolve_left hmem.1) d).mp hmem.2).1
      simp [hself, hnot]
    · rw [hproc d hdp]
      by_cases hqp : q = p
      · subst hqp
        have hnot : ¬ (d ∈ t.live ∧ (t.proc d).parent = some q) := fun hd => hpa (h.parent d hd.1 q hd.2)
        simp [hdp, hnot]
      · simp [hdp, hqp, h.child q ((List.mem_cons.mp hq).resolve_left hqp) d]
  · intro d hd q hdq
    rw [live_create] at hd
    rw [hall]
    by_cases hdp : d = p
    · subst hdp
      rw [hself] at hdq
      exact (h.init q hdq).1
    · rw [hproc d hdp] at hdq
      exact h.parent d ((List.mem_cons.mp hd).resolve_left hdp) q hdq
  · intro d hd hnone
    rw [live_create] at hd
    by_cases hdp : d = p
    · subst hdp
      rw [hself] at hnone ⊢
      exact hroot hnone
    · rw [hproc d hdp] at hnone ⊢
      exact h.root d ((List.mem_cons.mp hd).resolve_left hdp) hnone
  · intro q hq hz
    rw [hall] at hq
    rw [place_create] at hz
    refine List.eq_nil_iff_forall_not_mem.mpr fun d hd => ?_
    rcases (mem_create_children hpi).mp hd with ⟨-, hd⟩ | ⟨-, hi⟩
    · rw [h.dead q hq hz] at hd
      cases hd
    · exact (h.init q hi).2.2 hz
  · intro q hq hnot
    rw [live_create] at hq
    rw [hall] at hnot
    by_cases hqp : q = p
    · rw [hqp, hself]
    · rw [hproc q hqp]
      exact h.hidden q ((List.mem_cons.mp hq).resolve_left hqp) hnot
  · intro j hj
    rw [init_create] at hj
    obtain ⟨hja, hpid, hz⟩ := h.init j hj
    rw [hall, hproc j (hne j (hsub j hja)), place_create]
    exact ⟨hja, hpid, hz⟩
  · intro q b
    rw [hall, list_create (by simp) (by simp), h.bucket]
    by_cases hqp : q = p
    · simp [hqp, hpa]
    · rw [hproc q hqp]
  · intro q hq d stage hd
    rw [live_create] at hq ⊢
    by_cases hqp : q = p
    · rw [hqp, hself] at hd
      cases hd
    · rw [hproc q hqp] at hd
      obtain ⟨hdl, hda, hdp⟩ := h.fork q ((List.mem_cons.mp hq).resolve_left hqp) d stage hd
      rw [hall, hproc d (hne d hdl)]
      exact ⟨List.mem_cons_of_mem _ hdl, hda, hdp⟩
  · intro q hq r hr d stage stage' hqd hrd
    rw [live_create] at hq hr
    by_cases hqp : q = p
    · rw [hqp, hself] at hqd
      cases hqd
    · by_cases hrp : r = p
      · rw [hrp, hself] at hrd
        cases hrd
      · rw [hproc q hqp] at hqd
        rw [hproc r hrp] at hrd
        exact h.fork_unique q ((List.mem_cons.mp hq).resolve_left hqp) r
          ((List.mem_cons.mp hr).resolve_left hrp) d stage stage' hqd hrd

/-- A process appears in `all_procs` and in its bucket. -/
theorem appear (h : Tree t) (hlive : t'.live = t.live)
    (hall : ∀ q, q ∈ t'.list .all_procs ↔ q ∈ t.list .all_procs ∨ q = p)
    (hbucket : ∀ b q, q ∈ t'.list (.pid_table b) ↔
      q ∈ t.list (.pid_table b) ∨ q = p ∧ bobchouos.bucket (t.proc p).pid = b)
    (hchild : ∀ q, t'.list (.children q) = t.list (.children q)) (hinit : t'.init_proc = t.init_proc)
    (hplace : ∀ q ≠ p, t'.place q = t.place q) (hpp : t'.place p ≠ .zombie)
    (hproc : ∀ q, (t'.proc q).pid = (t.proc q).pid ∧ (t'.proc q).parent = (t.proc q).parent)
    (hstate : ∀ q ≠ p, (t'.proc q).state = (t.proc q).state)
    (hfork : ∀ q ∈ t.live, ∀ d stage, (t'.proc q).forking = some (d, stage) →
      (t.proc q).forking = some (d, stage) ∧ d ≠ p) : Tree t' := by
  have hcases : ∀ q, t'.place q = .zombie → q ≠ p ∧ t.place q = .zombie := by
    intro q hz
    have hqp : q ≠ p := by
      rintro rfl
      exact hpp hz
    exact ⟨hqp, hplace q hqp ▸ hz⟩
  refine ⟨?_, ?_, ?_, ?_, ?_, ?_, ?_, ?_, ?_, ?_⟩
  · rw [hlive]
    exact h.nodup
  · intro q hq d
    rw [hlive] at hq ⊢
    rw [hchild, (hproc d).2]
    exact h.child q hq d
  · intro d hd q hdq
    rw [hlive] at hd
    exact (hall q).mpr (.inl (h.parent d hd q ((hproc d).2 ▸ hdq)))
  · intro d hd hnone
    rw [hlive] at hd
    rw [(hproc d).1]
    exact h.root d hd ((hproc d).2 ▸ hnone)
  · intro q hq hz
    obtain ⟨hqp, hz⟩ := hcases q hz
    rw [hchild]
    exact h.dead q (((hall q).mp hq).resolve_right hqp) hz
  · intro q hq hnot
    rw [hlive] at hq
    rw [hall, not_or] at hnot
    rw [hstate q hnot.2]
    exact h.hidden q hq hnot.1
  · intro j hj
    rw [hinit] at hj
    obtain ⟨hja, hpid, hz⟩ := h.init j hj
    rw [hall, (hproc j).1]
    exact ⟨.inl hja, hpid, fun hz' => hz (hcases j hz').2⟩
  · intro q b
    rw [hbucket, hall, (hproc q).1, h.bucket]
    by_cases hqp : q = p
    · subst hqp
      by_cases hqa : q ∈ t.list .all_procs <;> simp [hqa]
    · simp [hqp]
  · intro q hq d stage hd
    rw [hlive] at hq ⊢
    obtain ⟨hold, hdp⟩ := hfork q hq d stage hd
    obtain ⟨hdl, hda, hparent⟩ := h.fork q hq d stage hold
    rw [hall, (hproc d).2]
    exact ⟨hdl, not_or.mpr ⟨hda, hdp⟩, hparent⟩
  · intro q hq r hr d stage stage' hqd hrd
    rw [hlive] at hq hr
    exact h.fork_unique q hq r hr d stage stage' (hfork q hq d stage hqd).1 (hfork r hr d stage' hrd).1

/-- A process enters or leaves a stage of `proc_fork`. -/
theorem setFork {v : Option (Nat × ForkStage)} (h : Tree t)
    (hv : ∀ c stage, v = some (c, stage) → c ∈ t.live ∧ c ∉ t.list .all_procs ∧ (t.proc c).parent ≠ none ∧
      ∀ q ∈ t.live, q ≠ p → ∀ stage', (t.proc q).forking ≠ some (c, stage')) :
    Tree (t.setProc p fun x => { x with forking := v }) := by
  have hproc : ∀ q, ((t.setProc p fun x => { x with forking := v }).proc q).pid = (t.proc q).pid ∧
      ((t.setProc p fun x => { x with forking := v }).proc q).parent = (t.proc q).parent ∧
      ((t.setProc p fun x => { x with forking := v }).proc q).state = (t.proc q).state := by
    intro q
    by_cases hqp : q = p
    · subst hqp
      simp [setProc, ProcTable.setProc]
    · simp [setProc, ProcTable.setProc, hqp]
  have hother : ∀ q ≠ p, ((t.setProc p fun x => { x with forking := v }).proc q).forking = (t.proc q).forking := by
    intro q hqp
    simp [setProc, ProcTable.setProc, hqp]
  have hself : ((t.setProc p fun x => { x with forking := v }).proc p).forking = v := by
    simp [setProc, ProcTable.setProc]
  refine ⟨h.nodup, ?_, ?_, ?_, h.dead, ?_, ?_, ?_, ?_, ?_⟩
  · intro q hq d
    rw [(hproc d).2.1]
    exact h.child q hq d
  · intro d hd q hdq
    exact h.parent d hd q ((hproc d).2.1 ▸ hdq)
  · intro d hd hnone
    rw [(hproc d).1]
    exact h.root d hd ((hproc d).2.1 ▸ hnone)
  · intro q hq hnot
    rw [(hproc q).2.2]
    exact h.hidden q hq hnot
  · intro j hj
    rw [(hproc j).1]
    exact h.init j hj
  · intro q b
    rw [(hproc q).1]
    exact h.bucket q b
  · intro q hq d stage hd
    rw [(hproc d).2.1]
    by_cases hqp : q = p
    · rw [hqp, hself] at hd
      obtain ⟨hdl, hda, hdp, -⟩ := hv d stage hd
      exact ⟨hdl, hda, hdp⟩
    · exact h.fork q hq d stage (hother q hqp ▸ hd)
  · intro q hq r hr d stage stage' hqd hrd
    by_cases hqp : q = p
    · by_cases hrp : r = p
      · rw [hqp, hrp]
      · rw [hqp, hself] at hqd
        rw [hother r hrp] at hrd
        exact absurd hrd ((hv d stage hqd).2.2.2 r hr hrp stage')
    · by_cases hrp : r = p
      · rw [hrp, hself] at hrd
        rw [hother q hqp] at hqd
        exact absurd hqd ((hv d stage' hrd).2.2.2 q hq hqp stage)
      · rw [hother q hqp] at hqd
        rw [hother r hrp] at hrd
        exact h.fork_unique q hq r hr d stage stage' hqd hrd

end Tree

namespace Placed

variable {t t' : Tasks} {p c i : Nat}

/-- Nothing changes that the places depend on. -/
theorem congr (h : Placed t) (hlive : t'.live = t.live) (hlist : ∀ g, g.isQueue = true → t'.list g = t.list g)
    (hall : t'.list .all_procs = t.list .all_procs) (hplace : t'.place = t.place) (hcurrent : t'.current = t.current)
    (hstate : ∀ q, (t'.proc q).state = (t.proc q).state) : Placed t' := by
  refine ⟨?_, ?_, ?_, ?_, ?_, ?_⟩
  · rw [hall, hlive]
    exact h.live
  · rw [hall, hlive, hplace]
    exact h.queue
  · intro g hg halive q
    rw [hlive] at halive
    rw [hall, hplace, hlist g hg]
    exact h.mem g hg halive q
  · intro q hq
    rw [hall] at hq
    rw [hplace, hstate]
    exact h.state q hq
  · rw [hall, hcurrent, hplace]
    exact h.current
  · rw [hall, hplace]
    exact h.own

theorem create (h : Placed t) (hp : p ∉ t.live) : Placed (t.create p) := by
  have hall : (t.create p).list .all_procs = t.list .all_procs := Tree.list_create (by simp) (by simp)
  have hne : ∀ q ∈ t.list .all_procs, q ≠ p := fun q hq heq => hp (heq ▸ h.live q hq)
  have halive : ∀ g, (Node.head g).alive t.live = true → (Node.head g).alive (t.create p).live = true := by
    intro g hg
    rw [Tree.live_create]
    exact Node.alive_of_subset (fun q hq => List.mem_cons_of_mem _ hq) hg
  refine ⟨?_, ?_, ?_, ?_, ?_, ?_⟩
  · intro q hq
    rw [hall] at hq
    rw [Tree.live_create]
    exact List.mem_cons_of_mem _ (h.live q hq)
  · intro q hq g hg
    rw [hall] at hq
    rw [Tree.place_create] at hg
    exact ⟨(h.queue q hq g hg).1, halive g (h.queue q hq g hg).2⟩
  · intro g hg hga q
    rw [hall, Tree.place_create]
    by_cases hgw : g = .wq (.child_wq p)
    · subst hgw
      have hnil : (t.create p).list (.wq (.child_wq p)) = [] := by
        unfold Tasks.create
        split <;> simp [push, put]
      rw [hnil]
      refine ⟨fun hq => absurd hq List.not_mem_nil, fun hq => ?_⟩
      exact absurd (h.own q hq.1 p hq.2).symm (hne q hq.1)
    · rw [Tree.list_create (by rintro r rfl; cases hg) hgw]
      refine h.mem g hg ?_ q
      rw [Tree.live_create] at hga
      cases g with
      | wq w =>
        cases w with
        | child_wq r =>
          rw [Node.alive_child_wq] at hga ⊢
          refine (List.mem_cons.mp hga).resolve_left fun heq => hgw ?_
          rw [heq]
        | other n => rfl
      | run_queue => rfl
      | tsleep_list => rfl
      | _ => cases hg
  · intro q hq
    rw [hall] at hq
    rw [Tree.place_create, Tree.proc_create, Function.update_of_ne (hne q hq)]
    exact h.state q hq
  · rw [hall, Tree.current_create, Tree.place_create]
    exact h.current
  · rw [hall, Tree.place_create]
    exact h.own

theorem list_publish {g : Head} (hg : ∀ b, g ≠ .pid_table b) :
    (t.publish p).list g = ((t.push .all_procs p).push .run_queue p).list g := by
  simp [Tasks.publish, enter, setProc, put, push, hg]

theorem mem_publish_bucket {b : Fin 64} {q : Nat} : q ∈ (t.publish p).list (.pid_table b) ↔
    q ∈ t.list (.pid_table b) ∨ q = p ∧ bucket (t.proc p).pid = b := by
  by_cases hb : bucket (t.proc p).pid = b
  · simp [Tasks.publish, enter, setProc, ProcTable.setProc, put, push, hb, or_comm]
  · simp [Tasks.publish, enter, setProc, ProcTable.setProc, put, push, hb, Ne.symm hb]

/-- A new process comes to the run queue. -/
theorem publish (h : Placed t) (hp : p ∈ t.live) (hpa : p ∉ t.list .all_procs) : Placed (t.publish p) := by
  have hall : (t.publish p).list .all_procs = t.list .all_procs ++ [p] := by
    rw [list_publish (by simp)]
    simp [push, put]
  have hrun : (t.publish p).list .run_queue = t.list .run_queue ++ [p] := by
    rw [list_publish (by simp)]
    simp [push, put]
  have hself : (t.publish p).place p = .queue .run_queue := by
    simp [Tasks.publish, enter, put]
  have hplace : ∀ q ≠ p, (t.publish p).place q = t.place q := fun q hq => by
    simp [Tasks.publish, enter, setProc, put, push, hq]
  have hne : ∀ q ∈ t.list .all_procs, q ≠ p := fun q hq heq => hpa (heq ▸ hq)
  refine ⟨?_, ?_, ?_, ?_, ?_, ?_⟩
  · intro q hq
    rw [hall, List.mem_append, List.mem_singleton] at hq
    rcases hq with hq | rfl
    · exact h.live q hq
    · exact hp
  · intro q hq g hg
    rw [hall, List.mem_append, List.mem_singleton] at hq
    rcases hq with hq | rfl
    · exact h.queue q hq g (hplace q (hne q hq) ▸ hg)
    · rw [hself] at hg
      cases hg
      exact ⟨rfl, rfl⟩
  · intro g hg hga q
    rw [hall]
    by_cases hgr : g = .run_queue
    · subst hgr
      rw [hrun]
      by_cases hqp : q = p
      · simp [hqp, hself]
      · simp [hqp, hplace q hqp, h.mem .run_queue rfl rfl q]
    · have hsame : (t.publish p).list g = t.list g := by
        have hga : g ≠ .all_procs := by
          rintro rfl
          cases hg
        rw [list_publish (by rintro b rfl; cases hg)]
        simp [push, put, hgr, hga]
      rw [hsame]
      by_cases hqp : q = p
      · have hnot : p ∉ t.list g := fun hmem => hpa ((h.mem g hg hga p).mp hmem).1
        simp [hqp, hself, hnot, Ne.symm hgr]
      · simp [hqp, hplace q hqp, h.mem g hg hga q]
  · intro q hq
    rw [hall, List.mem_append, List.mem_singleton] at hq
    rcases hq with hq | rfl
    · have hqp := hne q hq
      rw [hplace q hqp, ← h.state q hq]
      simp [Tasks.publish, enter, setProc, ProcTable.setProc, put, push, hqp]
    · rw [hself]
      simp [Tasks.publish, enter, setProc, ProcTable.setProc, put, push]
  · intro q
    have hcur : (t.publish p).current = t.current := rfl
    rw [hcur, hall, h.current q]
    by_cases hqp : q = p
    · simp [hqp, hself, hpa]
    · simp [hqp, hplace q hqp]
  · intro q hq r hr
    rw [hall, List.mem_append, List.mem_singleton] at hq
    rcases hq with hq | rfl
    · exact h.own q hq r (hplace q (hne q hq) ▸ hr)
    · rw [hself] at hr
      cases hr

/-- A process that is on no queue goes away. -/
theorem leave (h : Placed t) (hnodup : t.live.Nodup) (hlive : t'.live = t.live.erase c)
    (hall : ∀ q, q ∈ t'.list .all_procs ↔ q ∈ t.list .all_procs ∧ q ≠ c)
    (hlist : ∀ g, g.isQueue = true → t'.list g = t.list g) (hplace : t'.place = t.place)
    (hcurrent : t'.current = t.current) (hstate : ∀ q, (t'.proc q).state = (t.proc q).state)
    (hc : c ∈ t.list .all_procs → t.place c = .zombie) : Placed t' := by
  have hmem : ∀ q, q ∈ t'.live ↔ q ≠ c ∧ q ∈ t.live := fun q => by rw [hlive, hnodup.mem_erase_iff]
  have halive : ∀ g, (Node.head g).alive t'.live = true → (Node.head g).alive t.live = true := by
    intro g hg
    exact Node.alive_of_subset (fun q hq => ((hmem q).mp hq).2) hg
  refine ⟨?_, ?_, ?_, ?_, ?_, ?_⟩
  · intro q hq
    obtain ⟨hq, hqc⟩ := (hall q).mp hq
    exact (hmem q).mpr ⟨hqc, h.live q hq⟩
  · intro q hq g hg
    obtain ⟨hq, hqc⟩ := (hall q).mp hq
    rw [hplace] at hg
    obtain ⟨hgq, hga⟩ := h.queue q hq g hg
    refine ⟨hgq, ?_⟩
    -- only the process itself sleeps on its `child_wq`
    cases g with
    | wq w =>
      cases w with
      | child_wq r =>
        have hrq := h.own q hq r hg
        subst hrq
        rw [Node.alive_child_wq]
        exact (hmem r).mpr ⟨hqc, h.live r hq⟩
      | other n => rfl
    | run_queue => rfl
    | tsleep_list => rfl
    | _ => cases hgq
  · intro g hg hga q
    rw [hlist g hg, hall, hplace, h.mem g hg (halive g hga) q]
    refine ⟨fun hq => ⟨⟨hq.1, ?_⟩, hq.2⟩, fun hq => ⟨hq.1.1, hq.2⟩⟩
    rintro rfl
    rw [hc hq.1] at hq
    cases hq.2
  · intro q hq
    obtain ⟨hq, -⟩ := (hall q).mp hq
    rw [hplace, hstate]
    exact h.state q hq
  · intro q
    rw [hcurrent, hall, hplace, h.current q]
    refine ⟨fun hq => ⟨⟨hq.1, ?_⟩, hq.2⟩, fun hq => ⟨hq.1.1, hq.2⟩⟩
    rintro rfl
    rw [hc hq.1] at hq
    cases hq.2
  · intro q hq r hr
    rw [hplace] at hr
    exact h.own q ((hall q).mp hq).1 r hr

end Placed

end Tasks

end bobchouos
