import BobchouOS.Hart.Model
import Mathlib

open lib

namespace bobchouos

/-- The code `is` of the context `c`, from a point where it holds the spinlocks
`held`, SIE is `sie` and its saved flags are `flags`, takes spinlocks only with
interrupts off and none of them twice, turns interrupts on only without one, and
switches only with the lock of its process. -/
def SafeCode (c : Context) (held : Finset SpinLock) (sie : Bool) (flags : List Bool) : List Instr → Prop
  | [] => held = ∅ ∧ (c = .scheduler → sie = false)
  | .spin_lock l :: is => sie = false ∧ l ∉ held ∧ SafeCode c (insert l held) sie flags is
  | .spin_unlock l :: is => sie = false ∧ l ∈ held ∧ SafeCode c (held.erase l) sie flags is
  | .irq_save :: is => SafeCode c held false (sie :: flags) is
  | .irq_restore :: is =>
    match flags with
    | flag :: flags => (flag = true → held = ∅) ∧ SafeCode c held (sie || flag) flags is
    | [] => False
  | .intr_on :: is | .sret :: is => held = ∅ ∧ SafeCode c held true flags is
  | .intr_off :: is => SafeCode c held false flags is
  | .sched :: is => ∃ p, c = .proc p ∧ held = {.proc p} ∧ sie = false ∧ (is = [] ∨ SafeCode c {.proc p} false flags is)
  | .swtch q :: is => c = .scheduler ∧ held = {.proc q} ∧ sie = false ∧ is = []
  | .publish _ :: is => SafeCode c held sie flags is

namespace Code

variable {c : Context} {p n q : Nat} {l : SpinLock} {held : Finset SpinLock} {sie : Bool} {flags : List Bool}
  {is rest : List Instr}

/-- Code that is safe before every safe continuation, with interrupts off and
when the spinlocks `held` are held, and comes back to the same state. -/
def Nested (c : Context) (held : Finset SpinLock) (is : List Instr) : Prop :=
  ∀ flags rest, SafeCode c held false flags rest → SafeCode c held false flags (is ++ rest)

/-- Code that is safe with interrupts on and off when no spinlock is held. -/
def Neutral (c : Context) (is : List Instr) : Prop :=
  ∀ sie flags rest, SafeCode c ∅ sie flags rest → SafeCode c ∅ sie flags (is ++ rest)

theorem Nested.nil : Nested c held [] := fun _ _ => id

theorem Nested.append (hfirst : Nested c held is) {is' : List Instr} (hsecond : Nested c held is') :
    Nested c held (is ++ is') := by
  intro flags rest hrest
  rw [List.append_assoc]
  exact hfirst flags _ (hsecond flags rest hrest)

theorem Nested.flatMap {α : Type} {xs : List α} {f : α → List Instr} (hf : ∀ x ∈ xs, Nested c held (f x)) :
    Nested c held (xs.flatMap f) := by
  induction xs with
  | nil => exact .nil
  | cons x xs ih =>
    rw [List.flatMap_cons]
    exact .append (hf x List.mem_cons_self) (ih fun y hy => hf y (List.mem_cons_of_mem _ hy))

theorem Neutral.append (hfirst : Neutral c is) {is' : List Instr} (hsecond : Neutral c is') : Neutral c (is ++ is') := by
  intro sie flags rest hrest
  rw [List.append_assoc]
  exact hfirst sie flags _ (hsecond sie flags rest hrest)

theorem Neutral.nested (his : Neutral c is) : Nested c ∅ is := fun flags rest => his false flags rest

/-- A section of a spinlock with interrupts off. -/
theorem Nested.lock (hl : l ∉ held) (his : Nested c (insert l held) is) :
    Nested c held ([.spin_lock l] ++ is ++ [.spin_unlock l]) := by
  intro flags rest hrest
  simp only [List.cons_append, List.nil_append, List.append_assoc, SafeCode]
  refine ⟨trivial, hl, his flags _ ?_⟩
  simpa [SafeCode, Finset.erase_insert hl] using hrest

/-- A section between `spin_lock_irqsave` and `spin_unlock_irqrestore`. -/
theorem Neutral.irqsave (his : Nested c {l} is) :
    Neutral c (spin_lock_irqsave l ++ is ++ spin_unlock_irqrestore l) := by
  intro sie flags rest hrest
  simp only [spin_lock_irqsave, spin_unlock_irqrestore, List.cons_append, List.nil_append, List.append_assoc, SafeCode]
  refine ⟨trivial, by simp, ?_⟩
  rw [insert_empty_eq]
  refine his _ _ ?_
  simpa [SafeCode] using hrest

/-- The same one inside of others. -/
theorem Nested.irqsave (hl : l ∉ held) (his : Nested c (insert l held) is) :
    Nested c held (spin_lock_irqsave l ++ is ++ spin_unlock_irqrestore l) := by
  intro flags rest hrest
  simp only [spin_lock_irqsave, spin_unlock_irqrestore, List.cons_append, List.nil_append, List.append_assoc, SafeCode]
  refine ⟨trivial, hl, his _ _ ?_⟩
  simpa [SafeCode, Finset.erase_insert hl] using hrest

theorem nested_run_queue_add (hl : .run_queue_lock ∉ held) : Nested c held run_queue_add := .lock hl .nil

theorem nested_wake (hq : .proc q ∉ held) (hl : .run_queue_lock ∉ held) : Nested c held (wake q) :=
  (Nested.lock hq .nil).append (nested_run_queue_add hl)

/-- The wakeups inside of the section of a condition lock `l`. -/
theorem nested_wq_wake {w : WaitQueue} {qs : List Nat} (hw : l ≠ .wq w) (hq : ∀ q, l ≠ .proc q)
    (hl : l ≠ .run_queue_lock) :
    Nested c {l} (spin_lock_irqsave (.wq w) ++ qs.flatMap wake ++ spin_unlock_irqrestore (.wq w)) := by
  refine .irqsave (by simpa using hw.symm) (.flatMap fun q _ => nested_wake ?_ ?_)
  · simpa using (hq q).symm
  · simpa using hl.symm

/-- A process that sleeps comes back with the condition lock. -/
theorem nested_wq_sleep {w : WaitQueue} (hw : l ≠ .wq w) (hp : l ≠ .proc p) : Nested (.proc p) {l} (wq_sleep p w l) := by
  intro flags rest hrest
  have hheld : ((insert (.proc p) (insert (.wq w) {l}) : Finset SpinLock).erase l).erase (.wq w) = {.proc p} := by
    ext x
    simp only [Finset.mem_erase, Finset.mem_insert, Finset.mem_singleton]
    constructor
    · tauto
    · rintro rfl
      exact ⟨by simp, hp.symm, .inl rfl⟩
  simp only [wq_sleep, List.cons_append, List.nil_append, SafeCode, hheld]
  simpa [hw.symm, hp.symm, hw] using hrest

theorem nested_sched : Nested (.proc p) {.proc p} [.sched] :=
  fun _ _ hrest => ⟨p, rfl, rfl, rfl, .inr hrest⟩

theorem nested_rounds {w : WaitQueue} (rounds : Nat) (hw : l ≠ .wq w) (hp : l ≠ .proc p) :
    Nested (.proc p) {l} (List.replicate rounds (wq_sleep p w l)).flatten := by
  rw [← List.flatMap_id]
  refine .flatMap fun is his => ?_
  rw [List.eq_of_mem_replicate his]
  exact nested_wq_sleep hw hp

theorem neutral_sleep_lock (p n rounds : Nat) : Neutral (.proc p) (sleep_lock p n rounds) :=
  .irqsave (nested_rounds rounds (by simp) (by simp))

theorem neutral_sleep_unlock (n : Nat) (first : Option Nat) : Neutral c (sleep_unlock n first) :=
  .irqsave (nested_wq_wake (by simp) (by simp) (by simp))

theorem nested_sleep_holding (n : Nat) : Nested c ∅ (sleep_holding n) := .lock (by simp) .nil

theorem neutral_bcache_section : Neutral c bcache_section := .irqsave .nil

theorem neutral_virtio_blk_rw (p rounds rounds' : Nat) : Neutral (.proc p) (virtio_blk_rw p rounds rounds') := by
  have hsubmit : Neutral (.proc p) (virtio_blk_submit p rounds) := .irqsave (nested_rounds rounds (by simp) (by simp))
  have hwait : Neutral (.proc p) (spin_lock_irqsave .disk ++
      (List.replicate rounds' (wq_sleep p diskQueue .disk)).flatten ++ spin_unlock_irqrestore .disk) :=
    .irqsave (nested_rounds rounds' (by simp) (by simp))
  simpa only [virtio_blk_rw, List.append_assoc] using hsubmit.append hwait

theorem neutral_bread (p b rounds : Nat) (io : Option (Nat × Nat)) : Neutral (.proc p) (bread p b rounds io) := by
  refine .append (neutral_bcache_section.append (neutral_sleep_lock p b rounds)) ?_
  cases io with
  | none => exact fun _ _ _ => id
  | some r => simpa using neutral_virtio_blk_rw p r.1 r.2

theorem nested_bwrite (p b rounds rounds' : Nat) : Nested (.proc p) ∅ (bwrite p b rounds rounds') :=
  (nested_sleep_holding b).append (neutral_virtio_blk_rw p rounds rounds').nested

theorem nested_brelse (b : Nat) (first : Option Nat) : Nested c ∅ (brelse b first) :=
  ((nested_sleep_holding b).append (neutral_sleep_unlock b first).nested).append neutral_bcache_section.nested

theorem neutral_yield (p : Nat) : Neutral (.proc p) (yield p) := by
  have hinner : Nested (.proc p) {.proc p} (run_queue_add ++ [.sched]) :=
    .append (nested_run_queue_add (by simp)) nested_sched
  simpa only [yield, List.append_assoc] using Neutral.irqsave hinner

/-- `proc_exit` does not return, so nothing is said about what comes after it. -/
theorem safe_proc_exit (p parent : Nat) (first : Option Nat) (sie : Bool) (flags : List Bool) :
    SafeCode (.proc p) ∅ sie flags (proc_exit p parent first) := by
  have hend : SafeCode (.proc p) {.wait_lock} false (sie :: flags)
      [.spin_lock (.proc p), .spin_unlock .wait_lock, .sched] := by
    have hheld : (insert (.proc p) {.wait_lock} : Finset SpinLock).erase .wait_lock = {.proc p} := by
      ext x
      cases x <;> simp
    simp [SafeCode, hheld]
  simp only [proc_exit, spin_lock_irqsave, List.cons_append, List.nil_append, SafeCode]
  refine ⟨trivial, by simp, ?_⟩
  rw [insert_empty_eq]
  exact nested_wq_wake (by simp) (by simp) (by simp) _ _ hend

theorem nested_scan (children : List Nat) : Nested c {.wait_lock} (scan children) :=
  .flatMap fun _ _ => .lock (by simp) .nil

theorem neutral_proc_wait (p : Nat) (rounds : List (List Nat)) (children : List Nat) :
    Neutral (.proc p) (proc_wait p rounds children) := by
  have hrounds : Nested (.proc p) {.wait_lock}
      (rounds.flatMap fun children => scan children ++ wq_sleep p (.child_wq p) .wait_lock) :=
    .flatMap fun children _ => (nested_scan children).append (nested_wq_sleep (by simp) (by simp))
  simpa only [proc_wait, List.append_assoc] using Neutral.irqsave (hrounds.append (nested_scan children))

theorem neutral_proc_kill (q : Nat) (sleeping : Bool) : Neutral c (proc_kill q sleeping) := by
  have hinner : Nested c (insert (.proc q) {.tsleep_lock}) (if sleeping then run_queue_add else []) := by
    split
    · exact nested_run_queue_add (by simp)
    · exact .nil
  have hlock : Nested c {.tsleep_lock} ([.spin_lock (.proc q)] ++ (if sleeping then run_queue_add else []) ++
      [.spin_unlock (.proc q)]) := .lock (by simp) hinner
  simpa only [proc_kill, List.append_assoc] using Neutral.irqsave hlock

theorem neutral_sys_sleep (p : Nat) : Neutral (.proc p) (sys_sleep p) := by
  intro sie flags rest hrest
  have hheld : (insert (.proc p) {.tsleep_lock} : Finset SpinLock).erase .tsleep_lock = {.proc p} := by
    ext x
    cases x <;> simp
  simp only [sys_sleep, spin_lock_irqsave, spin_unlock_irqrestore, List.cons_append, List.nil_append, SafeCode,
    insert_empty_eq, hheld]
  simpa using hrest

theorem nested_proc_fork (child : Option Nat) : Nested c ∅ (proc_fork child) := by
  have hpid : Nested c ∅ alloc_pid := .lock (by simp) .nil
  refine hpid.append (.flatMap fun d _ => ?_)
  have hwait : Neutral c (spin_lock_irqsave .wait_lock ++ spin_unlock_irqrestore .wait_lock) := .irqsave .nil
  refine hwait.nested.append fun flags rest hrest => ?_
  have hrestore : SafeCode c ∅ false (false :: flags) (.irq_restore :: rest) := by simpa [SafeCode] using hrest
  have hadd := nested_run_queue_add (by simp) _ _ hrestore
  simpa only [List.append_assoc, List.cons_append, List.nil_append, SafeCode] using hadd

theorem nested_wake_expired_sleepers (qs : List Nat) : Nested c ∅ (wake_expired_sleepers qs) :=
  .lock (by simp) (.flatMap fun q _ => .lock (by simp) (nested_run_queue_add (by simp)))

theorem nested_virtio_blk_intr (qs : List Nat) : Nested c ∅ (virtio_blk_intr qs) :=
  .lock (by simp) (nested_wq_wake (by simp) (by simp) (by simp))

theorem safe_scheduler (q : Nat) (flags : List Bool) : SafeCode .scheduler ∅ false flags (scheduler q) := by
  have hheld : (insert .tsleep_lock {.proc q} : Finset SpinLock).erase .tsleep_lock = {.proc q} := by
    ext x
    cases x <;> simp
  simp [scheduler, SafeCode, hheld]

end Code

namespace Hart

variable {h h' : Hart} {held : Finset SpinLock} {p q : Nat}

/-- The operations that take a spinlock with `spin_lock` although interrupts are
on in a system call: those that call `sleep_holding` or `alloc_pid`. -/
def Op.plain : Op → Bool
  | .sleep_holding _ | .bwrite _ _ _ | .brelse _ _ | .proc_fork _ => true
  | .sleep_lock _ _ | .sleep_unlock _ _ | .bread _ _ _ | .bpin | .bunpin | .yield | .proc_exit _ _ | .proc_wait _ _
  | .proc_kill _ _ | .sys_sleep => false

theorem Op.safe {op : Op} {sie : Bool} (hplain : op.plain = true → sie = false) (flags : List Bool) :
    SafeCode (.proc p) ∅ sie flags (op.code p) := by
  have hend : ∀ sie, SafeCode (.proc p) ∅ sie flags [] := fun _ => ⟨rfl, nofun⟩
  have hneutral : ∀ {is}, Code.Neutral (.proc p) is → SafeCode (.proc p) ∅ sie flags is := by
    intro is his
    simpa using his sie flags [] (hend sie)
  have hnested : ∀ {is}, Code.Nested (.proc p) ∅ is → sie = false → SafeCode (.proc p) ∅ sie flags is := by
    rintro is his rfl
    simpa using his flags [] (hend false)
  cases op with
  | sleep_lock n rounds => exact hneutral (Code.neutral_sleep_lock p n rounds)
  | sleep_unlock n first => exact hneutral (Code.neutral_sleep_unlock n first)
  | sleep_holding n => exact hnested (Code.nested_sleep_holding n) (hplain rfl)
  | bread b rounds io => exact hneutral (Code.neutral_bread p b rounds io)
  | bwrite b rounds rounds' => exact hnested (Code.nested_bwrite p b rounds rounds') (hplain rfl)
  | brelse b first => exact hnested (Code.nested_brelse b first) (hplain rfl)
  | bpin => exact hneutral Code.neutral_bcache_section
  | bunpin => exact hneutral Code.neutral_bcache_section
  | yield => exact hneutral (Code.neutral_yield p)
  | proc_exit parent first => exact Code.safe_proc_exit p parent first sie flags
  | proc_wait rounds children => exact hneutral (Code.neutral_proc_wait p rounds children)
  | proc_kill q sleeping => exact hneutral (Code.neutral_proc_kill q sleeping)
  | proc_fork child => exact hnested (Code.nested_proc_fork child) (hplain rfl)
  | sys_sleep => exact hneutral (Code.neutral_sys_sleep p)

theorem safe_trapRet {killed : Option (Nat × Option Nat)} {resched : Bool} {flags : List Bool} {rest : List Instr}
    (hrest : SafeCode (.proc p) ∅ false flags rest) :
    SafeCode (.proc p) ∅ false flags (trapRet p killed resched rest) := by
  cases killed with
  | some r => exact Code.safe_proc_exit p r.1 r.2 false flags
  | none =>
    cases resched with
    | true => exact Code.neutral_yield p false flags rest hrest
    | false => exact hrest

/-- The spinlocks `held` are those of who executes, its code is safe from here
on, and that of the other processes is safe from where they switched. -/
structure Inv (h : Hart) (held : Finset SpinLock) : Prop where
  owner : ∀ l, h.owner l = if l ∈ held then some h.current else none
  current : SafeCode h.current held h.sie (h.flags h.current) (h.code h.current)
  masked : h.sie = true → held = ∅
  others : ∀ p, h.current ≠ .proc p → h.code (.proc p) = [] ∨
    SafeCode (.proc p) {.proc p} false (h.flags (.proc p)) (h.code (.proc p))
  picked : h.current = .scheduler → ∀ q, .swtch q ∈ h.code .scheduler → h.code (.proc q) ≠ []

/-- A step of who executes after which it still executes. -/
theorem Inv.same {held' : Finset SpinLock} (hinv : Inv h held) (hcurrent : h'.current = h.current)
    (howner : ∀ l, h'.owner l = if l ∈ held' then some h.current else none)
    (hsafe : SafeCode h.current held' h'.sie (h'.flags h.current) (h'.code h.current))
    (hmasked : h'.sie = true → held' = ∅)
    (hcode : ∀ c ≠ h.current, h'.code c = h.code c) (hflags : ∀ c ≠ h.current, h'.flags c = h.flags c)
    (hpicked : h.current = .scheduler → ∀ q, .swtch q ∈ h'.code .scheduler → h.code (.proc q) ≠ []) :
    Inv h' held' := by
  refine ⟨?_, ?_, hmasked, fun p hp => ?_, fun hcur q hq => ?_⟩
  · rwa [hcurrent]
  · rwa [hcurrent]
  · rw [hcurrent] at hp
    rw [hcode _ hp.symm, hflags _ hp.symm]
    exact hinv.others p hp
  · rw [hcurrent] at hcur
    rw [hcode _ (by simp [hcur])]
    exact hpicked hcur q hq

/-- The next instruction `i` leaves the CPU to who executes it. -/
theorem Inv.instr {i : Instr} {rest : List Instr} {held' : Finset SpinLock} (hinv : Inv h held)
    (hi : h.code h.current = i :: rest) (hcurrent : h'.current = h.current)
    (hcode : h'.code = Function.update h.code h.current rest)
    (hflags : ∀ c ≠ h.current, h'.flags c = h.flags c)
    (howner : ∀ l, h'.owner l = if l ∈ held' then some h.current else none)
    (hmasked : h'.sie = true → held' = ∅)
    (hsafe : SafeCode h.current held' h'.sie (h'.flags h.current) rest) : Inv h' held' := by
  refine hinv.same hcurrent howner ?_ hmasked (fun c hc => ?_) hflags fun hcur q hq => ?_
  · rwa [hcode, Function.update_self]
  · rw [hcode, Function.update_of_ne hc]
  · rw [hcode, ← hcur, Function.update_self] at hq
    refine hinv.picked hcur q ?_
    rw [← hcur, hi]
    exact List.mem_cons_of_mem _ hq

theorem Inv.spin_lock {l : SpinLock} {rest : List Instr} (hinv : Inv h held)
    (hi : h.code h.current = .spin_lock l :: rest) :
    Inv { h.setCode h.current rest with owner := Function.update h.owner l (some h.current) } (insert l held) := by
  have hsafe := hinv.current
  rw [hi] at hsafe
  obtain ⟨hsie, -, hsafe⟩ := hsafe
  refine hinv.instr hi rfl rfl (fun _ _ => rfl) (fun m => ?_) (fun hon => ?_) hsafe
  · by_cases hml : m = l
    · simp [hml]
    · simp [hml, hinv.owner]
  · exact absurd (hsie.symm.trans hon) (by simp)

theorem Inv.spin_unlock {l : SpinLock} {rest : List Instr} (hinv : Inv h held)
    (hi : h.code h.current = .spin_unlock l :: rest) :
    Inv { h.setCode h.current rest with owner := Function.update h.owner l none } (held.erase l) := by
  have hsafe := hinv.current
  rw [hi] at hsafe
  obtain ⟨hsie, -, hsafe⟩ := hsafe
  refine hinv.instr hi rfl rfl (fun _ _ => rfl) (fun m => ?_) (fun hon => ?_) hsafe
  · by_cases hml : m = l
    · simp [hml]
    · simp [hml, hinv.owner]
  · exact absurd (hsie.symm.trans hon) (by simp)

/-- The lock of the process goes over to the scheduler. -/
theorem Inv.sched {rest : List Instr} (hinv : Inv h held) (hcur : h.current = .proc p)
    (hi : h.code h.current = .sched :: rest) :
    Inv ((({ h.setCode h.current rest with current := .scheduler }).handOver (.proc p) .scheduler).setCode .scheduler
      [.spin_unlock (.proc p)]) {.proc p} := by
  have hsafe := hinv.current
  rw [hi, hcur] at hsafe
  obtain ⟨q, hq, rfl, hsie, hrest⟩ := hsafe
  cases hq
  refine ⟨fun l => ?_, ?_, fun hon => ?_, fun q _ => ?_, fun _ q hq => ?_⟩
  · by_cases hl : l = .proc p
    · subst hl
      simp [handOver, setCode, hinv.owner]
    · simp [handOver, setCode, hinv.owner, hl]
  · simpa [handOver, setCode, SafeCode] using hsie
  · exact absurd (hsie.symm.trans hon) (by simp)
  · by_cases hqp : q = p
    · subst hqp
      simpa [handOver, setCode, hcur] using hrest
    · have hne : h.current ≠ .proc q := by simp [hcur, Ne.symm hqp]
      simpa [handOver, setCode, hcur, hqp] using hinv.others q hne
  · simp [handOver, setCode] at hq

/-- The lock of the process comes over from the scheduler. -/
theorem Inv.swtch {rest : List Instr} (hinv : Inv h held) (hi : h.code h.current = .swtch q :: rest) :
    Inv (({ h.setCode h.current rest with current := .proc q }).handOver (.proc q) (.proc q)) {.proc q} := by
  have hsafe := hinv.current
  rw [hi] at hsafe
  obtain ⟨hcur, rfl, hsie, rfl⟩ := hsafe
  have hq : h.code (.proc q) ≠ [] := hinv.picked hcur q (by simp [← hcur, hi])
  refine ⟨fun l => ?_, ?_, fun hon => ?_, fun r hr => ?_, fun hcur' => ?_⟩
  · by_cases hl : l = .proc q
    · subst hl
      simp [handOver, setCode, hinv.owner]
    · simp [handOver, setCode, hinv.owner, hl]
  · have hsafe := (hinv.others q (by simp [hcur])).resolve_left hq
    simpa [handOver, setCode, hcur, hsie] using hsafe
  · exact absurd (hsie.symm.trans hon) (by simp)
  · simpa [handOver, setCode, hcur] using hinv.others r (by simp [hcur])
  · cases hcur'

theorem Inv.publish {c : Nat} {rest : List Instr} (hinv : Inv h held) (hi : h.code h.current = .publish c :: rest)
    (hc : (h.setCode h.current rest).code (.proc c) = []) (hne : h.current ≠ .proc c) :
    Inv ({ h.setCode h.current rest with flags := Function.update h.flags (.proc c) [] }.setCode (.proc c)
      (Code.user_proc_start c)) held := by
  have hsafe := hinv.current
  rw [hi, SafeCode] at hsafe
  have hpicked : h.current = .scheduler → ∀ q, .swtch q ∈ rest → h.code (.proc q) ≠ [] := by
    intro hcur q hq
    refine hinv.picked hcur q ?_
    rw [← hcur, hi]
    exact List.mem_cons_of_mem _ hq
  refine ⟨hinv.owner, ?_, hinv.masked, fun q hq => ?_, fun hcur q hq => ?_⟩
  · simpa [setCode, hne] using hsafe
  · by_cases hqc : q = c
    · subst hqc
      right
      simp [setCode, Code.user_proc_start, SafeCode]
    · have hq' : Context.proc q ≠ h.current := Ne.symm hq
      simpa [setCode, hqc, hq'] using hinv.others q hq
  · have hcur' : h.current = .scheduler := hcur
    by_cases hqc : q = c
    · subst hqc
      simp [setCode, Code.user_proc_start]
    · have hq' : .swtch q ∈ rest := by simpa [setCode, hcur'] using hq
      simpa [setCode, hqc, hcur'] using hpicked hcur' q hq'

/-- The next instruction. -/
theorem Inv.next (hinv : Inv h held) (hrun : next h = .ok ((), h')) : ∃ held', Inv h' held' := by
  unfold Hart.next at hrun
  rw [get_bind_eq] at hrun
  cases hi : h.code h.current with
  | nil =>
    rw [hi] at hrun
    cases hrun
  | cons i rest =>
    rw [hi] at hrun
    change perform i (h.setCode h.current rest) = .ok ((), h') at hrun
    unfold perform at hrun
    rw [get_bind_eq] at hrun
    have hsafe := hinv.current
    rw [hi] at hsafe
    cases i with
    | spin_lock l =>
      dsimp only at hrun
      split at hrun
      · cases hrun
        exact ⟨_, hinv.spin_lock hi⟩
      · cases hrun
    | spin_unlock l =>
      cases hrun
      exact ⟨_, hinv.spin_unlock hi⟩
    | irq_save =>
      cases hrun
      refine ⟨held, hinv.instr hi rfl rfl (fun c hc => ?_) hinv.owner (fun hon => by cases hon) ?_⟩
      · simp [setCode, hc]
      · simpa [setCode, SafeCode] using hsafe
    | irq_restore =>
      cases hflags : h.flags h.current with
      | nil =>
        rw [hflags] at hsafe
        exact absurd hsafe id
      | cons flag flags =>
        rw [hflags] at hsafe
        obtain ⟨hheld, hsafe⟩ := hsafe
        simp only [setCode, hflags] at hrun
        cases hrun
        refine ⟨held, hinv.instr hi rfl rfl (fun c hc => ?_) hinv.owner (fun hon => ?_) ?_⟩
        · simp [hc]
        · rcases Bool.or_eq_true_iff.mp hon with hon | hon
          · exact hinv.masked hon
          · exact hheld hon
        · simpa using hsafe
    | intr_on =>
      cases hrun
      exact ⟨held, hinv.instr hi rfl rfl (fun _ _ => rfl) hinv.owner (fun _ => hsafe.1) hsafe.2⟩
    | intr_off =>
      cases hrun
      exact ⟨held, hinv.instr hi rfl rfl (fun _ _ => rfl) hinv.owner (fun hon => by cases hon) hsafe⟩
    | sched =>
      obtain ⟨p, hcur, -⟩ := hsafe
      have hcur' : (h.setCode h.current rest).current = .proc p := hcur
      simp only [hcur'] at hrun
      cases hrun
      exact ⟨_, hinv.sched hcur hi⟩
    | swtch q =>
      cases hrun
      exact ⟨_, hinv.swtch hi⟩
    | publish c =>
      dsimp only at hrun
      split at hrun
      · rename_i hc
        cases hrun
        exact ⟨held, hinv.publish hi hc.1 hc.2⟩
      · cases hrun
        exact ⟨held, hinv.instr hi rfl rfl (fun _ _ => rfl) hinv.owner hinv.masked hsafe⟩
    | sret =>
      cases hrun
      exact ⟨held, hinv.instr hi rfl rfl (fun _ _ => rfl) hinv.owner (fun _ => hsafe.1) hsafe.2⟩

/-- An interrupt or the start of an operation: who executes gets other code. -/
theorem Inv.enter (is : List Instr) (sie : Bool) (hinv : Inv h held) (hcur : h.current = .proc p) (hheld : held = ∅)
    (hsafe : SafeCode (.proc p) ∅ sie (h.flags (.proc p)) is) : Inv { h.setCode h.current is with sie } ∅ := by
  subst hheld
  refine hinv.same rfl hinv.owner ?_ (fun _ => rfl) (fun c hc => ?_) (fun _ _ => rfl) fun hsched => ?_
  · rw [hcur]
    simpa [setCode] using hsafe
  · simp [setCode, hc]
  · rw [hcur] at hsched
    cases hsched

/-- `sleep_holding` and `alloc_pid` are called with interrupts off. -/
def Careful (h : Hart) : Act → Prop
  | .call op => op.plain = true → h.sie = false
  | .instr | .pick _ | .intr_on | .intr_off | .timer _ _ | .external _ _ | .user_timer _ _ => True

theorem thisProc_ok (hcur : h.current = .proc p) : thisProc h = .ok (p, h) := by
  unfold thisProc
  rw [get_bind_eq, hcur]
  rfl

theorem exec_trap {a : Act} {f : Nat → Hart → List Instr} (hcur : h.current = .proc p)
    (ha : exec a = thisProc >>= fun p => get >>= fun h => interrupt (f p h)) :
    exec a h = .ok ((), { h.setCode h.current (f p h) with sie := false }) := by
  rw [ha]
  exact wp.bind_eq (wp_of_ok (thisProc_ok hcur) rfl)

/-- What a process does after an interrupt that came with interrupts on. -/
theorem Inv.safe_sret (hinv : Inv h held) (hcur : h.current = .proc p) (hsie : h.sie = true) :
    SafeCode (.proc p) ∅ false (h.flags (.proc p)) (.sret :: h.code (.proc p)) := by
  have hsafe := hinv.current
  rw [hinv.masked hsie, hsie, hcur] at hsafe
  exact ⟨rfl, hsafe⟩

theorem Inv.trap {handler rest : List Instr} {killed : Option (Nat × Option Nat)} {resched : Bool} (hinv : Inv h held)
    (hcur : h.current = .proc p) (hheld : held = ∅) (hhandler : Code.Nested (.proc p) ∅ handler)
    (hrest : SafeCode (.proc p) ∅ false (h.flags (.proc p)) rest) :
    Inv { h.setCode h.current (handler ++ trapRet p killed resched rest) with sie := false } ∅ :=
  hinv.enter _ false hcur hheld (hhandler _ _ (safe_trapRet hrest))

theorem Inv.step {a : Act} (hinv : Inv h held) (hcareful : h.Careful a) (hstep : system.step a h h') :
    ∃ held', Inv h' held' := by
  obtain ⟨ha, hrun⟩ := hstep
  have hproc : h.current ≠ .scheduler → ∃ p, h.current = .proc p := by
    intro hne
    cases hcur : h.current with
    | scheduler => exact absurd hcur hne
    | proc p => exact ⟨p, rfl⟩
  -- between two operations, no spinlock is held
  have hnone : h.code h.current = [] → held = ∅ := by
    intro hnil
    have hsafe := hinv.current
    rw [hnil] at hsafe
    exact hsafe.1
  cases a with
  | instr => exact hinv.next hrun
  | pick q =>
    cases hrun
    obtain ⟨hcur, hnil, hq⟩ := ha
    have hheld := hnone (hcur ▸ hnil)
    subst hheld
    have hsie : h.sie = false := by
      have hsafe := hinv.current
      rw [hcur, hnil] at hsafe
      exact hsafe.2 rfl
    refine ⟨∅, hinv.same rfl hinv.owner ?_ (fun _ => rfl) (fun c hc => ?_) (fun _ _ => rfl) fun _ r hr => ?_⟩
    · rw [hcur]
      simpa [setCode, hsie] using Code.safe_scheduler q (h.flags .scheduler)
    · rw [hcur] at hc
      simp [setCode, hc]
    · obtain rfl : r = q := by simpa [setCode, Code.scheduler] using hr
      exact hq
  | call op =>
    obtain ⟨p, hcur⟩ := hproc ha.1
    obtain ⟨_, _, hthis, hset⟩ := bind_eq_ok_iff.mp hrun
    rw [thisProc_ok hcur] at hthis
    cases hthis
    cases hset
    rw [← hcur]
    exact ⟨∅, hinv.enter _ _ hcur (hnone ha.2) (Op.safe hcareful _)⟩
  | intr_on =>
    obtain ⟨p, hcur⟩ := hproc ha.1
    cases hrun
    refine ⟨∅, ?_⟩
    have henter := hinv.enter (h.code h.current) true hcur (hnone ha.2) (by
      rw [ha.2]
      exact ⟨rfl, nofun⟩)
    simpa [setCode] using henter
  | intr_off =>
    obtain ⟨p, hcur⟩ := hproc ha.1
    cases hrun
    refine ⟨∅, ?_⟩
    have henter := hinv.enter (h.code h.current) false hcur (hnone ha.2) (by
      rw [ha.2]
      exact ⟨rfl, nofun⟩)
    simpa [setCode] using henter
  | timer qs killed =>
    obtain ⟨p, hcur⟩ := hproc ha.1
    rw [exec_trap hcur (by rfl)] at hrun
    cases hrun
    exact ⟨∅, hinv.trap hcur (hinv.masked ha.2) (Code.nested_wake_expired_sleepers qs) (hinv.safe_sret hcur ha.2)⟩
  | external qs killed =>
    obtain ⟨p, hcur⟩ := hproc ha.1
    rw [exec_trap hcur (by rfl)] at hrun
    cases hrun
    exact ⟨∅, hinv.trap hcur (hinv.masked ha.2) (Code.nested_virtio_blk_intr qs) (hinv.safe_sret hcur ha.2)⟩
  | user_timer qs killed =>
    obtain ⟨p, hcur⟩ := hproc ha.1
    rw [exec_trap hcur (by rfl)] at hrun
    cases hrun
    exact ⟨∅, hinv.trap hcur (hnone ha.2.1) (Code.nested_wake_expired_sleepers qs) ⟨rfl, nofun⟩⟩

theorem boot_inv (idle init : Nat) : Inv (boot idle init) ∅ := by
  refine ⟨fun _ => rfl, ?_, fun _ => rfl, fun p _ => ?_, fun _ q hq => ?_⟩
  · simp [boot, setCode, SafeCode]
  · by_cases hinit : p = init
    · subst hinit
      simp [boot, setCode, Code.kthread_start, SafeCode]
    · by_cases hidle : p = idle
      · subst hidle
        simp [boot, setCode, Code.kthread_start, SafeCode, hinit]
      · simp [boot, setCode, hinit, hidle]
  · simp [boot, setCode] at hq

/-- No process has a spinlock while SIE is on, and nobody spins with SIE off on a
spinlock of a process that does not execute. -/
def Disciplined (h : Hart) : Prop :=
  (h.sie = true → ∀ p l, h.owner l ≠ some (.proc p)) ∧
    ∀ l rest, h.code h.current = .spin_lock l :: rest → h.sie = false → ∀ p, h.owner l = some (.proc p) →
      h.current = .proc p

theorem Inv.disciplined (hinv : Inv h held) : h.Disciplined := by
  refine ⟨fun hsie p l => ?_, fun l rest _ _ p hl => ?_⟩
  · rw [hinv.owner, hinv.masked hsie]
    simp
  · rw [hinv.owner] at hl
    split at hl
    · exact Option.some.inj hl
    · cases hl

/-- The system in which `sleep_holding` and `alloc_pid` are called with interrupts
off. -/
def carefulSystem : Lts Hart Act where
  init := system.init
  step a h h' := h.Careful a ∧ system.step a h h'

/-- In every run in which the operations that call `sleep_holding` or `alloc_pid`
start with interrupts off, no process has a spinlock while SIE is on, and nobody
spins on a spinlock of a process that was descheduled. -/
theorem disciplined_of_careful (hh : carefulSystem.Reachable h) : h.Disciplined := by
  obtain ⟨held, hinv⟩ : ∃ held, Inv h held := by
    refine hh.invariant (P := fun h => ∃ held, Inv h held) ?_ ?_
    · rintro h ⟨idle, init, rfl⟩
      exact ⟨∅, boot_inv idle init⟩
    · rintro a h h' ⟨held, hinv⟩ ⟨hcareful, hstep⟩
      exact hinv.step hcareful hstep
  exact hinv.disciplined

instance decidableEnabled (h : Hart) : DecidablePred h.Enabled
  | .instr => inferInstanceAs (Decidable (h.code h.current ≠ []))
  | .pick q => inferInstanceAs (Decidable (h.current = .scheduler ∧ h.code .scheduler = [] ∧ h.code (.proc q) ≠ []))
  | .call _ | .intr_on | .intr_off => inferInstanceAs (Decidable (h.current ≠ .scheduler ∧ h.code h.current = []))
  | .timer _ _ | .external _ _ => inferInstanceAs (Decidable (h.current ≠ .scheduler ∧ h.sie = true))
  | .user_timer _ _ => inferInstanceAs
      (Decidable (h.current ≠ .scheduler ∧ h.code h.current = [] ∧ h.sie = false))

instance decidableCareful (h : Hart) : DecidablePred h.Careful
  | .call op => inferInstanceAs (Decidable (op.plain = true → h.sie = false))
  | .instr | .pick _ | .intr_on | .intr_off | .timer _ _ | .external _ _ | .user_timer _ _ => isTrue trivial

/-- The scheduler takes the new process `p`, which starts. -/
def dispatch (p : Nat) : List Act := .pick p :: List.replicate 8 .instr

/-- A session of process 1 with buffer 0, up to the `brelse`. -/
def session : List Act := dispatch 1 ++ .call (.bread 0 0 none) :: List.replicate 8 .instr

/-- Process 1 is in the `sleep_holding` of a `brelse`, with interrupts off. -/
theorem disciplined_of_careful_brelse : ∃ h, carefulSystem.Reachable h ∧
    h.owner (.sleeplock 0) = some (.proc 1) ∧ h.Disciplined := by
  obtain ⟨h, hrun, hlock⟩ := exists_of_any
    (o := runAll (fun h a => Careful h a ∧ Enabled h a) exec
      (session ++ [.intr_off, .call (.brelse 0 none), .instr]) (boot 1 2))
    (P := fun h => h.owner (.sleeplock 0) = some (.proc 1)) (by decide +kernel)
  have hstart : carefulSystem.Reachable (boot 1 2) := .init ⟨1, 2, rfl⟩
  have hh : carefulSystem.Reachable h := hstart.runAll (fun _ _ _ ha hok => ⟨ha.1, ha.2, hok⟩) hrun
  exact ⟨h, hh, hlock, disciplined_of_careful hh⟩

/-- Process 1 is in the `sleep_holding` of a `brelse` when a timer interrupt comes.
Process 2 then wants the buffer. -/
def holdingPreempted : List Act := session ++ [.call (.brelse 0 none), .instr, .timer [] none] ++
  List.replicate 8 .instr ++ dispatch 2 ++ .call (.bread 0 1 none) :: List.replicate 5 .instr

/-- Process 1 has a spinlock while SIE is on, and in the end process 2 spins for
it with SIE off. -/
theorem spinlock_hang : (∃ h, system.Reachable h ∧ h.sie = true ∧ h.current = .proc 1 ∧
      h.owner (.sleeplock 0) = some (.proc 1) ∧ ¬ h.Disciplined) ∧
    ∃ h, system.Reachable h ∧ h.sie = false ∧ h.current = .proc 2 ∧
      (∃ rest, h.code h.current = .spin_lock (.sleeplock 0) :: rest) ∧
      h.owner (.sleeplock 0) = some (.proc 1) ∧ ¬ h.Disciplined := by
  have hstart : system.Reachable (boot 1 2) := .init ⟨1, 2, rfl⟩
  refine ⟨?_, ?_⟩
  · obtain ⟨h, hrun, hsie, hcur, hlock⟩ := exists_of_any
      (o := runAll Enabled exec (session ++ [.call (.brelse 0 none), .instr]) (boot 1 2))
      (P := fun h => h.sie = true ∧ h.current = .proc 1 ∧ h.owner (.sleeplock 0) = some (.proc 1)) (by decide +kernel)
    refine ⟨h, hstart.runAll (fun _ _ _ ha hok => ⟨ha, hok⟩) hrun, hsie, hcur, hlock, fun hdisc => ?_⟩
    exact hdisc.1 hsie 1 _ hlock
  · obtain ⟨h, hrun, hsie, hcur, hcode, hlock⟩ := exists_of_any
      (o := runAll Enabled exec holdingPreempted (boot 1 2))
      (P := fun h => h.sie = false ∧ h.current = .proc 2 ∧
        (h.code h.current).head? = some (.spin_lock (.sleeplock 0)) ∧
        h.owner (.sleeplock 0) = some (.proc 1)) (by decide +kernel)
    obtain ⟨rest, hcode⟩ := List.head?_eq_some_iff.mp hcode
    refine ⟨h, hstart.runAll (fun _ _ _ ha hok => ⟨ha, hok⟩) hrun, hsie, hcur, ⟨rest, hcode⟩, hlock, fun hdisc => ?_⟩
    have hself := hdisc.2 _ _ hcode hsie 1 hlock
    rw [hcur] at hself
    cases hself

end Hart

end bobchouos
