import BobchouOS.Kalloc.Runs
import BobchouOS.Kalloc.Steps
import BobchouOS.Lib.Run

open lib

namespace bobchouos

/-- A process in the allocator: the order of the block that it asks for, if it
does, and the accesses that it still has to make. -/
structure Call where
  wants : Option Nat
  rest : Micro Kmem Nat

/-- The allocator with the processes that are in it. Interrupts are on in system
calls, and a timer interrupt passes the CPU on to another process. -/
structure Preempt where
  kmem : Kmem
  live : List (Nat × Nat) := []
  current : Nat := 0
  calls : List (Nat × Call) := []

namespace Preempt

inductive Act where
  | kalloc
  | kalloc_pages (order : Nat)
  | kfree (pa : Nat)
  | kfree_pages (pa order : Nat)
  | access
  | timer (p : Nat)

/-- The call of the current process is now `c`. -/
def setCall (c : Call) (x : Preempt) : Preempt :=
  { x with calls := (x.current, c) :: x.calls.filter (·.1 ≠ x.current) }

def enter (wants : Option Nat) (rest : Micro Kmem Nat) : Prog Preempt Unit := modify (setCall ⟨wants, rest⟩)

/-- The blocks that the users hold after a call has returned `b`. -/
def finish (wants : Option Nat) (b : Nat) (live : List (Nat × Nat)) : List (Nat × Nat) :=
  match wants with
  | some order => if b ≠ 0 then (b, order) :: live else live
  | none => live

/-- The current process makes its next access, or returns. -/
def access : Prog Preempt Unit := do
  let x ← get
  match x.calls.lookup x.current with
  | some ⟨wants, .access write next⟩ => set (setCall ⟨wants, next x.kmem⟩ { x with kmem := write x.kmem })
  | some ⟨wants, .pure b⟩ =>
    set { x with live := finish wants b x.live, calls := x.calls.filter (·.1 ≠ x.current) }
  | some ⟨_, .halt h⟩ => fun _ => .error h
  | none => Prog.undefined

/-- A user gives a block up when it passes it to `kfree`. -/
def exec : Act → Prog Preempt Unit
  | .kalloc => enter (some 0) steps.kalloc
  | .kalloc_pages order => enter (some order) (steps.kalloc_pages order)
  | .kfree pa => do
    modify fun x => { x with live := x.live.erase (pa, 0) }
    enter none (do steps.kfree pa; pure 0)
  | .kfree_pages pa order => do
    modify fun x => { x with live := x.live.erase (pa, order) }
    enter none (do steps.kfree_pages pa order; pure 0)
  | .access => access
  | .timer p => modify fun x => { x with current := p }

/-- Users are in one call at a time, ask for orders there are, and return what
they hold. -/
def Enabled (x : Preempt) : Act → Prop
  | .kalloc => x.calls.lookup x.current = none
  | .kalloc_pages order => x.calls.lookup x.current = none ∧ order ≤ MAX_ORDER
  | .kfree pa => x.calls.lookup x.current = none ∧ (pa, 0) ∈ x.live
  | .kfree_pages pa order => x.calls.lookup x.current = none ∧ (pa, order) ∈ x.live
  | .access => x.calls.lookup x.current ≠ none
  | .timer _ => True

def system (kernel_end : Nat) : Lts Preempt Act where
  init x := ∃ s₀ s, kalloc_init kernel_end s₀ = .ok ((), s) ∧ x = { kmem := s }
  step a x x' := x.Enabled a ∧ exec a x = .ok ((), x')

/-- No block is in the hands of two users, and the free blocks and those of the
users are a partition when nobody is in the allocator. -/
def Safe (x : Preempt) : Prop :=
  (x.live.Pairwise fun b c => ∀ a, Heap.InBlock a b → ¬ Heap.InBlock a c) ∧
    (x.calls = [] → Heap.Partition ⟨x.kmem, x.live⟩)

/-- Nobody enters the allocator while another process is in it. -/
def Exclusive (x : Preempt) : Act → Prop
  | .kalloc | .kalloc_pages _ | .kfree _ | .kfree_pages _ _ => x.calls = []
  | .access | .timer _ => True

/-- The system in which the calls of the allocator exclude each other. -/
def exclusiveSystem (kernel_end : Nat) : Lts Preempt Act where
  init := (system kernel_end).init
  step a x x' := x.Exclusive a ∧ (system kernel_end).step a x x'

section Invariant

variable {kernel_end : Nat} {x x' : Preempt}

/-- Between calls. -/
def Quiet (kernel_end : Nat) (s : Kmem) (live : List (Nat × Nat)) : Prop :=
  ∃ free bs, Heap.Inv kernel_end ⟨s, live⟩ free bs

theorem Quiet.disjoint {s : Kmem} {live : List (Nat × Nat)} (hquiet : Quiet kernel_end s live) :
    live.Pairwise fun b c => ∀ a, Heap.InBlock a b → ¬ Heap.InBlock a c := by
  obtain ⟨free, bs, hinv⟩ := hquiet
  exact (List.pairwise_append.mp (Heap.partition_of_inv hinv).disjoint).1

/-- The one process in the allocator, if there is one, will return from its call,
and the state is then as it is between calls. -/
inductive Serial (kernel_end : Nat) (x : Preempt) : Prop
  | quiet : x.calls = [] → Quiet kernel_end x.kmem x.live → Serial kernel_end x
  | inside {p : Nat} {c : Call} : x.calls = [(p, c)] →
      (x.live.Pairwise fun b c => ∀ a, Heap.InBlock a b → ¬ Heap.InBlock a c) →
      wp c.rest.run (fun b s => Quiet kernel_end s (finish c.wants b x.live)) x.kmem → Serial kernel_end x

theorem Serial.safe (hx : Serial kernel_end x) : x.Safe := by
  cases hx with
  | quiet _ hquiet =>
    refine ⟨hquiet.disjoint, fun _ => ?_⟩
    obtain ⟨free, bs, hinv⟩ := hquiet
    exact Heap.partition_of_inv hinv
  | inside hcalls hdisjoint => exact ⟨hdisjoint, fun hnil => by simp [hcalls] at hnil⟩

theorem alloc_quiet {s : Kmem} {live : List (Nat × Nat)} {order : Nat} (hquiet : Quiet kernel_end s live)
    (horder : order ≤ MAX_ORDER) :
    wp (buddy_alloc order) (fun b s' => Quiet kernel_end s' (finish (some order) b live)) s := by
  obtain ⟨free, bs, hinv⟩ := hquiet
  have hspec := Heap.take_spec hinv horder
  simp only [Heap.take, Heap.onKmem, wp_bind, wp_onField] at hspec
  refine wp_mono hspec fun b s' hb => ?_
  by_cases hnull : b ≠ 0
  · simp only [if_pos hnull, wp_bind, wp_modify, wp_pure] at hb
    rcases hb with ⟨hzero, -⟩ | ⟨-, -, free', i, -, hinv', -⟩
    · exact absurd hzero hnull
    · simp only [finish, if_pos hnull]
      exact ⟨free', _, hinv'⟩
  · simp only [if_neg hnull, wp_pure] at hb
    rcases hb with ⟨-, heq, -⟩ | ⟨hne, -⟩
    · obtain rfl : s' = s := congrArg Heap.kmem heq
      simp only [finish, if_neg hnull]
      exact ⟨free, bs, hinv⟩
    · exact absurd hne hnull

theorem free_quiet {s : Kmem} {live : List (Nat × Nat)} {pa order : Nat} (hquiet : Quiet kernel_end s live)
    (hmem : (pa, order) ∈ live) :
    wp (buddy_free pa order) (fun _ s' => Quiet kernel_end s' (live.erase (pa, order))) s := by
  obtain ⟨free, bs, hinv⟩ := hquiet
  obtain ⟨b, hb, rfl, rfl⟩ := Heap.mem_live hinv hmem
  have hspec := Heap.giveBack_spec hinv hb
  simp only [Heap.giveBack, Heap.onKmem, wp_bind, wp_onField, wp_modify, wp_pure] at hspec
  refine wp_mono hspec ?_
  rintro _ s' ⟨free', hinv'⟩
  exact ⟨free', _, hinv'⟩

/-- A process enters an allocator that nobody is in. -/
theorem Serial.enter {wants : Option Nat} {rest : Micro Kmem Nat} (hcalls : x.calls = [])
    (hdisjoint : x.live.Pairwise fun b c => ∀ a, Heap.InBlock a b → ¬ Heap.InBlock a c)
    (hrest : wp rest.run (fun b s => Quiet kernel_end s (finish wants b x.live)) x.kmem) :
    Serial kernel_end (setCall ⟨wants, rest⟩ x) := by
  refine .inside (p := x.current) (c := ⟨wants, rest⟩) ?_ hdisjoint hrest
  simp [setCall, hcalls]

theorem Serial.enter_free {pa order : Nat} (hx : Serial kernel_end x) (hcalls : x.calls = [])
    (hmem : (pa, order) ∈ x.live) :
    Serial kernel_end (setCall ⟨none, do steps.buddy_free pa order; pure 0⟩
      { x with live := x.live.erase (pa, order) }) := by
  have hquiet : Quiet kernel_end x.kmem x.live := by
    cases hx with
    | quiet _ hquiet => exact hquiet
    | inside hone => simp [hcalls] at hone
  refine .enter hcalls (hquiet.disjoint.sublist List.erase_sublist) ?_
  rw [Micro.run_bind, steps.run_buddy_free, wp_bind]
  exact wp_mono (free_quiet hquiet hmem) fun _ s hs => ⟨0, s, rfl, hs⟩

theorem Serial.enter_alloc {order : Nat} (hx : Serial kernel_end x) (hcalls : x.calls = [])
    (horder : order ≤ MAX_ORDER) : Serial kernel_end (setCall ⟨some order, steps.buddy_alloc order⟩ x) := by
  cases hx with
  | quiet _ hquiet =>
    refine .enter hcalls hquiet.disjoint ?_
    rw [steps.run_buddy_alloc]
    exact alloc_quiet hquiet horder
  | inside hone => simp [hcalls] at hone

/-- The process in the allocator makes an access or returns. -/
theorem Serial.access (hx : Serial kernel_end x) (hcurrent : x.calls.lookup x.current ≠ none)
    (hrun : access x = .ok ((), x')) : Serial kernel_end x' := by
  cases hx with
  | quiet hcalls => simp [hcalls] at hcurrent
  | @inside p c hcalls hdisjoint hrest =>
    obtain rfl : x.current = p := by
      by_contra hne
      have hbeq : (x.current == p) = false := by simpa using hne
      simp [hcalls, List.lookup, hbeq] at hcurrent
    have hlookup : x.calls.lookup x.current = some c := by simp [hcalls]
    unfold Preempt.access at hrun
    rw [get_bind_eq, hlookup] at hrun
    obtain ⟨wants, rest⟩ := c
    cases rest with
    | pure b =>
      cases hrun
      refine .quiet (by simp [hcalls]) ?_
      obtain ⟨_, s, heq, hquiet⟩ := hrest
      cases heq
      exact hquiet
    | halt h => cases hrun
    | access write next =>
      cases hrun
      exact .inside (p := x.current) (c := ⟨wants, next x.kmem⟩) (by simp [setCall, hcalls]) hdisjoint hrest

theorem Serial.step {a : Act} (hx : Serial kernel_end x) (hstep : (exclusiveSystem kernel_end).step a x x') :
    Serial kernel_end x' := by
  obtain ⟨hexcl, ha, hrun⟩ := hstep
  cases a with
  | kalloc =>
    cases hrun
    exact hx.enter_alloc hexcl (Nat.zero_le _)
  | kalloc_pages order =>
    cases hrun
    exact hx.enter_alloc hexcl ha.2
  | kfree pa =>
    cases hrun
    exact hx.enter_free hexcl ha.2
  | kfree_pages pa order =>
    cases hrun
    exact hx.enter_free hexcl ha.2
  | access => exact hx.access ha hrun
  | timer p =>
    cases hrun
    cases hx with
    | quiet hcalls hquiet => exact .quiet hcalls hquiet
    | inside hcalls hdisjoint hrest => exact .inside hcalls hdisjoint hrest

end Invariant

/-- In every run in which nobody enters the allocator while another process is in
it, whatever the timer interrupts, no block has two users, and the partition of
the blocks is there whenever nobody is in the allocator. -/
theorem safe_of_exclusive {kernel_end : Nat} {x : Preempt} (hlo : KERN_BASE ≤ freeStart kernel_end)
    (hhi : freeStart kernel_end ≤ PHYS_STOP) (hx : (exclusiveSystem kernel_end).Reachable x) : x.Safe := by
  have hserial : Serial kernel_end x := by
    refine hx.invariant (P := Serial kernel_end) ?_ fun a x x' hx hstep => hx.step hstep
    rintro x ⟨s₀, s, hinit, rfl⟩
    obtain ⟨free, hinv⟩ := Heap.inv_of_init hlo hhi hinit
    exact .quiet rfl ⟨free, [], hinv⟩
  exact hserial.safe

instance decidableEnabled (x : Preempt) : DecidablePred x.Enabled
  | .kalloc => inferInstanceAs (Decidable (x.calls.lookup x.current = none))
  | .kalloc_pages order => inferInstanceAs (Decidable (x.calls.lookup x.current = none ∧ order ≤ MAX_ORDER))
  | .kfree pa => inferInstanceAs (Decidable (x.calls.lookup x.current = none ∧ (pa, 0) ∈ x.live))
  | .kfree_pages pa order => inferInstanceAs (Decidable (x.calls.lookup x.current = none ∧ (pa, order) ∈ x.live))
  | .access => inferInstanceAs (Decidable (x.calls.lookup x.current ≠ none))
  | .timer _ => isTrue trivial

instance decidableExclusive (x : Preempt) : DecidablePred x.Exclusive
  | .kalloc | .kalloc_pages _ | .kfree _ | .kfree_pages _ _ => decidable_of_iff _ List.isEmpty_iff
  | .access | .timer _ => isTrue trivial

section runs

variable (enabled : Preempt → Act → Prop) [∀ x, DecidablePred (enabled x)]

/-- The steps `as` after the `kalloc_init` of a kernel image of 256 KiB. -/
def bootRun (as : List Act) : Option Preempt :=
  match kalloc_init 0x80040000 ⟨fun _ => 0, fun _ => {}, fun _ => {}, 0, fun _ => {}⟩ with
  | .ok ((), s) => runAll enabled exec as { kmem := s }
  | .error _ => none

variable {enabled}

theorem reachable_bootRun {as : List Act} {x : Preempt} {M : Lts Preempt Act}
    (hinit : ∀ x, (system 0x80040000).init x → M.init x)
    (hstep : ∀ a x x', enabled x a → exec a x = .ok ((), x') → M.step a x x') (hrun : bootRun enabled as = some x) :
    M.Reachable x := by
  unfold bootRun at hrun
  cases hboot : kalloc_init 0x80040000 ⟨fun _ => 0, fun _ => {}, fun _ => {}, 0, fun _ => {}⟩ with
  | ok r =>
    rw [hboot] at hrun
    have hstart : M.Reachable { kmem := r.2 } := .init (hinit _ ⟨_, r.2, hboot, rfl⟩)
    exact hstart.runAll hstep hrun
  | error halt =>
    rw [hboot] at hrun
    cases hrun

end runs

/-- Process 0 is interrupted after every access of its `kalloc`. -/
theorem safe_of_exclusive_interrupted : ∃ x, (exclusiveSystem 0x80040000).Reachable x ∧
    x.live = [(0x80140000, 0)] ∧ x.Safe := by
  have hstart := freeStart_eq (k := 0x80040000) (by decide)
  have hlo : KERN_BASE ≤ freeStart 0x80040000 := by rw [hstart]; decide
  have hhi : freeStart 0x80040000 ≤ PHYS_STOP := by rw [hstart]; decide
  obtain ⟨x, hrun, hlive⟩ := exists_of_any (o := bootRun (fun x a => x.Exclusive a ∧ x.Enabled a)
    (.kalloc :: (List.replicate 51 [.access, .timer 1, .timer 0]).flatten))
    (P := fun x => x.live = [(0x80140000, 0)]) (by decide +kernel)
  have hx : (exclusiveSystem 0x80040000).Reachable x :=
    reachable_bootRun (fun _ hx => hx) (fun _ _ _ ha hok => ⟨ha.1, ha.2, hok⟩) hrun
  exact ⟨x, hx, hlive, safe_of_exclusive hlo hhi hx⟩

/-- Process 0 has read the list head that it will take its block from when the
timer interrupt comes, and process 1 takes the same block. -/
def sameBlock : List Act := .kalloc :: List.replicate 7 .access ++
  .timer 1 :: .kalloc :: List.replicate 51 .access ++ .timer 0 :: List.replicate 44 .access

theorem kalloc_twice : ∃ x, (system 0x80040000).Reachable x ∧ x.calls = [] ∧
    x.live = [(0x80140000, 0), (0x80140000, 0)] ∧ ¬ x.Safe := by
  obtain ⟨x, hrun, hcalls, hlive⟩ := exists_of_any (o := bootRun Enabled sameBlock)
    (P := fun x => x.calls.isEmpty ∧ x.live = [(0x80140000, 0), (0x80140000, 0)]) (by decide +kernel)
  refine ⟨x, reachable_bootRun (fun _ hx => hx) (fun _ _ _ ha hok => ⟨ha, hok⟩) hrun, by simpa using hcalls, hlive, ?_⟩
  intro hsafe
  have hdisjoint := hsafe.1
  rw [hlive, List.pairwise_pair] at hdisjoint
  exact hdisjoint 0x80140000 (by decide) (by decide)

end Preempt

end bobchouos
