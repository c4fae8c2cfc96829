import BobchouOS.Vm.Accounting

open lib

namespace bobchouos

namespace Vm

variable {k : Symbols} {binaries : List Binary} {s s' : Kmem} {own own' : Nat → Option Owner} {procs rest : List Proc}
  {p q : Proc} {pa v : Nat} {o : Owner}

theorem World.slotInUse_iff {x : Nat} (h : World k s own procs) :
    SlotInUse s x ↔ x ∈ areasOf procs ∨ x ∈ procs.map Proc.addr :=
  h.memory.objects.slabs.slotInUse_iff.trans List.mem_append

section Dead

variable (h : World k s own (p :: rest)) (h' : World k s' own' rest)
  (heff : Effect (OfDead p) (rootsOf rest) s s' own own')

include h heff

theorem dead_leaves (hq : q ∈ rest) (hq0 : q.pagetable ≠ 0) : s'.leafPte q.pagetable = s.leafPte q.pagetable ∧
    s'.view q.pagetable = s.view q.pagetable := by
  have hne := (h.head_ne hq).2 hq0
  have htable : ∀ path, ¬ OfDead p (.table q.pagetable path) := by
    rintro path (ho | heq | heq | heq)
    · exact ofAreas_not_table hne path ho
    all_goals cases heq
  exact ⟨h.memory.spaces.leafPte_frame heff.touches htable (root_mem (List.mem_cons_of_mem _ hq) hq0),
    heff.views _ (root_mem hq hq0) htable⟩

include h'

end Dead

namespace Machine

variable {m m₀ m' : Machine} {i : Nat} {op : Op} {res : Outcome}

/-- A step that gives no page to the kernel for good: neither its own `kalloc` nor an
`exec` that fails. -/
def Quiet (op : Op) (res : Outcome) : Prop :=
  op ≠ .kalloc ∧ ∀ i path argv r, op = .exec i path argv → res = .ret r → 0 ≤ r

inductive QuietRun (k : Symbols) (binaries : List Binary) (m₀ : Machine) : Machine → Prop
  | refl : QuietRun k binaries m₀ m₀
  | step {m m' : Machine} {op : Op} {res : Outcome} : QuietRun k binaries m₀ m → op.Legal m →
      op.run k binaries m = .ok (res, m') → Quiet op res → QuietRun k binaries m₀ m'

theorem QuietRun.reachable (h : QuietRun k binaries m₀ m) (hreach : (system k binaries).Reachable m₀) :
    (system k binaries).Reachable m := by
  induction h with
  | refl => exact hreach
  | step _ hlegal hrun _ ih => exact ih.step ⟨hlegal, _, hrun⟩

end Machine

end Vm

end bobchouos
