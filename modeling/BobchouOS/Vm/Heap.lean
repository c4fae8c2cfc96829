import BobchouOS.Vm.Layouts
import BobchouOS.Vm.Progress

open lib

namespace bobchouos

namespace Vm

variable {k : Symbols} {binaries : List Binary} {s s' : Kmem} {own own' : Nat → Option Owner} {p q : Proc}
  {rest : List Proc} {n : BitVec 64} {start old end_ : Nat} {heap : Vma}

/-- The pages of `[lo, hi)` were taken from `p`. Each of them lost one reference, and
everything else is as it was. -/
structure Freed (s s' : Kmem) (p : Proc) (rest : List Proc) (lo hi : Nat) : Prop where
  gone : ∀ v, lo ≤ v * PG_SIZE → v * PG_SIZE < hi → ¬ Has (s'.leafPte p.pagetable v) PTE_V
  kept : ∀ v < 2 ^ 26, ¬ (lo ≤ v * PG_SIZE ∧ v * PG_SIZE < hi) → s'.leafPte p.pagetable v = s.leafPte p.pagetable v
  view : ∀ y, ¬ (lo ≤ y ∧ y < hi) → s'.view p.pagetable y = s.view p.pagetable y
  others : ∀ q ∈ rest, q.pagetable ≠ 0 →
    s'.leafPte q.pagetable = s.leafPte q.pagetable ∧ s'.view q.pagetable = s.view q.pagetable
  refs : ∀ q ∈ p :: rest, q.pagetable ≠ 0 → ∀ v pa w, s.entry q.pagetable v = some (pa, w) →
    (s'.pa_to_page pa).refcount + (if (s.entry p.pagetable v).map Prod.fst = some pa ∧
      lo ≤ v * PG_SIZE ∧ v * PG_SIZE < hi then 1 else 0) = (s.pa_to_page pa).refcount

namespace Machine

variable {m : Machine} {i : Nat}

end Machine

end Vm

end bobchouos
