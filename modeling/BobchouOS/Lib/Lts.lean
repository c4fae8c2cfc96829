import Mathlib

namespace lib

/-- A labelled transition system: the initial states and what each action may do. -/
structure Lts (σ ι : Type) where
  init : σ → Prop
  step : ι → σ → σ → Prop

namespace Lts

variable {σ ι : Type} {M : Lts σ ι} {s s' : σ}

/-- The states after any finite sequence of steps from an initial state. -/
inductive Reachable (M : Lts σ ι) : σ → Prop
  | init {s : σ} : M.init s → Reachable M s
  | step {s s' : σ} {a : ι} : Reachable M s → M.step a s s' → Reachable M s'

/-- A property that holds at the start and survives every step holds in every
reachable state. -/
theorem Reachable.invariant {P : σ → Prop} (h : M.Reachable s) (hinit : ∀ s, M.init s → P s)
    (hstep : ∀ a s s', P s → M.step a s s' → P s') : P s := by
  induction h with
  | init hs => exact hinit _ hs
  | step _ hs ih => exact hstep _ _ _ ih hs

section Trace

variable {τ ε : Type} {M : Lts σ (Option ε)} {N : Lts τ (Option ε)}

/-- The sequences of visible labels along the runs of a system, in which the
other steps are labelled `none`. -/
inductive Trace (M : Lts σ (Option ε)) : List ε → σ → Prop
  | init {s : σ} : M.init s → Trace M [] s
  | silent {es : List ε} {s s' : σ} : Trace M es s → M.step none s s' → Trace M es s'
  | visible {es : List ε} {e : ε} {s s' : σ} : Trace M es s → M.step (some e) s s' → Trace M (es ++ [e]) s'

/-- Forward simulation: if `N` can follow every visible step of `M`, and its
state still fits after a silent one, then it has every trace of `M`. -/
theorem Trace.simulate {R : σ → τ → Prop} {es : List ε} (h : M.Trace es s)
    (hinit : ∀ s, M.init s → ∃ t, N.init t ∧ R s t)
    (hsilent : ∀ s s' t, R s t → M.step none s s' → R s' t)
    (hvisible : ∀ e s s' t, R s t → M.step (some e) s s' → ∃ t', N.step (some e) t t' ∧ R s' t') :
    ∃ t, N.Trace es t ∧ R s t := by
  induction h with
  | init hs =>
    obtain ⟨t, ht, hR⟩ := hinit _ hs
    exact ⟨t, .init ht, hR⟩
  | silent _ hs ih =>
    obtain ⟨t, ht, hR⟩ := ih
    exact ⟨t, ht, hsilent _ _ t hR hs⟩
  | visible _ hs ih =>
    obtain ⟨t, ht, hR⟩ := ih
    obtain ⟨t', hstep, hR'⟩ := hvisible _ _ _ t hR hs
    exact ⟨t', ht.visible hstep, hR'⟩

end Trace

end Lts

end lib
