import BobchouOS.Lib.Lts
import BobchouOS.Lib.Wp

namespace lib

variable {σ ι : Type}

/-- The steps `as` from `s` on, if each of them may be taken where it is and
returns. -/
def runAll (enabled : σ → ι → Prop) [∀ s, DecidablePred (enabled s)] (exec : ι → Prog σ Unit) :
    List ι → σ → Option σ
  | [], s => some s
  | a :: as, s =>
    if enabled s a then
      match exec a s with
      | .ok ((), s') => runAll enabled exec as s'
      | .error _ => none
    else none

variable {enabled : σ → ι → Prop} [∀ s, DecidablePred (enabled s)] {exec : ι → Prog σ Unit} {M : Lts σ ι}
  {as : List ι} {s s' : σ}

/-- A run of a system that is found by running it. -/
theorem Lts.Reachable.runAll (hs : M.Reachable s)
    (hstep : ∀ a s s', enabled s a → exec a s = .ok ((), s') → M.step a s s')
    (hrun : lib.runAll enabled exec as s = some s') : M.Reachable s' := by
  induction as generalizing s with
  | nil =>
    cases hrun
    exact hs
  | cons a as ih =>
    rw [lib.runAll] at hrun
    split at hrun
    · rename_i ha
      cases hexec : exec a s with
      | ok r =>
        rw [hexec] at hrun
        exact ih (hs.step (hstep a s r.2 ha hexec)) hrun
      | error halt =>
        rw [hexec] at hrun
        cases hrun
    · cases hrun

/-- The end of a run, if it is as expected. -/
theorem exists_of_any {o : Option σ} {P : σ → Prop} [DecidablePred P]
    (hany : o.any (fun s => decide (P s)) = true) : ∃ s, o = some s ∧ P s := by
  cases o with
  | none => cases hany
  | some s => exact ⟨s, rfl, by simpa using hany⟩

end lib
