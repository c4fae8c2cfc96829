import Mathlib

namespace lib

variable {ρ ν π α : Type} [DecidableEq ρ] [DecidableEq ν] [DecidableEq π]

/-- A table of two indices, changed at one place. -/
def setAt (f : ρ → ν → α) (r : ρ) (v : ν) (x : α) : ρ → ν → α :=
  fun r' v' => if r' = r ∧ v' = v then x else f r' v'

@[simp] theorem setAt_self (f : ρ → ν → α) (r : ρ) (v : ν) (x : α) : setAt f r v x r v = x := by
  simp [setAt]

theorem setAt_of_ne (f : ρ → ν → α) {r r' : ρ} {v v' : ν} (x : α) (h : r' ≠ r ∨ v' ≠ v) :
    setAt f r v x r' v' = f r' v' := by
  unfold setAt
  rw [if_neg (by tauto)]

/-- The number of holders that refer to page `p` at place `v`. -/
def refs (holders : List ρ) (entry : ρ → ν → Option (π × Bool)) (v : ν) (p : π) : Nat :=
  holders.countP fun r => (entry r v).map Prod.fst = some p

/-- Pages shared copy-on-write by holders of references. An entry is a page with
the right to write it. Each page in use has one place where all its holders have
it, its count is the number of its holders, and whoever may write it is alone. -/
structure Sharing (holders : List ρ) (entry : ρ → ν → Option (π × Bool)) (home : π → Option ν)
    (count : π → Nat) : Prop where
  nodup : holders.Nodup
  home_of : ∀ r ∈ holders, ∀ v p w, entry r v = some (p, w) → home p = some v
  count_eq : ∀ p v, home p = some v → count p = refs holders entry v p
  sole : ∀ r ∈ holders, ∀ v p, entry r v = some (p, true) → count p = 1

section count

variable {l : List ρ} {P Q : ρ → Bool} {r : ρ}

/-- Of the elements of a list without duplicates at most one is counted. -/
theorem countP_of_unique (hnodup : l.Nodup) (hr : r ∈ l) (hP : ∀ x ∈ l, P x = true → x = r) :
    l.countP P = if P r = true then 1 else 0 := by
  have hcongr : l.countP P = l.countP fun x => decide (x = r) && P r := by
    refine List.countP_congr fun x hx => ?_
    by_cases hxr : x = r
    · simp [hxr]
    · exact iff_of_false (fun hPx => hxr (hP x hx hPx)) (by simp [hxr])
  rw [hcongr]
  split
  case isTrue hPr =>
    simp only [hPr, Bool.and_true]
    exact List.count_eq_one_of_mem hnodup hr
  case isFalse hPr => simp [hPr]

theorem countP_flip (hnodup : l.Nodup) (hr : r ∈ l) (hP : P r = false) (hQ : Q r = true)
    (hoff : ∀ x ∈ l, x ≠ r → Q x = P x) : l.countP Q = l.countP P + 1 := by
  rw [(List.perm_cons_erase hr).countP_eq, (List.perm_cons_erase hr).countP_eq P,
    List.countP_cons_of_pos hQ, List.countP_cons_of_neg (by simp [hP])]
  congr 1
  apply List.countP_congr
  intro x hx
  rw [hoff x (List.mem_of_mem_erase hx) (hnodup.mem_erase_iff.mp hx).1]

theorem two_le_countP {r' : ρ} (hr : r ∈ l) (hr' : r' ∈ l) (hne : r' ≠ r) (hP : P r = true)
    (hP' : P r' = true) : 2 ≤ l.countP P := by
  rw [(List.perm_cons_erase hr).countP_eq, List.countP_cons_of_pos hP]
  have hpos : 0 < (l.erase r).countP P :=
    List.countP_pos_iff.mpr ⟨r', (List.mem_erase_of_ne hne).mpr hr', hP'⟩
  omega

end count

namespace Sharing

variable {holders holders' : List ρ} {entry entry' : ρ → ν → Option (π × Bool)} {home home' : π → Option ν}
  {count count' : π → Nat} {r r' : ρ} {v : ν} {p : π} {w w' : Bool}

omit [DecidableEq ρ] [DecidableEq ν] in
theorem congr (h : Sharing holders entry home count)
    (hentry : ∀ r ∈ holders, ∀ v, entry' r v = entry r v) (hhome : ∀ p, home' p = home p)
    (hcount : ∀ p, home p ≠ none → count' p = count p) : Sharing holders entry' home' count' := by
  refine ⟨h.nodup, fun r hr v p w he => ?_, fun p v hp => ?_, fun r hr v p he => ?_⟩
  · rw [hhome]
    exact h.home_of r hr v p w (by rw [← hentry r hr v, he])
  · rw [hhome] at hp
    rw [hcount p (by simp [hp]), h.count_eq p v hp]
    apply List.countP_congr
    intro r hr
    rw [hentry r hr]
  · rw [hentry r hr] at he
    rw [hcount p (by simp [h.home_of r hr v p true he]), h.sole r hr v p he]

omit [DecidableEq ρ] [DecidableEq ν] in
theorem perm (h : Sharing holders entry home count) (hperm : holders.Perm holders') :
    Sharing holders' entry home count := by
  refine ⟨hperm.nodup_iff.mp h.nodup, fun r hr => h.home_of r (hperm.mem_iff.mpr hr), fun p v hp => ?_,
    fun r hr => h.sole r (hperm.mem_iff.mpr hr)⟩
  rw [h.count_eq p v hp]
  exact hperm.countP_eq _

omit [DecidableEq ρ] [DecidableEq ν] in
theorem count_le (h : Sharing holders entry home count) (hp : home p = some v) :
    count p ≤ holders.length := by
  rw [h.count_eq p v hp]
  exact List.countP_le_length

omit [DecidableEq ν] in
/-- Two holders of a page make its count at least two. -/
theorem two_le (h : Sharing holders entry home count) (hr : r ∈ holders) (hr' : r' ∈ holders) (hne : r' ≠ r)
    (he : entry r v = some (p, w)) (he' : entry r' v = some (p, w')) : 2 ≤ count p := by
  rw [h.count_eq p v (h.home_of r hr v p w he)]
  exact two_le_countP hr hr' hne (by simp [he]) (by simp [he'])

omit [DecidableEq ν] in
/-- A page of count one has a single entry. -/
theorem unique (h : Sharing holders entry home count) (hr : r ∈ holders) (hr' : r' ∈ holders) {v' : ν}
    (he : entry r v = some (p, w)) (he' : entry r' v' = some (p, w')) (hone : count p = 1) :
    r' = r ∧ v' = v := by
  have hv := h.home_of r hr v p w he
  rw [h.home_of r' hr' v' p w' he'] at hv
  cases hv
  refine ⟨?_, rfl⟩
  by_contra hne
  have htwo := h.two_le hr hr' hne he he'
  omega

/-- An entry at `(r, v)` for a page changes the references of that page only. -/
theorem refs_setAt_of_ne {x : Option (π × Bool)} {q : π} {v' : ν}
    (hold : v' = v → (entry r v).map Prod.fst ≠ some q) (hnew : v' = v → x.map Prod.fst ≠ some q) :
    refs holders (setAt entry r v x) v' q = refs holders entry v' q := by
  apply List.countP_congr
  intro r' hr'
  by_cases hat : r' = r ∧ v' = v
  · obtain ⟨rfl, rfl⟩ := hat
    simp [hold rfl, hnew rfl]
  · rw [setAt_of_ne entry x (by tauto)]

/-- A page with no references yet is entered. -/
theorem map (h : Sharing holders entry home count) (hr : r ∈ holders) (hnone : entry r v = none)
    (hfresh : home p = none) :
    Sharing holders (setAt entry r v (some (p, w))) (Function.update home p (some v))
      (Function.update count p 1) := by
  have hnot : ∀ r' ∈ holders, ∀ v' q w', entry r' v' = some (q, w') → q ≠ p := by
    rintro r' hr' v' q w' he rfl
    rw [h.home_of r' hr' v' q w' he] at hfresh
    cases hfresh
  refine ⟨h.nodup, fun r' hr' v' q w' he => ?_, fun q v' hq => ?_, fun r' hr' v' q he => ?_⟩
  · by_cases hat : r' = r ∧ v' = v
    · obtain ⟨rfl, rfl⟩ := hat
      rw [setAt_self] at he
      cases he
      exact Function.update_self ..
    · rw [setAt_of_ne entry _ (by tauto)] at he
      rw [Function.update_of_ne (hnot r' hr' v' q w' he)]
      exact h.home_of r' hr' v' q w' he
  · by_cases hqp : q = p
    · subst hqp
      rw [Function.update_self] at hq ⊢
      cases hq
      have hzero : refs holders entry v q = 0 := by
        apply List.countP_eq_zero.mpr
        intro r' hr' he
        simp only [decide_eq_true_eq, Option.map_eq_some_iff, Prod.exists] at he
        obtain ⟨q', w', he, rfl⟩ := he
        exact hnot r' hr' v q' w' he rfl
      rw [← Nat.zero_add 1, ← hzero]
      symm
      apply countP_flip h.nodup hr (by simp [hnone]) (by simp)
      intro x _ hx
      rw [setAt_of_ne entry _ (.inl hx)]
    · rw [Function.update_of_ne hqp] at hq ⊢
      rw [h.count_eq q v' hq, refs_setAt_of_ne (by simp [hnone]) (by simpa using fun _ => Ne.symm hqp)]
  · by_cases hat : r' = r ∧ v' = v
    · obtain ⟨rfl, rfl⟩ := hat
      rw [setAt_self] at he
      cases he
      exact Function.update_self ..
    · rw [setAt_of_ne entry _ (by tauto)] at he
      rw [Function.update_of_ne (hnot r' hr' v' q true he)]
      exact h.sole r' hr' v' q he

/-- A page that another holder has without the right to write it is shared. -/
theorem share (h : Sharing holders entry home count) (hr : r ∈ holders) (hnone : entry r v = none)
    (hr' : r' ∈ holders) (he : entry r' v = some (p, false)) :
    Sharing holders (setAt entry r v (some (p, false))) home (Function.update count p (count p + 1)) := by
  have hhome := h.home_of r' hr' v p false he
  have hnot : ∀ x ∈ holders, ∀ v', entry x v' ≠ some (p, true) := by
    intro x hx v' hxe
    obtain ⟨rfl, rfl⟩ := h.unique hx hr' hxe he (h.sole x hx v' p hxe)
    rw [he] at hxe
    cases hxe
  refine ⟨h.nodup, fun x hx v' q w' hxe => ?_, fun q v' hq => ?_, fun x hx v' q hxe => ?_⟩
  · by_cases hat : x = r ∧ v' = v
    · obtain ⟨rfl, rfl⟩ := hat
      rw [setAt_self] at hxe
      cases hxe
      exact hhome
    · rw [setAt_of_ne entry _ (by tauto)] at hxe
      exact h.home_of x hx v' q w' hxe
  · by_cases hqp : q = p
    · subst hqp
      rw [hhome] at hq
      cases hq
      rw [Function.update_self, h.count_eq q v hhome]
      symm
      apply countP_flip h.nodup hr (by simp [hnone]) (by simp)
      intro x _ hx
      rw [setAt_of_ne entry _ (.inl hx)]
    · rw [Function.update_of_ne hqp, h.count_eq q v' hq,
        refs_setAt_of_ne (by simp [hnone]) (by simpa using fun _ => Ne.symm hqp)]
  · by_cases hat : x = r ∧ v' = v
    · obtain ⟨rfl, rfl⟩ := hat
      rw [setAt_self] at hxe
      cases hxe
    · rw [setAt_of_ne entry _ (by tauto)] at hxe
      by_cases hqp : q = p
      · subst hqp
        exact absurd hxe (hnot x hx v')
      · rw [Function.update_of_ne hqp]
        exact h.sole x hx v' q hxe

/-- The right to write is given up, or taken by the only holder. -/
theorem setWrite (h : Sharing holders entry home count) (hr : r ∈ holders) (he : entry r v = some (p, w))
    (hw : w' = true → count p = 1) : Sharing holders (setAt entry r v (some (p, w'))) home count := by
  refine ⟨h.nodup, fun x hx v' q w'' hxe => ?_, fun q v' hq => ?_, fun x hx v' q hxe => ?_⟩
  · by_cases hat : x = r ∧ v' = v
    · obtain ⟨rfl, rfl⟩ := hat
      rw [setAt_self] at hxe
      cases hxe
      exact h.home_of x hx v' p w he
    · rw [setAt_of_ne entry _ (by tauto)] at hxe
      exact h.home_of x hx v' q w'' hxe
  · rw [h.count_eq q v' hq]
    apply List.countP_congr
    intro x _
    by_cases hat : x = r ∧ v' = v
    · obtain ⟨rfl, rfl⟩ := hat
      simp [he]
    · rw [setAt_of_ne entry _ (by tauto)]
  · by_cases hat : x = r ∧ v' = v
    · obtain ⟨rfl, rfl⟩ := hat
      rw [setAt_self] at hxe
      cases hxe
      exact hw rfl
    · rw [setAt_of_ne entry _ (by tauto)] at hxe
      exact h.sole x hx v' q hxe

/-- An entry is cleared. The last holder of a page gives it up. -/
theorem drop (h : Sharing holders entry home count) (hr : r ∈ holders) (he : entry r v = some (p, w))
    (hhome : ∀ q, q ≠ p → home' q = home q) (hlast : count p = 1 → home' p = none)
    (hmore : count p ≠ 1 → home' p = home p ∧ count' p = count p - 1)
    (hcount : ∀ q, q ≠ p → home q ≠ none → count' q = count q) :
    Sharing holders (setAt entry r v none) home' count' := by
  have hne : ∀ x ∈ holders, ∀ v' q w', setAt entry r v none x v' = some (q, w') →
      entry x v' = some (q, w') ∧ (count p = 1 → q ≠ p) := by
    intro x hx v' q w' hxe
    by_cases hat : x = r ∧ v' = v
    · obtain ⟨rfl, rfl⟩ := hat
      rw [setAt_self] at hxe
      cases hxe
    · rw [setAt_of_ne entry _ (by tauto)] at hxe
      refine ⟨hxe, ?_⟩
      rintro hone rfl
      exact hat (h.unique hr hx he hxe hone)
  refine ⟨h.nodup, fun x hx v' q w' hxe => ?_, fun q v' hq => ?_, fun x hx v' q hxe => ?_⟩
  · obtain ⟨hxe, hqp⟩ := hne x hx v' q w' hxe
    have hold := h.home_of x hx v' q w' hxe
    by_cases hq : q = p
    · subst hq
      rw [(hmore fun hone => hqp hone rfl).1, hold]
    · rw [hhome q hq, hold]
  · by_cases hqp : q = p
    · subst hqp
      have hone : count q ≠ 1 := by
        intro hone
        rw [hlast hone] at hq
        cases hq
      obtain ⟨hsame, hless⟩ := hmore hone
      have hold := h.home_of r hr v q w he
      rw [hsame, hold] at hq
      cases hq
      have hflip : refs holders entry v q = refs holders (setAt entry r v none) v q + 1 := by
        apply countP_flip h.nodup hr (by simp) (by simp [he])
        intro x _ hx
        rw [setAt_of_ne entry _ (.inl hx)]
      rw [hless, h.count_eq q v hold, hflip, Nat.add_sub_cancel]
    · rw [hhome q hqp] at hq
      rw [hcount q hqp (by simp [hq]), h.count_eq q v' hq,
        refs_setAt_of_ne (by simpa [he] using fun _ => Ne.symm hqp) (by simp)]
  · obtain ⟨hxe, hqp⟩ := hne x hx v' q true hxe
    have hone := h.sole x hx v' q hxe
    by_cases hq : q = p
    · subst hq
      exact absurd rfl (hqp hone)
    · rw [hcount q hq (by simp [h.home_of x hx v' q true hxe]), hone]

omit [DecidableEq ρ] [DecidableEq ν] in
/-- A holder without entries joins. -/
theorem join (h : Sharing holders entry home count) (hr : r ∉ holders) (hnone : ∀ v, entry r v = none) :
    Sharing (r :: holders) entry home count := by
  refine ⟨List.nodup_cons.mpr ⟨hr, h.nodup⟩, fun x hx v' q w' hxe => ?_, fun q v' hq => ?_,
    fun x hx v' q hxe => ?_⟩
  · rcases List.mem_cons.mp hx with rfl | hx
    · rw [hnone] at hxe
      cases hxe
    · exact h.home_of x hx v' q w' hxe
  · rw [h.count_eq q v' hq, refs, refs, List.countP_cons_of_neg (by simp [hnone])]
  · rcases List.mem_cons.mp hx with rfl | hx
    · rw [hnone] at hxe
      cases hxe
    · exact h.sole x hx v' q hxe

omit [DecidableEq ν] in
/-- A holder that shares none of its pages leaves with them. -/
theorem leave (h : Sharing holders entry home count) (hr : r ∈ holders)
    (halone : ∀ v p w, entry r v = some (p, w) → count p = 1 ∧ home' p = none)
    (hhome : ∀ p, (∀ v w, entry r v ≠ some (p, w)) → home' p = home p) :
    Sharing (holders.erase r) entry home' count := by
  have hmem : ∀ x ∈ holders.erase r, x ≠ r ∧ x ∈ holders := fun x hx => h.nodup.mem_erase_iff.mp hx
  have hother : ∀ x ∈ holders.erase r, ∀ v' q w', entry x v' = some (q, w') →
      ∀ v w, entry r v ≠ some (q, w) := by
    intro x hx v' q w' hxe v w he
    exact (hmem x hx).1 (h.unique hr (hmem x hx).2 he hxe (halone v q w he).1).1
  refine ⟨h.nodup.erase r, fun x hx v' q w' hxe => ?_, fun q v' hq => ?_, fun x hx v' q hxe => ?_⟩
  · rw [hhome q (hother x hx v' q w' hxe)]
    exact h.home_of x (hmem x hx).2 v' q w' hxe
  · have hnot : ∀ v w, entry r v ≠ some (q, w) := by
      intro v w he
      rw [(halone v q w he).2] at hq
      cases hq
    rw [hhome q hnot] at hq
    rw [h.count_eq q v' hq, refs, (List.perm_cons_erase hr).countP_eq, List.countP_cons_of_neg, refs]
    simp only [decide_eq_true_eq, Option.map_eq_some_iff, Prod.exists, not_exists, not_and]
    rintro q' w' he rfl
    exact hnot v' w' he
  · exact h.sole x (hmem x hx).2 v' q hxe

end Sharing

end lib
