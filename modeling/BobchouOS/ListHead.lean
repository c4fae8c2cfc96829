import BobchouOS.Lib.Ring
import BobchouOS.Lib.Wp

open lib

namespace bobchouos

variable {ν : Type} [DecidableEq ν]

def storeNext (a v : Option ν) : Prog (Links ν) Unit :=
  match a with
  | some a => modify (Links.setNext a v)
  | none => Prog.undefined

def storePrev (a v : Option ν) : Prog (Links ν) Unit :=
  match a with
  | some a => modify (Links.setPrev a v)
  | none => Prog.undefined

/-- `INIT_LIST_HEAD`. -/
def INIT_LIST_HEAD (head : ν) : Prog (Links ν) Unit := do
  modify (Links.setNext head (some head))
  modify (Links.setPrev head (some head))

/-- `__list_add`. -/
def _list_add (new : ν) (prev next : Option ν) : Prog (Links ν) Unit := do
  storeNext prev (some new)
  modify (Links.setNext new next)
  storePrev next (some new)
  modify (Links.setPrev new prev)

/-- `list_add`. -/
def list_add (new head : ν) : Prog (Links ν) Unit := do
  let l ← get
  _list_add new (some head) (l.next head)

/-- `list_add_tail`. -/
def list_add_tail (new head : ν) : Prog (Links ν) Unit := do
  let l ← get
  _list_add new (l.prev head) (some head)

/-- `__list_del`. -/
def _list_del (prev next : Option ν) : Prog (Links ν) Unit := do
  storeNext prev next
  storePrev next prev

/-- `list_del`. -/
def list_del (entry : ν) : Prog (Links ν) Unit := do
  let l ← get
  _list_del (l.prev entry) (l.next entry)
  modify (Links.setPrev entry none)
  modify (Links.setNext entry none)

/-- `list_del_init`. -/
def list_del_init (entry : ν) : Prog (Links ν) Unit := do
  let l ← get
  _list_del (l.prev entry) (l.next entry)
  INIT_LIST_HEAD entry

/-- `list_empty`. -/
def list_empty (head : ν) : Prog (Links ν) Bool := do
  let l ← get
  return l.next head == some head

/-- The statements of `proc_exec` that move the nodes behind its local head to
`p->vma_list`. -/
def proc_exec_splice (vma_list new_vma_list : ν) : Prog (Links ν) Unit := do
  INIT_LIST_HEAD vma_list
  if !(← list_empty new_vma_list) then
    modify fun l => l.setNext vma_list (l.next new_vma_list)
    modify fun l => l.setPrev vma_list (l.prev new_vma_list)
    let l ← get
    storePrev (l.next new_vma_list) (some vma_list)
    let l ← get
    storeNext (l.prev new_vma_list) (some vma_list)

section loops

variable {σ α : Type}

/-- The loop of `list_for_each_entry`. The body returns a value to leave the loop. -/
def list_for_each (links : σ → Links ν) (head : ν) (body : ν → Prog σ (Option α)) :
    Nat → Option ν → Prog σ (Option α)
  | _, none => Prog.undefined
  | 0, some _ => Prog.diverge
  | fuel + 1, some pos =>
    if pos = head then pure none
    else do
      match ← body pos with
      | some r => pure (some r)
      | none => do
        let s ← get
        list_for_each links head body fuel ((links s).next pos)

/-- The loop of `list_for_each_entry_safe`, which reads the node behind the
current one before the body runs. -/
def list_for_each_safe (links : σ → Links ν) (head : ν) (body : ν → Prog σ (Option α)) :
    Nat → Option ν → Option ν → Prog σ (Option α)
  | _, none, _ => Prog.undefined
  | 0, some _, _ => Prog.diverge
  | fuel + 1, some pos, tmp =>
    if pos = head then pure none
    else do
      match ← body pos with
      | some r => pure (some r)
      | none => do
        let s ← get
        match tmp with
        | none => Prog.undefined
        | some next => list_for_each_safe links head body fuel (some next) ((links s).next next)

end loops

section specs

variable {l : Links ν} {lists : ν → Option (List ν)} {h e : ν} {xs ys : List ν}

theorem INIT_LIST_HEAD_spec (hf : l.Family lists) (hfree : Links.Free lists e) :
    wp (INIT_LIST_HEAD e) (fun _ l' => l'.Family (Function.update lists e (some []))) l := by
  simp only [INIT_LIST_HEAD, wp_bind, wp_modify]
  exact hf.loop hfree

theorem _list_add_spec (xs ys : List ν) (hf : l.Family lists) (hh : lists h = some (xs ++ ys)) (hfree : Links.Free lists e)
    (hne : e ≠ h) : wp (_list_add e (some (xs.getLastD h)) (some (ys.headD h))) (fun _ l' =>
      l'.Family (Function.update (Function.update lists e none) h (some (xs ++ e :: ys)))) l := by
  simp only [_list_add, storeNext, storePrev, wp_bind, wp_modify]
  exact hf.insert hh hfree hne

/-- `list_add` puts the node at the front. -/
theorem list_add_spec (hf : l.Family lists) (hh : lists h = some xs) (hfree : Links.Free lists e) (hne : e ≠ h) :
    wp (list_add e h) (fun _ l' =>
      l'.Family (Function.update (Function.update lists e none) h (some (e :: xs)))) l := by
  have hadj := Links.Ring.adj [] _ (hf.ring hh)
  simp only [list_add, wp_bind, wp_get]
  rw [show l.next h = _ from hadj.1]
  exact _list_add_spec [] xs hf hh hfree hne

/-- `list_add_tail` puts the node before another one of the list, or, given the
head, at the end. -/
theorem list_add_tail_spec (xs ys : List ν) (hf : l.Family lists) (hh : lists h = some (xs ++ ys))
    (hfree : Links.Free lists e) (hne : e ≠ h) : wp (list_add_tail e (ys.headD h)) (fun _ l' =>
      l'.Family (Function.update (Function.update lists e none) h (some (xs ++ e :: ys)))) l := by
  have hadj := Links.Ring.adj xs ys (hf.ring hh)
  simp only [list_add_tail, wp_bind, wp_get]
  rw [hadj.2]
  exact _list_add_spec xs ys hf hh hfree hne

theorem _list_del_spec (hf : l.Family lists) (hh : lists h = some (xs ++ e :: ys)) :
    wp (_list_del (l.prev e) (l.next e)) (fun _ l' =>
      l'.Family (Function.update lists h (some (xs ++ ys)))) l := by
  have hring := hf.ring hh
  have hprev : l.prev e = some (xs.getLastD h) := (Links.Ring.adj xs _ hring).2
  have hnext : l.next e = some (ys.headD h) := by
    have hadj := Links.Ring.adj (xs ++ [e]) ys (by simpa using hring)
    simpa using hadj.1
  simp only [hprev, hnext, _list_del, storeNext, storePrev, wp_bind, wp_modify]
  exact hf.remove hh

theorem list_del_spec (hf : l.Family lists) (hh : lists h = some (xs ++ e :: ys)) :
    wp (list_del e) (fun _ l' => l'.Family (Function.update lists h (some (xs ++ ys)))) l := by
  simp only [list_del, wp_bind, wp_get, wp_modify]
  refine wp_mono (_list_del_spec hf hh) fun _ l' hf' => ?_
  refine hf'.congr fun g zs hg a ha => ?_
  have hae : a ≠ e := fun heq => hf.not_mem_of_remove hh hg (heq ▸ ha)
  simp [Links.setPrev, Links.setNext, hae]

theorem list_del_init_spec (hf : l.Family lists) (hh : lists h = some (xs ++ e :: ys)) :
    wp (list_del_init e) (fun _ l' =>
      l'.Family (Function.update (Function.update lists h (some (xs ++ ys))) e (some []))) l := by
  simp only [list_del_init, wp_bind, wp_get]
  refine wp_mono (_list_del_spec hf hh) fun _ l' hf' => ?_
  refine INIT_LIST_HEAD_spec hf' fun _ _ hg hmem => ?_
  exact absurd hmem (hf.not_mem_of_remove hh hg)

theorem list_empty_spec (hf : l.Family lists) (hh : lists h = some xs) :
    wp (list_empty h) (fun r l' => r = xs.isEmpty ∧ l' = l) l := by
  have hring := hf.ring hh
  simp only [list_empty, wp_bind, wp_get, wp_pure, and_true]
  rw [show l.next h = some (xs.headD h) from (Links.Ring.adj [] _ hring).1]
  cases xs with
  | nil => simp
  | cons x xs =>
    have hne : x ≠ h := fun heq => (List.nodup_cons.mp hring.nodup).1 (by simp [heq])
    simp [hne]

/-- The splice moves the represented sequence as a whole. -/
theorem proc_exec_splice_spec {g : ν} (hf : l.Family lists) (hg : lists g = some xs) (hfree : Links.Free lists h)
    (hne : g ≠ h) : wp (proc_exec_splice h g) (fun _ l' =>
      l'.Family (Function.update (Function.update lists g none) h (some xs))) l := by
  simp only [proc_exec_splice, wp_bind]
  refine wp_mono (INIT_LIST_HEAD_spec hf hfree) fun _ l₁ hf₁ => ?_
  have hg₁ : Function.update lists h (some []) g = some xs := by rwa [Function.update_of_ne hne]
  refine wp_mono (list_empty_spec hf₁ hg₁) ?_
  rintro r l₂ ⟨hr, hl⟩
  subst hr hl
  cases xs with
  | nil =>
    simp only [List.isEmpty_nil, Bool.not_true, Bool.false_eq_true, if_false, wp_pure]
    refine hf₁.mono fun k zs hk => ?_
    by_cases hkh : k = h
    · rwa [hkh, Function.update_self] at hk ⊢
    · rw [Function.update_of_ne hkh] at hk ⊢
      by_cases hkg : k = g
      · rw [hkg, Function.update_self] at hk
        cases hk
      · rwa [Function.update_of_ne hkg] at hk
  | cons x xs =>
    have hring := hf₁.ring hg₁
    have hnext : l₂.next g = some x := (Links.Ring.adj [] _ hring).1
    have hprev : l₂.prev g = some (xs.getLastD x) := by
      have hadj := (Links.Ring.adj (x :: xs) [] (by simpa using hring)).2
      rwa [List.getLastD_cons] at hadj
    have hx : x ≠ h := fun heq => hne
      (hf₁.disjoint hg₁ (Function.update_self ..) (a := h) (by simp [heq]) List.mem_cons_self)
    have hgx : g ≠ x := fun heq => (List.nodup_cons.mp hring.nodup).1 (by simp [heq])
    have hmove := hf₁.move (Function.update_self ..) hg₁
    rw [Function.update_comm hne.symm, Function.update_idem] at hmove
    simp only [List.isEmpty_cons, Bool.not_false, if_true, wp_bind, wp_modify, wp_get, Links.setNext, Links.setPrev,
      Function.update_of_ne hne, Function.update_of_ne hgx, hnext, hprev, storePrev, storeNext]
    rw [Function.update_comm hx.symm]
    exact hmove

end specs

section loop_specs

variable {σ α : Type} {links : σ → Links ν} {body : ν → Prog σ (Option α)} {Q : Option α → σ → Prop} {h : ν}
  {xs : List ν} {fuel : Nat} {s : σ}

/-- A search through a list. The body skips nodes without changing the state. -/
theorem list_for_each_spec {P : ν → Prop} (hring : (links s).Ring h xs) (hfuel : xs.length < fuel)
    (hbody : ∀ pre x post, xs = pre ++ x :: post → (∀ a ∈ pre, P a) → wp (body x) (fun r s' =>
      match r with
      | some b => Q (some b) s'
      | none => s' = s ∧ P x) s)
    (hend : (∀ a ∈ xs, P a) → Q none s) :
    wp (list_for_each links h body fuel ((links s).next h)) Q s := by
  -- induction on the nodes still to visit
  have hrest : ∀ (ys pre : List ν) (fuel : Nat), xs = pre ++ ys → (∀ a ∈ pre, P a) → ys.length < fuel →
      wp (list_for_each links h body fuel (some (ys.headD h))) Q s := by
    intro ys
    induction ys with
    | nil =>
      intro pre fuel hxs hskip hfuel
      cases fuel with
      | zero => cases hfuel
      | succ fuel =>
        simp only [list_for_each, List.headD_nil, if_true, wp_pure]
        exact hend (by simpa [hxs] using hskip)
    | cons y ys ih =>
      intro pre fuel hxs hskip hfuel
      cases fuel with
      | zero => cases hfuel
      | succ fuel =>
        have hne : y ≠ h := fun heq => (List.nodup_cons.mp hring.nodup).1 (by simp [hxs, heq])
        have hnext : (links s).next y = some (ys.headD h) := by
          have hadj := Links.Ring.adj (pre ++ [y]) ys (by simpa [hxs] using hring)
          simpa using hadj.1
        simp only [list_for_each, List.headD_cons, hne, if_false, wp_bind]
        refine wp_mono (hbody pre y ys hxs hskip) fun r s' hr => ?_
        cases r with
        | some b => simpa using hr
        | none =>
          obtain ⟨rfl, hy⟩ := hr
          simp only [wp_bind, wp_get, hnext]
          refine ih (pre ++ [y]) fuel (by simp [hxs]) ?_ (Nat.lt_of_succ_lt_succ hfuel)
          simpa [or_imp, forall_and] using ⟨hskip, hy⟩
  rw [show (links s).next h = some (xs.headD h) from (Links.Ring.adj [] _ hring).1]
  exact hrest xs [] fuel rfl (by simp) hfuel

/-- A loop whose body takes the current node off the list. It runs once for each
node that was on the list, in order. -/
theorem list_for_each_safe_spec {I : List ν → σ → Prop} (hI : I xs s) (hfuel : xs.length < fuel)
    (hring : ∀ xs s, I xs s → (links s).Ring h xs)
    (hbody : ∀ x xs s, I (x :: xs) s → wp (body x) (fun r s' =>
      match r with
      | some b => Q (some b) s'
      | none => I xs s') s)
    (hend : ∀ s, I [] s → Q none s) :
    wp (list_for_each_safe links h body fuel ((links s).next h) (((links s).next h).bind (links s).next)) Q s := by
  rw [show (links s).next h = some (xs.headD h) from (Links.Ring.adj [] _ (hring xs s hI)).1]
  induction xs generalizing s fuel with
  | nil =>
    cases fuel with
    | zero => cases hfuel
    | succ fuel =>
      simp only [list_for_each_safe, List.headD_nil, if_true, wp_pure]
      exact hend s hI
  | cons x xs ih =>
    cases fuel with
    | zero => cases hfuel
    | succ fuel =>
      have hx := hring _ _ hI
      have hne : x ≠ h := fun heq => (List.nodup_cons.mp hx.nodup).1 (by simp [heq])
      have hnext : (links s).next x = some (xs.headD h) := (Links.Ring.adj [x] xs hx).1
      simp only [list_for_each_safe, List.headD_cons, hne, if_false, wp_bind, Option.bind_some, hnext]
      refine wp_mono (hbody x xs s hI) fun r s' hr => ?_
      cases r with
      | some b => simpa using hr
      | none =>
        simp only [wp_bind, wp_get]
        exact ih hr (Nat.lt_of_succ_lt_succ hfuel)

/-- When the body takes the current node off the list, the loop is the body on
each node that was on the list, once and in order, until the body leaves it. -/
theorem list_for_each_safe_eq (hring : (links s).Ring h xs) (hfuel : xs.length < fuel)
    (hbody : ∀ x ys s s', (links s).Ring h (x :: ys) → body x s = .ok (none, s') → (links s').Ring h ys) :
    list_for_each_safe links h body fuel ((links s).next h) (((links s).next h).bind (links s).next) s =
      xs.findSomeM? body s := by
  rw [show (links s).next h = some (xs.headD h) from (Links.Ring.adj [] _ hring).1]
  induction xs generalizing s fuel with
  | nil =>
    cases fuel with
    | zero => cases hfuel
    | succ fuel =>
      rw [List.headD_nil, list_for_each_safe, if_pos rfl, List.findSomeM?_nil]
  | cons x xs ih =>
    cases fuel with
    | zero => cases hfuel
    | succ fuel =>
      have hne : x ≠ h := fun heq => (List.nodup_cons.mp hring.nodup).1 (by simp [heq])
      have hnext : (links s).next x = some (xs.headD h) := (Links.Ring.adj [x] xs hring).1
      rw [List.headD_cons, list_for_each_safe, if_neg hne, Option.bind_some, hnext, List.findSomeM?_cons]
      cases hrun : body x s with
      | error e => rw [bind_eq_error hrun, bind_eq_error hrun]
      | ok r =>
        obtain ⟨r, s'⟩ := r
        cases r with
        | some b => simp only [Bind.bind, StateT.bind, Except.bind, hrun]
        | none =>
          have hleft := ih (hbody x xs s s' hring hrun) (Nat.lt_of_succ_lt_succ hfuel)
          simp only [Bind.bind, StateT.bind, Except.bind, hrun]
          exact hleft

end loop_specs

/-- The list operations act on the sequences of any family of disjoint lists as
cons, insert-before, remove and move, and a loop that deletes as it goes visits
every node once. -/
theorem list_head_refines (l : Links ν) (lists : ν → Option (List ν)) (hf : l.Family lists) :
    (∀ e, Links.Free lists e → wp (INIT_LIST_HEAD e) (fun _ l' =>
      l'.Family (Function.update lists e (some []))) l) ∧
    (∀ h xs e, lists h = some xs → Links.Free lists e → e ≠ h → wp (list_add e h) (fun _ l' =>
      l'.Family (Function.update (Function.update lists e none) h (some (e :: xs)))) l) ∧
    (∀ h xs ys e, lists h = some (xs ++ ys) → Links.Free lists e → e ≠ h →
      wp (list_add_tail e (ys.headD h)) (fun _ l' =>
        l'.Family (Function.update (Function.update lists e none) h (some (xs ++ e :: ys)))) l) ∧
    (∀ h xs ys e, lists h = some (xs ++ e :: ys) → wp (list_del e) (fun _ l' =>
      l'.Family (Function.update lists h (some (xs ++ ys)))) l) ∧
    (∀ h xs ys e, lists h = some (xs ++ e :: ys) → wp (list_del_init e) (fun _ l' =>
      l'.Family (Function.update (Function.update lists h (some (xs ++ ys))) e (some []))) l) ∧
    (∀ h xs g, lists g = some xs → Links.Free lists h → g ≠ h → wp (proc_exec_splice h g) (fun _ l' =>
      l'.Family (Function.update (Function.update lists g none) h (some xs))) l) ∧
    ∀ (σ α : Type) (links : σ → Links ν) (body : ν → Prog σ (Option α)) (h : ν) (xs : List ν) (s : σ) (fuel : Nat),
      links s = l → lists h = some xs → xs.length < fuel →
      (∀ x ys s s', (links s).Ring h (x :: ys) → body x s = .ok (none, s') → (links s').Ring h ys) →
      list_for_each_safe links h body fuel ((links s).next h) (((links s).next h).bind (links s).next) s =
        xs.findSomeM? body s := by
  refine ⟨fun e => INIT_LIST_HEAD_spec hf, fun h xs e => list_add_spec hf, fun h xs ys e => list_add_tail_spec xs ys hf,
    fun h xs ys e => list_del_spec hf, fun h xs ys e => list_del_init_spec hf, fun h xs g => proc_exec_splice_spec hf, ?_⟩
  rintro σ α links body h xs s fuel rfl hh hfuel hbody
  exact list_for_each_safe_eq (hf.ring hh) hfuel hbody

/-- The list of a head `0` with two nodes and a local head `3` with one. Node `5` is on no list. -/
theorem list_head_refines_two :
    let l : Links Nat := ⟨fun a => [some 1, some 2, some 0, some 4, some 3][a]?.getD none,
      fun a => [some 2, some 0, some 1, some 4, some 3][a]?.getD none⟩
    let lists : Nat → Option (List Nat) := fun a => [some [1, 2], none, none, some [4]][a]?.getD none
    l.Family lists ∧
    wp (list_add_tail 5 2) (fun _ l' => l'.Family (Function.update (Function.update lists 5 none) 0 (some [1, 5, 2]))) l ∧
    wp (proc_exec_splice 5 3) (fun _ l' => l'.Family (Function.update (Function.update lists 3 none) 5 (some [4]))) l := by
  intro l lists
  have hcases : ∀ g zs, lists g = some zs → g = 0 ∧ zs = [1, 2] ∨ g = 3 ∧ zs = [4] := by
    intro g zs hg
    match g with
    | 0 => exact .inl ⟨rfl, (Option.some.inj hg).symm⟩
    | 1 | 2 => cases hg
    | 3 => exact .inr ⟨rfl, (Option.some.inj hg).symm⟩
    | _ + 4 => simp [lists] at hg
  have hf : l.Family lists := by
    refine ⟨?_, ?_⟩
    · intro g zs hg
      rcases hcases g zs hg with ⟨rfl, rfl⟩ | ⟨rfl, rfl⟩
      · decide
      · decide
    · intro g zs k ws a hg hk hag hak
      rcases hcases g zs hg with ⟨rfl, rfl⟩ | ⟨rfl, rfl⟩ <;> rcases hcases k ws hk with ⟨rfl, rfl⟩ | ⟨rfl, rfl⟩ <;>
        simp at hag hak ⊢ <;> omega
  have hfree : Links.Free lists 5 := by
    intro g zs hg hmem
    rcases hcases g zs hg with ⟨rfl, rfl⟩ | ⟨rfl, rfl⟩ <;> simp at hmem
  obtain ⟨-, -, htail, -, -, hsplice, -⟩ := list_head_refines l lists hf
  exact ⟨hf, htail 0 [1] [2] 5 rfl hfree (by decide), hsplice 5 [4] 3 rfl hfree (by decide)⟩

end bobchouos
