import BobchouOS.Vm.Tables

open lib

namespace bobchouos

/-- A page table after `walk` added tables to it: no leaf has changed, and only
tables of this root were taken. -/
structure Grown (s s' : Kmem) (own own' : Nat → Option Owner) (root : Nat) : Prop where
  pages : Pages s' own'
  table : PageTable s' own' root
  leaf : s'.leafPte root = s.leafPte root
  touches : Touches (Owner.IsTable root) s s' own own'

variable {s s' s'' : Kmem} {own own' own'' : Nat → Option Owner} {root t pg va : Nat} {path : List Nat} {i : Nat}

theorem Grown.refl (hp : Pages s own) (h : PageTable s own root) : Grown s s own own root :=
  ⟨hp, h, rfl, .refl _ s own⟩

theorem Grown.trans (h : Grown s s' own own' root) (h' : Grown s' s'' own' own'' root) :
    Grown s s'' own own'' root :=
  ⟨h'.pages, h'.table, h'.leaf.trans h.leaf, h.touches.trans h'.touches⟩

/-- A page of zeros has no valid entry. -/
theorem pte_of_zero (hzero : ∀ x, t ≤ x → x < t + PG_SIZE → s.mem x = 0) (hi : i < 512) :
    s.pte (pteAddr t i) = 0 := by
  have hrange := pteAddr_range (t := t) hi
  unfold Kmem.pte
  rw [Mem.loadWord_congr (m := fun _ => 0) fun x hlo hhi => hzero x (by omega) (by omega)]
  simp [Mem.loadWord]

/-- A fresh page as the root of an empty page table. -/
theorem PageTable.of_fresh (hf : Fresh s s' own root) (hnone : ∀ pa path, own pa ≠ some (.table root path)) :
    PageTable s' (Function.update own root (some (.table root []))) root ∧ ∀ v, s'.leafPte root v = 0 := by
  have hempty : ∀ i < 512, s'.pte (pteAddr root i) = 0 := fun i hi => pte_of_zero hf.zero hi
  have hchild : ∀ i < 512, s'.child root i = none := by
    intro i hi
    simp [Kmem.child, hempty i hi, Has]
  -- the root is the only table
  have hat : ∀ path, IsPath path → ∀ q, s'.tableAt root path = some q → path = [] ∧ q = root := by
    intro path
    induction path using List.reverseRecOn with
    | nil =>
      intro _ q hq
      cases hq
      exact ⟨rfl, rfl⟩
    | append_singleton path i ih =>
      intro hpath q hq
      obtain ⟨hpath', -, hi⟩ := hpath.concat
      rw [Kmem.tableAt_concat] at hq
      obtain ⟨u, hu, hchild'⟩ := Option.bind_eq_some_iff.mp hq
      obtain ⟨-, rfl⟩ := ih hpath' u hu
      rw [hchild i hi] at hchild'
      cases hchild'
  have hroot : ∀ path q, Function.update own root (some (.table root [])) q = some (.table root path) →
      path = [] ∧ q = root := by
    intro path q hq
    by_cases hqr : q = root
    · subst hqr
      rw [Function.update_self] at hq
      cases hq
      exact ⟨rfl, rfl⟩
    · rw [Function.update_of_ne hqr] at hq
      exact absurd hq (hnone q path)
  refine ⟨⟨fun path q => ⟨fun hq => ?_, ?_⟩, fun path q i hpath hq hvalid => ?_, fun path q hq => ?_,
    fun path q hq => ?_⟩, fun v => ?_⟩
  · obtain ⟨rfl, rfl⟩ := hroot path q hq
    exact ⟨⟨Nat.zero_le 2, by simp⟩, rfl⟩
  · rintro ⟨hpath, hq⟩
    obtain ⟨rfl, rfl⟩ := hat path hpath q hq
    exact Function.update_self ..
  · obtain ⟨hpath', -, hi⟩ := hpath.concat
    obtain ⟨-, rfl⟩ := hat path hpath' q hq
    rw [hempty i hi] at hvalid
    exact absurd rfl hvalid
  · obtain ⟨-, rfl⟩ := hroot path q hq
    exact hf.refcount
  · obtain ⟨rfl, -⟩ := hroot path q hq
    simp
  · have hnone : s'.tableAt root (vpnPath v) = none := by
      cases hcase : s'.tableAt root (vpnPath v) with
      | none => rfl
      | some q => exact absurd (hat _ (isPath_vpnPath v) q hcase).1 (by simp [vpnPath])
    simp [Kmem.leafPte, Kmem.leafSlot, hnone]

/-- The entry that `walk` writes for a new table. -/
theorem table_pte (hp : Pages s own) (hpg : own pg ≠ none) :
    (pa_to_pte pg ||| PTE_V) % 2 ^ 64 = pa_to_pte pg ||| PTE_V ∧ Has (pa_to_pte pg ||| PTE_V) PTE_V ∧
      pte_to_pa (pa_to_pte pg ||| PTE_V) = pg ∧ pte_flags (pa_to_pte pg ||| PTE_V) = PTE_V := by
  obtain ⟨haligned, -, hhi⟩ := hp.range hpg
  have hparts := pte_of_parts (f := PTE_V) haligned (by simp only [PHYS_STOP] at hhi; omega) (by decide)
  refine ⟨Nat.mod_eq_of_lt hparts.2.2, ?_, hparts.1, hparts.2.1⟩
  rw [← has_flags (by decide), hparts.2.1]
  decide

theorem PageTable.grow_touches {T : Owner → Prop} (h : PageTable s own root) (hpath : IsPath (path ++ [i]))
    (ht : s.tableAt root path = some t) (hf : Fresh s s' own pg) (hT : T (.table root path))
    (hT' : T (.table root (path ++ [i]))) :
    Touches T s (s'.setPte (pteAddr t i) (pa_to_pte pg ||| PTE_V)) own
      (Function.update own pg (some (.table root (path ++ [i])))) := by
  obtain ⟨hpath', -, hi⟩ := hpath.concat
  have hown := h.owned hpath' ht
  have hne : t ≠ pg := by
    rintro rfl
    rw [hf.was_free] at hown
    cases hown
  have hwrite := pteAddr_range (t := t) hi
  refine (Touches.of_held hf.toHeld hT').trans ?_
  apply Touches.write (hf.pages (.table root (path ++ [i])) rfl)
  intro x hx
  have hnot := hx t (.table root path) (by rw [Function.update_of_ne hne, hown]) hT
  exact Mem.storeWord_of_outside _ _ (by omega)

/-- Entering a fresh page as the table at the end of a path. -/
theorem PageTable.grow (h : PageTable s own root) (hp : Pages s own) (hpath : IsPath (path ++ [i]))
    (ht : s.tableAt root path = some t) (hnone : s.child t i = none) (hf : Fresh s s' own pg)
    (hlow : ∀ j ∈ (path ++ [i]).head?, j < 256) :
    Grown s (s'.setPte (pteAddr t i) (pa_to_pte pg ||| PTE_V)) own
      (Function.update own pg (some (.table root (path ++ [i])))) root ∧
    (s'.setPte (pteAddr t i) (pa_to_pte pg ||| PTE_V)).tableAt root (path ++ [i]) = some pg := by
  obtain ⟨hpath', hlen, hi⟩ := hpath.concat
  have hown := h.owned hpath' ht
  have hne : t ≠ pg := by
    rintro rfl
    rw [hf.was_free] at hown
    cases hown
  have hp' := hf.pages (.table root (path ++ [i])) rfl
  obtain ⟨hmod, hval, hpa, hflags⟩ := table_pte hp' (show Function.update own pg (some (.table root (path ++ [i]))) pg ≠ none by simp)
  have hwrite := pteAddr_range (t := t) hi
  have htown' : Function.update own pg (some (.table root (path ++ [i]))) t ≠ none := by
    rw [Function.update_of_ne hne, hown]
    simp
  obtain ⟨s2, hs2⟩ : ∃ s2, s2 = s'.setPte (pteAddr t i) (pa_to_pte pg ||| PTE_V) := ⟨_, rfl⟩
  rw [← hs2]
  -- pages in use are as before, but for the one entry
  have hsame : ∀ q, own q ≠ none → q ≠ t → SamePage s s2 q := by
    intro q hq hqt
    refine (hf.same q hq).trans ?_
    subst hs2
    refine ⟨fun x hlo hhi => ?_, rfl⟩
    have hapart := hp.apart hq (by rw [hown]; simp) hqt
    exact Mem.storeWord_of_outside _ _ (by omega)
  have hempty : ∀ j < 512, s2.pte (pteAddr pg j) = 0 := by
    intro j hj
    have hpgown : Function.update own pg (some (.table root (path ++ [i]))) pg ≠ none := by simp
    have hapart := hp'.apart hpgown htown' hne.symm
    have hrange := pteAddr_range (t := pg) hj
    rw [← pte_of_zero hf.zero hj]
    subst hs2
    exact pte_setPte_of_ne _ _ (by omega)
  have hdir : ∀ j < 512, j ≠ i → s2.pte (pteAddr t j) = s.pte (pteAddr t j) := by
    intro j hj hji
    rw [← (hf.same t (by rw [hown]; simp)).pte hj]
    subst hs2
    apply pte_setPte_of_ne
    simp only [pteAddr]
    omega
  have hentry : s2.pte (pteAddr t i) = pa_to_pte pg ||| PTE_V := by
    subst hs2
    rw [pte_setPte, hmod]
  have hnew : s2.child t i = some pg := by
    unfold Kmem.child
    rw [hentry, if_pos hval, hpa]
  have hwas : s.tableAt root (path ++ [i]) = none := by
    rw [Kmem.tableAt_concat, ht]
    exact hnone
  -- by induction on the path, from its end
  have hpaths : ∀ q, IsPath q → s2.tableAt root q = if q = path ++ [i] then some pg else s.tableAt root q := by
    intro q hq
    induction q using List.reverseRecOn with
    | nil => simp
    | append_singleton q j ih =>
      obtain ⟨hq', hqlen, hj⟩ := hq.concat
      rw [Kmem.tableAt_concat, ih hq']
      by_cases hqp : q = path ++ [i]
      · subst hqp
        rw [if_pos rfl, if_neg (by simp), Kmem.tableAt_concat, hwas]
        simp [Kmem.child, hempty j hj, Has]
      · rw [if_neg hqp]
        cases htq : s.tableAt root q with
        | none =>
          have hneq : q ++ [j] ≠ path ++ [i] := by
            intro heq
            obtain ⟨rfl, -⟩ := List.append_inj' heq rfl
            rw [ht] at htq
            cases htq
          rw [if_neg hneq, Kmem.tableAt_concat, htq]
          rfl
        | some u =>
          have hu := h.owned hq' htq
          by_cases hut : u = t
          · subst hut
            obtain rfl := h.path_inj hpath' hq' ht htq
            by_cases hji : j = i
            · subst hji
              simpa using hnew
            · rw [if_neg (by simpa using hji), Kmem.tableAt_concat, ht]
              unfold Kmem.child
              simp only [Option.bind_some, hdir j hj hji]
          · have hneq : q ++ [j] ≠ path ++ [i] := by
              intro heq
              obtain ⟨rfl, -⟩ := List.append_inj' heq rfl
              rw [ht] at htq
              cases htq
              exact hut rfl
            rw [if_neg hneq, Kmem.tableAt_concat, htq]
            exact (hsame u (by rw [hu]; simp) hut).child hj
  have htouch : Touches (Owner.IsTable root) s s2 own
      (Function.update own pg (some (.table root (path ++ [i])))) :=
    hs2 ▸ h.grow_touches hpath ht hf ⟨_, rfl⟩ ⟨_, rfl⟩
  have hpages : Pages s2 (Function.update own pg (some (.table root (path ++ [i])))) := by
    subst hs2
    apply hp'.write
    intro x hx
    have hnot := hx t htown'
    exact Mem.storeWord_of_outside _ _ (by omega)
  refine ⟨⟨hpages, ⟨fun q pa => ?_, fun q u j hq hu hv => ?_, fun q pa hpa => ?_, fun q pa hpa => ?_⟩, ?_, htouch⟩, ?_⟩
  · by_cases hpg : pa = pg
    · subst hpg
      rw [Function.update_self]
      constructor
      · intro heq
        cases heq
        exact ⟨hpath, by rw [hpaths _ hpath, if_pos rfl]⟩
      · rintro ⟨hq, hu⟩
        rw [hpaths q hq] at hu
        by_cases hqp : q = path ++ [i]
        · rw [hqp]
        · rw [if_neg hqp] at hu
          have hfree := hf.was_free
          rw [h.owned hq hu] at hfree
          cases hfree
    · rw [Function.update_of_ne hpg, h.owner]
      refine and_congr_right fun hq => ?_
      rw [hpaths q hq]
      by_cases hqp : q = path ++ [i]
      · subst hqp
        rw [if_pos rfl, hwas]
        simp [Ne.symm hpg]
      · rw [if_neg hqp]
  · obtain ⟨hq', hqlen, hj⟩ := hq.concat
    rw [hpaths q hq'] at hu
    by_cases hqp : q = path ++ [i]
    · rw [if_pos hqp] at hu
      cases hu
      rw [hempty j hj] at hv
      exact absurd rfl hv
    · rw [if_neg hqp] at hu
      have hqo := h.owned hq' hu
      by_cases hut : u = t
      · subst hut
        by_cases hji : j = i
        · subst hji
          rw [hentry, hflags]
        · rw [hdir j hj hji] at hv ⊢
          exact h.dirs q u j hq hu hv
      · rw [(hsame u (by rw [hqo]; simp) hut).pte hj] at hv ⊢
        exact h.dirs q u j hq hu hv
  · by_cases hpg : pa = pg
    · subst hpg
      subst hs2
      exact hf.refcount
    · rw [Function.update_of_ne hpg] at hpa
      have hsame' := (hf.same pa (by rw [hpa]; simp)).page
      subst hs2
      rw [setPte_pa_to_page, hsame']
      exact h.single q pa hpa
  · by_cases hpg : pa = pg
    · subst hpg
      rw [Function.update_self] at hpa
      cases hpa
      exact hlow
    · rw [Function.update_of_ne hpg] at hpa
      exact h.low q pa hpa
  · funext v
    unfold Kmem.leafPte Kmem.leafSlot
    rw [hpaths _ (isPath_vpnPath v)]
    by_cases hvp : vpnPath v = path ++ [i]
    · rw [if_pos hvp, hvp, hwas]
      exact hempty _ (Nat.mod_lt _ (by decide))
    · rw [if_neg hvp]
      cases hu : s.tableAt root (vpnPath v) with
      | none => rfl
      | some u =>
        have huo := h.owned (isPath_vpnPath v) hu
        apply (hsame u (by rw [huo]; simp) ?_).pte (Nat.mod_lt _ (by decide))
        rintro rfl
        rw [hown] at huo
        cases huo
        simp [vpnPath] at hlen
  · rw [hpaths _ hpath, if_pos rfl]

/-- The indices that `walkDown` follows from a level on. -/
def restPath (va : Nat) : Nat → List Nat
  | 0 => []
  | level + 1 => PX (level + 1) va :: restPath va level

theorem restPath_two (va : Nat) : restPath va 2 = vpnPath (va / PG_SIZE) := by
  rw [vpnPath, ← PX_one, ← PX_two]
  rfl

/-- Without `alloc`, `walkDown` only reads. -/
theorem walkDown_false {level : Nat} (s : Kmem) (va t : Nat) :
    walkDown va false level t s =
      .ok ((((restPath va level).foldlM s.child t).map fun u => pteAddr u (PX 0 va)).getD 0, s) := by
  induction level generalizing t with
  | zero => rfl
  | succ level ih =>
    simp only [walkDown, restPath, List.foldlM_cons, Kmem.child]
    rw [get_bind_eq]
    split
    · rw [ih]
      rfl
    · rfl

theorem walk_false (s : Kmem) (root : Nat) (hva : va < MAX_VA) :
    walk root va false s = .ok ((s.leafSlot root (va / PG_SIZE)).getD 0, s) := by
  unfold walk
  rw [if_neg (by omega), walkDown_false, restPath_two, PX_zero]
  rfl

theorem walkDown_spec {level : Nat} (hp : Pages s own) (h : PageTable s own root)
    (hpath : path ++ restPath va level = vpnPath (va / PG_SIZE)) (ht : s.tableAt root path = some t) (hva : va < MAX_VA) :
    wp (walkDown va true level t) (fun a s' => ∃ own', Grown s s' own own' root ∧
      Touches (Owner.OnPath root (va / PG_SIZE)) s s' own own' ∧
      ((a = 0 ∧ Exhausted s' ∧ s'.leafSlot root (va / PG_SIZE) = none) ∨
        s'.leafSlot root (va / PG_SIZE) = some a)) s := by
  induction level generalizing s own t path with
  | zero =>
    simp only [walkDown, wp_pure]
    refine ⟨own, .refl hp h, .refl _ s own, .inr ?_⟩
    rw [restPath, List.append_nil] at hpath
    rw [Kmem.leafSlot, ← hpath, ht, Option.map_some, PX_zero]
  | succ level ih =>
    have hpath' : path ++ [PX (level + 1) va] ++ restPath va level = vpnPath (va / PG_SIZE) := by
      rw [← hpath, restPath, List.append_assoc, List.singleton_append]
    have hprefix : IsPath (path ++ [PX (level + 1) va]) := by
      have hfull := isPath_vpnPath (va / PG_SIZE)
      rw [← hpath'] at hfull
      refine ⟨?_, fun i hi => hfull.2 i (List.mem_append_left _ hi)⟩
      have hlen := hfull.1
      rw [List.length_append] at hlen
      omega
    have hnext := Kmem.tableAt_concat s root (PX (level + 1) va) path
    rw [ht, Option.bind_some] at hnext
    simp only [walkDown, wp_bind, wp_get, wp_ite, wp_pure, wp_modify, if_true]
    constructor
    · intro hv
      rw [Kmem.child, if_pos hv] at hnext
      exact ih hp h hpath' hnext
    · intro hv
      have hnone : s.child t (PX (level + 1) va) = none := by
        rw [Kmem.child, if_neg hv]
      have hslot : s.leafSlot root (va / PG_SIZE) = none := by
        rw [Kmem.leafSlot, ← hpath', Kmem.tableAt, List.foldlM_append, ← Kmem.tableAt, hnext, hnone]
        rfl
      refine wp_mono hp.kalloc_spec ?_
      rintro pg s1 (⟨rfl, rfl, hex⟩ | hf)
      · exact ⟨fun _ => ⟨own, .refl hp h, .refl _ _ own, .inl ⟨trivial, hex, hslot⟩⟩, fun hne => absurd rfl hne⟩
      · refine ⟨fun hz => absurd hz hf.ne_zero, fun _ => ?_⟩
        have hlow : ∀ j ∈ (path ++ [PX (level + 1) va]).head?, j < 256 := by
          intro j hj
          have hhead : j ∈ (vpnPath (va / PG_SIZE)).head? := by
            rw [← hpath', List.head?_append, Option.mem_def.mp hj]
            rfl
          simp only [vpnPath, List.head?_cons, Option.mem_def, Option.some.injEq, MAX_VA, PG_SIZE] at hhead hva
          omega
        obtain ⟨hgrown, hat⟩ := h.grow hp hprefix ht hnone hf hlow
        have htouch := h.grow_touches (T := Owner.OnPath root (va / PG_SIZE)) hprefix ht hf
          ⟨path, hpath ▸ List.prefix_append _ _, rfl⟩ ⟨_, hpath' ▸ List.prefix_append _ _, rfl⟩
        refine wp_mono (ih hgrown.pages hgrown.table hpath' hat) ?_
        rintro a s2 ⟨own', hgrown', htouch', ha⟩
        exact ⟨own', hgrown.trans hgrown', htouch.trans htouch', ha⟩

/-- `walk` with `alloc` finds the leaf of every user address, unless no page is
free for a table. -/
theorem walk_spec (hp : Pages s own) (h : PageTable s own root) (hva : va < MAX_VA) :
    wp (walk root va true) (fun a s' => ∃ own', Grown s s' own own' root ∧
      Touches (Owner.OnPath root (va / PG_SIZE)) s s' own own' ∧
      ((a = 0 ∧ Exhausted s' ∧ s'.leafSlot root (va / PG_SIZE) = none) ∨
        s'.leafSlot root (va / PG_SIZE) = some a)) s := by
  unfold walk
  rw [if_neg (by omega)]
  exact walkDown_spec hp h (show [] ++ restPath va 2 = vpnPath (va / PG_SIZE) from restPath_two va) rfl hva

end bobchouos
