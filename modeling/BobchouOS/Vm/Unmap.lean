import BobchouOS.Vm.Objects

open lib

namespace bobchouos

namespace Vm

variable {E : Halt → Prop} {k : Symbols} {s s' s'' : Kmem} {own own' own'' : Nat → Option Owner} {roots : List Nat}
  {r trapframe va v n m : Nat} {vmas : List Vma} {a : Vma} {others procs : List Nat}

theorem forall₂_right {α β : Type} {R : α → β → Prop} {l : List α} {l' : List β} (h : List.Forall₂ R l l') {b : β}
    (hb : b ∈ l') : ∃ a ∈ l, R a b := by
  induction h with
  | nil => cases hb
  | cons hab _ ih =>
    rcases List.mem_cons.mp hb with rfl | hb
    · exact ⟨_, List.mem_cons_self .., hab⟩
    · obtain ⟨a, ha, hR⟩ := ih hb
      exact ⟨a, List.mem_cons_of_mem _ ha, hR⟩

theorem pairwise_of_forall₂ {α β : Type} {R : α → β → Prop} {S : α → α → Prop} {T : β → β → Prop} {l : List α} {l' : List β}
    (h : List.Forall₂ R l l') (hST : ∀ a b a' b', R a a' → R b b' → S a b → T a' b') (hl : l.Pairwise S) :
    l'.Pairwise T := by
  induction h with
  | nil => exact .nil
  | cons hab htail ih =>
    obtain ⟨hhead, hl⟩ := List.pairwise_cons.mp hl
    refine .cons (fun b hb => ?_) (ih hl)
    obtain ⟨a, ha, hR⟩ := forall₂_right htail hb
    exact hST _ _ _ _ hab hR (hhead a ha)

/-- An address space after the pages of `[v, v + n)` were unmapped. -/
structure Cleared (s s' : Kmem) (own own' : Nat → Option Owner) (roots : List Nat) (r v n : Nat) : Prop where
  spaces : Spaces s' own' roots
  effect : Effect (Owner.InSpace r) roots s s' own own'
  inside : ∀ u, v ≤ u → u < v + n → ¬ Has (s'.leafPte r u) PTE_V
  outside : ∀ u < 2 ^ 26, u < v ∨ v + n ≤ u → s'.leafPte r u = s.leafPte r u
  view : ∀ y, s'.view r y = if v ≤ y / PG_SIZE ∧ y / PG_SIZE < v + n then 0 else s.view r y
  freed : ∀ q, own' q = own q ∨ own' q = none

namespace Cleared

theorem empty (h : Spaces s own roots) (r v : Nat) : Cleared s s own own roots r v 0 := by
  refine ⟨h, .refl _ roots s own, fun u hlo hhi => by omega, fun _ _ _ => rfl, fun y => ?_, fun _ => .inl rfl⟩
  rw [if_neg (by omega)]

/-- A virtual page that was not mapped to begin with. -/
theorem of_invalid (h : Spaces s own roots) (hempty : ¬ Has (s.leafPte r v) PTE_V) :
    Cleared s s own own roots r v 1 := by
  refine ⟨h, .refl _ roots s own, fun u hlo hhi => ?_, fun _ _ _ => rfl, fun y => ?_, fun _ => .inl rfl⟩
  · obtain rfl : u = v := by omega
    exact hempty
  · split
    · rename_i hy
      rw [Kmem.view, show y / PG_SIZE = v by omega, entry_none hempty]
    · rfl

theorem of_unmapped (h : Unmapped s s' own own' roots r v) (hv : v < USER_VPNS) : Cleared s s' own own' roots r v 1 := by
  refine ⟨h.spaces, h.effect, fun u hlo hhi => ?_, fun u hu hout => ?_, fun y => ?_, h.freed⟩
  · obtain rfl : u = v := by omega
    rw [h.leaf u (USER_VPNS_lt hv), if_pos rfl]
    simp [Has]
  · rw [h.leaf u hu, if_neg (by omega)]
  · rw [h.view]
    exact if_congr (by omega) rfl rfl

theorem append (h : Cleared s s' own own' roots r v n) (h' : Cleared s' s'' own' own'' roots r (v + n) m)
    (hlt : v + n ≤ USER_VPNS) : Cleared s s'' own own'' roots r v (n + m) := by
  refine ⟨h'.spaces, h.effect.trans h'.effect, fun u hlo hhi => ?_, fun u hu hout => ?_, fun y => ?_, fun q => ?_⟩
  · by_cases hmid : u < v + n
    · rw [h'.outside u (USER_VPNS_lt (by omega)) (.inl hmid)]
      exact h.inside u hlo hmid
    · exact h'.inside u (by omega) (by omega)
  · rw [h'.outside u hu (by omega), h.outside u hu (by omega)]
  · rw [h'.view, h.view]
    split_ifs <;> first | rfl | omega
  · rcases h'.freed q with heq | hnone
    · rw [heq]
      exact h.freed q
    · exact .inr hnone

end Cleared

theorem unmapPages_spec (h : Spaces s own roots) (hr : r ∈ roots) (hlt : v + n ≤ USER_VPNS) :
    wp (unmapPages r n (v * PG_SIZE)) (fun _ s' => ∃ own', Cleared s s' own own' roots r v n) s := by
  induction n generalizing s own v with
  | zero => exact ⟨_, _, rfl, own, .empty h r v⟩
  | succ n ih =>
    have hv : v < USER_VPNS := by omega
    have hpage : v * PG_SIZE / PG_SIZE = v := Nat.mul_div_cancel _ (by decide)
    have hmax : v * PG_SIZE < MAX_VA := by
      simp only [USER_VPNS, TRAPFRAME, TRAMPOLINE, MAX_VA, PG_SIZE] at *
      omega
    have hnext : v * PG_SIZE + PG_SIZE = (v + 1) * PG_SIZE := (Nat.succ_mul v PG_SIZE).symm
    simp only [unmapPages, wp_bind, wp_get, wp_ite, wp_modify, hnext]
    refine wp_mono (walk_read h.toPageTables hr hmax) ?_
    rintro pte s1 ⟨rfl, hslot, hvalid⟩
    rw [hpage] at hslot hvalid
    have hcons : ∀ {s' own'}, Cleared s1 s' own own' roots r v 1 →
        wp (unmapPages r n ((v + 1) * PG_SIZE)) (fun _ s'' => ∃ own'', Cleared s1 s'' own own'' roots r v (n + 1)) s' := by
      intro s' own' hone
      refine wp_mono (ih hone.spaces (by omega)) ?_
      rintro _ s'' ⟨own'', hrest⟩
      refine ⟨own'', ?_⟩
      rw [Nat.add_comm n 1]
      exact hone.append hrest (by omega)
    rw [hvalid, not_not]
    refine ⟨fun hempty => hcons (.of_invalid h hempty), fun hleaf => ?_⟩
    have hslot := hslot fun hzero => hvalid.mp (.inl hzero) hleaf
    rw [← leafPte_of_slot hslot]
    refine wp_mono (h.unmap_spec hr (entry_eq hv hleaf) hslot) ?_
    rintro _ s2 ⟨own2, hunmapped⟩
    exact hcons (.of_unmapped hunmapped hv)

/-- All pages of an area. The walk stops the kernel at an area out of its reach. -/
theorem unmapArea_spec (h : Spaces s own roots) (hr : r ∈ roots) (ha : a.Ok)
    (hhigh : MAX_VA ≤ a.start → a.start < a.end_ → E (.panic "walk: va >= MAX_VA")) :
    wpe E (unmapPages r (nrPages a.start a.end_) a.start) (fun _ s' => ∃ own',
      Cleared s s' own own' roots r (a.start / PG_SIZE) (nrPages a.start a.end_)) s := by
  by_cases hempty : a.end_ ≤ a.start
  · have hzero : nrPages a.start a.end_ = 0 := by
      simp only [nrPages, PG_SIZE]
      omega
    rw [hzero, unmapPages, wpe_pure]
    exact ⟨own, .empty h r _⟩
  have hpos : a.start < a.end_ := by omega
  rcases ha.range hpos with hle | hge
  · have hspec := unmapPages_spec h hr (ha.vpn_le hpos hle)
    rw [← ha.start_eq] at hspec
    exact hspec.wpe
  · obtain ⟨n, hn⟩ := ha.nrPages_pos hpos
    rw [hn, unmapPages, wpe_bind, walk, if_pos hge, wpe_panic]
    exact hhigh hge hpos

/-- What releasing areas of the address space with root `r` may touch. -/
def OfAreas (r : Nat) (o : Owner) : Prop := o.InSpace r ∨ o = .slab VMA_CLASS

/-- An address space after the given areas were released. -/
structure Released (s s' : Kmem) (own own' : Nat → Option Owner) (roots : List Nat) (r : Nat) (vmas : List Vma)
    (others procs : List Nat) : Prop where
  memory : KernelMemory s' own' roots others procs
  effect : Effect (OfAreas r) roots s s' own own'
  gone : ∀ v < 2 ^ 26, (∃ a ∈ vmas, a.Covers (v * PG_SIZE)) → ¬ Has (s'.leafPte r v) PTE_V
  kept : ∀ v < 2 ^ 26, (∀ a ∈ vmas, ¬ a.Covers (v * PG_SIZE)) → s'.leafPte r v = s.leafPte r v

theorem ofAreas_not_table {c : Nat} (hne : r ≠ c) (path : List Nat) : ¬ OfAreas c (.table r path) := by
  rintro ((⟨path', heq⟩ | ⟨u, heq⟩) | heq) <;> cases heq
  exact hne rfl

theorem inSpace_not_slab (r c : Nat) : ¬ Owner.InSpace r (.slab c) := by
  rintro (⟨_, heq⟩ | ⟨_, heq⟩) <;> cases heq

theorem vma_free_all_spec (h : KernelMemory s own roots (vmas.map Vma.addr ++ others) procs) (hr : r ∈ roots)
    (hareas : ∀ a ∈ vmas, a.Ok)
    (hhigh : ∀ a ∈ vmas, MAX_VA ≤ a.start → a.start < a.end_ → E (.panic "walk: va >= MAX_VA")) :
    wpe E (vma_free_all r vmas) (fun _ s' => ∃ own', Released s s' own own' roots r vmas others procs) s := by
  induction vmas generalizing s own with
  | nil =>
    rw [vma_free_all, wpe_pure]
    exact ⟨own, h, .refl _ roots s own, by simp, fun _ _ _ => rfl⟩
  | cons a vmas ih =>
    simp only [vma_free_all, wpe_bind]
    refine wpe_mono (unmapArea_spec h.spaces hr (hareas a (by simp)) (hhigh a (by simp))) ?_
    rintro _ s1 ⟨own1, hclear⟩
    have hcovers := (hareas a (by simp)).pages
    have h1 : KernelMemory s1 own1 roots (a.addr :: (vmas.map Vma.addr ++ others)) procs :=
      ⟨hclear.spaces, h.objects.frame hclear.effect.touches (inSpace_not_slab r)⟩
    refine wpe_mono h1.kmfree_vma_spec.wpe ?_
    rintro _ s2 ⟨own2, h2, ht2⟩
    have hleaf2 : s2.leafPte r = s1.leafPte r := h1.spaces.leafPte_frame ht2 (by simp) hr
    refine wpe_mono (ih h2 (fun b hb => hareas b (by simp [hb])) fun b hb => hhigh b (by simp [hb])) ?_
    rintro _ s3 ⟨own3, hrest⟩
    refine ⟨own3, hrest.memory, ?_, fun v hv hcov => ?_, fun v hv hout => ?_⟩
    · exact ((hclear.effect.mono fun _ => .inl).trans ((h1.effect_slab ht2).mono fun _ => .inr)).trans hrest.effect
    · by_cases hin : ∃ b ∈ vmas, b.Covers (v * PG_SIZE)
      · exact hrest.gone v hv hin
      · obtain ⟨b, hb, hbv⟩ := hcov
        rcases List.mem_cons.mp hb with rfl | hb
        · rw [hrest.kept v hv fun b' hb' hcov' => hin ⟨b', hb', hcov'⟩, hleaf2]
          exact hclear.inside v ((hcovers v).mp hbv).1 ((hcovers v).mp hbv).2
        · exact absurd ⟨b, hb, hbv⟩ hin
    · rw [hrest.kept v hv fun b hb => hout b (by simp [hb]), hleaf2]
      have hnot := (not_congr (hcovers v)).mp (hout a (by simp))
      exact hclear.outside v hv (by omega)

end Vm

end bobchouos
