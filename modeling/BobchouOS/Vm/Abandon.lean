import BobchouOS.Vm.Build
import BobchouOS.Vm.Dup

open lib

namespace bobchouos

variable {E : Halt → Prop} {s s' s'' : Kmem} {own own' own'' : Nat → Option Owner} {r v n : Nat}
  {roots others procs vmas vmas' : List Nat} {areas : List Vma} {P Q : Nat → Prop}

/-- Pages may be given other owners of the same size. -/
theorem Pages.relabel (h : Pages s own) (horder : ∀ pa, (own' pa).map Owner.order = (own pa).map Owner.order) :
    Pages s own' := by
  obtain ⟨free, live, hinv, hlive⟩ := h
  refine ⟨free, live, hinv, fun pa n => ?_⟩
  rw [horder]
  exact hlive pa n

namespace Vm

/-- What the cleanup of `proc_exec` may touch before it frees the tables. -/
def OfCleanup (o : Owner) : Prop := o = .loose ∨ o = .slab VMA_CLASS

/-- An address space that is given up: its entries stay as they are while the pages
they point to are freed. -/
structure Abandoned (s : Kmem) (own : Nat → Option Owner) (r : Nat) (roots vmas procs : List Nat) : Prop where
  tables : PageTables s own (r :: roots)
  root : r ∉ roots
  sharing : Sharing roots s.entry (home own) fun pa => (s.pa_to_page pa).refcount
  objects : Objects s own vmas procs
  inj : ∀ v v' pa w w', s.entry r v = some (pa, w) → s.entry r v' = some (pa, w') → v' = v
  mapped : ∀ v pa w, s.entry r v = some (pa, w) → own pa = some .loose ∧ (s.pa_to_page pa).refcount = 1 ∨
    own pa = none ∧ pa % PG_SIZE = 0 ∧ s.free_start ≤ pa ∧ pa < PHYS_STOP

theorem ofCleanup_not_table (r : Nat) (path : List Nat) : ¬ OfCleanup (.table r path) := by
  rintro (heq | heq) <;> cases heq

theorem ofCleanup_not_user (v : Nat) : ¬ OfCleanup (.user v) := by
  rintro (heq | heq) <;> cases heq

/-- A new owner for the pages that `r` maps. -/
theorem KernelMemory.abandon (h : KernelMemory s own (r :: roots) vmas procs) (halone : Private s r) :
    ∃ own', Abandoned s own' r roots vmas procs ∧ Touches (fun o => o.IsUser ∨ o = .loose) s s own own' ∧
      (∀ v pa w, s.entry r v = some (pa, w) → own' pa = some .loose) ∧
      (∀ pa, own' pa = some .loose → own pa = some .loose ∨ ∃ v w, s.entry r v = some (pa, w)) ∧
      ∀ pa, own pa = some .loose → own' pa = some .loose := by
  classical
  have hnodup := List.nodup_cons.mp h.spaces.sharing.nodup
  have hmem : r ∈ r :: roots := List.mem_cons_self ..
  let own' : Nat → Option Owner := fun pa => if ∃ v w, s.entry r v = some (pa, w) then some .loose else own pa
  have hmapped : ∀ v pa w, s.entry r v = some (pa, w) → own' pa = some .loose := fun v pa w he => if_pos ⟨v, w, he⟩
  have hother : ∀ pa, (¬ ∃ v w, s.entry r v = some (pa, w)) → own' pa = own pa := fun pa he => if_neg he
  have howner : ∀ pa o, ¬ (o.IsUser ∨ o = .loose) → (own' pa = some o ↔ own pa = some o) := by
    intro pa o ho
    by_cases he : ∃ v w, s.entry r v = some (pa, w)
    · obtain ⟨v, w, he⟩ := he
      rw [hmapped v pa w he, h.spaces.entry_owned hmem he]
      constructor <;> rintro ⟨⟩
      · exact absurd (.inr rfl) ho
      · exact absurd (.inl ⟨v, rfl⟩) ho
    · rw [hother pa he]
  have ht : Touches (fun o => o.IsUser ∨ o = .loose) s s own own' :=
    ⟨howner, fun pa _ _ _ => .refl s pa, rfl, fun _ => rfl⟩
  have hpages : Pages s own' := by
    refine h.spaces.pages.relabel fun pa => ?_
    by_cases he : ∃ v w, s.entry r v = some (pa, w)
    · obtain ⟨v, w, he⟩ := he
      rw [hmapped v pa w he, h.spaces.entry_owned hmem he]
      rfl
    · rw [hother pa he]
  have hhome : ∀ pa, (∀ v w, s.entry r v ≠ some (pa, w)) → home own' pa = home own pa := by
    intro pa he
    rw [home, home, hother pa fun ⟨v, w, hvw⟩ => he v w hvw]
  have halone' : ∀ v pa w, s.entry r v = some (pa, w) → (s.pa_to_page pa).refcount = 1 ∧ home own' pa = none := by
    intro v pa w he
    refine ⟨halone v pa w he, ?_⟩
    rw [home, hmapped v pa w he]
  have hleave := h.spaces.sharing.leave hmem halone' hhome
  rw [List.erase_cons_head] at hleave
  refine ⟨own', ⟨?_, hnodup.1, hleave, h.objects.frame ht ?_, ?_, fun v pa w he => ?_⟩, ht, hmapped, fun pa hpa => ?_,
    fun pa hpa => ?_⟩
  · refine h.spaces.toPageTables.frame hpages ht ?_ ?_ ?_
    · rintro r path (⟨_, heq⟩ | heq) <;> cases heq
    · rintro o (⟨_, rfl⟩ | rfl) <;> rfl
    · rintro pa o (⟨_, rfl⟩ | rfl) _ (⟨_, heq⟩ | ⟨_, heq⟩) <;> cases heq
  · rintro c (⟨_, heq⟩ | heq) <;> cases heq
  · intro v v' pa w w' he he'
    exact (h.spaces.sharing.unique hmem hmem he he' (halone v pa w he)).2
  · exact .inl ⟨hmapped v pa w he, halone v pa w he⟩
  · by_cases he : ∃ v w, s.entry r v = some (pa, w)
    · exact .inr he
    · exact .inl (hother pa he ▸ hpa)
  · by_cases he : ∃ v w, s.entry r v = some (pa, w)
    · exact if_pos he
    · rw [hother pa he, hpa]

namespace Abandoned

theorem leafPte_eq (h : Abandoned s own r roots vmas procs) (ht : Touches OfCleanup s s' own own') {r' : Nat}
    (hr' : r' ∈ r :: roots) : s'.leafPte r' = s.leafPte r' :=
  h.tables.leafPte_frame ht (ofCleanup_not_table r') hr'

theorem entry_eq (h : Abandoned s own r roots vmas procs) (ht : Touches OfCleanup s s' own own') {r' : Nat}
    (hr' : r' ∈ r :: roots) (v : Nat) : s'.entry r' v = s.entry r' v := entry_congr (by rw [h.leafPte_eq ht hr'])

/-- A step of the cleanup may free pages that wait for it. -/
theorem frame (h : Abandoned s own r roots vmas procs) (hp : Pages s' own') (ht : Touches OfCleanup s s' own own')
    (hobj : Objects s' own' vmas' procs)
    (hmapped : ∀ v pa w, s.entry r v = some (pa, w) → own' pa = none ∨
      own' pa = own pa ∧ (own pa ≠ none → (s'.pa_to_page pa).refcount = (s.pa_to_page pa).refcount)) :
    Abandoned s' own' r roots vmas' procs := by
  have hentry : ∀ r' ∈ r :: roots, ∀ v, s'.entry r' v = s.entry r' v := fun _ hr' => h.entry_eq ht hr'
  refine ⟨h.tables.frame hp ht ofCleanup_not_table ?_ ?_, h.root,
    ht.sharing ofCleanup_not_user (fun r' hr' => hentry r' (List.mem_cons_of_mem _ hr')) h.sharing, hobj,
    fun v v' pa w w' he he' => ?_, fun v pa w he => ?_⟩
  · rintro o (rfl | rfl) <;> rfl
  · rintro pa o (rfl | rfl) _ (⟨_, heq⟩ | ⟨_, heq⟩) <;> cases heq
  · rw [hentry r (List.mem_cons_self ..)] at he he'
    exact h.inj v v' pa w w' he he'
  · rw [hentry r (List.mem_cons_self ..)] at he
    have hrange : pa % PG_SIZE = 0 ∧ s.free_start ≤ pa ∧ pa < PHYS_STOP := by
      rcases h.mapped v pa w he with ⟨hloose, -⟩ | ⟨-, hrange⟩
      · have hext := h.tables.pages.extent hloose
        have hpage := h.tables.pages.range_of hloose
        simp only [PG_SIZE] at hpage ⊢
        omega
      · exact hrange
    rw [ht.free_start]
    rcases hmapped v pa w he with hnone | ⟨heq, href⟩
    · exact .inr ⟨hnone, hrange⟩
    · rw [heq]
      rcases h.mapped v pa w he with ⟨hloose, hone⟩ | ⟨hnone, -⟩
      · exact .inl ⟨hloose, (href (by simp [hloose])).trans hone⟩
      · exact .inr ⟨hnone, hrange⟩

end Abandoned

/-- The pages with the given numbers were freed. -/
structure GivenUp (s s' : Kmem) (own own' : Nat → Option Owner) (r : Nat) (P : Nat → Prop) : Prop where
  touches : Touches OfCleanup s s' own own'
  gone : ∀ u pa w, s.entry r u = some (pa, w) → P u → own' pa = none
  kept : ∀ u pa w, s.entry r u = some (pa, w) → ¬ P u → own' pa = own pa
  loose : ∀ pa, own' pa = some .loose → own pa = some .loose
  still : ∀ pa, (∀ u w, s.entry r u ≠ some (pa, w)) → own pa = some .loose → own' pa = some .loose

namespace GivenUp

theorem refl (s : Kmem) (own : Nat → Option Owner) (r : Nat) : GivenUp s s own own r (fun _ => False) :=
  ⟨.refl _ s own, fun _ _ _ _ h => h.elim, fun _ _ _ _ _ => rfl, fun _ => id, fun _ _ => id⟩

theorem trans (h : GivenUp s s' own own' r P) (h' : GivenUp s' s'' own' own'' r Q)
    (hentry : ∀ v, s'.entry r v = s.entry r v) : GivenUp s s'' own own'' r (fun u => P u ∨ Q u) := by
  refine ⟨h.touches.trans h'.touches, fun u pa w he hPQ => ?_, fun u pa w he hPQ => ?_,
    fun pa hpa => h.loose pa (h'.loose pa hpa),
    fun pa hout hpa => h'.still pa (fun u w => by rw [hentry]; exact hout u w) (h.still pa hout hpa)⟩
  · have he' := (hentry u).trans he
    by_cases hQ : Q u
    · exact h'.gone u pa w he' hQ
    · rw [h'.kept u pa w he' hQ]
      exact h.gone u pa w he (hPQ.resolve_right hQ)
  · rw [h'.kept u pa w ((hentry u).trans he) fun hQ => hPQ (.inr hQ)]
    exact h.kept u pa w he fun hP => hPQ (.inl hP)

theorem congr (h : GivenUp s s' own own' r P) (hPQ : ∀ u, s.entry r u ≠ none → (P u ↔ Q u)) :
    GivenUp s s' own own' r Q := by
  refine ⟨h.touches, fun u pa w he hQ => ?_, fun u pa w he hQ => ?_, h.loose, h.still⟩
  · exact h.gone u pa w he ((hPQ u (by simp [he])).mpr hQ)
  · exact h.kept u pa w he fun hP => hQ ((hPQ u (by simp [he])).mp hP)

end GivenUp

/-- One page of the cleanup. A page that was freed before stops the kernel. -/
theorem Abandoned.put_spec {pa : Nat} {w : Bool} (h : Abandoned s own r roots vmas procs) (he : s.entry r v = some (pa, w))
    (hput : own pa = none → E (.panic "page_put: refcount already 0")) :
    wpe E (page_put pa) (fun _ s' => ∃ own', Abandoned s' own' r roots vmas procs ∧ GivenUp s s' own own' r (· = v) ∧
      own pa ≠ none) s := by
  rcases h.mapped v pa w he with ⟨hloose, hone⟩ | ⟨hnone, haligned, hlo, hhi⟩
  · refine wpe_mono (page_put_spec h.tables.pages hloose rfl).wpe ?_
    rintro _ s' ⟨own', hdone⟩
    have ht : Touches OfCleanup s s' own own' := hdone.touches hloose (.inl rfl)
    have hgone : own' pa = none := by rw [hdone.last hone, Function.update_self]
    refine ⟨own', h.frame hdone.pages ht (h.objects.frame (hdone.touches (T := (· = .loose)) hloose rfl) (by simp)) ?_,
      ⟨ht, ?_, ?_, ?_, ?_⟩, by simp [hloose]⟩
    · intro u pa' w' he'
      by_cases heq : pa' = pa
      · exact .inl (heq ▸ hgone)
      · exact .inr ⟨hdone.owner_of_ne heq, fun hne => by rw [(hdone.same pa' hne heq).page]⟩
    · rintro u pa' w' he' rfl
      rw [he] at he'
      cases he'
      exact hgone
    · intro u pa' w' he' hne
      refine hdone.owner_of_ne ?_
      rintro rfl
      exact hne (h.inj _ _ _ _ _ he he')
    · intro q hq
      by_cases heq : q = pa
      · exact heq ▸ hloose
      · rwa [hdone.owner_of_ne heq] at hq
    · intro q hout hq
      rw [hdone.owner_of_ne, hq]
      rintro rfl
      exact hout v w he
  · have hzero := h.tables.pages.refcount_zero hnone haligned hlo hhi
    simp only [page_put, wpe_bind, wpe_get, wpe_ite, wpe_panic]
    exact ⟨fun _ => hput hnone, fun hlt => absurd (by omega) hlt⟩

theorem putPages_spec (h : Abandoned s own r roots vmas procs) (hlt : v + n ≤ USER_VPNS)
    (hput : (∃ u pa w, v ≤ u ∧ u < v + n ∧ s.entry r u = some (pa, w) ∧ own pa = none) →
      E (.panic "page_put: refcount already 0")) :
    wpe E (putPages r n (v * PG_SIZE)) (fun _ s' => ∃ own', Abandoned s' own' r roots vmas procs ∧
      GivenUp s s' own own' r (fun u => v ≤ u ∧ u < v + n) ∧
      ∀ u pa w, v ≤ u → u < v + n → s.entry r u = some (pa, w) → own pa ≠ none) s := by
  induction n generalizing s own v with
  | zero =>
    rw [putPages, wpe_pure]
    exact ⟨own, h, (GivenUp.refl s own r).congr fun u _ => ⟨False.elim, fun hu => by omega⟩, fun u _ _ _ _ _ => by omega⟩
  | succ n ih =>
    have hv : v < USER_VPNS := by omega
    have hpage : v * PG_SIZE / PG_SIZE = v := Nat.mul_div_cancel _ (by decide)
    have hmax : v * PG_SIZE < MAX_VA := by
      simp only [USER_VPNS, TRAPFRAME, TRAMPOLINE, MAX_VA, PG_SIZE] at *
      omega
    have hnext : v * PG_SIZE + PG_SIZE = (v + 1) * PG_SIZE := (Nat.succ_mul v PG_SIZE).symm
    have hr : r ∈ r :: roots := List.mem_cons_self ..
    simp only [putPages, wpe_bind, wpe_get, wpe_ite, hnext]
    refine wpe_mono (walk_read h.tables hr hmax).wpe ?_
    rintro pte s1 ⟨rfl, hslot, hvalid⟩
    rw [hpage] at hslot hvalid
    -- the pages from the next one on, after this one was dealt with
    have hcons : ∀ {s' own'}, Abandoned s' own' r roots vmas procs →
        GivenUp s1 s' own own' r (· = v) → (∀ pa w, s1.entry r v = some (pa, w) → own pa ≠ none) →
        wpe E (putPages r n ((v + 1) * PG_SIZE)) (fun _ s'' => ∃ own'', Abandoned s'' own'' r roots vmas procs ∧
          GivenUp s1 s'' own own'' r (fun u => v ≤ u ∧ u < v + (n + 1)) ∧
          ∀ u pa w, v ≤ u → u < v + (n + 1) → s1.entry r u = some (pa, w) → own pa ≠ none) s' := by
      intro s' own' h' hone hheld
      have hentry := h.entry_eq hone.touches hr
      refine wpe_mono (ih h' (by omega) ?_) ?_
      · rintro ⟨u, pa, w, hlo, hhi, he, hnone⟩
        rw [hentry] at he
        rw [hone.kept u pa w he (by omega)] at hnone
        exact hput ⟨u, pa, w, by omega, by omega, he, hnone⟩
      rintro _ s'' ⟨own'', h'', hrest, hheld'⟩
      refine ⟨own'', h'', (hone.trans hrest hentry).congr fun u _ => by omega, fun u pa w hlo hhi he => ?_⟩
      by_cases hu : u = v
      · exact hheld pa w (hu ▸ he)
      · rw [← hone.kept u pa w he hu]
        exact hheld' u pa w (by omega) (by omega) ((hentry u).trans he)
    rw [hvalid, not_not]
    refine ⟨fun hempty => ?_, fun hleaf => ?_⟩
    · have hnone : s1.entry r v = none := by rw [Kmem.entry, if_neg fun hboth => hempty hboth.2]
      refine hcons h ((GivenUp.refl s1 own r).congr fun u hu => ⟨False.elim, ?_⟩) (by simp [hnone])
      rintro rfl
      exact hu hnone
    have hslot := hslot fun hzero => hvalid.mp (.inl hzero) hleaf
    rw [← leafPte_of_slot hslot]
    have he := bobchouos.entry_eq hv hleaf
    refine wpe_mono (h.put_spec he fun hnone => hput ⟨v, _, _, Nat.le_refl v, by omega, he, hnone⟩) ?_
    rintro _ s2 ⟨own2, h2, hone, hheld⟩
    refine hcons h2 hone fun pa w he' => ?_
    rw [he] at he'
    cases he'
    exact hheld

/-- All pages of an area. -/
theorem putArea_spec {a : Vma} (h : Abandoned s own r roots vmas procs) (ha : a.Ok)
    (hhigh : MAX_VA ≤ a.start → a.start < a.end_ → E (.panic "walk: va >= MAX_VA"))
    (hput : (∃ u pa w, a.Covers (u * PG_SIZE) ∧ s.entry r u = some (pa, w) ∧ own pa = none) →
      E (.panic "page_put: refcount already 0")) :
    wpe E (putPages r (nrPages a.start a.end_) a.start) (fun _ s' => ∃ own', Abandoned s' own' r roots vmas procs ∧
      GivenUp s s' own own' r (fun u => a.Covers (u * PG_SIZE)) ∧
      ∀ u pa w, a.Covers (u * PG_SIZE) → s.entry r u = some (pa, w) → own pa ≠ none) s := by
  by_cases hempty : a.end_ ≤ a.start
  · have hzero : nrPages a.start a.end_ = 0 := by
      simp only [nrPages, PG_SIZE]
      omega
    rw [hzero, putPages, wpe_pure]
    have hnone : ∀ y, ¬ a.Covers y := fun y hy => absurd hy.1 (by have := hy.2; omega)
    exact ⟨own, h, (GivenUp.refl s own r).congr fun u _ => iff_of_false id (hnone _), fun u _ _ hu => absurd hu (hnone _)⟩
  have hpos : a.start < a.end_ := by omega
  rcases ha.range hpos with hle | hge
  · have hspec := putPages_spec (E := E) h (ha.vpn_le hpos hle) ?_
    · rw [← ha.start_eq] at hspec
      refine wpe_mono hspec ?_
      rintro _ s' ⟨own', h', hgiven, hheld⟩
      refine ⟨own', h', hgiven.congr fun u _ => (ha.pages u).symm, fun u pa w hu => ?_⟩
      obtain ⟨hlo, hhi⟩ := (ha.pages u).mp hu
      exact hheld u pa w hlo hhi
    · rintro ⟨u, pa, w, hlo, hhi, he, hnone⟩
      exact hput ⟨u, pa, w, (ha.pages u).mpr ⟨hlo, hhi⟩, he, hnone⟩
  · obtain ⟨n, hn⟩ := ha.nrPages_pos hpos
    rw [hn, putPages, wpe_bind, walk, if_pos hge, wpe_panic]
    exact hhigh hge hpos

/-- The areas share no page that is mapped. -/
def Unshared (s : Kmem) (r : Nat) (a b : Vma) : Prop :=
  ∀ u pa w, s.entry r u = some (pa, w) → a.Covers (u * PG_SIZE) → ¬ b.Covers (u * PG_SIZE)

theorem putAreas_spec (h : Abandoned s own r roots (areas.map Vma.addr ++ others) procs) (hareas : ∀ a ∈ areas, a.Ok)
    (hhigh : ∀ a ∈ areas, MAX_VA ≤ a.start → a.start < a.end_ → E (.panic "walk: va >= MAX_VA"))
    (hput : (¬ areas.Pairwise Apart ∨ ∃ a ∈ areas, ∃ u pa w, a.Covers (u * PG_SIZE) ∧ s.entry r u = some (pa, w) ∧
      own pa = none) → E (.panic "page_put: refcount already 0")) :
    wpe E (putAreas r areas) (fun _ s' => ∃ own', Abandoned s' own' r roots others procs ∧
      GivenUp s s' own own' r (fun u => ∃ a ∈ areas, a.Covers (u * PG_SIZE)) ∧ areas.Pairwise (Unshared s r) ∧
      ∀ a ∈ areas, ∀ u pa w, a.Covers (u * PG_SIZE) → s.entry r u = some (pa, w) → own pa ≠ none) s := by
  induction areas generalizing s own with
  | nil =>
    rw [putAreas, wpe_pure]
    exact ⟨own, h, (GivenUp.refl s own r).congr fun u _ => by simp, .nil, by simp⟩
  | cons a areas ih =>
    have hr : r ∈ r :: roots := List.mem_cons_self ..
    simp only [putAreas, wpe_bind]
    refine wpe_mono (putArea_spec h (hareas a (by simp)) (hhigh a (by simp)) ?_) ?_
    · rintro ⟨u, pa, w, hcov, he, hnone⟩
      exact hput (.inr ⟨a, by simp, u, pa, w, hcov, he, hnone⟩)
    rintro _ s1 ⟨own1, h1, hgiven1, hheld1⟩
    refine wpe_mono (h1.objects.kmfree_vma_spec h1.tables.pages).wpe ?_
    rintro _ s2 ⟨own2, hp2, hobj2, ht2, hnone2⟩
    -- the slab allocator leaves the pages of `r` alone
    have ht2' : Touches OfCleanup s1 s2 own1 own2 := ht2.mono fun _ ho => .inr ho
    have hloose2 : ∀ pa, own2 pa = some .loose ↔ own1 pa = some .loose := fun pa => ht2.owner pa _ (by simp)
    have hkept2 : ∀ u pa w, s1.entry r u = some (pa, w) → own2 pa = own1 pa := by
      intro u pa w he
      rcases h1.mapped u pa w he with ⟨hloose, -⟩ | ⟨hnone, -⟩
      · rw [hloose, (hloose2 pa).mpr hloose]
      · rw [hnone, hnone2 pa hnone]
    have h2 : Abandoned s2 own2 r roots (areas.map Vma.addr ++ others) procs := by
      refine h1.frame hp2 ht2' hobj2 fun u pa w he => .inr ⟨hkept2 u pa w he, fun hne => ?_⟩
      rcases h1.mapped u pa w he with ⟨hloose, -⟩ | ⟨hnone, -⟩
      · rw [(ht2.same pa _ hloose (by simp)).page]
      · exact absurd hnone hne
    have hgiven2 : GivenUp s1 s2 own1 own2 r (fun _ => False) :=
      ⟨ht2', fun _ _ _ _ hfalse => hfalse.elim, fun u pa w he _ => hkept2 u pa w he, fun pa hpa => (hloose2 pa).mp hpa,
        fun pa _ hpa => (hloose2 pa).mpr hpa⟩
    have hgiven := hgiven1.trans hgiven2 (h.entry_eq hgiven1.touches hr)
    have hentry := h.entry_eq hgiven.touches hr
    refine wpe_mono (ih h2 (fun b hb => hareas b (by simp [hb])) (fun b hb => hhigh b (by simp [hb])) ?_) ?_
    · rintro (hover | ⟨b, hb, u, pa, w, hcov, he, hnone⟩)
      · exact hput (.inl fun hpair => hover (List.pairwise_cons.mp hpair).2)
      · rw [hentry] at he
        by_cases hboth : a.Covers (u * PG_SIZE)
        · exact hput (.inl fun hpair => (List.pairwise_cons.mp hpair).1 b hb _ ⟨hboth, hcov⟩)
        · rw [hgiven.kept u pa w he (by simp [hboth])] at hnone
          exact hput (.inr ⟨b, by simp [hb], u, pa, w, hcov, he, hnone⟩)
    rintro _ s3 ⟨own3, h3, hrest, hpair, hheld⟩
    have hunshared : ∀ b ∈ areas, Unshared s r a b := by
      intro b hb u pa w he hcov hcov'
      exact hheld b hb u pa w hcov' ((hentry u).trans he) (hgiven.gone u pa w he (.inl hcov))
    refine ⟨own3, h3, (hgiven.trans hrest hentry).congr fun u _ => by simp, .cons hunshared ?_, fun b hb u pa w hcov he => ?_⟩
    · exact hpair.imp fun hbc u pa w he => hbc u pa w ((hentry u).trans he)
    · rcases List.mem_cons.mp hb with rfl | hb
      · exact hheld1 u pa w hcov he
      · have hnot : ¬ a.Covers (u * PG_SIZE) := fun hcov' => hunshared b hb u pa w he hcov' hcov
        rw [← hgiven.kept u pa w he (by simp [hnot])]
        exact hheld b hb u pa w hcov ((hentry u).trans he)

/-- The pages that a failed `proc_exec` maps outside its areas are never freed. -/
structure Cleaned (s s' : Kmem) (own own' : Nat → Option Owner) (r : Nat) (roots : List Nat) (areas : List Vma)
    (others procs : List Nat) : Prop where
  memory : KernelMemory s' own' roots others procs
  effect : Effect (fun o => OfAreas r o ∨ o = .loose) roots s s' own own'
  tables : ∀ pa path, own' pa ≠ some (.table r path)
  gone : ∀ v pa w, s.entry r v = some (pa, w) → (∃ a ∈ areas, a.Covers (v * PG_SIZE)) → own' pa = none
  left : ∀ v pa w, s.entry r v = some (pa, w) → (∀ a ∈ areas, ¬ a.Covers (v * PG_SIZE)) → own' pa = some .loose
  loose : ∀ pa, own' pa = some .loose → own pa = some .loose ∨ ∃ v w, s.entry r v = some (pa, w)
  unshared : areas.Pairwise (Unshared s r)
  still : ∀ pa, own pa = some .loose → own' pa = some .loose

theorem execFail_spec (h : KernelMemory s own (r :: roots) (areas.map Vma.addr ++ others) procs) (halone : Private s r)
    (hareas : ∀ a ∈ areas, a.Ok)
    (hhigh : ∀ a ∈ areas, MAX_VA ≤ a.start → a.start < a.end_ → E (.panic "walk: va >= MAX_VA"))
    (hput : ¬ areas.Pairwise Apart → E (.panic "page_put: refcount already 0")) :
    wpe E (execFail r areas) (fun _ s' => ∃ own', Cleaned s s' own own' r roots areas others procs) s := by
  obtain ⟨own1, h1, ht1, hmapped1, hloose1, hstill1⟩ := h.abandon halone
  have hr : r ∈ r :: roots := List.mem_cons_self ..
  simp only [execFail, wpe_bind]
  refine wpe_mono (putAreas_spec h1 hareas hhigh ?_) ?_
  · rintro (hover | ⟨a, -, u, pa, w, -, he, hnone⟩)
    · exact hput hover
    · rw [hmapped1 u pa w he] at hnone
      cases hnone
  rintro _ s2 ⟨own2, h2, hgiven, hunshared, -⟩
  refine wpe_mono (h2.tables.free_spec h2.root h2.sharing).wpe ?_
  rintro _ s3 ⟨own3, hsp3, hgone3, ht3⟩
  have htable : ∀ o, Owner.IsTable r o → OfAreas r o := fun o ho => .inl (.inl ho)
  have ht : Touches (fun o => OfAreas r o ∨ o = .loose) s s3 own own3 := by
    refine ((ht1.mono ?_).trans (hgiven.touches.mono ?_)).trans (ht3.mono fun o ho => .inl (htable o ho))
    · rintro o (ho | ho)
      · exact .inl (.inl (.inr ho))
      · exact .inr ho
    · rintro o (ho | ho)
      · exact .inr ho
      · exact .inl (.inr ho)
  have hfree : ∀ pa, own2 pa = none → own3 pa = none := by
    intro pa hnone
    by_contra hsome
    obtain ⟨o, ho⟩ := Option.ne_none_iff_exists'.mp hsome
    by_cases htab : Owner.IsTable r o
    · obtain ⟨path, rfl⟩ := htab
      exact hgone3 pa path ho
    · rw [(ht3.owner pa o htab)] at ho
      rw [hnone] at ho
      cases ho
  have hloose3 : ∀ pa, own3 pa = some .loose ↔ own2 pa = some .loose := by
    intro pa
    refine ht3.owner pa _ ?_
    rintro ⟨path, heq⟩
    cases heq
  refine ⟨own3, ⟨hsp3, h2.objects.frame ht3 (isTable_not_slab r)⟩, ⟨ht, fun r' hr' hT => ?_⟩, hgone3, ?_, ?_, ?_, hunshared, fun pa hpa => ?_⟩
  · have hne : r' ≠ r := by
      rintro rfl
      exact h2.root hr'
    have hmem : r' ∈ r :: roots := List.mem_cons_of_mem _ hr'
    have hentry2 := h1.entry_eq hgiven.touches hmem
    have hentry3 : s3.entry r' = s2.entry r' := by
      funext v
      exact entry_congr (by rw [h2.tables.leafPte_frame ht3 (isTable_of_ne hne) hmem])
    refine view_congr (hentry3.trans (funext hentry2)) fun v pa w he y hlo hhi => ?_
    have howner1 : own1 pa = some (.user v) := home_eq_some.mp (h1.sharing.home_of r' hr' v pa w he)
    have howner2 := (hgiven.touches.owner pa _ (ofCleanup_not_user v)).mpr howner1
    rw [(ht3.same pa _ howner2 (user_not_table r v)).mem y hlo hhi,
      (hgiven.touches.same pa _ howner1 (ofCleanup_not_user v)).mem y hlo hhi]
  · intro v pa w he hcov
    exact hfree pa (hgiven.gone v pa w he hcov)
  · intro v pa w he hout
    rw [hloose3, hgiven.kept v pa w he (by simpa using hout)]
    exact hmapped1 v pa w he
  · intro pa hpa
    exact hloose1 pa (hgiven.loose pa ((hloose3 pa).mp hpa))
  · refine (hloose3 pa).mpr (hgiven.still pa (fun u w he => ?_) (hstill1 pa hpa))
    rw [h.spaces.entry_owned hr he] at hpa
    cases hpa

end Vm

end bobchouos
