import BobchouOS.Kalloc.Pages
import BobchouOS.Vm.Model

open lib

namespace bobchouos

namespace Kmem

/-- The table that a valid entry of a directory points to. -/
def child (s : Kmem) (t i : Nat) : Option Nat :=
  if Has (s.pte (pteAddr t i)) PTE_V then some (pte_to_pa (s.pte (pteAddr t i))) else none

/-- The table reached from `root` by a path of indices. -/
def tableAt (s : Kmem) (root : Nat) (path : List Nat) : Option Nat := path.foldlM s.child root

end Kmem

/-- The indices that lead to the table with the leaf of a virtual page. -/
def vpnPath (vpn : Nat) : List Nat := [vpn / 512 / 512 % 512, vpn / 512 % 512]

namespace Kmem

/-- Address of the leaf of a virtual page, if its table exists. -/
def leafSlot (s : Kmem) (root vpn : Nat) : Option Nat :=
  (s.tableAt root (vpnPath vpn)).map fun t => pteAddr t (vpn % 512)

/-- The leaf of a virtual page, 0 without a table for it. -/
def leafPte (s : Kmem) (root vpn : Nat) : Nat := ((s.leafSlot root vpn).map s.pte).getD 0

variable {s : Kmem} {root : Nat}

@[simp] theorem tableAt_nil (s : Kmem) (root : Nat) : s.tableAt root [] = some root := rfl

theorem tableAt_concat (s : Kmem) (root i : Nat) (path : List Nat) :
    s.tableAt root (path ++ [i]) = (s.tableAt root path).bind fun t => s.child t i := by
  unfold tableAt
  rw [List.foldlM_append]
  simp only [List.foldlM_cons, List.foldlM_nil, bind_pure]
  rfl

end Kmem

/-- Paths to the tables of a page table of three levels. -/
def IsPath (path : List Nat) : Prop := path.length ≤ 2 ∧ ∀ i ∈ path, i < 512

theorem isPath_vpnPath (vpn : Nat) : IsPath (vpnPath vpn) := by
  refine ⟨Nat.le_refl 2, fun i hi => ?_⟩
  simp only [vpnPath, List.mem_cons, List.not_mem_nil, or_false] at hi
  omega

theorem IsPath.concat {path : List Nat} {i : Nat} (h : IsPath (path ++ [i])) :
    IsPath path ∧ path.length ≤ 1 ∧ i < 512 := by
  obtain ⟨hlen, hlt⟩ := h
  rw [List.length_append, List.length_singleton] at hlen
  exact ⟨⟨by omega, fun j hj => hlt j (List.mem_append_left _ hj)⟩, by omega, hlt i (by simp)⟩

theorem isPath_concat {path : List Nat} {i : Nat} (h : IsPath path) (hlen : path.length ≤ 1) (hi : i < 512) :
    IsPath (path ++ [i]) := by
  refine ⟨by simp only [List.length_append, List.length_singleton]; omega, fun j hj => ?_⟩
  rcases List.mem_append.mp hj with hj | hj
  · exact h.2 j hj
  · rw [List.mem_singleton.mp hj]
    exact hi

/-- A virtual page is found by its path and its index in the last table. -/
theorem vpn_of_path {v v' : Nat} (hv : v < 2 ^ 26) (hv' : v' < 2 ^ 26) (hpath : vpnPath v' = vpnPath v)
    (hidx : v' % 512 = v % 512) : v' = v := by
  simp only [vpnPath, List.cons.injEq, and_true] at hpath
  omega

/-- The page table with the given root: its tables are the pages owned as such,
each with one reference and none in the upper half, and the valid entries of
directories have no permission bits. -/
structure PageTable (s : Kmem) (own : Nat → Option Owner) (root : Nat) : Prop where
  owner : ∀ path pa, own pa = some (.table root path) ↔ IsPath path ∧ s.tableAt root path = some pa
  dirs : ∀ path t i, IsPath (path ++ [i]) → s.tableAt root path = some t →
    Has (s.pte (pteAddr t i)) PTE_V → pte_flags (s.pte (pteAddr t i)) = PTE_V
  single : ∀ path pa, own pa = some (.table root path) → (s.pa_to_page pa).refcount = 1
  low : ∀ path pa, own pa = some (.table root path) → ∀ i ∈ path.head?, i < 256

/-- The tables below one root. -/
def Owner.IsTable (root : Nat) (o : Owner) : Prop := ∃ path, o = .table root path

/-- A table on the way from the root to the leaf of one page. -/
def Owner.OnPath (root v : Nat) (o : Owner) : Prop := ∃ path, path <+: vpnPath v ∧ o = .table root path

def Owner.OnPaths (root v n : Nat) (o : Owner) : Prop := ∃ u, v ≤ u ∧ u < v + n ∧ o.OnPath root u

theorem pteAddr_range {t i : Nat} (hi : i < 512) : t ≤ pteAddr t i ∧ pteAddr t i + 8 ≤ t + PG_SIZE := by
  simp only [pteAddr, PG_SIZE]
  omega

theorem SamePage.pte {s s' : Kmem} {t i : Nat} (h : SamePage s s' t) (hi : i < 512) :
    s'.pte (pteAddr t i) = s.pte (pteAddr t i) := by
  unfold Kmem.pte
  rw [h.loadWord (pteAddr_range hi).1 (pteAddr_range hi).2]

theorem SamePage.child {s s' : Kmem} {t i : Nat} (h : SamePage s s' t) (hi : i < 512) :
    s'.child t i = s.child t i := by
  unfold Kmem.child
  rw [h.pte hi]

@[simp] theorem pte_setPte (s : Kmem) (a v : Nat) : (s.setPte a v).pte a = v % 2 ^ 64 := by
  unfold Kmem.pte Kmem.setPte
  rw [Mem.loadWord_storeWord, BitVec.toNat_ofNat]

theorem pte_setPte_of_ne (s : Kmem) {a b : Nat} (v : Nat) (h : b + 8 ≤ a ∨ a + 8 ≤ b) :
    (s.setPte a v).pte b = s.pte b := by
  unfold Kmem.pte Kmem.setPte
  rw [Mem.loadWord_storeWord_of_disjoint _ _ h]

@[simp] theorem setPte_pa_to_page (s : Kmem) (a v pa : Nat) :
    (s.setPte a v).pa_to_page pa = s.pa_to_page pa := rfl

namespace PageTable

variable {s s' : Kmem} {own own' : Nat → Option Owner} {root t v : Nat} {path : List Nat}

theorem root_owned (h : PageTable s own root) : own root = some (.table root []) :=
  (h.owner [] root).mpr ⟨⟨Nat.zero_le 2, by simp⟩, rfl⟩

theorem owned (h : PageTable s own root) (hpath : IsPath path) (ht : s.tableAt root path = some t) :
    own t = some (.table root path) := (h.owner path t).mpr ⟨hpath, ht⟩

/-- Different paths lead to different tables. -/
theorem path_inj (h : PageTable s own root) {path' : List Nat} (hpath : IsPath path) (hpath' : IsPath path')
    (ht : s.tableAt root path = some t) (ht' : s.tableAt root path' = some t) : path' = path := by
  have howned := h.owned hpath ht
  rw [h.owned hpath' ht'] at howned
  cases howned
  rfl

/-- The upper half of the addresses is never mapped. -/
theorem leafPte_upper (h : PageTable s own root) (hlo : 2 ^ 26 ≤ v) (hhi : v < 2 ^ 27) : s.leafPte root v = 0 := by
  cases ht : s.tableAt root (vpnPath v) with
  | none => simp [Kmem.leafPte, Kmem.leafSlot, ht]
  | some t =>
    have hlow := h.low _ t (h.owned (isPath_vpnPath v) ht) (v / 512 / 512 % 512) rfl
    omega

/-- What does not touch the tables of a root does not change its page table. -/
theorem tableAt_frame (h : PageTable s own root)
    (hsame : ∀ path pa, own pa = some (.table root path) → SamePage s s' pa) (hpath : IsPath path) :
    s'.tableAt root path = s.tableAt root path := by
  induction path using List.reverseRecOn with
  | nil => rfl
  | append_singleton path i ih =>
    obtain ⟨hpath', -, hi⟩ := hpath.concat
    rw [Kmem.tableAt_concat, Kmem.tableAt_concat, ih hpath']
    cases ht : s.tableAt root path with
    | none => rfl
    | some t => exact (hsame path t (h.owned hpath' ht)).child hi

theorem leafPte_frame (h : PageTable s own root)
    (hsame : ∀ path pa, own pa = some (.table root path) → SamePage s s' pa) :
    s'.leafSlot root = s.leafSlot root ∧ s'.leafPte root = s.leafPte root := by
  have hslot : s'.leafSlot root = s.leafSlot root := by
    funext v
    unfold Kmem.leafSlot
    rw [h.tableAt_frame hsame (isPath_vpnPath v)]
  refine ⟨hslot, ?_⟩
  funext v
  unfold Kmem.leafPte
  rw [hslot, Kmem.leafSlot]
  cases ht : s.tableAt root (vpnPath v) with
  | none => rfl
  | some t => exact (hsame _ t (h.owned (isPath_vpnPath v) ht)).pte (Nat.mod_lt _ (by decide))

theorem of_same (h : PageTable s own root)
    (howner : ∀ path pa, own' pa = some (.table root path) ↔ own pa = some (.table root path))
    (hsame : ∀ path pa, own pa = some (.table root path) → SamePage s s' pa) : PageTable s' own' root := by
  refine ⟨fun path pa => ?_, fun path t i hpath ht hv => ?_, fun path pa hpa => ?_, fun path pa hpa => ?_⟩
  · rw [howner, h.owner]
    exact and_congr_right fun hpath => by rw [h.tableAt_frame hsame hpath]
  · obtain ⟨hpath', -, hi⟩ := hpath.concat
    rw [h.tableAt_frame hsame hpath'] at ht
    rw [(hsame path t (h.owned hpath' ht)).pte hi] at hv ⊢
    exact h.dirs path t i hpath ht hv
  · rw [howner] at hpa
    rw [(hsame path pa hpa).page]
    exact h.single path pa hpa
  · rw [howner] at hpa
    exact h.low path pa hpa

/-- The page table of one root is apart from what happens to other pages. -/
theorem frame {T : Owner → Prop} (h : PageTable s own root) (ht : Touches T s s' own own')
    (hT : ∀ path, ¬ T (.table root path)) : PageTable s' own' root :=
  h.of_same (fun path pa => ht.owner pa _ (hT path)) fun path pa hpa => ht.same pa _ hpa (hT path)

theorem leafPte_touches {T : Owner → Prop} (h : PageTable s own root) (ht : Touches T s s' own own')
    (hT : ∀ path, ¬ T (.table root path)) :
    s'.leafSlot root = s.leafSlot root ∧ s'.leafPte root = s.leafPte root :=
  h.leafPte_frame fun path pa hpa => ht.same pa _ hpa (hT path)

theorem leafSlot_some (h : PageTable s own root) {a : Nat} (ha : s.leafSlot root v = some a) :
    ∃ t, own t = some (.table root (vpnPath v)) ∧ s.tableAt root (vpnPath v) = some t ∧
      a = pteAddr t (v % 512) := by
  obtain ⟨t, ht, rfl⟩ := Option.map_eq_some_iff.mp ha
  exact ⟨t, h.owned (isPath_vpnPath v) ht, ht, rfl⟩

theorem slot_ne_zero (h : PageTable s own root) (hp : Pages s own) {a : Nat} (ha : s.leafSlot root v = some a) :
    a ≠ 0 := by
  obtain ⟨t, hown, -, rfl⟩ := h.leafSlot_some ha
  have hrange := hp.range_of hown
  simp only [pteAddr, KERN_BASE] at hrange ⊢
  omega

/-- Each slot is the leaf of one virtual page. -/
theorem slot_inj (h : PageTable s own root) (hp : Pages s own) {a v' : Nat} (hv : v < 2 ^ 26) (hv' : v' < 2 ^ 26)
    (ha : s.leafSlot root v = some a) (ha' : s.leafSlot root v' = some a) : v' = v := by
  obtain ⟨t, hown, ht, rfl⟩ := h.leafSlot_some ha
  obtain ⟨t', hown', ht', heq⟩ := h.leafSlot_some ha'
  have hrange := pteAddr_range (t := t) (Nat.mod_lt v (by decide : 0 < 512))
  have hrange' := pteAddr_range (t := t') (Nat.mod_lt v' (by decide : 0 < 512))
  obtain rfl : t = t' := by
    by_contra hne
    have hapart := hp.apart_of hown hown' hne
    omega
  refine vpn_of_path hv hv' (h.path_inj (isPath_vpnPath v) (isPath_vpnPath v') ht ht') ?_
  simp only [pteAddr] at heq
  omega

/-- Writing the leaf of a virtual page changes that leaf only. -/
theorem setLeaf (h : PageTable s own root) (hp : Pages s own) {a x : Nat} (hv : v < 2 ^ 26) (hx : x < 2 ^ 64)
    (ha : s.leafSlot root v = some a) :
    PageTable (s.setPte a x) own root ∧ (s.setPte a x).leafSlot root = s.leafSlot root ∧
      (s.setPte a x).leafPte root v = x ∧
      ∀ v' < 2 ^ 26, v' ≠ v → (s.setPte a x).leafPte root v' = s.leafPte root v' := by
  obtain ⟨t, hown, ht, rfl⟩ := h.leafSlot_some ha
  have hidx : v % 512 < 512 := Nat.mod_lt _ (by decide)
  have hrange := pteAddr_range (t := t) hidx
  have hout : ∀ q, own q ≠ none → q ≠ t → SamePage s (s.setPte (pteAddr t (v % 512)) x) q := by
    intro q hq hne
    refine ⟨fun y hlo hhi => ?_, rfl⟩
    have hapart := hp.apart hq (by rw [hown]; simp) hne
    exact Mem.storeWord_of_outside _ _ (by omega)
  -- only the last level is written, so no path changes
  have hpaths : ∀ path, IsPath path → (s.setPte (pteAddr t (v % 512)) x).tableAt root path = s.tableAt root path := by
    intro path hpath
    induction path using List.reverseRecOn with
    | nil => rfl
    | append_singleton path i ih =>
      obtain ⟨hpath', hlen, hi⟩ := hpath.concat
      rw [Kmem.tableAt_concat, Kmem.tableAt_concat, ih hpath']
      cases hq : s.tableAt root path with
      | none => rfl
      | some q =>
        have hqo := h.owned hpath' hq
        apply (hout q (by rw [hqo]; simp) ?_).child hi
        rintro rfl
        rw [hown] at hqo
        cases hqo
        simp [vpnPath] at hlen
  have hslots : (s.setPte (pteAddr t (v % 512)) x).leafSlot root = s.leafSlot root := by
    funext v'
    unfold Kmem.leafSlot
    rw [hpaths _ (isPath_vpnPath v')]
  refine ⟨⟨fun path pa => ?_, fun path q i hpath hq hval => ?_, fun path pa hpa => ?_, h.low⟩, hslots, ?_, ?_⟩
  · rw [h.owner]
    exact and_congr_right fun hpath => by rw [hpaths path hpath]
  · obtain ⟨hpath', hlen, hi⟩ := hpath.concat
    rw [hpaths path hpath'] at hq
    have hqo := h.owned hpath' hq
    have hqt : q ≠ t := by
      rintro rfl
      rw [hown] at hqo
      cases hqo
      simp [vpnPath] at hlen
    rw [(hout q (by rw [hqo]; simp) hqt).pte hi] at hval ⊢
    exact h.dirs path q i hpath hq hval
  · exact h.single path pa hpa
  · unfold Kmem.leafPte
    rw [hslots, ha]
    simpa using hx
  · intro v' hv' hne
    unfold Kmem.leafPte
    rw [hslots, Kmem.leafSlot]
    cases hq : s.tableAt root (vpnPath v') with
    | none => rfl
    | some q =>
      have hqo := h.owned (isPath_vpnPath v') hq
      simp only [Option.map_some, Option.getD_some]
      by_cases hqt : q = t
      · subst hqt
        have hpath := h.path_inj (isPath_vpnPath v) (isPath_vpnPath v') ht hq
        have hne' : v' % 512 ≠ v % 512 := fun heq => hne (vpn_of_path hv hv' hpath heq)
        apply pte_setPte_of_ne
        simp only [pteAddr]
        omega
      · exact (hout q (by rw [hqo]; simp) hqt).pte (Nat.mod_lt _ (by decide))

/-- Writing inside a table touches the tables of its root only. -/
theorem touches_leaf {T : Owner → Prop} (h : PageTable s own root) (hp : Pages s own) {a x : Nat}
    (ha : s.leafSlot root v = some a) (hT : T (.table root (vpnPath v))) : Touches T s (s.setPte a x) own own := by
  obtain ⟨t, hown, -, rfl⟩ := h.leafSlot_some ha
  have hrange := pteAddr_range (t := t) (Nat.mod_lt v (by decide : 0 < 512))
  apply Touches.write hp
  intro y hy
  have hnot := hy t _ hown hT
  exact Mem.storeWord_of_outside _ _ (by omega)

theorem touches_setPte (h : PageTable s own root) (hp : Pages s own) {a x : Nat}
    (ha : s.leafSlot root v = some a) :
    Pages (s.setPte a x) own ∧ Touches (Owner.IsTable root) s (s.setPte a x) own own := by
  refine ⟨?_, h.touches_leaf hp ha ⟨_, rfl⟩⟩
  obtain ⟨t, hown, -, rfl⟩ := h.leafSlot_some ha
  have hrange := pteAddr_range (t := t) (Nat.mod_lt v (by decide : 0 < 512))
  apply hp.write
  intro y hy
  have hnot := hy t (by rw [hown]; simp)
  exact Mem.storeWord_of_outside _ _ (by omega)

end PageTable

end bobchouos
