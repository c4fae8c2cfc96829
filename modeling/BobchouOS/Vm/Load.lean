import BobchouOS.Vm.Elf
import BobchouOS.Vm.Unmap

open lib

namespace bobchouos

namespace Vm

variable {E : Halt → Prop} {s s' s'' : Kmem} {own own' own'' : Nat → Option Owner} {roots : List Nat}
  {r v n m perm : Nat} {f g : Nat → BitVec 8} {image : Mem} {k : Symbols} {trapframe : Nat} {vmas vmas' : List Vma}
  {others procs : List Nat} {ph : Phdr}

/-- No page of the address space is shared. -/
def Private (s : Kmem) (r : Nat) : Prop :=
  ∀ v pa w, s.entry r v = some (pa, w) → (s.pa_to_page pa).refcount = 1

/-- New pages at `[v, v + n)` with the bytes `f` gives for their addresses. -/
structure Loaded (s s' : Kmem) (own own' : Nat → Option Owner) (roots : List Nat) (r v n perm : Nat)
    (f : Nat → BitVec 8) : Prop where
  spaces : Spaces s' own' roots
  effect : Effect (Owner.InSpace r) roots s s' own own'
  alone : Private s r → Private s' r
  empty : ∀ u, v ≤ u → u < v + n → u < USER_VPNS ∧ ¬ Has (s.leafPte r u) PTE_V
  leaf : ∀ u, v ≤ u → u < v + n → Agrees perm (s'.leafPte r u) ∧ ¬ Has (s'.leafPte r u) PTE_COW
  outside : ∀ u < 2 ^ 26, u < v ∨ v + n ≤ u → s'.leafPte r u = s.leafPte r u
  view : ∀ y, s'.view r y = if v ≤ y / PG_SIZE ∧ y / PG_SIZE < v + n then f y else s.view r y

namespace Loaded

theorem refl (h : Spaces s own roots) (r v perm : Nat) (f : Nat → BitVec 8) : Loaded s s own own roots r v 0 perm f := by
  refine ⟨h, .refl _ roots s own, id, fun u hlo hhi => by omega, fun u hlo hhi => by omega, fun _ _ _ => rfl, fun y => ?_⟩
  rw [if_neg (by omega)]

theorem append (h : Loaded s s' own own' roots r v n perm f) (h' : Loaded s' s'' own' own'' roots r (v + n) m perm f) :
    Loaded s s'' own own'' roots r v (n + m) perm f := by
  refine ⟨h'.spaces, h.effect.trans h'.effect, h'.alone ∘ h.alone, fun u hlo hhi => ?_, fun u hlo hhi => ?_,
    fun u hu hout => ?_, fun y => ?_⟩
  · by_cases hmid : u < v + n
    · exact h.empty u hlo hmid
    · obtain ⟨hlt, hempty⟩ := h'.empty u (by omega) (by omega)
      rw [h.outside u (USER_VPNS_lt hlt) (by omega)] at hempty
      exact ⟨hlt, hempty⟩
  · by_cases hmid : u < v + n
    · rw [h'.outside u (USER_VPNS_lt (h.empty u hlo hmid).1) (.inl hmid)]
      exact h.leaf u hlo hmid
    · exact h'.leaf u (by omega) (by omega)
  · rw [h'.outside u hu (by omega), h.outside u hu (by omega)]
  · rw [h'.view, h.view]
    split_ifs <;> first | rfl | omega

theorem congr (h : Loaded s s' own own' roots r v n perm f)
    (hfg : ∀ y, v ≤ y / PG_SIZE → y / PG_SIZE < v + n → f y = g y) : Loaded s s' own own' roots r v n perm g := by
  refine ⟨h.spaces, h.effect, h.alone, h.empty, h.leaf, h.outside, fun y => ?_⟩
  rw [h.view]
  split
  · rename_i hy
    exact hfg y hy.1 hy.2
  · rfl

/-- Tables may have been added after the last page. -/
theorem grown (h : Spaces s own roots) (hr : r ∈ roots) (hg : Grown s s' own own' r) (v perm : Nat) (f : Nat → BitVec 8) :
    Loaded s s' own own' roots r v 0 perm f := by
  obtain ⟨hsp, heff⟩ := h.grown hr hg
  refine ⟨hsp, heff.mono fun _ => .inl, fun halone u pa w he => ?_, fun u hlo hhi => by omega, fun u hlo hhi => by omega,
    fun u _ _ => by rw [hg.leaf], fun y => ?_⟩
  · rw [entry_congr (s := s) (by rw [hg.leaf])] at he
    rw [(hg.touches.same pa _ (h.entry_owned hr he) (user_not_table r u)).page]
    exact halone u pa w he
  · rw [if_neg (by omega), h.view_of_leafPte hr hg.touches (user_not_table r) hg.leaf]

/-- One page that was filled before it was mapped. -/
theorem of_entered {s₀ : Kmem} {pg : Nat} (h : Spaces s₀ own roots) (hr : r ∈ roots) (hperm : perm &&& USER_PERMS = perm)
    (he : Entered s₀ s s' own own' roots r v pg (pa_to_pte pg ||| leafFlags perm))
    (hf : ∀ y, y / PG_SIZE = v → s.mem (pg + y % PG_SIZE) = f y) : Loaded s₀ s' own own' roots r v 1 perm f := by
  have hrange := he.spaces.pages.range_of he.owner
  have hlt : pg < 2 ^ 56 := by
    simp only [PHYS_STOP] at hrange
    omega
  have hleaf : s'.leafPte r v = pa_to_pte pg ||| leafFlags perm := by rw [he.leaf v (USER_VPNS_lt he.vpn_lt), if_pos rfl]
  refine ⟨he.spaces, he.effect, fun halone u pa w hentry => ?_, fun u hlo hhi => ?_, fun u hlo hhi => ?_, fun u hu hout => ?_,
    fun y => ?_⟩
  · by_cases huv : u = v
    · subst huv
      obtain ⟨-, -, hpa, -⟩ := entry_some hentry
      rw [← hpa, hleaf, (leaf_parts hrange.1 hlt (perm_lt hperm)).1]
      exact he.count
    · have hu := (entry_some hentry).1
      rw [entry_congr (s := s₀) (by rw [he.leaf u (USER_VPNS_lt hu), if_neg huv])] at hentry
      rw [(he.old pa u (h.entry_owned hr hentry)).page]
      exact halone u pa w hentry
  · obtain rfl : u = v := by omega
    exact ⟨he.vpn_lt, he.empty⟩
  · obtain rfl : u = v := by omega
    rw [hleaf]
    exact ⟨agrees_new hrange.1 hlt hperm, not_cow_new hrange.1 hlt hperm⟩
  · rw [he.leaf u hu, if_neg (by omega)]
  · rw [he.view]
    by_cases hy : y / PG_SIZE = v
    · rw [if_pos hy, if_pos (by omega), hf y hy]
    · rw [if_neg hy, if_neg (by omega)]

end Loaded

/-- The byte at an offset of a segment with `left` bytes in the file at `src`. -/
def segByte (image : Mem) (src left off : Nat) : BitVec 8 := if off < left then image (src + off) else 0

theorem loadPages_spec {src left : Nat} (h : Spaces s own roots) (hr : r ∈ roots) (htop : TopUsed s r)
    (hperm : perm &&& USER_PERMS = perm)
    (hhigh : (∃ u, v ≤ u ∧ u < v + n ∧ MAX_VA ≤ u * PG_SIZE) → E (.panic "walk: va >= MAX_VA"))
    (hdouble : (∃ u, v ≤ u ∧ u < v + n ∧ (u < 2 ^ 26 → Has (s.leafPte r u) PTE_V)) → E (.panic "map_pages: double-map va=%p")) :
    wpe E (loadPages image r perm n (v * PG_SIZE) src left) (fun ok s' => ∃ own' m, m ≤ n ∧ (ok = true → m = n) ∧
      Loaded s s' own own' roots r v m perm fun y => segByte image src left (y - v * PG_SIZE)) s := by
  induction n generalizing s own v src left with
  | zero =>
    rw [loadPages, wpe_pure]
    exact ⟨own, 0, Nat.le_refl 0, fun _ => rfl, .refl h r v perm _⟩
  | succ n ih =>
    have hpage : v * PG_SIZE / PG_SIZE = v := Nat.mul_div_cancel _ (by decide)
    have hnext : v * PG_SIZE + PG_SIZE = (v + 1) * PG_SIZE := (Nat.succ_mul v PG_SIZE).symm
    obtain ⟨chunk, hchunk⟩ : ∃ chunk, chunk = if left > PG_SIZE then PG_SIZE else left := ⟨_, rfl⟩
    have hle : chunk ≤ PG_SIZE := by
      rw [hchunk]
      split <;> omega
    simp only [loadPages, wpe_bind, wpe_ite, wpe_pure, wpe_modify, ← hchunk, hnext]
    refine wpe_mono h.pages.kalloc_spec.wpe ?_
    rintro pg s1 (⟨rfl, rfl, -⟩ | hf)
    · exact ⟨fun _ => ⟨own, 0, Nat.zero_le _, by simp, .refl h r v perm _⟩, fun hne => absurd rfl hne⟩
    refine ⟨fun hz => absurd hz hf.ne_zero, fun _ => ?_⟩
    have hheld : Held 0 s { s1 with mem := s1.mem.storeBytes pg (image.loadBytes src chunk) } own pg :=
      hf.toHeld.write fun x hx => Mem.storeBytes_of_outside _ _ (by rw [Mem.length_loadBytes]; omega)
    have hbyte : ∀ i < PG_SIZE, s1.mem.storeBytes pg (image.loadBytes src chunk) (pg + i) = segByte image src left i := by
      intro i hi
      unfold segByte
      by_cases hin : i < chunk
      · rw [Mem.storeBytes_of_inside _ _ (by simpa using hin), Mem.getD_loadBytes _ hin, if_pos]
        rw [hchunk] at hin
        split at hin <;> omega
      · rw [Mem.storeBytes_of_outside _ _ (by rw [Mem.length_loadBytes]; omega), hf.zero _ (by omega) (by omega), if_neg]
        rw [hchunk] at hin
        split at hin <;> omega
    refine wpe_mono (h.map_new_spec hr htop hheld (perm_lt hperm) (Nat.mul_mod_left _ _)
      (fun hmax => hhigh ⟨v, Nat.le_refl v, by omega, hmax⟩) fun hvalid => ?_) ?_
    · rw [hpage] at hvalid
      exact hdouble ⟨v, Nat.le_refl v, by omega, fun _ => hvalid⟩
    rw [hpage]
    rintro ret s2 (⟨rfl, hfree⟩ | ⟨rfl, own2, hent⟩)
    · refine ⟨fun _ => wpe_mono hfree.wpe ?_, fun hge => absurd (by decide) hge⟩
      rintro _ s3 ⟨-, own3, hg⟩
      exact ⟨own3, 0, Nat.zero_le _, by simp, .grown h hr hg v perm _⟩
    · refine ⟨fun hlt => absurd hlt (by decide), fun _ => ?_⟩
      have hone : Loaded s s2 own own2 roots r v 1 perm fun y => segByte image src left (y - v * PG_SIZE) := by
        refine .of_entered h hr hperm hent fun y hy => ?_
        refine (hbyte _ (Nat.mod_lt _ (by decide))).trans (congrArg _ ?_)
        have hdiv := Nat.div_add_mod y PG_SIZE
        rw [hy, Nat.mul_comm] at hdiv
        omega
      have htop2 : TopUsed s2 r := by
        intro u hlo hhi
        rw [hone.outside u hhi (by have := hent.vpn_lt; omega)]
        exact htop u hlo hhi
      refine wpe_mono (ih hone.spaces htop2 ?_ ?_) ?_
      · rintro ⟨u, hlo, hhi, hmax⟩
        exact hhigh ⟨u, by omega, by omega, hmax⟩
      · rintro ⟨u, hlo, hhi, hvalid⟩
        refine hdouble ⟨u, by omega, by omega, fun hu => ?_⟩
        rw [← hone.outside u hu (by omega)]
        exact hvalid hu
      rintro ok s3 ⟨own3, m, hm, hall, hrest⟩
      refine ⟨own3, 1 + m, by omega, fun hok => by rw [hall hok]; omega, hone.append (hrest.congr fun y hlo hhi => ?_)⟩
      have hdiv := Nat.div_add_mod y PG_SIZE
      have hlow : (v + 1) * PG_SIZE ≤ y := by
        rw [← hdiv, Nat.mul_comm PG_SIZE]
        exact Nat.le_trans (Nat.mul_le_mul_right _ hlo) (Nat.le_add_right _ _)
      rw [← hnext] at hlow ⊢
      unfold segByte
      rw [hchunk]
      split
      · rw [show src + PG_SIZE + (y - (v * PG_SIZE + PG_SIZE)) = src + (y - v * PG_SIZE) by omega]
        exact if_congr (by omega) rfl rfl
      · rw [if_neg (by omega), if_neg (by omega)]

/-- The program headers of loadable segments among `left` headers from `i` on. -/
def loads (image : Mem) : Nat → Nat → List Phdr
  | 0, _ => []
  | left + 1, i =>
    if (phdr image i).p_type = PT_LOAD then phdr image i :: loads image left (i + 1) else loads image left (i + 1)

/-- The area of a segment. -/
def Phdr.area (ph : Phdr) (addr : Nat) : Vma := ⟨addr, ph.start, ph.end_, elf_to_pte ph.p_flags, 0⟩

theorem elf_to_pte_perm (flags : Nat) :
    elf_to_pte flags &&& USER_PERMS = elf_to_pte flags ∧ Has (elf_to_pte flags) PTE_U := by
  unfold elf_to_pte
  split_ifs <;> decide

theorem Phdr.start_aligned (ph : Phdr) : ph.start % PG_SIZE = 0 := (PG_ROUND_DOWN_aligned _).1

theorem Phdr.end_aligned (ph : Phdr) : ph.end_ % PG_SIZE = 0 := (PG_ROUND_UP_aligned _).1

theorem phdr_start_lt (image : Mem) (i : Nat) : (phdr image i).start < 2 ^ 64 :=
  Nat.lt_of_le_of_lt (PG_ROUND_DOWN_aligned _).2 (Nat.mod_lt _ (by decide))

/-- The pages of a segment with their permissions and bytes. -/
structure Installed (image : Mem) (s : Kmem) (r : Nat) (ph : Phdr) : Prop where
  leaf : ∀ y, ph.start ≤ y → y < ph.end_ → y / PG_SIZE < USER_VPNS ∧
    Agrees (elf_to_pte ph.p_flags) (s.leafPte r (y / PG_SIZE)) ∧ ¬ Has (s.leafPte r (y / PG_SIZE)) PTE_COW
  view : ∀ y, ph.start ≤ y → y < ph.end_ → s.view r y = segByte image ph.p_offset ph.p_filesz (y - ph.start)

/-- A step of the build phase of `proc_exec`: what is mapped stays. -/
structure Built (s s' : Kmem) (own own' : Nat → Option Owner) (roots : List Nat) (r : Nat) : Prop where
  effect : Effect (OfAreas r) roots s s' own own'
  alone : Private s r → Private s' r
  keep : ∀ u < 2 ^ 26, Has (s.leafPte r u) PTE_V → s'.leafPte r u = s.leafPte r u
  view : ∀ y, s.entry r (y / PG_SIZE) ≠ none → s'.view r y = s.view r y

namespace Built

theorem refl (s : Kmem) (own : Nat → Option Owner) (roots : List Nat) (r : Nat) : Built s s own own roots r :=
  ⟨.refl _ roots s own, id, fun _ _ _ => rfl, fun _ _ => rfl⟩

theorem trans (h : Built s s' own own' roots r) (h' : Built s' s'' own' own'' roots r) :
    Built s s'' own own'' roots r := by
  refine ⟨h.effect.trans h'.effect, h'.alone ∘ h.alone, fun u hu hvalid => ?_, fun y he => ?_⟩
  · have heq := h.keep u hu hvalid
    rw [h'.keep u hu (by rwa [heq]), heq]
  · obtain ⟨hv, hvalid⟩ := entry_ne_none.mp he
    rw [h'.view y, h.view y he]
    exact entry_ne_none.mpr ⟨hv, by rwa [h.keep _ (USER_VPNS_lt hv) hvalid]⟩

theorem of_loaded (h : Loaded s s' own own' roots r v n perm f) : Built s s' own own' roots r := by
  refine ⟨h.effect.mono fun _ => .inl, h.alone, fun u hu hvalid => h.outside u hu ?_, fun y he => ?_⟩
  · by_contra hin
    exact (h.empty u (by omega) (by omega)).2 hvalid
  · rw [h.view, if_neg]
    rintro ⟨hlo, hhi⟩
    exact (h.empty _ hlo hhi).2 (entry_ne_none.mp he).2

theorem of_slab {c : Nat} (h : Spaces s own roots) (hr : r ∈ roots) (hc : c = VMA_CLASS)
    (ht : Touches (· = .slab c) s s' own own') : Built s s' own own' roots r := by
  have hleaf := h.leafPte_frame ht (by simp) hr
  refine ⟨⟨ht.mono fun o ho => .inr (by rw [ho, hc]), fun r' hr' _ => ?_⟩, fun halone v pa w he => ?_,
    fun u _ _ => by rw [hleaf], fun y _ => ?_⟩
  · exact h.view_of_leafPte hr' ht (by simp) (h.leafPte_frame ht (by simp) hr')
  · rw [entry_congr (s := s) (by rw [hleaf])] at he
    rw [(ht.same pa _ (h.entry_owned hr he) (by simp)).page]
    exact halone v pa w he
  · rw [h.view_of_leafPte hr ht (by simp) hleaf]

theorem topUsed (h : Built s s' own own' roots r) (htop : TopUsed s r) : TopUsed s' r := by
  intro u hlo hhi
  rw [h.keep u hhi (htop u hlo hhi)]
  exact htop u hlo hhi

theorem installed (h : Built s s' own own' roots r) (hi : Installed image s r ph) : Installed image s' r ph := by
  have hleaf : ∀ y, ph.start ≤ y → y < ph.end_ → s'.leafPte r (y / PG_SIZE) = s.leafPte r (y / PG_SIZE) := by
    intro y hlo hhi
    obtain ⟨hv, hagrees, -⟩ := hi.leaf y hlo hhi
    exact h.keep _ (USER_VPNS_lt hv) hagrees.valid
  refine ⟨fun y hlo hhi => ?_, fun y hlo hhi => ?_⟩
  · rw [hleaf y hlo hhi]
    exact hi.leaf y hlo hhi
  · obtain ⟨hv, hagrees, -⟩ := hi.leaf y hlo hhi
    rw [h.view y (entry_ne_none.mpr ⟨hv, hagrees.valid⟩), hi.view y hlo hhi]

end Built

/-- The pages of a segment, once all of them are loaded. -/
theorem Loaded.installed (h : Loaded s s' own own' roots r (ph.start / PG_SIZE) (nrPages ph.start ph.end_)
    (elf_to_pte ph.p_flags) fun y => segByte image ph.p_offset ph.p_filesz (y - ph.start)) : Installed image s' r ph := by
  have hmem := mem_pages ph.start_aligned ph.end_aligned
  refine ⟨fun y hlo hhi => ?_, fun y hlo hhi => ?_⟩
  · obtain ⟨hlo, hhi⟩ := (hmem y).mp ⟨hlo, hhi⟩
    exact ⟨(h.empty _ hlo hhi).1, h.leaf _ hlo hhi⟩
  · rw [h.view, if_pos ((hmem y).mp ⟨hlo, hhi⟩)]

/-- An area all of whose pages could be mapped ends below the trapframe. -/
theorem Installed.end_le (h : Installed image s r ph) (hpos : ph.start < ph.end_) : ph.end_ ≤ TRAPFRAME := by
  have hend := ph.end_aligned
  have hlast := (h.leaf (ph.end_ - 1) (by omega) (by omega)).1
  simp only [USER_VPNS, TRAPFRAME, TRAMPOLINE, MAX_VA, PG_SIZE] at *
  omega

theorem Installed.area_ok (h : Installed image s r ph) (hlt : ph.start < 2 ^ 64) (addr : Nat) : (ph.area addr).Ok :=
  ⟨ph.start_aligned, ph.end_aligned, hlt, (PG_ROUND_UP_aligned _).2, (elf_to_pte_perm _).1, (elf_to_pte_perm _).2,
    fun hpos => .inl (h.end_le hpos)⟩

/-- A new area that agrees with the pages it covers. -/
theorem addArea {a : Vma} (h : AddrSpace k s r trapframe vmas) (hb : Built s s' own own' roots r) (ha : a.Ok)
    (hnew : ∀ v < USER_VPNS, Has (s'.leafPte r v) PTE_V → Has (s.leafPte r v) PTE_V ∨
      a.Covers (v * PG_SIZE) ∧ Agrees a.perm (s'.leafPte r v)) : AddrSpace k s' r trapframe (vmas ++ [a]) := by
  have htop := fun v (hlo : USER_VPNS ≤ v) (hhi : v < 2 ^ 26) => hb.keep v hhi (h.topUsed v hlo hhi)
  refine ⟨?_, ?_, fun v hv hvalid => ?_, fun b hb => ?_⟩
  · rw [htop _ (by decide) (by decide), h.trampoline_leaf]
  · rw [htop _ (by decide) (by decide), h.trapframe_leaf]
  · rcases hnew v hv hvalid with hold | hin
    · obtain ⟨b, hmem, hcov, hagrees⟩ := h.covered v hv hold
      rw [hb.keep v (USER_VPNS_lt hv) hold]
      exact ⟨b, by simp [hmem], hcov, hagrees⟩
    · exact ⟨a, by simp, hin⟩
  · rcases List.mem_append.mp hb with hb | hb
    · exact h.areas b hb
    · rw [List.mem_singleton.mp hb]
      exact ha

/-- The segments share no pages with each other or with the stack. -/
def SegmentsApart (phs : List Phdr) : Prop :=
  phs.Pairwise (fun a b => min a.end_ b.end_ ≤ max a.start b.start) ∧
    ∀ ph ∈ phs, ph.start < ph.end_ → ph.end_ ≤ USER_STACK_BOT

instance (phs : List Phdr) : Decidable (SegmentsApart phs) := inferInstanceAs (Decidable (_ ∧ _))

/-- The segments can be loaded beside the areas there are. -/
def Room (vmas : List Vma) (phs : List Phdr) : Prop :=
  SegmentsApart phs ∧ ∀ a ∈ vmas, ∀ ph ∈ phs, min a.end_ ph.end_ ≤ max a.start ph.start

/-- The areas of the segments `phs`, after those there were. -/
def Added (phs : List Phdr) (vmas vmas' : List Vma) : Prop :=
  ∃ news, vmas' = vmas ++ news ∧ List.Forall₂ (fun ph a => a = Phdr.area ph a.addr) phs news

theorem Added.cons {phs : List Phdr} {vmas' : List Vma} {x : Nat} (h : Added phs (vmas ++ [ph.area x]) vmas') :
    Added (ph :: phs) vmas vmas' := by
  obtain ⟨news, hnews, hforall⟩ := h
  exact ⟨ph.area x :: news, by rw [hnews]; simp, .cons rfl hforall⟩

theorem SegmentsApart.sublist {phs phs' : List Phdr} (h : SegmentsApart phs) (hsub : phs'.Sublist phs) :
    SegmentsApart phs' :=
  ⟨h.1.sublist hsub, fun ph hph => h.2 ph (hsub.subset hph)⟩

namespace Room

/-- The pages of the next segment can be mapped. -/
theorem clear {phs : List Phdr} (h : Room vmas (ph :: phs)) (hsp : AddrSpace k s r trapframe vmas) {u : Nat}
    (hlo : ph.start / PG_SIZE ≤ u) (hhi : u < ph.start / PG_SIZE + nrPages ph.start ph.end_) :
    u < USER_VPNS ∧ ¬ Has (s.leafPte r u) PTE_V := by
  have hmem := mem_pages ph.start_aligned ph.end_aligned (u * PG_SIZE)
  rw [Nat.mul_div_cancel _ (by decide)] at hmem
  obtain ⟨hstart, hend⟩ := hmem.mpr ⟨hlo, hhi⟩
  have hstack := h.1.2 ph (by simp) (by omega)
  have hu : u < USER_VPNS := by
    simp only [USER_VPNS, USER_STACK_BOT, USER_STACK_TOP, STACK_MAX_PAGES, TRAPFRAME, TRAMPOLINE, MAX_VA, PG_SIZE] at *
    omega
  refine ⟨hu, fun hvalid => ?_⟩
  obtain ⟨a, ha, hcov, -⟩ := hsp.covered u hu hvalid
  have hover := h.2 a ha ph (by simp)
  have hstart' := hcov.1
  have hend' := hcov.2
  omega

theorem next {phs : List Phdr} (h : Room vmas (ph :: phs)) (x : Nat) : Room (vmas ++ [ph.area x]) phs := by
  refine ⟨h.1.sublist (List.sublist_cons_self ..), fun a ha q hq => ?_⟩
  rcases List.mem_append.mp ha with ha | ha
  · exact h.2 a ha q (by simp [hq])
  · rw [List.mem_singleton.mp ha]
    exact (List.pairwise_cons.mp h.1.1).1 q hq

end Room

/-- What loading segments yields: the areas so far, and on success everything
about the segments that were loaded. -/
structure Segments (k : Symbols) (image : Mem) (s : Kmem) (r trapframe : Nat) (phs : List Phdr) (vmas vmas' : List Vma)
    (heap_start heap_start' : Nat) : Prop where
  space : AddrSpace k s r trapframe vmas'
  areas : Added phs vmas vmas'
  installed : ∀ ph ∈ phs, Installed image s r ph
  heap : heap_start' = phs.foldl (fun h ph => max h ph.end_) heap_start

theorem loadSegments_spec {left i heap_start : Nat} (h : KernelMemory s own roots (vmas.map Vma.addr ++ others) procs)
    (hr : r ∈ roots) (hsp : AddrSpace k s r trapframe vmas) (hlow : ∀ a ∈ vmas, a.start < a.end_ → a.end_ ≤ TRAPFRAME)
    (hhigh : ¬ Room vmas (loads image left i) → E (.panic "walk: va >= MAX_VA"))
    (hdouble : ¬ Room vmas (loads image left i) → E (.panic "map_pages: double-map va=%p")) :
    wpe E (loadSegments image r left i vmas heap_start) (fun res s' => ∃ own' vmas', Built s s' own own' roots r ∧
      KernelMemory s' own' roots (vmas'.map Vma.addr ++ others) procs ∧ (∀ a ∈ vmas', a.Ok) ∧
      (∀ a ∈ vmas', a.start < a.end_ → a.end_ ≤ TRAPFRAME) ∧
      (∃ phs, phs <+: loads image left i ∧ Added phs vmas vmas') ∧ match res with
      | .error l => l = vmas'
      | .ok (l, heap_start') => l = vmas' ∧
          Segments k image s' r trapframe (loads image left i) vmas vmas' heap_start heap_start') s := by
  induction left generalizing s own i vmas heap_start with
  | zero =>
    have hadded : Added [] vmas vmas := ⟨[], by simp, .nil⟩
    rw [loadSegments, wpe_pure]
    exact ⟨own, vmas, .refl s own roots r, h, hsp.areas, hlow, ⟨[], List.nil_prefix, hadded⟩, rfl, hsp, hadded,
      by simp [loads], rfl⟩
  | succ left ih =>
    rw [loadSegments]
    rw [loads] at hhigh hdouble ⊢
    obtain ⟨ph, hph⟩ : ∃ ph, ph = phdr image i := ⟨_, rfl⟩
    simp only [← hph] at hhigh hdouble ⊢
    by_cases htype : ph.p_type = PT_LOAD
    swap
    · rw [if_neg htype] at hhigh hdouble ⊢
      rw [if_pos htype]
      exact ih h hsp hlow hhigh hdouble
    rw [if_pos htype] at hhigh hdouble ⊢
    rw [if_neg (by simp [htype])]
    have hnone : ∃ phs, phs <+: ph :: loads image left (i + 1) ∧ Added phs vmas vmas :=
      ⟨[], List.nil_prefix, [], by simp, .nil⟩
    obtain ⟨hperm, huser⟩ := elf_to_pte_perm ph.p_flags
    have hstart : ph.start = ph.start / PG_SIZE * PG_SIZE :=
      (Nat.div_mul_cancel (Nat.dvd_of_mod_eq_zero ph.start_aligned)).symm
    have hlt : ph.start < 2 ^ 64 := by
      rw [hph]
      exact phdr_start_lt image i
    have hmax : (∃ u, ph.start / PG_SIZE ≤ u ∧ u < ph.start / PG_SIZE + nrPages ph.start ph.end_ ∧ MAX_VA ≤ u * PG_SIZE) →
        E (.panic "walk: va >= MAX_VA") := by
      rintro ⟨u, hlo, hhi, hmax⟩
      refine hhigh fun hroom => ?_
      have hu := (hroom.clear hsp hlo hhi).1
      simp only [USER_VPNS, TRAPFRAME, TRAMPOLINE, MAX_VA, PG_SIZE] at *
      omega
    have hload : wpe E (loadPages image r (elf_to_pte ph.p_flags) (nrPages ph.start ph.end_)
        (ph.start / PG_SIZE * PG_SIZE) ph.p_offset ph.p_filesz) _ s :=
      loadPages_spec h.spaces hr hsp.topUsed hperm hmax fun hused => hdouble fun hroom => hused.elim fun _ hu =>
        (hroom.clear hsp hu.1 hu.2.1).2 (hu.2.2 (USER_VPNS_lt (hroom.clear hsp hu.1 hu.2.1).1))
    rw [← hstart] at hload
    simp only [wpe_bind]
    refine wpe_mono hload ?_
    rintro ok s1 ⟨own1, m, hm, hall, hl⟩
    have hb1 := Built.of_loaded hl
    have hmem1 : KernelMemory s1 own1 roots (vmas.map Vma.addr ++ others) procs :=
      ⟨hl.spaces, h.objects.frame hl.effect.touches (inSpace_not_slab r)⟩
    cases ok with
    | false =>
      simp only [Bool.false_eq_true, if_false, wpe_pure]
      exact ⟨own1, vmas, hb1, hmem1, hsp.areas, hlow, hnone, rfl⟩
    | true =>
      simp only [if_true, wpe_bind]
      obtain rfl := hall rfl
      have hinst := hl.installed
      refine wpe_mono (hmem1.vma_create_spec ph.start ph.end_ (elf_to_pte ph.p_flags) 0).wpe ?_
      rintro ret s2 (⟨rfl, rfl, -⟩ | ⟨x, own2, rfl, hmem2, ht2⟩)
      · simp only [wpe_pure]
        exact ⟨own1, vmas, hb1, hmem1, hsp.areas, hlow, hnone, rfl⟩
      have hb2 := Built.of_slab hmem1.spaces hr rfl ht2
      have hb := hb1.trans hb2
      have hleaf2 : s2.leafPte r = s1.leafPte r := hmem1.spaces.leafPte_frame ht2 (by simp) hr
      have hok := hinst.area_ok hlt x
      have hsp2 : AddrSpace k s2 r trapframe (vmas ++ [ph.area x]) := by
        refine addArea hsp hb hok fun v hv hvalid => ?_
        rw [hleaf2] at hvalid ⊢
        by_cases hin : ph.start / PG_SIZE ≤ v ∧ v < ph.start / PG_SIZE + nrPages ph.start ph.end_
        · exact .inr ⟨(hok.pages v).mpr hin, (hl.leaf v hin.1 hin.2).1⟩
        · rw [hl.outside v (USER_VPNS_lt hv) (by omega)] at hvalid
          exact .inl hvalid
      have hmem2' : KernelMemory s2 own2 roots ((vmas ++ [ph.area x]).map Vma.addr ++ others) procs := by
        refine hmem2.perm ?_ (.refl _)
        rw [List.map_append, List.append_assoc]
        exact List.perm_middle.symm
      have hlow2 : ∀ a ∈ vmas ++ [ph.area x], a.start < a.end_ → a.end_ ≤ TRAPFRAME := by
        intro a ha hpos
        rcases List.mem_append.mp ha with ha | ha
        · exact hlow a ha hpos
        · rw [List.mem_singleton.mp ha] at hpos ⊢
          exact hinst.end_le hpos
      refine wpe_mono (ih hmem2' hsp2 hlow2 (fun hno => hhigh fun hroom => hno (hroom.next x))
        fun hno => hdouble fun hroom => hno (hroom.next x)) ?_
      rintro res s3 ⟨own3, vmas3, hb3, hmem3, hareas3, hlow3, ⟨phs, hphs, hadded⟩, hres⟩
      refine ⟨own3, vmas3, hb.trans hb3, hmem3, hareas3, hlow3,
        ⟨ph :: phs, List.cons_prefix_cons.mpr ⟨rfl, hphs⟩, hadded.cons⟩, ?_⟩
      rcases res with l | ⟨l, heap3⟩
      · exact hres
      · obtain ⟨hl3, hsp3, hadded3, hinst3, hheap3⟩ := hres
        refine ⟨hl3, hsp3, hadded3.cons, fun q hq => ?_, ?_⟩
        · rcases List.mem_cons.mp hq with rfl | hq
          · exact hb3.installed (hb2.installed hinst)
          · exact hinst3 q hq
        · rw [hheap3, List.foldl_cons]
          congr 1
          split <;> omega

end Vm

end bobchouos
