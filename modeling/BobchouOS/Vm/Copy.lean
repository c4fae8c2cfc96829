import BobchouOS.Vm.Access
import BobchouOS.Vm.World

open lib

namespace bobchouos

namespace Vm

variable {E : Halt → Prop} {k : Symbols} {s s' s'' : Kmem} {own own' own'' : Nat → Option Owner} {roots : List Nat}
  {va v n len : Nat} {acc : Access} {p : Proc} {rest : List Proc} {P Q : Nat → Prop} {m m' : Mem}

/-- The checks of the kernel on a leaf before it copies. -/
def Access.Grants (acc : Access) (pte : Nat) : Prop := Has pte PTE_V ∧ Has pte PTE_U ∧ (acc = .store → Has pte PTE_W)

instance (acc : Access) (pte : Nat) : Decidable (acc.Grants pte) := inferInstanceAs (Decidable (_ ∧ _ ∧ _))

/-- The page grants the access, or it can be faulted in from an area, or it is shared
and can be copied. -/
def CanGrant (s : Kmem) (p : Proc) (v : Nat) (acc : Access) : Prop :=
  acc.Grants (s.leafPte p.pagetable v) ∨
  (¬ Has (s.leafPte p.pagetable v) PTE_V ∧ ¬ Denied p.vma_list (v * PG_SIZE) acc) ∨
  (acc = .store ∧ Has (s.leafPte p.pagetable v) PTE_V ∧ Has (s.leafPte p.pagetable v) PTE_COW)

theorem CanGrant.congr (hleaf : s'.leafPte p.pagetable v = s.leafPte p.pagetable v) :
    CanGrant s' p v acc ↔ CanGrant s p v acc := by
  unfold CanGrant
  rw [hleaf]

/-- A resolved fault opens the page. -/
theorem grants_of_agrees {a : Vma} {x : Nat} (ha : a.Ok) (h : Agrees a.perm x) (hW : acc = .store → Has x PTE_W) :
    acc.Grants x := ⟨h.valid, h.user.mpr ha.user, hW⟩

theorem prefault_spec (h : Spaces s own roots) (hr : p.pagetable ∈ roots)
    (hsp : AddrSpace k s p.pagetable p.trapframe p.vma_list) (htf : p.trapframe % PG_SIZE = 0 ∧ p.trapframe < 2 ^ 56)
    (hv : v < 2 ^ 26) :
    wp (prefault p acc (v * PG_SIZE)) (fun res s' => ∃ own',
      Faulted k s s' own own' roots p.pagetable p.trapframe p.vma_list v ∧ match res with
      | none => ¬ CanGrant s p v acc ∨ Low s'
      | some pte => pte ≠ 0 ∧ s'.leafSlot p.pagetable v = some pte ∧
          ((s' = s ∧ Has (s.leafPte p.pagetable v) PTE_V ∧ ¬ (acc = .store ∧ Has (s.leafPte p.pagetable v) PTE_COW)) ∨
            CanGrant s p v acc ∧ acc.Grants (s'.leafPte p.pagetable v))) s := by
  have hpage : v * PG_SIZE / PG_SIZE = v := Nat.mul_div_cancel _ (by decide)
  have hmax : v * PG_SIZE < MAX_VA := by
    simp only [MAX_VA, PG_SIZE]
    omega
  simp only [prefault, wp_bind]
  refine wp_mono (walk_read h.toPageTables hr hmax) ?_
  rintro pte s1 ⟨rfl, hslot, hvalid⟩
  rw [hpage] at hslot hvalid
  simp only [wp_get, wp_ite, wp_bind, wp_pure]
  refine ⟨fun hneeds => ?_, fun hfine => ?_⟩
  · have hleaf : ¬ Has (s1.leafPte p.pagetable v) PTE_V ∨ acc = .store ∧ Has (s1.leafPte p.pagetable v) PTE_COW := by
      by_cases hempty : ¬ Has (s1.leafPte p.pagetable v) PTE_V
      · exact .inl hempty
      · have hnot := mt hvalid.mp hempty
        rw [leafPte_of_slot (hslot fun hz => hnot (.inl hz))]
        exact .inr ((or_assoc.mpr hneeds).resolve_left hnot)
    refine wp_mono (wp_of_wpe (handle_page_fault_spec h hr hsp fun hge => by omega)) ?_
    rw [hpage]
    rintro ret s2 ⟨own2, hfault, ⟨rfl, -, hreason⟩ | ⟨rfl, -, hden, -, a, ha, hcov, hagrees, hW⟩⟩
    · refine ⟨fun _ => ⟨own2, hfault, ?_⟩, fun hge => absurd (by decide) hge⟩
      rcases hreason with ⟨hden, hfind⟩ | hlow | ⟨-, -, hleaf', hno⟩
      · have hempty : ¬ Has (s1.leafPte p.pagetable v) PTE_V := by
          intro hleaf'
          have hcow := (hleaf.resolve_left (not_not.mpr hleaf')).2
          obtain ⟨b, hb, hbcov, -⟩ := hsp.covered v (vpn_lt_of_has hsp hv htf (.inr rfl) hcow) hleaf'
          exact vma_find_none (hfind hleaf') b hb hbcov
        refine .inl ?_
        rintro (hgrants | ⟨-, hyes⟩ | ⟨-, hleaf', -⟩)
        · exact hempty hgrants.1
        · exact hyes hden
        · exact hempty hleaf'
      · exact .inr hlow
      · exact absurd (hleaf.resolve_left (not_not.mpr hleaf')) hno
    · refine ⟨fun hlt => absurd hlt (by decide), fun _ => ?_⟩
      have hgrants := grants_of_agrees (hsp.areas a ha) hagrees hW
      refine wp_mono (walk_read hfault.spaces.toPageTables hr hmax) ?_
      rw [hpage]
      rintro pte' s3 ⟨rfl, hslot', hvalid'⟩
      have hne : pte' ≠ 0 := fun hz => hvalid'.mp (.inl hz) hgrants.1
      refine ⟨own2, hfault, hne, hslot' hne, .inr ⟨?_, hgrants⟩⟩
      by_cases hempty : Has (s1.leafPte p.pagetable v) PTE_V
      · have hcow := hleaf.resolve_left (not_not.mpr hempty)
        exact .inr (.inr ⟨hcow.1, hempty, hcow.2⟩)
      · exact .inr (.inl ⟨hempty, hden hempty⟩)
  · rw [← or_assoc, not_or, hvalid, not_not] at hfine
    have hne : pte ≠ 0 := fun hz => hvalid.mp (.inl hz) hfine.1
    refine ⟨own, .refl h hsp v, hne, hslot hne, .inl ⟨trivial, hfine.1, ?_⟩⟩
    rw [leafPte_of_slot (hslot hne)]
    exact hfine.2

theorem userAddr_spec (h : Spaces s own roots) (hr : p.pagetable ∈ roots)
    (hsp : AddrSpace k s p.pagetable p.trapframe p.vma_list) (htf : p.trapframe % PG_SIZE = 0 ∧ p.trapframe < 2 ^ 56)
    (hva : va < MAX_VA) :
    wp (userAddr p acc va) (fun res s' => ∃ own',
      Faulted k s s' own own' roots p.pagetable p.trapframe p.vma_list (va / PG_SIZE) ∧ match res with
      | none => ¬ CanGrant s p (va / PG_SIZE) acc ∨ Low s'
      | some pa => CanGrant s p (va / PG_SIZE) acc ∧ acc.Grants (s'.leafPte p.pagetable (va / PG_SIZE)) ∧
          ∃ q w, s'.entry p.pagetable (va / PG_SIZE) = some (q, w) ∧ pa = q + va % PG_SIZE ∧ (acc = .store → w = true)) s := by
  have hdown := PG_ROUND_DOWN_eq va
  have hv : va / PG_SIZE < 2 ^ 26 := by
    simp only [MAX_VA, PG_SIZE] at hva ⊢
    omega
  have hoffset : va - va / PG_SIZE * PG_SIZE = va % PG_SIZE := by
    have hmod := Nat.div_add_mod va PG_SIZE
    rw [Nat.mul_comm] at hmod
    omega
  simp only [userAddr, wp_bind, hdown]
  refine wp_mono (prefault_spec h hr hsp htf hv) ?_
  rintro (_ | pte) s1 ⟨own1, hfault, hres⟩
  · exact wp_pure.mpr ⟨own1, hfault, hres⟩
  obtain ⟨hne, hslot, hres⟩ := hres
  simp only [wp_bind, wp_get, wp_ite, wp_pure, ← leafPte_of_slot hslot]
  refine ⟨fun hz => absurd hz hne, fun _ => ⟨fun hno => ⟨own1, hfault, ?_⟩, fun hyes => ⟨own1, hfault, ?_⟩⟩⟩
  · rcases hres with ⟨rfl, hvalid, hcow⟩ | ⟨-, hgrants⟩
    · refine .inl ?_
      rintro (hgrants | ⟨hempty, -⟩ | hboth)
      · rcases hno with hno | ⟨hstore, hno⟩
        · exact hno hgrants.2.1
        · exact hno (hgrants.2.2 hstore)
      · exact hempty hvalid
      · exact hcow ⟨hboth.1, hboth.2.2⟩
    · rcases hno with hno | ⟨hstore, hno⟩
      · exact absurd hgrants.2.1 hno
      · exact absurd (hgrants.2.2 hstore) hno
  · rw [not_or, not_not, not_and, not_not] at hyes
    have hgrants : acc.Grants (s1.leafPte p.pagetable (va / PG_SIZE)) := by
      rcases hres with ⟨rfl, hvalid, -⟩ | ⟨-, hgrants⟩
      · exact ⟨hvalid, hyes⟩
      · exact hgrants
    have hlt := vpn_lt_of_has hfault.space hv htf (.inl rfl) hyes.1
    refine ⟨?_, hgrants, _, _, entry_eq hlt hgrants.1, by rw [hoffset], fun hstore => by simpa using hyes.2 hstore⟩
    rcases hres with ⟨rfl, -⟩ | ⟨hcan, -⟩
    · exact .inl hgrants
    · exact hcan

/-- The process used its own address space: it now sees `m`, pages outside of `P` are
mapped as before, and those in it still if they were. -/
structure Used (k : Symbols) (s s' : Kmem) (own own' : Nat → Option Owner) (p : Proc) (rest : List Proc) (P : Nat → Prop)
    (m : Mem) : Prop where
  world : World k s' own' (p :: rest)
  effect : Effect (Owner.InSpace p.pagetable) (rootsOf (p :: rest)) s s' own own'
  view : s'.view p.pagetable = m
  other : ∀ u < 2 ^ 26, ¬ P u → s'.leafPte p.pagetable u = s.leafPte p.pagetable u
  kept : ∀ u < 2 ^ 26, Has (s.leafPte p.pagetable u) PTE_V → Has (s'.leafPte p.pagetable u) PTE_V

namespace Used

theorem refl (h : World k s own (p :: rest)) (P : Nat → Prop) :
    Used k s s own own p rest P (s.view p.pagetable) := ⟨h, .refl _ _ s own, rfl, fun _ _ _ => rfl, fun _ _ hvalid => hvalid⟩

theorem trans (h : Used k s s' own own' p rest P m) (h' : Used k s' s'' own' own'' p rest P m') :
    Used k s s'' own own'' p rest P m' :=
  ⟨h'.world, h.effect.trans h'.effect, h'.view, fun u hu hP => (h'.other u hu hP).trans (h.other u hu hP),
    fun u hu hvalid => h'.kept u hu (h.kept u hu hvalid)⟩

theorem mono (h : Used k s s' own own' p rest P m) (hPQ : ∀ u, P u → Q u) : Used k s s' own own' p rest Q m :=
  ⟨h.world, h.effect, h.view, fun u hu hQ => h.other u hu fun hP => hQ (hPQ u hP), h.kept⟩

/-- What happens in the address space of a process is local to it. -/
theorem of_space (h : World k s own (p :: rest)) (hp : p.pagetable ≠ 0) (hspaces : Spaces s' own' (rootsOf (p :: rest)))
    (heff : Effect (Owner.InSpace p.pagetable) (rootsOf (p :: rest)) s s' own own') (hview : s'.view p.pagetable = m)
    (hspace : AddrSpace k s' p.pagetable p.trapframe p.vma_list)
    (hother : ∀ u < 2 ^ 26, ¬ P u → s'.leafPte p.pagetable u = s.leafPte p.pagetable u)
    (hkept : ∀ u < 2 ^ 26, P u → Has (s.leafPte p.pagetable u) PTE_V → Has (s'.leafPte p.pagetable u) PTE_V) :
    Used k s s' own own' p rest P m := by
  have hok := h.proc p (by simp)
  refine ⟨h.inSpace hp hspaces heff.touches rfl rfl rfl rfl rfl ⟨fun _ => ⟨(hok.user hp).1, hspace⟩, hok.kernel, hok.heap⟩, heff,
    hview, hother, fun u hu hvalid => ?_⟩
  by_cases hP : P u
  · exact hkept u hu hP hvalid
  · rwa [hother u hu hP]

theorem of_faulted (h : World k s own (p :: rest)) (hp : p.pagetable ≠ 0)
    (hf : Faulted k s s' own own' (rootsOf (p :: rest)) p.pagetable p.trapframe p.vma_list v) :
    Used k s s' own own' p rest (· = v) (s.view p.pagetable) := by
  refine .of_space h hp hf.spaces hf.effect hf.view hf.space (fun u hu hne => hf.other u hu hne) ?_
  rintro _ - rfl hvalid
  exact hf.kept hvalid

end Used

/-- The trapframe of a process is a page. -/
theorem World.trapframe_range (h : World k s own (p :: rest)) (hp : p.pagetable ≠ 0) :
    p.trapframe % PG_SIZE = 0 ∧ p.trapframe < 2 ^ 56 := by
  have hok := h.proc p (by simp)
  have hrange := h.memory.spaces.pages.range_of (hok.trapframe (hok.user hp).1)
  simp only [PHYS_STOP] at hrange
  exact ⟨hrange.1, by omega⟩

/-- A round of the copy loops. -/
theorem World.userAddr_spec (h : World k s own (p :: rest)) (hp : p.pagetable ≠ 0)
    (hhigh : MAX_VA ≤ va → E (.panic "walk: va >= MAX_VA")) :
    wpe E (userAddr p acc va) (fun res s' => va < MAX_VA ∧ ∃ own',
      Used k s s' own own' p rest (· = va / PG_SIZE) (s.view p.pagetable) ∧ match res with
      | none => ¬ CanGrant s p (va / PG_SIZE) acc ∨ Low s'
      | some pa => CanGrant s p (va / PG_SIZE) acc ∧ acc.Grants (s'.leafPte p.pagetable (va / PG_SIZE)) ∧
          ∃ q w, s'.entry p.pagetable (va / PG_SIZE) = some (q, w) ∧ pa = q + va % PG_SIZE ∧ (acc = .store → w = true)) s := by
  have hok := h.proc p (by simp)
  by_cases hva : va < MAX_VA
  · refine wpe_mono (Vm.userAddr_spec h.memory.spaces (root_mem (by simp) hp) (hok.user hp).2 (h.trapframe_range hp) hva).wpe ?_
    rintro res s1 ⟨own1, hfault, hres⟩
    exact ⟨hva, own1, .of_faulted h hp hfault, hres⟩
  · have hpage : MAX_VA ≤ PG_ROUND_DOWN va := by
      rw [PG_ROUND_DOWN_eq]
      simp only [MAX_VA, PG_SIZE] at *
      omega
    simp only [userAddr, prefault, walk, wpe_bind, if_pos hpage, wpe_panic]
    exact hhigh (by omega)

/-- The page of the trampoline, the last one, is not granted. -/
theorem World.vpn_lt_of_can (h : World k s own (p :: rest)) (hp : p.pagetable ≠ 0) (hva : va < MAX_VA)
    (hcan : CanGrant s p (va / PG_SIZE) acc) : va / PG_SIZE < TRAMPOLINE / PG_SIZE := by
  by_contra hge
  have htop : va / PG_SIZE = TRAMPOLINE / PG_SIZE := by
    simp only [MAX_VA, TRAMPOLINE, PG_SIZE] at *
    omega
  have hsp := ((h.proc p (by simp)).user hp).2
  have hrange := h.trapframe_range hp
  have hnot : ∀ f, f = PTE_U ∨ f = PTE_COW → ¬ Has (s.leafPte p.pagetable (TRAMPOLINE / PG_SIZE)) f := fun f hf hhas =>
    absurd (vpn_lt_of_has hsp (by decide) hrange hf hhas) (by decide)
  rw [CanGrant, htop] at hcan
  rcases hcan with hgrants | ⟨hempty, -⟩ | ⟨-, -, hcow⟩
  · exact hnot _ (.inl rfl) hgrants.2.1
  · exact hempty (hsp.topUsed _ (by decide) (by decide))
  · exact hnot _ (.inr rfl) hcow

/-- A chunk ends at the end of the range or of the page. -/
theorem chunk_spec (va : Nat) (hlen : 0 < len) : 0 < chunk va len ∧ chunk va len ≤ len ∧
    (∀ i < chunk va len, (va + i) / PG_SIZE = va / PG_SIZE ∧ (va + i) % PG_SIZE = va % PG_SIZE + i) ∧
    (chunk va len < len → (va + chunk va len) % PG_SIZE = 0 ∧ (va + chunk va len) / PG_SIZE = va / PG_SIZE + 1) := by
  have hdown := PG_ROUND_DOWN_eq va
  unfold chunk
  rw [hdown]
  simp only [PG_SIZE]
  refine ⟨by omega, by omega, fun i hi => by omega, fun hlt => by omega⟩

/-- The chunk of a granted page ends below the last page, and the sum with it does
not wrap. -/
theorem World.chunk_lt (h : World k s own (p :: rest)) (hp : p.pagetable ≠ 0) (hva : va < MAX_VA)
    (hcan : CanGrant s p (va / PG_SIZE) acc) (len : Nat) :
    va + chunk va len < MAX_VA ∧ (va + chunk va len) % 2 ^ 64 = va + chunk va len := by
  have hpage := h.vpn_lt_of_can hp hva hcan
  have hlt : va + chunk va len < MAX_VA := by
    unfold chunk
    rw [PG_ROUND_DOWN_eq]
    simp only [MAX_VA, TRAMPOLINE, PG_SIZE] at *
    omega
  refine ⟨hlt, Nat.mod_eq_of_lt ?_⟩
  simp only [MAX_VA] at hlt
  omega

/-- The bytes after a chunk are on later pages. -/
theorem chunk_later {i : Nat} (hi : i < len - chunk va len) : va / PG_SIZE < (va + chunk va len + i) / PG_SIZE := by
  have hpos : 0 < len := by omega
  have hnext := ((chunk_spec va hpos).2.2.2 (by omega)).2
  have hmono : (va + chunk va len) / PG_SIZE ≤ (va + chunk va len + i) / PG_SIZE :=
    Nat.div_le_div_right (Nat.le_add_right _ _)
  omega

/-- The first `n` of `len` bytes from `va` were reached, page by page. Before that,
`s` was the state. -/
structure Fetched (s s' : Kmem) (p : Proc) (acc : Access) (va len n : Nat) : Prop where
  le : n ≤ len
  inside : ∀ i < n, va + i < MAX_VA
  reached : ∀ i < n, CanGrant s p ((va + i) / PG_SIZE) acc ∧ acc.Grants (s'.leafPte p.pagetable ((va + i) / PG_SIZE))
  stop : n < len → va + n < MAX_VA ∧ (n = 0 ∨ (va + n) % PG_SIZE = 0) ∧ (¬ CanGrant s p ((va + n) / PG_SIZE) acc ∨ Low s')

namespace Fetched

theorem done (s : Kmem) (p : Proc) (acc : Access) (va : Nat) : Fetched s s p acc va 0 0 :=
  ⟨Nat.le_refl 0, fun i hi => absurd hi (Nat.not_lt_zero i), fun i hi => absurd hi (Nat.not_lt_zero i),
    fun hlt => absurd hlt (Nat.lt_irrefl 0)⟩

theorem refused (hva : va < MAX_VA) (hno : ¬ CanGrant s p (va / PG_SIZE) acc ∨ Low s') : Fetched s s' p acc va len 0 :=
  ⟨Nat.zero_le len, fun i hi => absurd hi (Nat.not_lt_zero i), fun i hi => absurd hi (Nat.not_lt_zero i),
    fun _ => ⟨hva, .inl rfl, hno⟩⟩

/-- A round and the rounds after it. -/
theorem round (hlen : 0 < len) (hva : va < MAX_VA) (hcan : CanGrant s p (va / PG_SIZE) acc)
    (hgrants : acc.Grants (s'.leafPte p.pagetable (va / PG_SIZE)))
    (hleaf : ∀ u < 2 ^ 26, u ≠ va / PG_SIZE → s'.leafPte p.pagetable u = s.leafPte p.pagetable u)
    (hkeep : s''.leafPte p.pagetable (va / PG_SIZE) = s'.leafPte p.pagetable (va / PG_SIZE))
    (hrest : Fetched s' s'' p acc (va + chunk va len) (len - chunk va len) n) :
    Fetched s s'' p acc va len (chunk va len + n) := by
  obtain ⟨hpos, hle, hin, hend⟩ := chunk_spec va hlen
  have hle' := hrest.le
  have hcongr : ∀ i < len - chunk va len, va + chunk va len + i < MAX_VA →
      (CanGrant s' p ((va + chunk va len + i) / PG_SIZE) acc ↔ CanGrant s p ((va + chunk va len + i) / PG_SIZE) acc) := by
    intro i hi hlt
    refine CanGrant.congr (hleaf _ ?_ (Nat.ne_of_gt (chunk_later hi)))
    simp only [MAX_VA, PG_SIZE] at *
    omega
  refine ⟨by omega, fun i hi => ?_, fun i hi => ?_, fun hlt => ?_⟩
  · by_cases hfirst : i < chunk va len
    · have hpage := (hin i hfirst).1
      simp only [MAX_VA, PG_SIZE] at *
      omega
    · have hlater := hrest.inside (i - chunk va len) (by omega)
      omega
  · by_cases hfirst : i < chunk va len
    · rw [(hin i hfirst).1, hkeep]
      exact ⟨hcan, hgrants⟩
    · obtain ⟨j, rfl⟩ : ∃ j, i = chunk va len + j := ⟨i - chunk va len, by omega⟩
      rw [← Nat.add_assoc, ← hcongr j (by omega) (hrest.inside j (by omega))]
      exact hrest.reached j (by omega)
  · obtain ⟨hlt', halign, hreason⟩ := hrest.stop (by omega)
    rw [← Nat.add_assoc, ← hcongr n (by omega) hlt']
    refine ⟨hlt', .inr ?_, hreason⟩
    rcases halign with rfl | halign
    · exact (hend (by omega)).1
    · exact halign

end Fetched

/-- The rounds after the first leave its page as it is. -/
theorem Used.keep (h : Used k s s' own own' p rest (fun u => ∃ i < len - chunk va len, (va + chunk va len + i) / PG_SIZE = u) m)
    (hva : va < MAX_VA) : s'.leafPte p.pagetable (va / PG_SIZE) = s.leafPte p.pagetable (va / PG_SIZE) := by
  refine h.other _ (by simp only [MAX_VA, PG_SIZE] at *; omega) ?_
  rintro ⟨i, hi, heq⟩
  exact absurd heq (Nat.ne_of_gt (chunk_later hi))

theorem view_of_entry {r q y : Nat} {w : Bool} (he : s.entry r v = some (q, w)) (hy : y / PG_SIZE = v) :
    s.view r y = s.mem (q + y % PG_SIZE) := by
  rw [Kmem.view, hy, he]

theorem loadBytes_append (m : Mem) (a n n' : Nat) : m.loadBytes a (n + n') = m.loadBytes a n ++ m.loadBytes (a + n) n' := by
  simp only [Mem.loadBytes, List.range_add, List.map_append, List.map_map]
  congr 1
  refine List.map_congr_left fun i _ => ?_
  simp [Nat.add_assoc]

/-- A chunk read through the page of its first byte. -/
theorem loadBytes_chunk {r q : Nat} {w : Bool} (he : s.entry r (va / PG_SIZE) = some (q, w)) (hlen : 0 < len) :
    s.mem.loadBytes (q + va % PG_SIZE) (chunk va len) = Mem.loadBytes (s.view r) va (chunk va len) := by
  obtain ⟨-, -, hin, -⟩ := chunk_spec va hlen
  refine List.map_congr_left fun i hi => ?_
  have hpage := hin i (List.mem_range.mp hi)
  rw [view_of_entry he hpage.1, hpage.2, Nat.add_assoc]

theorem copyinLoop_spec {rounds : Nat} {dst : Bytes} (h : World k s own (p :: rest)) (hp : p.pagetable ≠ 0)
    (hhigh : MAX_VA ≤ va → 0 < len → E (.panic "walk: va >= MAX_VA")) (hrounds : len ≤ rounds) :
    wpe E (copyinLoop p rounds va len dst) (fun res s' => ∃ own' n,
      Used k s s' own own' p rest (fun u => ∃ i < len, (va + i) / PG_SIZE = u) (s.view p.pagetable) ∧
      Fetched s s' p .load va len n ∧ res.2 = dst ++ Mem.loadBytes (s.view p.pagetable) va n ∧
      res.1 = if n = len then 0 else -EFAULT) s := by
  induction rounds generalizing s own va len dst with
  | zero =>
    obtain rfl : len = 0 := by omega
    exact wpe_pure.mpr ⟨own, 0, .refl h _, .done s p .load va, by simp [Mem.loadBytes], by simp⟩
  | succ rounds ih =>
    by_cases hlen : len = 0
    · subst hlen
      rw [copyinLoop, if_pos rfl]
      exact wpe_pure.mpr ⟨own, 0, .refl h _, .done s p .load va, by simp [Mem.loadBytes], by simp⟩
    have hpos : 0 < len := by omega
    rw [copyinLoop, if_neg hlen, wpe_bind]
    refine wpe_mono (h.userAddr_spec hp fun hge => hhigh hge hpos) ?_
    have hsub : ∀ u, u = va / PG_SIZE → ∃ i < len, (va + i) / PG_SIZE = u := by
      rintro u rfl
      exact ⟨0, hpos, rfl⟩
    rintro (_ | pa) s1 ⟨hva, own1, hused, hres⟩
    · refine wpe_pure.mpr ⟨own1, 0, hused.mono hsub, .refused hva hres, by simp [Mem.loadBytes], ?_⟩
      rw [if_neg (by omega)]
    obtain ⟨hcan, hgrants, q, w, he, rfl, -⟩ := hres
    obtain ⟨hcpos, hcle, -⟩ := chunk_spec va hpos
    have hnext := h.chunk_lt hp hva hcan len
    simp only [wpe_bind, wpe_get, hnext.2]
    refine wpe_mono (ih hused.world (fun hge => absurd hge (by omega)) (by omega)) ?_
    rintro res s2 ⟨own2, n, hused2, hfetch, hbytes, hret⟩
    rw [hused.view] at hused2 hbytes
    refine ⟨own2, chunk va len + n, (hused.mono hsub).trans (hused2.mono ?_), ?_, ?_, ?_⟩
    · rintro u ⟨i, hi, rfl⟩
      exact ⟨chunk va len + i, by omega, by rw [Nat.add_assoc]⟩
    · exact .round hpos hva hcan hgrants hused.other (hused2.keep hva) hfetch
    · rw [hbytes, loadBytes_chunk he hpos, hused.view, loadBytes_append, List.append_assoc]
    · rw [hret]
      have hle := hfetch.le
      congr 1
      exact propext (by omega)

theorem storeBytes_append (m : Mem) (a : Nat) (bs bs' : Bytes) :
    m.storeBytes a (bs ++ bs') = (m.storeBytes a bs).storeBytes (a + bs.length) bs' := by
  funext x
  by_cases hbs : a ≤ x ∧ x < a + bs.length
  · obtain ⟨i, rfl⟩ : ∃ i, x = a + i := ⟨x - a, by omega⟩
    rw [Mem.storeBytes_of_inside _ _ (by simp; omega), Mem.storeBytes_of_outside _ _ (by omega),
      Mem.storeBytes_of_inside _ _ (by omega), List.getD_append _ _ _ _ (by omega)]
  · by_cases hbs' : a + bs.length ≤ x ∧ x < a + bs.length + bs'.length
    · obtain ⟨i, rfl⟩ : ∃ i, x = a + bs.length + i := ⟨x - (a + bs.length), by omega⟩
      rw [Mem.storeBytes_of_inside _ bs' (by omega), Nat.add_assoc, Mem.storeBytes_of_inside _ _ (by simp; omega),
        List.getD_append_right _ _ _ _ (by omega), Nat.add_sub_cancel_left]
    · rw [Mem.storeBytes_of_outside _ _ (by simp; omega), Mem.storeBytes_of_outside _ _ (by omega),
        Mem.storeBytes_of_outside _ _ (by omega)]

theorem storeBytes_nil (m : Mem) (a : Nat) : m.storeBytes a [] = m := by
  funext x
  exact Mem.storeBytes_of_outside _ _ (by simp; omega)

theorem Used.nothing (h : World k s own (p :: rest)) (P : Nat → Prop) (va : Nat) (src : Bytes) :
    Used k s s own own p rest P (Mem.storeBytes (s.view p.pagetable) va (src.take 0)) := by
  rw [List.take_zero, storeBytes_nil]
  exact .refl h P

/-- Bytes stored to one page that the process may write. -/
theorem World.store {q : Nat} {bs : Bytes} (h : World k s own (p :: rest)) (hp : p.pagetable ≠ 0)
    (he : s.entry p.pagetable (va / PG_SIZE) = some (q, true)) (hfit : va % PG_SIZE + bs.length ≤ PG_SIZE) :
    Used k s { s with mem := s.mem.storeBytes (q + va % PG_SIZE) bs } own own p rest (fun _ => False)
      (Mem.storeBytes (s.view p.pagetable) va bs) := by
  have hok := h.proc p (by simp)
  have hr : p.pagetable ∈ rootsOf (p :: rest) := root_mem (by simp) hp
  obtain ⟨hspaces, heff, hleaf, hview⟩ := h.memory.spaces.store (m := s.mem.storeBytes (q + va % PG_SIZE) bs) hr he
    fun x hx => Mem.storeBytes_of_outside _ _ (by omega)
  refine .of_space h hp hspaces heff ?_ ((hok.user hp).2.congr fun u _ => by rw [hleaf _ hr]) (fun u _ _ => by rw [hleaf _ hr])
    fun _ _ hP => hP.elim
  funext y
  have hva := Nat.div_add_mod va PG_SIZE
  have hy := Nat.div_add_mod y PG_SIZE
  rw [hview]
  by_cases hpage : y / PG_SIZE = va / PG_SIZE
  · rw [if_pos hpage]
    rw [hpage] at hy
    by_cases hin : va ≤ y ∧ y < va + bs.length
    · obtain ⟨i, rfl⟩ : ∃ i, y = va + i := ⟨y - va, by omega⟩
      have hmod : (va + i) % PG_SIZE = va % PG_SIZE + i := by omega
      rw [hmod, ← Nat.add_assoc, Mem.storeBytes_of_inside _ _ (by omega), Mem.storeBytes_of_inside _ _ (by omega)]
    · rw [Mem.storeBytes_of_outside _ _ (by omega), Mem.storeBytes_of_outside _ _ (by omega), view_of_entry he hpage]
  · rw [if_neg hpage, Mem.storeBytes_of_outside]
    by_contra hin
    have hle : va / PG_SIZE ≤ y / PG_SIZE := Nat.div_le_div_right (by omega)
    have hlt : y / PG_SIZE < va / PG_SIZE + 1 := by
      rw [Nat.div_lt_iff_lt_mul (by decide)]
      simp only [PG_SIZE] at *
      omega
    omega

theorem copyoutLoop_spec {rounds : Nat} {src : Bytes} (h : World k s own (p :: rest)) (hp : p.pagetable ≠ 0)
    (hhigh : MAX_VA ≤ va → 0 < src.length → E (.panic "walk: va >= MAX_VA")) (hrounds : src.length ≤ rounds) :
    wpe E (copyoutLoop p rounds va src) (fun res s' => ∃ own' n,
      Used k s s' own own' p rest (fun u => ∃ i < src.length, (va + i) / PG_SIZE = u)
        (Mem.storeBytes (s.view p.pagetable) va (src.take n)) ∧
      Fetched s s' p .store va src.length n ∧ res = if n = src.length then 0 else -EFAULT) s := by
  induction rounds generalizing s own va src with
  | zero =>
    obtain rfl : src = [] := List.length_eq_zero_iff.mp (by omega)
    exact wpe_pure.mpr ⟨own, 0, .nothing h _ va [], .done s p .store va, by simp⟩
  | succ rounds ih =>
    by_cases hlen : src.length = 0
    · rw [copyoutLoop, if_pos hlen, wpe_pure]
      refine ⟨own, 0, .nothing h _ va src, ?_, by rw [if_pos hlen.symm]⟩
      rw [hlen]
      exact .done s p .store va
    have hpos : 0 < src.length := by omega
    rw [copyoutLoop, if_neg hlen, wpe_bind]
    refine wpe_mono (h.userAddr_spec hp fun hge => hhigh hge hpos) ?_
    have hsub : ∀ u, u = va / PG_SIZE → ∃ i < src.length, (va + i) / PG_SIZE = u := by
      rintro u rfl
      exact ⟨0, hpos, rfl⟩
    rintro (_ | pa) s1 ⟨hva, own1, hused, hres⟩
    · refine wpe_pure.mpr ⟨own1, 0, ?_, .refused hva hres, by rw [if_neg (by omega)]⟩
      rw [List.take_zero, storeBytes_nil]
      exact hused.mono hsub
    obtain ⟨hcan, hgrants, q, w, he, rfl, hw⟩ := hres
    obtain rfl := hw rfl
    obtain ⟨n1, hn1⟩ : ∃ n1, n1 = chunk va src.length := ⟨_, rfl⟩
    obtain ⟨hcpos, hcle, hin, -⟩ := chunk_spec va hpos
    have hnext := h.chunk_lt hp hva hcan src.length
    rw [← hn1] at hcpos hcle hin hnext
    simp only [wpe_bind, wpe_modify, ← hn1, hnext.2]
    have htake : (src.take n1).length = n1 := by
      rw [List.length_take]
      omega
    have hfit : va % PG_SIZE + (src.take n1).length ≤ PG_SIZE := by
      have hlast := (hin (n1 - 1) (by omega)).2
      have hmod := Nat.mod_lt (va + (n1 - 1)) (show 0 < PG_SIZE by decide)
      omega
    have hstore := hused.world.store hp he hfit
    rw [hused.view] at hstore
    refine wpe_mono (ih hstore.world (fun hge => absurd hge (by omega)) (by rw [List.length_drop]; omega)) ?_
    rintro res s2 ⟨own2, n, hused2, hfetch, hret⟩
    rw [hstore.view] at hused2
    rw [List.length_drop] at hused2 hfetch hret
    have hle := hfetch.le
    refine ⟨own2, n1 + n, ?_, ?_, ?_⟩
    · have hview : Mem.storeBytes (s.view p.pagetable) va (src.take (n1 + n)) =
          Mem.storeBytes (Mem.storeBytes (s.view p.pagetable) va (src.take n1)) (va + n1) ((src.drop n1).take n) := by
        rw [List.take_add, storeBytes_append, htake]
      rw [hview]
      refine ((hused.mono hsub).trans (hstore.mono fun _ => False.elim)).trans (hused2.mono ?_)
      rintro u ⟨i, hi, rfl⟩
      exact ⟨n1 + i, by omega, by rw [Nat.add_assoc]⟩
    · rw [hn1] at hfetch hused2 hstore ⊢
      refine .round hpos hva hcan ?_ (fun u hu hne => ?_) (hused2.keep hva) hfetch
      · rw [hstore.other _ (by simp only [MAX_VA, PG_SIZE] at *; omega) not_false]
        exact hgrants
      · rw [hstore.other u hu not_false]
        exact hused.other u hu hne
    · rw [hret]
      congr 1
      exact propext (by omega)

section chars

variable {bs : Bytes}

/-- Without a NUL all bytes are copied. -/
theorem copyChars_of_not_mem (h : (0 : BitVec 8) ∉ bs) : copyChars bs = (bs, false) := by
  induction bs with
  | nil => rfl
  | cons c bs ih =>
    rw [List.mem_cons, not_or] at h
    rw [copyChars, if_neg fun hc => h.1 hc.symm, ih h.2]

/-- The bytes up to the first NUL are copied, and the NUL. -/
theorem copyChars_of_nul {i : Nat} (hi : i < bs.length) (hnul : bs.getD i 0 = 0) (hbefore : ∀ j < i, bs.getD j 0 ≠ 0) :
    copyChars bs = (bs.take (i + 1), true) := by
  induction bs generalizing i with
  | nil => simp at hi
  | cons c bs ih =>
    cases i with
    | zero =>
      have hc : c = 0 := by simpa using hnul
      rw [copyChars, if_pos hc, List.take_succ_cons, List.take_zero]
    | succ i =>
      have hc : c ≠ 0 := by simpa using hbefore 0 (Nat.succ_pos i)
      have hrest := ih (i := i) (by simpa using hi) (by simpa using hnul) fun j hj => by
        simpa using hbefore (j + 1) (by omega)
      rw [copyChars, if_neg hc, hrest, List.take_succ_cons]

end chars

/-- The scan of a chunk stops at its first NUL. -/
theorem copyChars_loadBytes (m : Mem) (va n : Nat) :
    ((∀ j < n, m (va + j) ≠ 0) ∧ copyChars (m.loadBytes va n) = (m.loadBytes va n, false)) ∨
    ∃ i < n, m (va + i) = 0 ∧ (∀ j < i, m (va + j) ≠ 0) ∧ copyChars (m.loadBytes va n) = (m.loadBytes va (i + 1), true) := by
  have hget : ∀ j < n, (m.loadBytes va n).getD j 0 = m (va + j) := fun j hj => by simp [Mem.loadBytes, hj]
  by_cases hnul : ∃ i, i < n ∧ m (va + i) = 0
  · obtain ⟨i, ⟨hi, hzero⟩, hfirst⟩ : ∃ i, (i < n ∧ m (va + i) = 0) ∧ ∀ j < i, ¬ (j < n ∧ m (va + j) = 0) :=
      ⟨Nat.find hnul, Nat.find_spec hnul, fun j hj => Nat.find_min hnul hj⟩
    have hbefore : ∀ j < i, m (va + j) ≠ 0 := fun j hj hj0 => hfirst j hj ⟨by omega, hj0⟩
    refine .inr ⟨i, hi, hzero, hbefore, ?_⟩
    have hlen : (m.loadBytes va n).length = n := by simp [Mem.loadBytes]
    have htake : (m.loadBytes va n).take (i + 1) = m.loadBytes va (i + 1) := by
      simp only [Mem.loadBytes, ← List.map_take, List.take_range, Nat.min_eq_left hi]
    rw [copyChars_of_nul (by omega) ((hget i hi).trans hzero) fun j hj => hget j (by omega) ▸ hbefore j hj, htake]
  · have hno : ∀ j < n, m (va + j) ≠ 0 := fun j hj hj0 => hnul ⟨j, hj, hj0⟩
    refine .inl ⟨hno, copyChars_of_not_mem fun hmem => ?_⟩
    obtain ⟨j, hj, hj0⟩ := List.mem_map.mp hmem
    exact hno j (List.mem_range.mp hj) hj0

/-- How `copyinstr` ends, from the bytes that the process sees. -/
inductive Scanned (s s' : Kmem) (p : Proc) (m : Mem) (va max : Nat) : Int → Bytes → Prop
  | found {i : Nat} : i < max → m (va + i) = 0 → (∀ j < i, m (va + j) ≠ 0) → Fetched s s' p .load va (i + 1) (i + 1) →
      (∀ u < 2 ^ 26, (va + i) / PG_SIZE < u → s'.leafPte p.pagetable u = s.leafPte p.pagetable u) →
      Scanned s s' p m va max 0 (m.loadBytes va (i + 1))
  | long : Fetched s s' p .load va max max → (∀ j < max, m (va + j) ≠ 0) →
      Scanned s s' p m va max (-ENAMETOOLONG) (m.loadBytes va max)
  | fault {n : Nat} : n < max → Fetched s s' p .load va max n → (∀ j < n, m (va + j) ≠ 0) →
      Scanned s s' p m va max (-EFAULT) (m.loadBytes va n)

/-- A round without a NUL, and the rounds after it. -/
theorem Scanned.round {max : Nat} {r : Int} {bs : Bytes} (hpos : 0 < max) (hva : va < MAX_VA)
    (hcan : CanGrant s p (va / PG_SIZE) .load) (hgrants : Access.load.Grants (s'.leafPte p.pagetable (va / PG_SIZE)))
    (hleaf : ∀ u < 2 ^ 26, u ≠ va / PG_SIZE → s'.leafPte p.pagetable u = s.leafPte p.pagetable u)
    (hkeep : s''.leafPte p.pagetable (va / PG_SIZE) = s'.leafPte p.pagetable (va / PG_SIZE))
    (hnone : ∀ j < chunk va max, m (va + j) ≠ 0)
    (hrest : Scanned s' s'' p m (va + chunk va max) (max - chunk va max) r bs) :
    Scanned s s'' p m va max r (m.loadBytes va (chunk va max) ++ bs) := by
  obtain ⟨hcpos, hcle, hin, hend⟩ := chunk_spec va hpos
  have hall : ∀ {n}, (∀ j < n, m (va + chunk va max + j) ≠ 0) → ∀ j < chunk va max + n, m (va + j) ≠ 0 := by
    intro n hn j hj
    by_cases hfirst : j < chunk va max
    · exact hnone j hfirst
    · have hlater := hn (j - chunk va max) (by omega)
      rwa [Nat.add_assoc, Nat.add_sub_cancel' (by omega)] at hlater
  cases hrest with
  | @found i hi hnul hbefore hfetch hbeyond =>
    -- the range up to the NUL has the same first chunk
    have hchunk : chunk va (chunk va max + (i + 1)) = chunk va max := by
      unfold chunk at *
      omega
    have hsub : chunk va max + (i + 1) - chunk va max = i + 1 := Nat.add_sub_cancel_left _ _
    have hfetched : Fetched s s'' p .load va (chunk va max + (i + 1)) (chunk va max + (i + 1)) := by
      have hfetch' : Fetched s' s'' p .load (va + chunk va (chunk va max + (i + 1)))
          (chunk va max + (i + 1) - chunk va (chunk va max + (i + 1))) (i + 1) := by
        rwa [hchunk, hsub]
      have hround := Fetched.round (by omega) hva hcan hgrants hleaf hkeep hfetch'
      rwa [hchunk] at hround
    rw [← loadBytes_append]
    refine .found (i := chunk va max + i) (by omega) ?_ (hall hbefore) hfetched fun u hu hlt => ?_
    · rwa [← Nat.add_assoc]
    · have hlater := chunk_later hi
      rw [← Nat.add_assoc] at hlt
      rw [hbeyond u hu hlt, hleaf u hu (by omega)]
  | long hfetch hno =>
    have hfetched := Fetched.round hpos hva hcan hgrants hleaf hkeep hfetch
    have hsum : chunk va max + (max - chunk va max) = max := by omega
    have hnul := hall hno
    rw [hsum] at hfetched hnul
    rw [← loadBytes_append, hsum]
    exact .long hfetched hnul
  | @fault n hn hfetch hno =>
    rw [← loadBytes_append]
    exact .fault (by omega) (.round hpos hva hcan hgrants hleaf hkeep hfetch) (hall hno)

/-- The result by the number of bytes that were reached. -/
theorem Fetched.all_iff (h : Fetched s s' p acc va len n) (hlow : ¬ Low s') :
    n = len ↔ ∀ j < len, CanGrant s p ((va + j) / PG_SIZE) acc := by
  constructor
  · rintro rfl j hj
    exact (h.reached j hj).1
  · intro hall
    by_contra hne
    have hlt : n < len := Nat.lt_of_le_of_ne h.le hne
    rcases (h.stop hlt).2.2 with hno | hlow'
    · exact hno (hall n hlt)
    · exact hlow hlow'

namespace Scanned

variable {max : Nat} {r : Int} {bytes : Bytes}

theorem length_le (h : Scanned s s' p m va max r bytes) : bytes.length ≤ max := by
  cases h with
  | @found i hi =>
    simp only [Mem.loadBytes, List.length_map, List.length_range]
    omega
  | long => simp [Mem.loadBytes]
  | fault hn => simpa [Mem.loadBytes] using Nat.le_of_lt hn

/-- What was found out about the bytes when there is memory left. -/
theorem cases_of_not_low (h : Scanned s s' p m va max r bytes) (hlow : ¬ Low s') :
    (r = 0 ∧ ∃ n < max, m (va + n) = 0 ∧ (∀ j < n, m (va + j) ≠ 0) ∧ ∀ j ≤ n, CanGrant s p ((va + j) / PG_SIZE) .load) ∨
    (r = -ENAMETOOLONG ∧ ∀ j < max, CanGrant s p ((va + j) / PG_SIZE) .load ∧ m (va + j) ≠ 0) ∨
    r = -EFAULT ∧ ∃ n < max, (∀ j < n, m (va + j) ≠ 0) ∧ ¬ CanGrant s p ((va + n) / PG_SIZE) .load := by
  cases h with
  | @found i hi hnul hbefore hfetch =>
    exact .inl ⟨rfl, i, hi, hnul, hbefore, fun j hj => (hfetch.reached j (by omega)).1⟩
  | long hfetch hno => exact .inr (.inl ⟨rfl, fun j hj => ⟨(hfetch.reached j hj).1, hno j hj⟩⟩)
  | @fault n hn hfetch hno =>
    exact .inr (.inr ⟨rfl, n, hn, hno, (hfetch.stop hn).2.2.resolve_right hlow⟩)

theorem found_iff (h : Scanned s s' p m va max r bytes) (hlow : ¬ Low s') :
    r = 0 ↔ ∃ n < max, m (va + n) = 0 ∧ ∀ j ≤ n, CanGrant s p ((va + j) / PG_SIZE) .load := by
  rcases h.cases_of_not_low hlow with ⟨rfl, n, hn, hnul, -, hcan⟩ | ⟨rfl, hall⟩ | ⟨rfl, n, hn, hbefore, hno⟩
  · exact iff_of_true rfl ⟨n, hn, hnul, hcan⟩
  · refine iff_of_false (by decide) ?_
    rintro ⟨n, hn, hnul, -⟩
    exact (hall n hn).2 hnul
  · refine iff_of_false (by decide) ?_
    rintro ⟨n', hn', hnul, hcan⟩
    by_cases hlt : n' < n
    · exact hbefore n' hlt hnul
    · exact hno (hcan n (by omega))

theorem long_iff (h : Scanned s s' p m va max r bytes) (hlow : ¬ Low s') :
    r = -ENAMETOOLONG ↔ ∀ j < max, CanGrant s p ((va + j) / PG_SIZE) .load ∧ m (va + j) ≠ 0 := by
  rcases h.cases_of_not_low hlow with ⟨rfl, n, hn, hnul, -⟩ | ⟨rfl, hall⟩ | ⟨rfl, n, hn, -, hno⟩
  · exact iff_of_false (by decide) fun hall => (hall n hn).2 hnul
  · exact iff_of_true rfl hall
  · exact iff_of_false (by decide) fun hall => hno (hall n hn).1

end Scanned

/-- `copyinstr` finds the first NUL, runs out of room, or meets a page that it cannot
read. -/
theorem copyinstrLoop_spec {rounds max : Nat} {dst : Bytes} (h : World k s own (p :: rest)) (hp : p.pagetable ≠ 0)
    (hhigh : MAX_VA ≤ va → 0 < max → E (.panic "walk: va >= MAX_VA")) (hrounds : max ≤ rounds) :
    wpe E (copyinstrLoop p rounds va max dst) (fun res s' => ∃ own' bs,
      Used k s s' own own' p rest (fun u => ∃ i < max, (va + i) / PG_SIZE = u) (s.view p.pagetable) ∧
      Scanned s s' p (s.view p.pagetable) va max res.1 bs ∧ res.2 = dst ++ bs) s := by
  induction rounds generalizing s own va max dst with
  | zero =>
    obtain rfl : max = 0 := by omega
    exact wpe_pure.mpr ⟨own, _, .refl h _, .long (.done s p .load va) (by omega), by simp [Mem.loadBytes]⟩
  | succ rounds ih =>
    by_cases hlen : max = 0
    · subst hlen
      rw [copyinstrLoop, if_pos rfl]
      exact wpe_pure.mpr ⟨own, _, .refl h _, .long (.done s p .load va) (by omega), by simp [Mem.loadBytes]⟩
    have hpos : 0 < max := by omega
    rw [copyinstrLoop, if_neg hlen, wpe_bind]
    refine wpe_mono (h.userAddr_spec hp fun hge => hhigh hge hpos) ?_
    have hsub : ∀ u, u = va / PG_SIZE → ∃ i < max, (va + i) / PG_SIZE = u := by
      rintro u rfl
      exact ⟨0, hpos, rfl⟩
    rintro (_ | pa) s1 ⟨hva, own1, hused, hres⟩
    · exact wpe_pure.mpr ⟨own1, _, hused.mono hsub, .fault hpos (.refused hva hres) (by omega), by simp [Mem.loadBytes]⟩
    obtain ⟨hcan, hgrants, q, w, he, rfl, -⟩ := hres
    obtain ⟨hcpos, hcle, hin, -⟩ := chunk_spec va hpos
    have hnext := h.chunk_lt hp hva hcan max
    simp only [wpe_bind, wpe_get, hnext.2, loadBytes_chunk he hpos, hused.view]
    obtain ⟨hno, hchars⟩ | ⟨i, hi, hnul, hbefore, hchars⟩ := copyChars_loadBytes (s.view p.pagetable) va (chunk va max)
    · rw [hchars, if_neg Bool.false_ne_true]
      refine wpe_mono (ih hused.world (fun hge => absurd hge (by omega)) (by omega)) ?_
      rintro res s2 ⟨own2, bs, hused2, hscan, hbytes⟩
      rw [hused.view] at hused2 hscan
      refine ⟨own2, _, (hused.mono hsub).trans (hused2.mono ?_),
        .round hpos hva hcan hgrants hused.other (hused2.keep hva) hno hscan, ?_⟩
      · rintro u ⟨i, hi, rfl⟩
        exact ⟨chunk va max + i, by omega, by rw [Nat.add_assoc]⟩
      · rw [hbytes, List.append_assoc]
    · rw [hchars, if_pos rfl]
      refine wpe_pure.mpr ⟨own1, _, hused.mono hsub, .found (by omega) hnul hbefore
        ⟨by omega, fun j hj => ?_, fun j hj => ?_, by omega⟩
        fun u hu hlt => hused.other u hu ?_, rfl⟩
      · have hlt := hnext.1
        omega
      · rw [(hin j (by omega)).1]
        exact ⟨hcan, hgrants⟩
      · rw [(hin i hi).1] at hlt
        exact Nat.ne_of_gt hlt

end Vm

end bobchouos
