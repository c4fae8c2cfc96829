import BobchouOS.Kmalloc.Runs
import BobchouOS.Vm.Abandon
import BobchouOS.Vm.Copy
import BobchouOS.Vm.Exec
import BobchouOS.Vm.Fork
import BobchouOS.Vm.Sbrk

open lib

namespace bobchouos

namespace Vm

/-- The memory of the kernel and the processes in it. -/
structure Machine where
  kmem : Kmem
  procs : List Proc

/-- What an operation gives back: nothing, the bytes a load reads, or a result of the
kernel with the bytes it wrote to a buffer of its own. A user access that faults has
the result of the handler. -/
inductive Outcome where
  | done
  | read (bytes : Bytes)
  | ret (r : Int)
  | data (r : Int) (bytes : Bytes)
  deriving DecidableEq, Repr

namespace Machine

/-- The name of the first program. -/
def initName : Bytes := [0x69, 0x6e, 0x69, 0x74]

/-- A process is named by its place in the list. -/
inductive Op where
  | kalloc
  | create (name : Bytes)
  | init_start (i : Nat)
  | load (i va len : Nat)
  | store (i va : Nat) (src : Bytes)
  | copyin (i srcva len : Nat)
  | copyinstr (i srcva max : Nat)
  | copyout (i dstva : Nat) (src : Bytes)
  | fork (i : Nat)
  | sbrk (i : Nat) (n : BitVec 64)
  | exec (i : Nat) (path : Bytes) (argv : List Bytes)
  | exit (i : Nat)
  | reap (i : Nat)

/-- The process at `i` is a user process that has not exited. -/
def IsUser (m : Machine) (i : Nat) : Prop := ∃ p ∈ m.procs[i]?, p.pagetable ≠ 0 ∧ p.zombie = false

instance (m : Machine) (i : Nat) : Decidable (m.IsUser i) :=
  inferInstanceAs (Decidable (∃ p ∈ m.procs[i]?, p.pagetable ≠ 0 ∧ p.zombie = false))

/-- System calls and accesses are made by user processes, `init_start` is a kernel
thread, and a parent reaps what has exited. One access stays on one page. -/
def Op.Legal (m : Machine) : Op → Prop
  | .kalloc | .create _ => True
  | .init_start i => ∃ p ∈ m.procs[i]?, p.pagetable = 0 ∧ p.zombie = false
  | .load i va len => m.IsUser i ∧ va % PG_SIZE + len ≤ PG_SIZE
  | .store i va src => m.IsUser i ∧ va % PG_SIZE + src.length ≤ PG_SIZE
  | .copyin i _ _ | .copyinstr i _ _ | .copyout i _ _ | .fork i | .sbrk i _ | .exec i _ _ => m.IsUser i
  | .exit i => ∃ p ∈ m.procs[i]?, p.zombie = false
  | .reap i => ∃ p ∈ m.procs[i]?, p.zombie = true

instance (m : Machine) (op : Op) : Decidable (op.Legal m) :=
  match op with
  | .kalloc | .create _ => inferInstanceAs (Decidable True)
  | .init_start i => inferInstanceAs (Decidable (∃ p ∈ m.procs[i]?, p.pagetable = 0 ∧ p.zombie = false))
  | .load _ _ _ | .store _ _ _ => inferInstanceAs (Decidable (_ ∧ _))
  | .copyin i _ _ | .copyinstr i _ _ | .copyout i _ _ | .fork i | .sbrk i _ | .exec i _ _ =>
    inferInstanceAs (Decidable (m.IsUser i))
  | .exit i => inferInstanceAs (Decidable (∃ p ∈ m.procs[i]?, p.zombie = false))
  | .reap i => inferInstanceAs (Decidable (∃ p ∈ m.procs[i]?, p.zombie = true))

def onKmem {α : Type} (x : Prog Kmem α) : Prog Machine α := Prog.onField kmem (fun s m => { m with kmem := s }) x

def withProc {α : Type} (i : Nat) (x : Proc → Prog Machine α) : Prog Machine α := do
  let m ← get
  match m.procs[i]? with
  | none => Prog.undefined
  | some p => x p

def setProc (i : Nat) (p : Proc) : Prog Machine Unit := modify fun m => { m with procs := m.procs.set i p }

def addProc (p : Proc) : Prog Machine Unit := modify fun m => { m with procs := m.procs ++ [p] }

/-- One attempt of a user access: done with what the tables give, or a page fault. -/
def attempt (p : Proc) (va : Nat) (acc : Access) (x : Nat → Prog Machine Outcome) : Prog Machine Outcome := do
  let m ← get
  match translate m.kmem p.pagetable va acc with
  | some pa => x pa
  | none => do
    let r ← onKmem (handle_page_fault p acc.cause va)
    pure (.ret r)

def Op.run (k : Symbols) (binaries : List Binary) : Op → Prog Machine Outcome
  | .kalloc => do
    let _ ← onKmem bobchouos.kalloc
    pure .done
  | .create name => do
    match ← onKmem (proc_create name) with
    | none => Prog.panic "proc_create_kernel: out of memory"
    | some p => do
      addProc p
      pure .done
  | .init_start i => withProc i fun p => do
    let (r, p') ← onKmem (proc_exec k binaries p initName [])
    if r < 0 then
      Prog.panic "init_start: exec init failed"
    else do
      setProc i p'
      pure .done
  | .load i va len => withProc i fun p => attempt p va .load fun pa => do
    let m ← get
    pure (.read (m.kmem.mem.loadBytes pa len))
  | .store i va src => withProc i fun p => attempt p va .store fun pa => do
    onKmem (modify fun s => { s with mem := s.mem.storeBytes pa src })
    pure .done
  | .copyin i srcva len => withProc i fun p => do
    let (r, bytes) ← onKmem (Vm.copyin p srcva len)
    pure (.data r bytes)
  | .copyinstr i srcva max => withProc i fun p => do
    let (r, bytes) ← onKmem (Vm.copyinstr p srcva max)
    pure (.data r bytes)
  | .copyout i dstva src => withProc i fun p => do
    let r ← onKmem (Vm.copyout p dstva src)
    pure (.ret r)
  | .fork i => withProc i fun p => do
    match ← onKmem (proc_fork k p) with
    | none => pure (.ret (-1))
    | some child => do
      addProc child
      pure .done
  | .sbrk i n => withProc i fun p => do
    let (r, p') ← onKmem (proc_sbrk p n)
    setProc i p'
    pure (.ret r)
  | .exec i path argv => withProc i fun p => do
    let (r, p') ← onKmem (proc_exec k binaries p path argv)
    setProc i p'
    pure (.ret r)
  | .exit i => withProc i fun p => do
    setProc i { p with zombie := true }
    pure .done
  | .reap i => withProc i fun p => do
    onKmem (free_proc p)
    modify fun m => { m with procs := m.procs.eraseIdx i }
    pure .done

/-- The machine as a system. It starts where `kmalloc_init` returns, when the kernel
has taken single pages only. A halt ends the run. -/
def system (k : Symbols) (binaries : List Binary) : Lts Machine Op where
  init m := ∃ h s, (Heap.system k.kernel_end).Reachable h ∧ (∀ b ∈ h.live, b.2 = 0) ∧
    (∀ c, (h.kmem.size_classes c).slabs = 0) ∧ kmalloc_init h.kmem = .ok ((), s) ∧ m = ⟨s, []⟩
  step op m m' := op.Legal m ∧ ∃ res, op.run k binaries m = .ok (res, m')

section Boot

variable {k : Symbols} {binaries : List Binary} {m : Machine} {bs : List Block}

/-- The pages the kernel took before `kmalloc_init` are its own. -/
def bootOwners (bs : List Block) (pa : Nat) : Option Owner := (Pool.ownersOf bs pa).map fun _ => .kernel

theorem bootOwners_eq {pa : Nat} {o : Owner} (ho : bootOwners bs pa = some o) : o = .kernel := by
  obtain ⟨_, -, rfl⟩ := Option.map_eq_some_iff.mp ho
  rfl

theorem world_of_init (hinit : (system k binaries).init m) : ∃ own, World k m.kmem own m.procs := by
  obtain ⟨h, s, hreach, hsmall, hzero, hrun, rfl⟩ := hinit
  obtain ⟨free, bs, hinv⟩ := Heap.inv_of_reachable k.start_ge k.start_le hreach
  have hpages : Pages h.kmem (bootOwners bs) := by
    refine (Pool.pages_of_heap hinv).relabel fun pa => ?_
    unfold bootOwners
    cases hpa : Pool.ownersOf bs pa with
    | none => rfl
    | some o =>
      obtain ⟨b, hfind, rfl⟩ := Option.map_eq_some_iff.mp hpa
      have hb : Heap.pairOf b ∈ h.live := hinv.live ▸ List.mem_map_of_mem (List.mem_of_find?_eq_some hfind)
      have hb0 : b.order = 0 := hsmall _ hb
      simp [Owner.order, hb0]
  have hslab : ∀ c pg, bootOwners bs pg ≠ some (.slab c) := fun c pg hpg => by cases bootOwners_eq hpg
  obtain ⟨own, hp, hslabs, ht, -⟩ := (kmalloc_init_spec hpages hslab hzero).post hrun
  have hkind : ∀ pa o, own pa = some o → o = .kernel ∨ o.IsSlab := by
    intro pa o hpa
    by_cases ho : o.IsSlab
    · exact .inr ho
    · exact .inl (bootOwners_eq ((ht.owner pa o ho).mp hpa))
  have hnot : ∀ {pa o}, o ≠ .kernel → ¬ o.IsSlab → own pa ≠ some o := fun hk hs hpa =>
    (hkind _ _ hpa).elim hk hs
  refine ⟨own, ⟨⟨⟨hp, by simp [rootsOf], fun pa r path => ?_, fun pa o hpa hsingle => ?_, fun pa o hpa => ?_⟩, ?_⟩,
    hslabs, by simp [areasOf], by simp⟩, by simp, fun pa a hpa => ?_, fun pa a hpa => ?_⟩
  · exact fun hpa => absurd hpa (hnot (by simp) (by rintro ⟨_, heq⟩; cases heq))
  · rcases hkind pa o hpa with rfl | ⟨c, rfl⟩ <;> rcases hsingle with ⟨_, heq⟩ | ⟨_, heq⟩ <;> cases heq
  · rcases hkind pa o hpa with rfl | ⟨c, rfl⟩ <;> rfl
  · refine ⟨by simp [rootsOf], by simp [rootsOf], fun pa v hhome => ?_, by simp [rootsOf]⟩
    exact absurd (home_eq_some.mp hhome) (hnot (by simp) (by rintro ⟨_, heq⟩; cases heq))
  · exact absurd hpa (hnot (by simp) (by rintro ⟨_, heq⟩; cases heq))
  · exact absurd hpa (hnot (by simp) (by rintro ⟨_, heq⟩; cases heq))

end Boot

/-- `p` is the user process at place `i`, and it has not exited. -/
structure At (m : Machine) (i : Nat) (p : Proc) : Prop where
  get : m.procs[i]? = some p
  user : p.pagetable ≠ 0
  alive : p.zombie = false

/-- Why an access that the tables do not permit is refused. -/
def Refused (s' : Kmem) (p : Proc) (va : Nat) (acc : Access) : Prop := ¬ Permits p.vma_list va acc ∨ Low s'

/-- The effect of an operation that returns, with the outcome it has. -/
inductive Did (k : Symbols) (binaries : List Binary) (m : Machine) (own : Nat → Option Owner) :
    Op → Outcome → Machine → (Nat → Option Owner) → Prop
  | kalloc {s' own'} : World k s' own' m.procs → Effect (· = .kernel) (rootsOf m.procs) m.kmem s' own own' →
      Did k binaries m own .kalloc .done ⟨s', m.procs⟩ own'
  | create {name s' own' p} : World k s' own' (p :: m.procs) → Touches (OfProc p.addr) m.kmem s' own own' →
      p = { addr := p.addr, kstack := p.kstack, name := name.take (PROC_NAME_LEN - 1) } →
      Did k binaries m own (.create name) .done ⟨s', m.procs ++ [p]⟩ own'
  | init_start {i s1 s' own1 own' p p' tf bin} : m.procs[i]? = some p → p.pagetable = 0 → p.zombie = false →
      Framed k m.kmem s1 own own1 p (m.procs.eraseIdx i) tf → lookup_binary binaries initName = some bin → IsElf bin.image →
      Execed k bin.image [] initName s1 s' own1 own' { p with trapframe := tf } p' (m.procs.eraseIdx i) →
      Did k binaries m own (.init_start i) .done ⟨s', m.procs.set i p'⟩ own'
  | loaded {i va len p} : m.At i p → va % PG_SIZE + len ≤ PG_SIZE →
      Did k binaries m own (.load i va len) (.read (Mem.loadBytes (m.kmem.view p.pagetable) va len)) m own
  | load_fault {i va len r s' own' p} : m.At i p →
      Used k m.kmem s' own own' p (m.procs.eraseIdx i) (· = va / PG_SIZE) (m.kmem.view p.pagetable) →
      r = 0 ∨ r = -1 ∧ Refused s' p va .load → Did k binaries m own (.load i va len) (.ret r) ⟨s', m.procs⟩ own'
  | stored {i va src s' p} : m.At i p → va % PG_SIZE + src.length ≤ PG_SIZE →
      Used k m.kmem s' own own p (m.procs.eraseIdx i) (fun _ => False) (Mem.storeBytes (m.kmem.view p.pagetable) va src) →
      Did k binaries m own (.store i va src) .done ⟨s', m.procs⟩ own
  | store_fault {i va src r s' own' p} : m.At i p →
      Used k m.kmem s' own own' p (m.procs.eraseIdx i) (· = va / PG_SIZE) (m.kmem.view p.pagetable) →
      r = 0 ∨ r = -1 ∧ Refused s' p va .store → Did k binaries m own (.store i va src) (.ret r) ⟨s', m.procs⟩ own'
  | copyin {i va len n s' own' p} : m.At i p →
      Used k m.kmem s' own own' p (m.procs.eraseIdx i) (fun u => ∃ j < len, (va + j) / PG_SIZE = u) (m.kmem.view p.pagetable) →
      Fetched m.kmem s' p .load va len n → Did k binaries m own (.copyin i va len)
        (.data (if n = len then 0 else -EFAULT) (Mem.loadBytes (m.kmem.view p.pagetable) va n)) ⟨s', m.procs⟩ own'
  | copyinstr {i va max r bytes s' own' p} : m.At i p →
      Used k m.kmem s' own own' p (m.procs.eraseIdx i) (fun u => ∃ j < max, (va + j) / PG_SIZE = u) (m.kmem.view p.pagetable) →
      Scanned m.kmem s' p (m.kmem.view p.pagetable) va max r bytes →
      Did k binaries m own (.copyinstr i va max) (.data r bytes) ⟨s', m.procs⟩ own'
  | copyout {i va src n s' own' p} : m.At i p →
      Used k m.kmem s' own own' p (m.procs.eraseIdx i) (fun u => ∃ j < src.length, (va + j) / PG_SIZE = u)
        (Mem.storeBytes (m.kmem.view p.pagetable) va (src.take n)) →
      Fetched m.kmem s' p .store va src.length n →
      Did k binaries m own (.copyout i va src) (.ret (if n = src.length then 0 else -EFAULT)) ⟨s', m.procs⟩ own'
  | forked {i s' own' p c} : m.At i p → Forked k m.kmem s' own own' p c (m.procs.eraseIdx i) →
      Did k binaries m own (.fork i) .done ⟨s', m.procs ++ [c]⟩ own'
  | fork_failed {i s' own' p} : m.At i p → ForkFailed k m.kmem s' own own' p (m.procs.eraseIdx i) →
      Did k binaries m own (.fork i) (.ret (-1)) ⟨s', m.procs⟩ own'
  | sbrk {i n s' own' p} : m.At i p → Resized k m.kmem s' own own' p (m.procs.eraseIdx i) n →
      Did k binaries m own (.sbrk i n) (.ret (sbrkResult p n).1) ⟨s', m.procs.set i (sbrkResult p n).2⟩ own'
  | exec_failed {i path argv r s' own' p} : m.At i p → r < 0 →
      ExecFailed k binaries path argv m.kmem s' own own' p (m.procs.eraseIdx i) →
      Did k binaries m own (.exec i path argv) (.ret r) ⟨s', m.procs⟩ own'
  | execed {i path argv s' own' p p' bin} : m.At i p → lookup_binary binaries path = some bin → IsElf bin.image →
      Execed k bin.image argv path m.kmem s' own own' p p' (m.procs.eraseIdx i) →
      Did k binaries m own (.exec i path argv) (.ret argv.length) ⟨s', m.procs.set i p'⟩ own'
  | exit {i p} : m.procs[i]? = some p → p.zombie = false →
      Did k binaries m own (.exit i) .done { m with procs := m.procs.set i { p with zombie := true } } own
  | reap {i s' own' p} : m.procs[i]? = some p → p.zombie = true → World k s' own' (m.procs.eraseIdx i) →
      Effect (OfDead p) (rootsOf (m.procs.eraseIdx i)) m.kmem s' own own' →
      Did k binaries m own (.reap i) .done ⟨s', m.procs.eraseIdx i⟩ own'

section Steps

variable {E : Halt → Prop} {k : Symbols} {binaries : List Binary} {m m' : Machine} {own own' : Nat → Option Owner}
  {procs rest : List Proc} {s s' : Kmem} {p p' : Proc} {i va len : Nat} {acc : Access} {α : Type}

@[simp] theorem wpe_onKmem {x : Prog Kmem α} {Q : α → Machine → Prop} :
    wpe E (onKmem x) Q m ↔ wpe E x (fun a s => Q a { m with kmem := s }) m.kmem := wpe_onField

@[simp] theorem wpe_setProc {Q : Unit → Machine → Prop} :
    wpe E (setProc i p) Q m ↔ Q () { m with procs := m.procs.set i p } := Iff.rfl

@[simp] theorem wpe_addProc {Q : Unit → Machine → Prop} :
    wpe E (addProc p) Q m ↔ Q () { m with procs := m.procs ++ [p] } := Iff.rfl

theorem wpe_withProc {x : Proc → Prog Machine α} {Q : α → Machine → Prop} (hi : m.procs[i]? = some p) :
    wpe E (withProc i x) Q m ↔ wpe E (x p) Q m := by
  simp only [withProc, wpe_bind, wpe_get, hi]

theorem perm_of_get (hi : procs[i]? = some p) : procs.Perm (p :: procs.eraseIdx i) := by
  obtain ⟨hlt, rfl⟩ := List.getElem?_eq_some_iff.mp hi
  exact (List.getElem_cons_eraseIdx_perm hlt).symm

theorem set_perm (hi : procs[i]? = some p) (p' : Proc) : (procs.set i p').Perm (p' :: procs.eraseIdx i) :=
  List.set_perm_cons_eraseIdx (List.getElem?_eq_some_iff.mp hi).1 p'

theorem set_same (hi : procs[i]? = some p) : procs.set i p = procs := by
  obtain ⟨hlt, rfl⟩ := List.getElem?_eq_some_iff.mp hi
  exact List.set_getElem_self hlt

theorem At.world (hat : m.At i p) (h : World k m.kmem own m.procs) : World k m.kmem own (p :: m.procs.eraseIdx i) :=
  h.perm (perm_of_get hat.get)

theorem IsUser.at (h : m.IsUser i) : ∃ p, m.At i p := by
  obtain ⟨p, hget, huser, halive⟩ := h
  exact ⟨p, hget, huser, halive⟩

/-- The bytes of one page, read through its entry. -/
theorem loadBytes_page {r q : Nat} {w : Bool} (he : s.entry r (va / PG_SIZE) = some (q, w))
    (hfit : va % PG_SIZE + len ≤ PG_SIZE) : s.mem.loadBytes (q + va % PG_SIZE) len = Mem.loadBytes (s.view r) va len := by
  refine List.map_congr_left fun j hj => ?_
  have hlt := List.mem_range.mp hj
  have hpage : (va + j) / PG_SIZE = va / PG_SIZE ∧ (va + j) % PG_SIZE = va % PG_SIZE + j := by
    simp only [PG_SIZE] at *
    omega
  rw [view_of_entry he hpage.1, hpage.2, Nat.add_assoc]

/-- A page fault of an access that the tables do not permit. -/
theorem fault_spec (h : World k s own (p :: rest)) (hp : p.pagetable ≠ 0)
    (hhigh : MAX_VA ≤ va → E (.panic "walk: va >= MAX_VA")) (hnone : translate s p.pagetable va acc = none) :
    wpe E (handle_page_fault p acc.cause va) (fun r s' => ∃ own',
      Used k s s' own own' p rest (· = va / PG_SIZE) (s.view p.pagetable) ∧ (r = 0 ∨ r = -1 ∧ Refused s' p va acc)) s := by
  have hr : p.pagetable ∈ rootsOf (p :: rest) := root_mem (by simp) hp
  have hsp := ((h.proc p (by simp)).user hp).2
  refine wpe_mono (handle_page_fault_spec h.memory.spaces hr hsp hhigh) ?_
  rintro r s' ⟨own', hfault, hres⟩
  refine ⟨own', .of_faulted h hp hfault, ?_⟩
  rcases hres with ⟨rfl, -, ⟨hdenied, -⟩ | hlow | ⟨-, hva, hvalid, hcow⟩⟩ | ⟨rfl, -⟩
  · exact .inr ⟨rfl, .inl hdenied.not_permits⟩
  · exact .inr ⟨rfl, .inr hlow⟩
  · exact .inr ⟨rfl, .inl (not_permits_of_stuck (h.memory.spaces.tables _ hr) hsp hva hvalid hcow hnone)⟩
  · exact .inl rfl

theorem load_spec (h : World k m.kmem own m.procs) (hlegal : Op.Legal m (.load i va len))
    (hhigh : MAX_VA ≤ va → E (.panic "walk: va >= MAX_VA")) :
    wpe E ((Op.load i va len).run k binaries) (fun res m' => ∃ own', Did k binaries m own (.load i va len) res m' own') m := by
  obtain ⟨huser, hfit⟩ := hlegal
  obtain ⟨p, hat⟩ := huser.at
  have hw := hat.world h
  rw [Op.run, wpe_withProc hat.get, attempt, wpe_bind, wpe_get]
  cases htr : translate m.kmem p.pagetable va .load with
  | some pa =>
    obtain ⟨q, w, he, rfl, -⟩ := (access_of_translate hw.memory.spaces (root_mem (by simp) hat.user)
      ((hw.proc p (by simp)).user hat.user).2 (hw.trapframe_range hat.user) htr).entry
    simp only [wpe_bind, wpe_get, wpe_pure, loadBytes_page he hfit]
    exact ⟨own, .loaded hat hfit⟩
  | none =>
    simp only [wpe_bind, wpe_onKmem, wpe_pure]
    refine wpe_mono (fault_spec hw hat.user hhigh htr) ?_
    rintro r s' ⟨own', hused, hr⟩
    exact ⟨own', .load_fault hat hused hr⟩

theorem store_spec {src : Bytes} (h : World k m.kmem own m.procs) (hlegal : Op.Legal m (.store i va src))
    (hhigh : MAX_VA ≤ va → E (.panic "walk: va >= MAX_VA")) :
    wpe E ((Op.store i va src).run k binaries) (fun res m' => ∃ own', Did k binaries m own (.store i va src) res m' own') m := by
  obtain ⟨huser, hfit⟩ := hlegal
  obtain ⟨p, hat⟩ := huser.at
  have hw := hat.world h
  rw [Op.run, wpe_withProc hat.get, attempt, wpe_bind, wpe_get]
  cases htr : translate m.kmem p.pagetable va .store with
  | some pa =>
    obtain ⟨q, w, he, rfl, hwrite⟩ := (access_of_translate hw.memory.spaces (root_mem (by simp) hat.user)
      ((hw.proc p (by simp)).user hat.user).2 (hw.trapframe_range hat.user) htr).entry
    obtain rfl := hwrite rfl
    simp only [wpe_bind, wpe_onKmem, wpe_modify, wpe_pure]
    exact ⟨own, .stored hat hfit (hw.store hat.user he hfit)⟩
  | none =>
    simp only [wpe_bind, wpe_onKmem, wpe_pure]
    refine wpe_mono (fault_spec hw hat.user hhigh htr) ?_
    rintro r s' ⟨own', hused, hr⟩
    exact ⟨own', .store_fault hat hused hr⟩

theorem copyin_spec (h : World k m.kmem own m.procs) (huser : m.IsUser i)
    (hhigh : MAX_VA ≤ va → 0 < len → E (.panic "walk: va >= MAX_VA")) :
    wpe E ((Op.copyin i va len).run k binaries)
      (fun res m' => ∃ own', Did k binaries m own (.copyin i va len) res m' own') m := by
  obtain ⟨p, hat⟩ := huser.at
  rw [Op.run, wpe_withProc hat.get]
  simp only [wpe_bind, wpe_onKmem, wpe_pure]
  refine wpe_mono (copyinLoop_spec (hat.world h) hat.user hhigh (Nat.le_refl len)) ?_
  rintro ⟨r, bytes⟩ s' ⟨own', n, hused, hfetch, hbytes, hr⟩
  obtain rfl : r = _ := hr
  obtain rfl : bytes = _ := hbytes
  exact ⟨own', .copyin hat hused hfetch⟩

theorem copyinstr_spec {max : Nat} (h : World k m.kmem own m.procs) (huser : m.IsUser i)
    (hhigh : MAX_VA ≤ va → 0 < max → E (.panic "walk: va >= MAX_VA")) :
    wpe E ((Op.copyinstr i va max).run k binaries)
      (fun res m' => ∃ own', Did k binaries m own (.copyinstr i va max) res m' own') m := by
  obtain ⟨p, hat⟩ := huser.at
  rw [Op.run, wpe_withProc hat.get]
  simp only [wpe_bind, wpe_onKmem, wpe_pure]
  refine wpe_mono (copyinstrLoop_spec (hat.world h) hat.user hhigh (Nat.le_refl max)) ?_
  rintro ⟨r, bytes⟩ s' ⟨own', bs, hused, hscan, hbytes⟩
  obtain rfl : bytes = _ := hbytes
  exact ⟨own', .copyinstr hat hused hscan⟩

theorem copyout_spec {src : Bytes} (h : World k m.kmem own m.procs) (huser : m.IsUser i)
    (hhigh : MAX_VA ≤ va → 0 < src.length → E (.panic "walk: va >= MAX_VA")) :
    wpe E ((Op.copyout i va src).run k binaries)
      (fun res m' => ∃ own', Did k binaries m own (.copyout i va src) res m' own') m := by
  obtain ⟨p, hat⟩ := huser.at
  rw [Op.run, wpe_withProc hat.get]
  simp only [wpe_bind, wpe_onKmem, wpe_pure]
  refine wpe_mono (copyoutLoop_spec (hat.world h) hat.user hhigh (Nat.le_refl src.length)) ?_
  rintro r s' ⟨own', n, hused, hfetch, rfl⟩
  exact ⟨own', .copyout hat hused hfetch⟩

theorem fork_spec (h : World k m.kmem own m.procs) (hat : m.At i p)
    (hhigh : ∀ a ∈ p.vma_list, MAX_VA ≤ a.start → a.start < a.end_ → E (.panic "walk: va >= MAX_VA"))
    (hdouble : ¬ p.vma_list.Pairwise Apart → E (.panic "map_pages: double-map va=%p")) :
    wpe E ((Op.fork i).run k binaries) (fun res m' => ∃ own', Did k binaries m own (.fork i) res m' own') m := by
  rw [Op.run, wpe_withProc hat.get]
  simp only [wpe_bind, wpe_onKmem]
  refine wpe_mono (proc_fork_spec (hat.world h) hat.user hhigh hdouble) ?_
  rintro (_ | c) s' ⟨own', hres⟩
  · exact ⟨own', .fork_failed hat hres⟩
  · exact ⟨own', .forked hat hres⟩

theorem sbrk_spec {n : BitVec 64} (h : World k m.kmem own m.procs) (hat : m.At i p)
    (hhigh : ∀ a ∈ p.vma_list, MAX_VA ≤ a.start → a.start < a.end_ → E (.panic "walk: va >= MAX_VA")) :
    wpe E ((Op.sbrk i n).run k binaries) (fun res m' => ∃ own', Did k binaries m own (.sbrk i n) res m' own') m := by
  rw [Op.run, wpe_withProc hat.get]
  simp only [wpe_bind, wpe_onKmem, wpe_setProc, wpe_pure]
  refine wpe_mono (proc_sbrk_spec (hat.world h) hat.user n hhigh) ?_
  rintro _ s' ⟨rfl, own', hres⟩
  exact ⟨own', .sbrk hat hres⟩

theorem exec_spec {path : Bytes} {argv : List Bytes} (h : World k m.kmem own m.procs) (hat : m.At i p)
    (hold : ∀ a ∈ p.vma_list, MAX_VA ≤ a.start → a.start < a.end_ → E (.panic "walk: va >= MAX_VA"))
    (hbad : ∀ bin, lookup_binary binaries path = some bin → ¬ SegmentsApart (segments bin.image) → ExecPanics E) :
    wpe E ((Op.exec i path argv).run k binaries)
      (fun res m' => ∃ own', Did k binaries m own (.exec i path argv) res m' own') m := by
  have hw := hat.world h
  have htf := ((hw.proc p (by simp)).user hat.user).1
  rw [Op.run, wpe_withProc hat.get]
  simp only [wpe_bind, wpe_onKmem, wpe_setProc, wpe_pure]
  refine wpe_mono (proc_exec_spec hw hold hbad) ?_
  rintro ⟨r, p'⟩ s' (⟨-, -, hz, -⟩ | ⟨tf, s1, own1, own', hframed, hres⟩)
  · exact absurd hz htf
  obtain ⟨rfl, rfl, rfl⟩ := hframed.same htf
  rcases hres with ⟨hneg, hp', hfail⟩ | ⟨bin, hbin, helf, hr, hexec⟩
  · obtain rfl : p' = p := hp'
    simp only [set_same hat.get]
    exact ⟨own', .exec_failed hat hneg hfail⟩
  · obtain rfl : r = _ := hr
    exact ⟨own', .execed hat hbin helf hexec⟩

theorem init_start_spec (h : World k m.kmem own m.procs) (hget : m.procs[i]? = some p) (hkernel : p.pagetable = 0)
    (halive : p.zombie = false) (hfail : E (.panic "init_start: exec init failed"))
    (hbad : ∀ bin, lookup_binary binaries initName = some bin → ¬ SegmentsApart (segments bin.image) → ExecPanics E) :
    wpe E ((Op.init_start i).run k binaries)
      (fun res m' => ∃ own', Did k binaries m own (.init_start i) res m' own') m := by
  rw [Op.run, wpe_withProc hget]
  simp only [wpe_bind, wpe_onKmem, wpe_ite, wpe_panic, wpe_setProc, wpe_pure]
  have hw := h.perm (perm_of_get hget)
  have hempty := (hw.proc p (by simp)).kernel hkernel
  refine wpe_mono (proc_exec_spec hw (by simp [hempty]) hbad) ?_
  rintro ⟨r, p'⟩ s' hres
  refine ⟨fun _ => hfail, fun hr => ?_⟩
  rcases hres with ⟨heq, -⟩ | ⟨tf, s1, own1, own', hframed, ⟨hneg, -⟩ | ⟨bin, hbin, helf, -, hexec⟩⟩
  · obtain rfl : r = -ENOMEM := congrArg Prod.fst heq
    exact absurd (show -ENOMEM < 0 by decide) hr
  · exact absurd hneg hr
  · exact ⟨own', .init_start hget hkernel halive hframed hbin helf hexec⟩

theorem kalloc_spec (h : World k m.kmem own m.procs) :
    wpe E (Op.kalloc.run k binaries) (fun res m' => ∃ own', Did k binaries m own .kalloc res m' own') m := by
  simp only [Op.run, wpe_bind, wpe_onKmem, wpe_pure]
  refine wpe_mono h.memory.spaces.pages.kalloc_spec.wpe ?_
  rintro pg s' (⟨rfl, rfl, -⟩ | hf)
  · exact ⟨own, .kalloc h (.refl _ _ _ _)⟩
  · obtain ⟨hmem, ht⟩ := h.memory.kernel hf.toHeld
    refine ⟨_, .kalloc (h.frame hmem ht (by simp) (by simp) (by simp)) (h.memory.spaces.effect_of_touches ht ?_)⟩
    rintro _ rfl ⟨v, heq⟩
    cases heq

theorem create_spec {name : Bytes} (h : World k m.kmem own m.procs)
    (hfail : E (.panic "proc_create_kernel: out of memory")) :
    wpe E ((Op.create name).run k binaries) (fun res m' => ∃ own', Did k binaries m own (.create name) res m' own') m := by
  simp only [Op.run, wpe_bind, wpe_onKmem]
  refine wpe_mono (h.proc_create_spec name).wpe ?_
  rintro (_ | p) s' ⟨own', hres⟩
  · exact hfail
  · obtain ⟨hw, ht, hp⟩ := hres
    exact ⟨own', .create hw ht hp⟩

theorem reap_spec (h : World k m.kmem own m.procs) (hthread : ∀ p ∈ m.procs, p.pagetable = 0 → p.trapframe = 0)
    (hget : m.procs[i]? = some p) (hzombie : p.zombie = true)
    (hhigh : ∀ a ∈ p.vma_list, MAX_VA ≤ a.start → a.start < a.end_ → E (.panic "walk: va >= MAX_VA")) :
    wpe E ((Op.reap i).run k binaries) (fun res m' => ∃ own', Did k binaries m own (.reap i) res m' own') m := by
  rw [Op.run, wpe_withProc hget]
  simp only [wpe_bind, wpe_onKmem, wpe_modify, wpe_pure]
  refine wpe_mono (free_proc_spec (h.perm (perm_of_get hget)) (hthread p (List.mem_of_getElem? hget)) hhigh) ?_
  rintro _ s' ⟨own', hw, heff⟩
  exact ⟨own', .reap hget hzombie hw heff⟩

/-- What holds between operations. Only user processes have a trapframe. -/
structure Inv (k : Symbols) (m : Machine) (own : Nat → Option Owner) : Prop where
  world : World k m.kmem own m.procs
  thread : ∀ p ∈ m.procs, p.pagetable = 0 → p.trapframe = 0

/-- A process has an area out of reach of `walk`. -/
def HighArea (m : Machine) (i : Nat) : Prop := ∃ p ∈ m.procs[i]?, ∃ a ∈ p.vma_list, MAX_VA ≤ a.start ∧ a.start < a.end_

/-- A program has segments that share pages with each other or with the stack. -/
def Overlaps (binaries : List Binary) (path : Bytes) : Prop :=
  ∃ bin, lookup_binary binaries path = some bin ∧ ¬ SegmentsApart (segments bin.image)

/-- How an operation can halt. -/
def Op.Halts (binaries : List Binary) (m : Machine) (e : Halt) : Op → Prop
  | .kalloc | .exit _ => False
  | .create _ => e = .panic "proc_create_kernel: out of memory"
  | .init_start _ => e = .panic "init_start: exec init failed" ∨ Overlaps binaries initName
  | .load _ va _ | .store _ va _ => MAX_VA ≤ va ∧ e = .panic "walk: va >= MAX_VA"
  | .copyin _ va len | .copyinstr _ va len => MAX_VA ≤ va ∧ 0 < len ∧ e = .panic "walk: va >= MAX_VA"
  | .copyout _ va src => MAX_VA ≤ va ∧ 0 < src.length ∧ e = .panic "walk: va >= MAX_VA"
  | .fork i => m.HighArea i ∧ e = .panic "walk: va >= MAX_VA" ∨
      (∃ p ∈ m.procs[i]?, ¬ p.vma_list.Pairwise Apart) ∧ e = .panic "map_pages: double-map va=%p"
  | .sbrk i _ | .reap i => m.HighArea i ∧ e = .panic "walk: va >= MAX_VA"
  | .exec i path _ => m.HighArea i ∧ e = .panic "walk: va >= MAX_VA" ∨ Overlaps binaries path

/-- Every operation has one of the effects, or halts. -/
theorem run_halts {op : Op} (h : Inv k m own) (hlegal : op.Legal m) :
    wpe (fun e => op.Halts binaries m e) (op.run k binaries)
      (fun res m' => ∃ own', Did k binaries m own op res m' own') m := by
  have hhigh : ∀ {i : Nat} {p : Proc}, m.procs[i]? = some p →
      ∀ a ∈ p.vma_list, MAX_VA ≤ a.start → a.start < a.end_ → m.HighArea i := fun hget a ha hge hpos =>
    ⟨_, hget, a, ha, hge, hpos⟩
  cases op with
  | kalloc => exact kalloc_spec h.world
  | create name => exact create_spec h.world rfl
  | init_start i =>
    obtain ⟨p, hget, hkernel, halive⟩ := hlegal
    refine init_start_spec h.world hget hkernel halive (.inl rfl) fun bin hbin hbad => ?_
    exact ⟨.inr ⟨bin, hbin, hbad⟩, .inr ⟨bin, hbin, hbad⟩, .inr ⟨bin, hbin, hbad⟩⟩
  | load i va len => exact load_spec h.world hlegal fun hge => ⟨hge, rfl⟩
  | store i va src => exact store_spec h.world hlegal fun hge => ⟨hge, rfl⟩
  | copyin i va len => exact copyin_spec h.world hlegal fun hge hpos => ⟨hge, hpos, rfl⟩
  | copyinstr i va max => exact copyinstr_spec h.world hlegal fun hge hpos => ⟨hge, hpos, rfl⟩
  | copyout i va src => exact copyout_spec h.world hlegal fun hge hpos => ⟨hge, hpos, rfl⟩
  | fork i =>
    obtain ⟨p, hat⟩ := IsUser.at hlegal
    exact fork_spec h.world hat (fun a ha hge hpos => .inl ⟨hhigh hat.get a ha hge hpos, rfl⟩)
      fun hover => .inr ⟨⟨p, hat.get, hover⟩, rfl⟩
  | sbrk i n =>
    obtain ⟨p, hat⟩ := IsUser.at hlegal
    exact sbrk_spec h.world hat fun a ha hge hpos => ⟨hhigh hat.get a ha hge hpos, rfl⟩
  | exec i path argv =>
    obtain ⟨p, hat⟩ := IsUser.at hlegal
    refine exec_spec h.world hat (fun a ha hge hpos => .inl ⟨hhigh hat.get a ha hge hpos, rfl⟩) fun bin hbin hbad => ?_
    exact ⟨.inr ⟨bin, hbin, hbad⟩, .inr ⟨bin, hbin, hbad⟩, .inr ⟨bin, hbin, hbad⟩⟩
  | exit i =>
    obtain ⟨p, hget, halive⟩ := hlegal
    rw [Op.run, wpe_withProc hget]
    exact ⟨own, .exit hget halive⟩
  | reap i =>
    obtain ⟨p, hget, hzombie⟩ := hlegal
    exact reap_spec h.world h.thread hget hzombie fun a ha hge hpos => ⟨hhigh hget a ha hge hpos, rfl⟩

/-- What an operation does if it does not halt. -/
theorem run_spec {op : Op} (h : Inv k m own) (hlegal : op.Legal m) :
    wpe (fun _ => True) (op.run k binaries) (fun res m' => ∃ own', Did k binaries m own op res m' own') m :=
  (run_halts h hlegal).weaken fun _ _ => trivial

theorem sbrkResult_same (p : Proc) (n : BitVec 64) : (sbrkResult p n).2 = { p with vma_list := (sbrkResult p n).2.vma_list } := by
  unfold sbrkResult
  split
  · rfl
  · split <;> rfl

/-- The exit of a process is about no memory. -/
theorem world_zombie (h : World k s own (p :: rest)) : World k s own ({ p with zombie := true } :: rest) := by
  have hok := h.proc p (by simp)
  refine ⟨h.memory, fun q hq => ?_, fun pa a hpa => ?_, fun pa a hpa => ?_⟩
  · rcases List.mem_cons.mp hq with rfl | hq
    · exact ⟨⟨hok.user, hok.kernel, hok.heap⟩, hok.kstack, hok.trapframe⟩
    · exact h.proc q (List.mem_cons_of_mem _ hq)
  · obtain ⟨q, hq, hqa⟩ := h.kstack pa a hpa
    rcases List.mem_cons.mp hq with rfl | hq
    · exact ⟨_, List.mem_cons_self, hqa⟩
    · exact ⟨q, List.mem_cons_of_mem _ hq, hqa⟩
  · obtain ⟨q, hq, hqa⟩ := h.trapframe pa a hpa
    rcases List.mem_cons.mp hq with rfl | hq
    · exact ⟨_, List.mem_cons_self, hqa⟩
    · exact ⟨q, List.mem_cons_of_mem _ hq, hqa⟩

theorem Did.inv {op : Op} {res : Outcome} (h : Inv k m own) (hdid : Did k binaries m own op res m' own') : Inv k m' own' := by
  have hset : ∀ {i p p' s'}, m.procs[i]? = some p → World k s' own' (p' :: m.procs.eraseIdx i) →
      (p'.pagetable = 0 → p'.trapframe = 0) → Inv k ⟨s', m.procs.set i p'⟩ own' := by
    intro i p p' s' hget hw hp'
    refine ⟨hw.perm (set_perm hget p').symm, fun q hq => ?_⟩
    rcases List.mem_or_eq_of_mem_set hq with hq | rfl
    · exact h.thread q hq
    · exact hp'
  have hsame : ∀ {i p s'}, m.At i p → World k s' own' (p :: m.procs.eraseIdx i) → Inv k ⟨s', m.procs⟩ own' := fun hat hw =>
    ⟨hw.perm (perm_of_get hat.get).symm, h.thread⟩
  have hadd : ∀ {p s'}, World k s' own' (p :: m.procs) → (p.pagetable = 0 → p.trapframe = 0) →
      Inv k ⟨s', m.procs ++ [p]⟩ own' := by
    intro p s' hw hp
    refine ⟨hw.perm (List.perm_append_singleton p m.procs).symm, fun q hq => ?_⟩
    rcases List.mem_append.mp hq with hq | hq
    · exact h.thread q hq
    · obtain rfl := List.mem_singleton.mp hq
      exact hp
  cases hdid with
  | kalloc hw _ => exact ⟨hw, h.thread⟩
  | create hw _ hp => exact hadd hw fun _ => by rw [hp]
  | init_start hget _ _ _ _ _ hexec => exact hset hget hexec.world fun hz => absurd hz hexec.root
  | loaded => exact h
  | load_fault hat hused _ => exact hsame hat hused.world
  | stored hat _ hused => exact hsame hat hused.world
  | store_fault hat hused _ => exact hsame hat hused.world
  | copyin hat hused _ => exact hsame hat hused.world
  | copyinstr hat hused _ => exact hsame hat hused.world
  | copyout hat hused _ => exact hsame hat hused.world
  | forked hat hf =>
    exact hadd (hf.world.perm ((perm_of_get hat.get).symm.cons _)) fun hz => absurd hz hf.root
  | fork_failed hat hf => exact hsame hat hf.world
  | sbrk hat hres =>
    refine hset hat.get hres.world fun hz => ?_
    rw [sbrkResult_same] at hz
    exact absurd hz hat.user
  | exec_failed hat _ hfail => exact hsame hat hfail.world
  | execed hat _ _ hexec => exact hset hat.get hexec.world fun hz => absurd hz hexec.root
  | exit hget _ =>
    have hthread := h.thread _ (List.mem_of_getElem? hget)
    exact hset hget (world_zombie (h.world.perm (perm_of_get hget))) hthread
  | reap _ _ hw _ => exact ⟨hw, fun q hq => h.thread q (List.mem_of_mem_eraseIdx hq)⟩

theorem inv_of_reachable (hreach : (system k binaries).Reachable m) : ∃ own, Inv k m own := by
  apply hreach.invariant
  · intro m hinit
    obtain ⟨own, hw⟩ := world_of_init hinit
    obtain ⟨h, s, -, -, -, -, rfl⟩ := hinit
    exact ⟨own, hw, by simp⟩
  · rintro op m m' ⟨own, hinv⟩ ⟨hlegal, res, hrun⟩
    obtain ⟨own', hdid⟩ := (run_spec hinv hlegal).post hrun
    exact ⟨own', hdid.inv hinv⟩

/-- A property of area lists that programs start with, and that fork and sbrk keep. -/
structure UserKept (k : Symbols) (binaries : List Binary) (V : List Vma → Prop) : Prop where
  exec : ∀ bin ∈ binaries, ∀ vmas, IsAreas bin.image vmas → V vmas
  fork : ∀ vmas news, V vmas → List.Forall₂ SameArea vmas news → V (news.foldl (fun l v => vma_add v l) [])
  sbrk : ∀ s own p rest n, World k s own (p :: rest) → p.pagetable ≠ 0 → V p.vma_list → V (sbrkResult p n).2.vma_list

/-- One that kernel threads have as well. -/
structure Kept (k : Symbols) (binaries : List Binary) (V : List Vma → Prop) : Prop extends UserKept k binaries V where
  nil : V []

theorem Did.kept {V : List Vma → Prop} {op : Op} {res : Outcome} (hkept : UserKept k binaries V) (h : Inv k m own)
    (hdid : Did k binaries m own op res m' own') (hV : ∀ p ∈ m.procs, p.pagetable ≠ 0 → V p.vma_list) :
    ∀ p ∈ m'.procs, p.pagetable ≠ 0 → V p.vma_list := by
  have hset : ∀ {i : Nat} {p' : Proc}, (p'.pagetable ≠ 0 → V p'.vma_list) →
      ∀ q ∈ m.procs.set i p', q.pagetable ≠ 0 → V q.vma_list := by
    intro i p' hp' q hq
    rcases List.mem_or_eq_of_mem_set hq with hq | rfl
    · exact hV q hq
    · exact hp'
  have hadd : ∀ {p : Proc}, (p.pagetable ≠ 0 → V p.vma_list) → ∀ q ∈ m.procs ++ [p], q.pagetable ≠ 0 → V q.vma_list := by
    intro p hp q hq
    rcases List.mem_append.mp hq with hq | hq
    · exact hV q hq
    · obtain rfl := List.mem_singleton.mp hq
      exact hp
  cases hdid with
  | create _ _ hp =>
    refine hadd fun hne => absurd ?_ hne
    rw [hp]
  | init_start _ _ _ _ hbin _ hexec =>
    exact hset fun _ => hkept.exec _ (List.mem_of_find?_eq_some hbin) _ hexec.program.areas
  | execed _ hbin _ hexec => exact hset fun _ => hkept.exec _ (List.mem_of_find?_eq_some hbin) _ hexec.program.areas
  | forked hat hf =>
    obtain ⟨news, hlist, hsame⟩ := hf.areas
    refine hadd fun _ => ?_
    rw [hlist]
    exact hkept.fork _ _ (hV _ (List.mem_of_getElem? hat.get) hat.user) hsame
  | sbrk hat _ =>
    exact hset fun _ => hkept.sbrk _ _ _ _ _ (hat.world h.world) hat.user (hV _ (List.mem_of_getElem? hat.get) hat.user)
  | exit hget _ =>
    have hold := hV _ (List.mem_of_getElem? hget)
    exact hset hold
  | reap => exact fun q hq => hV q (List.mem_of_mem_eraseIdx hq)
  | _ => exact hV

/-- In every reachable state the user processes have it. -/
theorem UserKept.reachable {V : List Vma → Prop} (hkept : UserKept k binaries V)
    (hreach : (system k binaries).Reachable m) : ∀ p ∈ m.procs, p.pagetable ≠ 0 → V p.vma_list := by
  have hboth : (∃ own, Inv k m own) ∧ ∀ p ∈ m.procs, p.pagetable ≠ 0 → V p.vma_list := by
    apply hreach.invariant (P := fun m => (∃ own, Inv k m own) ∧ ∀ p ∈ m.procs, p.pagetable ≠ 0 → V p.vma_list)
    · intro m hinit
      refine ⟨inv_of_reachable (.init hinit), ?_⟩
      obtain ⟨h, s, -, -, -, -, rfl⟩ := hinit
      simp
    · rintro op m m' ⟨⟨own, hinv⟩, hV⟩ ⟨hlegal, res, hrun⟩
      obtain ⟨own', hdid⟩ := (run_spec hinv hlegal).post hrun
      exact ⟨⟨own', hdid.inv hinv⟩, hdid.kept hkept hinv hV⟩
  exact hboth.2

theorem Kept.reachable {V : List Vma → Prop} (hkept : Kept k binaries V) (hreach : (system k binaries).Reachable m) :
    ∀ p ∈ m.procs, V p.vma_list := by
  intro p hp
  by_cases huser : p.pagetable = 0
  · obtain ⟨own, hinv⟩ := inv_of_reachable hreach
    rw [(hinv.world.proc p hp).kernel huser]
    exact hkept.nil
  · exact hkept.toUserKept.reachable hreach p hp huser

end Steps

section Runs

variable {k : Symbols} {binaries : List Binary} {m m' : Machine} {ops : List Op} {outs : List Outcome}

/-- Operations one after another, with their outcomes. -/
def runFrom (k : Symbols) (binaries : List Binary) : List Op → Machine → Option (Machine × List Outcome)
  | [], m => some (m, [])
  | op :: ops, m =>
    if op.Legal m then
      match op.run k binaries m with
      | .ok (res, m') => (runFrom k binaries ops m').map fun r => (r.1, res :: r.2)
      | .error _ => none
    else
      none

/-- Operations from the start of a machine whose memory is zero. -/
def bootRun (k : Symbols) (binaries : List Binary) (ops : List Op) : Option (Machine × List Outcome) :=
  ((kalloc_init k.kernel_end ⟨fun _ => 0, fun _ => {}, fun _ => {}, 0, fun _ => {}⟩).toOption.bind fun r =>
    (kmalloc_init r.2).toOption).bind fun r => runFrom k binaries ops ⟨r.2, []⟩

theorem eq_ok_of_toOption {α : Type} {x : Except Halt α} {a : α} (h : x.toOption = some a) : x = .ok a := by
  cases x with
  | error halt => cases h
  | ok b => rw [Option.some.inj h]

theorem reachable_runFrom (hreach : (system k binaries).Reachable m) (hrun : runFrom k binaries ops m = some (m', outs)) :
    (system k binaries).Reachable m' := by
  induction ops generalizing m outs with
  | nil =>
    obtain ⟨rfl, -⟩ := Prod.mk.inj (Option.some.inj hrun)
    exact hreach
  | cons op ops ih =>
    rw [runFrom] at hrun
    split_ifs at hrun with hlegal
    cases hop : op.run k binaries m with
    | error halt => simp [hop] at hrun
    | ok r =>
      rw [hop] at hrun
      obtain ⟨⟨m'', outs'⟩, hrest, heq⟩ := Option.map_eq_some_iff.mp hrun
      obtain ⟨rfl, -⟩ := Prod.mk.inj heq
      exact ih (hreach.step ⟨hlegal, r.1, hop⟩) hrest

theorem reachable_bootRun (hrun : bootRun k binaries ops = some (m, outs)) : (system k binaries).Reachable m := by
  obtain ⟨⟨⟨⟩, s'⟩, hboot, hrun⟩ := Option.bind_eq_some_iff.mp hrun
  obtain ⟨⟨⟨⟩, s⟩, hinit, hk⟩ := Option.bind_eq_some_iff.mp hboot
  replace hinit := eq_ok_of_toOption hinit
  have hzero : ∀ c, (s.size_classes c).slabs = 0 := fun c => by rw [((SameSlabs.kalloc_init _ _).post hinit).2]
  exact reachable_runFrom (.init ⟨⟨s, []⟩, s', .init ⟨_, s, hinit, rfl⟩, by simp, hzero, eq_ok_of_toOption hk, rfl⟩) hrun

/-- What a run from boot shows of its last state and outcomes. -/
theorem exists_of_bootRun (k : Symbols) (binaries : List Binary) (ops : List Op) (P : Machine → List Outcome → Bool)
    (h : (bootRun k binaries ops).any (fun r => P r.1 r.2) = true) :
    ∃ m outs, (system k binaries).Reachable m ∧ bootRun k binaries ops = some (m, outs) ∧ P m outs = true := by
  cases hrun : bootRun k binaries ops with
  | none =>
    rw [hrun] at h
    cases h
  | some r =>
    rw [hrun] at h
    exact ⟨r.1, r.2, reachable_bootRun hrun, rfl, h⟩

/-- What a run from boot shows of a user process in its last state. -/
theorem exists_at_of_bootRun (k : Symbols) (binaries : List Binary) (ops : List Op) (i : Nat) (P : Machine → Proc → Bool)
    (h : (bootRun k binaries ops).any (fun r => r.1.procs[i]?.any fun p =>
      decide (p.pagetable ≠ 0) && decide (p.zombie = false) && P r.1 p) = true) :
    ∃ m p, (system k binaries).Reachable m ∧ m.At i p ∧ P m p = true := by
  cases hrun : bootRun k binaries ops with
  | none =>
    rw [hrun] at h
    cases h
  | some r =>
    rw [hrun, Option.any_some] at h
    cases hget : r.1.procs[i]? with
    | none =>
      rw [hget] at h
      cases h
    | some p =>
      simp only [hget, Option.any_some, Bool.and_eq_true, decide_eq_true_eq] at h
      exact ⟨r.1, p, reachable_bootRun hrun, ⟨hget, h.1.1, h.1.2⟩, h.2⟩

/-- A kernel with 32 free pages behind it. -/
def smallKernel : Symbols where
  kernel_end := 0x87EE0000
  user_vec := 0x80001000
  user_trap := 0x80002000
  satp := 0
  kernel_end_le := by decide
  start_ge := by rw [freeStart_eq (by decide)]; decide
  start_le := by rw [freeStart_eq (by decide)]; decide
  user_vec_aligned := by decide
  user_vec_lt := by decide

/-- The image with the given words, by address. -/
def imageOf (words : List (Nat × Nat)) : Mem :=
  words.foldl (fun image w => image.storeWord w.1 (BitVec.ofNat 64 w.2)) fun _ => 0

/-- An ELF image with the given program headers behind its header. -/
def elfImage (phdrs : List Phdr) : Mem :=
  imageOf ([(0, 0x102464C457F), (16, EM_RISCV <<< 16), (24, 0x1000), (32, 64), (56, phdrs.length)] ++
    phdrs.zipIdx.flatMap fun (ph, i) => [(64 + SIZEOF_PHDR * i, ph.p_flags <<< 32 ||| ph.p_type),
      (72 + SIZEOF_PHDR * i, ph.p_offset), (80 + SIZEOF_PHDR * i, ph.p_vaddr), (96 + SIZEOF_PHDR * i, ph.p_filesz),
      (104 + SIZEOF_PHDR * i, ph.p_memsz)])

/-- The first program, with one writable segment. -/
def initBinary : Binary := ⟨initName, elfImage [⟨PT_LOAD, PF_R ||| PF_W, 0, 0x1000, 16, 32⟩]⟩

end Runs

end Machine

end Vm

end bobchouos
