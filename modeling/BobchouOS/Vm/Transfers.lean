import BobchouOS.Vm.System

open lib

namespace bobchouos

namespace Vm

namespace Machine

variable {k : Symbols} {binaries : List Binary} {m : Machine} {own own' : Nat → Option Owner} {s s' : Kmem} {p q : Proc}
  {rest : List Proc} {i va len max n : Nat} {acc : Access} {P : Nat → Prop} {mem : Mem} {r : Int} {bytes : Bytes}

/-- What a process at another place sees stays as it is. -/
theorem At.views (hat : m.At i p) (h : World k m.kmem own m.procs) (hused : Used k m.kmem s' own own' p (m.procs.eraseIdx i) P mem)
    (hq : q ∈ m.procs.eraseIdx i) (hne : q.pagetable ≠ 0) : s'.view q.pagetable = m.kmem.view q.pagetable := by
  refine hused.effect.views _ (root_mem (List.mem_cons_of_mem _ hq) hne) fun path hT => ?_
  have hroot := ((hat.world h).head_ne hq).2 hne
  rcases hT with ⟨path', heq⟩ | ⟨v, heq⟩
  · exact hroot (Owner.table.inj heq).1
  · cases heq

/-- `copyin` and `copyout` transfer the bytes below the first page that is neither
usable nor can be made so, and all of them if there is no such page. A page that a
fault can supply may still be missing when memory runs out. -/
theorem copyin_copyout (hreach : (system k binaries).Reachable m) (hat : m.At i p) :
    (∀ va len, va + len ≤ MAX_VA → ∃ n s', Vm.copyin p va len m.kmem =
        .ok ((if n = len then 0 else -EFAULT, Mem.loadBytes (m.kmem.view p.pagetable) va n), s') ∧
      Fetched m.kmem s' p .load va len n ∧
      (¬ Low s' → (n = len ↔ ∀ j < len, CanGrant m.kmem p ((va + j) / PG_SIZE) .load)) ∧
      s'.view p.pagetable = m.kmem.view p.pagetable ∧
      ∀ q ∈ m.procs.eraseIdx i, q.pagetable ≠ 0 → s'.view q.pagetable = m.kmem.view q.pagetable) ∧
    ∀ va src, va + src.length ≤ MAX_VA → ∃ n s', Vm.copyout p va src m.kmem =
        .ok (if n = src.length then 0 else -EFAULT, s') ∧
      Fetched m.kmem s' p .store va src.length n ∧
      (¬ Low s' → (n = src.length ↔ ∀ j < src.length, CanGrant m.kmem p ((va + j) / PG_SIZE) .store)) ∧
      s'.view p.pagetable = Mem.storeBytes (m.kmem.view p.pagetable) va (src.take n) ∧
      ∀ q ∈ m.procs.eraseIdx i, q.pagetable ≠ 0 → s'.view q.pagetable = m.kmem.view q.pagetable := by
  obtain ⟨own, hinv⟩ := inv_of_reachable hreach
  have hw := hat.world hinv.world
  refine ⟨fun va len hmax => ?_, fun va src hmax => ?_⟩
  · have hhigh : MAX_VA ≤ va → 0 < len → False := fun hge hpos => by omega
    obtain ⟨⟨r, bytes⟩, s', hrun, own', n, hused, hfetch, hbytes, hr⟩ : wp (Vm.copyin p va len) _ m.kmem :=
      wp_of_wpe (copyinLoop_spec hw hat.user hhigh (Nat.le_refl len))
    obtain rfl : r = _ := hr
    obtain rfl : bytes = _ := hbytes
    exact ⟨n, s', hrun, hfetch, hfetch.all_iff, hused.view, fun q hq hne => hat.views hinv.world hused hq hne⟩
  · have hhigh : MAX_VA ≤ va → 0 < src.length → False := fun hge hpos => by omega
    obtain ⟨r, s', hrun, own', n, hused, hfetch, rfl⟩ : wp (Vm.copyout p va src) _ m.kmem :=
      wp_of_wpe (copyoutLoop_spec hw hat.user hhigh (Nat.le_refl src.length))
    exact ⟨n, s', hrun, hfetch, hfetch.all_iff, hused.view, fun q hq hne => hat.views hinv.world hused hq hne⟩

/-- A machine where the first program runs. -/
theorem copyin_copyout_init : ∃ m p, (system smallKernel [initBinary]).Reachable m ∧ m.At 0 p ∧
    ∃ n s', Vm.copyin p 0x1000 16 m.kmem =
      .ok ((if n = 16 then 0 else -EFAULT, Mem.loadBytes (m.kmem.view p.pagetable) 0x1000 n), s') := by
  obtain ⟨m, outs, hreach, -, hP⟩ := exists_of_bootRun smallKernel [initBinary] [.create [], .init_start 0]
    (fun m _ => decide (m.IsUser 0)) (by decide +kernel)
  obtain ⟨p, hat⟩ := IsUser.at (of_decide_eq_true hP)
  obtain ⟨n, s', hrun, -⟩ := (copyin_copyout hreach hat).1 0x1000 16 (by decide)
  exact ⟨m, p, hreach, hat, n, s', hrun⟩

/-- `copyinstr` ends in one of three ways: it finds the first NUL, it finds none in
`max` bytes, or it meets a page it cannot have. -/
theorem copyinstr_result (hreach : (system k binaries).Reachable m) (hat : m.At i p) (va max : Nat) (hmax : va + max ≤ MAX_VA) :
    ∃ r bytes s', Vm.copyinstr p va max m.kmem = .ok ((r, bytes), s') ∧
      Scanned m.kmem s' p (m.kmem.view p.pagetable) va max r bytes ∧ bytes.length ≤ max ∧
      (¬ Low s' →
        (r = 0 ↔ ∃ n < max, m.kmem.view p.pagetable (va + n) = 0 ∧ ∀ j ≤ n, CanGrant m.kmem p ((va + j) / PG_SIZE) .load) ∧
        (r = -ENAMETOOLONG ↔
          ∀ j < max, CanGrant m.kmem p ((va + j) / PG_SIZE) .load ∧ m.kmem.view p.pagetable (va + j) ≠ 0)) := by
  obtain ⟨own, hinv⟩ := inv_of_reachable hreach
  have hhigh : MAX_VA ≤ va → 0 < max → False := fun hge hpos => by omega
  obtain ⟨⟨r, bytes⟩, s', hrun, own', bs, -, hscan, hbytes⟩ : wp (Vm.copyinstr p va max) _ m.kmem :=
    wp_of_wpe (copyinstrLoop_spec (hat.world hinv.world) hat.user hhigh (Nat.le_refl max))
  obtain rfl : bytes = bs := hbytes
  exact ⟨r, bytes, s', hrun, hscan, hscan.length_le, fun hlow => ⟨hscan.found_iff hlow, hscan.long_iff hlow⟩⟩

/-- The image of the first program has its first NUL at the seventh byte. -/
theorem copyinstr_result_init : ∃ m p, (system smallKernel [initBinary]).Reachable m ∧ m.At 0 p ∧
    ∃ r bytes s', Vm.copyinstr p 0x1000 16 m.kmem = .ok ((r, bytes), s') ∧
      Scanned m.kmem s' p (m.kmem.view p.pagetable) 0x1000 16 r bytes := by
  obtain ⟨m, outs, hreach, -, hP⟩ := exists_of_bootRun smallKernel [initBinary] [.create [], .init_start 0]
    (fun m _ => decide (m.IsUser 0)) (by decide +kernel)
  obtain ⟨p, hat⟩ := IsUser.at (of_decide_eq_true hP)
  obtain ⟨r, bytes, s', hrun, hscan, -⟩ := copyinstr_result hreach hat 0x1000 16 (by decide)
  exact ⟨m, p, hreach, hat, r, bytes, s', hrun, hscan⟩

end Machine

end Vm

end bobchouos
