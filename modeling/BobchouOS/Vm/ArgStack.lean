import BobchouOS.Lib.Wp
import BobchouOS.Vm.Elf

open lib

namespace bobchouos

namespace Vm

/-- Bytes that the strings of `argv` take, each with its terminator. -/
def argBytes (argv : List Bytes) : Nat := (argv.map fun arg => arg.length + 1).sum

/-- The addresses of the strings, pushed downwards from `sp`. -/
def argAddrs : Nat → List Bytes → List Nat
  | _, [] => []
  | sp, arg :: argv => (sp - (arg.length + 1)) :: argAddrs (sp - (arg.length + 1)) argv

/-- The padding below the strings. -/
def argPad (argv : List Bytes) : Nat := (USER_STACK_TOP - argBytes argv) % 16

/-- The strings, the padding, and the array of pointers with its null. -/
def argSize (argv : List Bytes) : Nat := argBytes argv + argPad argv + (argv.length + 1) * 8

/-- `argv` fits in the stack page. -/
def ArgsFit (argv : List Bytes) : Prop := argv.length ≤ MAXARG ∧ argSize argv ≤ PG_SIZE

instance (argv : List Bytes) : Decidable (ArgsFit argv) := inferInstanceAs (Decidable (_ ∧ _))

/-- The stack pointer of the new program. -/
def argSp (argv : List Bytes) : Nat := USER_STACK_TOP - argSize argv

/-- The bytes of the strings and of the array of pointers. -/
def InArgs (argv : List Bytes) (y : Nat) : Prop :=
  argSp argv ≤ y ∧ y < argSp argv + (argv.length + 1) * 8 ∨ USER_STACK_TOP - argBytes argv ≤ y ∧ y < USER_STACK_TOP

/-- The stack page at physical address `stack`, by virtual address. -/
def stackWindow (m : Mem) (stack : Nat) : Mem := fun y => m (stack + (y - stack_page_bot))

/-- The layout of the arguments in an address space. -/
structure ArgLayout (m : Mem) (argv : List Bytes) : Prop where
  strings : ∀ x ∈ (argAddrs USER_STACK_TOP argv).zip argv, m.loadBytes x.1 (x.2.length + 1) = x.2 ++ [0]
  pointers : ∀ i a, (argAddrs USER_STACK_TOP argv)[i]? = some a → m.loadWord (argSp argv + 8 * i) = BitVec.ofNat 64 a
  null : m.loadWord (argSp argv + 8 * argv.length) = 0

variable {s s' : Kmem} {stack sp a : Nat} {argv : List Bytes} {arg : Bytes} {uargv vs : List Nat}

@[simp] theorem argBytes_cons (arg : Bytes) (argv : List Bytes) :
    argBytes (arg :: argv) = arg.length + 1 + argBytes argv := by simp [argBytes]

@[simp] theorem length_argAddrs (sp : Nat) (argv : List Bytes) : (argAddrs sp argv).length = argv.length := by
  induction argv generalizing sp with
  | nil => rfl
  | cons arg argv ih => simp [argAddrs, ih]

/-- Every string lies between the bottom of all strings and the stack pointer they
were pushed from. -/
theorem argAddrs_bounds (hsp : argBytes argv ≤ sp) {x : Nat × Bytes} (hx : x ∈ (argAddrs sp argv).zip argv) :
    sp - argBytes argv ≤ x.1 ∧ x.1 + (x.2.length + 1) ≤ sp := by
  induction argv generalizing sp with
  | nil => simp [argAddrs] at hx
  | cons arg argv ih =>
    rw [argBytes_cons] at hsp ⊢
    rw [argAddrs, List.zip_cons_cons, List.mem_cons] at hx
    rcases hx with rfl | hx
    · dsimp only
      omega
    · have hrest := ih (by omega) hx
      omega

/-- Only the memory of the kernel changes, and only in the stack page below `sp`. -/
def Pushed (s s' : Kmem) (stack sp : Nat) : Prop :=
  (∃ m, s' = { s with mem := m }) ∧ ∀ x, x < stack ∨ stack + (sp - stack_page_bot) ≤ x → s'.mem x = s.mem x

theorem Pushed.refl (s : Kmem) (stack sp : Nat) : Pushed s s stack sp := ⟨⟨s.mem, rfl⟩, fun _ _ => rfl⟩

theorem Pushed.trans {s'' : Kmem} {sp' : Nat} (h : Pushed s s' stack sp) (h' : Pushed s' s'' stack sp') (hle : sp' ≤ sp) :
    Pushed s s'' stack sp := by
  obtain ⟨⟨m, rfl⟩, hmem⟩ := h
  obtain ⟨⟨m', rfl⟩, hmem'⟩ := h'
  exact ⟨⟨m', rfl⟩, fun x hx => (hmem' x (by omega)).trans (hmem x hx)⟩

/-- The strings are pushed as long as they fit, and never below the stack page. -/
theorem pushArgs_spec (hlo : stack_page_bot ≤ sp) (hlen : uargv.length ≤ MAXARG) :
    wp (pushArgs stack argv sp uargv) (fun res s' => Pushed s s' stack sp ∧ match res with
      | none => MAXARG < uargv.length + argv.length ∨ sp < stack_page_bot + argBytes argv
      | some (sp', uargv') => uargv.length + argv.length ≤ MAXARG ∧ stack_page_bot + argBytes argv ≤ sp ∧
          sp' = sp - argBytes argv ∧ uargv' = uargv ++ argAddrs sp argv ∧
          (∀ x < stack + (sp' - stack_page_bot), s'.mem x = s.mem x) ∧
          ∀ x ∈ (argAddrs sp argv).zip argv, (stackWindow s'.mem stack).loadBytes x.1 (x.2.length + 1) = x.2 ++ [0]) s := by
  induction argv generalizing s sp uargv with
  | nil =>
    rw [pushArgs, wp_pure]
    exact ⟨.refl s stack sp, by simpa using hlen, by simpa [argBytes] using hlo, by simp [argBytes], by simp [argAddrs],
      fun _ _ => rfl, by simp [argAddrs]⟩
  | cons arg argv ih =>
    simp only [pushArgs, wp_ite, wp_pure, wp_bind, wp_modify, List.length_cons, argBytes_cons]
    refine ⟨fun hmany => ⟨.refl s stack sp, .inl (by omega)⟩, fun hfew => ⟨fun hbig => ⟨.refl s stack sp, .inr (by omega)⟩,
      fun hfits => ?_⟩⟩
    obtain ⟨sp1, hsp1⟩ : ∃ sp1, sp1 = sp - (arg.length + 1) := ⟨_, rfl⟩
    rw [← hsp1] at hfits ⊢
    have hin : stack_page_bot ≤ sp1 := by omega
    have hsum : sp = sp1 + (arg.length + 1) := by
      have hpos : 0 < stack_page_bot := by decide
      omega
    obtain ⟨m1, hm1⟩ : ∃ m1, m1 = s.mem.storeBytes (stack + (sp1 - stack_page_bot)) (arg ++ [0]) := ⟨_, rfl⟩
    have hone : Pushed s { s with mem := m1 } stack sp := by
      refine ⟨⟨m1, rfl⟩, fun x hx => ?_⟩
      show m1 x = s.mem x
      rw [hm1, Mem.storeBytes_of_outside]
      simp only [List.length_append, List.length_singleton]
      omega
    rw [← hm1]
    refine wp_mono (ih hin (by simp; omega)) ?_
    rintro res s' ⟨hpushed, hres⟩
    refine ⟨hone.trans hpushed (by omega), ?_⟩
    cases res with
    | none =>
      simp only [List.length_append, List.length_singleton] at hres
      dsimp only
      omega
    | some res =>
      obtain ⟨sp', uargv'⟩ := res
      obtain ⟨hcount, hroom, rfl, rfl, hbelow, hstrings⟩ := hres
      simp only [List.length_append, List.length_singleton] at hcount
      refine ⟨by omega, by omega, by omega, by simp [argAddrs, ← hsp1], fun x hx => ?_, ?_⟩
      · rw [hbelow x hx]
        show m1 x = s.mem x
        rw [hm1, Mem.storeBytes_of_outside _ _ (.inl (by omega))]
      rw [argAddrs, List.zip_cons_cons, ← hsp1]
      rintro x hx
      rcases List.mem_cons.mp hx with rfl | hx
      · -- the later strings are below this one
        have hlen : arg.length + 1 = (arg ++ [0]).length := by simp
        dsimp only
        rw [hlen]
        refine Mem.loadBytes_eq fun i hi => ?_
        rw [stackWindow, show sp1 + i - stack_page_bot = sp1 - stack_page_bot + i by omega, ← Nat.add_assoc,
          hpushed.2 _ (.inr (by omega))]
        show m1 _ = _
        rw [hm1, Mem.storeBytes_of_inside _ _ hi]
      · exact hstrings x hx

theorem pushPointers_spec (hlo : stack_page_bot ≤ sp) :
    wp (pushPointers stack vs sp) (fun _ s' => (∃ m, s' = { s with mem := m }) ∧
      (∀ x, x < stack + (sp - stack_page_bot) ∨ stack + (sp - stack_page_bot) + 8 * vs.length ≤ x → s'.mem x = s.mem x) ∧
      ∀ i a, vs[i]? = some a → s'.mem.loadWord (stack + (sp - stack_page_bot) + 8 * i) = BitVec.ofNat 64 a) s := by
  induction vs generalizing s sp with
  | nil =>
    rw [pushPointers, wp_pure]
    exact ⟨⟨s.mem, rfl⟩, fun _ _ => rfl, by simp⟩
  | cons v vs ih =>
    simp only [pushPointers, wp_bind, wp_modify]
    refine wp_mono (ih (by omega)) ?_
    rintro _ s' ⟨⟨m, rfl⟩, hframe, hwords⟩
    have hnext : stack + (sp + 8 - stack_page_bot) = stack + (sp - stack_page_bot) + 8 := by omega
    rw [hnext] at hframe hwords
    simp only [List.length_cons] at hframe ⊢
    refine ⟨⟨m, rfl⟩, fun x hx => ?_, fun i b hb => ?_⟩
    · rw [hframe x (by omega)]
      exact Mem.storeWord_of_outside _ _ (by omega)
    · cases i with
      | zero =>
        cases hb
        rw [Nat.mul_zero, Nat.add_zero, Mem.loadWord_congr fun x hlo' hhi => hframe x (.inl (by omega))]
        exact Mem.loadWord_storeWord _ _ _
      | succ i =>
        rw [show 8 * (i + 1) = 8 + 8 * i by omega, ← Nat.add_assoc]
        exact hwords i b hb

theorem stackWindow_loadWord (m : Mem) (stack : Nat) (ha : stack_page_bot ≤ a) :
    (stackWindow m stack).loadWord a = m.loadWord (stack + (a - stack_page_bot)) := by
  have hshift : ∀ i, stack + (a + i - stack_page_bot) = stack + (a - stack_page_bot) + i := by omega
  simp only [Mem.loadWord, stackWindow, hshift]

/-- The arguments are pushed exactly if they fit in the stack page. -/
theorem pushArgv_spec : wp (pushArgv stack argv) (fun res s' => Pushed s s' stack USER_STACK_TOP ∧ match res with
    | none => ¬ ArgsFit argv
    | some (argc, sp) => ArgsFit argv ∧ argc = argv.length ∧ sp = argSp argv ∧
        ArgLayout (stackWindow s'.mem stack) argv ∧
        ∀ y, stack_page_bot ≤ y → y < USER_STACK_TOP → ¬ InArgs argv y →
          stackWindow s'.mem stack y = stackWindow s.mem stack y) s := by
  have htop : USER_STACK_TOP = stack_page_bot + PG_SIZE := by decide
  have hpos : PG_SIZE < stack_page_bot := by decide
  simp only [pushArgv, wp_bind]
  refine wp_mono (pushArgs_spec (by omega) (by simp [MAXARG])) ?_
  rintro res s1 ⟨hpushed, hres⟩
  cases res with
  | none =>
    rw [wp_pure]
    refine ⟨hpushed, fun hfit => ?_⟩
    have hsize := hfit.2
    have hcount := hfit.1
    simp only [List.length_nil, argSize] at hres hsize
    omega
  | some res =>
    obtain ⟨sp', uargv⟩ := res
    obtain ⟨hcount, hroom, rfl, rfl, hbelow, hstrings⟩ := hres
    rw [List.nil_append, List.length_nil, Nat.zero_add] at *
    have hsp : (USER_STACK_TOP - argBytes argv).ldiff 15 - ((argAddrs USER_STACK_TOP argv).length + 1) * 8 = argSp argv := by
      rw [show 15 = 2 ^ 4 - 1 from rfl, ldiff_mask, length_argAddrs, argSp, argSize, argPad]
      omega
    have hsize : stack_page_bot ≤ argSp argv ↔ argSize argv ≤ PG_SIZE := by
      rw [argSp]
      omega
    simp only [hsp, wp_ite, wp_pure, wp_bind]
    refine ⟨fun hbig => ⟨hpushed, fun hfit => ?_⟩, fun hfits => ?_⟩
    · have hle := hsize.mpr hfit.2
      omega
    have hle := hsize.mp (by omega)
    have hsum : argSp argv + (argBytes argv + argPad argv + (argv.length + 1) * 8) = USER_STACK_TOP := by
      rw [argSp, argSize] at *
      omega
    refine wp_mono (pushPointers_spec (by omega)) ?_
    rintro _ s2 ⟨⟨m, rfl⟩, hframe, hwords⟩
    simp only [List.length_append, length_argAddrs, List.length_singleton] at hframe
    have hrest : Pushed s1 { s1 with mem := m } stack USER_STACK_TOP := ⟨⟨m, rfl⟩, fun x hx => hframe x (by omega)⟩
    refine ⟨hpushed.trans hrest (Nat.le_refl _), ⟨hcount, hle⟩, length_argAddrs _ _, trivial, ⟨?_, fun i a ha => ?_, ?_⟩,
      fun y hlo hhi hnot => ?_⟩
    · intro x hx
      rw [← hstrings x hx]
      have hbounds := argAddrs_bounds (by omega) hx
      refine Mem.loadBytes_congr fun i hi => hframe _ (.inr ?_)
      omega
    · have hi := (List.getElem?_eq_some_iff.mp ha).1
      rw [stackWindow_loadWord _ _ (by omega), show argSp argv + 8 * i - stack_page_bot = argSp argv - stack_page_bot + 8 * i by omega,
        ← Nat.add_assoc]
      exact hwords i a (by rw [List.getElem?_append_left hi, ha])
    · rw [stackWindow_loadWord _ _ (by omega),
        show argSp argv + 8 * argv.length - stack_page_bot = argSp argv - stack_page_bot + 8 * argv.length by omega,
        ← Nat.add_assoc]
      exact hwords argv.length 0 (by simp)
    · rw [InArgs] at hnot
      refine (hframe _ (by omega)).trans (hbelow _ (by omega))

/-- The arguments lie in the stack page. -/
theorem ArgsFit.bounds (h : ArgsFit argv) : stack_page_bot ≤ argSp argv ∧
    argSp argv + (argv.length + 1) * 8 ≤ USER_STACK_TOP - argBytes argv ∧ argBytes argv ≤ USER_STACK_TOP := by
  have hsize := h.2
  have htop : USER_STACK_TOP = stack_page_bot + PG_SIZE := by decide
  rw [argSp, argSize] at *
  omega

theorem ArgLayout.congr {m m' : Mem} (h : ArgLayout m argv) (hfit : ArgsFit argv)
    (hmem : ∀ y, stack_page_bot ≤ y → y < USER_STACK_TOP → m' y = m y) : ArgLayout m' argv := by
  obtain ⟨hlo, hmid, htop⟩ := hfit.bounds
  have hword : ∀ i, i ≤ argv.length → m'.loadWord (argSp argv + 8 * i) = m.loadWord (argSp argv + 8 * i) := fun i hi =>
    Mem.loadWord_congr fun x hx hx' => hmem x (by omega) (by omega)
  refine ⟨fun x hx => ?_, fun i a ha => ?_, ?_⟩
  · rw [← h.strings x hx]
    have hbounds := argAddrs_bounds htop hx
    exact Mem.loadBytes_congr fun i hi => hmem _ (by omega) (by omega)
  · have hi := (List.getElem?_eq_some_iff.mp ha).1
    rw [length_argAddrs] at hi
    rw [hword i (by omega)]
    exact h.pointers i a ha
  · rw [hword _ (Nat.le_refl _)]
    exact h.null

end Vm

end bobchouos
