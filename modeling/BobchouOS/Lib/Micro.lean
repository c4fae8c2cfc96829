import BobchouOS.Lib.Wp

namespace lib

/-- A program as the sequence of its accesses to a state that others may change
between two of them. An access sees the state, changes it and decides how to go
on. -/
inductive Micro (σ α : Type) where
  | pure (a : α)
  | halt (h : Halt)
  | access (write : σ → σ) (next : σ → Micro σ α)

namespace Micro

variable {σ α β : Type}

def bind : Micro σ α → (α → Micro σ β) → Micro σ β
  | .pure a, f => f a
  | .halt h, _ => .halt h
  | .access write next, f => .access write fun s => (next s).bind f

instance : Monad (Micro σ) where
  pure := .pure
  bind := bind

def read (f : σ → α) : Micro σ α := .access id fun s => .pure (f s)

def write (f : σ → σ) : Micro σ Unit := .access f fun _ => .pure ()

def panic (message : String) : Micro σ α := .halt (.panic message)

/-- The program without anybody else. -/
def run : Micro σ α → Prog σ α
  | .pure a => Pure.pure a
  | .halt h => fun _ => .error h
  | .access write next => fun s => (next s).run (write s)

@[simp] theorem run_pure (a : α) (s : σ) : (Pure.pure a : Micro σ α).run s = .ok (a, s) := rfl

@[simp] theorem run_panic (message : String) : (panic message : Micro σ α).run = Prog.panic message := rfl

theorem run_access (write : σ → σ) (next : σ → Micro σ α) (s : σ) :
    (access write next).run s = (next s).run (write s) := rfl

theorem run_bind (x : Micro σ α) (f : α → Micro σ β) : (x >>= f).run = x.run >>= fun a => (f a).run := by
  induction x with
  | pure a => rfl
  | halt h => rfl
  | access write next ih =>
    funext s
    exact congrFun (ih s) (write s)

@[simp] theorem run_read_bind (f : σ → α) (x : α → Micro σ β) (s : σ) :
    (read f >>= x).run s = (x (f s)).run s := rfl

@[simp] theorem run_write (f : σ → σ) (s : σ) : (write f).run s = .ok ((), f s) := rfl

@[simp] theorem run_write_bind (f : σ → σ) (x : Unit → Micro σ β) (s : σ) :
    (write f >>= x).run s = (x ()).run (f s) := rfl

/-- A part of a program that returns. -/
theorem run_bind_of_ok {x : Micro σ α} {a : α} {s s' : σ} (f : α → Micro σ β) (hx : x.run s = .ok (a, s')) :
    (x >>= f).run s = (f a).run s' := by
  rw [run_bind]
  simp only [Bind.bind, StateT.bind, Except.bind, hx]

theorem run_bind_of_error {x : Micro σ α} {h : Halt} {s : σ} (f : α → Micro σ β) (hx : x.run s = .error h) :
    (x >>= f).run s = .error h := by
  rw [run_bind]
  exact bind_eq_error hx

@[simp] theorem run_ite {c : Prop} [Decidable c] (x y : Micro σ α) (s : σ) :
    (if c then x else y).run s = if c then x.run s else y.run s := by
  split <;> rfl

/-- Where the program halts, with the state it leaves behind. -/
def haltsIn : Micro σ α → σ → Option (Halt × σ)
  | .pure _, _ => none
  | .halt h, s => some (h, s)
  | .access write next, s => (next s).haltsIn (write s)

@[simp] theorem haltsIn_panic (message : String) (s : σ) :
    (panic message : Micro σ α).haltsIn s = some (.panic message, s) := rfl

@[simp] theorem haltsIn_read_bind (f : σ → α) (x : α → Micro σ β) (s : σ) :
    (read f >>= x).haltsIn s = (x (f s)).haltsIn s := rfl

end Micro

end lib
