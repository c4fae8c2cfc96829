import Mathlib

namespace lib

/-- Why a stateful program stops without returning to its caller. `undefined`
is an access outside an array or through a null pointer. -/
inductive Halt where
  | panic (message : String)
  | diverge
  | undefined
  deriving DecidableEq, Repr

/-- Programs that read and write a state of type `σ` and either return a value
or halt. -/
abbrev Prog (σ α : Type) := StateT σ (Except Halt) α

namespace Prog

variable {σ α β : Type}

/-- Stop with a message. No later statement of the caller runs. -/
def panic (message : String) : Prog σ α := fun _ => .error (.panic message)

/-- A loop that never reaches its exit. -/
def diverge : Prog σ α := fun _ => .error .diverge

def undefined : Prog σ α := fun _ => .error .undefined

/-- A program on one component of a larger state. -/
def onField {τ : Type} (read : σ → τ) (write : τ → σ → σ) (x : Prog τ α) : Prog σ α := fun s =>
  match x (read s) with
  | .ok (a, t) => .ok (a, write t s)
  | .error halt => .error halt

end Prog

section wp

variable {σ α β : Type}

/-- Total correctness from one state: the program returns, and its value and
final state satisfy `Q`. Halting is never accepted. -/
def wp (x : Prog σ α) (Q : α → σ → Prop) (s : σ) : Prop :=
  ∃ a s', x s = .ok (a, s') ∧ Q a s'

theorem wp_of_ok {x : Prog σ α} {Q : α → σ → Prop} {s s' : σ} {a : α}
    (hx : x s = .ok (a, s')) (hQ : Q a s') : wp x Q s := ⟨a, s', hx, hQ⟩

theorem wp_mono {x : Prog σ α} {P Q : α → σ → Prop} {s : σ} (hx : wp x P s)
    (hPQ : ∀ a s', P a s' → Q a s') : wp x Q s := by
  obtain ⟨a, s', heq, hP⟩ := hx
  exact ⟨a, s', heq, hPQ a s' hP⟩

/-- A returned result satisfies the postcondition of every specification. -/
theorem wp.post {x : Prog σ α} {Q : α → σ → Prop} {s s' : σ} {a : α}
    (hx : wp x Q s) (hok : x s = .ok (a, s')) : Q a s' := by
  obtain ⟨a', s'', heq, hQ⟩ := hx
  rw [hok] at heq
  cases heq
  exact hQ

theorem bind_eq_ok_iff {x : Prog σ α} {f : α → Prog σ β} {s s'' : σ} {b : β} :
    (x >>= f) s = .ok (b, s'') ↔ ∃ a s', x s = .ok (a, s') ∧ f a s' = .ok (b, s'') := by
  simp only [Bind.bind, StateT.bind, Except.bind]
  cases hx : x s with
  | error e => simp
  | ok r =>
    obtain ⟨a, s'⟩ := r
    constructor
    · intro hf
      exact ⟨a, s', rfl, hf⟩
    · rintro ⟨a', s'', heq, hf⟩
      cases heq
      exact hf

theorem onField_eq_ok_iff {τ : Type} {read : σ → τ} {write : τ → σ → σ} {x : Prog τ α} {s s' : σ} {a : α} :
    Prog.onField read write x s = .ok (a, s') ↔ ∃ t, x (read s) = .ok (a, t) ∧ write t s = s' := by
  unfold Prog.onField
  cases hx : x (read s) with
  | error e => simp
  | ok r =>
    obtain ⟨b, t⟩ := r
    constructor
    · intro heq
      cases heq
      exact ⟨t, rfl, rfl⟩
    · rintro ⟨t', heq, rfl⟩
      cases heq
      rfl

theorem get_bind_eq (f : σ → Prog σ α) (s : σ) : (get >>= f) s = f s s := rfl

theorem modify_bind_eq (f : σ → σ) (x : Unit → Prog σ α) (s : σ) : (modify f >>= x) s = x () (f s) := rfl

/-- A program that halts ends the sequence. -/
theorem bind_eq_error {x : Prog σ α} {f : α → Prog σ β} {s : σ} {e : Halt} (hx : x s = .error e) :
    (x >>= f) s = .error e := by
  simp only [Bind.bind, StateT.bind, Except.bind, hx]

/-- What follows a program that returns decides the result. -/
theorem wp.bind_eq {x : Prog σ α} {f : α → Prog σ β} {s : σ} {r : Except Halt (β × σ)}
    (hx : wp x (fun a s' => f a s' = r) s) : (x >>= f) s = r := by
  obtain ⟨a, s', hrun, rfl⟩ := hx
  simp only [Bind.bind, StateT.bind, Except.bind, hrun]

@[simp] theorem wp_bind {x : Prog σ α} {f : α → Prog σ β} {Q : β → σ → Prop} {s : σ} :
    wp (x >>= f) Q s ↔ wp x (fun a s' => wp (f a) Q s') s := by
  constructor
  · rintro ⟨b, s'', hrun, hQ⟩
    obtain ⟨a, s', hx, hf⟩ := bind_eq_ok_iff.mp hrun
    exact ⟨a, s', hx, b, s'', hf, hQ⟩
  · rintro ⟨a, s', hx, b, s'', hf, hQ⟩
    exact ⟨b, s'', bind_eq_ok_iff.mpr ⟨a, s', hx, hf⟩, hQ⟩

@[simp] theorem wp_pure {a : α} {Q : α → σ → Prop} {s : σ} :
    wp (pure a : Prog σ α) Q s ↔ Q a s := by
  constructor
  · rintro ⟨a', s', heq, hQ⟩
    cases heq
    exact hQ
  · intro hQ
    exact ⟨a, s, rfl, hQ⟩

@[simp] theorem wp_get {Q : σ → σ → Prop} {s : σ} :
    wp (get : Prog σ σ) Q s ↔ Q s s := by
  constructor
  · rintro ⟨a', s', heq, hQ⟩
    cases heq
    exact hQ
  · intro hQ
    exact ⟨s, s, rfl, hQ⟩

@[simp] theorem wp_set {s' : σ} {Q : PUnit → σ → Prop} {s : σ} :
    wp (set s' : Prog σ PUnit) Q s ↔ Q ⟨⟩ s' := by
  constructor
  · rintro ⟨a', s', heq, hQ⟩
    cases heq
    exact hQ
  · intro hQ
    exact ⟨⟨⟩, s', rfl, hQ⟩

@[simp] theorem wp_modify {f : σ → σ} {Q : PUnit → σ → Prop} {s : σ} :
    wp (modify f : Prog σ PUnit) Q s ↔ Q ⟨⟩ (f s) := by
  constructor
  · rintro ⟨a', s', heq, hQ⟩
    cases heq
    exact hQ
  · intro hQ
    exact ⟨⟨⟩, f s, rfl, hQ⟩

@[simp] theorem wp_panic {message : String} {Q : α → σ → Prop} {s : σ} :
    ¬ wp (Prog.panic message : Prog σ α) Q s := by
  rintro ⟨a, s', heq, -⟩
  cases heq

@[simp] theorem wp_diverge {Q : α → σ → Prop} {s : σ} :
    ¬ wp (Prog.diverge : Prog σ α) Q s := by
  rintro ⟨a, s', heq, -⟩
  cases heq

@[simp] theorem wp_undefined {Q : α → σ → Prop} {s : σ} :
    ¬ wp (Prog.undefined : Prog σ α) Q s := by
  rintro ⟨a, s', heq, -⟩
  cases heq

@[simp] theorem wp_onField {τ : Type} {read : σ → τ} {write : τ → σ → σ} {x : Prog τ α}
    {Q : α → σ → Prop} {s : σ} :
    wp (Prog.onField read write x) Q s ↔ wp x (fun a t => Q a (write t s)) (read s) := by
  unfold wp Prog.onField
  cases hx : x (read s) with
  | error halt => simp
  | ok result =>
    obtain ⟨a, t⟩ := result
    constructor
    · rintro ⟨_, _, heq, hQ⟩
      cases heq
      exact ⟨a, t, rfl, hQ⟩
    · rintro ⟨_, _, heq, hQ⟩
      cases heq
      exact ⟨a, write t s, rfl, hQ⟩

theorem wp_ite {c : Prop} [Decidable c] {x y : Prog σ α} {Q : α → σ → Prop} {s : σ} :
    wp (if c then x else y) Q s ↔ (c → wp x Q s) ∧ (¬ c → wp y Q s) := by
  by_cases hc : c <;> simp [hc]

end wp

section wpe

variable {σ α β : Type} {E : Halt → Prop}

/-- Correctness up to permitted halts: a value that is returned satisfies `Q`
with the final state, and a program that halts does so for a reason in `E`. -/
def wpe (E : Halt → Prop) (x : Prog σ α) (Q : α → σ → Prop) (s : σ) : Prop :=
  match x s with
  | .ok (a, s') => Q a s'
  | .error halt => E halt

theorem wp.wpe {x : Prog σ α} {Q : α → σ → Prop} {s : σ} (hx : wp x Q s) : wpe E x Q s := by
  obtain ⟨a, s', heq, hQ⟩ := hx
  unfold lib.wpe
  rw [heq]
  exact hQ

/-- A program with no permitted halt returns. -/
theorem wp_of_wpe {x : Prog σ α} {Q : α → σ → Prop} {s : σ} (hx : lib.wpe (fun _ => False) x Q s) : wp x Q s := by
  unfold lib.wpe at hx
  cases heq : x s with
  | error halt =>
    rw [heq] at hx
    exact hx.elim
  | ok r =>
    rw [heq] at hx
    exact ⟨r.1, r.2, heq, hx⟩

theorem wpe.weaken {E' : Halt → Prop} {x : Prog σ α} {Q : α → σ → Prop} {s : σ} (hx : wpe E x Q s)
    (hE : ∀ e, E e → E' e) : wpe E' x Q s := by
  unfold wpe at *
  cases heq : x s with
  | error halt =>
    rw [heq] at hx
    exact hE halt hx
  | ok r =>
    rw [heq] at hx
    exact hx

theorem wpe_mono {x : Prog σ α} {P Q : α → σ → Prop} {s : σ} (hx : wpe E x P s)
    (hPQ : ∀ a s', P a s' → Q a s') : wpe E x Q s := by
  unfold wpe at *
  cases heq : x s with
  | error halt =>
    rw [heq] at hx
    exact hx
  | ok r =>
    rw [heq] at hx
    exact hPQ r.1 r.2 hx

theorem wpe.post {x : Prog σ α} {Q : α → σ → Prop} {s s' : σ} {a : α}
    (hx : wpe E x Q s) (hok : x s = .ok (a, s')) : Q a s' := by
  unfold wpe at hx
  rw [hok] at hx
  exact hx

theorem wpe.halts {x : Prog σ α} {Q : α → σ → Prop} {s : σ} {halt : Halt}
    (hx : wpe E x Q s) (herr : x s = .error halt) : E halt := by
  unfold wpe at hx
  rw [herr] at hx
  exact hx

/-- A specification may speak of the run itself. -/
theorem wpe.run {x : Prog σ α} {Q : α → σ → Prop} {s : σ} (hx : wpe E x Q s) :
    wpe E x (fun a s' => x s = .ok (a, s') ∧ Q a s') s := by
  unfold wpe at *
  cases heq : x s with
  | error halt =>
    rw [heq] at hx
    exact hx
  | ok r =>
    rw [heq] at hx
    exact ⟨rfl, hx⟩

/-- What holds whenever the program returns can be added to a specification. -/
theorem wp_and_wpe {x : Prog σ α} {P Q : α → σ → Prop} {s : σ} (hx : wp x P s) (hQ : wpe E x Q s) :
    wp x (fun a s' => P a s' ∧ Q a s') s := by
  obtain ⟨a, s', heq, hP⟩ := hx
  exact ⟨a, s', heq, hP, hQ.post heq⟩

@[simp] theorem wpe_bind {x : Prog σ α} {f : α → Prog σ β} {Q : β → σ → Prop} {s : σ} :
    wpe E (x >>= f) Q s ↔ wpe E x (fun a s' => wpe E (f a) Q s') s := by
  simp only [wpe, Bind.bind, StateT.bind, Except.bind]
  cases x s with
  | error halt => exact Iff.rfl
  | ok r => exact Iff.rfl

@[simp] theorem wpe_pure {a : α} {Q : α → σ → Prop} {s : σ} :
    wpe E (pure a : Prog σ α) Q s ↔ Q a s := Iff.rfl

@[simp] theorem wpe_get {Q : σ → σ → Prop} {s : σ} : wpe E (get : Prog σ σ) Q s ↔ Q s s := Iff.rfl

@[simp] theorem wpe_modify {f : σ → σ} {Q : PUnit → σ → Prop} {s : σ} :
    wpe E (modify f : Prog σ PUnit) Q s ↔ Q ⟨⟩ (f s) := Iff.rfl

@[simp] theorem wpe_onField {τ : Type} {read : σ → τ} {write : τ → σ → σ} {x : Prog τ α} {Q : α → σ → Prop} {s : σ} :
    wpe E (Prog.onField read write x) Q s ↔ wpe E x (fun a t => Q a (write t s)) (read s) := by
  unfold wpe Prog.onField
  cases x (read s) with
  | error halt => exact Iff.rfl
  | ok result => exact Iff.rfl

@[simp] theorem wpe_panic {message : String} {Q : α → σ → Prop} {s : σ} :
    wpe E (Prog.panic message : Prog σ α) Q s ↔ E (.panic message) := Iff.rfl

theorem wpe_ite {c : Prop} [Decidable c] {x y : Prog σ α} {Q : α → σ → Prop} {s : σ} :
    wpe E (if c then x else y) Q s ↔ (c → wpe E x Q s) ∧ (¬ c → wpe E y Q s) := by
  by_cases hc : c <;> simp [hc]

end wpe

end lib
