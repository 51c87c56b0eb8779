/-!
# Programs of threads

A program is what a thread has still to do: it has ended with a value, or it
issues an instruction and goes on with the answer, or it calls a procedure and
goes on with the result. What an instruction does is left to the machine the
threads run on. Loops without a bound are procedures that call themselves.
-/

namespace Threads

/-- Programs over instructions `I` with answers `R`, and procedures `F` with results `V`. -/
inductive Prog (I : Type) (R : I → Type) (F V α : Type) where
  | ret (a : α)
  | instr (i : I) (next : R i → Prog I R F V α)
  | call (f : F) (next : V → Prog I R F V α)

namespace Prog

variable {I : Type} {R : I → Type} {F V α β : Type}

/-- Run `x`, then what `f` makes of its value. -/
def bind : Prog I R F V α → (α → Prog I R F V β) → Prog I R F V β
  | ret a, f => f a
  | instr i next, f => instr i fun r => (next r).bind f
  | call g next, f => call g fun v => (next v).bind f

instance : Monad (Prog I R F V) where
  pure := ret
  bind := bind

/-- A single instruction. -/
def issue (i : I) : Prog I R F V (R i) := instr i ret

/-- A single call. -/
def invoke (f : F) : Prog I R F V V := call f ret

/-- Run `f` on the elements of a list in turn. -/
def forEach (f : α → Prog I R F V Unit) : List α → Prog I R F V Unit
  | [] => pure ()
  | a :: as => do
      f a
      forEach f as

@[simp] theorem bind_eq (x : Prog I R F V α) (f : α → Prog I R F V β) : x.bind f = x >>= f := rfl

@[simp] theorem ret_eq (a : α) : (ret a : Prog I R F V α) = pure a := rfl

@[simp] theorem pure_bind (a : α) (f : α → Prog I R F V β) : (pure a >>= f) = f a := rfl

@[simp] theorem instr_bind (i : I) (next : R i → Prog I R F V α) (f : α → Prog I R F V β) :
    (instr i next >>= f) = instr i fun r => next r >>= f := rfl

@[simp] theorem call_bind (g : F) (next : V → Prog I R F V α) (f : α → Prog I R F V β) :
    (call g next >>= f) = call g fun v => next v >>= f := rfl

theorem bind_assoc {γ : Type} (x : Prog I R F V α) (f : α → Prog I R F V β)
    (g : β → Prog I R F V γ) : (x >>= f >>= g) = x >>= fun a => f a >>= g := by
  induction x with
  | ret a => rfl
  | instr i next ih => exact congrArg (instr i) (funext fun r => ih r)
  | call h next ih => exact congrArg (call h) (funext fun v => ih v)

end Prog

end Threads
