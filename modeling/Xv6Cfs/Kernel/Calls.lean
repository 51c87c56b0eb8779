import Xv6Cfs.Kernel.Machine

/-!
# Calls in a run

A thread executes a call while the other threads go on, and while it is itself
interrupted and even switched away from. `During` follows it through a run: it
tells the instructions of the call from those of the interrupts that come in
between, and keeps the first.
-/

namespace Xv6Cfs

variable {n : Nat} {α : Type}

/-- What is reached from a state by steps that all meet `P`. -/
inductive Steps (P : Kernel n → Ledger n → Move n → Prop) (k₀ : Kernel n) (ℓ₀ : Ledger n) :
    Kernel n → Ledger n → Prop where
  | refl : Steps P k₀ ℓ₀ k₀ ℓ₀
  | tail {k k' : Kernel n} {ℓ ℓ' : Ledger n} {mv : Move n} :
      Steps P k₀ ℓ₀ k ℓ → P k ℓ mv → step k ℓ mv = some (k', ℓ') → Steps P k₀ ℓ₀ k' ℓ'

theorem Steps.execWhere {P : Kernel n → Ledger n → Move n → Prop}
    [∀ k ℓ mv, Decidable (P k ℓ mv)] {k₀ : Kernel n} {ℓ₀ : Ledger n}
    {s s' : Kernel n × Ledger n} {mvs : List (Move n)} (h : Steps P k₀ ℓ₀ s.1 s.2)
    (hs : Xv6Cfs.execWhere P s mvs = some s') : Steps P k₀ ℓ₀ s'.1 s'.2 := by
  induction mvs generalizing s with
  | nil =>
      obtain rfl : s = s' := by simpa [Xv6Cfs.execWhere] using hs
      exact h
  | cons mv mvs ih =>
      rw [Xv6Cfs.execWhere, List.foldlM_cons] at hs
      obtain ⟨s₁, h₁, hs⟩ := Option.bind_eq_some_iff.mp hs
      rw [Option.ite_none_right_eq_some] at h₁
      exact ih (.tail h h₁.1 h₁.2) hs

/-- The CPU that makes the step. -/
def Move.cpu : Move n → Fin n
  | .exec c _ => c
  | .interrupt c _ => c

/-- An instruction that has been executed: before it, after it, and its answer. -/
structure Act (n : Nat) where
  before : Kernel n
  cpu : Fin n
  env : Env
  instr : Instr
  answer : Answer instr
  after : Kernel n

/-- What the thread saw of it. -/
def Act.event (e : Act n) : Sigma Answer := ⟨e.instr, e.answer⟩

/-- What the instruction is about is the process table or the queue. -/
def Instr.Changes : Instr → Bool
  | .write _ _ | .insert _ | .retrieve | .dispatch _ | .init _ => true
  | _ => false

/-- The instructions among them that change the process table or the queue. -/
def changes (L : List (Act n)) : List Instr := (L.map Act.instr).filter Instr.Changes

/-- The thread runs on a CPU that holds the lock. -/
def Kernel.Holds (k : Kernel n) (t : Thread n) (l : Lock) : Prop :=
  ∃ c, k.thread c = t ∧ k.lock l = some c

/-- What `p->lock` protects. -/
def Proc.guarded (x : Proc) : ProcState × Option Chan × Bool × Int × Int :=
  (x.state, x.chan, x.killed, x.xstate, x.pid)

/-- What the lock protects is the same in `m` and `m'`. With `wait_lock` no zombie is freed. -/
def Lock.Keeps (l : Lock) (m m' : Mem) : Prop :=
  match l with
  | .proc p => (m'.proc p).guarded = (m.proc p).guarded
  | .wait => ∀ p, (m'.proc p).parent = (m.proc p).parent ∧
      ((m.proc p).state = .zombie → (m'.proc p).state = .zombie)
  | _ => True

/--
From the state `k₀`, `ℓ₀` on the thread `t` executes `x₀`, and what it does afterwards is
`next`. It has executed the instructions `L`; `y` is left of the interrupts that have
come in between, and then `x` of the call. All steps meet `P`.
-/
inductive During (P : Kernel n → Ledger n → Move n → Prop) (t : Thread n) (x₀ : Code α)
    (next : α → Code Int) (k₀ : Kernel n) (ℓ₀ : Ledger n) :
    Kernel n → Ledger n → Code Unit → Code α → List (Act n) → Prop where
  | start {c : Fin n} : RunWhere P k₀ ℓ₀ → k₀.thread c = t → k₀.code t = x₀ >>= next →
      During P t x₀ next k₀ ℓ₀ k₀ ℓ₀ (pure ()) x₀ []
  /-- An instruction of the call. -/
  | act {k k₁ k' : Kernel n} {ℓ ℓ' : Ledger n} {L : List (Act n)} {c : Fin n} {e : Env} {i : Instr}
      {r : Answer i} {g : Answer i → Code α} :
      During P t x₀ next k₀ ℓ₀ k ℓ (pure ()) (.instr i g) L → k.thread c = t →
      P k ℓ (.exec c e) → step k ℓ (.exec c e) = some (k', ℓ') → execute k c e i = some (k₁, r) →
      During P t x₀ next k₀ ℓ₀ k' ℓ' (pure ()) (g r) (L ++ [⟨k, c, e, i, r, k₁⟩])
  /-- A call of a procedure by the call. -/
  | call {k k' : Kernel n} {ℓ ℓ' : Ledger n} {L : List (Act n)} {c : Fin n} {e : Env} {f : Routine}
      {g : Int → Code α} :
      During P t x₀ next k₀ ℓ₀ k ℓ (pure ()) (.call f g) L → k.thread c = t →
      P k ℓ (.exec c e) → step k ℓ (.exec c e) = some (k', ℓ') →
      During P t x₀ next k₀ ℓ₀ k' ℓ' (pure ()) (f.body >>= g) L
  /-- An interrupt of the thread. -/
  | interrupt {k k' : Kernel n} {ℓ ℓ' : Ledger n} {L : List (Act n)} {y : Code Unit} {x : Code α}
      {c : Fin n} {i : Interrupt} :
      During P t x₀ next k₀ ℓ₀ k ℓ y x L → k.thread c = t → P k ℓ (.interrupt c i) →
      step k ℓ (.interrupt c i) = some (k', ℓ') →
      During P t x₀ next k₀ ℓ₀ k' ℓ' (do kerneltrap t.me i; setIntr true; y) x L
  /-- The thread goes on with an interrupt. -/
  | handle {k k₁ k' : Kernel n} {ℓ ℓ' : Ledger n} {L : List (Act n)} {x : Code α} {c : Fin n}
      {e : Env} {i : Instr} {r : Answer i} {g : Answer i → Code Unit} :
      During P t x₀ next k₀ ℓ₀ k ℓ (.instr i g) x L → k.thread c = t →
      P k ℓ (.exec c e) → step k ℓ (.exec c e) = some (k', ℓ') → execute k c e i = some (k₁, r) →
      During P t x₀ next k₀ ℓ₀ k' ℓ' (g r) x L
  | handleCall {k k' : Kernel n} {ℓ ℓ' : Ledger n} {L : List (Act n)} {x : Code α} {c : Fin n}
      {e : Env} {f : Routine} {g : Int → Code Unit} :
      During P t x₀ next k₀ ℓ₀ k ℓ (.call f g) x L → k.thread c = t →
      P k ℓ (.exec c e) → step k ℓ (.exec c e) = some (k', ℓ') →
      During P t x₀ next k₀ ℓ₀ k' ℓ' (f.body >>= g) x L
  /-- A step on another CPU, that does not give the thread something else to do. -/
  | other {k k' : Kernel n} {ℓ ℓ' : Ledger n} {L : List (Act n)} {y : Code Unit} {x : Code α}
      {mv : Move n} :
      During P t x₀ next k₀ ℓ₀ k ℓ y x L → k.thread mv.cpu ≠ t → P k ℓ mv →
      step k ℓ mv = some (k', ℓ') → k'.code t = k.code t →
      During P t x₀ next k₀ ℓ₀ k' ℓ' y x L

/-- The call has returned `a`, having executed the instructions `L`. -/
def Returned (P : Kernel n → Ledger n → Move n → Prop) (t : Thread n) (x₀ : Code α)
    (k₀ : Kernel n) (ℓ₀ : Ledger n) (k : Kernel n) (ℓ : Ledger n) (L : List (Act n)) (a : α) : Prop :=
  ∃ next y, During P t x₀ next k₀ ℓ₀ k ℓ y (pure a) L

end Xv6Cfs
