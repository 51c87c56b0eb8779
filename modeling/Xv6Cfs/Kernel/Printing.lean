import Xv6Cfs.Kernel.Properties
import Xv6Cfs.Visual.Main

/-!
# What the schedulers print

`scheduler` reads `ticks` before it switches to a process and after it, and prints a
record of the slice, which the analyser reads from the log. It holds the lock of the
process all the time. Of the processes whose name is not that of a benchmark nothing is
printed: names are not modelled, and the log here has all the records.
-/

namespace Xv6Cfs

variable {n : Nat}

/-- The variables of `scheduler`: `startTick`, and the process that it has switched to and not yet
printed. -/
structure Slicing where
  startTick : Nat
  on : Option Slot
  deriving DecidableEq, Repr

/-- A record in the log, with the CPU that has printed it and the slot of the process. -/
structure Entry (n : Nat) where
  cpu : Fin n
  slot : Slot
  record : Visual.Record
  deriving DecidableEq

/-- The scheduler of `c` has read `ticks`, and releases `tickslock`: `clockintr`, which does so too,
holds no other lock. -/
def Kernel.Stamps (k : Kernel n) (c : Fin n) : Prop :=
  k.running c = none ∧ k.Issues c (.release .ticks) ∧ ∃ p, k.lock (.proc p) = some c

instance (k : Kernel n) (c : Fin n) : Decidable (k.Stamps c) :=
  inferInstanceAs (Decidable (_ ∧ _ ∧ _))

/-- The variables of the scheduler of `c` after a step of that CPU. -/
def Kernel.slicing (k : Kernel n) (c : Fin n) (s : Slicing) : Slicing :=
  match k.issued c with
  | some (.dispatch p) => { s with on := some p }
  | _ =>
      if k.Stamps c then
        match s.on with
        | none => { s with startTick := k.shared.ticks }
        | some _ => { s with on := none }
      else s

/-- `scheduler`: `printf(">>{p%d,s%d,e%d}", p->pid, startTick, endTick)`. -/
def Kernel.printed (k : Kernel n) (c : Fin n) (s : Slicing) : List (Entry n) :=
  if k.Stamps c then
    match s.on with
    | none => []
    | some p => [⟨c, p, (k.mem.proc p).pid, int32 s.startTick, int32 k.shared.ticks⟩]
  else []

/-- The variables of all schedulers after the step. -/
def Kernel.sliced (k : Kernel n) (s : Fin n → Slicing) : Move n → Fin n → Slicing
  | .exec c _ => Function.update s c (k.slicing c (s c))
  | .interrupt _ _ => s

/-- What is printed in the step. -/
def Kernel.prints (k : Kernel n) (s : Fin n → Slicing) : Move n → List (Entry n)
  | .exec c _ => k.printed c (s c)
  | .interrupt _ _ => []

/-- The states reached by steps that all meet `P`, with the variables of the schedulers, and the
log. -/
inductive Printed (P : Kernel n → Ledger n → Move n → Prop) :
    Kernel n → Ledger n → (Fin n → Slicing) → List (Entry n) → Prop where
  | init : Printed P (boot n) (Ledger.empty n) (fun _ => ⟨0, none⟩) []
  | tail {k k' : Kernel n} {ℓ ℓ' : Ledger n} {s : Fin n → Slicing} {log : List (Entry n)}
      {mv : Move n} : Printed P k ℓ s log → P k ℓ mv → step k ℓ mv = some (k', ℓ') →
      Printed P k' ℓ' (k.sliced s mv) (log ++ k.prints s mv)

theorem Printed.runWhere {P : Kernel n → Ledger n → Move n → Prop} {k : Kernel n} {ℓ : Ledger n}
    {s : Fin n → Slicing} {log : List (Entry n)} (h : Printed P k ℓ s log) : RunWhere P k ℓ := by
  induction h with
  | init => exact .init
  | tail _ hP hs ih => exact .tail ih hP hs

theorem RunWhere.printed {P : Kernel n → Ledger n → Move n → Prop} {k : Kernel n} {ℓ : Ledger n}
    (h : RunWhere P k ℓ) : ∃ s log, Printed P k ℓ s log := by
  induction h with
  | init => exact ⟨_, _, .init⟩
  | tail _ hP hs ih =>
      obtain ⟨s, log, h⟩ := ih
      exact ⟨_, _, .tail h hP hs⟩

/-- `T` clock ticks are counted at most, and `N` pids are taken at most: no step counts or takes
one more. -/
def AtMost (T N : Nat) (k : Kernel n) (ℓ : Ledger n) : Move n → Prop
  | .exec c _ => (k.Issues c .tick → k.shared.ticks < T) ∧ (k.Issues c .nextpid → ℓ.allocs < N)
  | .interrupt _ _ => True

instance (T N : Nat) (k : Kernel n) (ℓ : Ledger n) (mv : Move n) : Decidable (AtMost T N k ℓ mv) :=
  match mv with
  | .exec _ _ => inferInstanceAs (Decidable (_ ∧ _))
  | .interrupt _ _ => inferInstanceAs (Decidable True)

/-- **The log is a history** of `T` ticks and `N` pids: every slice begins before it ends, and those
of one CPU, like those of one pid, follow each other. -/
structure Chronicle (T N : Nat) (log : List (Entry n)) : Prop where
  pid : ∀ x ∈ log, 0 < x.record.p ∧ x.record.p ≤ N
  slice : ∀ x ∈ log, 0 ≤ x.record.start ∧ x.record.start ≤ x.record.finish ∧ x.record.finish ≤ T
  cpu : log.Pairwise fun x y => x.cpu = y.cpu → x.record.finish ≤ y.record.start
  process : log.Pairwise fun x y => x.record.p = y.record.p → x.record.finish ≤ y.record.start

/-- The slice began and ended in one tick. -/
def Entry.Brief (x : Entry n) : Prop := x.record.start = x.record.finish

instance (x : Entry n) : Decidable x.Brief := inferInstanceAs (Decidable (_ = _))

end Xv6Cfs
