import Xv6Cfs.Kernel.QueueRuns

/-!
# A fixed set of processes on one CPU

The scheduling loop with nothing but dispatches, charges and yields: the
processes neither sleep nor exit, and no others come. On a single CPU everything
between two switches is one step.

A process that is switched out in the middle of `usertrap` goes on from there
when it is dispatched again, so the place it has reached is kept for each. A
`kerneltrap` may yield at any of these places.
-/

namespace Xv6Cfs

/-- How far a process has come in `usertrap`. -/
inductive Place where
  /-- Anywhere before the charge: in user mode, or in the kernel on its behalf. -/
  | user
  /-- Charged, with the first `yield` ahead, and the second after it on a timer interrupt. -/
  | charged (timer : Bool)
  /-- The first `yield` is done, the second is ahead. -/
  | second
  deriving DecidableEq, Repr

/-- The machine between two steps. -/
structure OneCpu where
  mem : Mem
  running : Option Slot
  place : Slot → Place

/-- `yield` by `p`: true when it has given up the CPU. The weights are given. -/
def yield (w : Slot → Int) (m : Mem) (p : Slot) : Except Fault (Mem × Bool) :=
  if checkPreemption m p m.tree.minvRuntime then do
    let m ← insertProcess (fun _ => .ok (w p)) (foldRuntime m p) p
    pure (m, true)
  else .ok (m, false)

/-- `p->currentRuntime += 1` in `usertrap`. -/
def charge (m : Mem) (p : Slot) : Mem :=
  m.modify p (Proc.setCurrentRuntime · (int32 ((m.proc p).currentRuntime + 1)))

/-- `p->state = RUNNING` in `scheduler`. -/
def dispatch (m : Mem) (p : Slot) : Mem :=
  m.modify p (Proc.setState · .running)

/-- The machine after `yield` has returned `r`, with `p` going on at `place`. -/
def OneCpu.yielded (s : OneCpu) (p : Slot) (place : Place) (r : Mem × Bool) : OneCpu where
  mem := r.1
  running := if r.2 then none else some p
  place := Function.update s.place p place

/-- What `p` folds in at a `yield` does not overflow. -/
def NoOverflow (m : Mem) (p : Slot) : Prop :=
  IsInt32 ((m.proc p).virtualRuntime + (m.proc p).currentRuntime)

instance (m : Mem) (p : Slot) : Decidable (NoOverflow m p) := inferInstanceAs (Decidable (IsInt32 _))

/-- One step of the machine, in which no integer overflows. -/
inductive OneCpu.Step (w : Slot → Int) : OneCpu → OneCpu → Prop where
  /-- The scheduler retrieves a process and switches to it. -/
  | dispatch {s : OneCpu} {m : Mem} {p : Slot} : s.running = none →
      retrieveProcess s.mem = .ok (m, some p) →
      Step w s { s with mem := dispatch m p, running := some p }
  /-- `usertrap` charges the running process. -/
  | charge {s : OneCpu} {p : Slot} (timer : Bool) : s.running = some p → s.place p = .user →
      IsInt32 ((s.mem.proc p).currentRuntime + 1) →
      Step w s { s with mem := charge s.mem p, place := Function.update s.place p (.charged timer) }
  /-- The `yield` that follows the charge. -/
  | first {s : OneCpu} {p : Slot} {timer : Bool} {r : Mem × Bool} : s.running = some p →
      s.place p = .charged timer → yield w s.mem p = .ok r → (r.2 → NoOverflow s.mem p) →
      Step w s (s.yielded p (if timer then .second else .user) r)
  /-- The `yield` of a timer interrupt. -/
  | second {s : OneCpu} {p : Slot} {r : Mem × Bool} : s.running = some p →
      s.place p = .second → yield w s.mem p = .ok r → (r.2 → NoOverflow s.mem p) →
      Step w s (s.yielded p .user r)
  /-- A timer interrupt in the kernel: `kerneltrap` yields. -/
  | kernel {s : OneCpu} {p : Slot} {r : Mem × Bool} : s.running = some p →
      yield w s.mem p = .ok r → (r.2 → NoOverflow s.mem p) →
      Step w s (s.yielded p (s.place p) r)

/-- The machine after any number of steps from `s₀`. -/
inductive OneCpu.Run (w : Slot → Int) (s₀ : OneCpu) : OneCpu → Prop where
  | init : Run w s₀ s₀
  | tail {s s' : OneCpu} : Run w s₀ s → Step w s s' → Run w s₀ s'

/-- What a process has been charged for in all. -/
def accrued (m : Mem) (p : Slot) : Int := (m.proc p).virtualRuntime + (m.proc p).currentRuntime

/-- The period of every retrieval from a queue as long as this one. -/
def epoch (m : Mem) : Int :=
  if ((queue m).length : Int) > latency.tdiv minGranularity then minGranularity * (queue m).length
  else m.tree.period

end Xv6Cfs
