import Xv6Cfs.Kernel.Code
import Xv6Cfs.Kernel.OneCpu

/-!
# The machine

Any number of CPUs over one memory. A CPU runs its scheduler, or the kernel
thread of the process it was last switched to. In one step some CPU executes one
instruction of the thread it runs, or takes an interrupt; everything the claims
about interleavings say is about sequences of such steps from boot.

Locks are held by CPUs. A CPU takes interrupts when its flag is set and it holds
no lock. An interrupt puts `kerneltrap` before what the thread has still to do.

The ledger records what has happened so far, and is read by no step.
-/

namespace Xv6Cfs

open Threads (Prog)

/-- The threads: the scheduler of each CPU, and the kernel thread of each process. -/
inductive Thread (n : Nat) where
  | cpu (c : Fin n)
  | proc (p : Slot)
  deriving DecidableEq

/-- What `myproc()` returns to the thread. -/
def Thread.me {n : Nat} : Thread n → Option Slot
  | .cpu _ => none
  | .proc p => some p

/-- The state of the machine. -/
structure Kernel (n : Nat) where
  shared : Shared
  /-- The CPU that holds a lock. -/
  lock : Lock → Option (Fin n)
  /-- How many locks a CPU holds. -/
  noff : Fin n → Nat
  /-- Whether a CPU takes interrupts when it holds no lock. -/
  intr : Fin n → Bool
  /-- The process whose kernel thread a CPU runs. -/
  running : Fin n → Option Slot
  /-- What each thread has still to do. -/
  code : Thread n → Code Int

namespace Kernel

variable {n : Nat} (k : Kernel n)

/-- The process table and the run queue. -/
def mem : Mem := k.shared.mem

/-- The thread a CPU runs. -/
def thread (c : Fin n) : Thread n :=
  match k.running c with
  | some p => .proc p
  | none => .cpu c

@[simps] def setShared (s : Shared) : Kernel n := { k with shared := s }

@[simps!] def setMem (m : Mem) : Kernel n := k.setShared { k.shared with mem := m }

@[simps] def setIntr (c : Fin n) (on : Bool) : Kernel n :=
  { k with intr := Function.update k.intr c on }

@[simps] def setCode (t : Thread n) (x : Code Int) : Kernel n :=
  { k with code := Function.update k.code t x }

@[simps] def setRunning (c : Fin n) (p : Option Slot) : Kernel n :=
  { k with running := Function.update k.running c p }

/-- `acquire`, when the lock is free. -/
@[simps] def take (c : Fin n) (l : Lock) : Kernel n :=
  { k with
    lock := Function.update k.lock l (some c)
    noff := Function.update k.noff c (k.noff c + 1) }

/-- `release`. -/
@[simps] def drop (c : Fin n) (l : Lock) : Kernel n :=
  { k with
    lock := Function.update k.lock l none
    noff := Function.update k.noff c (k.noff c - 1) }

@[simp] theorem setShared_mem (s : Shared) : (k.setShared s).mem = s.mem := rfl
@[simp] theorem setMem_mem (m : Mem) : (k.setMem m).mem = m := rfl
@[simp] theorem setIntr_mem (c : Fin n) (on : Bool) : (k.setIntr c on).mem = k.mem := rfl
@[simp] theorem setCode_mem (t : Thread n) (x : Code Int) : (k.setCode t x).mem = k.mem := rfl
@[simp] theorem setRunning_mem (c : Fin n) (p : Option Slot) : (k.setRunning c p).mem = k.mem := rfl
@[simp] theorem take_mem (c : Fin n) (l : Lock) : (k.take c l).mem = k.mem := rfl
@[simp] theorem drop_mem (c : Fin n) (l : Lock) : (k.drop c l).mem = k.mem := rfl

end Kernel

/-- What the environment decides: the next trap in user mode, the next choice. -/
structure Env where
  trap : Trap := .device
  choice : Choice := .done
  deriving DecidableEq, Repr

/--
What an instruction does on the CPU `c`. There is no step from a lock that is
taken, from a failed check or from `panic`.
-/
def execute {n : Nat} (k : Kernel n) (c : Fin n) (e : Env) :
    (i : Instr) → Option (Kernel n × Answer i)
  | .acquire l => if k.lock l = none then some (k.take c l, ()) else none
  | .release l => if k.lock l = some c then some (k.drop c l, ()) else none
  | .shared => some (k, k.shared)
  | .stateIs p st => some (k, decide ((k.mem.proc p).state = st))
  | .pidIs p pid => some (k, decide ((k.mem.proc p).pid = pid))
  | .sleepsOn p chan =>
      some (k, decide ((k.mem.proc p).state = .sleeping ∧ (k.mem.proc p).chan = chan))
  | .parentOf p => some (k, (k.mem.proc p).parent)
  | .checkPreemption p minvRuntime => some (k, checkPreemption k.mem p minvRuntime)
  | .runtime p => some (k, (k.mem.proc p).currentRuntime)
  | .write p w => some (k.setMem (k.mem.modify p w.apply), ())
  | .insert p =>
      match insertProcessLocked (calculateWight loopFuel) k.mem p with
      | .ok m => some (k.setMem m, ())
      | .error _ => none
  | .retrieve =>
      match retrieveProcessLocked k.mem with
      | .ok (m, r) => some (k.setMem m, r)
      | .error _ => none
  | .dispatch p => some ((k.setMem (dispatch k.mem p)).setRunning c (some p), ())
  | .switch p =>
      if k.lock (.proc p) = some c ∧ k.noff c = 1 ∧ (k.mem.proc p).state ≠ .running then
        some (k.setRunning c none, ())
      else none
  | .init p => some ((k.setMem (k.mem.modify p Proc.init)).setCode (.proc p) (forkret p), ())
  | .nextpid =>
      some (k.setShared { k.shared with nextpid := int32 (k.shared.nextpid + 1) },
        k.shared.nextpid)
  | .tick => some (k.setShared { k.shared with ticks := (k.shared.ticks + 1) % 2 ^ 32 }, ())
  | .initproc p => some (k.setShared { k.shared with initproc := some p }, ())
  | .firstDone => some (k.setShared { k.shared with first := false }, ())
  | .getIntr => some (k, k.intr c)
  | .setIntr on => some (k.setIntr c on, ())
  | .cpuid => some (k, c.val)
  | .user => some (k.setIntr c false, e.trap)
  | .choose => some (k, e.choice)
  | .panic => none

/-! ## The ledger -/

/-- What has happened to a process since `allocproc` made it. -/
structure Account where
  /-- Timer interrupts taken in user mode. -/
  userTicks : Nat := 0
  /-- Other traps taken in user mode. -/
  otherTraps : Nat := 0
  /-- Timer interrupts taken in the kernel, while the process was running. -/
  kernelTicks : Nat := 0
  /-- Charges completed by `usertrap`. -/
  charges : Nat := 0
  /-- `virtualRuntime`, had `int` no bound. -/
  key : Int := 0
  /-- `currentRuntime`, had `int` no bound. -/
  run : Int := 0
  /-- The first half of a charge has been done, and has read this. -/
  read : Option Int := none
  /-- The sum of what was folded in since then. -/
  since : Int := 0
  /-- The sum of what was folded in between the two halves of a completed charge. -/
  recounted : Int := 0
  /-- It has been on a CPU. -/
  dispatched : Bool := false
  /-- Its key when it was last put on a CPU. -/
  keyOn : Int := 0
  /-- `currentRuntime`, as it was last set there. -/
  ran : Int := 0
  /-- How often its run was folded into its key since it was last put on a CPU. -/
  folds : Nat := 0
  /-- Its key at the last insertion. -/
  keyAt : Int := 0
  /-- Its weight after the last insertion. -/
  weightAt : Int := 0
  /-- Its `maxExecutionTime` after the last retrieval. -/
  slice : Int := 0
  /-- Its last call of `sleep`: the lock and the channel. -/
  slept : Option (Lock × Chan) := none
  /-- How often another thread has made it `RUNNABLE` since. -/
  wakes : Nat := 0
  /-- How often another thread has put it into the queue since. -/
  inserts : Nat := 0
  /-- The status it has exited with. -/
  status : Option Int := none
  deriving DecidableEq, Repr

namespace Account

/-- `RUNNABLE`, and the current run folded into the key, by itself or by another thread. -/
@[simps] def fold (a : Account) (byOther : Bool) : Account :=
  { a with
    key := a.key + a.run, run := 0, since := a.since + a.run, folds := a.folds + 1
    wakes := a.wakes + if byOther then 1 else 0 }

/-- The first half of a charge. -/
@[simps] def readRuntime (a : Account) : Account := { a with read := some a.run, since := 0 }

/-- The second half of a charge. -/
@[simps] def charge (a : Account) (d : Int) : Account :=
  { a with
    run := a.read.getD 0 + 1, read := none, recounted := a.recounted + a.since
    charges := a.charges + 1, ran := d }

/-- Put on a CPU. -/
@[simps] def dispatch (a : Account) (x : Proc) : Account :=
  { a with dispatched := true, keyOn := x.virtualRuntime, ran := x.currentRuntime, folds := 0 }

/-- Put into the queue, by itself or by another thread. -/
@[simps] def queued (a : Account) (byOther : Bool) (x : Proc) : Account :=
  { a with
    keyAt := x.virtualRuntime, weightAt := x.weightVal
    inserts := a.inserts + if byOther then 1 else 0 }

/-- Taken from the queue. -/
@[simps] def retrieved (a : Account) (x : Proc) : Account := { a with slice := x.maxExecutionTime }

/-- Gone to sleep. -/
@[simps] def sleep (a : Account) (lk : Option Lock) (chan : Chan) : Account :=
  { a with slept := lk.map (·, chan), wakes := 0, inserts := 0 }

/-- Ended. -/
@[simps] def exit (a : Account) (status : Int) : Account := { a with status := some status }

/-- A trap in user mode. -/
@[simps] def trap (a : Account) (t : Trap) : Account :=
  { a with
    userTicks := a.userTicks + if t = .timer then 1 else 0
    otherTraps := a.otherTraps + if t = .timer then 0 else 1 }

/-- A timer interrupt in the kernel. -/
@[simps] def kernelTick (a : Account) : Account := { a with kernelTicks := a.kernelTicks + 1 }

end Account

/-- What has happened so far. -/
structure Ledger (n : Nat) where
  /-- What a scheduler has retrieved and not yet put on its CPU. -/
  retrieved : Fin n → Option Slot
  /-- What a thread has made `RUNNABLE` and not yet put into the queue. -/
  pending : Thread n → List Slot
  /-- After `ticks++`, until `tickslock` is released: the processes whose lock was taken since. -/
  scanned : Fin n → Option (List Slot)
  /-- The last lock a thread has released, of those `sleep` is called with. -/
  dropped : Thread n → Option Lock
  /-- How many pids have been given out. -/
  allocs : Nat
  /-- The pids of the processes that `wait` has freed. -/
  reaped : List Int
  account : Slot → Account

namespace Ledger

variable {n : Nat} (ℓ : Ledger n)

@[simps] def setRetrieved (c : Fin n) (r : Option Slot) : Ledger n :=
  { ℓ with retrieved := Function.update ℓ.retrieved c r }

@[simps] def setPending (t : Thread n) (ps : List Slot) : Ledger n :=
  { ℓ with pending := Function.update ℓ.pending t ps }

@[simps] def setScanned (c : Fin n) (ps : Option (List Slot)) : Ledger n :=
  { ℓ with scanned := Function.update ℓ.scanned c ps }

@[simps] def setDropped (t : Thread n) (l : Lock) : Ledger n :=
  { ℓ with dropped := Function.update ℓ.dropped t (some l) }

@[simps] def alloc : Ledger n := { ℓ with allocs := ℓ.allocs + 1 }

@[simps] def reap (pid : Int) : Ledger n := { ℓ with reaped := pid :: ℓ.reaped }

@[simps] def modify (p : Slot) (f : Account → Account) : Ledger n :=
  { ℓ with account := Function.update ℓ.account p (f (ℓ.account p)) }

/-- The ledger after a write by the thread `t` to the slot `p`, which held `x`. -/
def recordWrite (t : Thread n) (p : Slot) (x : Proc) : Write → Ledger n
  | .fold =>
      (ℓ.setPending t (p :: ℓ.pending t)).modify p (Account.fold · (decide (t.me ≠ some p)))
  | .sleep chan => ℓ.modify p (Account.sleep · (ℓ.dropped t) chan)
  | .ready => ℓ.setPending t (p :: ℓ.pending t)
  | .free => if x.state = .zombie then ℓ.reap x.pid else ℓ
  | .runtime d => ℓ.modify p (Account.charge · d)
  | .exit status => ℓ.modify p (Account.exit · status)
  | _ => ℓ

/-- The ledger after an instruction on the CPU `c` that has led from `k` to `k'`. -/
def record (k k' : Kernel n) (c : Fin n) : (i : Instr) → Answer i → Ledger n
  | .acquire (.proc p), _ => ℓ.setScanned c ((ℓ.scanned c).map (p :: ·))
  | .release .ticks, _ => (ℓ.setScanned c none).setDropped (k.thread c) .ticks
  | .release .wait, _ => ℓ.setDropped (k.thread c) .wait
  | .release (.other x), _ => ℓ.setDropped (k.thread c) (.other x)
  | .tick, _ => ℓ.setScanned c (some [])
  | .write p w, _ => ℓ.recordWrite (k.thread c) p (k.mem.proc p) w
  | .insert p, _ =>
      (ℓ.setPending (k.thread c) ((ℓ.pending (k.thread c)).erase p)).modify p
        (Account.queued · (decide ((k.thread c).me ≠ some p)) (k'.mem.proc p))
  | .retrieve, none => ℓ.setRetrieved c none
  | .retrieve, some p => (ℓ.setRetrieved c (some p)).modify p (Account.retrieved · (k'.mem.proc p))
  | .dispatch p, _ => (ℓ.setRetrieved c none).modify p (Account.dispatch · (k'.mem.proc p))
  | .init p, _ => ℓ.modify p fun _ => {}
  | .nextpid, _ => ℓ.alloc
  | .runtime p, _ => ℓ.modify p Account.readRuntime
  | .user, t =>
      match (k.thread c).me with
      | some p => ℓ.modify p (Account.trap · t)
      | none => ℓ
  | _, _ => ℓ

/-- The ledger after an interrupt of the thread `t`. -/
def recordInterrupt : Option Slot → Interrupt → Ledger n
  | some p, .timer => ℓ.modify p Account.kernelTick
  | _, _ => ℓ

end Ledger

/-! ## Runs -/

/-- A step: some CPU goes on, or is interrupted. -/
inductive Move (n : Nat) where
  | exec (c : Fin n) (e : Env)
  | interrupt (c : Fin n) (i : Interrupt)

/-- An interrupt of the CPU `c`. -/
def interrupt {n : Nat} (k : Kernel n) (c : Fin n) (i : Interrupt) : Kernel n :=
  (k.setIntr c false).setCode (k.thread c) (do
    kerneltrap (k.thread c).me i
    setIntr true
    k.code (k.thread c))

/-- One step, with the ledger. -/
def step {n : Nat} (k : Kernel n) (ℓ : Ledger n) : Move n → Option (Kernel n × Ledger n)
  | .exec c e =>
      match k.code (k.thread c) with
      | .ret _ => none
      | .call f next => some (k.setCode (k.thread c) (f.body >>= next), ℓ)
      | .instr i next =>
          match execute k c e i with
          | none => none
          | some (k', r) => some (k'.setCode (k.thread c) (next r), ℓ.record k k' c i r)
  | .interrupt c i =>
      if k.intr c ∧ k.noff c = 0 then
        some (interrupt k c i, ℓ.recordInterrupt (k.thread c).me i)
      else none

/-- The memory before `main` calls `procinit`, and after it. -/
def bootMem : Mem :=
  rbinit
    { proc := fun _ => Proc.zero
      tree := { count := 0, treeWeight := 0, root := none, minvRuntime := none, locked := false,
                period := 0 } }

/-- What a CPU does after `main` has set it up. -/
def bootCode {n : Nat} : Thread n → Code Int
  | .cpu c =>
      if c.val = 0 then do
        userinit
        invoke .scheduler
      else invoke .scheduler
  | .proc p => forkret p

/-- The machine after boot: the first CPU is about to call `userinit`. -/
def boot (n : Nat) : Kernel n where
  shared := { mem := bootMem, ticks := 0, nextpid := 1, initproc := none, first := true }
  lock := fun _ => none
  noff := fun _ => 0
  intr := fun _ => false
  running := fun _ => none
  code := bootCode

/-- Nothing has happened. -/
def Ledger.empty (n : Nat) : Ledger n where
  retrieved := fun _ => none
  pending := fun _ => []
  scanned := fun _ => none
  dropped := fun _ => none
  allocs := 0
  reaped := []
  account := fun _ => {}

/-- The states of the machine reached from boot, with what has happened on the way. -/
inductive Run {n : Nat} : Kernel n → Ledger n → Prop where
  | init : Run (boot n) (Ledger.empty n)
  | tail {k k' : Kernel n} {ℓ ℓ' : Ledger n} {mv : Move n} :
      Run k ℓ → step k ℓ mv = some (k', ℓ') → Run k' ℓ'

/-- The same, by steps that all meet the condition `P`. -/
inductive RunWhere {n : Nat} (P : Kernel n → Ledger n → Move n → Prop) :
    Kernel n → Ledger n → Prop where
  | init : RunWhere P (boot n) (Ledger.empty n)
  | tail {k k' : Kernel n} {ℓ ℓ' : Ledger n} {mv : Move n} :
      RunWhere P k ℓ → P k ℓ mv → step k ℓ mv = some (k', ℓ') → RunWhere P k' ℓ'

theorem RunWhere.run {n : Nat} {P : Kernel n → Ledger n → Move n → Prop} {k : Kernel n}
    {ℓ : Ledger n} (h : RunWhere P k ℓ) : Run k ℓ := by
  induction h with
  | init => exact .init
  | tail _ _ hs ih => exact .tail ih hs

theorem RunWhere.mono {n : Nat} {P Q : Kernel n → Ledger n → Move n → Prop} {k : Kernel n}
    {ℓ : Ledger n} (h : RunWhere P k ℓ) (hPQ : ∀ k ℓ mv, P k ℓ mv → Q k ℓ mv) : RunWhere Q k ℓ := by
  induction h with
  | init => exact .init
  | tail _ hP hs ih => exact .tail ih (hPQ _ _ _ hP) hs

/-- Make a sequence of steps. -/
def exec {n : Nat} (s : Kernel n × Ledger n) (mvs : List (Move n)) :
    Option (Kernel n × Ledger n) :=
  mvs.foldlM (fun s mv => step s.1 s.2 mv) s

/-- Make a sequence of steps that all meet the condition `P`. -/
def execWhere {n : Nat} (P : Kernel n → Ledger n → Move n → Prop) [∀ k ℓ mv, Decidable (P k ℓ mv)]
    (s : Kernel n × Ledger n) (mvs : List (Move n)) : Option (Kernel n × Ledger n) :=
  mvs.foldlM (fun s mv => if P s.1 s.2 mv then step s.1 s.2 mv else none) s

theorem runWhere_exec {n : Nat} {P : Kernel n → Ledger n → Move n → Prop}
    [∀ k ℓ mv, Decidable (P k ℓ mv)] {s s' : Kernel n × Ledger n} {mvs : List (Move n)}
    (h : RunWhere P s.1 s.2) (hs : execWhere P s mvs = some s') : RunWhere P s'.1 s'.2 := by
  induction mvs generalizing s with
  | nil =>
      obtain rfl : s = s' := by simpa [execWhere] using hs
      exact h
  | cons mv mvs ih =>
      rw [execWhere, List.foldlM_cons] at hs
      obtain ⟨s₁, h₁, hs⟩ := Option.bind_eq_some_iff.mp hs
      rw [Option.ite_none_right_eq_some] at h₁
      exact ih (.tail h h₁.1 h₁.2) hs

theorem run_exec {n : Nat} {s s' : Kernel n × Ledger n} {mvs : List (Move n)}
    (h : Run s.1 s.2) (hs : exec s mvs = some s') : Run s'.1 s'.2 := by
  induction mvs generalizing s with
  | nil =>
      obtain rfl : s = s' := by simpa [exec] using hs
      exact h
  | cons mv mvs ih =>
      rw [exec, List.foldlM_cons] at hs
      obtain ⟨s₁, h₁, hs⟩ := Option.bind_eq_some_iff.mp hs
      exact ih (.tail h h₁) hs

/-- A step of which it is said beforehand which thread makes it, and what it retrieves. -/
def stepAs {n : Nat} (k : Kernel n) (ℓ : Ledger n) (t : Thread n) (got : Option Slot) :
    Move n → Option (Kernel n × Ledger n)
  | .exec c e =>
      if k.thread c = t then
        match k.code t with
        | .ret _ => none
        | .call f next => some (k.setCode t (f.body >>= next), ℓ)
        | .instr .retrieve next =>
            match execute k c e .retrieve with
            | none => none
            | some (k', r) =>
                if r = got then some (k'.setCode t (next got), ℓ.record k k' c .retrieve got)
                else none
        | .instr i next =>
            match execute k c e i with
            | none => none
            | some (k', r) => some (k'.setCode t (next r), ℓ.record k k' c i r)
      else none
  | .interrupt c i => step k ℓ (.interrupt c i)

/-- Make a sequence of such steps. No state has to be looked into to find out who goes on. -/
def execAs {n : Nat} (s : Kernel n × Ledger n) (mvs : List (Move n × Thread n × Option Slot)) :
    Option (Kernel n × Ledger n) :=
  mvs.foldlM (fun s mv => stepAs s.1 s.2 mv.2.1 mv.2.2 mv.1) s

theorem step_of_stepAs {n : Nat} {k : Kernel n} {ℓ : Ledger n} {t : Thread n} {got : Option Slot}
    {mv : Move n} {s : Kernel n × Ledger n} (h : stepAs k ℓ t got mv = some s) :
    step k ℓ mv = some s := by
  cases mv with
  | interrupt c i => exact h
  | exec c e =>
      simp only [stepAs] at h
      split_ifs at h with ht
      subst ht
      cases hcode : k.code (k.thread c) with
      | ret a => simp [hcode] at h
      | call f next => simpa [step, hcode] using h
      | instr i next =>
          rw [hcode] at h
          by_cases hi : i = .retrieve
          · subst hi
            simp only [step, hcode]
            cases hex : execute k c e .retrieve with
            | none => simp [hex] at h
            | some k' =>
                simp only [hex] at h
                split_ifs at h with hr
                rwa [← hr] at h
          · cases i <;> first | exact absurd rfl hi | (simp only [step, hcode]; exact h)

theorem run_execAs {n : Nat} {s s' : Kernel n × Ledger n}
    {mvs : List (Move n × Thread n × Option Slot)} (h : Run s.1 s.2)
    (hs : execAs s mvs = some s') : Run s'.1 s'.2 := by
  induction mvs generalizing s with
  | nil =>
      obtain rfl : s = s' := by simpa [execAs] using hs
      exact h
  | cons mv mvs ih =>
      rw [execAs, List.foldlM_cons] at hs
      obtain ⟨s₁, h₁, hs⟩ := Option.bind_eq_some_iff.mp hs
      exact ih (.tail h (step_of_stepAs h₁)) hs

/-- `m` steps of the CPU `c`, which runs the thread `t`. -/
def stretch {n : Nat} (m : Nat) (c : Fin n) (t : Thread n) (e : Env) :
    List (Move n × Thread n × Option Slot) :=
  List.replicate m (.exec c e, t, none)

/-- The scheduler of the CPU `c` retrieves `p`. -/
def fetch {n : Nat} (c : Fin n) (p : Slot) : List (Move n × Thread n × Option Slot) :=
  [(.exec c {}, .cpu c, some p)]

end Xv6Cfs
