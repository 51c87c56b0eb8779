import Xv6Cfs.Kernel.Calls
import Xv6Cfs.Kernel.QueueRuns
import Xv6Cfs.Threads.Waits

/-!
# What is proved of the machine

The words of the results about interleavings, in terms of the machine and its
ledger alone: what a CPU is about to do, where a process can be, who waits for
whom.
-/

namespace Xv6Cfs

variable {n : Nat}

/-- The CPU `c` is about to execute `i`. -/
def Kernel.Issues (k : Kernel n) (c : Fin n) (i : Instr) : Prop :=
  ∃ next, k.code (k.thread c) = .instr i next

/-- The instruction the CPU `c` is about to execute, if it is not a call. -/
def Kernel.issued (k : Kernel n) (c : Fin n) : Option Instr :=
  match k.code (k.thread c) with
  | .instr i _ => some i
  | _ => none

theorem Kernel.issues_iff {k : Kernel n} {c : Fin n} {i : Instr} :
    k.Issues c i ↔ k.issued c = some i := by
  unfold Issues issued
  cases k.code (k.thread c) with
  | instr i' next =>
      simp only [Threads.Prog.instr.injEq, Option.some.injEq]
      exact ⟨fun ⟨_, h, _⟩ => h, fun h => h ▸ ⟨next, rfl, HEq.rfl⟩⟩
  | _ => simp

instance (k : Kernel n) (c : Fin n) (i : Instr) : Decidable (k.Issues c i) :=
  decidable_of_iff _ Kernel.issues_iff.symm

/-! ## Where a process can be -/

/-- A place where a process can be. -/
inductive Location (n : Nat) where
  /-- In the queue. -/
  | queued
  /-- With the scheduler of a CPU, which has retrieved it and not yet put it on the CPU. -/
  | retrieved (c : Fin n)
  /-- With a thread that has made it `RUNNABLE` and not yet inserted it. -/
  | pending (t : Thread n)
  /-- On a CPU. -/
  | running (c : Fin n)
  /-- Nowhere: it sleeps, is being made, or has ended. -/
  | idle

/-- The process `p` is there. -/
def Located (k : Kernel n) (ℓ : Ledger n) (p : Slot) : Location n → Prop
  | .queued => (k.mem.proc p).state = .runnable ∧ (queue k.mem).count p = 1
  | .retrieved c => (k.mem.proc p).state = .runnable ∧ p ∉ queue k.mem ∧ ℓ.retrieved c = some p
  | .pending t => (k.mem.proc p).state = .runnable ∧ p ∉ queue k.mem ∧ (ℓ.pending t).count p = 1
  | .running c => (k.mem.proc p).state = .running ∧ p ∉ queue k.mem ∧ k.running c = some p
  | .idle => (k.mem.proc p).state ∈ [.sleeping, .used, .zombie, .unused] ∧ p ∉ queue k.mem

/-- Every process is in one place, and the kernel's own checks never fail. -/
structure WellPlaced (k : Kernel n) (ℓ : Ledger n) : Prop where
  place : ∀ p, ∃! s, Located k ℓ p s
  /-- A process that has given up `RUNNING` holds its own lock until it has switched. -/
  leaving : ∀ c p, k.running c = some p → (k.mem.proc p).state ≠ .running →
    k.lock (.proc p) = some c
  oneCpu : ∀ c c' p, k.running c = some p → k.running c' = some p → c = c'
  /-- Only a `RUNNABLE` process that is on no CPU is put on one. -/
  dispatch : ∀ c p, k.Issues c (.dispatch p) →
    (k.mem.proc p).state = .runnable ∧ ∀ c', k.running c' ≠ some p
  /-- Nothing is inserted twice, and no insertion finds the queue full. -/
  insert : ∀ c p, k.Issues c (.insert p) → p ∉ queue k.mem ∧ k.mem.tree.isFull = false
  /-- `retrieveProcess` never finds a minimum that is not `RUNNABLE`. -/
  retrieve : ∀ q, k.mem.tree.minvRuntime = some q → (k.mem.proc q).state = .runnable

/-! ## What is frozen in the queue -/

/-- What a queued process is compared and weighed by stays as it was when it was inserted. -/
structure Frozen (k : Kernel n) (ℓ : Ledger n) : Prop where
  queued : ∀ p ∈ queue k.mem, (k.mem.proc p).currentRuntime = 0 ∧
    (k.mem.proc p).state = .runnable ∧
    (k.mem.proc p).virtualRuntime = (ℓ.account p).keyAt ∧
    (k.mem.proc p).weightVal = (ℓ.account p).weightAt
  /-- By the next insertion, its run on a CPU has been folded once, into the key it had there. -/
  folded : ∀ c p, k.Issues c (.insert p) →
    (k.mem.proc p).currentRuntime = 0 ∧
      ((ℓ.account p).dispatched = false → (ℓ.account p).folds = 0) ∧
      ((ℓ.account p).dispatched = true → (ℓ.account p).folds = 1 ∧
        (k.mem.proc p).virtualRuntime = int32 ((ℓ.account p).keyOn + (ℓ.account p).ran))

/-! ## What a process is charged -/

/-- The process `p` is about to return to user mode. -/
def Kernel.Returns (k : Kernel n) (c : Fin n) (p : Slot) : Prop :=
  k.Issues c .user ∧ k.running c = some p

instance (k : Kernel n) (c : Fin n) (p : Slot) : Decidable (k.Returns c p) :=
  inferInstanceAs (Decidable (_ ∧ _))

/-- How often `virtualRuntime` has gone round the range of `int`. -/
def Account.wraps (a : Account) : Int := a.key.bdiv (2 ^ 32)

/-- What the step folds into a key stays in the range of `int`. -/
def Unwrapped (k : Kernel n) : Move n → Prop
  | .exec c _ => ∀ p, k.Issues c (.write p .fold) → NoOverflow k.mem p
  | .interrupt _ _ => True

/-- The step folds no run into a key between the two halves of a charge. -/
def Unsplit (k : Kernel n) (ℓ : Ledger n) : Move n → Prop
  | .exec c _ => ∀ p, k.Issues c (.write p .fold) →
      (ℓ.account p).read = none ∨ (k.mem.proc p).currentRuntime = 0
  | .interrupt _ _ => True

/-- The process whose run the CPU `c` is about to fold into its key. -/
def Kernel.folding (k : Kernel n) (c : Fin n) : Option Slot :=
  match k.issued c with
  | some (.write p .fold) => some p
  | _ => none

theorem Kernel.folding_iff {k : Kernel n} {c : Fin n} {p : Slot} :
    k.Issues c (.write p .fold) ↔ k.folding c = some p := by
  rw [issues_iff]
  unfold folding
  split <;> simp_all

instance (k : Kernel n) (mv : Move n) : Decidable (Unwrapped k mv) :=
  match mv with
  | .exec c _ => decidable_of_iff (∀ p ∈ k.folding c, NoOverflow k.mem p)
      (forall_congr' fun _ => imp_congr Kernel.folding_iff.symm Iff.rfl)
  | .interrupt _ _ => isTrue trivial

instance (k : Kernel n) (ℓ : Ledger n) (mv : Move n) : Decidable (Unsplit k ℓ mv) :=
  match mv with
  | .exec c _ => decidable_of_iff (∀ p ∈ k.folding c,
      (ℓ.account p).read = none ∨ (k.mem.proc p).currentRuntime = 0)
      (forall_congr' fun _ => imp_congr Kernel.folding_iff.symm Iff.rfl)
  | .interrupt _ _ => isTrue trivial

/-- The step is no other trap in user mode than a timer interrupt, and no timer interrupt of a
process in the kernel. -/
def OnlyTicks (k : Kernel n) : Move n → Prop
  | .exec c e => k.Issues c .user → e.trap = .timer
  | .interrupt c i => i = .timer → k.running c = none

instance (k : Kernel n) (mv : Move n) : Decidable (OnlyTicks k mv) :=
  match mv with
  | .exec c e => inferInstanceAs (Decidable (k.Issues c .user → e.trap = .timer))
  | .interrupt c i => inferInstanceAs (Decidable (i = .timer → k.running c = none))

/-- A charge is one step: nothing else happens on the CPU between its two halves. -/
def WholeCharge (k : Kernel n) (ℓ : Ledger n) : Move n → Prop
  | .exec c _ => ∀ p, k.running c = some p → (ℓ.account p).read ≠ none →
      ∃ d, k.Issues c (.write p (.runtime d))
  | .interrupt c _ => ∀ p, k.running c = some p → (ℓ.account p).read = none

/-- The CPU `c` is about to do the second half of a charge of `p`. -/
def Kernel.charging (k : Kernel n) (c : Fin n) (p : Slot) : Bool :=
  match k.issued c with
  | some (.write q (.runtime _)) => q = p
  | _ => false

theorem Kernel.charging_iff {k : Kernel n} {c : Fin n} {p : Slot} :
    k.charging c p = true ↔ ∃ d, k.Issues c (.write p (.runtime d)) := by
  simp only [issues_iff]
  unfold charging
  split <;> simp_all

instance (k : Kernel n) (ℓ : Ledger n) (mv : Move n) : Decidable (WholeCharge k ℓ mv) :=
  match mv with
  | .exec c _ => decidable_of_iff
      (∀ p ∈ k.running c, (ℓ.account p).read ≠ none → k.charging c p = true)
      (forall_congr' fun _ => imp_congr Iff.rfl (imp_congr Iff.rfl Kernel.charging_iff))
  | .interrupt c _ => inferInstanceAs (Decidable (∀ p ∈ k.running c, (ℓ.account p).read = none))

/-- What `p` may run before it is preempted. -/
def limit (m : Mem) (p : Slot) : Int := max (m.proc p).maxExecutionTime minGranularity

/-- No process runs for longer than its slice, or the granularity. -/
structure WithinSlice (k : Kernel n) (ℓ : Ledger n) : Prop where
  dispatch : ∀ c p, k.Issues c (.dispatch p) → (k.mem.proc p).currentRuntime = 0
  returns : ∀ c p, k.Returns c p → (k.mem.proc p).currentRuntime < limit k.mem p
  fold : ∀ c p, k.Issues c (.write p .fold) →
    0 ≤ (k.mem.proc p).currentRuntime ∧ (k.mem.proc p).currentRuntime ≤ limit k.mem p
  /-- That is what is added to the key. -/
  added : ∀ c p e k' ℓ', k.Issues c (.write p .fold) → step k ℓ (.exec c e) = some (k', ℓ') →
    (k'.mem.proc p).virtualRuntime =
      int32 ((k.mem.proc p).virtualRuntime + (k.mem.proc p).currentRuntime)
  /-- The slice is that of the latest retrieval. -/
  slice : ∀ p, (k.mem.proc p).maxExecutionTime = (ℓ.account p).slice

/-! ## Who is whose parent -/

/-- Who has begun has a parent that is alive; only the parent frees a process that has ended, and
until then the slot has the status that it has exited with. -/
structure Parenthood (k : Kernel n) (ℓ : Ledger n) : Prop where
  parent : ∀ p, (k.mem.proc p).state ∈ [.sleeping, .runnable, .running, .zombie] →
    k.shared.initproc ≠ some p → ∃ q, (k.mem.proc p).parent = some q ∧
      (k.mem.proc q).state ∉ [.unused, .zombie]
  child : ∀ q, (k.mem.proc q).state ∈ [.unused, .zombie] → ∀ p, (k.mem.proc p).parent ≠ some q
  initproc : ∀ p, k.shared.initproc = some p → (k.mem.proc p).state ≠ .zombie
  reap : ∀ c p, k.Issues c (.write p .free) → (k.mem.proc p).state = .zombie →
    k.lock .wait = some c ∧ ∃ q, k.running c = some q ∧ (k.mem.proc p).parent = some q
  status : ∀ p, (k.mem.proc p).state = .zombie →
    (ℓ.account p).status = some (k.mem.proc p).xstate

/-- The slot that the instruction frees. -/
def Instr.freed : Instr → Option Slot
  | .write q .free => some q
  | _ => none

/-- The slots that have been freed. -/
def frees (L : List (Act n)) : List Slot := L.filterMap fun e => e.instr.freed

/--
A call of `wait` by `p`, that has executed `L` and returned `r`: it has freed one of its
children, a zombie, and returned what it had read of it before; or none, and returned -1.
-/
structure WaitSpec (p : Slot) (addr : Bool) (L : List (Act n)) (r : Int) : Prop where
  result : frees L = [] ∧ r = -1 ∨ ∃ q, frees L = [q] ∧ ∃ e₀ ∈ L, ∃ e ∈ L,
    e.instr = .write q .free ∧ (e.before.mem.proc q).state = .zombie ∧
      (e.before.mem.proc q).parent = some p ∧
      e₀.instr = .shared ∧ (e₀.before.mem.proc q).guarded = (e.before.mem.proc q).guarded ∧
      r = (e.before.mem.proc q).pid
  /-- When `copyout` was called, the status in the slot was the one the child had exited with. -/
  status : ∀ q ∈ frees L, ∃ e ∈ L, e.instr = .choose ∧ (e.before.mem.proc q).state = .zombie ∧
    (e.before.mem.proc q).parent = some p ∧
      ∀ ℓ, Run e.before ℓ → (ℓ.account q).status = some (e.before.mem.proc q).xstate
  /-- What else it has changed is its own state, when it slept. -/
  own : ∀ i ∈ changes L, (∃ q, i = .write q .free) ∨ i = .write p (.sleep (.proc p)) ∨
    i = .write p .clearChan
  /-- If `copyout` failed, nothing has changed since it found the child, which is still there. -/
  copyout : addr = true → ⟨.choose, .fail⟩ ∈ L.map Act.event →
    r = -1 ∧ frees L = [] ∧ ∃ q L₁ e L₂, L = L₁ ++ e :: L₂ ∧
      e.event = ⟨.stateIs q .zombie, true⟩ ∧ changes L₂ = [] ∧
      ∀ e' ∈ L.getLast?, (e'.after.mem.proc q).state = .zombie ∧
        (e'.after.mem.proc q).parent = some p

/-- The step is the end of the process `p`. -/
def Exits (k : Kernel n) (p : Slot) : Move n → Prop
  | .exec c _ => ∃ status, k.Issues c (.write p (.exit status))
  | .interrupt _ _ => False

/-- A process that has ended is freed once: after it, there is no zombie in the slot until another
process ends there. -/
def FreedOnce (k : Kernel n) (ℓ : Ledger n) : Prop :=
  ∀ c e p k₁ ℓ₁ k₂ ℓ₂, k.Issues c (.write p .free) → step k ℓ (.exec c e) = some (k₁, ℓ₁) →
    Steps (fun k _ mv => ¬Exits k p mv) k₁ ℓ₁ k₂ ℓ₂ → (k₂.mem.proc p).state ≠ .zombie

/-- The step frees the slot `p`. -/
def Frees (k : Kernel n) (p : Slot) : Move n → Prop
  | .exec c _ => k.Issues c (.write p .free)
  | .interrupt _ _ => False

instance (k : Kernel n) (p : Slot) (mv : Move n) : Decidable (Frees k p mv) :=
  match mv with
  | .exec c _ => inferInstanceAs (Decidable (k.Issues c (.write p .free)))
  | .interrupt _ _ => isFalse id

/-! ## Pids and `kill` -/

/-- The pids name the processes, and nothing is left of a kill in a slot that is unused. -/
structure CleanPids (k : Kernel n) : Prop where
  positive : ∀ p, (k.mem.proc p).state ≠ .unused → 0 < (k.mem.proc p).pid
  distinct : ∀ p q, (k.mem.proc p).state ≠ .unused → (k.mem.proc q).state ≠ .unused →
    (k.mem.proc p).pid = (k.mem.proc q).pid → p = q
  unused : ∀ p, (k.mem.proc p).state = .unused → (k.mem.proc p).killed = false
  /-- No process is born killed. -/
  born : ∀ c p, k.Issues c (.write p .used) → (k.mem.proc p).killed = false

/-- The slot `q` is that of the process `pid`. -/
def Named (m : Mem) (pid : Int) (q : Slot) : Prop :=
  (m.proc q).state ≠ .unused ∧ (m.proc q).pid = pid

/-- A call of `kill` that has executed `L` and returned `r`. -/
structure KillSpec (pid : Int) (L : List (Act n)) (r : Int) : Prop where
  /-- It has marked the one process of that pid, and woken it if it slept. -/
  found : r = 0 → ∃ q, ∃ e ∈ L, e.instr = .write q .kill ∧ Named e.before.mem pid q ∧
    (∀ q', Named e.before.mem pid q' → q' = q) ∧
    changes L = if (e.before.mem.proc q).state = .sleeping
      then [.write q .kill, .write q .fold, .insert q] else [.write q .kill]
  /-- Or there was no process of that pid at some moment of the call, and it has changed nothing. -/
  missed : r ≠ 0 → r = -1 ∧ changes L = [] ∧ ∃ e ∈ L, ∀ q, ¬Named e.before.mem pid q
  /-- Who is queued is so once. -/
  queued : ∀ e ∈ L, ∀ q, e.instr = .insert q →
    q ∉ queue e.before.mem ∧ (queue e.after.mem).count q = 1

/-- In the step no process is asked to kill the pid 0. -/
def SparesZero : Move n → Prop
  | .exec _ e => e.trap ≠ .syscall (.kill 0)
  | .interrupt _ _ => True

/-! ## Who sleeps, and who has slept -/

/-- Who has slept has been woken once since, and inserted once, or is about to be. -/
structure WokenOnce (k : Kernel n) (ℓ : Ledger n) : Prop where
  asleep : ∀ p, (k.mem.proc p).state = .sleeping →
    (ℓ.account p).wakes = 0 ∧ (ℓ.account p).inserts = 0 ∧
      ∃ lk chan, (ℓ.account p).slept = some (lk, chan) ∧ (k.mem.proc p).chan = some chan
  awake : ∀ p, (k.mem.proc p).state ≠ .sleeping → (ℓ.account p).slept ≠ none →
    (ℓ.account p).wakes = 1 ∧ ((ℓ.account p).inserts = 1 ∨
      (ℓ.account p).inserts = 0 ∧ ∃ t, t.me ≠ some p ∧ p ∈ ℓ.pending t)

/-! ## Who waits for whom -/

/-- The CPU `c` spins for a lock that `c'` holds. -/
def Kernel.WaitsFor (k : Kernel n) (c c' : Fin n) : Prop :=
  ∃ l, k.Issues c (.acquire l) ∧ k.lock l = some c'

/-- CPUs spin in a cycle, each for a lock that the next one holds. -/
def Deadlocked (k : Kernel n) : Prop := Threads.Cyclic k.WaitsFor

/--
A scheduler holds the lock of `p` and spins for `tickslock`, while the CPU that
holds `tickslock` is in `clockintr` and has still to take the lock of `p`.
-/
def TickRace (k : Kernel n) (ℓ : Ledger n) : Prop :=
  ∃ c c' p ps, k.running c = none ∧ k.lock (.proc p) = some c ∧ k.Issues c (.acquire .ticks) ∧
    k.lock .ticks = some c' ∧ ℓ.scanned c' = some ps ∧ p ∉ ps ∧ k.running c' ≠ some p

/-! ## Which lock protects what -/

/-- What the tree keeps in a slot, but for the way up. -/
def Proc.linked (x : Proc) : Option Slot × Option Slot × RedBlack.Color × Int :=
  (x.left, x.right, x.color, x.weightVal)

/-- The CPU `c` puts `x` into the slot `p`: what it changes there is protected by a lock that it
holds. -/
structure Protected (k : Kernel n) (c : Fin n) (p : Slot) (x : Proc) : Prop where
  /-- The first group of fields in `struct proc`. -/
  guarded : x.guarded ≠ (k.mem.proc p).guarded → k.lock (.proc p) = some c
  /-- The second one. -/
  parent : x.parent ≠ (k.mem.proc p).parent → k.lock .wait = some c
  key : x.virtualRuntime ≠ (k.mem.proc p).virtualRuntime → k.lock (.proc p) = some c
  /-- A process charges itself without a lock. -/
  run : x.currentRuntime ≠ (k.mem.proc p).currentRuntime →
    k.lock (.proc p) = some c ∨ k.running c = some p ∧ (k.mem.proc p).state = .running
  /-- `allocproc` resets it. -/
  slice : x.maxExecutionTime ≠ (k.mem.proc p).maxExecutionTime →
    k.lock .tree = some c ∨ k.lock (.proc p) = some c ∧ (k.mem.proc p).state = .used
  nice : x.niceVal = (k.mem.proc p).niceVal
  linked : x.linked ≠ (k.mem.proc p).linked → k.lock .tree = some c

/-- Whatever the CPU `c` changes on the way from `k` to `k'` is protected. -/
structure Disciplined (k k' : Kernel n) (c : Fin n) : Prop where
  proc : ∀ p, Protected k c p (k'.mem.proc p)
  tree : k'.mem.tree ≠ k.mem.tree → k.lock .tree = some c
  ticks : k'.shared.ticks ≠ k.shared.ticks → k.lock .ticks = some c
  nextpid : k'.shared.nextpid ≠ k.shared.nextpid → k.lock .pid = some c
  /-- `initproc` is set once, before any process runs. -/
  initproc : k'.shared.initproc ≠ k.shared.initproc →
    k.shared.initproc = none ∧ ∀ c, k.running c = none

/-! ## The life of a process -/

/-- How the CPU `c` may change the state of the process `p`. -/
inductive Transition (k : Kernel n) (c : Fin n) (p : Slot) : ProcState → ProcState → Prop where
  /-- `allocproc`. -/
  | alloc : Transition k c p .unused .used
  /-- `fork` and `allocproc`, when they fail. -/
  | giveBack : Transition k c p .used .unused
  /-- `fork` and `userinit`. -/
  | ready : Transition k c p .used .runnable
  /-- `scheduler`, which has retrieved it. -/
  | dispatch : k.running c = none → p ∉ queue k.mem → Transition k c p .runnable .running
  /-- `yield`. -/
  | yield : k.running c = some p → Transition k c p .running .runnable
  /-- `sleep`. -/
  | sleep : k.running c = some p → Transition k c p .running .sleeping
  /-- `wakeup` and `kill`. -/
  | wake : k.running c ≠ some p → Transition k c p .sleeping .runnable
  /-- `exit`, which has told the parent, and given it all children. -/
  | exit : k.running c = some p → k.lock .wait = some c → k.shared.initproc ≠ some p →
      (∀ q, (k.mem.proc q).parent ≠ some p) → Transition k c p .running .zombie
  /-- `wait`, of the parent. -/
  | reap : (∃ q, k.running c = some q ∧ (k.mem.proc p).parent = some q) → k.lock .wait = some c →
      Transition k c p .zombie .unused

/-- On the way from `k` to `k'` the CPU `c` changes the state of one process at most, whose lock it
holds, and that in one of these ways. -/
structure Lifecycle (k k' : Kernel n) (c : Fin n) : Prop where
  one : ∀ p q, (k'.mem.proc p).state ≠ (k.mem.proc p).state →
    (k'.mem.proc q).state ≠ (k.mem.proc q).state → p = q
  change : ∀ p, (k'.mem.proc p).state ≠ (k.mem.proc p).state → k.lock (.proc p) = some c ∧
    Transition k c p (k.mem.proc p).state (k'.mem.proc p).state

/-! ## What the run queue answers -/

/-- The queue, with the keys. -/
def keyedQueue (m : Mem) : List (Int × Slot) :=
  (queue m).map fun p => ((m.proc p).virtualRuntime, p)

/-- The call of the run queue that the step makes, if it makes one, with its answer. -/
def Kernel.queueCall (k : Kernel n) : Move n → List (StableQueue.Call Int Slot)
  | .exec c _ =>
      match k.issued c with
      | some (.insert p) => [.insert (k.mem.proc p).virtualRuntime p]
      | some .retrieve => [.retrieve ((retrieveProcessLocked k.mem).toOption.bind Prod.snd)]
      | _ => []
  | .interrupt _ _ => []

/-- The states of the machine reached from boot, with the calls of the run queue on the way. -/
inductive Served : Kernel n → Ledger n → List (StableQueue.Call Int Slot) → Prop where
  | init : Served (boot n) (Ledger.empty n) []
  | tail {k k' : Kernel n} {ℓ ℓ' : Ledger n} {mv : Move n}
      {calls : List (StableQueue.Call Int Slot)} :
      Served k ℓ calls → step k ℓ mv = some (k', ℓ') → Served k' ℓ' (calls ++ k.queueCall mv)

theorem Served.run {k : Kernel n} {ℓ : Ledger n} {calls : List (StableQueue.Call Int Slot)}
    (h : Served k ℓ calls) : Run k ℓ := by
  induction h with
  | init => exact .init
  | tail _ hs ih => exact .tail ih hs

theorem Run.served {k : Kernel n} {ℓ : Ledger n} (h : Run k ℓ) : ∃ calls, Served k ℓ calls := by
  induction h with
  | init => exact ⟨[], .init⟩
  | tail _ hs ih =>
      obtain ⟨calls, hcalls⟩ := ih
      exact ⟨_, .tail hcalls hs⟩

/-- What a process has been charged, with what was counted twice. -/
def Account.billed (a : Account) : Int := a.charges + a.recounted

/-- The queue is in the order of what its processes have been charged. -/
structure FairOrder (k : Kernel n) (ℓ : Ledger n) : Prop where
  sorted : StableQueue.SortedBy (fun p => (ℓ.account p).billed) (queue k.mem)
  /-- Who is retrieved has been charged least. -/
  least : ∀ c e k' q, k.Issues c .retrieve → execute k c e .retrieve = some (k', some q) →
    ∀ p ∈ queue k.mem, (ℓ.account q).billed ≤ (ℓ.account p).billed

/-- Every process weighs the same, gets an equal share of the period, and runs at least for the
granularity before its slice ends. -/
structure EqualShares (k : Kernel n) : Prop where
  weight : ∀ p ∈ queue k.mem, (k.mem.proc p).weightVal = 819
  share : ∀ c e k' p, k.Issues c .retrieve → execute k c e .retrieve = some (k', some p) →
    (k'.mem.proc p).maxExecutionTime = k'.mem.tree.period / (queue k.mem).length
  granularity : ∀ c p, k.running c = some p → minGranularity ≤ (k.mem.proc p).maxExecutionTime
  /-- The end of a slice is never put off. -/
  preempted : ∀ c p q, k.Issues c (.checkPreemption p q) →
    (k.mem.proc p).maxExecutionTime ≤ (k.mem.proc p).currentRuntime →
    checkPreemption k.mem p q = true

/-! ## Going on -/

/-- The CPU `c` can make its next step, whatever the environment decides. -/
def Kernel.Ready (k : Kernel n) (c : Fin n) : Prop := ∀ ℓ e, (step k ℓ (.exec c e)).isSome

/--
Nothing stops a CPU but a lock that another CPU holds, and two calls of `panic`: that of
`userinit` when it gets no process, and that of `exit` for `initproc`.
-/
structure GoesOn (k : Kernel n) : Prop where
  next : ∀ c, k.Ready c ∨ (∃ c', c' ≠ c ∧ k.WaitsFor c c') ∨ k.Issues c .panic
  panic : ∀ c, k.Issues c .panic →
    k.shared.initproc = none ∧ k.running c = none ∧ c.val = 0 ∨
      ∃ p, k.running c = some p ∧ k.shared.initproc = some p

end Xv6Cfs
