import Xv6Cfs.Kernel.RunQueue
import Xv6Cfs.Threads.Prog

/-!
# What the kernel's code is made of

The locks, the shared memory, and the instructions into which the code of
`proc.c`, `trap.c` and `sysproc.c` is cut. An instruction is one access to shared
memory, one operation on a lock, one switch, or one section that a lock makes
atomic: the bodies of `insertProcess` and `retrieveProcess`, and a group of
assignments to one slot.

What code outside the repository does is left open: where its outcome matters, a
choice is made by the environment.
-/

namespace Xv6Cfs

/-- The locks. Those of drivers and of the file system are told apart by a number. -/
inductive Lock where
  | proc (p : Slot)
  | wait
  | ticks
  | tree
  | pid
  | other (n : Nat)
  deriving DecidableEq, Repr

/-- The memory all threads share. -/
structure Shared where
  mem : Mem
  ticks : Nat
  nextpid : Int
  initproc : Option Slot
  /-- `first` of `forkret`. -/
  first : Bool

/-- A group of assignments to one slot. -/
inductive Write where
  /-- `yield`, `wakeup`, `kill`: `RUNNABLE`, and the current run is folded into the key. -/
  | fold
  /-- `sleep`: the channel, and `SLEEPING`. -/
  | sleep (chan : Chan)
  /-- `sleep`: `p->chan = 0`. -/
  | clearChan
  /-- `kill`, `setkilled`: `p->killed = 1`. -/
  | kill
  /-- `exit`: the status, and `ZOMBIE`. -/
  | exit (status : Int)
  /-- `allocproc`: the pid. -/
  | pid (n : Int)
  /-- `allocproc`: `USED`. -/
  | used
  /-- `fork`, `userinit`: `RUNNABLE`. -/
  | ready
  /-- `freeproc`. -/
  | free
  /-- `fork`, `reparent`: the parent. -/
  | parent (q : Option Slot)
  /-- `usertrap`: the second half of `p->currentRuntime += 1`. -/
  | runtime (d : Int)
  deriving DecidableEq, Repr

/-- The slot after the assignments. -/
def Write.apply : Write → Proc → Proc
  | .fold, x => x.fold
  | .sleep chan, x => { x with chan := some chan, state := .sleeping }
  | .clearChan, x => { x with chan := none }
  | .kill, x => { x with killed := true }
  | .exit status, x => { x with xstate := status, state := .zombie }
  | .pid n, x => { x with pid := n }
  | .used, x => x.setState .used
  | .ready, x => x.setState .runnable
  | .free, x =>
      { x with
        pid := 0, parent := none, chan := none, killed := false, xstate := 0, state := .unused }
  | .parent q, x => { x with parent := q }
  | .runtime d, x => x.setCurrentRuntime d

/-- `allocproc`: the fields of the scheduler in a new process. -/
def Proc.init (x : Proc) : Proc :=
  { x with
    virtualRuntime := 0, currentRuntime := 0, maxExecutionTime := 0, niceVal := 0
    left := none, right := none, pParent := none }

/-- The system calls, with their arguments. -/
inductive Syscall where
  | fork
  | exit (status : Int)
  /-- `addr` says whether the status is asked for. -/
  | wait (addr : Bool)
  | kill (pid : Int)
  | sleep (n : Int)
  | uptime
  | setnice
  /-- Any other system call, or an unknown number. -/
  | other
  deriving DecidableEq, Repr

/-- What brings a process from user mode into the kernel. -/
inductive Trap where
  | syscall (call : Syscall)
  | device
  | timer
  | fault
  deriving DecidableEq, Repr

/-- What interrupts the kernel. -/
inductive Interrupt where
  | device
  | timer
  deriving DecidableEq, Repr

/-- What the environment, or code outside the repository, decides. -/
inductive Choice where
  | done
  | fail
  | acquire (n : Nat)
  | sleep (chan : Nat)
  | wakeup (chan : Nat)
  | killed
  deriving DecidableEq, Repr

/-- The instructions. -/
inductive Instr where
  | acquire (l : Lock)
  | release (l : Lock)
  /-- Look at the shared memory. -/
  | shared
  /-- The test `p->state == st`. -/
  | stateIs (p : Slot) (st : ProcState)
  /-- The test `p->pid == pid`. -/
  | pidIs (p : Slot) (pid : Int)
  /-- `wakeup`: the test `p->state == SLEEPING && p->chan == chan`. -/
  | sleepsOn (p : Slot) (chan : Option Chan)
  /-- The value of `p->parent`. -/
  | parentOf (p : Slot)
  /-- The body of `checkPreemption`. -/
  | checkPreemption (p : Slot) (minvRuntime : Option Slot)
  /-- `usertrap`: the first half of `p->currentRuntime += 1`. -/
  | runtime (p : Slot)
  | write (p : Slot) (w : Write)
  /-- The body of `insertProcess`. -/
  | insert (p : Slot)
  /-- The body of `retrieveProcess`. -/
  | retrieve
  /-- `scheduler`: `p->state = RUNNING; c->proc = p; swtch(&c->context, &p->context)`. -/
  | dispatch (p : Slot)
  /-- `sched`: the checks, and `swtch(&p->context, &mycpu()->context)`. -/
  | switch (p : Slot)
  /-- `allocproc`, its end: `p`'s thread is to start at `forkret`, and its fields are set. -/
  | init (p : Slot)
  /-- `allocpid`: `pid = nextpid; nextpid = nextpid + 1`. -/
  | nextpid
  /-- `clockintr`: `ticks++`. -/
  | tick
  /-- `userinit`: `initproc = p`. -/
  | initproc (p : Slot)
  /-- `forkret`: `first = 0`. -/
  | firstDone
  /-- Whether the CPU takes interrupts when it holds no lock. -/
  | getIntr
  | setIntr (on : Bool)
  | cpuid
  /-- User mode, until the next trap. -/
  | user
  | choose
  | panic
  deriving DecidableEq

/-- The answers. -/
abbrev Answer : Instr → Type
  | .shared => Shared
  | .stateIs _ _ => Bool
  | .pidIs _ _ => Bool
  | .sleepsOn _ _ => Bool
  | .parentOf _ => Option Slot
  | .checkPreemption _ _ => Bool
  | .runtime _ => Int
  | .retrieve => Option Slot
  | .nextpid => Int
  | .getIntr => Bool
  | .cpuid => Nat
  | .user => Trap
  | .choose => Choice
  | .panic => Empty
  | _ => Unit

/-- The procedures that have a loop without a bound. -/
inductive Routine where
  /-- The `for` loop of `wait`. -/
  | wait (p : Slot) (addr : Bool)
  /-- The `while` loop of `sys_sleep`. -/
  | sysSleep (p : Slot) (n : Int) (ticks0 : Nat)
  /-- Code outside the repository, on behalf of `me`. -/
  | outside (me : Option Slot) (canSleep : Bool)
  /-- The same while it holds a lock of its own. -/
  | outsideHolding (me : Option Slot) (canSleep : Bool) (n : Nat)
  /-- The `for` loop of `scheduler`. -/
  | scheduler
  /-- The `while` loop of `scheduler`. -/
  | serving (p : Option Slot) (found : Bool)
  /-- `usertrap` and user mode, in turn. -/
  | user (p : Slot)
  deriving DecidableEq

/-- Kernel code with a result in `α`. -/
abbrev Code := Threads.Prog Instr Answer Routine Int

/-- The process table in order. -/
def slots : List Slot := List.finRange NPROC

end Xv6Cfs
