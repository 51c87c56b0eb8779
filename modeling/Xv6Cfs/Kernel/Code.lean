import Xv6Cfs.Kernel.Instr

/-!
# The kernel's code

The functions of `proc.c`, `trap.c` and `sysproc.c` that several CPUs run at
once, statement by statement. What `myproc()` returns is the argument `me`: no
process for a CPU in its scheduler, else the process whose kernel thread runs the
code. The functions that only a process runs take it as `p`.

Left out is what no lock, no state and no key depends on: page tables, trap
frames, files, names and the printing.
-/

namespace Xv6Cfs

open Threads (Prog)

/-! ## The instructions -/

def acquire (l : Lock) : Code Unit := Prog.issue (Instr.acquire l)
def release (l : Lock) : Code Unit := Prog.issue (Instr.release l)
def shared : Code Shared := Prog.issue Instr.shared
def stateIs (p : Slot) (st : ProcState) : Code Bool := Prog.issue (Instr.stateIs p st)
def pidIs (p : Slot) (pid : Int) : Code Bool := Prog.issue (Instr.pidIs p pid)
def sleepsOn (p : Slot) (chan : Option Chan) : Code Bool := Prog.issue (Instr.sleepsOn p chan)
def procParent (p : Slot) : Code (Option Slot) := Prog.issue (Instr.parentOf p)
def preempted (p : Slot) (minvRuntime : Option Slot) : Code Bool :=
  Prog.issue (Instr.checkPreemption p minvRuntime)
def runtime (p : Slot) : Code Int := Prog.issue (Instr.runtime p)
def write (p : Slot) (w : Write) : Code Unit := Prog.issue (Instr.write p w)
def insertLocked (p : Slot) : Code Unit := Prog.issue (Instr.insert p)
def retrieveLocked : Code (Option Slot) := Prog.issue Instr.retrieve
def dispatchTo (p : Slot) : Code Unit := Prog.issue (Instr.dispatch p)
def switchFrom (p : Slot) : Code Unit := Prog.issue (Instr.switch p)
def initProc (p : Slot) : Code Unit := Prog.issue (Instr.init p)
def takeNextpid : Code Int := Prog.issue Instr.nextpid
def tick : Code Unit := Prog.issue Instr.tick
def setInitproc (p : Slot) : Code Unit := Prog.issue (Instr.initproc p)
def firstDone : Code Unit := Prog.issue Instr.firstDone
def getIntr : Code Bool := Prog.issue Instr.getIntr
def setIntr (on : Bool) : Code Unit := Prog.issue (Instr.setIntr on)
def cpuid : Code Nat := Prog.issue Instr.cpuid
def userMode : Code Trap := Prog.issue Instr.user
def choose : Code Choice := Prog.issue Instr.choose
def panic {α : Type} : Code α := .instr .panic Empty.elim
def invoke (f : Routine) : Code Int := Prog.invoke f

/-- Read one slot. -/
def slot (p : Slot) : Code Proc := do
  let s ← shared
  return s.mem.proc p

/-! ## The run queue -/

/-- `insertProcess`, its body being one instruction. -/
def callInsertProcess (p : Slot) : Code Unit := do
  acquire .tree
  insertLocked p
  release .tree

/-- `retrieveProcess`, its body being one instruction. -/
def callRetrieveProcess : Code (Option Slot) := do
  acquire .tree
  let r ← retrieveLocked
  release .tree
  return r

/-! ## Switching, sleeping and waking -/

/-- `sched`. -/
def sched (p : Slot) : Code Unit := do
  let intena ← getIntr
  switchFrom p
  setIntr intena

/-- The call of `checkPreemption` in `yield`. -/
def callCheckPreemption (p : Slot) : Code Bool := do
  let s ← shared
  preempted p s.mem.tree.minvRuntime

/-- `yield`: what it does when it gives up the CPU. -/
def giveUp (p : Slot) : Code Unit := do
  write p .fold
  callInsertProcess p
  sched p

/-- `yield`. -/
def yieldCpu (p : Slot) : Code Unit := do
  acquire (.proc p)
  let preempt ← callCheckPreemption p
  (if preempt then giveUp p else pure ())
  release (.proc p)

/-- `sleep`. -/
def sleep (p : Slot) (chan : Chan) (lk : Lock) : Code Unit := do
  acquire (.proc p)
  release lk
  write p (.sleep chan)
  sched p
  write p .clearChan
  release (.proc p)
  acquire lk

/-- `wakeup`, `kill`: a sleeping process is made runnable and queued. -/
def wake (p : Slot) : Code Unit := do
  write p .fold
  callInsertProcess p

/-- The body of the loop of `wakeup`. -/
def wakeupOne (me : Option Slot) (chan : Option Chan) (p : Slot) : Code Unit :=
  if some p = me then pure ()
  else do
    acquire (.proc p)
    let asleep ← sleepsOn p chan
    (if asleep then wake p else pure ())
    release (.proc p)

/-- `wakeup`. -/
def wakeup (me : Option Slot) (chan : Option Chan) : Code Unit :=
  Prog.forEach (wakeupOne me chan) slots

/-- `kill`: what is done to the process found. -/
def killFound (p : Slot) : Code Unit := do
  write p .kill
  let asleep ← stateIs p .sleeping
  (if asleep then wake p else pure ())

/-- The loop of `kill`. -/
def killFrom (pid : Int) : List Slot → Code Int
  | [] => return -1
  | p :: ps => do
      acquire (.proc p)
      if ← pidIs p pid then
        killFound p
        release (.proc p)
        return 0
      else
        release (.proc p)
        killFrom pid ps

/-- `kill`. -/
def kill (pid : Int) : Code Int := killFrom pid slots

/-- `setkilled`. -/
def setkilled (p : Slot) : Code Unit := do
  acquire (.proc p)
  write p .kill
  release (.proc p)

/-- `killed`. -/
def killed (p : Slot) : Code Bool := do
  acquire (.proc p)
  let x ← slot p
  release (.proc p)
  return x.killed

/-- Code outside the repository, which keeps at most one lock of its own. -/
def outside (me : Option Slot) (canSleep : Bool) : Code Unit := do
  let _ ← invoke (.outside me canSleep)

/-! ## Creating processes -/

/-- `allocpid`. -/
def allocpid : Code Int := do
  acquire .pid
  let pid ← takeNextpid
  release .pid
  return pid

/-- `allocproc`, `fork`: a slot is given back. -/
def giveBack (p : Slot) : Code Unit := do
  write p .free
  release (.proc p)

/-- `allocproc` after `found`. -/
def allocFound (p : Slot) : Code (Option Slot) := do
  let pid ← allocpid
  write p (.pid pid)
  write p .used
  let trapframe ← choose
  if trapframe = .fail then
    giveBack p
    return none
  else
    let pagetable ← choose
    if pagetable = .fail then
      giveBack p
      return none
    else
      initProc p
      return some p

/-- The loop of `allocproc`. -/
def allocFrom : List Slot → Code (Option Slot)
  | [] => return none
  | p :: ps => do
      acquire (.proc p)
      if ← stateIs p .unused then
        allocFound p
      else
        release (.proc p)
        allocFrom ps

/-- `allocproc`. -/
def allocproc : Code (Option Slot) := allocFrom slots

/-- `fork` after the memory has been copied. -/
def forkCopied (p np : Slot) : Code Int := do
  let x ← slot np
  release (.proc np)
  acquire .wait
  write np (.parent (some p))
  release .wait
  acquire (.proc np)
  write np .ready
  release (.proc np)
  callInsertProcess np
  return x.pid

/-- `fork`. -/
def fork (p : Slot) : Code Int := do
  match ← allocproc with
  | none => return -1
  | some np =>
      let uvmcopy ← choose
      if uvmcopy = .fail then
        giveBack np
        return -1
      else
        forkCopied p np

/-- `userinit`. -/
def userinit : Code Unit := do
  match ← allocproc with
  | none => panic
  | some p =>
      setInitproc p
      write p .ready
      callInsertProcess p
      release (.proc p)

/-! ## Ending processes -/

/-- The body of the loop of `reparent`. -/
def reparentOne (p pp : Slot) : Code Unit := do
  if (← procParent pp) = some p then
    let s ← shared
    write pp (.parent s.initproc)
    wakeup (some p) (s.initproc.map .proc)
  else
    return

/-- `reparent`. -/
def reparent (p : Slot) : Code Unit := Prog.forEach (reparentOne p) slots

/-- `exit`. -/
def exit {α : Type} (p : Slot) (status : Int) : Code α := do
  let s ← shared
  if s.initproc = some p then
    panic
  else
    outside (some p) true
    acquire .wait
    reparent p
    let parent ← procParent p
    wakeup (some p) (parent.map .proc)
    acquire (.proc p)
    write p (.exit status)
    release .wait
    sched p
    panic

/-- `wait`: a child that has exited. -/
def reap (pp : Slot) (addr : Bool) : Code Int := do
  let x ← slot pp
  -- what copyout hands out is pp->xstate, as it is now
  let copyout ← choose
  if addr ∧ copyout = .fail then
    release (.proc pp)
    release .wait
    return -1
  else
    write pp .free
    release (.proc pp)
    release .wait
    return x.pid

/-- The scan of `wait`: the result of the call, or whether there are children. -/
def waitScan (p : Slot) (addr : Bool) : List Slot → Bool → Code (Int ⊕ Bool)
  | [], havekids => return .inr havekids
  | pp :: ps, havekids => do
      if (← procParent pp) = some p then
        acquire (.proc pp)
        if ← stateIs pp .zombie then
          let r ← reap pp addr
          return .inl r
        else
          release (.proc pp)
          waitScan p addr ps true
      else
        waitScan p addr ps havekids

/-- `!havekids || killed(p)`. -/
def waitPointless (p : Slot) (havekids : Bool) : Code Bool :=
  if havekids then killed p else return true

/-- One round of `wait`. -/
def waitRound (p : Slot) (addr : Bool) : Code Int := do
  match ← waitScan p addr slots false with
  | .inl r => return r
  | .inr havekids =>
      if ← waitPointless p havekids then
        release .wait
        return -1
      else
        sleep p (.proc p) .wait
        invoke (.wait p addr)

/-- `wait`. -/
def wait (p : Slot) (addr : Bool) : Code Int := do
  acquire .wait
  invoke (.wait p addr)

/-! ## Interrupts and system calls -/

/-- `clockintr`. -/
def clockintr (me : Option Slot) : Code Unit := do
  let id ← cpuid
  if id = 0 then
    acquire .ticks
    tick
    wakeup me (some .ticks)
    release .ticks
  else
    return

/-- `kerneltrap`. -/
def kerneltrap (me : Option Slot) : Interrupt → Code Unit
  | .device => outside me false
  | .timer => do
      clockintr me
      match me with
      | some p => yieldCpu p
      | none => return

/-- One round of `sys_sleep`, with `tickslock` held. -/
def sysSleepRound (p : Slot) (n : Int) (ticks0 : Nat) : Code Int := do
  let s ← shared
  if ((s.ticks : Int) - ticks0) % 2 ^ 32 < n then
    if ← killed p then
      release .ticks
      return -1
    else
      sleep p .ticks .ticks
      invoke (.sysSleep p n ticks0)
  else
    release .ticks
    return 0

/-- `sys_sleep`. -/
def sysSleep (p : Slot) (n : Int) : Code Int := do
  let n := if n < 0 then 0 else n
  acquire .ticks
  let s ← shared
  invoke (.sysSleep p n s.ticks)

/-- `sys_uptime`. -/
def sysUptime : Code Int := do
  acquire .ticks
  let s ← shared
  release .ticks
  return s.ticks

/-- `sys_setnice`. -/
def sysSetnice : Code Int := return 0

/-- `syscall`. -/
def syscall (p : Slot) : Syscall → Code Int
  | .fork => fork p
  | .exit status => exit p status
  | .wait addr => wait p addr
  | .kill pid => kill pid
  | .sleep n => sysSleep p n
  | .uptime => sysUptime
  | .setnice => sysSetnice
  | .other => invoke (.outside (some p) true)

/-- `if(killed(p)) exit(-1)`. -/
def exitIfKilled (p : Slot) : Code Unit := do
  if ← killed p then
    exit p (-1)
  else
    return

/-- The first part of `usertrap`: what the trap is about. -/
def handleTrap (p : Slot) : Trap → Code Unit
  | .syscall call => do
      exitIfKilled p
      setIntr true
      let _ ← syscall p call
  | .device => outside (some p) false
  | .timer => clockintr (some p)
  | .fault => setkilled p

/-- `usertrap`: the charge. -/
def chargeRuntime (p : Slot) : Code Unit := do
  let r ← runtime p
  write p (.runtime (int32 (r + 1)))

/-- `usertrap`: the running process is charged and may be preempted. -/
def chargeAndYield (p : Slot) : Code Unit := do
  if ← stateIs p .running then
    chargeRuntime p
    yieldCpu p
  else
    return

/-- `usertrap`. -/
def usertrap (p : Slot) (trap : Trap) : Code Unit := do
  handleTrap p trap
  exitIfKilled p
  chargeAndYield p
  (if trap = .timer then yieldCpu p else pure ())
  -- usertrapret
  setIntr false

/-- `forkret`: `fsinit`, the first time. -/
def fsinit (p : Slot) : Code Unit := do
  let s ← shared
  if s.first then
    outside (some p) true
    firstDone
  else
    return

/-- `forkret`. -/
def forkret (p : Slot) : Code Int := do
  release (.proc p)
  fsinit p
  -- usertrapret
  setIntr false
  invoke (.user p)

/-! ## The scheduler -/

/-- `scheduler`: a retrieved process is run if it is still runnable. -/
def serve (p : Slot) (found : Bool) : Code Bool := do
  if ← stateIs p .runnable then
    -- startTick
    acquire .ticks
    release .ticks
    dispatchTo p
    -- endTick
    acquire .ticks
    release .ticks
    return true
  else
    return found

/-! ## The procedures -/

/-- What code outside the repository does next. -/
def outsideStep (me : Option Slot) (canSleep : Bool) : Choice → Code Int
  | .acquire n => do
      acquire (.other n)
      invoke (.outsideHolding me canSleep n)
  | .wakeup chan => do
      wakeup me (some (.other chan))
      invoke (.outside me canSleep)
  | _ => return 0

/-- The same while it holds a lock of its own: only a process can sleep, or ask if it is killed. -/
def outsideHoldingStep (me : Option Slot) (canSleep : Bool) (n : Nat) : Choice → Code Int
  | .wakeup chan => do
      wakeup me (some (.other chan))
      invoke (.outsideHolding me canSleep n)
  | .sleep chan =>
      match me, canSleep with
      | some p, true => do
          sleep p (.other chan) (.other n)
          invoke (.outsideHolding me canSleep n)
      | _, _ => invoke (.outsideHolding me canSleep n)
  | .killed =>
      match me, canSleep with
      | some p, true => do
          let _ ← killed p
          invoke (.outsideHolding me canSleep n)
      | _, _ => invoke (.outsideHolding me canSleep n)
  | _ => do
      release (.other n)
      invoke (.outside me canSleep)

/-- The bodies of the procedures. -/
def Routine.body : Routine → Code Int
  | .wait p addr => waitRound p addr
  | .sysSleep p n ticks0 => sysSleepRound p n ticks0
  | .outside me canSleep => do
      let c ← choose
      outsideStep me canSleep c
  | .outsideHolding me canSleep n => do
      let c ← choose
      outsideHoldingStep me canSleep n c
  | .scheduler => do
      setIntr true
      let p ← callRetrieveProcess
      invoke (.serving p false)
  | .serving none found => do
      (if found then pure () else setIntr true)
      invoke .scheduler
  | .serving (some p) found => do
      acquire (.proc p)
      let found ← serve p found
      release (.proc p)
      let q ← callRetrieveProcess
      invoke (.serving q found)
  | .user p => do
      let trap ← userMode
      usertrap p trap
      invoke (.user p)

end Xv6Cfs
