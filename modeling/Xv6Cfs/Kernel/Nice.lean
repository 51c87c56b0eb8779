import Xv6Cfs.Kernel.RunQueue

/-!
# Niceness

The way from the system call to the nice value of a process: the table of
`syscall.c`, and the handler in `sysproc.c` that it names. The handler that would
set the nice value, `sys_setNice`, is in no table and is left out.
-/

namespace Xv6Cfs

/-- The handlers `syscall.c` declares. -/
inductive Handler where
  | sysFork | sysExit | sysWait | sysPipe | sysRead | sysKill | sysExec | sysFstat | sysChdir
  | sysDup | sysGetpid | sysSbrk | sysSleep | sysUptime | sysOpen | sysWrite | sysMknod
  | sysUnlink | sysLink | sysMkdir | sysClose | sysSetnice
  deriving DecidableEq, Repr

/-- `SYS_setnice`. -/
def SYS_setnice : Int := 22

/-- The table `syscalls`. -/
def syscalls : Nat → Option Handler
  | 1 => some .sysFork
  | 2 => some .sysExit
  | 3 => some .sysWait
  | 4 => some .sysPipe
  | 5 => some .sysRead
  | 6 => some .sysKill
  | 7 => some .sysExec
  | 8 => some .sysFstat
  | 9 => some .sysChdir
  | 10 => some .sysDup
  | 11 => some .sysGetpid
  | 12 => some .sysSbrk
  | 13 => some .sysSleep
  | 14 => some .sysUptime
  | 15 => some .sysOpen
  | 16 => some .sysWrite
  | 17 => some .sysMknod
  | 18 => some .sysUnlink
  | 19 => some .sysLink
  | 20 => some .sysMkdir
  | 21 => some .sysClose
  | 22 => some .sysSetnice
  | _ => none

/-- In `syscall`: the handler of a number, if it has one. -/
def handlerOf (num : Int) : Option Handler :=
  if num > 0 ∧ num < 23 then syscalls num.toNat else none

/-- `sys_setnice`. -/
def sysSetniceOn (m : Mem) : Mem × Int := (m, 0)

/--
`syscall`, when the caller asks for the number `num`: the memory and what is stored
in `a0`. The handler reads neither the caller nor its argument. Those of the other
calls are not given here.
-/
def syscallNice (m : Mem) (num : Int) : Option (Mem × Int) :=
  match handlerOf num with
  | some .sysSetnice => some (sysSetniceOn m)
  | some _ => none
  | none => some (m, -1)

/-- The weight `README.md` gives for a nice value, the fraction dropped. -/
def readmeWight (niceVal : Int) : Int :=
  truncate (1024 / (5 / 4) ^ (max 0 (min niceVal 30)).toNat)

end Xv6Cfs
