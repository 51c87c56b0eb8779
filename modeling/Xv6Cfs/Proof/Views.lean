import Xv6Cfs.Kernel.Code
import Xv6Cfs.Threads.Rules

/-!
# What a kernel thread may rely on

The view of a thread: its locks, the processes it is responsible for, and what it
has seen under a lock. The rules say which instructions keep the protocol of the
locks and of the states, and how they change the view.

There is one exception to the order of the locks, and the rules name it: a
scheduler takes `tickslock` while it holds a `p->lock`.
-/

namespace Xv6Cfs

open Threads

/-- The order in which locks are taken. The lowest are those that `sleep` is called with. -/
def Lock.rank : Lock → Nat
  | .other _ => 1
  | .wait => 1
  | .ticks => 1
  | .proc _ => 2
  | .pid => 3
  | .tree => 3

/-- How far a process is made. -/
inductive Stage where
  /-- `USED`. -/
  | allocated
  /-- Its fields are set. -/
  | initialised
  /-- It has a parent, or is `initproc`. -/
  | adopted
  deriving DecidableEq

/-- What a thread has learnt, and still owes, under a lock that it may sleep with. -/
@[ext] structure Lore where
  /-- The processes it has found not asleep on a channel, or has woken. -/
  roused : List (Slot × Option Chan)
  /-- The parents it has read or set. -/
  parents : List (Slot × Option Slot)
  /-- The processes it has found not to be zombies. -/
  alive : List Slot
  /-- The processes it has to wake, having given them a child. -/
  owing : List Slot
  deriving DecidableEq

/-- Nothing learnt, nothing owed. -/
def Lore.empty : Lore := ⟨[], [], [], []⟩

namespace Lore

variable (x : Lore)

/-- `p` is not asleep on `chan`. -/
@[simps] def rouse (p : Slot) (chan : Option Chan) : Lore :=
  { x with roused := (p, chan) :: x.roused }

/-- The parent of `p` is `q`. -/
@[simps] def learn (p : Slot) (q : Option Slot) : Lore :=
  { x with parents := (p, q) :: x.parents }

/-- `p` is given the parent `q`, who has to be woken if `owed`. -/
@[simps] def adopt (p : Slot) (q : Option Slot) (owed : Bool) : Lore :=
  { x with
    parents := (p, q) :: x.parents.filter (·.1 ≠ p)
    owing := if owed then q.toList ++ x.owing else x.owing }

/-- Nobody's parent is `p`. -/
def Childless (p : Slot) : Prop := ∀ q, ∃ r, (q, r) ∈ x.parents ∧ r ≠ some p

/-- No child of `p` is a zombie. -/
def NoZombieChild (p : Slot) : Prop :=
  ∀ q, q ∈ x.alive ∨ ∃ r, (q, r) ∈ x.parents ∧ r ≠ some p

/-- The parent of `p` is not asleep in `wait`. -/
def ParentRoused (p : Slot) : Prop :=
  ∃ r, (p, r) ∈ x.parents ∧ ∀ f, r = some f → f ≠ p → (f, some (.proc f)) ∈ x.roused

/-- Nobody who has been given a child is asleep in `wait`. -/
def Paid : Prop := ∀ q ∈ x.owing, (q, some (.proc q)) ∈ x.roused

end Lore

/-- The view of a thread. -/
@[ext] structure View where
  /-- The locks it holds. -/
  held : List Lock
  /-- The processes it is making. -/
  created : List (Slot × Stage)
  /-- The processes it has made `RUNNABLE` and is about to insert. -/
  pending : List Slot
  /-- The process it has woken and not inserted yet. -/
  waking : Option Slot
  /-- The process it has retrieved and is about to run. -/
  retrieved : Option Slot
  /-- The state in which it has seen a process whose lock it holds. -/
  seen : Option (Slot × ProcState)
  /-- The pid it has seen at a process whose lock it holds. -/
  named : Option (Slot × Int)
  /-- The pid it has taken, and the slot it has given it to. -/
  fresh : Option (Int × Option Slot)
  /-- False from when a process has given up `RUNNING` until it is switched to again. -/
  on : Bool
  /-- In `sleep`: the lock that was released, until the process is switched to again. -/
  leaving : Option Lock
  /-- The process that has switched back to the scheduler. -/
  off : Option Slot
  /-- In `clockintr`: the processes whose lock it has taken since `ticks++`. -/
  scan : Option (List Slot)
  lore : Lore
  /-- The first half of a charge has been done, and has read this. -/
  reading : Option Int
  /-- It came from user mode and has not been charged for this yet. -/
  due : Bool
  /-- It has been charged since it last called `checkPreemption`. -/
  charged : Bool
  /-- It is to call `userinit`, and has not set `initproc` yet. -/
  starting : Bool
  /-- What `initproc` is, for the thread of a process. -/
  root : Slot
  /-- No process is asked to kill the pid 0. -/
  nozero : Bool
  deriving DecidableEq

namespace View

variable (me : Option Slot) (v : View)

/-- It holds a lock that it may sleep with. -/
def Guarded : Prop := ∃ l ∈ v.held, l.rank < 2

instance : Decidable v.Guarded := inferInstanceAs (Decidable (∃ l ∈ v.held, l.rank < 2))

/-- It is about to sleep: a running process that holds its own lock. -/
def Leaving : Prop := v.on = true ∧ ∃ p, me = some p ∧ .proc p ∈ v.held

instance : Decidable (Leaving me v) := inferInstanceAs (Decidable (_ ∧ _))

/-- The view after taking a lock. -/
def take (v : View) : Lock → View
  | .proc p => { v with held := .proc p :: v.held, scan := v.scan.map (p :: ·) }
  | .pid => { v with held := .pid :: v.held }
  | .tree => { v with held := .tree :: v.held }
  | l => { v with held := l :: v.held, lore := .empty }

/-- The view after releasing a lock. -/
def drop (v : View) : Lock → View
  | .proc p =>
      { v with
        held := v.held.erase (.proc p), seen := none, named := none, leaving := none, off := none }
  | .pid => { v with held := v.held.erase .pid }
  | .tree => { v with held := v.held.erase .tree }
  | l =>
      { v with
        held := v.held.erase l, lore := .empty
        leaving := if Leaving me v then some l else v.leaving
        scan := if l = .ticks then none else v.scan }

end View

/-- Taking `l` keeps the order of the locks, or is the exception. -/
def Ordered (me : Option Slot) (v : View) (l : Lock) : Prop :=
  (∀ h ∈ v.held, h.rank < l.rank) ∨
    (me = none ∧ l = .ticks ∧ ∃ p, v.held = [.proc p] ∧
      (v.seen = some (p, .runnable) ∨ v.off = some p))

/-- With `tickslock`, a thread takes its own lock, or those of the others once each. -/
def Unscanned (me : Option Slot) (v : View) (l : Lock) : Prop :=
  ∀ p, l = .proc p → .ticks ∈ v.held → me = some p ∨ ∃ ps, v.scan = some ps ∧ p ∉ ps

/-- `wait_lock` may be released: those who were given a child are awake, and who waits has none. -/
def Reconciled (me : Option Slot) (v : View) : Prop :=
  v.lore.Paid ∧ ∀ p, me = some p → .proc p ∈ v.held → v.on = true → v.lore.NoZombieChild p

/-- A lock may be released. -/
structure Releasable (me : Option Slot) (v : View) (l : Lock) : Prop where
  held : l ∈ v.held
  on : ∀ p, l = .proc p → me = some p → v.on = true
  seen : ∀ p, v.seen ≠ some (p, .sleeping)
  waking : v.waking = none
  fresh : l ≠ .pid → v.fresh = none
  wait : l = .wait → Reconciled me v

/-- The thread may make these assignments. -/
def writePre (me : Option Slot) (v : View) (p : Slot) : Write → Prop
  | .fold => .proc p ∈ v.held ∧ v.on = true ∧ v.waking = none ∧
      (v.seen = some (p, .sleeping) ∨ me = some p ∧ v.leaving = none)
  | .sleep chan => .proc p ∈ v.held ∧ v.on = true ∧ me = some p ∧
      ∃ l, v.leaving = some l ∧ ∀ q, chan = .proc q → q = p ∧ l = .wait
  | .clearChan => .proc p ∈ v.held ∧ v.on = true ∧ me = some p
  | .kill => .proc p ∈ v.held ∧ (v.on = true ∧ me = some p ∨
      v.fresh = none ∧ ∃ n, v.named = some (p, n) ∧ (v.nozero = true → n ≠ 0))
  | .exit _ => (.proc p ∈ v.held ∧ v.on = true ∧ me = some p ∧ v.leaving = none) ∧
      (v.created = [] ∧ v.pending = [] ∧ v.reading = none) ∧
      v.root ≠ p ∧ .wait ∈ v.held ∧ v.lore.Childless p ∧ v.lore.ParentRoused p
  | .pid n => .proc p ∈ v.held ∧ v.seen = some (p, .unused) ∧ v.fresh = some (n, none)
  | .used => (.proc p ∈ v.held ∧ v.on = true ∧ v.seen = some (p, .unused)) ∧
      (∃ n, v.fresh = some (n, some p)) ∧ (me = none → v.starting = true ∧ v.created = [])
  | .ready => .proc p ∈ v.held ∧ (v.on = true ∧ v.waking = none) ∧
      v.created.head? = some (p, .adopted)
  | .free => .proc p ∈ v.held ∧ v.on = true ∧
      (v.seen = some (p, .zombie) ∧ .wait ∈ v.held ∧ me.isSome ∧ (p, me) ∈ v.lore.parents ∨
        v.seen = none ∧ ∃ g, g ≠ .adopted ∧ v.created.head? = some (p, g))
  | .parent q => .wait ∈ v.held ∧ me.isSome ∧
      (q = me ∧ v.created.head? = some (p, .initialised) ∨
        q ≠ me ∧ q = some v.root ∧ (p, me) ∈ v.lore.parents)
  | .runtime d => v.on = true ∧ me = some p ∧ v.due = true ∧
      ∃ r, v.reading = some r ∧ d = int32 (r + 1)

/-- The view after these assignments. -/
def View.write (me : Option Slot) (v : View) (p : Slot) : Write → View
  | .fold => { v with
      pending := p :: v.pending, seen := none
      on := if me = some p then false else v.on
      charged := if me = some p then false else v.charged
      waking := if me = some p then v.waking else some p }
  | .sleep _ => { v with on := false, seen := none }
  | .exit _ => { v with on := false, seen := none, lore := { v.lore with alive := [] } }
  | .pid n => { v with fresh := some (n, some p), named := none }
  | .used => { v with created := (p, .allocated) :: v.created, seen := none, fresh := none }
  | .ready => { v with created := v.created.tail, pending := p :: v.pending, seen := none }
  | .free => { v with
      created := if v.seen = none then v.created.tail else v.created
      seen := none, named := none, lore := { v.lore with parents := [] } }
  | .parent q => { v with
      created := if q = me then (p, .adopted) :: v.created.tail else v.created
      lore := v.lore.adopt p q (decide (q ≠ me)) }
  | .runtime _ => { v with reading := none, due := false, charged := true }
  | .clearChan | .kill => v

/-- The thread may issue the instruction. -/
def instrPre (me : Option Slot) : Instr → View → Prop
  | .acquire l, v => Ordered me v l ∧ Unscanned me v l
  | .release l, v => Releasable me v l
  | .pidIs p _, v => .proc p ∈ v.held
  | .sleepsOn p _, v => .proc p ∈ v.held ∧ me ≠ some p
  | .parentOf _, v => .wait ∈ v.held
  | .checkPreemption p _, v => me = some p ∧ v.on = true
  | .runtime p, v => me = some p ∧ v.on = true ∧ v.reading = none ∧ v.charged = false
  | .write p w, v => writePre me v p w
  | .insert p, v => .tree ∈ v.held ∧ v.pending.head? = some p
  | .retrieve, v => .tree ∈ v.held ∧ me = none ∧ v.retrieved = none
  | .dispatch p, v => me = none ∧ v.held = [.proc p] ∧ v.retrieved = some p ∧ v.waking = none
  | .switch p, v => me = some p ∧ v.held = [.proc p] ∧ v.on = false ∧ v.seen = none ∧
      v.waking = none
  | .init p, v => .proc p ∈ v.held ∧ v.created.head? = some (p, .allocated)
  | .nextpid, v => .pid ∈ v.held ∧ (∃ p, .proc p ∈ v.held) ∧ v.fresh = none
  | .tick, v => .ticks ∈ v.held
  | .initproc p, v => me = none ∧ v.starting = true ∧ v.created.head? = some (p, .initialised)
  | .user, v => me.isSome ∧ v.held = [] ∧ v.created = [] ∧ v.pending = [] ∧ v.reading = none ∧
      v.due = false ∧ v.charged = false ∧ v.on = true
  | .shared, _ | .stateIs _ _, _ | .firstDone, _ | .getIntr, _ | .setIntr _, _
  | .cpuid, _ | .choose, _ | .panic, _ => True

/-- The answer is possible. -/
def instrCan (me : Option Slot) : (i : Instr) → View → Answer i → Prop
  /- A running process is `RUNNING`, a retrieved one is `RUNNABLE`. -/
  | .stateIs p st, v, r => (me = some p → v.on = true → r = decide (st = .running)) ∧
      (v.retrieved = some p → r = decide (st = .runnable))
  | .shared, v, s => me.isSome → s.initproc = some v.root
  | .user, v, t => v.nozero = true → t ≠ .syscall (.kill 0)
  | _, _, _ => True

/-- The view after the instruction. -/
def instrNext (me : Option Slot) : (i : Instr) → View → Answer i → View
  | .acquire l, v, _ => v.take l
  | .release l, v, _ => v.drop me l
  | .stateIs p st, v, r =>
      if .proc p ∈ v.held then
        if r = true then { v with seen := some (p, st) }
        else if st = .zombie ∧ .wait ∈ v.held then
          { v with lore := { v.lore with alive := p :: v.lore.alive } }
        else v
      else v
  | .pidIs p n, v, r => if r = true then { v with named := some (p, n) } else v
  | .sleepsOn p chan, v, r => { v with
      seen := if r = true then some (p, .sleeping) else v.seen
      lore := if v.Guarded then v.lore.rouse p chan else v.lore }
  | .parentOf p, v, r => { v with lore := v.lore.learn p r }
  | .checkPreemption _ _, v, r => { v with charged := v.charged && r }
  | .runtime _, v, r => { v with reading := some r }
  | .write p w, v, _ => v.write me p w
  | .insert _, v, _ => { v with pending := v.pending.tail, waking := none }
  | .retrieve, v, r => { v with retrieved := r }
  | .dispatch p, v, _ => { v with
      retrieved := none, seen := none, named := none, fresh := none, off := some p }
  | .switch _, v, _ => { v with on := true, leaving := none, named := none, fresh := none }
  | .init p, v, _ => { v with created := (p, .initialised) :: v.created.tail }
  | .nextpid, v, r => { v with fresh := some (r, none) }
  | .tick, v, _ => { v with scan := some [] }
  | .initproc p, v, _ => { v with created := (p, .adopted) :: v.created.tail, starting := false }
  | .user, v, _ => { v with due := true }
  | _, v, _ => v

/-- Between two sections: nothing seen, nothing given up, no scan. -/
structure Settled (v : View) : Prop where
  waking : v.waking = none
  seen : v.seen = none
  named : v.named = none
  fresh : v.fresh = none
  on : v.on = true
  leaving : v.leaving = none
  off : v.off = none
  scan : v.scan = none

/-- The same without a lock. -/
structure Free (v : View) : Prop extends Settled v where
  held : v.held = []
  lore : v.lore = .empty

/-- A process in the kernel on its own behalf, between two sections. -/
structure AtLeisure (me : Option Slot) (p : Slot) (v : View) : Prop extends Free v where
  me : me = some p
  created : v.created = []
  pending : v.pending = []
  reading : v.reading = none

/-- The procedure may be called. -/
def routinePre (me : Option Slot) : Routine → View → Prop
  | .wait p _, v => me = some p ∧ v.held = [.wait] ∧ Settled v ∧ v.lore = .empty
  | .sysSleep p _ _, v => me = some p ∧ v.held = [.ticks] ∧ Settled v ∧ v.lore = .empty
  | .outside q _, v => q = me ∧ Free v
  | .outsideHolding q _ n, v => q = me ∧ v.held = [.other n] ∧ Settled v
  | .scheduler, v => me = none ∧ Free v ∧ v.retrieved = none
  | .serving p _, v => me = none ∧ Free v ∧ v.retrieved = p
  | .user p, v => AtLeisure me p v ∧ v.due = false ∧ v.charged = false

/-- The view after the call. -/
def routineNext : Routine → View → View
  | .wait _ _, v | .sysSleep _ _ _, v | .outsideHolding _ _ _, v =>
      { v with held := [], lore := .empty }
  | .serving _ _, v => { v with retrieved := none }
  | _, v => v

/-- The rules for the thread on which `myproc()` returns `me`. -/
def rules (me : Option Slot) : Rules Instr Answer Routine View where
  pre := instrPre me
  can := instrCan me
  next := instrNext me
  callPre := routinePre me
  callNext := routineNext

/-- The view, but the last charge may have been checked. -/
def Eased (v u : View) : Prop := ∃ b, u = { v with charged := b } ∧ (b = true → v.charged = true)

theorem Eased.refl (v : View) : Eased v v := ⟨v.charged, rfl, id⟩

theorem eased_charged (v : View) : Eased v { v with charged := false } := ⟨false, rfl, by simp⟩

theorem rules_monotone (me : Option Slot) : (rules me).Monotone Eased where
  pre := by
    rintro i u _ ⟨b, rfl, hb⟩ h
    have hfalse : u.charged = false → b = false := fun ho => by simpa [ho] using hb
    cases i with
    | release l => exact ⟨h.held, h.on, h.seen, h.waking, h.fresh, h.wait⟩
    | write p w => cases w <;> exact h
    | runtime p => exact ⟨h.1, h.2.1, h.2.2.1, hfalse h.2.2.2⟩
    | user =>
        obtain ⟨h1, h2, h3, h4, h5, h6, h7, h8⟩ := h
        exact ⟨h1, h2, h3, h4, h5, h6, hfalse h7, h8⟩
    | _ => exact h
  can := by
    rintro i u _ r ⟨b, rfl, hb⟩ h
    cases i <;> exact h
  next := by
    rintro i u _ r ⟨b, rfl, hb⟩ -
    cases i with
    | acquire l => cases l <;> exact ⟨b, rfl, hb⟩
    | release l => cases l <;> exact ⟨b, rfl, hb⟩
    | stateIs p st =>
        simp only [rules, instrNext]
        split_ifs <;> exact ⟨b, rfl, hb⟩
    | pidIs p n =>
        simp only [rules, instrNext]
        split_ifs <;> exact ⟨b, rfl, hb⟩
    | checkPreemption p m =>
        refine ⟨b && r, rfl, fun h => ?_⟩
        simp only [Bool.and_eq_true] at h
        simp [rules, instrNext, hb h.1, h.2]
    | write p w =>
        cases w with
        | fold =>
            refine ⟨if me = some p then false else b, rfl, fun h => ?_⟩
            by_cases hme : me = some p
            · simp [hme] at h
            · simp only [hme, if_false] at h
              simp [rules, instrNext, View.write, hme, hb h]
        | runtime d => exact ⟨true, rfl, fun _ => rfl⟩
        | _ => exact ⟨b, rfl, hb⟩
    | _ => exact ⟨b, rfl, hb⟩
  callPre := by
    rintro f u _ ⟨b, rfl, hb⟩ h
    have hset : Settled u → Settled { u with charged := b } := fun hs =>
      ⟨hs.waking, hs.seen, hs.named, hs.fresh, hs.on, hs.leaving, hs.off, hs.scan⟩
    have hfree : Free u → Free { u with charged := b } := fun hf =>
      ⟨hset hf.toSettled, hf.held, hf.lore⟩
    cases f with
    | wait p addr => exact ⟨h.1, h.2.1, hset h.2.2.1, h.2.2.2⟩
    | sysSleep p n t => exact ⟨h.1, h.2.1, hset h.2.2.1, h.2.2.2⟩
    | outside q c => exact ⟨h.1, hfree h.2⟩
    | outsideHolding q c n => exact ⟨h.1, h.2.1, hset h.2.2⟩
    | scheduler => exact ⟨h.1, hfree h.2.1, h.2.2⟩
    | serving q found => exact ⟨h.1, hfree h.2.1, h.2.2⟩
    | user p =>
        obtain ⟨hv, hdue, hcharged⟩ := h
        refine ⟨⟨hfree hv.toFree, hv.me, hv.created, hv.pending, hv.reading⟩, hdue, ?_⟩
        simpa [hcharged] using hb
  callNext := by
    rintro f u _ ⟨b, rfl, hb⟩
    cases f <;> exact ⟨b, rfl, hb⟩

/-- The view of a thread that holds nothing and is responsible for nothing. -/
@[simps] def View.idle (root : Slot) (starting nozero : Bool) : View where
  held := []
  created := []
  pending := []
  waking := none
  retrieved := none
  seen := none
  named := none
  fresh := none
  on := true
  leaving := none
  off := none
  scan := none
  lore := .empty
  reading := none
  due := false
  charged := false
  starting := starting
  root := root
  nozero := nozero

/-- The view of the thread of a new process when it is first switched to. -/
def View.resumed (p root : Slot) (nozero : Bool) : View :=
  { View.idle root false nozero with held := [.proc p] }

end Xv6Cfs
