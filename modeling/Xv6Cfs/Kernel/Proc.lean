import Mathlib.Logic.Function.Basic
import Mathlib.Data.Fintype.Basic
import Mathlib.Tactic.Simps.Basic
import Xv6Cfs.RedBlack.Tree

/-!
# The process table and the run queue's record

The data of `proc.h` and of `struct RBTree` in `proc.c`. Processes are slots of
a fixed table, a `struct proc *` is an optional slot, and the tree is intrusive:
its links live in the slots themselves.

The page tables, trapframes, open files and names of a process are left out:
none of the scheduling code reads them.
-/

namespace Xv6Cfs

/-- The size of the process table, as `param.h` sets it. -/
def NPROC : Nat := 64

instance : NeZero NPROC := ⟨by decide⟩

/-- An entry of the process table: the address of a `struct proc`. -/
abbrev Slot := Fin NPROC

/-- The target latency of the scheduler. -/
def latency : Int := NPROC / 2

/-- The least time a process runs before it may be preempted. -/
def minGranularity : Int := 2

theorem latency_eq : latency = 32 := rfl

theorem minGranularity_eq : minGranularity = 2 := rfl

theorem latency_div : latency.tdiv minGranularity = 16 := rfl

/-- `enum procstate`. -/
inductive ProcState where
  | unused
  | used
  | sleeping
  | runnable
  | running
  | zombie
  deriving DecidableEq, Repr, Inhabited

/-- What a process can sleep on: a slot, the tick counter, or an address of some driver. -/
inductive Chan where
  | proc (p : Slot)
  | ticks
  | other (n : Nat)
  deriving DecidableEq, Repr

/-- `struct proc`. -/
structure Proc where
  state : ProcState
  chan : Option Chan
  killed : Bool
  xstate : Int
  pid : Int
  parent : Option Slot
  virtualRuntime : Int
  currentRuntime : Int
  maxExecutionTime : Int
  niceVal : Int
  weightVal : Int
  color : RedBlack.Color
  left : Option Slot
  right : Option Slot
  pParent : Option Slot
  deriving DecidableEq, Repr

/-- A slot of the zeroed process table. -/
def Proc.zero : Proc where
  state := .unused
  chan := none
  killed := false
  xstate := 0
  pid := 0
  parent := none
  virtualRuntime := 0
  currentRuntime := 0
  maxExecutionTime := 0
  niceVal := 0
  weightVal := 0
  color := .red
  left := none
  right := none
  pParent := none

/-- `struct RBTree`. -/
structure RBTree where
  count : Int
  treeWeight : Int
  root : Option Slot
  minvRuntime : Option Slot
  locked : Bool
  period : Int
  deriving DecidableEq, Repr

/-- The process table together with the tree threaded through it. -/
structure Mem where
  proc : Slot → Proc
  tree : RBTree

/-- What can go wrong in a piece of kernel code. -/
inductive Fault where
  /-- A null pointer was dereferenced. -/
  | nullDeref
  /-- A loop or a recursion had not ended when the fuel ran out. -/
  | outOfFuel
  /-- A lock was acquired that its holder can no longer release. -/
  | deadlock
  /-- A division by zero. -/
  | divByZero
  deriving DecidableEq, Repr

/-- The value of an `int` after a computation whose exact result is `x`. -/
def int32 (x : Int) : Int := Int.bmod x (2 ^ 32)

/-- `x` is a value of type `int`. -/
def IsInt32 (x : Int) : Prop := -(2 ^ 31) ≤ x ∧ x < 2 ^ 31

instance (x : Int) : Decidable (IsInt32 x) := inferInstanceAs (Decidable (_ ∧ _))

theorem int32_of_isInt32 {x : Int} (h : IsInt32 x) : int32 x = x := by
  obtain ⟨h1, h2⟩ := h
  unfold int32
  rw [Int.bmod_eq_of_le_mul_two] <;> omega

/-- Two slots agree on their colour and links. -/
structure SameLinks (x y : Proc) : Prop where
  color : x.color = y.color
  left : x.left = y.left
  right : x.right = y.right
  pParent : x.pParent = y.pParent

/-- Two slots agree on everything the queue depends on. -/
structure SameQueued (x y : Proc) : Prop where
  links : SameLinks x y
  virtualRuntime : x.virtualRuntime = y.virtualRuntime
  weightVal : x.weightVal = y.weightVal
  state : x.state = y.state

theorem SameQueued.refl (x : Proc) : SameQueued x x := ⟨⟨rfl, rfl, rfl, rfl⟩, rfl, rfl, rfl⟩

/-! ## Writing to the process table -/

@[simps] def Proc.setColor (x : Proc) (c : RedBlack.Color) : Proc := { x with color := c }
@[simps] def Proc.setLeft (x : Proc) (q : Option Slot) : Proc := { x with left := q }
@[simps] def Proc.setRight (x : Proc) (q : Option Slot) : Proc := { x with right := q }
@[simps] def Proc.setPParent (x : Proc) (q : Option Slot) : Proc := { x with pParent := q }

@[simps] def Proc.setState (x : Proc) (st : ProcState) : Proc := { x with state := st }
@[simps] def Proc.setCurrentRuntime (x : Proc) (d : Int) : Proc := { x with currentRuntime := d }
@[simps] def Proc.setWeightVal (x : Proc) (w : Int) : Proc := { x with weightVal := w }
@[simps] def Proc.setMaxExecutionTime (x : Proc) (d : Int) : Proc :=
  { x with maxExecutionTime := d }

@[simps] def RBTree.setCount (t : RBTree) (n : Int) : RBTree := { t with count := n }
@[simps] def RBTree.setTreeWeight (t : RBTree) (w : Int) : RBTree := { t with treeWeight := w }
@[simps] def RBTree.setRoot (t : RBTree) (q : Option Slot) : RBTree := { t with root := q }
@[simps] def RBTree.setMin (t : RBTree) (q : Option Slot) : RBTree := { t with minvRuntime := q }
@[simps] def RBTree.setLocked (t : RBTree) (b : Bool) : RBTree := { t with locked := b }
@[simps] def RBTree.setPeriod (t : RBTree) (d : Int) : RBTree := { t with period := d }

/-- Change one slot. -/
def Mem.modify (m : Mem) (p : Slot) (f : Proc → Proc) : Mem :=
  { m with proc := Function.update m.proc p (f (m.proc p)) }

/-- Follow a pointer. -/
def deref : Option Slot → Except Fault Slot
  | some p => .ok p
  | none => .error .nullDeref

@[simp] theorem pure_eq_ok {α : Type} (x : α) : (pure x : Except Fault α) = .ok x := rfl

@[simp] theorem ok_bind {α β : Type} (x : α) (f : α → Except Fault β) :
    (Except.ok x >>= f) = f x := rfl

@[simp] theorem error_bind {α β : Type} (e : Fault) (f : α → Except Fault β) :
    (Except.error e >>= f) = .error e := rfl

@[simp] theorem deref_some (p : Slot) : deref (some p) = .ok p := rfl

namespace Mem

def setColor (m : Mem) (p : Slot) (c : RedBlack.Color) : Mem :=
  m.modify p (Proc.setColor · c)

def setLeft (m : Mem) (p : Slot) (q : Option Slot) : Mem :=
  m.modify p (Proc.setLeft · q)

def setRight (m : Mem) (p : Slot) (q : Option Slot) : Mem :=
  m.modify p (Proc.setRight · q)

def setPParent (m : Mem) (p : Slot) (q : Option Slot) : Mem :=
  m.modify p (Proc.setPParent · q)

def setWeightVal (m : Mem) (p : Slot) (w : Int) : Mem :=
  m.modify p (Proc.setWeightVal · w)

def setMaxExecutionTime (m : Mem) (p : Slot) (d : Int) : Mem :=
  m.modify p (Proc.setMaxExecutionTime · d)

@[simps] def setCount (m : Mem) (n : Int) : Mem := { m with tree := m.tree.setCount n }
@[simps] def setTreeWeight (m : Mem) (w : Int) : Mem := { m with tree := m.tree.setTreeWeight w }
@[simps] def setRoot (m : Mem) (q : Option Slot) : Mem := { m with tree := m.tree.setRoot q }
@[simps] def setMin (m : Mem) (q : Option Slot) : Mem := { m with tree := m.tree.setMin q }
@[simps] def setLocked (m : Mem) (b : Bool) : Mem := { m with tree := m.tree.setLocked b }
@[simps] def setPeriod (m : Mem) (d : Int) : Mem := { m with tree := m.tree.setPeriod d }

@[simp] theorem modify_self (m : Mem) (p : Slot) (f : Proc → Proc) :
    (m.modify p f).proc p = f (m.proc p) := by
  simp [modify]

theorem modify_ne (m : Mem) {p q : Slot} (f : Proc → Proc) (h : q ≠ p) :
    (m.modify p f).proc q = m.proc q := by
  simp [modify, h]

theorem modify_proc (m : Mem) (p q : Slot) (f : Proc → Proc) :
    (m.modify p f).proc q = if q = p then f (m.proc p) else m.proc q := by
  simp [modify, Function.update_apply]

@[simp] theorem modify_tree (m : Mem) (p : Slot) (f : Proc → Proc) :
    (m.modify p f).tree = m.tree := rfl

@[simp] theorem setColor_left (m : Mem) (p q : Slot) (c : RedBlack.Color) :
    ((m.setColor p c).proc q).left = (m.proc q).left := by
  rw [setColor, modify_proc]
  split <;> simp_all

@[simp] theorem setColor_right (m : Mem) (p q : Slot) (c : RedBlack.Color) :
    ((m.setColor p c).proc q).right = (m.proc q).right := by
  rw [setColor, modify_proc]
  split <;> simp_all

theorem setLocked_setLocked_self {m : Mem} {b b' : Bool} (h : m.tree.locked = b) :
    (m.setLocked b').setLocked b = m := by
  subst h; rfl

theorem setMin_self {m : Mem} {q : Option Slot} (h : m.tree.minvRuntime = q) :
    m.setMin q = m := by
  subst h; rfl

end Mem

end Xv6Cfs
