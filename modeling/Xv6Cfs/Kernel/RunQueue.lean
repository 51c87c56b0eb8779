import Xv6Cfs.Kernel.Proc

/-!
# The run queue

The functions of `proc.c` on the red-black tree, statement by statement on the
links of the process table. A loop or a recursion takes a number of steps it may
make; a dereferenced null pointer is a fault.

`insertProcess` takes the function that computes a weight from a nice value as
an argument. The kernel's own is `calculateWight`.
-/

namespace Xv6Cfs

open RedBlack (Color)

/-- The steps granted to every loop below. -/
def loopFuel : Nat := 4 * NPROC

/-- `a / b` on `int`s: the quotient drops the fraction. -/
def divInt (a b : Int) : Except Fault Int :=
  if b = 0 then .error .divByZero else .ok (a.tdiv b)

/-- `rbinit`. -/
def rbinit (m : Mem) : Mem :=
  { m with tree :=
    { count := 0, treeWeight := 0, root := none, minvRuntime := none, locked := false,
      period := latency } }

/-- Conversion of a `double` to an `int` drops the fraction. -/
def truncate (x : Rat) : Int := x.num.tdiv x.den

/-- The loop of `calculateWight`: it never advances its counter. -/
def calculateWightLoop : Nat → Int → Int → Rat → Except Fault Rat
  | 0, _, _, _ => .error .outOfFuel
  | fuel + 1, i, niceVal, denom =>
      if i < niceVal ∧ niceVal > 0 then calculateWightLoop fuel i niceVal (denom * (5 / 4))
      else .ok denom

/-- `calculateWight`, in exact arithmetic. -/
def calculateWight (fuel : Nat) (niceVal : Int) : Except Fault Int := do
  let niceVal := if niceVal > 30 then 30 else if niceVal < 0 then 0 else niceVal
  let denom ← calculateWightLoop fuel 0 niceVal (5 / 4)
  pure (truncate (1024 / denom))

/-- `isEmpty`. -/
def RBTree.isEmpty (t : RBTree) : Bool := t.count == 0

/-- `isFull`. -/
def RBTree.isFull (t : RBTree) : Bool := t.count == NPROC

/-- `getGrandparentProc`. -/
def getGrandparentProc (m : Mem) : Option Slot → Option Slot
  | none => none
  | some p =>
      match (m.proc p).pParent with
      | none => none
      | some q => (m.proc q).pParent

/-- `getUncleProc`. -/
def getUncleProc (m : Mem) (p : Slot) : Option Slot :=
  match getGrandparentProc m (some p) with
  | none => none
  | some g => if (m.proc p).pParent = (m.proc g).left then (m.proc g).right else (m.proc g).left

/-- `rotateLeft`. -/
def rotateLeft (m : Mem) (positionProc : Slot) : Except Fault Mem := do
  let saveRight ← deref (m.proc positionProc).right
  let m := m.setRight positionProc (m.proc saveRight).left
  let m := match (m.proc saveRight).left with
    | some q => m.setPParent q (some positionProc)
    | none => m
  let m := m.setPParent saveRight (m.proc positionProc).pParent
  let m := match (m.proc positionProc).pParent with
    | none => m.setRoot (some saveRight)
    | some q =>
        if (m.proc q).left = some positionProc then m.setLeft q (some saveRight)
        else m.setRight q (some saveRight)
  let m := m.setLeft saveRight (some positionProc)
  pure (m.setPParent positionProc (some saveRight))

/-- `rotateRight`. -/
def rotateRight (m : Mem) (positionProc : Slot) : Except Fault Mem := do
  let saveLeft ← deref (m.proc positionProc).left
  let m := m.setLeft positionProc (m.proc saveLeft).right
  let m := match (m.proc saveLeft).right with
    | some q => m.setPParent q (some positionProc)
    | none => m
  let m := m.setPParent saveLeft (m.proc positionProc).pParent
  let m := match (m.proc positionProc).pParent with
    | none => m.setRoot (some saveLeft)
    | some q =>
        if (m.proc q).right = some positionProc then m.setRight q (some saveLeft)
        else m.setLeft q (some saveLeft)
  let m := m.setRight saveLeft (some positionProc)
  pure (m.setPParent positionProc (some saveLeft))

/-- `setMinimumVRuntimeproc`. -/
def setMinimumVRuntimeproc (m : Mem) : Nat → Option Slot → Except Fault (Option Slot)
  | 0, _ => .error .outOfFuel
  | _ + 1, none => .ok none
  | fuel + 1, some p =>
      match (m.proc p).left with
      | some q => setMinimumVRuntimeproc m fuel (some q)
      | none => .ok (some p)

/-- `insertProc`: returns the new root of the subtree. -/
def insertProc : Nat → Mem → Option Slot → Slot → Except Fault (Mem × Option Slot)
  | 0, _, _, _ => .error .outOfFuel
  | fuel + 1, m, traversing, p =>
      let m := m.setColor p .red
      match traversing with
      | none => .ok (m, some p)
      | some t =>
          if (m.proc t).virtualRuntime ≤ (m.proc p).virtualRuntime then do
            let m := m.setPParent p (some t)
            let (m, r) ← insertProc fuel m (m.proc t).right p
            pure (m.setRight t r, some t)
          else do
            let m := m.setPParent p (some t)
            let (m, l) ← insertProc fuel m (m.proc t).left p
            pure (m.setLeft t l, some t)

/-- `insertionCases`. -/
def insertionCases : Nat → Mem → Slot → Nat → Except Fault Mem
  | 0, _, _, _ => .error .outOfFuel
  | fuel + 1, m, rbProcess, 1 =>
      match (m.proc rbProcess).pParent with
      | none => .ok (m.setColor rbProcess .black)
      | some _ => insertionCases fuel m rbProcess 2
  | fuel + 1, m, rbProcess, 2 => do
      let parent ← deref (m.proc rbProcess).pParent
      if (m.proc parent).color = .red then insertionCases fuel m rbProcess 3
      else pure m
  | fuel + 1, m, rbProcess, 3 =>
      match getUncleProc m rbProcess with
      | some uncle =>
          if (m.proc uncle).color = .red then do
            let parent ← deref (m.proc rbProcess).pParent
            let m := m.setColor parent .black
            let m := m.setColor uncle .black
            let grandparent ← deref (getGrandparentProc m (some rbProcess))
            let m := m.setColor grandparent .red
            insertionCases fuel m grandparent 1
          else insertionCases fuel m rbProcess 4
      | none => insertionCases fuel m rbProcess 4
  | fuel + 1, m, rbProcess, 4 => do
      let parent ← deref (m.proc rbProcess).pParent
      let grandparent ← deref (getGrandparentProc m (some rbProcess))
      if some rbProcess = (m.proc parent).right ∧ some parent = (m.proc grandparent).left then
        let m ← rotateLeft m parent
        let rbProcess ← deref (m.proc rbProcess).left
        insertionCases fuel m rbProcess 5
      else if some rbProcess = (m.proc parent).left ∧ some parent = (m.proc grandparent).right then
        let m ← rotateRight m parent
        let rbProcess ← deref (m.proc rbProcess).right
        insertionCases fuel m rbProcess 5
      else insertionCases fuel m rbProcess 5
  | _ + 1, m, rbProcess, 5 =>
      match getGrandparentProc m (some rbProcess) with
      | none => .ok m
      | some grandparent => do
          let m := m.setColor grandparent .red
          let parent ← deref (m.proc rbProcess).pParent
          let m := m.setColor parent .black
          if some rbProcess = (m.proc parent).left ∧ some parent = (m.proc grandparent).left then
            rotateRight m grandparent
          else if some rbProcess = (m.proc parent).right
              ∧ some parent = (m.proc grandparent).right then
            rotateLeft m grandparent
          else pure m
  | _ + 1, m, _, _ => .ok m

/-- `acquire(&tree->lock)`. -/
def acquireTree (m : Mem) : Except Fault Mem :=
  if m.tree.locked then .error .deadlock else .ok (m.setLocked true)

/-- `release(&tree->lock)`. -/
def releaseTree (m : Mem) : Mem := m.setLocked false

/-- In `insertProcess`: the first root has no parent. -/
def clearRootParent (m : Mem) : Except Fault Mem :=
  if m.tree.count = 0 then do
    let root ← deref m.tree.root
    pure (m.setPParent root none)
  else pure m

/-- In `insertProcess`: there is no minimum, or one with a left child. -/
def minimumStale (m : Mem) : Bool :=
  match m.tree.minvRuntime with
  | none => true
  | some q => (m.proc q).left.isSome

/-- In `insertProcess`: such a minimum is searched for. -/
def updateMinimum (m : Mem) : Except Fault Mem :=
  if minimumStale m then do
    let q ← setMinimumVRuntimeproc m loopFuel m.tree.root
    pure (m.setMin q)
  else pure m

/-- The body of `insertProcess` up to `insertionCases`, when the tree is not full. -/
def insertRepaired (wight : Int → Except Fault Int) (m : Mem) (p : Slot) : Except Fault Mem := do
  let (m, root) ← insertProc loopFuel m m.tree.root p
  let m := m.setRoot root
  let m ← clearRootParent m
  let m := m.setCount (m.tree.count + 1)
  let w ← wight (m.proc p).niceVal
  let m := m.setWeightVal p w
  let m := m.setTreeWeight (m.tree.treeWeight + (m.proc p).weightVal)
  insertionCases loopFuel m p 1

/-- The body of `insertProcess`, between `acquire` and `release`. -/
def insertProcessLocked (wight : Int → Except Fault Int) (m : Mem) (p : Slot) :
    Except Fault Mem :=
  if m.tree.isFull then .ok m
  else do
    let m ← insertRepaired wight m p
    updateMinimum m

/-- `insertProcess`. -/
def insertProcess (wight : Int → Except Fault Int) (m : Mem) (p : Slot) : Except Fault Mem := do
  let m ← acquireTree m
  let m ← insertProcessLocked wight m p
  pure (releaseTree m)

/-- `q == 0 || q->color == BLACK`. -/
def isBlack (m : Mem) : Option Slot → Bool
  | none => true
  | some q => (m.proc q).color = .black

/-- `if (q != 0) q->color = BLACK`. -/
def paintBlack (m : Mem) : Option Slot → Mem
  | none => m
  | some q => m.setColor q .black

/-- In case 2 of `retrievingCases`: a red sibling is rotated above the parent. -/
def raiseSibling (m : Mem) (parent : Slot) : Except Fault Mem :=
  match (m.proc parent).right with
  | some sibling =>
      if (m.proc sibling).color = .red then
        let m := m.setColor sibling .black
        let m := m.setColor parent .red
        rotateLeft m parent
      else .ok m
  | none => .ok m

/--
In case 2 of `retrievingCases`: below a sibling without a red right child, the left
child is rotated to the outside and is the sibling from then on.
-/
def turnSibling (m : Mem) (parent sibling : Slot) : Except Fault (Mem × Slot) :=
  if isBlack m (m.proc sibling).right then do
    let m := paintBlack m (m.proc sibling).left
    let m := m.setColor sibling .red
    let m ← rotateRight m sibling
    let sibling ← deref (m.proc parent).right
    pure (m, sibling)
  else .ok (m, sibling)

/--
In case 2 of `retrievingCases`, with a black sibling: the sibling is painted red
and the loop goes on with the parent, or the rotations end it at the root. Returns
the next `parentProc` and the next `process`.
-/
def settleSibling (m : Mem) (parent : Slot) : Except Fault (Mem × Option Slot × Option Slot) := do
  let sibling ← deref (m.proc parent).right
  if isBlack m (m.proc sibling).left ∧ isBlack m (m.proc sibling).right then
    let m := m.setColor sibling .red
    pure (m, (m.proc parent).pParent, some parent)
  else do
    let (m, sibling) ← turnSibling m parent sibling
    let m := m.setColor sibling (m.proc parent).color
    let m := m.setColor parent .black
    let nephew ← deref (m.proc sibling).right
    let m := m.setColor nephew .black
    let m ← rotateLeft m parent
    pure (m, some parent, m.tree.root)

/-- The loop of case 2 of `retrievingCases`. -/
def retrievingLoop : Nat → Mem → Option Slot → Option Slot → Except Fault Mem
  | 0, _, _, _ => .error .outOfFuel
  | fuel + 1, m, parentProc, process =>
      if process ≠ m.tree.root ∧ isBlack m process then do
        let parent ← deref parentProc
        if process = (m.proc parent).left then do
          let m ← raiseSibling m parent
          let (m, parentProc, process) ← settleSibling m parent
          retrievingLoop fuel m parentProc process
        -- the body of the source's loop does nothing here
        else retrievingLoop fuel m parentProc process
      else .ok (paintBlack m process)

/-- Case 1 of `retrievingCases` up to the cleaning: the right child takes the place of `process`. -/
def replaceByChild (fuel : Nat) (m : Mem) (parentProc : Option Slot) (process : Slot) :
    Except Fault Mem :=
  let child := (m.proc process).right
  if some process = m.tree.root then
    let m := m.setRoot child
    match child with
    | some q => .ok ((m.setPParent q none).setColor q .black)
    | none => .ok m
  else match child with
    | some q =>
        if (m.proc process).color ≠ (m.proc q).color then do
          let m := m.setPParent q parentProc
          let parent ← deref parentProc
          let m := m.setLeft parent child
          pure (m.setColor q .black)
        else if (m.proc process).color = .red then do
          let parent ← deref parentProc
          pure (m.setLeft parent child)
        else do
          let m := m.setPParent q parentProc
          let parent ← deref parentProc
          retrievingLoop fuel (m.setLeft parent child) parentProc child
    | none => do
        let parent ← deref parentProc
        let m' := m.setLeft parent child
        if (m.proc process).color = .red then pure m'
        else retrievingLoop fuel m' parentProc child

/-- `retrievingCases` with `cases` 1, which hands over to the loop of case 2. -/
def retrievingCases (fuel : Nat) (m : Mem) (parentProc : Option Slot) (process : Slot) :
    Except Fault Mem := do
  let m ← replaceByChild fuel m parentProc process
  pure (((m.setPParent process none).setLeft process none).setRight process none)

/-- In `retrieveProcess`: the period grows with a long queue. -/
def updatePeriod (m : Mem) : Mem :=
  if m.tree.count > latency.tdiv minGranularity then m.setPeriod (m.tree.count * minGranularity)
  else m

/-- The body of `retrieveProcess`, between `acquire` and `release`. -/
def retrieveProcessLocked (m : Mem) : Except Fault (Mem × Option Slot) :=
  if m.tree.isEmpty then .ok (m, none)
  else do
    let m := updatePeriod m
    let found ← deref m.tree.minvRuntime
    if (m.proc found).state ≠ .runnable then pure (m, none)
    else do
      let m ← retrievingCases loopFuel m (m.proc found).pParent found
      let m := m.setCount (m.tree.count - 1)
      let q ← setMinimumVRuntimeproc m loopFuel m.tree.root
      let m := m.setMin q
      -- of weights up to 1024 the product is an int
      let slice ← divInt (m.tree.period * (m.proc found).weightVal) m.tree.treeWeight
      let m := m.setMaxExecutionTime found slice
      let m := m.setTreeWeight (m.tree.treeWeight - (m.proc found).weightVal)
      pure (m, some found)

/-- `retrieveProcess`. -/
def retrieveProcess (m : Mem) : Except Fault (Mem × Option Slot) := do
  let m ← acquireTree m
  let (m, found) ← retrieveProcessLocked m
  pure (releaseTree m, found)

/-- `checkPreemption`. -/
def checkPreemption (m : Mem) (current : Slot) (minvRuntime : Option Slot) : Bool :=
  let procRuntime := (m.proc current).currentRuntime
  if procRuntime ≥ (m.proc current).maxExecutionTime ∧ procRuntime ≥ minGranularity then true
  else match minvRuntime with
    | none => false
    | some q =>
        if (m.proc q).state = .runnable ∧
            (m.proc current).virtualRuntime > (m.proc q).virtualRuntime then
          if procRuntime ≠ 0 ∧ procRuntime ≥ minGranularity then true
          else procRuntime == 0
        else false

/-- The three assignments by which `yield`, `wakeup` and `kill` make a process runnable. -/
@[simps] def Proc.fold (x : Proc) : Proc :=
  { x with
    state := .runnable
    virtualRuntime := int32 (x.virtualRuntime + x.currentRuntime)
    currentRuntime := 0 }

/-- A process is made runnable, and its current run folded into its key. -/
def foldRuntime (m : Mem) (p : Slot) : Mem := m.modify p Proc.fold

end Xv6Cfs
