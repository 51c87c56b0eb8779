import Mathlib.Logic.Relation
import Xv6Cfs.Kernel.Instr
import Xv6Cfs.Kernel.QueueRuns

/-!
# Whole links

What it means that the links in the process slots are in order, and the runs in which
they are: from `procinit` on the slots are allocated, queued, retrieved and used again,
with whatever else leaves the links alone in between. Nothing is asked of the links of
a process that is inserted.
-/

namespace Xv6Cfs

/-- `procinit`. -/
def procinit (m : Mem) : Mem :=
  let m := rbinit m
  { m with proc := fun p => (m.proc p).setState .unused }

/-- `allocproc`, what it assigns to the slot it returns. -/
def Proc.alloc (n : Int) (x : Proc) : Proc := (Write.used.apply ((Write.pid n).apply x)).init

/-- The memories reached from `procinit` on zeroed slots. -/
inductive LinkRun : Mem → Prop where
  | procinit (tree : RBTree) : LinkRun (procinit ⟨fun _ => Proc.zero, tree⟩)
  | allocproc {m : Mem} {p : Slot} (n : Int) :
      LinkRun m → p ∉ queue m → (m.proc p).state = .unused → LinkRun (m.modify p (Proc.alloc n))
  | insertProcess {m m' : Mem} {p : Slot} {w : Int} :
      LinkRun m → p ∉ queue m → (m.proc p).state = .runnable → 0 < w →
      insertProcess (fun _ => .ok w) m p = .ok m' → LinkRun m'
  | retrieveProcess {m m' : Mem} {r : Option Slot} :
      LinkRun m → retrieveProcess m = .ok (m', r) → LinkRun m'
  | others {m m' : Mem} :
      LinkRun m → m'.tree = m.tree → (∀ p, SameLinks (m'.proc p) (m.proc p)) →
      (∀ p ∈ queue m, SameQueued (m'.proc p) (m.proc p)) → LinkRun m'

/-- `q` is the left or the right child of `p`. -/
def Child (m : Mem) (p q : Slot) : Prop := (m.proc p).left = some q ∨ (m.proc p).right = some q

/-- The slot is in the tree: the links lead to it from the root. -/
def Linked (m : Mem) (p : Slot) : Prop :=
  ∃ r, m.tree.root = some r ∧ Relation.ReflTransGen (Child m) r p

/-- **The links make one tree**, with parents for children and children for parents. -/
structure LinkTree (m : Mem) : Prop where
  root : ∀ p, m.tree.root = some p → (m.proc p).pParent = none
  child : ∀ p q, Linked m p → Child m p q → (m.proc q).pParent = some p
  parent : ∀ p, Linked m p → m.tree.root ≠ some p → ∃ q, Linked m q ∧
    (m.proc p).pParent = some q ∧
    ((m.proc q).left = some p ∧ (m.proc q).right ≠ some p ∨
      (m.proc q).left ≠ some p ∧ (m.proc q).right = some p)
  acyclic : ∀ p, Linked m p → ¬Relation.TransGen (Child m) p p
  /-- The walk through the tree meets each of its slots once. -/
  inorder : ∀ p, p ∈ queue m ↔ Linked m p
  nodup : (queue m).Nodup

/-- No link leads on from the slot. -/
structure Bare (x : Proc) : Prop where
  left : x.left = none
  right : x.right = none
  pParent : x.pParent = none

/-- `insertProc` hangs `p` into the tree as a leaf. -/
def AttachesLeaf (m : Mem) (p : Slot) : Prop :=
  ∃ m' root, insertProc loopFuel m m.tree.root p = .ok (m', root) ∧
    LinkTree (m'.setRoot root) ∧ Linked (m'.setRoot root) p ∧
    (m'.proc p).left = none ∧ (m'.proc p).right = none ∧
    ∀ q, Linked (m'.setRoot root) q ↔ q = p ∨ Linked m q

/-- **What holds of the links between two operations.** -/
structure LinkIntegrity (m : Mem) : Prop where
  tree : LinkTree m
  bare : ∀ p, ¬Linked m p → Bare (m.proc p)
  leaf : ∀ p, ¬Linked m p → AttachesLeaf m p

/-- From `m` to `m'` the links were turned around `a` and `b`, and the subtree `mid` between them:
`b` is in the place of `a`, and above it; the slots stand in the same order, and no slot but these
and the parent has changed. -/
structure Turned (m m' : Mem) (a b : Slot) (mid : Option Slot) : Prop where
  tree : LinkTree m'
  high : (m'.proc b).pParent = (m.proc a).pParent
  low : (m'.proc a).pParent = some b
  inorder : queue m' = queue m
  frame : ∀ q, q ≠ a → q ≠ b → mid ≠ some q → (m.proc a).pParent ≠ some q → m'.proc q = m.proc q
  record : { m'.tree with root := none } = { m.tree with root := none }

/-- **What a rotation does**, where the links make a tree. -/
structure Rotations (m : Mem) : Prop where
  rotateLeft : ∀ a b, Linked m a → (m.proc a).right = some b →
    ∃ m', rotateLeft m a = .ok m' ∧ Turned m m' a b (m.proc b).left
  rotateRight : ∀ a b, Linked m a → (m.proc a).left = some b →
    ∃ m', rotateRight m a = .ok m' ∧ Turned m m' a b (m.proc b).right

end Xv6Cfs
