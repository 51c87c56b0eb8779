import Xv6Cfs.Kernel.RunQueue
import Xv6Cfs.Queue.Stable

/-!
# Runs of the run queue

Any sequence of `insertProcess` and `retrieveProcess` calls from `rbinit` on, with
anything else happening to the process table in between, as long as it leaves
alone what a queued process is sorted and weighed by. The calls and their answers
are recorded.
-/

namespace Xv6Cfs

open StableQueue

/-- The slots below a link, from left to right. -/
def inorder (m : Mem) : Nat → Option Slot → List Slot
  | 0, _ => []
  | _ + 1, none => []
  | fuel + 1, some p => inorder m fuel (m.proc p).left ++ p :: inorder m fuel (m.proc p).right

/-- The queued processes, as the links show them. -/
def queue (m : Mem) : List Slot := inorder m loopFuel m.tree.root

/-- What a caller of `insertProcess` promises: a runnable process, not queued, without children. -/
structure Insertable (m : Mem) (queued : List Slot) (p : Slot) : Prop where
  notQueued : p ∉ queued
  runnable : (m.proc p).state = .runnable
  left : (m.proc p).left = none
  right : (m.proc p).right = none

/-- The memories reached from `rbinit`, with the calls made on the way. -/
inductive QueueRun : Mem → List (Call Int Slot) → Prop where
  | init (m : Mem) : QueueRun (rbinit m) []
  | insert {m m' : Mem} {calls : List (Call Int Slot)} {p : Slot} {w : Int} :
      QueueRun m calls → Insertable m (pending calls) p → 0 < w →
      insertProcess (fun _ => .ok w) m p = .ok m' →
      QueueRun m' (calls ++ [.insert (m.proc p).virtualRuntime p])
  | retrieve {m m' : Mem} {calls : List (Call Int Slot)} {r : Option Slot} :
      QueueRun m calls → retrieveProcess m = .ok (m', r) →
      QueueRun m' (calls ++ [.retrieve r])
  | others {m m' : Mem} {calls : List (Call Int Slot)} :
      QueueRun m calls → m'.tree = m.tree →
      (∀ p ∈ pending calls, SameQueued (m'.proc p) (m.proc p)) → QueueRun m' calls

/-- The two calls. -/
inductive Request where
  | insert (p : Slot) (w : Int)
  | retrieve
  deriving DecidableEq, Repr

instance (m : Mem) (queued : List Slot) (p : Slot) : Decidable (Insertable m queued p) :=
  decidable_of_iff (p ∉ queued ∧ (m.proc p).state = .runnable ∧ (m.proc p).left = none ∧
    (m.proc p).right = none) ⟨fun ⟨h1, h2, h3, h4⟩ => ⟨h1, h2, h3, h4⟩,
      fun ⟨h1, h2, h3, h4⟩ => ⟨h1, h2, h3, h4⟩⟩

/-- Make one call, if it is allowed. -/
def perform (s : Mem × List (Call Int Slot)) : Request → Option (Mem × List (Call Int Slot))
  | .insert p w =>
      if Insertable s.1 (pending s.2) p ∧ 0 < w then
        match insertProcess (fun _ => .ok w) s.1 p with
        | .ok m' => some (m', s.2 ++ [.insert (s.1.proc p).virtualRuntime p])
        | .error _ => none
      else none
  | .retrieve =>
      match retrieveProcess s.1 with
      | .ok (m', r) => some (m', s.2 ++ [.retrieve r])
      | .error _ => none

/-- What a sequence of calls performs is a run. -/
theorem queueRun_perform {s s' : Mem × List (Call Int Slot)} {reqs : List Request}
    (h : QueueRun s.1 s.2) (hs : reqs.foldlM perform s = some s') : QueueRun s'.1 s'.2 := by
  induction reqs generalizing s with
  | nil =>
      obtain rfl : s = s' := by simpa using hs
      exact h
  | cons req reqs ih =>
      rw [List.foldlM_cons] at hs
      obtain ⟨s₁, h₁, hs⟩ := Option.bind_eq_some_iff.mp hs
      refine ih ?_ hs
      cases req with
      | insert p w =>
          simp only [perform] at h₁
          split at h₁
          · rename_i hp
            split at h₁
            · rename_i m' hrun
              obtain rfl := Option.some.inj h₁
              exact .insert h hp.1 hp.2 hrun
            · cases h₁
          · cases h₁
      | retrieve =>
          simp only [perform] at h₁
          split at h₁
          · rename_i m' r hrun
            obtain rfl := Option.some.inj h₁
            exact .retrieve h hrun
          · cases h₁

/-! ## Slices -/

/-- The sum of the weights of the queued processes. -/
def queuedWeight (m : Mem) : Int := ((queue m).map fun q => (m.proc q).weightVal).sum

/-- The slice `p` is due in view of the queue alone. -/
def fairSlice (m : Mem) (p : Slot) : Int :=
  max latency ((queue m).length * minGranularity) * (m.proc p).weightVal / queuedWeight m

/-- Some retrieval found the queue longer than `latency / min_granularity`. -/
def LongRetrieval (calls : List (Call Int Slot)) : Prop :=
  ∃ before r after, calls = before ++ .retrieve r :: after ∧
    latency.tdiv minGranularity < (pending before).length

/-- The memories reached from `rbinit` when every stored weight is in `1..1024`. -/
inductive WeighedRun : Mem → Prop where
  | init (m : Mem) : WeighedRun (rbinit m)
  | insert {m m' : Mem} {p : Slot} {w : Int} :
      WeighedRun m → Insertable m (queue m) p → 1 ≤ w → w ≤ 1024 →
      insertProcess (fun _ => .ok w) m p = .ok m' → WeighedRun m'
  | retrieve {m m' : Mem} {r : Option Slot} :
      WeighedRun m → retrieveProcess m = .ok (m', r) → WeighedRun m'
  | others {m m' : Mem} :
      WeighedRun m → m'.tree = m.tree → (∀ p ∈ queue m, SameQueued (m'.proc p) (m.proc p)) →
      WeighedRun m'

/-- `count`, `treeWeight` and `period` are exact, or within their bounds. -/
structure ExactCounters (m : Mem) : Prop where
  nodup : (queue m).Nodup
  count : m.tree.count = (queue m).length
  treeWeight : m.tree.treeWeight = queuedWeight m
  treeWeight_nonneg : 0 ≤ m.tree.treeWeight
  period_ge : latency ≤ m.tree.period
  period_le : m.tree.period ≤ max latency (minGranularity * NPROC)

/-- Retrieving `p` leads from `m` to `m'`, and no `int` leaves its range on the way. -/
structure SafeRetrieval (m m' : Mem) (p : Slot) : Prop where
  run : retrieveProcess m = .ok (m', some p)
  /-- The divisor is at least the weight, which is positive. -/
  weight_pos : 0 < (m.proc p).weightVal
  weight_le : (m.proc p).weightVal ≤ m.tree.treeWeight
  slice_nonneg : 0 ≤ (m'.proc p).maxExecutionTime
  slice_le : (m'.proc p).maxExecutionTime ≤ m'.tree.period
  period_fits : IsInt32 (m.tree.count * minGranularity)
  product_fits : IsInt32 (m'.tree.period * (m.proc p).weightVal)
  count_fits : IsInt32 (m.tree.count - 1)
  treeWeight_fits : IsInt32 (m.tree.treeWeight - (m.proc p).weightVal)

/-! ## Ways down the links -/

/-- `NullPath m q n`: some way from the link `q` down to a null link meets `n` black nodes. -/
inductive NullPath (m : Mem) : Option Slot → Nat → Prop where
  | null : NullPath m none 0
  | left {p : Slot} {n : Nat} : NullPath m (m.proc p).left n →
      NullPath m (some p) (n + if (m.proc p).color = .black then 1 else 0)
  | right {p : Slot} {n : Nat} : NullPath m (m.proc p).right n →
      NullPath m (some p) (n + if (m.proc p).color = .black then 1 else 0)

/-- `DepthAt m p d`: the way down the links to `p` passes `d` nodes, the root and `p` included. -/
inductive DepthAt (m : Mem) : Slot → Nat → Prop where
  | root {p : Slot} : m.tree.root = some p → DepthAt m p 1
  | left {p q : Slot} {d : Nat} : DepthAt m p d → (m.proc p).left = some q → DepthAt m q (d + 1)
  | right {p q : Slot} {d : Nat} : DepthAt m p d → (m.proc p).right = some q → DepthAt m q (d + 1)

end Xv6Cfs
