import Xv6Cfs.Proof.Links
import Xv6Cfs.Queue.Stable
import Mathlib.Data.Fintype.Card
import Mathlib.Algebra.BigOperators.Group.List.Basic

/-!
# The run queue in memory

`QueueRep m t` is the invariant of the run queue between two operations: the
links denote the red-black search tree `t`, the counters agree with it, the cached
minimum is its first process, and every process in it is runnable.

What an operation does to the queue is then said in terms of the list of `t`.
-/

namespace Xv6Cfs

open RedBlack StableQueue

/-- The memory `m` holds a run queue whose tree is `t`. -/
structure QueueRep (m : Mem) (t : ColorTree Slot) : Prop where
  /-- The links are those of the tree. -/
  denotes : Denotes m t
  /-- The tree is a red-black tree with a black root. -/
  balanced : ∃ n, t.Balanced .black n
  /-- From left to right the keys never decrease. -/
  sorted : SortedBy (fun p => (m.proc p).virtualRuntime) t.toList
  /-- `count` is the number of queued processes. -/
  count : m.tree.count = t.toList.length
  /-- `treeWeight` is the sum of their weights. -/
  treeWeight : m.tree.treeWeight = (t.toList.map fun p => (m.proc p).weightVal).sum
  /-- Every queued process has a positive weight. -/
  weight_pos : ∀ p ∈ t.toList, 0 < (m.proc p).weightVal
  /-- `minvRuntime` points to the first process. -/
  minvRuntime : m.tree.minvRuntime = t.toList.head?
  /-- Every queued process is runnable. -/
  runnable : ∀ p ∈ t.toList, (m.proc p).state = .runnable

/-- The tree alone: what `insertProc` and the repairs rely on. -/
structure TreeRep (m : Mem) (t : ColorTree Slot) : Prop where
  /-- The links are those of the tree. -/
  denotes : Denotes m t
  /-- The tree is a red-black tree with a black root. -/
  balanced : ∃ n, t.Balanced .black n
  /-- From left to right the keys never decrease. -/
  sorted : SortedBy (fun p => (m.proc p).virtualRuntime) t.toList
  /-- `count` is the number of queued processes. -/
  count : m.tree.count = t.toList.length
  /-- `minvRuntime` points to the first process. -/
  minvRuntime : m.tree.minvRuntime = t.toList.head?

theorem QueueRep.tree {m : Mem} {t : ColorTree Slot} (h : QueueRep m t) : TreeRep m t :=
  ⟨h.denotes, h.balanced, h.sorted, h.count, h.minvRuntime⟩

theorem TreeRep.setLocked {m : Mem} {t : ColorTree Slot} (h : TreeRep m t) (b : Bool) :
    TreeRep (m.setLocked b) t :=
  ⟨h.denotes.congr rfl fun _ _ => ⟨rfl, rfl, rfl, rfl⟩, h.balanced, h.sorted, h.count,
    h.minvRuntime⟩

/-- The queue does not see what happens to the other slots, nor to a queued slot's other fields. -/
theorem QueueRep.congr {m m' : Mem} {t : ColorTree Slot} (h : QueueRep m t)
    (htree : { m'.tree with locked := false, period := 0 } =
      { m.tree with locked := false, period := 0 })
    (hproc : ∀ p ∈ t.toList, SameQueued (m'.proc p) (m.proc p)) : QueueRep m' t := by
  simp only [RBTree.mk.injEq] at htree
  obtain ⟨h1, h2, h3, h4, -⟩ := htree
  refine ⟨h.denotes.congr h3 fun p hp => (hproc p hp).links, h.balanced, ?_, by rw [h1, h.count],
    ?_, ?_, by rw [h4, h.minvRuntime], ?_⟩
  · refine h.sorted.imp_of_mem fun hp hq hle => ?_
    simpa only [(hproc _ hp).virtualRuntime, (hproc _ hq).virtualRuntime] using hle
  · rw [h2, h.treeWeight]
    exact congrArg List.sum (List.map_congr_left fun p hp => (hproc p hp).weightVal.symm)
  · intro p hp
    rw [(hproc p hp).weightVal]
    exact h.weight_pos p hp
  · intro p hp
    rw [(hproc p hp).state]
    exact h.runnable p hp

/-- Writing to a slot that is not queued leaves the queue alone. -/
theorem QueueRep.modify {m : Mem} {t : ColorTree Slot} {p : Slot} (h : QueueRep m t)
    (hp : p ∉ t.toList) (f : Proc → Proc) : QueueRep (m.modify p f) t :=
  h.congr rfl fun q hq => by
    have hne : q ≠ p := fun e => hp (e ▸ hq)
    rw [m.modify_ne f hne]
    exact .refl _

/-- `rbinit` makes an empty queue. -/
theorem queueRep_rbinit (m : Mem) : QueueRep (rbinit m) .nil where
  denotes := ⟨rfl, trivial, by simp⟩
  balanced := ⟨0, .nil⟩
  sorted := .nil
  count := rfl
  treeWeight := rfl
  weight_pos := by simp
  minvRuntime := rfl
  runnable := by simp

/-! ## The fuel suffices -/

theorem length_le_NPROC {l : List Slot} (h : l.Nodup) : l.length ≤ NPROC := by
  simpa [Slot] using List.Nodup.length_le_card h

theorem length_lt_NPROC {l : List Slot} {p : Slot} (h : l.Nodup) (hp : p ∉ l) :
    l.length < NPROC :=
  length_le_NPROC (List.nodup_cons.mpr ⟨hp, h⟩)

/-- A tree over the slots is no higher than there are slots. -/
theorem height_le_NPROC {t : ColorTree Slot} (h : t.toList.Nodup) : t.height ≤ NPROC :=
  t.height_le_size.trans (t.length_toList ▸ length_le_NPROC h)

/-! ## The leftmost process -/

/-- **`setMinimumVRuntimeproc` finds the first process of a subtree.** -/
theorem setMinimumVRuntimeproc_eq {m : Mem} {par : Option Slot} {t : ColorTree Slot} {fuel : Nat}
    (hm : Matches m.proc par t) (hfuel : t.height < fuel) :
    setMinimumVRuntimeproc m fuel t.root? = .ok t.toList.head? := by
  induction t generalizing par fuel with
  | nil =>
      obtain ⟨fuel, rfl⟩ : ∃ k, fuel = k + 1 := ⟨fuel - 1, by omega⟩
      rfl
  | node c l a r ihl ihr =>
      obtain ⟨fuel, rfl⟩ : ∃ k, fuel = k + 1 := ⟨fuel - 1, by omega⟩
      obtain ⟨_, hl, _, _, hml, _⟩ := hm
      simp only [ColorTree.height] at hfuel
      have := ihl hml (show l.height < fuel by omega)
      simp only [ColorTree.root?_node, setMinimumVRuntimeproc, hl]
      cases l with
      | nil => rfl
      | node d x b y =>
          simp only [ColorTree.root?_node] at this ⊢
          rw [this]
          simp

theorem Matches.left_isSome {h : Slot → Proc} {par : Option Slot} {t : ColorTree Slot} {q : Slot}
    (hm : Matches h par t) (hnd : t.toList.Nodup) (hq : q ∈ t.toList) :
    (h q).left.isSome ↔ t.HasLeft q := by
  induction t generalizing par with
  | nil => simp at hq
  | node c l a r ihl ihr =>
      obtain ⟨_, hl, _, _, hml, hmr⟩ := hm
      simp only [ColorTree.toList_node, List.nodup_append, List.nodup_cons, List.mem_cons] at hnd
      obtain ⟨hndl, ⟨har, hndr⟩, hlr⟩ := hnd
      simp only [ColorTree.toList_node, List.mem_append, List.mem_cons] at hq
      rw [ColorTree.hasLeft_node]
      rcases hq with hq | rfl | hq
      · have ha : a ≠ q := fun e => hlr q hq a (Or.inl rfl) e.symm
        have hr : ¬r.HasLeft q := fun e => hlr q hq q (Or.inr e.mem) rfl
        simp [ihl hml hndl hq, ha, hr]
      · have hl' : ¬l.HasLeft q := fun e => hlr q e.mem q (Or.inl rfl) rfl
        have hr' : ¬r.HasLeft q := fun e => har e.mem
        rw [hl]
        cases l <;> simp_all
      · have ha : a ≠ q := fun e => har (e ▸ hq)
        have hl' : ¬l.HasLeft q := fun e => hlr q e.mem q (Or.inr hq) rfl
        simp [ihr hmr hndr hq, ha, hl']

/--
**`updateMinimum` leaves the cached minimum right**, as long as the minimum it
keeps is the first process again.
-/
theorem updateMinimum_eq {m : Mem} {t : ColorTree Slot} (h : Denotes m t)
    (hmin : ∀ q, m.tree.minvRuntime = some q → q ∈ t.toList ∧
      (¬t.HasLeft q → t.toList.head? = some q)) :
    updateMinimum m = .ok (m.setMin t.toList.head?) := by
  have hfind : setMinimumVRuntimeproc m loopFuel m.tree.root = .ok t.toList.head? := by
    rw [h.root]
    exact setMinimumVRuntimeproc_eq h.links ((height_le_NPROC h.nodup).trans_lt (by decide))
  unfold updateMinimum minimumStale
  cases hq : m.tree.minvRuntime with
  | none => simp [hfind]
  | some q =>
      obtain ⟨hmem, hhead⟩ := hmin q hq
      have hiff := h.links.left_isSome h.nodup hmem
      by_cases hleft : t.HasLeft q
      · simp [hiff.mpr hleft, hfind]
      · have : (m.proc q).left.isSome = false := by simpa [← hiff] using hleft
        rw [hhead hleft, Mem.setMin_self hq]
        simp [this]

end Xv6Cfs
