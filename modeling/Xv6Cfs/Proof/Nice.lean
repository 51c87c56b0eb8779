import Xv6Cfs.Kernel.Nice
import Xv6Cfs.Proof.QueueRuns

/-!
# Nice values and weights

The loop of `calculateWight` never advances its counter, so a weight is computed
for nice values up to 0 only, and it is 819 for all of them. The system call that
should set a nice value does nothing.
-/

namespace Xv6Cfs

open RedBlack

/-! ## `calculateWight` -/

theorem calculateWightLoop_of_pos {n : Int} (h : 0 < n) (fuel : Nat) (d : Rat) :
    calculateWightLoop fuel 0 n d = .error .outOfFuel := by
  induction fuel generalizing d with
  | zero => rfl
  | succ fuel ih => rw [calculateWightLoop, if_pos ⟨h, h⟩, ih]

/-- For a positive nice value the loop does not end. -/
theorem calculateWight_of_pos {niceVal : Int} (h : 0 < niceVal) (fuel : Nat) :
    calculateWight fuel niceVal = .error .outOfFuel := by
  have hclamp : 0 < if niceVal > 30 then 30 else if niceVal < 0 then 0 else niceVal := by
    split_ifs <;> omega
  rw [calculateWight, calculateWightLoop_of_pos hclamp]
  rfl

/-- For any other the weight is that of the first denominator. -/
theorem calculateWight_of_nonpos {niceVal : Int} (h : niceVal ≤ 0) (fuel : Nat) :
    calculateWight (fuel + 1) niceVal = .ok 819 := by
  have hclamp : (if niceVal > 30 then 30 else if niceVal < 0 then 0 else niceVal) = 0 := by
    split_ifs <;> omega
  have hloop : calculateWightLoop (fuel + 1) 0 0 (5 / 4) = .ok (5 / 4) := by
    simp [calculateWightLoop]
  rw [calculateWight, hclamp, hloop]
  decide +kernel

/-- A weight that is computed at all is 819, for a nice value that is not positive. -/
theorem calculateWight_eq_ok {fuel : Nat} {niceVal w : Int}
    (h : calculateWight fuel niceVal = .ok w) : niceVal ≤ 0 ∧ w = 819 := by
  have hle : niceVal ≤ 0 := by
    by_contra hpos
    rw [calculateWight_of_pos (by omega)] at h
    cases h
  refine ⟨hle, ?_⟩
  cases fuel with
  | zero => cases h
  | succ fuel =>
      rw [calculateWight_of_nonpos hle] at h
      exact (Except.ok.inj h).symm

theorem readmeWight_of_nonpos {niceVal : Int} (h : niceVal ≤ 0) : readmeWight niceVal = 1024 := by
  have hclamp : max 0 (min niceVal 30) = 0 := by omega
  rw [readmeWight, hclamp]
  decide +kernel

/--
**`calculateWight` never returns the weight of `README.md`.** For a positive nice
value it does not return, and for any other it divides once too often.
-/
theorem calculateWight_ne_readmeWight (niceVal : Int) :
    ¬∃ fuel, calculateWight fuel niceVal = .ok (readmeWight niceVal) := by
  rintro ⟨fuel, h⟩
  obtain ⟨hle, hw⟩ := calculateWight_eq_ok h
  rw [readmeWight_of_nonpos hle] at hw
  omega

/-- At nice 0 the weight is 819, and the formula says 1024. -/
theorem not_calculateWight_readme :
    calculateWight loopFuel 0 = .ok 819 ∧ readmeWight 0 = 1024 ∧
      ¬∀ niceVal, ∃ fuel, calculateWight fuel niceVal = .ok (readmeWight niceVal) := by
  have hok : calculateWight loopFuel 0 = .ok 819 := by decide +kernel
  have hreadme : readmeWight 0 = 1024 := by decide +kernel
  refine ⟨hok, hreadme, fun h => ?_⟩
  obtain ⟨fuel, hf⟩ := h 0
  rw [hreadme] at hf
  exact absurd (calculateWight_eq_ok hf).2 (by decide)

/-! ## `insertProcess` -/

/-- Insertion into a tree, with the lock. -/
theorem insertProcess_grown (wight : Int → Except Fault Int) {m : Mem} {t : ColorTree Slot}
    {p : Slot} {w : Int} (h : TreeRep m t) (hm : m.tree.locked = false) (hp : p ∉ t.toList)
    (hl : (m.proc p).left = none) (hr : (m.proc p).right = none)
    (hw : wight (m.proc p).niceVal = .ok w) :
    ∃ m', insertProcess wight m p = .ok m' ∧ m'.tree.locked = false ∧
      (m'.proc p).weightVal = w ∧ m'.tree.treeWeight = m.tree.treeWeight + w := by
  obtain ⟨m', t', hrun, hg⟩ := insertProcessLocked_grown (m := m.setLocked true)
    (h.setLocked true) hp hl hr hw
  refine ⟨m'.setLocked false, ?_, rfl, ?_, hg.treeWeight⟩
  · simp [insertProcess, acquireTree, hm, hrun, releaseTree]
  · simpa using congrArg Proc.weightVal hg.inserted

/-- An insertion computes the weight of the nice value. -/
theorem insertProcess_wight {fuel : Nat} {m m' : Mem} {t : ColorTree Slot} {p : Slot}
    (h : TreeRep m t) (hp : p ∉ t.toList) (hl : (m.proc p).left = none)
    (hr : (m.proc p).right = none) (hrun : insertProcess (calculateWight fuel) m p = .ok m') :
    ∃ w, calculateWight fuel (m.proc p).niceVal = .ok w := by
  have h' := h.setLocked true
  have hzero : (m.setLocked true).tree.count = 0 ↔ t = .nil := by
    rw [h'.count, ← ColorTree.toList_eq_nil, ← List.length_eq_zero_iff]
    omega
  obtain ⟨m₁, root, m₂, hdesc, hclear, -, hrel⟩ :=
    insertProc_root (m := m.setLocked true) (fun q => (m.proc q).virtualRuntime) h'.denotes hzero
      (fun _ => rfl) hp hl hr
  have hnice : (m₂.proc p).niceVal = (m.proc p).niceVal := by
    simpa using congrArg Proc.niceVal (hrel.unlinked p)
  cases hw : calculateWight fuel (m.proc p).niceVal with
  | ok w => exact ⟨w, rfl⟩
  | error e =>
      exfalso
      have hfull : (m.setLocked true).tree.isFull = false := by
        have := length_lt_NPROC h.denotes.nodup hp
        simp only [RBTree.isFull, h'.count, beq_eq_false_iff_ne]
        omega
      have herr : insertRepaired (calculateWight fuel) (m.setLocked true) p = .error e := by
        unfold insertRepaired
        rw [hdesc]
        simp only [ok_bind, hclear, Mem.setCount_proc, hnice, hw, error_bind]
      unfold insertProcess acquireTree at hrun
      split at hrun
      · cases hrun
      · rw [ok_bind, insertProcessLocked, hfull] at hrun
        simp [herr] at hrun

/--
**`insertProcess` returns if and only if the nice value is not positive.** It then
gives the lock back; no pointer it follows is null, and its other loops end.
-/
theorem insertProcess_returns_iff {m : Mem} {t : ColorTree Slot} {p : Slot} (h : TreeRep m t)
    (hm : m.tree.locked = false) (hp : p ∉ t.toList) (hl : (m.proc p).left = none)
    (hr : (m.proc p).right = none) :
    (∃ fuel m', insertProcess (calculateWight fuel) m p = .ok m' ∧ m'.tree.locked = false) ↔
      (m.proc p).niceVal ≤ 0 := by
  constructor
  · rintro ⟨fuel, m', hrun, -⟩
    obtain ⟨w, hw⟩ := insertProcess_wight h hp hl hr hrun
    exact (calculateWight_eq_ok hw).1
  · intro hle
    obtain ⟨m', hrun, hfree, -⟩ := insertProcess_grown (calculateWight 1) h hm hp hl hr
      (calculateWight_of_nonpos hle 0)
    exact ⟨1, m', hrun, hfree⟩

/-- A table whose first process has the nice value `n`. -/
def niceTable (n : Int) : Mem := rbinit (readyTable.modify 0 fun x => { x with niceVal := n })

theorem treeRep_niceTable (n : Int) : TreeRep (niceTable n) .nil :=
  (queueRep_rbinit _).tree

/-- At nice 0 the insertion returns: a fifth process, below a red one that is rotated. -/
theorem insertProcess_returns_five : ∃ m t, TreeRep m t ∧ queue m = [0, 1, 2, 3] ∧
    (m.proc 3).color = .red ∧
    ∃ fuel m', insertProcess (calculateWight fuel) m 4 = .ok m' ∧ m'.tree.locked = false := by
  have h : (([.insert 0 819, .insert 1 819, .insert 2 819, .insert 3 819] :
      List Request).foldlM perform (rbinit readyTable, [])).any (fun s =>
        decide (queue s.1 = [0, 1, 2, 3] ∧ (s.1.proc 3).color = .red ∧ (s.1.proc 4).left = none ∧
          (s.1.proc 4).right = none ∧ (s.1.proc 4).niceVal ≤ 0)) = true := by
    decide +kernel
  obtain ⟨s, hs, hfacts⟩ := (Option.any_eq_true _ _).mp h
  obtain ⟨hqueue, hred, hl, hr, hnice⟩ := of_decide_eq_true hfacts
  obtain ⟨t, ht⟩ := queueRun_inv (queueRun_perform (.init readyTable) hs)
  have hout : 4 ∉ t.toList := by
    rw [← ht.rep.queue_eq, hqueue]
    decide
  exact ⟨s.1, t, ht.rep.tree, hqueue, hred,
    (insertProcess_returns_iff ht.rep.tree ht.unlocked hout hl hr).mpr hnice⟩

/-- At nice 1 it never does, into an empty tree. -/
theorem not_insertProcess_returns : TreeRep (niceTable 1) .nil ∧
    ((niceTable 1).proc 0).left = none ∧ ((niceTable 1).proc 0).right = none ∧
    ((niceTable 1).proc 0).niceVal = 1 ∧
    ¬∃ fuel m', insertProcess (calculateWight fuel) (niceTable 1) 0 = .ok m' := by
  refine ⟨treeRep_niceTable 1, by decide, by decide, by decide, ?_⟩
  rintro ⟨fuel, m', hrun⟩
  obtain ⟨w, hw⟩ := insertProcess_wight (treeRep_niceTable 1) (by simp) (by decide) (by decide) hrun
  exact absurd (calculateWight_eq_ok hw).1 (by decide)

/-! ## The system call -/

/-- Each insertion of `p` with the nice value it has in `m` weighs it by `n`. -/
def WeighedBy (m : Mem) (p : Slot) (n : Int) : Prop :=
  ∀ (m₁ : Mem) (t : ColorTree Slot), TreeRep m₁ t → m₁.tree.locked = false → p ∉ t.toList →
    (m₁.proc p).left = none → (m₁.proc p).right = none →
    (m₁.proc p).niceVal = (m.proc p).niceVal →
    ∃ fuel w m₂, calculateWight fuel n = .ok w ∧ insertProcess (calculateWight fuel) m₁ p = .ok m₂ ∧
      (m₂.proc p).weightVal = w ∧ m₂.tree.treeWeight = m₁.tree.treeWeight + w

/-- What a process may expect of the system call `SYS_setnice` with the argument `n`. -/
def NiceTakesEffect (m : Mem) (p : Slot) (n : Int) : Prop :=
  ∃ m' r, syscallNice m SYS_setnice = some (m', r) ∧
    (0 ≤ n ∧ n ≤ 30 → r = 0 ∧ (m'.proc p).niceVal = n ∧ (∀ q, q ≠ p → m'.proc q = m.proc q) ∧
      WeighedBy m' p n) ∧
    (¬(0 ≤ n ∧ n ≤ 30) → r = -1 ∧ m' = m)

/-- The system call returns 0 and does nothing else. -/
theorem syscallNice_eq (m : Mem) :
    syscallNice m SYS_setnice = some (m, 0) := rfl

theorem weighedBy_zero {m : Mem} {p : Slot} (h : (m.proc p).niceVal = 0) : WeighedBy m p 0 := by
  intro m₁ t ht hm hp hl hr hnice
  obtain ⟨m₂, hrun, -, hw, htw⟩ := insertProcess_grown (calculateWight 1) ht hm hp hl hr
    (calculateWight_of_nonpos (by omega) 0)
  exact ⟨1, 819, m₂, calculateWight_of_nonpos le_rfl 0, hrun, hw, htw⟩

/-- **Setting a nice value takes effect only if it is 0, and was 0 before.** -/
theorem niceTakesEffect_iff (m : Mem) (p : Slot) (n : Int) :
    NiceTakesEffect m p n ↔ n = 0 ∧ (m.proc p).niceVal = 0 := by
  constructor
  · rintro ⟨m', r, hcall, hin, hout⟩
    rw [syscallNice_eq, Option.some.injEq, Prod.mk.injEq] at hcall
    obtain ⟨rfl, rfl⟩ := hcall
    by_cases hn : 0 ≤ n ∧ n ≤ 30
    · obtain ⟨-, hnice, -, hweigh⟩ := hin hn
      -- an insertion into an empty tree must compute a weight
      obtain ⟨fuel, w, -, hw, -⟩ := hweigh
        (rbinit (m.modify p fun x => { x with left := none, right := none })) .nil
        (queueRep_rbinit _).tree rfl (by simp) (by simp [rbinit]) (by simp [rbinit])
        (by simp [rbinit])
      have := (calculateWight_eq_ok hw).1
      exact ⟨by omega, by omega⟩
    · exact absurd (hout hn).1 (by decide)
  · rintro ⟨rfl, hnice⟩
    exact ⟨m, 0, rfl, fun _ => ⟨rfl, hnice, fun _ _ => rfl, weighedBy_zero hnice⟩,
      fun h => absurd ⟨le_rfl, by decide⟩ h⟩

/-- A process of nice 0 asks for nice 10: the call returns 0 and the nice value stays 0. -/
theorem not_niceTakesEffect : ¬∀ m p n, NiceTakesEffect m p n := by
  intro h
  obtain ⟨m', r, hcall, hin, -⟩ := h (niceTable 0) 0 10
  rw [syscallNice_eq, Option.some.injEq, Prod.mk.injEq] at hcall
  obtain ⟨rfl, rfl⟩ := hcall
  exact absurd (hin ⟨by decide, by decide⟩).2.1 (by decide)

end Xv6Cfs
