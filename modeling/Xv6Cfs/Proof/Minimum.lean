import Xv6Cfs.Proof.QueueRuns

/-!
# The minimum, cached and removed

Insertion looks for the minimum again only when a test on the cached one says so;
the test is exact. Removal takes the minimum out and, if that costs a black node,
runs a loop that would hang if it ever stood on a right child; it never does.
-/

namespace Xv6Cfs

open RedBlack StableQueue

/-! ## The cached minimum -/

/-- The leftmost process of a tree in memory. -/
theorem Denotes.setMinimum {m : Mem} {t : ColorTree Slot} (h : Denotes m t) :
    setMinimumVRuntimeproc m loopFuel m.tree.root = .ok t.toList.head? := by
  rw [h.root]
  exact setMinimumVRuntimeproc_eq h.links ((height_le_NPROC h.nodup).trans_lt (by decide))

/-- After a process has been placed, the test asks whether the first process is another. -/
theorem Placed.minimumStale_iff {m m' : Mem} {t t' : ColorTree Slot} {p : Slot} {w : Int}
    (hp : Placed m t p w m' t') (h : TreeRep m t) :
    minimumStale m' = true ↔ t.toList.head? ≠ t'.toList.head? := by
  have hmin : m'.tree.minvRuntime = t.toList.head? :=
    (RBTree.mk.inj hp.tree).2.2.2.1.trans h.minvRuntime
  unfold minimumStale
  rw [hmin]
  cases hq : t.toList.head? with
  | none =>
      have hmem : p ∈ t'.toList := by
        rw [hp.toList]
        exact mem_insertBy.mpr (Or.inl rfl)
      refine iff_of_true rfl fun e => ?_
      rw [List.head?_eq_none_iff.mp e.symm] at hmem
      simp at hmem
  | some q =>
      have hmem : q ∈ t'.toList := by
        rw [hp.toList]
        exact mem_insertBy.mpr (Or.inr (List.mem_of_head? hq))
      change (m'.proc q).left.isSome = true ↔ _
      rw [hp.denotes.links.left_isSome hp.denotes.nodup hmem]
      constructor
      · intro hleft e
        exact ColorTree.not_hasLeft_of_head hp.denotes.nodup e.symm hleft
      · intro hne
        exact (hp.first q hq).resolve_left fun e => hne e.symm

/--
**The cached minimum is always right.** After `insertProc` and `insertionCases`
the test on the cached minimum succeeds exactly when the leftmost process has
changed, and either way the cache then holds the leftmost process.
-/
theorem cachedMinimum {m : Mem} {t : ColorTree Slot} {p : Slot} (w : Int) (h : TreeRep m t)
    (hp : p ∉ t.toList) (hl : (m.proc p).left = none) (hr : (m.proc p).right = none) :
    ∃ m' before after, insertRepaired (fun _ => .ok w) m p = .ok m' ∧
      setMinimumVRuntimeproc m loopFuel m.tree.root = .ok before ∧
      setMinimumVRuntimeproc m' loopFuel m'.tree.root = .ok after ∧
      (minimumStale m' = true ↔ before ≠ after) ∧ updateMinimum m' = .ok (m'.setMin after) := by
  obtain ⟨m', t', hrun, hpl⟩ := insertRepaired_spec (fun _ => .ok w) h hp hl hr rfl
  exact ⟨m', t.toList.head?, t'.toList.head?, hrun, h.denotes.setMinimum, hpl.denotes.setMinimum,
    hpl.minimumStale_iff h, hpl.updateMinimum h⟩

/-- Keys that fall from one slot to the next, and begin again with every fifth. -/
def fallingTable : Mem :=
  { readyTable with proc := fun p => { readyTable.proc p with virtualRuntime := -(p.val % 5 : Nat) } }

/-- Four processes, each inserted before the others. -/
def fallingRequests : List Request :=
  [.insert 0 819, .insert 1 819, .insert 2 819, .insert 3 819]

/-- Before 3 comes 4, on whose way a rotation is made; 8 has the key of 3, comes after it and is
rotated above it. -/
theorem fallingRequests_spec : (fallingRequests.foldlM perform (rbinit fallingTable, [])).any
    (fun s => queue s.1 = [3, 2, 1, 0] ∧
      (∀ p ∈ [4, 8], (s.1.proc p).left = none ∧ (s.1.proc p).right = none) ∧
      (insertRepaired (fun _ => .ok 819) s.1 4).toOption.map minimumStale = some true ∧
      (insertRepaired (fun _ => .ok 819) s.1 8).toOption.map minimumStale = some false) := by
  decide +kernel

/-- The minimum moves when 4 is inserted, and stays when 8 is. -/
theorem cachedMinimum_four : ∃ m, queue m = [3, 2, 1, 0] ∧
    (∃ m' before after, insertRepaired (fun _ => .ok 819) m 4 = .ok m' ∧
      setMinimumVRuntimeproc m loopFuel m.tree.root = .ok before ∧
      setMinimumVRuntimeproc m' loopFuel m'.tree.root = .ok after ∧
      before ≠ after ∧ updateMinimum m' = .ok (m'.setMin after)) ∧
    ∃ m' first, insertRepaired (fun _ => .ok 819) m 8 = .ok m' ∧
      setMinimumVRuntimeproc m loopFuel m.tree.root = .ok first ∧
      setMinimumVRuntimeproc m' loopFuel m'.tree.root = .ok first ∧
      updateMinimum m' = .ok (m'.setMin first) := by
  obtain ⟨s, hs, hspec⟩ := (Option.any_eq_true _ _).mp fallingRequests_spec
  obtain ⟨hqueue, hlinks, h4, h8⟩ := of_decide_eq_true hspec
  obtain ⟨t, ht⟩ := queueRun_inv (queueRun_perform (.init fallingTable) hs)
  rw [ht.rep.queue_eq] at hqueue
  have hout : ∀ p ∈ [4, 8], p ∉ t.toList := by
    rw [hqueue]
    decide
  refine ⟨s.1, ht.rep.queue_eq.trans hqueue, ?_, ?_⟩
  · obtain ⟨hl, hr⟩ := hlinks 4 (by simp)
    obtain ⟨m', before, after, hrun, hbefore, hafter, hstale, hmin⟩ :=
      cachedMinimum 819 ht.rep.tree (hout 4 (by simp)) hl hr
    rw [hrun] at h4
    exact ⟨m', before, after, hrun, hbefore, hafter, hstale.mp (Option.some.inj h4), hmin⟩
  · obtain ⟨hl, hr⟩ := hlinks 8 (by simp)
    obtain ⟨m', before, after, hrun, hbefore, hafter, hstale, hmin⟩ :=
      cachedMinimum 819 ht.rep.tree (hout 8 (by simp)) hl hr
    rw [hrun] at h8
    have hfresh : minimumStale m' = false := Option.some.inj h8
    obtain rfl : before = after := by
      by_contra hne
      rw [hstale.mpr hne] at hfresh
      cases hfresh
    exact ⟨m', before, hrun, hbefore, hafter, hmin⟩

/-! ## The loop of `retrievingCases` -/

/-- The test of the `while` loop. -/
def LoopTest (m : Mem) (process : Option Slot) : Prop :=
  process ≠ m.tree.root ∧ isBlack m process = true

/--
The head of the loop, with `parentProc` and `process`: on entry, when the black
minimum `p` has been replaced by its right child, and after each iteration.
-/
inductive LoopAt (m : Mem) (p : Slot) : Mem → Option Slot → Option Slot → Prop where
  | enter {a : Slot} : some p ≠ m.tree.root → (m.proc p).pParent = some a →
      (m.proc p).color = .black →
      (∀ q, (m.proc p).right = some q → (m.proc q).color = .black) →
      LoopAt m p ((adopt m (some a) (m.proc p).right).setLeft a (m.proc p).right) (some a)
        (m.proc p).right
  | next {m₁ m₂ m₃ : Mem} {a : Slot} {par q q' : Option Slot} : LoopAt m p m₁ (some a) q →
      LoopTest m₁ q → q = (m₁.proc a).left → raiseSibling m₁ a = .ok m₂ →
      settleSibling m₂ a = .ok (m₃, par, q') → LoopAt m p m₃ par q'

/-- What an iteration relies on: the loop stands on a left child, with a sibling, and a nephew. -/
structure Iteration (m : Mem) (parentProc process : Option Slot) (a : Slot) : Prop where
  parent : parentProc = some a
  leftChild : process = (m.proc a).left
  /-- The sibling is there, before a red one is rotated up and after. -/
  sibling : ∃ x, (m.proc a).right = some x
  raised : ∃ m' x, raiseSibling m a = .ok m' ∧ (m'.proc a).right = some x ∧
    /- Unless both nephews are black, the last rotation finds a right nephew. -/
    (¬(isBlack m' (m'.proc x).left ∧ isBlack m' (m'.proc x).right) →
      ∃ m'' y z, turnSibling m' a x = .ok (m'', y) ∧ (m''.proc y).right = some z)

/-- Where the loop stands: above a left subtree one black node short, or at its end. -/
def LoopInv (m : Mem) (par q : Option Slot) : Prop :=
  (∃ up t c d n, Denotes m (Trail.fill up t) ∧ Trail.Leftmost up ∧ t.Balanced d n ∧
    Trail.Balanced up c (n + 1) ∧ par = parentOf up ∧ q = t.root?) ∨ ¬LoopTest m q

/-- Below a black sibling: the nephew that is needed is there, and the loop goes on above. -/
theorem settle_iteration {m : Mem} {up : Trail Slot} {c : Color} {t sl sr : ColorTree Slot}
    {a x : Slot} (h : Denotes m (Trail.fill up (.node c t a (.node .black sl x sr)))) :
    (m.proc a).right = some x ∧
      (¬(isBlack m (m.proc x).left ∧ isBlack m (m.proc x).right) →
        ∃ m'' y z, turnSibling m a x = .ok (m'', y) ∧ (m''.proc y).right = some z) ∧
      ∀ m' par q, settleSibling m a = .ok (m', par, q) →
        ¬LoopTest m' q ∨ (sl.color = .black ∧ sr.color = .black ∧ par = parentOf up ∧
          q = some a ∧ Denotes m' (Trail.fill up (.node c t a (.node .red sl x sr)))) := by
  obtain ⟨_, _, hx, _, _, _⟩ := (denotes_fill up).mp h |>.inner
  obtain ⟨_, hleft, hright, _, hsl, hsr⟩ := (denotes_fill (.right c t a :: up)).mp h |>.inner
  refine ⟨hx, fun hred => ?_, fun m' par q hrun => ?_⟩
  · rw [hleft, hright, hsl.isBlack, hsr.isBlack] at hred
    obtain ⟨m'', d, sl', y, sr', z, hturn, hre, hz, -⟩ := turnSibling_spec h hred
    refine ⟨m'', y, z, hturn, ?_⟩
    rw [← hz]
    exact ((denotes_fill (.right c t a :: up)).mp hre.denotes).inner.2.2.1
  · by_cases hb : sl.color = .black ∧ sr.color = .black
    · obtain ⟨m₁, hrun₁, hre⟩ := settleSibling_black up h hb
      rw [hrun₁, Except.ok.injEq, Prod.mk.injEq, Prod.mk.injEq] at hrun
      obtain ⟨rfl, rfl, rfl⟩ := hrun
      exact .inr ⟨hb.1, hb.2, rfl, rfl, hre.denotes⟩
    · obtain ⟨m₁, t', hrun₁, hre, -⟩ := settleSibling_red up h hb
      rw [hrun₁, Except.ok.injEq, Prod.mk.injEq, Prod.mk.injEq] at hrun
      obtain ⟨rfl, rfl, rfl⟩ := hrun
      exact .inl fun htest => htest.1 hre.denotes.root.symm

/-- The loop's test succeeds below a parent only, on a black node. -/
theorem LoopTest.below {m : Mem} {up : Trail Slot} {t : ColorTree Slot}
    (h : Denotes m (Trail.fill up t)) (hl : Trail.Leftmost up) (htest : LoopTest m t.root?) :
    t.color = .black ∧ ∃ c a s up', up = .left c a s :: up' := by
  obtain ⟨hroot, hblack⟩ := htest
  refine ⟨((denotes_fill _).mp h).inner.isBlack.mp hblack, ?_⟩
  cases up with
  | nil => exact absurd h.root.symm hroot
  | cons f up =>
      obtain ⟨c, a, s, rfl⟩ := hl f (by simp)
      exact ⟨c, a, s, up, rfl⟩

/-- **One iteration.** -/
theorem loop_iteration {m : Mem} {par q : Option Slot} (h : LoopInv m par q)
    (htest : LoopTest m q) : ∃ a, Iteration m par q a ∧ ∀ m₂ m₃ par' q',
      raiseSibling m a = .ok m₂ → settleSibling m₂ a = .ok (m₃, par', q') → LoopInv m₃ par' q' := by
  obtain ⟨up, t, c, d, n, hden, hl, ht, hu, rfl, rfl⟩ := h.resolve_right fun e => e htest
  obtain ⟨hblack, e, a, s, up, rfl⟩ := htest.below hden hl
  obtain rfl : d = .black := ht.color_eq.symm.trans hblack
  obtain ⟨_, hleft, hs, _, hms, _⟩ := ((denotes_fill _).mp hden).outer
  refine ⟨a, ?_⟩
  cases hu with
  | redLeft hsb hup =>
      cases hsb with
      | @black sl sr x _ _ _ h1 h2 =>
          have hraise : raiseSibling m a = .ok m := by
            unfold raiseSibling
            rw [hs]
            simp [hms.1]
          obtain ⟨hx, hneph, hnext⟩ := settle_iteration hden
          refine ⟨⟨rfl, hleft.symm, ⟨x, hs⟩, m, x, hraise, hx, hneph⟩, ?_⟩
          intro m₂ m₃ par' q' hr hrun
          rw [hraise, Except.ok.injEq] at hr
          subst hr
          rcases hnext m₃ par' q' hrun with hstop | ⟨_, _, _, rfl, hden₃⟩
          · exact .inr hstop
          · -- the parent is red: the loop ends
            right
            rintro ⟨-, hb⟩
            have hcol := ((denotes_fill up).mp hden₃).inner.1
            simp [isBlack, hcol] at hb
  | blackLeft hsb hup =>
      cases hsb with
      | @red sib r b _ hsib hr =>
          cases hsib with
          | @black sl sr x _ _ _ h1 h2 =>
              have h₁ := reshaped_setColor (.right .black t a :: up) .black hden
              have h₂ := reshaped_setColor up .red h₁.denotes
              obtain ⟨m₁, hrot, h₃⟩ := reshaped_rotateLeft up h₂.denotes
              have hraise : raiseSibling m a = .ok m₁ := by
                unfold raiseSibling
                rw [hs]
                simpa [hms.1] using hrot
              have hden₁ : Denotes m₁ (Trail.fill (.left .black b r :: up)
                  (.node .red t a (.node .black sl x sr))) := h₃.denotes
              obtain ⟨hx, hneph, hnext⟩ := settle_iteration hden₁
              refine ⟨⟨rfl, hleft.symm, ⟨b, hs⟩, m₁, x, hraise, hx, hneph⟩, ?_⟩
              intro m₂ m₃ par' q' hr hrun
              rw [hraise, Except.ok.injEq] at hr
              subst hr
              rcases hnext m₃ par' q' hrun with hstop | ⟨_, _, _, rfl, hden₃⟩
              · exact .inr hstop
              · right
                rintro ⟨-, hb⟩
                have hcol := ((denotes_fill (.left .black b r :: up)).mp hden₃).inner.1
                simp [isBlack, hcol] at hb
      | @black sl sr x e₁ e₂ _ h1 h2 =>
          have hraise : raiseSibling m a = .ok m := by
            unfold raiseSibling
            rw [hs]
            simp [hms.1]
          obtain ⟨hx, hneph, hnext⟩ := settle_iteration hden
          refine ⟨⟨rfl, hleft.symm, ⟨x, hs⟩, m, x, hraise, hx, hneph⟩, ?_⟩
          intro m₂ m₃ par' q' hr hrun
          rw [hraise, Except.ok.injEq] at hr
          subst hr
          rcases hnext m₃ par' q' hrun with hstop | ⟨hb1, hb2, rfl, rfl, hden₃⟩
          · exact .inr hstop
          · -- the shortage moves up to the parent
            rw [h1.color_eq] at hb1
            rw [h2.color_eq] at hb2
            subst hb1 hb2
            exact .inl ⟨up, _, _, _, _, hden₃, hl.tail, .black ht (.red h1 h2), hup, rfl, rfl⟩

/-- The invariant holds when the loop is entered. -/
theorem loopInv_enter {m : Mem} {t : ColorTree Slot} {p a : Slot} {n : Nat} (h : Denotes m t)
    (hb : t.Balanced .black n) (hp : t.toList.head? = some p) (hroot : some p ≠ m.tree.root)
    (hpar : (m.proc p).pParent = some a) (hcol : (m.proc p).color = .black) :
    LoopInv ((adopt m (some a) (m.proc p).right).setLeft a (m.proc p).right) (some a)
      (m.proc p).right := by
  have hne : t ≠ .nil := by rintro rfl; simp at hp
  obtain ⟨up, c, b, r, -, hl, hfill, ⟨e, k, hnode, hup⟩, hlist, -⟩ := removeMin_spec hne hb
  obtain rfl : b = p := by simpa [hlist] using hp
  rw [hfill] at h
  obtain ⟨hc, _, hr, hpar', _, _⟩ := ((denotes_fill _).mp h).inner
  rw [hcol] at hc
  subst hc
  cases up with
  | nil => exact absurd h.root.symm hroot
  | cons f up =>
      obtain ⟨d, a', s, rfl⟩ := hl f (by simp)
      obtain rfl : a' = a := Option.some.inj (hpar'.symm.trans hpar)
      obtain ⟨hden, -⟩ := denotes_unlink h
      rw [hr]
      cases hnode with
      | black _ hrb => exact .inl ⟨_, r, _, _, _, hden, hl, hrb, hup, rfl, rfl⟩

/-- The invariant holds whenever the loop is at its head. -/
theorem loopAt_inv {m : Mem} {t : ColorTree Slot} {p : Slot} {n : Nat} (h : Denotes m t)
    (hb : t.Balanced .black n) (hp : t.toList.head? = some p) {m₁ : Mem} {par q : Option Slot}
    (hloop : LoopAt m p m₁ par q) : LoopInv m₁ par q := by
  induction hloop with
  | enter hroot hpar hcol _ => exact loopInv_enter h hb hp hroot hpar hcol
  | @next m₁ m₂ m₃ a par q q' _ htest hq hraise hsettle ih =>
      obtain ⟨a', hit, hnext⟩ := loop_iteration ih htest
      obtain rfl : a = a' := Option.some.inj hit.parent
      exact hnext m₂ m₃ par q' hraise hsettle

/-- **What the loop goes through** are these states, until its test fails. -/
theorem LoopAt.run {m : Mem} {p : Slot} {fuel : Nat} {m₁ m' : Mem} {par q : Option Slot}
    (h : LoopAt m p m₁ par q) (hrun : retrievingLoop fuel m₁ par q = .ok m') :
    ∃ m₂ par₂ q₂, LoopAt m p m₂ par₂ q₂ ∧ ¬LoopTest m₂ q₂ ∧ m' = paintBlack m₂ q₂ := by
  induction fuel generalizing m₁ par q with
  | zero => cases hrun
  | succ fuel ih =>
      rw [retrievingLoop] at hrun
      split_ifs at hrun with htest
      · cases par with
        | none => cases hrun
        | some a =>
            rw [deref, ok_bind] at hrun
            split_ifs at hrun with hq
            · cases hraise : raiseSibling m₁ a with
              | error e => simp [hraise] at hrun
              | ok m₂ =>
                  cases hsettle : settleSibling m₂ a with
                  | error e => simp [hraise, hsettle] at hrun
                  | ok s =>
                      obtain ⟨m₃, par', q'⟩ := s
                      rw [hraise, ok_bind, hsettle, ok_bind] at hrun
                      exact ih (.next h htest hq hraise hsettle) hrun
            · -- on a right child it would stay where it is
              exact ih h hrun
      · exact ⟨m₁, par, q, h, htest, (Except.ok.inj hrun).symm⟩

/--
**Removing the minimum ends, and follows no null pointer.** In every iteration of
the loop the current node is the left child of `parentProc`, and the sibling and
the nephew that are written to are there.
-/
theorem removal_terminates {m : Mem} {t : ColorTree Slot} {p : Slot} (h : TreeRep m t)
    (hp : m.tree.minvRuntime = some p) :
    (∃ m', retrievingCases loopFuel m (m.proc p).pParent p = .ok m') ∧
      ∀ m₁ par q, LoopAt m p m₁ par q → LoopTest m₁ q → ∃ a, Iteration m₁ par q a := by
  obtain ⟨n, hb⟩ := h.balanced
  have hhead : t.toList.head? = some p := h.minvRuntime.symm.trans hp
  refine ⟨?_, fun m₁ par q hloop htest => ?_⟩
  · obtain ⟨m', t', hrun, -⟩ := retrievingCases_spec h.denotes hb hhead
    exact ⟨m', hrun⟩
  · obtain ⟨a, hit, -⟩ := loop_iteration (loopAt_inv h.denotes hb hhead hloop) htest
    exact ⟨a, hit⟩

/-- Four processes under one key: the first is black, and its removal enters the loop. -/
theorem removal_terminates_four : ∃ m, (m.proc 0).color = .black ∧
    m.tree.minvRuntime = some 0 ∧ (∃ m', retrievingCases loopFuel m (m.proc 0).pParent 0 = .ok m') ∧
    ∀ m₁ par q, LoopAt m 0 m₁ par q → LoopTest m₁ q → ∃ a, Iteration m₁ par q a := by
  have h : (([.insert 0 819, .insert 1 819, .insert 2 819, .insert 3 819] :
      List Request).foldlM perform (rbinit readyTable, [])).any
      (fun s => decide ((s.1.proc 0).color = .black ∧ s.1.tree.minvRuntime = some 0)) = true := by
    decide +kernel
  obtain ⟨s, hs, hfacts⟩ := (Option.any_eq_true _ _).mp h
  obtain ⟨hcol, hmin⟩ := of_decide_eq_true hfacts
  obtain ⟨t, ht⟩ := queueRun_inv (queueRun_perform (.init readyTable) hs)
  exact ⟨s.1, hcol, hmin, removal_terminates ht.rep.tree hmin⟩

end Xv6Cfs
