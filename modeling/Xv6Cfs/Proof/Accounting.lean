import Xv6Cfs.Proof.QueueRuns

/-!
# The counters of the run queue

With weights in `1..1024` the counters are exact in every state of a run, the
period stays within its bounds, and the arithmetic of both operations stays within
the range of an `int`.
-/

namespace Xv6Cfs

open RedBlack StableQueue

/-- The invariant: a queue, its lock free, its weights and its period within bounds. -/
structure Accounted (m : Mem) (t : ColorTree Slot) : Prop where
  rep : QueueRep m t
  unlocked : m.tree.locked = false
  weight_le : ∀ p ∈ t.toList, (m.proc p).weightVal ≤ 1024
  period_ge : 32 ≤ m.tree.period
  period_le : m.tree.period ≤ 128

theorem accounted_init (m : Mem) : Accounted (rbinit m) .nil :=
  ⟨queueRep_rbinit m, rfl, by simp, show (32 : Int) ≤ latency by decide,
    show latency ≤ 128 by decide⟩

theorem Accounted.insert {m m' : Mem} {t t' : ColorTree Slot} {p : Slot} {w : Int}
    (h : Accounted m t) (hw : w ≤ 1024) (hi : Inserted m t p w m' t') : Accounted m' t' := by
  refine ⟨hi.rep, hi.locked.trans h.unlocked, fun q hq => ?_, ?_, ?_⟩
  · rw [hi.weightVal]
    split
    · exact hw
    · rename_i hne
      rw [hi.toList] at hq
      exact h.weight_le q ((mem_insertBy.mp hq).resolve_left hne)
  · rw [hi.period]; exact h.period_ge
  · rw [hi.period]; exact h.period_le

theorem Accounted.count_le {m : Mem} {t : ColorTree Slot} (h : Accounted m t) :
    0 ≤ m.tree.count ∧ m.tree.count ≤ 64 := by
  have hle := length_le_NPROC h.rep.denotes.nodup
  rw [NPROC] at hle
  rw [h.rep.count]
  omega

theorem Accounted.nextPeriod_bounds {m : Mem} {t : ColorTree Slot} (h : Accounted m t) :
    32 ≤ nextPeriod m.tree.count m.tree.period ∧
      nextPeriod m.tree.count m.tree.period ≤ 128 := by
  have h1 := h.period_ge
  have h2 := h.period_le
  have h3 := h.count_le
  rw [nextPeriod, latency_div, minGranularity_eq]
  split <;> omega

theorem Accounted.retrieve {m m' : Mem} {t t' : ColorTree Slot} {p : Slot}
    (h : Accounted m t) (hr : Retrieved m t p m' t') : Accounted m' t' := by
  refine ⟨hr.rep, hr.locked.trans h.unlocked, fun q hq => ?_, ?_, ?_⟩
  · rw [hr.weightVal]
    exact h.weight_le q (by rw [hr.toList]; simp [hq])
  · rw [hr.period]; exact h.nextPeriod_bounds.1
  · rw [hr.period]; exact h.nextPeriod_bounds.2

theorem Accounted.others {m m' : Mem} {t : ColorTree Slot} (h : Accounted m t)
    (htree : m'.tree = m.tree) (hproc : ∀ p ∈ t.toList, SameQueued (m'.proc p) (m.proc p)) :
    Accounted m' t := by
  refine ⟨h.rep.congr (by rw [htree]) hproc, by rw [htree]; exact h.unlocked, fun q hq => ?_, ?_,
    ?_⟩
  · rw [(hproc q hq).weightVal]
    exact h.weight_le q hq
  · rw [htree]; exact h.period_ge
  · rw [htree]; exact h.period_le

/-- What a retrieval comes to. -/
theorem Accounted.retrieve_cases {m m' : Mem} {t : ColorTree Slot} {r : Option Slot}
    (h : Accounted m t) (hr : retrieveProcess m = .ok (m', r)) :
    (t.toList = [] ∧ m' = m) ∨ ∃ p t', t.toList.head? = some p ∧ Retrieved m t p m' t' := by
  cases hp : t.toList.head? with
  | none =>
      have ht : t.toList = [] := List.head?_eq_none_iff.mp hp
      rw [retrieveProcess_empty h.rep h.unlocked ht] at hr
      simp only [Except.ok.injEq, Prod.mk.injEq] at hr
      exact .inl ⟨ht, hr.1.symm⟩
  | some p =>
      obtain ⟨m'', t', hrun, hret⟩ := retrieveProcess_spec h.rep h.unlocked hp
      rw [hrun] at hr
      simp only [Except.ok.injEq, Prod.mk.injEq] at hr
      obtain ⟨rfl, -⟩ := hr
      exact .inr ⟨p, t', rfl, hret⟩

/-- **Every run with such weights keeps the invariant.** -/
theorem accounted_run {m : Mem} (h : WeighedRun m) : ∃ t, Accounted m t := by
  induction h with
  | init m => exact ⟨.nil, accounted_init m⟩
  | insert _ hp hlo hhi hrun ih =>
      obtain ⟨t, ht⟩ := ih
      rw [ht.rep.queue_eq] at hp
      obtain ⟨m'', t', hrun', hins⟩ := insertProcess_spec (fun _ => .ok _) ht.rep ht.unlocked hp rfl
        (show (0 : Int) < _ from hlo)
      rw [hrun', Except.ok.injEq] at hrun
      subst hrun
      exact ⟨t', ht.insert hhi hins⟩
  | retrieve _ hrun ih =>
      obtain ⟨t, ht⟩ := ih
      obtain ⟨-, rfl⟩ | ⟨p, t', -, hret⟩ := ht.retrieve_cases hrun
      · exact ⟨t, ht⟩
      · exact ⟨t', ht.retrieve hret⟩
  | others _ htree hproc ih =>
      obtain ⟨t, ht⟩ := ih
      exact ⟨t, ht.others htree fun p hp => hproc p (ht.rep.queue_eq ▸ hp)⟩

/-- No more than 64 weights of at most 1024 each. -/
theorem Accounted.treeWeight_le {m : Mem} {t : ColorTree Slot} (h : Accounted m t) :
    0 ≤ m.tree.treeWeight ∧ m.tree.treeWeight ≤ 65536 := by
  have hlen := h.count_le
  rw [h.rep.count] at hlen
  have hnonneg : 0 ≤ (t.toList.map fun p => (m.proc p).weightVal).sum := by
    refine List.sum_nonneg fun x hx => ?_
    obtain ⟨q, hq, rfl⟩ := List.mem_map.mp hx
    exact (h.rep.weight_pos q hq).le
  have hsum : (t.toList.map fun p => (m.proc p).weightVal).sum ≤ t.toList.length • (1024 : Int) := by
    have hlength : (t.toList.map fun p => (m.proc p).weightVal).length = t.toList.length :=
      List.length_map _
    rw [← hlength]
    refine List.sum_le_card_nsmul _ _ fun x hx => ?_
    obtain ⟨q, hq, rfl⟩ := List.mem_map.mp hx
    exact h.weight_le q hq
  rw [h.rep.treeWeight]
  rw [nsmul_eq_mul] at hsum
  omega

theorem Accounted.exactCounters {m : Mem} {t : ColorTree Slot} (h : Accounted m t) :
    ExactCounters m where
  nodup := by rw [h.rep.queue_eq]; exact h.rep.denotes.nodup
  count := by rw [h.rep.queue_eq]; exact h.rep.count
  treeWeight := h.rep.queuedWeight_eq.symm
  treeWeight_nonneg := h.treeWeight_le.1
  period_ge := h.period_ge
  period_le := h.period_le

/-- A slice is no longer than the period. -/
theorem Accounted.safeRetrieval {m : Mem} {t : ColorTree Slot} {p : Slot} (h : Accounted m t)
    (hp : t.toList.head? = some p) : ∃ m', SafeRetrieval m m' p := by
  obtain ⟨m', t', hrun, hret⟩ := retrieveProcess_spec h.rep h.unlocked hp
  have hmem : p ∈ t.toList := List.mem_of_head? hp
  have hpos := h.rep.weight_pos p hmem
  have hle := h.weight_le p hmem
  have hperiod := h.nextPeriod_bounds
  have hcount := h.count_le
  have htree := h.treeWeight_le
  have hpart : (m.proc p).weightVal ≤ m.tree.treeWeight := by
    have hrest := (h.retrieve hret).treeWeight_le.1
    have hsum : m.tree.treeWeight = (m.proc p).weightVal + m'.tree.treeWeight := by
      rw [h.rep.treeWeight, hret.toList, hret.rep.treeWeight, List.map_cons, List.sum_cons]
      rw [List.map_congr_left fun q _ => hret.weightVal q]
    omega
  have hprod : 0 ≤ nextPeriod m.tree.count m.tree.period * (m.proc p).weightVal :=
    Int.mul_nonneg (by omega) hpos.le
  have hslice : (m'.proc p).maxExecutionTime =
      nextPeriod m.tree.count m.tree.period * (m.proc p).weightVal / m.tree.treeWeight := by
    rw [hret.slice, Int.tdiv_eq_ediv_of_nonneg hprod]
  refine ⟨m', hrun, hpos, hpart, ?_, ?_, ?_, ?_, ?_, ?_⟩
  · rw [hslice]
    exact Int.ediv_nonneg hprod htree.1
  · rw [hslice, hret.period]
    refine Int.ediv_le_of_le_mul (by omega) ?_
    exact Int.mul_le_mul_of_nonneg_left hpart (by omega)
  · rw [IsInt32, minGranularity_eq]
    omega
  · have hmul : nextPeriod m.tree.count m.tree.period * (m.proc p).weightVal ≤ 128 * 1024 :=
      Int.mul_le_mul hperiod.2 hle hpos.le (by decide)
    rw [hret.period, IsInt32]
    omega
  · rw [IsInt32]
    omega
  · rw [IsInt32]
    omega

/--
**The accounting of the queue is exact, and its arithmetic safe.** In every state of
a run the counters agree with the queue and the period is within bounds. The next
retrieval divides by at least the weight of the process it retrieves, gives a slice
between 0 and the period, and leaves the range of `int` nowhere; nor does the next
insertion.
-/
theorem accounting_safe {m : Mem} (h : WeighedRun m) :
    ExactCounters m ∧ (∀ p, (queue m).head? = some p → ∃ m', SafeRetrieval m m' p) ∧
      ∀ w, 1 ≤ w → w ≤ 1024 → IsInt32 (m.tree.count + 1) ∧ IsInt32 (m.tree.treeWeight + w) := by
  obtain ⟨t, ht⟩ := accounted_run h
  refine ⟨ht.exactCounters, fun p hp => ht.safeRetrieval (ht.rep.queue_eq ▸ hp), fun w hlo hhi => ?_⟩
  have hcount := ht.count_le
  have htree := ht.treeWeight_le
  simp only [IsInt32]
  omega

/-- Such calls with weights in the range make such a run. -/
theorem weighedRun_perform {s s' : Mem × List (Call Int Slot)} {reqs : List Request}
    (h : WeighedRun s.1) (hs : reqs.foldlM perform s = some s') (hq : QueueRun s.1 s.2)
    (hw : ∀ p w, .insert p w ∈ reqs → 1 ≤ w ∧ w ≤ 1024) : WeighedRun s'.1 := by
  induction reqs generalizing s with
  | nil =>
      obtain rfl : s = s' := by simpa using hs
      exact h
  | cons req reqs ih =>
      rw [List.foldlM_cons] at hs
      obtain ⟨s₁, h₁, hs⟩ := Option.bind_eq_some_iff.mp hs
      have hone : [req].foldlM perform s = some s₁ := by simp [h₁]
      have hq₁ := queueRun_perform hq hone
      refine ih ?_ hs hq₁ fun p w hp => hw p w (List.mem_cons_of_mem _ hp)
      cases req with
      | insert p w =>
          simp only [perform] at h₁
          split at h₁
          · rename_i hp
            split at h₁
            · rename_i m' hrun
              obtain rfl := Option.some.inj h₁
              obtain ⟨t, ht⟩ := queueRun_inv hq
              have hins := ht.insertable hp.1
              rw [← ht.rep.queue_eq] at hins
              obtain ⟨hlo, hhi⟩ := hw p w List.mem_cons_self
              exact .insert h hins hlo hhi hrun
            · cases h₁
          · cases h₁
      | retrieve =>
          simp only [perform] at h₁
          split at h₁
          · rename_i m' r hrun
            obtain rfl := Option.some.inj h₁
            exact .retrieve h hrun
          · cases h₁

/-- Four insertions and a retrieval. -/
def fewRequests : List Request :=
  [.insert 0 819, .insert 1 1024, .insert 2 1, .insert 3 819, .retrieve]

theorem fewRequests_spec : (fewRequests.foldlM perform (rbinit readyTable, [])).any
    (fun s => queue s.1 = [1, 2, 3] ∧ s.1.tree.treeWeight = 1844) := by
  decide +kernel

/-- So it is of three processes of different weights. -/
theorem accounting_safe_three : ∃ m, WeighedRun m ∧ queue m = [1, 2, 3] ∧
    m.tree.treeWeight = 1844 ∧ ExactCounters m ∧ (∃ m', SafeRetrieval m m' 1) ∧
    ∀ w, 1 ≤ w → w ≤ 1024 → IsInt32 (m.tree.count + 1) ∧ IsInt32 (m.tree.treeWeight + w) := by
  obtain ⟨s, hs, hspec⟩ := (Option.any_eq_true _ _).mp fewRequests_spec
  obtain ⟨hqueue, hweight⟩ := of_decide_eq_true hspec
  have hw : ∀ p w, .insert p w ∈ fewRequests → 1 ≤ w ∧ w ≤ 1024 := by
    intro p w hp
    simp only [fewRequests, List.mem_cons, Request.insert.injEq, reduceCtorEq, List.not_mem_nil,
      or_false] at hp
    omega
  have hrun := weighedRun_perform (.init readyTable) hs (.init readyTable) hw
  obtain ⟨hexact, hret, hins⟩ := accounting_safe hrun
  exact ⟨s.1, hrun, hqueue, hweight, hexact, hret 1 (by rw [hqueue]; rfl), hins⟩

end Xv6Cfs
