import Xv6Cfs.Kernel.OneCpu
import Xv6Cfs.Proof.QueueRuns

/-!
# Fairness on one CPU

With a fixed set of processes the queue is always complete when the scheduler
retrieves from it. The process it takes has the least key, and it is charged at
most its slice, or the minimum granularity, before it is folded back. So no
process ever gets ahead of another by more than that.
-/

namespace Xv6Cfs

open RedBlack StableQueue

/-- The machine starts idle, with a valid queue of processes under one key. -/
structure FairStart (w : Slot → Int) (s : OneCpu) : Prop where
  valid : ∃ t, QueueRep s.mem t
  unlocked : s.mem.tree.locked = false
  idle : s.running = none
  sameKey : ∀ i ∈ queue s.mem, ∀ j ∈ queue s.mem,
    (s.mem.proc i).virtualRuntime = (s.mem.proc j).virtualRuntime
  fresh : ∀ i ∈ queue s.mem, (s.mem.proc i).currentRuntime = 0
  weight : ∀ i ∈ queue s.mem, (s.mem.proc i).weightVal = w i

section

variable {w : Slot → Int} {l : List Slot} {P : Int}

/-- The sum of the weights of the processes `l`. -/
def totalWeight (w : Slot → Int) (l : List Slot) : Int := (l.map w).sum

/-- The most a process is charged in one go. -/
def cap (w : Slot → Int) (l : List Slot) (P : Int) (p : Slot) : Int :=
  max minGranularity (P * w p / totalWeight w l)

theorem two_le_cap (p : Slot) : 2 ≤ cap w l P p := le_max_left _ _

/-- What holds of the process on the CPU, with the queue `t` behind it. -/
structure Running (w : Slot → Int) (l : List Slot) (P : Int) (s : OneCpu) (t : ColorTree Slot)
    (p : Slot) : Prop where
  left : (s.mem.proc p).left = none
  right : (s.mem.proc p).right = none
  /-- It was the minimum, and the queue has not changed since. -/
  least : ∀ j ∈ t.toList, (s.mem.proc p).virtualRuntime ≤ (s.mem.proc j).virtualRuntime
  slice : (s.mem.proc p).maxExecutionTime = (P * w p).tdiv (totalWeight w l)
  le_cap : (s.mem.proc p).currentRuntime ≤ cap w l P p
  /-- Only between the charge and the `yield` behind it may the cap be reached. -/
  lt_cap : (∀ timer, s.place p ≠ .charged timer) → (s.mem.proc p).currentRuntime < cap w l P p

/-- The invariant of a run with the processes `l` and the period `P`, the queue being `t`. -/
structure FairInv (w : Slot → Int) (l : List Slot) (P : Int) (s : OneCpu) (t : ColorTree Slot) :
    Prop where
  rep : QueueRep s.mem t
  unlocked : s.mem.tree.locked = false
  members : (s.running.toList ++ t.toList).Perm l
  weight : ∀ p ∈ t.toList, (s.mem.proc p).weightVal = w p
  fresh : ∀ p ∈ t.toList, (s.mem.proc p).currentRuntime = 0
  period : nextPeriod l.length s.mem.tree.period = P
  spread : ∀ i ∈ l, ∀ j ∈ l, accrued s.mem i - accrued s.mem j ≤ cap w l P i
  running : ∀ p, s.running = some p → Running w l P s t p

/-- Rounding towards zero and rounding down agree above the granularity. -/
theorem cap_eq_max_tdiv {p : Slot} (hW : 0 < totalWeight w l) :
    cap w l P p = max minGranularity ((P * w p).tdiv (totalWeight w l)) := by
  unfold cap
  rcases le_or_gt 0 (P * w p) with h | h
  · rw [Int.tdiv_eq_ediv_of_nonneg h]
  · have h1 : P * w p / totalWeight w l ≤ 0 := Int.ediv_nonpos_of_nonpos_of_neg h.le hW
    have h2 : (P * w p).tdiv (totalWeight w l) ≤ 0 := by
      have := Int.tdiv_nonneg (show 0 ≤ -(P * w p) by omega) hW.le
      rw [Int.neg_tdiv] at this
      omega
    have h0 : 0 ≤ minGranularity := by decide
    rw [max_eq_left (h1.trans h0), max_eq_left (h2.trans h0)]

/-- A process that `checkPreemption` leaves alone has not reached its cap. -/
theorem lt_cap_of_not_preempted {m : Mem} {p : Slot} {q : Option Slot}
    (hW : 0 < totalWeight w l)
    (hslice : (m.proc p).maxExecutionTime = (P * w p).tdiv (totalWeight w l))
    (h : checkPreemption m p q = false) : (m.proc p).currentRuntime < cap w l P p := by
  rw [cap_eq_max_tdiv hW, ← hslice]
  unfold checkPreemption at h
  by_cases hc : (m.proc p).currentRuntime ≥ (m.proc p).maxExecutionTime ∧
      (m.proc p).currentRuntime ≥ minGranularity
  · simp [hc] at h
  · rw [lt_max_iff]
    omega

/-! ## The steps -/

theorem totalWeight_pos {p : Slot} (hw : ∀ i ∈ l, 0 < w i) (hp : p ∈ l) :
    0 < totalWeight w l := by
  refine (hw p hp).trans_le (List.single_le_sum (fun x hx => ?_) _ (List.mem_map_of_mem hp))
  obtain ⟨q, hq, rfl⟩ := List.mem_map.mp hx
  exact (hw q hq).le

/-- The processes are the one on the CPU and the queued ones. -/
theorem FairInv.mem_iff {s : OneCpu} {t : ColorTree Slot} {p : Slot} (h : FairInv w l P s t)
    (hp : s.running = some p) (i : Slot) : i ∈ l ↔ i = p ∨ i ∈ t.toList := by
  rw [← h.members.mem_iff, hp]
  simp

theorem nextPeriod_idem (n d : Int) : nextPeriod n (nextPeriod n d) = nextPeriod n d := by
  unfold nextPeriod
  split <;> rfl

/-- Dispatching: the least key comes off a complete queue. -/
theorem FairInv.dispatch {s : OneCpu} {t t' : ColorTree Slot} {m : Mem} {p : Slot}
    (h : FairInv w l P s t) (hidle : s.running = none) (hr : Retrieved s.mem t p m t') :
    FairInv w l P { s with mem := dispatch m p, running := some p } t' := by
  have hmem : p ∈ t.toList := by rw [hr.toList]; simp
  have hnd : (p :: t'.toList).Nodup := hr.toList ▸ h.rep.denotes.nodup
  have hp : p ∉ t'.toList := (List.nodup_cons.mp hnd).1
  have hold : ∀ q ∈ t'.toList, q ∈ t.toList := fun q hq => by rw [hr.toList]; simp [hq]
  have hperm : t.toList.Perm l := by simpa [hidle] using h.members
  have hvr : ∀ q, ((Xv6Cfs.dispatch m p).proc q).virtualRuntime = (s.mem.proc q).virtualRuntime :=
    fun q => by
      rw [← hr.virtualRuntime, Xv6Cfs.dispatch, Mem.modify_proc]
      split <;> simp_all
  have hcr : ∀ q, ((Xv6Cfs.dispatch m p).proc q).currentRuntime = (s.mem.proc q).currentRuntime :=
    fun q => by
      rw [← hr.currentRuntime, Xv6Cfs.dispatch, Mem.modify_proc]
      split <;> simp_all
  have hcount : s.mem.tree.count = l.length := by rw [h.rep.count, hperm.length_eq]
  have htotal : s.mem.tree.treeWeight = totalWeight w l := by
    rw [h.rep.treeWeight, List.map_congr_left h.weight, totalWeight, (hperm.map w).sum_eq]
  constructor
  case rep => exact hr.rep.modify hp (Proc.setState · .running)
  case unlocked => exact hr.locked.trans h.unlocked
  case members => simpa [hr.toList] using hperm
  case weight =>
    intro q hq
    simp only [Xv6Cfs.dispatch, Mem.modify_ne _ _ (fun e => hp (e ▸ hq) : q ≠ p)]
    rw [hr.weightVal, h.weight q (hold q hq)]
  case fresh => exact fun q hq => (hcr q).trans (h.fresh q (hold q hq))
  case period =>
    change nextPeriod _ m.tree.period = P
    rw [hr.period, hcount, nextPeriod_idem, h.period]
  case spread =>
    intro i hi j hj
    simp only [accrued, hvr, hcr]
    exact h.spread i hi j hj
  case running =>
    intro q hq
    obtain rfl : p = q := Option.some.inj hq
    have hzero : ((Xv6Cfs.dispatch m p).proc p).currentRuntime = 0 := (hcr p).trans (h.fresh p hmem)
    have htwo : 2 ≤ cap w l P p := two_le_cap p
    constructor
    case left => simpa [Xv6Cfs.dispatch] using hr.left
    case right => simpa [Xv6Cfs.dispatch] using hr.right
    case least =>
      intro j hj
      rw [hvr, hvr]
      have hs := h.rep.sorted
      rw [hr.toList] at hs
      exact hs.head_le (by simp [hj])
    case slice =>
      have e := hr.slice
      rw [hcount, h.period, h.weight p hmem, htotal] at e
      simpa [Xv6Cfs.dispatch] using e
    case le_cap => rw [hzero]; omega
    case lt_cap => intro _; rw [hzero]; omega

/-- The charge is the one step that widens the spread, and only up to the cap. -/
theorem FairInv.charge {s : OneCpu} {t : ColorTree Slot} {p : Slot} (timer : Bool)
    (h : FairInv w l P s t) (hnd : l.Nodup) (hrun : s.running = some p)
    (hplace : s.place p = .user) (hno : IsInt32 ((s.mem.proc p).currentRuntime + 1)) :
    FairInv w l P { s with
      mem := charge s.mem p, place := Function.update s.place p (.charged timer) } t := by
  have hr := h.running p hrun
  have hp : p ∉ t.toList := by
    have := h.members.nodup_iff.mpr hnd
    simp only [hrun, Option.toList_some, List.cons_append, List.nodup_cons] at this
    exact this.1
  have hself : (Xv6Cfs.charge s.mem p).proc p =
      (s.mem.proc p).setCurrentRuntime ((s.mem.proc p).currentRuntime + 1) := by
    rw [Xv6Cfs.charge, Mem.modify_self, int32_of_isInt32 hno]
  have hother : ∀ q, q ≠ p → (Xv6Cfs.charge s.mem p).proc q = s.mem.proc q :=
    fun q hq => Mem.modify_ne _ _ hq
  have hne : ∀ q ∈ t.toList, q ≠ p := fun q hq e => hp (e ▸ hq)
  have hlt := hr.lt_cap (by simp [hplace])
  have hacc : ∀ q, accrued (Xv6Cfs.charge s.mem p) q =
      if q = p then accrued s.mem p + 1 else accrued s.mem q := by
    intro q
    split
    · rename_i hq
      simp only [accrued, hq, hself, Proc.setCurrentRuntime_virtualRuntime,
        Proc.setCurrentRuntime_currentRuntime]
      omega
    · rename_i hq
      simp only [accrued, hother q hq]
  constructor
  case rep => exact h.rep.modify hp (Proc.setCurrentRuntime · _)
  case unlocked => exact h.unlocked
  case members => exact h.members
  case weight => exact fun q hq => by rw [hother q (hne q hq)]; exact h.weight q hq
  case fresh => exact fun q hq => by rw [hother q (hne q hq)]; exact h.fresh q hq
  case period => exact h.period
  case spread =>
    intro i hi j hj
    rw [hacc, hacc]
    have hspread := h.spread i hi j hj
    have htwo := two_le_cap (w := w) (l := l) (P := P) i
    by_cases hip : i = p
    · subst hip
      by_cases hji : j = i
      · rw [if_pos rfl, if_pos hji]; omega
      · -- the others stand where they stood at the dispatch, not below the least key
        have hjt : j ∈ t.toList := ((h.mem_iff hrun j).mp hj).resolve_left hji
        have hleast := hr.least j hjt
        have hfresh := h.fresh j hjt
        rw [if_pos rfl, if_neg hji]
        simp only [accrued] at *
        omega
    · rw [if_neg hip]
      split
      · rename_i hjp; subst hjp; omega
      · exact hspread
  case running =>
    intro q hq
    obtain rfl : p = q := Option.some.inj (hrun.symm.trans hq)
    constructor
    case left => rw [hself]; exact hr.left
    case right => rw [hself]; exact hr.right
    case least =>
      intro j hj
      rw [hself, hother j (hne j hj)]
      exact hr.least j hj
    case slice => rw [hself]; exact hr.slice
    case le_cap => rw [hself]; exact hlt
    case lt_cap => intro hno; exact absurd (Function.update_self ..) (hno timer)

/-- A `yield` that keeps the CPU finds the process below its cap. -/
theorem FairInv.yield_stay {s : OneCpu} {t : ColorTree Slot} {p : Slot} (place : Place)
    (h : FairInv w l P s t) (hw : ∀ i ∈ l, 0 < w i) (hrun : s.running = some p)
    (hcheck : checkPreemption s.mem p s.mem.tree.minvRuntime = false) :
    FairInv w l P (s.yielded p place (s.mem, false)) t := by
  have hr := h.running p hrun
  have hlt := lt_cap_of_not_preempted (totalWeight_pos hw ((h.mem_iff hrun p).mpr (.inl rfl)))
    hr.slice hcheck
  have hmembers := h.members
  rw [hrun] at hmembers
  refine ⟨h.rep, h.unlocked, hmembers, h.weight, h.fresh, h.period, h.spread, ?_⟩
  intro q hq
  obtain rfl : p = q := Option.some.inj hq
  exact ⟨hr.left, hr.right, hr.least, hr.slice, hr.le_cap, fun _ => hlt⟩

theorem fold_accrued {m : Mem} {p : Slot} (h : NoOverflow m p) (q : Slot) :
    accrued (foldRuntime m p) q = accrued m q := by
  unfold accrued foldRuntime
  rw [Mem.modify_proc]
  split
  · rename_i hq
    simp [hq, int32_of_isInt32 h]
  · rfl

/-- A `yield` that gives up the CPU completes the queue. -/
theorem FairInv.yield_switch {s : OneCpu} {t t' : ColorTree Slot} {m : Mem} {p : Slot}
    (place : Place) (h : FairInv w l P s t) (hrun : s.running = some p) (hp : p ∉ t.toList)
    (hno : NoOverflow s.mem p) (hi : Inserted (foldRuntime s.mem p) t p (w p) m t') :
    FairInv w l P (s.yielded p place (m, true)) t' := by
  have hold : ∀ q ∈ t.toList, (foldRuntime s.mem p).proc q = s.mem.proc q :=
    fun q hq => Mem.modify_ne _ _ fun e => hp (e ▸ hq)
  have hacc : ∀ q, accrued m q = accrued s.mem q := by
    intro q
    rw [← fold_accrued hno q]
    simp only [accrued, hi.virtualRuntime, hi.currentRuntime]
  have hperm : t'.toList.Perm (p :: t.toList) := hi.toList ▸ perm_insertBy _ _ _
  constructor
  case rep => exact hi.rep
  case unlocked => exact hi.locked.trans h.unlocked
  case members =>
    have := h.members
    rw [hrun] at this
    exact hperm.trans this
  case weight =>
    intro q hq
    change (m.proc q).weightVal = w q
    rw [hi.weightVal]
    split
    · rename_i e; rw [e]
    · rename_i hqp
      have hqt := (List.mem_cons.mp (hperm.mem_iff.mp hq)).resolve_left hqp
      rw [hold q hqt, h.weight q hqt]
  case fresh =>
    intro q hq
    change (m.proc q).currentRuntime = 0
    rw [hi.currentRuntime]
    rcases List.mem_cons.mp (hperm.mem_iff.mp hq) with rfl | hqt
    · simp [foldRuntime]
    · rw [hold q hqt, h.fresh q hqt]
  case period =>
    change nextPeriod _ m.tree.period = P
    rw [hi.period]
    exact h.period
  case spread =>
    intro i hi' j hj
    change accrued m i - accrued m j ≤ _
    rw [hacc, hacc]
    exact h.spread i hi' j hj
  case running => intro q hq; cases hq

/-- What a `yield` comes to. -/
theorem FairInv.yield {s : OneCpu} {t : ColorTree Slot} {p : Slot} {r : Mem × Bool} (place : Place)
    (h : FairInv w l P s t) (hw : ∀ i ∈ l, 0 < w i) (hnd : l.Nodup) (hrun : s.running = some p)
    (hy : yield w s.mem p = .ok r) (hno : r.2 → NoOverflow s.mem p) :
    ∃ t', FairInv w l P (s.yielded p place r) t' := by
  unfold Xv6Cfs.yield at hy
  cases hc : checkPreemption s.mem p s.mem.tree.minvRuntime with
  | false =>
      rw [hc] at hy
      obtain rfl : (s.mem, false) = r := Except.ok.inj hy
      exact ⟨t, h.yield_stay place hw hrun hc⟩
  | true =>
      have hr := h.running p hrun
      have hp : p ∉ t.toList := by
        have := h.members.nodup_iff.mpr hnd
        simp only [hrun, Option.toList_some, List.cons_append, List.nodup_cons] at this
        exact this.1
      have hins : Insertable (foldRuntime s.mem p) t.toList p := by
        refine ⟨hp, ?_, ?_, ?_⟩
        · simp [foldRuntime]
        · simpa [foldRuntime] using hr.left
        · simpa [foldRuntime] using hr.right
      obtain ⟨m, t', hrun', hi⟩ := insertProcess_spec (fun _ => .ok (w p))
        (h.rep.modify hp Proc.fold) h.unlocked hins rfl (hw p ((h.mem_iff hrun p).mpr (.inl rfl)))
      rw [hc, if_pos rfl, show insertProcess _ (foldRuntime s.mem p) p = _ from hrun'] at hy
      obtain rfl : (m, true) = r := Except.ok.inj hy
      exact ⟨t', h.yield_switch place hrun hp (hno rfl) hi⟩

/-- **One step of the machine.** -/
theorem fairInv_step {s s' : OneCpu} {t : ColorTree Slot} (h : FairInv w l P s t)
    (hw : ∀ i ∈ l, 0 < w i) (hnd : l.Nodup) (hs : OneCpu.Step w s s') :
    ∃ t', FairInv w l P s' t' := by
  cases hs with
  | @dispatch m p hidle hret =>
      cases hp : t.toList.head? with
      | none =>
          rw [retrieveProcess_empty h.rep h.unlocked (List.head?_eq_none_iff.mp hp)] at hret
          cases hret
      | some q =>
          obtain ⟨m', t', hret', hr⟩ := retrieveProcess_spec h.rep h.unlocked hp
          rw [hret'] at hret
          obtain ⟨rfl, rfl⟩ : m' = m ∧ q = p := by simpa using hret
          exact ⟨t', h.dispatch hidle hr⟩
  | charge timer hrun hplace hno => exact ⟨t, h.charge timer hnd hrun hplace hno⟩
  | first hrun hplace hy hno => exact h.yield _ hw hnd hrun hy hno
  | second hrun hplace hy hno => exact h.yield _ hw hnd hrun hy hno
  | kernel hrun hy hno => exact h.yield _ hw hnd hrun hy hno

end

/-- The invariant at the start. -/
theorem fairInv_init {w : Slot → Int} {s : OneCpu} (h : FairStart w s) :
    ∃ t, FairInv w (queue s.mem) (epoch s.mem) s t := by
  obtain ⟨t, ht⟩ := h.valid
  have hq := ht.queue_eq
  refine ⟨t, ht, h.unlocked, by simp [h.idle, hq], ?_, ?_, ?_, ?_, ?_⟩
  · exact fun p hp => h.weight p (hq ▸ hp)
  · exact fun p hp => h.fresh p (hq ▸ hp)
  · unfold nextPeriod epoch
    rw [mul_comm]
  · intro i hi j hj
    have htwo := two_le_cap (w := w) (l := queue s.mem) (P := epoch s.mem) i
    simp only [accrued, h.sameKey i hi j hj, h.fresh i hi, h.fresh j hj]
    omega
  · intro p hp
    simp [h.idle] at hp

/--
**Fairness on one CPU.** However long the machine runs, no process has been
charged for more than another by more than the larger of the minimum granularity
and its own slice.
-/
theorem fairness {w : Slot → Int} {s₀ s : OneCpu} (h₀ : FairStart w s₀)
    (h : OneCpu.Run w s₀ s) {i j : Slot} (hi : i ∈ queue s₀.mem) (hj : j ∈ queue s₀.mem) :
    accrued s.mem i - accrued s.mem j ≤
      max minGranularity (epoch s₀.mem * w i / ((queue s₀.mem).map w).sum) := by
  obtain ⟨t₀, ht₀⟩ := h₀.valid
  have hnd : (queue s₀.mem).Nodup := by rw [ht₀.queue_eq]; exact ht₀.denotes.nodup
  have hw : ∀ i ∈ queue s₀.mem, 0 < w i := fun i hi => by
    rw [← h₀.weight i hi]
    exact ht₀.weight_pos i (ht₀.queue_eq ▸ hi)
  have hinv : ∃ t, FairInv w (queue s₀.mem) (epoch s₀.mem) s t := by
    induction h with
    | init => exact fairInv_init h₀
    | tail _ hs ih =>
        obtain ⟨t, ht⟩ := ih
        exact fairInv_step ht hw hnd hs
  obtain ⟨t, ht⟩ := hinv
  exact ht.spread i hi j hj

/-- A machine about to start with two processes of one weight. -/
def PairStart (m : Mem) : Prop :=
  queue m = [0, 1] ∧ m.tree.locked = false ∧ m.tree.period = latency ∧
    ∀ i ∈ [(0 : Slot), 1], (m.proc i).virtualRuntime = 0 ∧ (m.proc i).currentRuntime = 0 ∧
      (m.proc i).weightVal = 819

instance (m : Mem) : Decidable (PairStart m) := inferInstanceAs (Decidable (_ ∧ _))

theorem pairStart_perform : ∃ s, ([.insert 0 819, .insert 1 819] : List Request).foldlM perform
    (rbinit readyTable, []) = some s ∧ PairStart s.1 := by
  have h : ((([.insert 0 819, .insert 1 819] : List Request).foldlM perform
      (rbinit readyTable, [])).any fun s => decide (PairStart s.1)) = true := by decide +kernel
  obtain ⟨s, hs, h⟩ := (Option.any_eq_true _ _).mp h
  exact ⟨s, hs, of_decide_eq_true h⟩

theorem fairStart_pair : ∃ s, FairStart (fun _ => 819) s ∧ queue s.mem = [0, 1] ∧
    s.mem.tree.period = latency ∧ s.place = fun _ => .user := by
  obtain ⟨s, hs, hq, hl, hper, hval⟩ := pairStart_perform
  obtain ⟨t, ht⟩ := queueRun_inv (queueRun_perform (.init readyTable) hs)
  refine ⟨⟨s.1, none, fun _ => .user⟩, ⟨⟨t, ht.rep⟩, hl, rfl, ?_, ?_, ?_⟩, hq, hper, rfl⟩
  · intro i hi j hj
    rw [(hval i (hq ▸ hi)).1, (hval j (hq ▸ hj)).1]
  · exact fun i hi => (hval i (hq ▸ hi)).2.1
  · exact fun i hi => (hval i (hq ▸ hi)).2.2

/-- After a dispatch and a charge the two are still within their slice of sixteen ticks. -/
theorem fairness_pair : ∃ s₀ s s', FairStart (fun _ => 819) s₀ ∧
    OneCpu.Step (fun _ => 819) s₀ s ∧ OneCpu.Step (fun _ => 819) s s' ∧
    accrued s'.mem 0 - accrued s'.mem 1 ≤ 16 := by
  obtain ⟨s₀, h₀, hq, hper, hplace⟩ := fairStart_pair
  obtain ⟨t, ht⟩ := h₀.valid
  have hhead : t.toList.head? = some 0 := by rw [← ht.queue_eq, hq]; rfl
  obtain ⟨m, t', hret, hr⟩ := retrieveProcess_spec ht h₀.unlocked hhead
  have hzero : ((dispatch m 0).proc 0).currentRuntime = 0 := by
    simpa [dispatch, hr.currentRuntime] using h₀.fresh 0 (by simp [hq])
  have hs : OneCpu.Step (fun _ => 819) s₀ _ := .dispatch h₀.idle hret
  have hs' : OneCpu.Step (fun _ => 819) _ _ := .charge (s := _) (p := 0) false
    (show OneCpu.running { s₀ with mem := dispatch m 0, running := some 0 } = some 0 from rfl)
    (by simp [hplace]) (by rw [hzero]; decide)
  refine ⟨s₀, _, _, h₀, hs, hs', ?_⟩
  have := fairness h₀ (.tail (.tail .init hs) hs') (i := 0) (j := 1) (by simp [hq]) (by simp [hq])
  simpa [hq, epoch, hper, latency_div, latency_eq, minGranularity_eq] using this

end Xv6Cfs
