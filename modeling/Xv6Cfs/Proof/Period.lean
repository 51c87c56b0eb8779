import Xv6Cfs.Proof.QueueRuns

/-!
# The period and the slices it gives

`retrieveProcess` writes the period when it meets a long queue, and nothing ever
sets it back. The slice of a retrieved process is computed from the period, so it
depends on the present queue alone exactly as long as that history makes no
difference.
-/

namespace Xv6Cfs

open RedBlack StableQueue

/-- The last call is the long retrieval, or it was one of those before. -/
theorem longRetrieval_append {calls : List (Call Int Slot)} {c : Call Int Slot} :
    LongRetrieval (calls ++ [c]) ↔ LongRetrieval calls ∨
      (∃ r, c = .retrieve r) ∧ latency.tdiv minGranularity < (pending calls).length := by
  constructor
  · rintro ⟨before, r, after, h, hlen⟩
    rcases List.eq_nil_or_concat after with rfl | ⟨after, x, rfl⟩
    · obtain ⟨rfl, hc⟩ := List.append_inj' h rfl
      exact .inr ⟨⟨r, by simpa using hc⟩, hlen⟩
    · have h' : calls ++ [c] = (before ++ .retrieve r :: after) ++ [x] := by simpa using h
      obtain ⟨rfl, -⟩ := List.append_inj' h' rfl
      exact .inl ⟨before, r, after, rfl, hlen⟩
  · rintro (⟨before, r, after, rfl, hlen⟩ | ⟨⟨r, rfl⟩, hlen⟩)
    · exact ⟨before, r, after ++ [c], by simp, hlen⟩
    · exact ⟨calls, r, [], rfl, hlen⟩

theorem longRetrieval_insert {calls : List (Call Int Slot)} {k : Int} {p : Slot} :
    LongRetrieval (calls ++ [.insert k p]) ↔ LongRetrieval calls := by
  simp [longRetrieval_append]

theorem longRetrieval_retrieve {calls : List (Call Int Slot)} {r : Option Slot} :
    LongRetrieval (calls ++ [.retrieve r]) ↔
      LongRetrieval calls ∨ latency.tdiv minGranularity < (pending calls).length := by
  simp [longRetrieval_append]

/--
What the period says about the past: it is the latency as long as no retrieval
has met a long queue, and when a queue that was long has shrunk again it is what the
last long retrieval has set.
-/
structure PeriodInv (m : Mem) (calls : List (Call Int Slot)) : Prop where
  fresh : ¬LongRetrieval calls → m.tree.period = latency
  grown : LongRetrieval calls →
    m.tree.count ≤ latency.tdiv minGranularity → m.tree.period = latency + minGranularity

theorem RunInv.count {m : Mem} {calls : List (Call Int Slot)} {t : ColorTree Slot}
    (h : RunInv m calls t) : m.tree.count = (pending calls).length := by
  rw [h.rep.count, h.pending_perm.length_eq]

theorem PeriodInv.insert {m m' : Mem} {calls : List (Call Int Slot)} {t t' : ColorTree Slot}
    {p : Slot} {w : Int} (h : PeriodInv m calls) (ht : RunInv m calls t)
    (hi : Inserted m t p w m' t') :
    PeriodInv m' (calls ++ [.insert (m.proc p).virtualRuntime p]) := by
  have hcount := (ht.insert hi).count
  rw [pending_insert, List.length_cons] at hcount
  refine ⟨fun hno => ?_, fun hlong hle => ?_⟩
  · rw [hi.period, h.fresh fun e => hno (longRetrieval_insert.mpr e)]
  · rw [hi.period]
    exact h.grown (longRetrieval_insert.mp hlong) (by rw [ht.count]; omega)

theorem PeriodInv.retrieve {m m' : Mem} {calls : List (Call Int Slot)} {t t' : ColorTree Slot}
    {p : Slot} (h : PeriodInv m calls) (ht : RunInv m calls t) (hr : Retrieved m t p m' t') :
    PeriodInv m' (calls ++ [.retrieve (some p)]) := by
  have hcount : m'.tree.count = m.tree.count - 1 := by
    rw [hr.rep.count, ht.rep.count, hr.toList]
    simp
  have hlen := ht.count
  have hperiod : m'.tree.period = if m.tree.count > 16 then m.tree.count * 2 else m.tree.period :=
    hr.period
  constructor
  · intro hno
    rw [longRetrieval_retrieve, latency_div, not_or] at hno
    rw [hperiod, if_neg (by omega)]
    exact h.fresh hno.1
  · intro hlong hle
    rw [longRetrieval_retrieve, latency_div] at hlong
    rw [latency_div] at hle
    rw [hperiod]
    split
    · rw [latency_eq, minGranularity_eq]; omega
    · exact h.grown (hlong.resolve_right (by omega)) (by rw [latency_div]; omega)

theorem PeriodInv.retrieve_none {m : Mem} {calls : List (Call Int Slot)} {t : ColorTree Slot}
    (h : PeriodInv m calls) (ht : RunInv m calls t) (hnil : t.toList = []) :
    PeriodInv m (calls ++ [.retrieve none]) := by
  have hlen : (pending calls).length = 0 := by rw [← ht.pending_perm.length_eq, hnil]; rfl
  have hiff : LongRetrieval (calls ++ [.retrieve none]) ↔ LongRetrieval calls := by
    simp [longRetrieval_retrieve, hlen, latency_div]
  exact ⟨fun hno => h.fresh fun e => hno (hiff.mpr e), fun hl => h.grown (hiff.mp hl)⟩

/-- **The period over a run.** -/
theorem periodInv_run {m : Mem} {calls : List (Call Int Slot)} (h : QueueRun m calls) :
    PeriodInv m calls := by
  induction h with
  | init m => exact ⟨fun _ => rfl, by rintro ⟨before, r, after, h, -⟩; simp at h⟩
  | insert hm hp hw hrun ih =>
      obtain ⟨t, ht⟩ := queueRun_inv hm
      obtain ⟨m'', t', hrun', hins⟩ := insertProcess_spec (fun _ => .ok _) ht.rep ht.unlocked
        (ht.insertable hp) rfl hw
      rw [hrun', Except.ok.injEq] at hrun
      subst hrun
      exact ih.insert ht hins
  | retrieve hm hrun ih =>
      obtain ⟨t, ht⟩ := queueRun_inv hm
      obtain ⟨hnil, rfl, rfl⟩ | ⟨p, t', hp, rfl, hret⟩ := ht.retrieve_cases hrun
      · exact ih.retrieve_none ht hnil
      · exact ih.retrieve ht hret
  | others hm htree hproc ih =>
      refine ⟨fun h => by rw [htree, ih.fresh h], fun h hle => ?_⟩
      rw [htree] at hle ⊢
      exact ih.grown h hle

/-! ## The slice -/

/-- Two more ticks in the period make no difference to the quotient when they fit below it. -/
theorem add_mul_div_eq_iff {a d w W : Int} (hd : 0 ≤ d * w) (hW : 0 < W) :
    (a + d) * w / W = a * w / W ↔ a * w % W + d * w < W := by
  rw [add_mul]
  have h := Int.mul_ediv_add_emod (a * w) W
  have h1 := Int.emod_nonneg (a * w) hW.ne'
  have h2 := Int.emod_lt_of_pos (a * w) hW
  have hsplit : a * w + d * w = (a * w % W + d * w) + W * (a * w / W) := by omega
  rw [hsplit, Int.add_mul_ediv_left _ _ hW.ne']
  constructor
  · intro e
    have : (a * w % W + d * w) / W = 0 := by omega
    simpa using (Int.ediv_lt_iff_lt_mul (b := 1) hW).mp (by omega)
  · intro hlt
    rw [Int.ediv_eq_zero_of_lt (by omega) hlt]
    omega

theorem QueueRep.weight_le {m : Mem} {t : ColorTree Slot} (h : QueueRep m t) {p : Slot}
    (hp : p ∈ t.toList) : (m.proc p).weightVal ≤ m.tree.treeWeight := by
  rw [h.treeWeight]
  refine List.single_le_sum (fun x hx => ?_) _ (List.mem_map_of_mem hp)
  obtain ⟨q, hq, rfl⟩ := List.mem_map.mp hx
  exact (h.weight_pos q hq).le

/-- The period a retrieval uses, in terms of the queue and of the past. -/
theorem PeriodInv.nextPeriod_eq {m : Mem} {calls : List (Call Int Slot)} (h : PeriodInv m calls) :
    (latency.tdiv minGranularity < m.tree.count →
      nextPeriod m.tree.count m.tree.period = m.tree.count * minGranularity) ∧
    (m.tree.count ≤ latency.tdiv minGranularity → ¬LongRetrieval calls →
      nextPeriod m.tree.count m.tree.period = latency) ∧
    (m.tree.count ≤ latency.tdiv minGranularity → LongRetrieval calls →
      nextPeriod m.tree.count m.tree.period = latency + minGranularity) := by
  unfold nextPeriod
  refine ⟨fun hlt => by rw [if_pos hlt], fun hle hno => ?_, fun hle hlong => ?_⟩
  · rw [if_neg (by omega), h.fresh hno]
  · rw [if_neg (by omega), h.grown hlong hle]

/-- A slice as a quotient rounded down. -/
theorem Retrieved.maxExecutionTime {m m' : Mem} {t t' : ColorTree Slot} {p : Slot}
    (h : Retrieved m t p m' t') (hP : 0 ≤ nextPeriod m.tree.count m.tree.period)
    (hw : 0 ≤ (m.proc p).weightVal) :
    (m'.proc p).maxExecutionTime =
      nextPeriod m.tree.count m.tree.period * (m.proc p).weightVal / m.tree.treeWeight := by
  rw [h.slice, Int.tdiv_eq_ediv_of_nonneg (Int.mul_nonneg hP hw)]

/--
**When a slice depends on the present queue alone.** The slice of a retrieved
process is the share of its weight in the period due to the present queue exactly
when no retrieval before met a long queue, or the queue is long now, or the two
ticks that a long queue leaves behind do not reach the quotient.
-/
theorem slice_eq_fairSlice_iff {m m' : Mem} {calls : List (Call Int Slot)} {p : Slot}
    (h : QueueRun m calls) (hr : retrieveProcess m = .ok (m', some p)) :
    (m'.proc p).maxExecutionTime = fairSlice m p ↔
      ¬LongRetrieval calls ∨ latency.tdiv minGranularity < (queue m).length ∨
        latency * (m.proc p).weightVal % queuedWeight m + minGranularity * (m.proc p).weightVal
          < queuedWeight m := by
  obtain ⟨t, ht⟩ := queueRun_inv h
  obtain ⟨-, hno, -⟩ | ⟨q, t', hp, hq, hret⟩ := ht.retrieve_cases hr
  · cases hno
  obtain rfl : p = q := Option.some.inj hq
  have hmem := List.mem_of_head? hp
  have hpos := ht.rep.weight_pos p hmem
  have hW := hpos.trans_le (ht.rep.weight_le hmem)
  obtain ⟨hlong, hfresh, hgrown⟩ := (periodInv_run h).nextPeriod_eq
  have hcount : m.tree.count = ((queue m).length : Int) := by rw [ht.rep.queue_eq, ht.rep.count]
  rw [latency_div] at hlong hfresh hgrown ⊢
  have hP : 0 ≤ nextPeriod m.tree.count m.tree.period := by
    rcases lt_or_ge 16 m.tree.count with hlt | hle
    · rw [hlong hlt, minGranularity_eq]; omega
    · by_cases hl : LongRetrieval calls
      · rw [hgrown hle hl]; decide
      · rw [hfresh hle hl]; decide
  rw [hret.maxExecutionTime hP hpos.le, fairSlice, ht.rep.queuedWeight_eq, ← hcount]
  rcases lt_or_ge 16 m.tree.count with hlt | hle
  · have hmax : max latency (m.tree.count * minGranularity) = m.tree.count * minGranularity :=
      max_eq_right (by rw [latency_eq, minGranularity_eq]; omega)
    simp [hlong hlt, hmax, hlt]
  · have hmax : max latency (m.tree.count * minGranularity) = latency :=
      max_eq_left (by rw [latency_eq, minGranularity_eq]; omega)
    rw [hmax]
    by_cases hl : LongRetrieval calls
    · rw [hgrown hle hl, add_mul_div_eq_iff (mul_nonneg (by decide) hpos.le) hW]
      simp [hl, not_lt.mpr hle]
    · simp [hfresh hle hl, hl]

/-! ## A queue that was long -/

/-- Seventeen processes of the default weight are queued, and all but one retrieved. -/
def shrinking : List Request :=
  ((List.finRange NPROC).take 17).map (.insert · 819) ++ List.replicate 16 .retrieve

/-- The slice of the last process, and the slice it is due. -/
def shrinkingSlices : Option (Int × Int) :=
  (shrinking.foldlM perform (rbinit readyTable, [])).bind fun s =>
    match retrieveProcess s.1 with
    | .ok (m', some p) => some ((m'.proc p).maxExecutionTime, fairSlice s.1 p)
    | _ => none

theorem shrinkingSlices_eq : shrinkingSlices = some (34, 32) := by decide +kernel

theorem shrinking_run : ∃ m calls m' p, QueueRun m calls ∧ retrieveProcess m = .ok (m', some p) ∧
    (m'.proc p).maxExecutionTime = 34 ∧ fairSlice m p = 32 := by
  obtain ⟨s, hs, h⟩ := Option.bind_eq_some_iff.mp shrinkingSlices_eq
  have hrun := queueRun_perform (.init readyTable) hs
  split at h
  · rename_i m' p hret
    have h' := Option.some.inj h
    exact ⟨s.1, s.2, m', p, hrun, hret, congrArg Prod.fst h', congrArg Prod.snd h'⟩
  · cases h

/-- The slice is not a function of the present queue. -/
theorem not_slice_eq_fairSlice :
    ¬∀ (m m' : Mem) (calls : List (Call Int Slot)) (p : Slot), QueueRun m calls →
      retrieveProcess m = .ok (m', some p) → (m'.proc p).maxExecutionTime = fairSlice m p := by
  intro h
  obtain ⟨m, calls, m', p, hrun, hret, h34, h32⟩ := shrinking_run
  have := h m m' calls p hrun hret
  rw [h34, h32] at this
  exact absurd this (by decide)

/-- In that run a long retrieval has happened, and the two ticks matter. -/
theorem slice_eq_fairSlice_iff_shrinking : ∃ m calls p, QueueRun m calls ∧
    ¬(¬LongRetrieval calls ∨ latency.tdiv minGranularity < (queue m).length ∨
      latency * (m.proc p).weightVal % queuedWeight m + minGranularity * (m.proc p).weightVal
        < queuedWeight m) := by
  obtain ⟨m, calls, m', p, hrun, hret, h34, h32⟩ := shrinking_run
  refine ⟨m, calls, p, hrun, fun hcond => ?_⟩
  have := (slice_eq_fairSlice_iff hrun hret).mpr hcond
  rw [h34, h32] at this
  exact absurd this (by decide)

end Xv6Cfs
