import Xv6Cfs.Proof.Charges
import Xv6Cfs.Proof.Serving

/-!
# Equal shares

The nice value of every process is 0, so that every queued process weighs the same, and a
slice is the period divided by the number of queued processes. The period is at least the
latency, and longer when there are many: no slice is shorter than the granularity.
-/

namespace Xv6Cfs

open RedBlack StableQueue

variable {n : Nat} {k k' : Kernel n} {ℓ ℓ' : Ledger n} {V : Thread n → View} {z : Bool}
  {P : Kernel n → Ledger n → Move n → Prop} {c : Fin n} {tr : ColorTree Slot} {σ : Slot → Sit n}
  {p q : Slot} {e : Env} {i : Instr} {r : Answer i}

/-! ## The share of a process -/

/-- All queued processes weigh the same, and the period is no shorter than it was at first. -/
structure Even (m : Mem) : Prop where
  weight : ∀ p ∈ queue m, (m.proc p).weightVal = 819
  period : latency ≤ m.tree.period

namespace Even

/-- The period shared among the queued processes. -/
theorem share {m m' : Mem} {t' : ColorTree Slot} (h : Even m) (hq : QueueRep m tr)
    (hr : Retrieved m tr p m' t') :
    (m'.proc p).maxExecutionTime = m'.tree.period / (queue m).length := by
  have hw : ∀ q ∈ tr.toList, (m.proc q).weightVal = 819 := by
    have := h.weight
    rwa [hq.queue_eq] at this
  have hsum : m.tree.treeWeight = tr.toList.length * 819 := by
    rw [hq.treeWeight, List.map_congr_left hw, List.map_const', List.sum_replicate, nsmul_eq_mul]
  have hpos : 0 ≤ nextPeriod m.tree.count m.tree.period := by
    have := h.period
    rw [latency_eq] at this
    unfold nextPeriod
    rw [hq.count, minGranularity_eq]
    split_ifs <;> omega
  rw [hr.slice, hr.period, hsum, hw p (by simp [hr.toList]),
    Int.tdiv_eq_ediv_of_nonneg (by omega), Int.mul_ediv_mul_of_pos_left _ _ (by decide),
    hq.queue_eq]

/-- No share is shorter than the granularity. -/
theorem granularity {m m' : Mem} {t' : ColorTree Slot} (h : Even m) (hq : QueueRep m tr)
    (hr : Retrieved m tr p m' t') : minGranularity ≤ (m'.proc p).maxExecutionTime := by
  have hlen : 0 < tr.toList.length := by simp [hr.toList]
  have hperiod := h.period
  rw [latency_eq] at hperiod
  rw [h.share hq hr, hr.period, hq.queue_eq, Int.le_ediv_iff_mul_le (by omega)]
  unfold nextPeriod
  rw [hq.count, latency_div, minGranularity_eq]
  split_ifs <;> omega

theorem insert {m m' : Mem} {t' : ColorTree Slot} (h : Even m) (hq : QueueRep m tr)
    (hi : Inserted m tr p 819 m' t') : Even m' where
  weight q hm := by
    rw [hi.rep.queue_eq, hi.toList, mem_insertBy] at hm
    rw [hi.weightVal]
    split_ifs with hqp
    · rfl
    · exact h.weight q (hq.queue_eq ▸ hm.resolve_left hqp)
  period := hi.period ▸ h.period

theorem retrieve {m m' : Mem} {t' : ColorTree Slot} (h : Even m) (hq : QueueRep m tr)
    (hr : Retrieved m tr p m' t') : Even m' where
  weight q hm := by
    rw [hr.rep.queue_eq] at hm
    rw [hr.weightVal]
    exact h.weight q (by rw [hq.queue_eq, hr.toList]; exact List.mem_cons_of_mem _ hm)
  period := by
    have := h.period
    rw [latency_eq] at this ⊢
    rw [hr.period]
    unfold nextPeriod
    rw [hq.count, latency_div, minGranularity_eq]
    split_ifs <;> omega

end Even

/-- Only the calls of the queue change what `tree` points to. -/
theorem execute_tree (hex : execute k c e i = some (k', r)) (hins : ∀ p, i ≠ .insert p)
    (hret : i ≠ .retrieve) : k'.mem.tree = k.mem.tree := by
  cases i with
  | insert p => exact absurd rfl (hins p)
  | retrieve => exact absurd rfl hret
  | acquire l | release l | switch p =>
      simp only [execute, Option.ite_none_right_eq_some, Option.some.injEq, Prod.mk.injEq] at hex
      obtain ⟨-, rfl, -⟩ := hex
      rfl
  | panic => simp [execute] at hex
  | _ =>
      simp only [execute, Option.some.injEq, Prod.mk.injEq] at hex
      obtain ⟨rfl, -⟩ := hex
      rfl

theorem even_kept : Kept P z (fun (k : Kernel n) _ _ => Even k.mem) where
  boot := by
    have hb := base_boot n z
    refine ⟨fun p hp => ?_, le_refl _⟩
    rw [hb.queue.rep.queue_eq] at hp
    simp at hp
  congr hshared _ _ _ h := by
    unfold Kernel.mem
    rw [hshared]
    exact h
  tick _ _ _ _ _ h := h
  instr {k k' ℓ V c e i r tr σ} _ _ hb _ _ hpre hex h := by
    by_cases hins : ∃ p, i = .insert p
    · obtain ⟨p, rfl⟩ := hins
      obtain ⟨m', tr', rfl, hput, -⟩ := hb.insert_cases hpre.2 hex
      exact h.insert hb.queue.rep hput
    push Not at hins
    by_cases hret : i = .retrieve
    · subst hret
      rcases hb.retrieve_cases hex with ⟨-, -, rfl⟩ | ⟨p, m', tr', -, rfl, hgot, -⟩
      · exact h
      · exact h.retrieve hb.queue.rep hgot
    · refine ⟨fun p hp => ?_, (execute_tree hex hins hret).symm ▸ h.period⟩
      rw [queue_execute hb hpre hex hins hret] at hp
      have hst : (k.mem.proc p).state = .runnable := by
        rw [hb.queue.rep.queue_eq] at hp
        exact hb.queue.rep.runnable p hp
      obtain ⟨-, hw, -⟩ := noted_execute (ℓ := ℓ) hb hpre hex hst (hins p)
      exact hw.trans (h.weight p hp)

/-! ## The slice of a process -/

/-- Who has been retrieved, or put on a CPU, has a slice. -/
structure Sliced (k : Kernel n) (ℓ : Ledger n) : Prop where
  slice : ∀ p, ((ℓ.account p).dispatched = true ∨ ∃ c, ℓ.retrieved c = some p) →
    minGranularity ≤ (ℓ.account p).slice
  dispatched : ∀ c p, k.running c = some p → (ℓ.account p).dispatched = true

/-- A process comes to a CPU by being dispatched only. -/
theorem running_before {c' : Fin n} (hex : execute k c e i = some (k', r))
    (hdisp : ∀ q, i ≠ .dispatch q) (hp : k'.running c' = some p) : k.running c' = some p := by
  by_cases hswitch : ∃ q, i = .switch q
  · obtain ⟨q, rfl⟩ := hswitch
    simp only [execute, Option.ite_none_right_eq_some, Option.some.injEq, Prod.mk.injEq] at hex
    obtain ⟨-, rfl, -⟩ := hex
    by_cases hc : c' = c
    · subst hc
      simp at hp
    · simpa [hc] using hp
  · push Not at hswitch
    rwa [execute_running hex fun q => ⟨hdisp q, hswitch q⟩] at hp

/-- Slices are noted by retrievals only. -/
theorem Ledger.record_slice (hret : i ≠ .retrieve) (hdisp : ∀ q, i ≠ .dispatch q)
    (hinit : ∀ q, i ≠ .init q) (p : Slot) :
    (ℓ.record k k' c i r).retrieved = ℓ.retrieved ∧
      ((ℓ.record k k' c i r).account p).dispatched = (ℓ.account p).dispatched ∧
      ((ℓ.record k k' c i r).account p).slice = (ℓ.account p).slice := by
  cases i with
  | retrieve => exact absurd rfl hret
  | dispatch q => exact absurd rfl (hdisp q)
  | init q => exact absurd rfl (hinit q)
  | acquire l | release l => cases l <;> exact ⟨rfl, rfl, rfl⟩
  | write q w =>
      rw [Ledger.record, Ledger.recordWrite_account]
      refine ⟨?_, ?_⟩
      · cases w with
        | free =>
            rw [Ledger.recordWrite]
            split_ifs <;> rfl
        | _ => rfl
      · split_ifs with hq
        · subst hq
          cases w <;> exact ⟨rfl, rfl⟩
        · exact ⟨rfl, rfl⟩
  | insert q | runtime q =>
      refine ⟨rfl, ?_⟩
      by_cases hq : p = q
      · subst hq
        simp [Ledger.record]
      · simp [Ledger.record, hq]
  | user =>
      simp only [Ledger.record]
      split
      · rename_i q _
        refine ⟨rfl, ?_⟩
        by_cases hq : p = q
        · subst hq
          simp
        · simp [hq]
      · exact ⟨rfl, rfl, rfl⟩
  | _ => exact ⟨rfl, rfl, rfl⟩

theorem sliced_kept (hz : Spared P z) : Kept P z (fun (k : Kernel n) ℓ _ => Sliced k ℓ) where
  boot := ⟨fun p hp => by simp [Ledger.empty] at hp, fun c p hp => by simp [boot] at hp⟩
  congr _ _ _ hrunning h := ⟨h.slice, hrunning ▸ h.dispatched⟩
  tick {k ℓ V} c i _ _ _ h := by
    refine ⟨fun p hp => ?_, fun c' p hp => ?_⟩
    · rw [Ledger.recordInterrupt_account] at hp ⊢
      rw [Ledger.recordInterrupt_retrieved] at hp
      split_ifs at hp ⊢ <;> exact h.slice p hp
    · rw [Ledger.recordInterrupt_account]
      split_ifs <;> exact h.dispatched c' p hp
  instr {k k' ℓ V c e i r tr σ} hV hcore hb _ _ hpre hex h := by
    have hbook := booked_traced hz hV
    -- What a scheduler has retrieved, but for that of `c`.
    have hother : ∀ {p : Slot} {x : Option Slot}, x ≠ some p →
        (∃ c', Function.update ℓ.retrieved c x c' = some p) → ∃ c', ℓ.retrieved c' = some p := by
      rintro p x hx ⟨c', hc'⟩
      by_cases hcc : c' = c
      · subst hcc
        rw [Function.update_self] at hc'
        exact absurd hc' hx
      · exact ⟨c', by rwa [Function.update_of_ne hcc] at hc'⟩
    cases i with
    | retrieve =>
        rcases hb.retrieve_cases hex with ⟨-, rfl, rfl⟩ | ⟨q, m', tr', rfl, rfl, hgot, -⟩
        · exact ⟨fun p hp => h.slice p (hp.imp id (hother (by simp))), h.dispatched⟩
        · refine ⟨fun p hp => ?_, fun c' p hp => ?_⟩
          · by_cases hpq : p = q
            · subst hpq
              have := (even_kept.traced hz hV).granularity hb.queue.rep hgot
              simpa [Ledger.record] using this
            · simp only [Ledger.record, Ledger.modify_account, Ledger.setRetrieved_account,
                Function.update_of_ne hpq] at hp ⊢
              exact h.slice p (hp.imp id (hother (by simpa using Ne.symm hpq)))
          · have := h.dispatched c' p hp
            by_cases hpq : p = q
            · subst hpq
              simpa [Ledger.record] using this
            · simpa [Ledger.record, hpq] using this
    | dispatch q =>
        obtain ⟨hme, -, hq, -⟩ := hpre
        have hold : ℓ.retrieved c = some q := by
          rw [hbook.retrieved, ← Kernel.thread_eq_cpu.mpr ⟨hme, rfl⟩]
          exact hq
        simp only [execute, Option.some.injEq, Prod.mk.injEq] at hex
        obtain ⟨rfl, -⟩ := hex
        refine ⟨fun p hp => ?_, fun c' p hp => ?_⟩
        · by_cases hpq : p = q
          · subst hpq
            simpa [Ledger.record] using h.slice p (.inr ⟨c, hold⟩)
          · simp only [Ledger.record, Ledger.modify_account, Ledger.setRetrieved_account,
              Function.update_of_ne hpq] at hp ⊢
            exact h.slice p (hp.imp id (hother (by simp)))
        · by_cases hpq : p = q
          · subst hpq
            simp [Ledger.record]
          · have hne : c' ≠ c := by
              rintro rfl
              exact hpq (by simpa using hp.symm)
            have := h.dispatched c' p (by simpa [hne] using hp)
            simpa [Ledger.record, hpq] using this
    | init q =>
        have hst := hb.used_of_head hpre.2
        simp only [execute, Option.some.injEq, Prod.mk.injEq] at hex
        obtain ⟨rfl, -⟩ := hex
        refine ⟨fun p hp => ?_, fun c' p hp => ?_⟩
        · by_cases hpq : p = q
          · -- A process in the making has not been retrieved.
            subst hpq
            obtain ⟨c', hc'⟩ := hp.resolve_left (by simp [Ledger.record])
            have hrun := hb.runnable_of_retrieved ((hbook.retrieved c').symm.trans hc')
            rw [hst] at hrun
            cases hrun
          · simp only [Ledger.record, Ledger.modify_account, Function.update_of_ne hpq] at hp ⊢
            exact h.slice p hp
        · have hpq : p ≠ q := by
            rintro rfl
            exact hb.sits.absent p (.inr hst) c' hp
          have := h.dispatched c' p hp
          simpa [Ledger.record, hpq] using this
    | _ =>
        refine ⟨fun p hp => ?_, fun c' p hp => ?_⟩
        · obtain ⟨h1, h2, h3⟩ := Ledger.record_slice (k := k) (ℓ := ℓ) (c := c) (r := r)
            (by simp) (by simp) (by simp) p
          rw [h1, h2] at hp
          rw [h3]
          exact h.slice p hp
        · rw [(Ledger.record_slice (by simp) (by simp) (by simp) p).2.1]
          exact h.dispatched c' p (running_before hex (by simp) hp)

/--
**Every process gets an equal share.** In every reachable state of any number of CPUs the
queued processes weigh the same; a process that is retrieved gets the period, divided by the
number of queued processes; and no process on a CPU has a slice shorter than the granularity,
so that the granularity never puts off the end of a slice.
-/
theorem equalShares {k : Kernel n} {ℓ : Ledger n} (h : Run k ℓ) : EqualShares k := by
  obtain ⟨V, hV⟩ := h.traced false
  have hcore := core_traced spared_false hV
  obtain ⟨tr, σ, hb⟩ := hcore.base
  have heven := even_kept.traced spared_false hV
  have hsliced := (sliced_kept spared_false).traced spared_false hV
  have hslice : ∀ c p, k.running c = some p →
      minGranularity ≤ (k.mem.proc p).maxExecutionTime := fun c p hp => by
    rw [(charged_traced spared_false hV p).slice]
    exact hsliced.slice p (.inl (hsliced.dispatched c p hp))
  refine ⟨heven.weight, fun c e k' p hi hex => ?_, hslice, fun c p q hi hend => ?_⟩
  · rcases hb.retrieve_cases hex with ⟨-, hno, -⟩ | ⟨q, m', tr', hq, rfl, hgot, -⟩
    · cases hno
    · obtain rfl : p = q := Option.some.inj hq
      exact heven.share hb.queue.rep hgot
  · obtain ⟨next, hcode⟩ := hi
    obtain ⟨hme, -⟩ := hcore.pre hcode
    have hlong := hslice c p hme
    unfold checkPreemption
    rw [if_pos ⟨hend, hlong.trans hend⟩]

/-- So it is for the first process after a timer interrupt. -/
theorem equalShares_first : ∃ (k : Kernel 2) (ℓ : Ledger 2), k.Returns 1 0 ∧
    (ℓ.account 0).charges = 1 ∧ EqualShares k := by
  obtain ⟨k, ℓ, hrun, hu, -, hcharges⟩ := tickRun
  exact ⟨k, ℓ, hu, hcharges, equalShares hrun.run⟩

end Xv6Cfs
