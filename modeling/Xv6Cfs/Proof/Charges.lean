import Xv6Cfs.Proof.Local

/-!
# What a process is charged

The key and the current run are what the ledger says they are, up to the range of
`int`. Together they are the charges that `usertrap` has completed, and what was
folded in between the two halves of a charge a second time.
-/

namespace Xv6Cfs

open RedBlack

variable {n : Nat} {k k' : Kernel n} {ℓ : Ledger n} {V : Thread n → View} {z : Bool}
  {P : Kernel n → Ledger n → Move n → Prop} {c : Fin n} {tr : ColorTree Slot} {σ : Slot → Sit n}
  {p : Slot} {x : Proc} {a : Account} {v : View}

theorem int32_int32_add (x y : Int) : int32 (int32 x + y) = int32 (x + y) := Int.bmod_add_bmod

/-- The record and the account of a process agree, and what its thread knows of its charges. -/
structure Charged (x : Proc) (a : Account) (v : View) : Prop where
  virtualRuntime : x.virtualRuntime = int32 a.key
  currentRuntime : x.currentRuntime = a.run
  slice : x.maxExecutionTime = a.slice
  reading : v.reading = a.read
  /-- What was folded in a second time is counted once more. -/
  sum : a.key + a.run = a.charges + a.recounted
  since : ∀ s, a.read = some s → a.run + a.since = s ∧ 0 ≤ s ∧ s < 128
  traps : a.charges + (if v.due then 1 else 0) = a.userTicks + a.otherTraps
  slice_le : 0 ≤ a.slice ∧ a.slice ≤ 128
  run_le : 0 ≤ a.run ∧ a.run ≤ 128
  /-- A process that has called `checkPreemption` since its last charge may be charged again. -/
  charged : v.charged = false → a.run < 128
  key_nonneg : 0 ≤ a.key
  since_nonneg : 0 ≤ a.since
  recounted_nonneg : 0 ≤ a.recounted

/-- Who is not preempted has not reached his slice, or the granularity. -/
theorem lt_of_not_preempted {m : Mem} {q : Option Slot} (h : checkPreemption m p q = false) :
    (m.proc p).currentRuntime < max (m.proc p).maxExecutionTime minGranularity := by
  unfold checkPreemption at h
  by_cases hc : (m.proc p).currentRuntime ≥ (m.proc p).maxExecutionTime ∧
      (m.proc p).currentRuntime ≥ minGranularity
  · simp [hc] at h
  · rw [lt_max_iff]
    omega

namespace Charged

/-- `yield`, `wakeup`, `kill`. -/
theorem fold (h : Charged x a v) (byOther : Bool) : Charged x.fold (a.fold byOther) v where
  virtualRuntime := by
    rw [Proc.fold_virtualRuntime, h.virtualRuntime, h.currentRuntime, int32_int32_add]
    rfl
  currentRuntime := rfl
  slice := h.slice
  reading := h.reading
  sum := by
    have := h.sum
    simpa using this
  since s hs := by
    have := h.since s hs
    simp only [Account.fold_run, Account.fold_since]
    omega
  traps := h.traps
  slice_le := h.slice_le
  run_le := ⟨by simp, by simp⟩
  charged _ := by simp
  key_nonneg := add_nonneg h.key_nonneg h.run_le.1
  since_nonneg := add_nonneg h.since_nonneg h.run_le.1
  recounted_nonneg := h.recounted_nonneg

/-- Of the view, only what has to do with charges plays a part. -/
theorem congr {v' : View} (h : Charged x a v) (hreading : v'.reading = v.reading)
    (hdue : v'.due = v.due) (hcharged : v'.charged = false → a.run < 128) : Charged x a v' :=
  ⟨h.virtualRuntime, h.currentRuntime, h.slice, hreading.trans h.reading, h.sum, h.since,
    by rw [hdue]; exact h.traps, h.slice_le, h.run_le, hcharged, h.key_nonneg, h.since_nonneg,
    h.recounted_nonneg⟩

/-- The first half of a charge. -/
theorem readRuntime (h : Charged x a v) (hcharged : v.charged = false) : Charged x a.readRuntime
    { v with reading := some x.currentRuntime } where
  virtualRuntime := h.virtualRuntime
  currentRuntime := h.currentRuntime
  slice := h.slice
  reading := by rw [h.currentRuntime]; rfl
  sum := h.sum
  since s hs := by
    obtain rfl : a.run = s := by simpa using hs
    have := h.charged hcharged
    have := h.run_le
    simp only [Account.readRuntime_run, Account.readRuntime_since]
    omega
  traps := h.traps
  slice_le := h.slice_le
  run_le := h.run_le
  charged := h.charged
  key_nonneg := h.key_nonneg
  since_nonneg := le_refl _
  recounted_nonneg := h.recounted_nonneg

/-- The second half of a charge. What was folded in since the first is in the run again. -/
theorem charge {r : Int} (h : Charged x a v) (hread : v.reading = some r) (hdue : v.due = true) :
    Charged (x.setCurrentRuntime (int32 (r + 1))) (a.charge (int32 (r + 1)))
      { v with reading := none, due := false, charged := true } := by
  have hr : a.read = some r := h.reading ▸ hread
  obtain ⟨hs, hlo, hhi⟩ := h.since r hr
  have hrun : (a.charge (int32 (r + 1))).run = r + 1 := by simp [hr]
  have hint : int32 (r + 1) = r + 1 := int32_of_isInt32 (by unfold IsInt32; omega)
  refine ⟨h.virtualRuntime, by rw [hrun]; exact hint, h.slice, rfl, ?_, by simp, ?_, h.slice_le, ?_,
    by simp, h.key_nonneg, h.since_nonneg, add_nonneg h.recounted_nonneg h.since_nonneg⟩
  · have := h.sum
    rw [hrun]
    simp only [Account.charge_key, Account.charge_charges, Account.charge_recounted]
    push_cast
    omega
  · have := h.traps
    simp only [hdue, if_true] at this
    simpa using this
  · rw [hrun]
    omega

/-- `checkPreemption`. -/
theorem check {m : Mem} {q : Option Slot} (h : Charged (m.proc p) a v) :
    Charged (m.proc p) a { v with charged := v.charged && checkPreemption m p q } := by
  refine h.congr rfl rfl fun hc => ?_
  cases hpre : checkPreemption m p q with
  | true => exact h.charged (by simpa [hpre] using hc)
  | false =>
      have hlt := lt_of_not_preempted hpre
      rw [h.currentRuntime, h.slice] at hlt
      have := h.slice_le
      rw [minGranularity_eq, lt_max_iff] at hlt
      omega

/-- A trap in user mode. -/
theorem trap (h : Charged x a v) (hdue : v.due = false) (t : Trap) :
    Charged x (a.trap t) { v with due := true } := by
  refine ⟨h.virtualRuntime, h.currentRuntime, h.slice, h.reading, h.sum, h.since, ?_, h.slice_le,
    h.run_le, h.charged, h.key_nonneg, h.since_nonneg, h.recounted_nonneg⟩
  have := h.traps
  simp only [hdue, Bool.false_eq_true, if_false] at this
  by_cases ht : t = .timer
  · simp only [if_true, Account.trap_userTicks, Account.trap_otherTraps, Account.trap_charges, ht]
    omega
  · simp only [if_true, Account.trap_userTicks, Account.trap_otherTraps, Account.trap_charges, ht,
      if_false]
    omega

end Charged

theorem charged_init (x : Proc) (root : Slot) (z : Bool) :
    Charged x.init {} (.resumed p root z) := by
  refine ⟨rfl, rfl, rfl, rfl, rfl, by simp, rfl, ?_, ?_, ?_, ?_, ?_, ?_⟩ <;> simp

theorem charged_local : Local P z fun _ x a v _ => Charged x a v where
  links {p x x' a v m} hx h := by
    have hkey : x'.virtualRuntime = x.virtualRuntime := by
      simpa using congrArg Proc.virtualRuntime hx
    have hrun : x'.currentRuntime = x.currentRuntime := by
      simpa using congrArg Proc.currentRuntime hx
    have hslice : x'.maxExecutionTime = x.maxExecutionTime := by
      simpa using congrArg Proc.maxExecutionTime hx
    exact ⟨hkey.trans h.virtualRuntime, hrun.trans h.currentRuntime, hslice.trans h.slice, h.reading,
      h.sum, h.since, h.traps, h.slice_le, h.run_le, h.charged, h.key_nonneg, h.since_nonneg,
      h.recounted_nonneg⟩
  view hr hd hc h := h.congr hr hd fun hf => h.charged (hc ▸ hf)
  boot p := charged_init Proc.zero p z
  tick _ _ _ _ h :=
    ⟨h.virtualRuntime, h.currentRuntime, h.slice, h.reading, h.sum, h.since, h.traps, h.slice_le,
      h.run_le, h.charged, h.key_nonneg, h.since_nonneg, h.recounted_nonneg⟩
  write {k ℓ V tr σ c e p w} hx h := by
    have hpre : writePre (k.running c) (V (k.thread c)) p w := hx.pre
    cases w with
    | fold =>
        have hfold := h.fold (decide (k.running c ≠ some p))
        by_cases hme : k.running c = some p
        · rw [if_pos hme]
          exact hfold.congr rfl rfl fun _ => by simp
        · rw [if_neg hme]
          exact hfold
    | runtime d =>
        obtain ⟨-, hme, hdue, r, hr, rfl⟩ := hpre
        rw [Kernel.thread_eq_proc.mpr hme] at hdue hr
        rw [if_pos hme]
        exact h.charge hr hdue
    | _ =>
        have hkeep : Charged (k.mem.proc p) (ℓ.account p) (V (.proc p)) := h
        refine Charged.congr (v := V (.proc p)) ?_ ?_ ?_ ?_
        · exact ⟨h.virtualRuntime, h.currentRuntime, h.slice, h.reading, h.sum, h.since, h.traps,
            h.slice_le, h.run_le, h.charged, h.key_nonneg, h.since_nonneg, h.recounted_nonneg⟩
        · split_ifs <;> rfl
        · split_ifs <;> rfl
        · intro hc
          refine h.charged ?_
          rw [← hc]
          split_ifs <;> rfl
  insert _ h :=
    ⟨h.virtualRuntime, h.currentRuntime, h.slice, h.reading, h.sum, h.since, h.traps, h.slice_le,
      h.run_le, h.charged, h.key_nonneg, h.since_nonneg, h.recounted_nonneg⟩
  retrieve hx hret h :=
    ⟨h.virtualRuntime, h.currentRuntime, rfl, h.reading, h.sum, h.since, h.traps,
      hx.base.queue.slice_bounds hret, h.run_le, h.charged, h.key_nonneg, h.since_nonneg,
      h.recounted_nonneg⟩
  dispatch _ h :=
    ⟨h.virtualRuntime, h.currentRuntime, h.slice, h.reading, h.sum, h.since, h.traps, h.slice_le,
      h.run_le, h.charged, h.key_nonneg, h.since_nonneg, h.recounted_nonneg⟩
  init _ _ := charged_init _ _ _
  runtime hx h := by
    obtain ⟨hme, -, -, hc⟩ := hx.pre
    rw [Kernel.thread_eq_proc.mpr hme] at hc
    exact h.readRuntime hc
  check _ h := h.check
  user hx hme h := by
    obtain ⟨-, -, -, -, -, hdue, -⟩ := hx.pre
    rw [Kernel.thread_eq_proc.mpr hme] at hdue
    exact h.trap hdue _

/-- **The key and the run are what the ledger says, in every reachable state.** -/
theorem charged_traced (hz : Spared P z) (h : Traced P z k ℓ V) (p : Slot) :
    Charged (k.mem.proc p) (ℓ.account p) (V (.proc p)) :=
  charged_local.kept.traced hz h p

/-- What is in the record, in terms of the charges. -/
theorem Charged.accrued (h : Charged x a v) :
    x.virtualRuntime + x.currentRuntime = a.charges + a.recounted - 2 ^ 32 * a.wraps := by
  have hsum := h.sum
  have hkey := Int.bmod_add_bdiv a.key (2 ^ 32)
  rw [h.virtualRuntime, h.currentRuntime]
  change int32 a.key + (2 ^ 32 : Nat) * a.wraps = a.key at hkey
  push_cast at hkey
  omega

/-! ## Runs in which nothing is lost -/

/-- No key has left the range of `int`. -/
theorem unwrapped_local (hz : Spared P z) (hP : ∀ k ℓ mv, P k ℓ mv → Unwrapped k mv) :
    Local P z fun _ x a _ _ => x.virtualRuntime = a.key where
  links hx h := by
    rw [← h]
    simpa using congrArg Proc.virtualRuntime hx
  view _ _ _ h := h
  boot _ := rfl
  tick _ _ _ _ h := h
  write {k ℓ V tr σ c e p w} hx h := by
    cases w with
    | fold =>
        have hno := hP k ℓ _ hx.allowed p hx.issues
        simp only [Write.apply, Proc.fold_virtualRuntime, Account.write, Account.fold_key]
        rw [int32_of_isInt32 hno, h, (charged_traced hz hx.traced p).currentRuntime]
    | _ => exact h
  insert _ h := h
  retrieve _ _ h := h
  dispatch _ h := h
  init _ _ := rfl
  runtime _ h := h
  check _ h := h
  user _ _ h := h

/-- Nothing has been folded in between the two halves of a charge. -/
theorem unsplit_local (hz : Spared P z) (hP : ∀ k ℓ mv, P k ℓ mv → Unsplit k ℓ mv) :
    Local P z fun _ _ a _ _ => a.recounted = 0 ∧ (a.read ≠ none → a.since = 0) where
  links _ h := h
  view _ _ _ h := h
  boot _ := ⟨rfl, by simp⟩
  tick _ _ _ _ h := h
  write {k ℓ V tr σ c e p w} hx h := by
    cases w with
    | fold =>
        refine ⟨h.1, fun hread => ?_⟩
        rcases hP k ℓ _ hx.allowed p hx.issues with hnone | hzero
        · exact absurd hnone hread
        · rw [(charged_traced hz hx.traced p).currentRuntime] at hzero
          simpa [Account.write, hzero] using h.2 hread
    | runtime d =>
        obtain ⟨-, hme, -, r, hr, -⟩ := hx.pre
        rw [Kernel.thread_eq_proc.mpr hme, (charged_traced hz hx.traced p).reading] at hr
        exact ⟨by simp [Account.write, h.1, h.2 (by simp [hr])], by simp [Account.write]⟩
    | _ => exact h
  insert _ h := h
  retrieve _ _ h := h
  dispatch _ h := h
  init _ _ := ⟨rfl, by simp⟩
  runtime _ h := ⟨h.1, fun _ => rfl⟩
  check _ h := h
  user _ _ h := h

/-- There has been no other trap than timer interrupts in user mode. -/
theorem onlyTicks_local (hP : ∀ k ℓ mv, P k ℓ mv → OnlyTicks k mv) :
    Local P z fun _ _ a _ _ => a.otherTraps = 0 ∧ a.kernelTicks = 0 where
  links _ h := h
  view _ _ _ h := h
  boot _ := ⟨rfl, rfl⟩
  tick {k ℓ V c p} _ _ hi hme _ := by
    have hnone : k.running c = none := hP k ℓ _ hi rfl
    simp [hnone] at hme
  write {k ℓ V tr σ c e p w} _ h := by
    cases w <;> exact h
  insert _ h := h
  retrieve _ _ h := h
  dispatch _ h := h
  init _ _ := ⟨rfl, rfl⟩
  runtime _ h := h
  check _ h := h
  user {k ℓ V tr σ c e p} hx _ h := by
    have htimer : e.trap = .timer := hP k ℓ _ hx.allowed hx.issues
    simpa [htimer] using h

/-! ## Every run -/

/-- A process that returns to user mode has been charged for every trap it took there. -/
theorem charges_of_returns {V : Thread n → View} (hcore : Core k V z)
    (hcharged : Charged (k.mem.proc p) (ℓ.account p) (V (.proc p))) (hu : k.Returns c p) :
    ((ℓ.account p).charges : Int) = (ℓ.account p).userTicks + (ℓ.account p).otherTraps := by
  obtain ⟨⟨next, hcode⟩, hme⟩ := hu
  obtain ⟨-, -, -, -, -, hdue, -⟩ := hcore.pre hcode
  rw [Kernel.thread_eq_proc.mpr hme] at hdue
  have := hcharged.traps
  simp only [hdue, Bool.false_eq_true, if_false] at this
  omega

/--
**When the charge of a process is its clock ticks.** It is in every run in which
every trap in user mode is a timer interrupt, none of these comes in the kernel, no
run is folded in between the two halves of a charge and no key leaves the range of
`int`. In any run it is, at a return to user mode, if and only if the other traps and
what was counted twice make up for the ticks in the kernel and the rounds of the key.
-/
theorem chargedTicks :
    (∀ (k : Kernel n) ℓ, RunWhere (fun k ℓ mv => OnlyTicks k mv ∧ Unsplit k ℓ mv ∧ Unwrapped k mv) k ℓ →
      ∀ c p, k.Returns c p → accrued k.mem p = (ℓ.account p).userTicks + (ℓ.account p).kernelTicks) ∧
    ∀ (k : Kernel n) ℓ, Run k ℓ → ∀ c p, k.Returns c p →
      (accrued k.mem p = (ℓ.account p).userTicks + (ℓ.account p).kernelTicks ↔
        (ℓ.account p).otherTraps + (ℓ.account p).recounted =
          (ℓ.account p).kernelTicks + 2 ^ 32 * (ℓ.account p).wraps) := by
  constructor
  · intro k ℓ h c p hu
    obtain ⟨V, hV⟩ := h.traced false
    have hcharged := charged_traced spared_false hV p
    have hkey := (unwrapped_local spared_false fun _ _ _ h => h.2.2).kept.traced spared_false hV p
    have hsplit := (unsplit_local spared_false fun _ _ _ h => h.2.1).kept.traced spared_false hV p
    have hticks := (onlyTicks_local fun _ _ _ h => h.1).kept.traced spared_false hV p
    have hcharges := charges_of_returns (core_traced spared_false hV) hcharged hu
    have hsum := hcharged.sum
    rw [accrued, hkey, hcharged.currentRuntime, hsum, hcharges, hsplit.1, hticks.1, hticks.2]
    omega
  · intro k ℓ h c p hu
    obtain ⟨V, hV⟩ := h.traced false
    have hcharged := charged_traced spared_false hV p
    have hcharges := charges_of_returns (core_traced spared_false hV) hcharged hu
    rw [accrued, hcharged.accrued]
    omega

/-- On two CPUs, until the second has run the first process for a trap. -/
def trapMoves (t : Trap) (m : Nat) : List (Move 2) :=
  List.replicate 16 (.exec 0 {}) ++ List.replicate m (.exec 1 { trap := t })

/-- A timer interrupt, and no step that any of the conditions excludes. -/
theorem tickMoves_spec : (execWhere (fun k ℓ mv =>
      OnlyTicks k mv ∧ Unsplit k ℓ mv ∧ Unwrapped k mv ∧ WholeCharge k ℓ mv)
    (boot 2, Ledger.empty 2) (trapMoves .timer 36)).any
      (fun s => s.1.Returns 1 0 ∧ (s.2.account 0).userTicks = 1 ∧ (s.2.account 0).charges = 1) := by
  decide +kernel

/-- The state it leads to. -/
theorem tickRun : ∃ (k : Kernel 2) (ℓ : Ledger 2), RunWhere (fun k ℓ mv =>
      OnlyTicks k mv ∧ Unsplit k ℓ mv ∧ Unwrapped k mv ∧ WholeCharge k ℓ mv) k ℓ ∧
    k.Returns 1 0 ∧ (ℓ.account 0).userTicks = 1 ∧ (ℓ.account 0).charges = 1 := by
  obtain ⟨s, hs, h⟩ := (Option.any_eq_true _ _).mp tickMoves_spec
  exact ⟨s.1, s.2, runWhere_exec .init hs, of_decide_eq_true h⟩

/-- So it is for the first process after a timer interrupt. -/
theorem chargedTicks_first : ∃ (k : Kernel 2) (ℓ : Ledger 2), k.Returns 1 0 ∧
    (ℓ.account 0).userTicks = 1 ∧
    accrued k.mem 0 = (ℓ.account 0).userTicks + (ℓ.account 0).kernelTicks := by
  obtain ⟨k, ℓ, hrun, hu, hticks, -⟩ := tickRun
  exact ⟨k, ℓ, hu, hticks,
    chargedTicks.1 k ℓ (hrun.mono fun _ _ _ h => ⟨h.1, h.2.1, h.2.2.1⟩) 1 0 hu⟩

theorem deviceMoves_spec : (exec (boot 2, Ledger.empty 2) (trapMoves .device 33)).any
    (fun s => s.1.Returns 1 0 ∧
      accrued s.1.mem 0 ≠ (s.2.account 0).userTicks + (s.2.account 0).kernelTicks) := by
  decide +kernel

/-- A device interrupt is charged like a tick. -/
theorem not_forall_chargedTicks : ¬∀ (n : Nat) (k : Kernel n) (ℓ : Ledger n), Run k ℓ →
    ∀ c p, k.Returns c p →
      accrued k.mem p = (ℓ.account p).userTicks + (ℓ.account p).kernelTicks := by
  intro h
  obtain ⟨s, hs, hspec⟩ := (Option.any_eq_true _ _).mp deviceMoves_spec
  obtain ⟨hu, hne⟩ := of_decide_eq_true hspec
  exact hne (h 2 s.1 s.2 (run_exec .init hs) 1 0 hu)

/--
**When no charge is lost or counted twice.** The key and the run of a process are
together the charges it has completed, in every state of every run in which no run is
folded in between the two halves of a charge and no key leaves the range of `int`. In
any run they are if and only if what was counted twice makes up for the rounds of the
key.
-/
theorem chargedOnce :
    (∀ (k : Kernel n) ℓ, RunWhere (fun k ℓ mv => Unsplit k ℓ mv ∧ Unwrapped k mv) k ℓ →
      ∀ p, accrued k.mem p = (ℓ.account p).charges) ∧
    ∀ (k : Kernel n) ℓ, Run k ℓ → ∀ p,
      (accrued k.mem p = (ℓ.account p).charges ↔
        (ℓ.account p).recounted = 2 ^ 32 * (ℓ.account p).wraps) := by
  constructor
  · intro k ℓ h p
    obtain ⟨V, hV⟩ := h.traced false
    have hcharged := charged_traced spared_false hV p
    have hkey := (unwrapped_local spared_false fun _ _ _ h => h.2).kept.traced spared_false hV p
    have hsplit := (unsplit_local spared_false fun _ _ _ h => h.1).kept.traced spared_false hV p
    rw [accrued, hkey, hcharged.currentRuntime, hcharged.sum, hsplit.1, add_zero]
  · intro k ℓ h p
    obtain ⟨V, hV⟩ := h.traced false
    rw [accrued, (charged_traced spared_false hV p).accrued]
    omega

/-- So it is for the first process after a timer interrupt. -/
theorem chargedOnce_first : ∃ (k : Kernel 2) (ℓ : Ledger 2), (ℓ.account 0).charges = 1 ∧
    accrued k.mem 0 = (ℓ.account 0).charges := by
  obtain ⟨k, ℓ, hrun, -, -, hcharges⟩ := tickRun
  exact ⟨k, ℓ, hcharges, chargedOnce.1 k ℓ (hrun.mono fun _ _ _ h => ⟨h.2.1, h.2.2.1⟩) 0⟩

/-- On the CPUs `a` and `b` of three: `b` runs the first process, which is charged once, sleeps in
its next trap, is woken, and is charged twice. It forks, and is to be charged 3. -/
def forkMoves (a b : Fin 3) : List (Move 3 × Thread 3 × Option Slot) :=
  stretch 18 a (.cpu a) {} ++ stretch 3 b (.cpu b) {} ++ fetch b 0 ++ stretch 7 b (.cpu b) {} ++
  stretch 22 b (.proc 0) {} ++ stretch 6 b (.proc 0) { trap := .syscall .other } ++
  stretch 3 b (.proc 0) { choice := .acquire 0 } ++ stretch 6 b (.proc 0) { choice := .sleep 5 } ++
  stretch 3 b (.cpu b) {} ++ [(.interrupt a .device, .cpu a, none)] ++
  stretch 9 a (.cpu a) { choice := .wakeup 5 } ++
  stretch 1 b (.cpu b) {} ++ fetch b 0 ++ stretch 7 b (.cpu b) {} ++
  stretch 36 b (.proc 0) {} ++ stretch 35 b (.proc 0) { trap := .syscall .fork }

/-- Before it is, a timer interrupt takes the CPU from it, for its child: the 2 charges that the
3 is made of are folded into its key. The CPU `c` retrieves the child; then it is charged. -/
def splitMoves (a b c : Fin 3) : List (Move 3 × Thread 3 × Option Slot) :=
  forkMoves a b ++ [(.interrupt b .timer, .proc 0, none)] ++ stretch 10 b (.proc 0) {} ++
  stretch 2 b (.cpu b) {} ++ stretch 3 c (.cpu c) {} ++ fetch c 1 ++ stretch 1 c (.cpu c) {} ++
  stretch 2 b (.cpu b) {} ++ fetch b 0 ++ stretch 7 b (.cpu b) {} ++ stretch 4 b (.proc 0) {}

theorem splitMoves_spec : (execAs (boot 3, Ledger.empty 3) (splitMoves 0 1 2)).any
    (fun s => accrued s.1.mem 0 = 6 ∧ (s.2.account 0).charges = 4) := by
  decide +kernel

/-- Two charges are counted twice. -/
theorem not_forall_chargedOnce : ¬∀ (n : Nat) (k : Kernel n) (ℓ : Ledger n), Run k ℓ →
    ∀ p, accrued k.mem p = (ℓ.account p).charges := by
  intro h
  obtain ⟨s, hs, hspec⟩ := (Option.any_eq_true _ _).mp splitMoves_spec
  obtain ⟨haccrued, hcharges⟩ := of_decide_eq_true hspec
  have := h 3 s.1 s.2 (run_execAs .init hs) 0
  rw [haccrued, hcharges] at this
  exact absurd this (by decide)

end Xv6Cfs
