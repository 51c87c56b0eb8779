import Xv6Cfs.Proof.Charges
import Xv6Cfs.Proof.Frozen

/-!
# Slices are enforced

A process is charged only after it has called `checkPreemption` since its last
charge and gone on, and then its run was below its slice, or the granularity. So it
never exceeds them, provided that nothing comes between the two halves of a charge.
-/

namespace Xv6Cfs

variable {n : Nat} {k : Kernel n} {ℓ : Ledger n} {V : Thread n → View} {z : Bool}
  {P : Kernel n → Ledger n → Move n → Prop} {c : Fin n} {p : Slot}

/-- A run within the slice. -/
structure Limited (x : Proc) (a : Account) (v : View) : Prop where
  read : ∀ r, a.read = some r → a.run = r ∧ v.charged = false ∧ x.state = .running
  checked : v.charged = false → a.run < max a.slice minGranularity
  run_le : a.run ≤ max a.slice minGranularity

theorem lt_max_granularity (s : Int) : 0 < max s minGranularity := by
  rw [lt_max_iff]
  exact .inr (by decide)

/-- An open charge is completed before anything else happens. -/
theorem read_eq_none {tr : RedBlack.ColorTree Slot} {σ : Slot → Sit n} {e : Env} {w : Write}
    (hP : ∀ k ℓ mv, P k ℓ mv → WholeCharge k ℓ mv)
    (hx : Executing P z k ℓ V tr σ c e (.write p w)) (hme : k.running c = some p)
    (hw : ∀ d, w ≠ .runtime d) : (ℓ.account p).read = none := by
  by_contra hread
  obtain ⟨d, next, hcode⟩ := hP k ℓ _ hx.allowed p hme hread
  obtain ⟨next', hcode'⟩ := hx.issues
  rw [hcode] at hcode'
  simp only [Threads.Prog.instr.injEq, Instr.write.injEq, true_and] at hcode'
  exact hw d hcode'.1.symm

/-- A process that is made, begun or freed is not running. -/
theorem not_running_of_write {tr : RedBlack.ColorTree Slot} {σ : Slot → Sit n} {w : Write}
    (hb : Base k V tr σ) (hpre : writePre (k.running c) (V (k.thread c)) p w)
    (hw : w = .used ∨ w = .ready ∨ w = .free) : (k.mem.proc p).state ≠ .running := by
  rcases hw with rfl | rfl | rfl
  · simp [hb.sits.seen c p _ hpre.1.2.2]
  · simp [hb.used_of_head hpre.2.2]
  · rcases hpre.2.2 with ⟨hs, -⟩ | ⟨-, g, -, hhead⟩
    · simp [hb.sits.seen c p _ hs]
    · simp [hb.used_of_head hhead]

theorem limited_local (hz : Spared P z) (hP : ∀ k ℓ mv, P k ℓ mv → WholeCharge k ℓ mv) :
    Local P z fun _ x a v _ => Limited x a v where
  links {p x x' a v m} hx h := by
    have hstate : x'.state = x.state := by simpa using congrArg Proc.state hx
    exact ⟨fun r hr => hstate ▸ h.read r hr, h.checked, h.run_le⟩
  view _ _ hc h := ⟨fun r hr => hc ▸ h.read r hr, fun hf => h.checked (hc ▸ hf), h.run_le⟩
  boot p := ⟨by simp, fun _ => lt_max_granularity _, (lt_max_granularity _).le⟩
  tick _ _ _ _ h := ⟨h.read, h.checked, h.run_le⟩
  write {k ℓ V tr σ c e p w} hx h := by
    have hpre : writePre (k.running c) (V (k.thread c)) p w := hx.pre
    have hrun : k.running c = some p → (V (k.thread c)).on = true →
        (k.mem.proc p).state = .running := fun hme hon =>
      hx.base.sits.running_state hme (Kernel.thread_eq_proc.mpr hme ▸ hon)
    -- a process that is not `RUNNING` is in no charge
    have hopen : (k.mem.proc p).state ≠ .running → (ℓ.account p).read = none := fun hst => by
      by_contra hread
      obtain ⟨r, hr⟩ := Option.ne_none_iff_exists'.mp hread
      exact hst (h.read r hr).2.2
    cases w with
    | fold =>
        have hread : (ℓ.account p).read = none := by
          obtain ⟨-, hon, -, hs | ⟨hme, -⟩⟩ := hpre
          · exact hopen (by simp [hx.base.sits.seen c p _ hs])
          · exact read_eq_none hP hx hme (by simp)
        exact ⟨by simp [Account.write, hread], fun _ => lt_max_granularity _,
          (lt_max_granularity _).le⟩
    | runtime d =>
        obtain ⟨-, hme, -, r, hr, -⟩ := hpre
        rw [Kernel.thread_eq_proc.mpr hme, (charged_traced hz hx.traced p).reading] at hr
        obtain ⟨hrun, hcharged, -⟩ := h.read r hr
        have hlt := h.checked hcharged
        refine ⟨by simp [Account.write], by simp [hme, View.write], ?_⟩
        simp only [Account.write, Account.charge_run, Account.charge_slice, hr, Option.getD_some]
        omega
    | sleep chan =>
        have hread := read_eq_none hP hx hpre.2.2.1 (by simp)
        rw [if_pos hpre.2.2.1]
        exact ⟨by simp [Account.write, hread], h.checked, h.run_le⟩
    | exit status =>
        have hread := read_eq_none hP hx hpre.1.2.2.1 (by simp)
        rw [if_pos hpre.1.2.2.1]
        exact ⟨by simp [Account.write, hread], h.checked, h.run_le⟩
    | used | ready | free =>
        have hread : (ℓ.account p).read = none := hopen (not_running_of_write hx.base hpre (by simp))
        refine ⟨by simp [Account.write, hread], ?_, h.run_le⟩
        split_ifs <;> exact h.checked
    | _ =>
        refine ⟨?_, ?_, h.run_le⟩
        · split_ifs <;> exact h.read
        · split_ifs <;> exact h.checked
  insert _ h := ⟨h.read, h.checked, h.run_le⟩
  retrieve {k ℓ V tr σ c e p m' tr'} hx hret h := by
    -- a queued process has no run
    have hst : (k.mem.proc p).state = .runnable :=
      hx.base.queue.rep.runnable p (by simp [hret.toList])
    have hzero := ((folded_local.kept.traced hz hx.traced p).runnable hst).1
    rw [(charged_traced hz hx.traced p).currentRuntime] at hzero
    refine ⟨h.read, fun _ => ?_, ?_⟩
    · simpa [hzero] using lt_max_granularity _
    · simpa [hzero] using (lt_max_granularity _).le
  dispatch _ h := ⟨fun r hr => ⟨(h.read r hr).1, (h.read r hr).2.1, rfl⟩, h.checked, h.run_le⟩
  init _ _ := ⟨by simp, fun _ => lt_max_granularity _, (lt_max_granularity _).le⟩
  runtime {k ℓ V tr σ c e p} hx h := by
    obtain ⟨hme, hon, -, hcharged⟩ := hx.pre
    have hst := hx.base.sits.running_state hme (Kernel.thread_eq_proc.mpr hme ▸ hon)
    rw [Kernel.thread_eq_proc.mpr hme] at hcharged
    exact ⟨fun r hr => ⟨by simpa using hr, hcharged, hst⟩, h.checked, h.run_le⟩
  check {k ℓ V tr σ c e p q} hx h := by
    have hcharged := charged_traced hz hx.traced p
    refine ⟨fun r hr => ?_, fun hc => ?_, h.run_le⟩
    · obtain ⟨h1, h2, h3⟩ := h.read r hr
      exact ⟨h1, by simp [h2], h3⟩
    · cases hcheck : checkPreemption k.mem p q with
      | true => exact h.checked (by simpa [hcheck] using hc)
      | false =>
          have hlt := lt_of_not_preempted hcheck
          rwa [hcharged.currentRuntime, hcharged.slice] at hlt
  user _ _ h := ⟨h.read, h.checked, h.run_le⟩

/--
**Slices are enforced.** In every run in which each charge is one step, a process is
put on a CPU with no run, returns to user mode with less than its slice or the
granularity, and folds in no more than these.
-/
theorem withinSlice {k : Kernel n} {ℓ : Ledger n} (h : RunWhere WholeCharge k ℓ) :
    WithinSlice k ℓ := by
  obtain ⟨V, hV⟩ := h.traced false
  have hcore := core_traced spared_false hV
  obtain ⟨tr, σ, hb⟩ := hcore.base
  have hlimited := (limited_local spared_false fun _ _ _ h => h).kept.traced spared_false hV
  have hcharged := charged_traced spared_false hV
  have hlimit : ∀ p, limit k.mem p = max (ℓ.account p).slice minGranularity := fun p => by
    rw [limit, (hcharged p).slice]
  refine ⟨fun c p hi => ?_, fun c p hu => ?_, fun c p hi => ?_, fun c p e k' ℓ' hi hs => ?_,
    fun p => (hcharged p).slice⟩
  · obtain ⟨next, hcode⟩ := hi
    obtain ⟨hme, -, hp, -⟩ := hcore.pre hcode
    have hst := hb.runnable_of_retrieved (Kernel.thread_eq_cpu.mpr ⟨hme, rfl⟩ ▸ hp)
    exact ((folded_local.kept.traced spared_false hV p).runnable hst).1
  · obtain ⟨⟨next, hcode⟩, hme⟩ := hu
    obtain ⟨-, -, -, -, -, -, hc, -⟩ := hcore.pre hcode
    rw [Kernel.thread_eq_proc.mpr hme] at hc
    rw [hlimit, (hcharged p).currentRuntime]
    exact (hlimited p).checked hc
  · rw [hlimit, (hcharged p).currentRuntime]
    exact ⟨(hcharged p).run_le.1, (hlimited p).run_le⟩
  · obtain ⟨next, hcode⟩ := hi
    simp only [step, hcode, execute, Option.some.injEq, Prod.mk.injEq] at hs
    rw [← hs.1, Kernel.setCode_mem, Kernel.setMem_mem, Mem.modify_self]
    rfl

/-- So it is for the first process after a timer interrupt. -/
theorem withinSlice_first : ∃ (k : Kernel 2) (ℓ : Ledger 2), k.Returns 1 0 ∧
    (ℓ.account 0).charges = 1 ∧ WithinSlice k ℓ := by
  obtain ⟨k, ℓ, hrun, hu, -, hcharges⟩ := tickRun
  exact ⟨k, ℓ, hu, hcharges, withinSlice (hrun.mono fun _ _ _ h => h.2.2.2)⟩

end Xv6Cfs
