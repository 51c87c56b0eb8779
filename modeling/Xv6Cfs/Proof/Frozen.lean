import Xv6Cfs.Proof.Local

/-!
# Keys are frozen while queued

A process that leaves a CPU has its run folded into its key before it is made
`RUNNABLE`, and from then on until it is on a CPU again nothing touches its key, its
run or its weight but its own insertion.
-/

namespace Xv6Cfs

open RedBlack

variable {n : Nat} {k k' : Kernel n} {ℓ : Ledger n} {V : Thread n → View} {z : Bool}
  {P : Kernel n → Ledger n → Move n → Prop} {c : Fin n} {tr : ColorTree Slot} {σ : Slot → Sit n}
  {p : Slot}

/-! ## A run is folded in once -/

/-- A process that has a run to fold in has been on a CPU, and none of it is folded in yet. -/
structure Folded (x : Proc) (a : Account) (made : Prop) : Prop where
  runnable : x.state = .runnable → x.currentRuntime = 0 ∧ a.folds = if a.dispatched then 1 else 0
  key : x.state = .runnable → a.dispatched = true → x.virtualRuntime = int32 (a.keyOn + a.ran)
  made : made → x.currentRuntime = 0 ∧ a.dispatched = false ∧ a.folds = 0
  begun : x.state = .running ∨ x.state = .sleeping → a.dispatched = true ∧ a.folds = 0
  /-- The run since it was put on the CPU, on top of the key it had then. -/
  run : x.state = .running ∨ x.state = .sleeping →
    x.virtualRuntime = a.keyOn ∧ x.currentRuntime = a.ran

/-- A process in the making is `USED`. -/
theorem Base.used_of_made (h : Base k V tr σ) (hp : Made V p) : (k.mem.proc p).state = .used := by
  obtain ⟨t, g, hp, -⟩ := hp
  have := h.sits.fits p
  rwa [h.sits.making_of_mem hp] at this

theorem folded_local : Local P z fun _ x a _ made => Folded x a made where
  links {p x x' a v m} hx h := by
    have hstate : x'.state = x.state := by simpa using congrArg Proc.state hx
    have hkey : x'.virtualRuntime = x.virtualRuntime := by
      simpa using congrArg Proc.virtualRuntime hx
    have hcurrent : x'.currentRuntime = x.currentRuntime := by
      simpa using congrArg Proc.currentRuntime hx
    constructor
    · rw [hstate, hcurrent]
      exact h.runnable
    · rw [hstate, hkey]
      exact h.key
    · rw [hcurrent]
      exact h.made
    · rw [hstate]
      exact h.begun
    · rw [hstate, hkey, hcurrent]
      exact h.run
  view _ _ _ h := h
  boot p := ⟨by simp [bootMem, rbinit, Proc.zero], by simp [bootMem, rbinit, Proc.zero], by simp,
    by simp [bootMem, rbinit, Proc.zero], by simp [bootMem, rbinit, Proc.zero]⟩
  tick _ _ _ _ h := ⟨h.runnable, h.key, h.made, h.begun, h.run⟩
  write {k ℓ V tr σ c e p w} hx h := by
    have hpre : writePre (k.running c) (V (k.thread c)) p w := hx.pre
    have hmade : (k.mem.proc p).state ≠ .used → ¬Made V p := fun hst hm =>
      hst (hx.base.used_of_made hm)
    have hrun : k.running c = some p → (V (k.thread c)).on = true →
        (k.mem.proc p).state = .running := fun hme hon =>
      hx.base.sits.running_state hme (Kernel.thread_eq_proc.mpr hme ▸ hon)
    have hseen := hx.base.sits.seen c p
    cases w with
    | fold =>
        -- the process has been asleep, or running
        have hst : (k.mem.proc p).state = .running ∨ (k.mem.proc p).state = .sleeping := by
          obtain ⟨-, hon, -, hs | ⟨hme, -⟩⟩ := hpre
          · exact .inr (hseen _ hs)
          · exact .inl (hrun hme hon)
        obtain ⟨hd, hf⟩ := h.begun hst
        obtain ⟨hkey, hran⟩ := h.run hst
        have hno := hmade (by rcases hst with e | e <;> simp [e])
        refine ⟨fun _ => ⟨rfl, ?_⟩, fun _ _ => ?_, fun hm => absurd hm hno, by simp [Write.apply],
          by simp [Write.apply]⟩
        · simp [Account.write, hd, hf]
        · simp [Write.apply, Account.write, hkey, hran]
    | sleep chan =>
        have hst := hrun hpre.2.2.1 hpre.2.1
        refine ⟨by simp [Write.apply], by simp [Write.apply],
          fun hm => absurd hm (hmade (by simp [hst])), fun _ => ?_, fun _ => ?_⟩
        · exact h.begun (.inl hst)
        · exact h.run (.inl hst)
    | runtime d =>
        have hst := hrun hpre.2.1 hpre.1
        refine ⟨fun hr => ?_, fun hr => ?_, fun hm => absurd hm (hmade (by simp [hst])),
          fun _ => ?_, fun _ => ?_⟩
        · simp [Write.apply, hst] at hr
        · simp [Write.apply, hst] at hr
        · exact h.begun (.inl hst)
        · exact ⟨(h.run (.inl hst)).1, rfl⟩
    | exit status =>
        exact ⟨by simp [Write.apply], by simp [Write.apply], h.made, by simp [Write.apply],
          by simp [Write.apply]⟩
    | used =>
        exact ⟨by simp [Write.apply], by simp [Write.apply], by simp [Write.made],
          by simp [Write.apply], by simp [Write.apply]⟩
    | free =>
        exact ⟨by simp [Write.apply], by simp [Write.apply], by simp [Write.made],
          by simp [Write.apply], by simp [Write.apply]⟩
    | ready =>
        obtain ⟨l, hl⟩ := List.head?_eq_some_iff.mp hpre.2.2
        obtain ⟨hc, hd, hf⟩ := h.made ⟨k.thread c, .adopted, by simp [hl], by simp⟩
        refine ⟨fun _ => ⟨hc, ?_⟩, fun _ hd' => ?_, by simp [Write.made], by simp [Write.apply],
          by simp [Write.apply]⟩
        · simp [Account.write, hd, hf]
        · simp [Account.write, hd] at hd'
    | _ => exact ⟨h.runnable, h.key, h.made, h.begun, h.run⟩
  insert _ h := ⟨h.runnable, h.key, h.made, h.begun, h.run⟩
  retrieve _ _ h := ⟨h.runnable, h.key, h.made, h.begun, h.run⟩
  dispatch {k ℓ V tr σ c e p} hx h := by
    obtain ⟨hme, -, hp, -⟩ := hx.pre
    have hst := hx.base.runnable_of_retrieved (Kernel.thread_eq_cpu.mpr ⟨hme, rfl⟩ ▸ hp)
    refine ⟨by simp, by simp, fun hm => ?_, fun _ => ⟨rfl, rfl⟩, fun _ => ⟨rfl, rfl⟩⟩
    have := hx.base.used_of_made hm
    simp [hst] at this
  init {k ℓ V tr σ c e p root z'} hx h := by
    have hst : (k.mem.proc p).init.state = .used := hx.base.used_of_head hx.pre.2
    exact ⟨by simp [hst], by simp [hst], fun _ => ⟨rfl, rfl, rfl⟩, by simp [hst], by simp [hst]⟩
  runtime _ h := ⟨h.runnable, h.key, h.made, h.begun, h.run⟩
  check _ h := h
  user _ _ h := ⟨h.runnable, h.key, h.made, h.begun, h.run⟩

/-! ## The queue -/

/-- What the ledger says of the last insertion of a queued process. -/
def Noted (k : Kernel n) (ℓ : Ledger n) : Prop :=
  ∀ p ∈ queue k.mem, (k.mem.proc p).virtualRuntime = (ℓ.account p).keyAt ∧
    (k.mem.proc p).weightVal = (ℓ.account p).weightAt

theorem Account.write_noted (a : Account) (b : Bool) (lk : Option Lock) (w : Write) :
    (a.write b lk w).keyAt = a.keyAt ∧ (a.write b lk w).weightAt = a.weightAt := by
  cases w <;> exact ⟨rfl, rfl⟩

/-- No instruction but its own insertion touches the key and the weight of a runnable process. -/
theorem noted_execute (hb : Base k V tr σ) {e : Env} {i : Instr} {r : Answer i}
    (hpre : instrPre (k.running c) i (V (k.thread c))) (hex : execute k c e i = some (k', r))
    (hp : (k.mem.proc p).state = .runnable) (hi : i ≠ .insert p) :
    (k'.mem.proc p).virtualRuntime = (k.mem.proc p).virtualRuntime ∧
      (k'.mem.proc p).weightVal = (k.mem.proc p).weightVal ∧
      ((ℓ.record k k' c i r).account p).keyAt = (ℓ.account p).keyAt ∧
      ((ℓ.record k k' c i r).account p).weightAt = (ℓ.account p).weightAt := by
  cases i with
  | write q w =>
      simp only [execute, Option.some.injEq, Prod.mk.injEq] at hex
      obtain ⟨rfl, -⟩ := hex
      rw [Ledger.record, Ledger.recordWrite_account, Kernel.setMem_mem]
      by_cases hq : p = q
      · subst hq
        have hkey : (w.apply (k.mem.proc p)).virtualRuntime = (k.mem.proc p).virtualRuntime := by
          cases w with
          | fold =>
              obtain ⟨-, hon, -, hs | ⟨hme, -⟩⟩ := hpre
              · have := hb.sits.seen c p _ hs
                simp [hp] at this
              · have := hb.sits.running_state hme (Kernel.thread_eq_proc.mpr hme ▸ hon)
                simp [hp] at this
          | _ => rfl
        have hweight : (w.apply (k.mem.proc p)).weightVal = (k.mem.proc p).weightVal := by
          cases w <;> rfl
        rw [if_pos rfl, Mem.modify_self]
        exact ⟨hkey, hweight, Account.write_noted _ _ _ _⟩
      · rw [if_neg hq, Mem.modify_ne _ _ hq]
        exact ⟨rfl, rfl, rfl, rfl⟩
  | insert q =>
      obtain ⟨m', tr', rfl, hins, -⟩ := hb.insert_cases hpre.2 hex
      have hne : p ≠ q := fun e => hi (e ▸ rfl)
      have hx := hins.unlinked p hne
      rw [Kernel.setMem_mem]
      refine ⟨by simpa using congrArg Proc.virtualRuntime hx,
        by simpa using congrArg Proc.weightVal hx, ?_⟩
      simp [Ledger.record, hne]
  | retrieve =>
      rcases hb.retrieve_cases hex with ⟨-, rfl, rfl⟩ | ⟨q, m', tr', rfl, rfl, hret, -⟩
      · exact ⟨rfl, rfl, rfl, rfl⟩
      · have hkey := hret.field Proc.virtualRuntime (fun _ => rfl) (fun _ _ => rfl) p
        have hweight := hret.field Proc.weightVal (fun _ => rfl) (fun _ _ => rfl) p
        rw [Kernel.setMem_mem]
        refine ⟨hkey, hweight, ?_⟩
        by_cases hq : p = q
        · subst hq
          simp [Ledger.record]
        · simp [Ledger.record, hq]
  | dispatch q =>
      simp only [execute, Option.some.injEq, Prod.mk.injEq] at hex
      obtain ⟨rfl, -⟩ := hex
      by_cases hq : p = q
      · subst hq
        simp [Ledger.record, Xv6Cfs.dispatch]
      · simp [Ledger.record, Xv6Cfs.dispatch, Mem.modify_ne _ _ hq, hq]
  | init q =>
      have hq : p ≠ q := fun e => by
        have := hb.used_of_head hpre.2
        simp [← e, hp] at this
      simp only [execute, Option.some.injEq, Prod.mk.injEq] at hex
      obtain ⟨rfl, -⟩ := hex
      simp [Ledger.record, Mem.modify_ne _ _ hq, hq]
  | runtime q =>
      simp only [execute, Option.some.injEq, Prod.mk.injEq] at hex
      obtain ⟨rfl, -⟩ := hex
      by_cases hq : p = q
      · subst hq
        simp [Ledger.record]
      · simp [Ledger.record, hq]
  | user =>
      simp only [execute, Option.some.injEq, Prod.mk.injEq] at hex
      obtain ⟨rfl, -⟩ := hex
      simp only [Ledger.record]
      split
      · rename_i q _
        by_cases hq : p = q
        · subst hq
          simp
        · simp [hq]
      · exact ⟨rfl, rfl, rfl, rfl⟩
  | acquire l | release l =>
      simp only [execute, Option.ite_none_right_eq_some, Option.some.injEq, Prod.mk.injEq] at hex
      obtain ⟨-, rfl, -⟩ := hex
      cases l <;> exact ⟨rfl, rfl, rfl, rfl⟩
  | switch q =>
      simp only [execute, Option.ite_none_right_eq_some, Option.some.injEq, Prod.mk.injEq] at hex
      obtain ⟨-, rfl, -⟩ := hex
      exact ⟨rfl, rfl, rfl, rfl⟩
  | panic => simp [execute] at hex
  | _ =>
      simp only [execute, Option.some.injEq, Prod.mk.injEq] at hex
      obtain ⟨rfl, -⟩ := hex
      exact ⟨rfl, rfl, rfl, rfl⟩

theorem noted_kept : Kept P z (fun (k : Kernel n) ℓ _ => Noted k ℓ) where
  boot p hp := by
    have hb := base_boot n z
    rw [hb.queue.rep.queue_eq] at hp
    simp at hp
  congr hshared _ _ _ h := by
    unfold Noted Kernel.mem
    rw [hshared]
    exact h
  tick {k ℓ V} c i _ _ _ h := fun p hp => by
    rw [Ledger.recordInterrupt_account]
    split_ifs <;> exact h p hp
  instr {k k' ℓ V c e i r tr σ} _ _ hb _ _ hpre hex h := by
    intro p hp
    by_cases hi : i = .insert p
    · subst hi
      obtain ⟨m', tr', rfl, hins, -⟩ := hb.insert_cases hpre.2 hex
      simp [Ledger.record]
    · -- it was in the queue before
      have hold : p ∈ queue k.mem := by
        by_cases hins : ∃ q, i = .insert q
        · obtain ⟨q, rfl⟩ := hins
          obtain ⟨m', tr', rfl, hins, -⟩ := hb.insert_cases hpre.2 hex
          rw [Kernel.setMem_mem, hins.rep.queue_eq, hins.toList, StableQueue.mem_insertBy] at hp
          rw [hb.queue.rep.queue_eq]
          exact hp.resolve_left fun e => hi (e ▸ rfl)
        · by_cases hret : i = .retrieve
          · subst hret
            rcases hb.retrieve_cases hex with ⟨-, -, rfl⟩ | ⟨q, m', tr', -, rfl, hret, -⟩
            · exact hp
            · rw [Kernel.setMem_mem, hret.rep.queue_eq] at hp
              rw [hb.queue.rep.queue_eq, hret.toList]
              exact List.mem_cons_of_mem _ hp
          · push Not at hins
            rwa [queue_execute hb hpre hex hins hret] at hp
      have hst : (k.mem.proc p).state = .runnable := by
        rw [hb.queue.rep.queue_eq] at hold
        exact hb.queue.rep.runnable p hold
      obtain ⟨h1, h2, h3, h4⟩ := noted_execute (ℓ := ℓ) hb hpre hex hst hi
      rw [h1, h2, h3, h4]
      exact h p hold

/--
**Keys are frozen while queued.** In every reachable state of any number of CPUs a
process in the tree has the key, the weight and the state it was inserted with, and
no run that is not in its key. Whoever inserts a process that has been on a CPU, the
run that ended there has been folded into its key once.
-/
theorem frozen {k : Kernel n} {ℓ : Ledger n} (h : Run k ℓ) : Frozen k ℓ := by
  obtain ⟨V, hV⟩ := h.traced false
  have hcore := core_traced spared_false hV
  obtain ⟨tr, σ, hb⟩ := hcore.base
  have hfolded := folded_local.kept.traced spared_false hV
  have hnoted := noted_kept.traced spared_false hV
  refine ⟨fun p hp => ?_, fun c p hi => ?_⟩
  · have hst : (k.mem.proc p).state = .runnable := by
      rw [hb.queue.rep.queue_eq] at hp
      exact hb.queue.rep.runnable p hp
    exact ⟨((hfolded p).runnable hst).1, hst, hnoted p hp⟩
  · obtain ⟨next, hcode⟩ := hi
    obtain ⟨-, hp⟩ := hcore.pre hcode
    obtain ⟨l, -, -, -, hσ⟩ := hb.sits.pending_head hp
    have hst := hb.sits.fits p
    rw [hσ] at hst
    obtain ⟨hzero, hfolds⟩ := (hfolded p).runnable hst
    refine ⟨hzero, fun hd => by simpa [hd] using hfolds, fun hd => ⟨by simpa [hd] using hfolds, ?_⟩⟩
    exact (hfolded p).key hst hd

/-- The first process, charged once, sleeps, and its child waits to be run. A tick wakes it. -/
def wokenMoves (a b : Fin 2) : List (Move 2 × Thread 2 × Option Slot) :=
  riseMoves a b ++ bearMoves b ++ stretch 18 b (.proc 0) { trap := .syscall (.sleep 1) } ++
  stretch 3 b (.cpu b) {} ++ clockMoves 7 a

theorem wokenMoves_spec : (execAs (boot 2, Ledger.empty 2) (wokenMoves 0 1)).any
    (fun s => queue s.1.mem = [1] ∧ s.1.Issues 0 (.insert 0) ∧
      (s.2.account 0).dispatched = true ∧ (s.2.account 0).ran = 1) := by
  decide +kernel

/-- The charge of the first process is in its key when it is about to be inserted. -/
theorem frozen_first : ∃ (k : Kernel 2) (ℓ : Ledger 2), queue k.mem = [1] ∧
    k.Issues 0 (.insert 0) ∧ (ℓ.account 0).dispatched = true ∧ (ℓ.account 0).ran = 1 ∧
    Frozen k ℓ := by
  obtain ⟨s, hs, hspec⟩ := (Option.any_eq_true _ _).mp wokenMoves_spec
  obtain ⟨hqueue, hinsert, hon, hran⟩ := of_decide_eq_true hspec
  exact ⟨s.1, s.2, hqueue, hinsert, hon, hran, frozen (run_execAs .init hs)⟩

end Xv6Cfs
