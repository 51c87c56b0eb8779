import Xv6Cfs.Proof.Charges
import Xv6Cfs.Proof.Serving

/-!
# Who is served first

The processes wait in the order of what they have been charged, and while one of them waits
no other is charged much beyond it: a process that has been charged more is not retrieved,
and one that is on a CPU folds in at most a period before it has to be retrieved again.
-/

namespace Xv6Cfs

open RedBlack StableQueue

variable {n : Nat} {k k' : Kernel n} {ℓ ℓ' : Ledger n} {V : Thread n → View} {z : Bool}
  {P : Kernel n → Ledger n → Move n → Prop} {c : Fin n} {tr : ColorTree Slot} {σ : Slot → Sit n}
  {p q : Slot} {e : Env} {i : Instr} {r : Answer i}

/-! ## The order of the queue -/

/-- A queued process has all its charges in its key. -/
theorem billed_of_queued (hb : Base k V tr σ) (hV : Traced P z k ℓ V) (hz : Spared P z)
    (hp : p ∈ queue k.mem) : (ℓ.account p).billed = (ℓ.account p).key := by
  rw [hb.queue.rep.queue_eq] at hp
  have hcharged := charged_traced hz hV p
  have hrun := ((folded_local.kept.traced hz hV p).runnable (hb.queue.rep.runnable p hp)).1
  rw [hcharged.currentRuntime] at hrun
  have := hcharged.sum
  unfold Account.billed
  omega

/--
**The queue is in the order of the charges.** In every reachable state of any number of CPUs
in which no queued process has been charged beyond the range of `int`, who is retrieved has
been charged no more than any other process in the queue.
-/
theorem fairOrder {k : Kernel n} {ℓ : Ledger n} (h : Run k ℓ)
    (hsmall : ∀ p ∈ queue k.mem, (ℓ.account p).billed < 2 ^ 31) : FairOrder k ℓ := by
  obtain ⟨V, hV⟩ := h.traced false
  have hcore := core_traced spared_false hV
  obtain ⟨tr, σ, hb⟩ := hcore.base
  have hkey : ∀ p ∈ queue k.mem, (k.mem.proc p).virtualRuntime = (ℓ.account p).billed := by
    intro p hp
    have hcharged := charged_traced spared_false hV p
    have hbill := billed_of_queued hb hV spared_false hp
    have hlt := hsmall p hp
    have hnonneg := hcharged.key_nonneg
    rw [hcharged.virtualRuntime, hbill, int32_of_isInt32 (by unfold IsInt32; omega)]
  have hsorted : SortedBy (fun p => (ℓ.account p).billed) (queue k.mem) := by
    have hkeys := hb.queue.rep.sorted
    rw [← hb.queue.rep.queue_eq] at hkeys
    refine hkeys.imp_of_mem fun hp hq hle => ?_
    simpa only [hkey _ hp, hkey _ hq] using hle
  refine ⟨hsorted, fun c e k' q _ hex p hp => ?_⟩
  rcases hb.retrieve_cases hex with ⟨-, hno, -⟩ | ⟨q', m', tr', hq, -, hgot, -⟩
  · cases hno
  · obtain rfl : q = q' := Option.some.inj hq
    have hlist : queue k.mem = q :: tr'.toList := hb.queue.rep.queue_eq.trans hgot.toList
    rw [hlist] at hsorted hp
    exact hsorted.head_le hp

/-- On the CPU `b` the first process is charged once, and its child three times; both sleep, and a
tick wakes both. The scheduler of `b` is about to take one. -/
def orderMoves (a b : Fin 2) : List (Move 2 × Thread 2 × Option Slot) :=
  riseMoves a b ++ bearMoves b ++ relayMoves b 0 1 ++ stretch 35 b (.proc 1) {} ++
  stretch 31 b (.proc 1) { trap := .syscall (.sleep 1) } ++ stretch 3 b (.cpu b) {} ++
  clockMoves 204 a ++ stretch 1 b (.cpu b) {}

theorem orderMoves_spec : (execAs (boot 2, Ledger.empty 2) (orderMoves 0 1)).any
    (fun s => queue s.1.mem = [0, 1] ∧ (s.2.account 0).billed = 1 ∧ (s.2.account 1).billed = 3 ∧
      s.1.Issues 1 .retrieve) := by
  decide +kernel

/-- The first process is before its child, and is to be taken. -/
theorem fairOrder_first : ∃ (k : Kernel 2) (ℓ : Ledger 2), queue k.mem = [0, 1] ∧
    (ℓ.account 0).billed = 1 ∧ (ℓ.account 1).billed = 3 ∧ k.Issues 1 .retrieve ∧
    FairOrder k ℓ := by
  obtain ⟨s, hs, hspec⟩ := (Option.any_eq_true _ _).mp orderMoves_spec
  obtain ⟨hqueue, h0, h1, hretrieve⟩ := of_decide_eq_true hspec
  refine ⟨s.1, s.2, hqueue, h0, h1, hretrieve, fairOrder (run_execAs .init hs) fun p hp => ?_⟩
  rw [hqueue] at hp
  rcases List.mem_pair.mp hp with rfl | rfl
  · omega
  · omega

/-! ## What an instruction does to an account -/

/-- The process has a run that is not yet in its key. -/
def ProcState.Started : ProcState → Prop
  | .running | .sleeping => True
  | _ => False

/-- **What an instruction does to the key and the run of a process.** -/
inductive Billed (k k' : Kernel n) (ℓ ℓ' : Ledger n) (i : Instr) (p : Slot) : Prop where
  | same : (ℓ'.account p).key = (ℓ.account p).key → (ℓ'.account p).run = (ℓ.account p).run →
      ((k'.mem.proc p).state.Started → (k.mem.proc p).state.Started) → Billed k k' ℓ ℓ' i p
  | fold : i = .write p .fold → (k.mem.proc p).state.Started →
      (ℓ'.account p).key = (ℓ.account p).key + (ℓ.account p).run → (ℓ'.account p).run = 0 →
      (k'.mem.proc p).state = .runnable → Billed k k' ℓ ℓ' i p
  | charge : (k.mem.proc p).state = .running → (ℓ'.account p).key = (ℓ.account p).key →
      Billed k k' ℓ ℓ' i p
  | dispatch : i = .dispatch p → (ℓ'.account p).key = (ℓ.account p).key →
      (ℓ'.account p).run = (ℓ.account p).run → Billed k k' ℓ ℓ' i p
  | init : i = .init p → (ℓ'.account p).key = 0 → (ℓ'.account p).run = 0 →
      (k'.mem.proc p).state = .used → Billed k k' ℓ ℓ' i p

theorem billed_write (hb : Base k V tr σ) {w : Write}
    (hpre : writePre (k.running c) (V (k.thread c)) p w) (q : Slot) :
    Billed k (k.setMem (k.mem.modify p w.apply)) ℓ
      (ℓ.recordWrite (k.thread c) p (k.mem.proc p) w) (.write p w) q := by
  have hacc := Ledger.recordWrite_account (ℓ := ℓ) (p := p) (k.thread c) (k.mem.proc p) w q
  have hrun : k.running c = some p → (V (k.thread c)).on = true →
      (k.mem.proc p).state = .running := fun hme hon =>
    hb.sits.running_state hme (Kernel.thread_eq_proc.mpr hme ▸ hon)
  by_cases hq : q = p
  · subst hq
    rw [if_pos rfl] at hacc
    have hproc : (k.setMem (k.mem.modify q w.apply)).mem.proc q = w.apply (k.mem.proc q) :=
      Mem.modify_self _ _ _
    cases w with
    | fold =>
        have hst : (k.mem.proc q).state.Started := by
          obtain ⟨-, hon, -, hs | ⟨hme, -⟩⟩ := hpre
          · rw [hb.sits.seen c q _ hs]
            trivial
          · rw [hrun hme hon]
            trivial
        exact .fold rfl hst (by rw [hacc]; rfl) (by rw [hacc]; rfl) (by rw [hproc]; rfl)
    | sleep chan =>
        have hst := hrun hpre.2.2.1 hpre.2.1
        exact .same (by rw [hacc]; rfl) (by rw [hacc]; rfl) fun _ => by rw [hst]; trivial
    | runtime d =>
        exact .charge (hrun hpre.2.1 hpre.1) (by rw [hacc]; rfl)
    | exit status | used | ready | free =>
        refine .same (by rw [hacc]; rfl) (by rw [hacc]; rfl) fun hst => ?_
        rw [hproc] at hst
        exact hst.elim
    | clearChan | kill | pid m | parent x =>
        refine .same (by rw [hacc]; rfl) (by rw [hacc]; rfl) fun hst => ?_
        rw [hproc] at hst
        exact hst
  · rw [if_neg hq] at hacc
    refine .same (by rw [hacc]) (by rw [hacc]) fun hst => ?_
    rwa [Kernel.setMem_mem, Mem.modify_ne _ _ hq] at hst

theorem billed_execute (hb : Base k V tr σ) (hpre : instrPre (k.running c) i (V (k.thread c)))
    (hex : execute k c e i = some (k', r)) (q : Slot) :
    Billed k k' ℓ (ℓ.record k k' c i r) i q := by
  cases i with
  | write p w =>
      simp only [execute, Option.some.injEq, Prod.mk.injEq] at hex
      obtain ⟨rfl, -⟩ := hex
      exact billed_write hb hpre q
  | insert p =>
      obtain ⟨m', tr', rfl, hput, -⟩ := hb.insert_cases hpre.2 hex
      have hst : (m'.proc q).state = (k.mem.proc q).state :=
        hput.field Proc.state (fun _ => rfl) (fun _ _ => rfl) q
      by_cases hq : q = p
      · subst hq
        exact .same (by simp [Ledger.record]) (by simp [Ledger.record]) fun h => hst ▸ h
      · exact .same (by simp [Ledger.record, hq]) (by simp [Ledger.record, hq]) fun h => hst ▸ h
  | retrieve =>
      rcases hb.retrieve_cases hex with ⟨-, rfl, rfl⟩ | ⟨p, m', tr', rfl, rfl, hgot, -⟩
      · exact .same rfl rfl id
      · have hst : (m'.proc q).state = (k.mem.proc q).state :=
          hgot.field Proc.state (fun _ => rfl) (fun _ _ => rfl) q
        by_cases hq : q = p
        · subst hq
          exact .same (by simp [Ledger.record]) (by simp [Ledger.record]) fun h => hst ▸ h
        · exact .same (by simp [Ledger.record, hq]) (by simp [Ledger.record, hq]) fun h => hst ▸ h
  | dispatch p =>
      simp only [execute, Option.some.injEq, Prod.mk.injEq] at hex
      obtain ⟨rfl, -⟩ := hex
      by_cases hq : q = p
      · subst hq
        exact .dispatch rfl (by simp [Ledger.record]) (by simp [Ledger.record])
      · exact .same (by simp [Ledger.record, hq]) (by simp [Ledger.record, hq]) fun h => by
          simpa [Xv6Cfs.dispatch, Mem.modify_ne _ _ hq] using h
  | init p =>
      simp only [execute, Option.some.injEq, Prod.mk.injEq] at hex
      obtain ⟨rfl, -⟩ := hex
      by_cases hq : q = p
      · subst hq
        refine .init rfl (by simp [Ledger.record]) (by simp [Ledger.record]) ?_
        rw [Kernel.setCode_mem, Kernel.setMem_mem, Mem.modify_self]
        exact hb.used_of_head hpre.2
      · exact .same (by simp [Ledger.record, hq]) (by simp [Ledger.record, hq]) fun h => by
          simpa [Mem.modify_ne _ _ hq] using h
  | runtime p =>
      simp only [execute, Option.some.injEq, Prod.mk.injEq] at hex
      obtain ⟨rfl, -⟩ := hex
      by_cases hq : q = p
      · subst hq
        exact .same (by simp [Ledger.record]) (by simp [Ledger.record]) id
      · exact .same (by simp [Ledger.record, hq]) (by simp [Ledger.record, hq]) id
  | user =>
      simp only [execute, Option.some.injEq, Prod.mk.injEq] at hex
      obtain ⟨rfl, -⟩ := hex
      simp only [Ledger.record]
      split
      · rename_i p _
        by_cases hq : q = p
        · subst hq
          exact .same (by simp) (by simp) id
        · exact .same (by simp [hq]) (by simp [hq]) id
      · exact .same rfl rfl id
  | acquire l | release l =>
      simp only [execute, Option.ite_none_right_eq_some, Option.some.injEq, Prod.mk.injEq] at hex
      obtain ⟨-, rfl, -⟩ := hex
      cases l <;> exact .same rfl rfl id
  | switch p =>
      simp only [execute, Option.ite_none_right_eq_some, Option.some.injEq, Prod.mk.injEq] at hex
      obtain ⟨-, rfl, -⟩ := hex
      exact .same rfl rfl id
  | panic => simp [execute] at hex
  | _ =>
      simp only [execute, Option.some.injEq, Prod.mk.injEq] at hex
      obtain ⟨rfl, -⟩ := hex
      exact .same rfl rfl id

/-! ## While a process waits -/

/-- What `q` has been charged stays within a period of `B`. -/
structure Within (B : Int) (k : Kernel n) (ℓ : Ledger n) (q : Slot) : Prop where
  begun : (k.mem.proc q).state.Started ∨ (∃ c, ℓ.retrieved c = some q) → (ℓ.account q).key ≤ B
  spent : (ℓ.account q).key + (ℓ.account q).run ≤ B + minGranularity * NPROC

/-- Who is retrieved while `p` waits has been charged no more than `p`. -/
theorem key_le_of_retrieved {m' : Mem} {tr' : ColorTree Slot} (hb : Base k V tr σ)
    (hkey : ∀ p, (k.mem.proc p).virtualRuntime = (ℓ.account p).key) (hp : p ∈ queue k.mem)
    (hgot : Retrieved k.mem tr q m' tr') : (ℓ.account q).key ≤ (ℓ.account p).key := by
  have hsorted := hb.queue.rep.sorted
  rw [hb.queue.rep.queue_eq] at hp
  rw [hgot.toList] at hsorted hp
  have hle := hsorted.head_le hp
  rwa [hkey, hkey] at hle

theorem within_execute {B : Int} (hb : Base k V tr σ) (hbook : Booked k ℓ V)
    (hkey : ∀ p, (k.mem.proc p).virtualRuntime = (ℓ.account p).key) (hp : p ∈ queue k.mem)
    (hB : 0 ≤ B) (hpB : (ℓ.account p).key ≤ B)
    (hpre : instrPre (k.running c) i (V (k.thread c))) (hex : execute k c e i = some (k', r))
    (hrun : ((ℓ.record k k' c i r).account q).run ≤ minGranularity * NPROC)
    (h : Within B k ℓ q) : Within B k' (ℓ.record k k' c i r) q := by
  have hgranularity : 0 ≤ minGranularity * NPROC := by decide
  -- A process that is in the hands of a scheduler has a key that is small enough.
  have hretrieved : (∃ c', (ℓ.record k k' c i r).retrieved c' = some q) →
      (ℓ.account q).key ≤ B := by
    rintro ⟨c', hc'⟩
    by_cases hret : i = .retrieve
    · subst hret
      rcases hb.retrieve_cases hex with ⟨-, rfl, rfl⟩ | ⟨q', m', tr', rfl, rfl, hgot, -⟩
      · by_cases hcc : c' = c
        · subst hcc
          simp [Ledger.record] at hc'
        · exact h.begun (.inr ⟨c', by simpa [Ledger.record, hcc] using hc'⟩)
      · by_cases hcc : c' = c
        · subst hcc
          obtain rfl : q' = q := by simpa [Ledger.record] using hc'
          exact (key_le_of_retrieved hb hkey hp hgot).trans hpB
        · exact h.begun (.inr ⟨c', by simpa [Ledger.record, hcc] using hc'⟩)
    · exact h.begun (.inr ⟨c', Ledger.retrieved_before hret hc'⟩)
  cases billed_execute (ℓ := ℓ) hb hpre hex q with
  | same hkey' hrun' hst =>
      refine ⟨fun hbegun => ?_, by rw [hkey', hrun']; exact h.spent⟩
      rw [hkey']
      rcases hbegun with hs | hr
      · exact h.begun (.inl (hst hs))
      · exact hretrieved hr
  | fold hi hst hkey' hrun' hst' =>
      subst hi
      refine ⟨fun hbegun => ?_, by rw [hkey', hrun', add_zero]; exact h.spent⟩
      rcases hbegun with hs | ⟨c', hc'⟩
      · rw [hst'] at hs
        exact hs.elim
      · -- Who is folded is on a CPU, or asleep.
        have hc := Ledger.retrieved_before (by simp) hc'
        have hrunnable := hb.runnable_of_retrieved ((hbook.retrieved c').symm.trans hc)
        rw [hrunnable] at hst
        exact hst.elim
  | charge hst hkey' =>
      have hq := h.begun (.inl (by rw [hst]; trivial))
      exact ⟨fun _ => hkey' ▸ hq, by omega⟩
  | dispatch hi hkey' hrun' =>
      subst hi
      obtain ⟨hme, -, hq, -⟩ := hpre
      have hold : ℓ.retrieved c = some q := by
        rw [hbook.retrieved, ← Kernel.thread_eq_cpu.mpr ⟨hme, rfl⟩]
        exact hq
      exact ⟨fun _ => hkey' ▸ h.begun (.inr ⟨c, hold⟩), by rw [hkey', hrun']; exact h.spent⟩
  | init hi hkey' hrun' hst' => exact ⟨fun _ => hkey' ▸ hB, by omega⟩

/-- The key of a process stays what it is while it waits. -/
theorem key_of_queued (hb : Base k V tr σ) (hpre : instrPre (k.running c) i (V (k.thread c)))
    (hex : execute k c e i = some (k', r)) (hp : p ∈ queue k.mem) :
    ((ℓ.record k k' c i r).account p).key = (ℓ.account p).key := by
  have hst : (k.mem.proc p).state = .runnable := by
    rw [hb.queue.rep.queue_eq] at hp
    exact hb.queue.rep.runnable p hp
  cases billed_execute (ℓ := ℓ) hb hpre hex p with
  | same hkey hrun hs => exact hkey
  | fold hi hs =>
      rw [hst] at hs
      exact hs.elim
  | charge hs hkey => exact hkey
  | dispatch hi hkey hrun => exact hkey
  | init hi hkey hrun hs =>
      subst hi
      have hused := hb.used_of_head hpre.2
      rw [hst] at hused
      cases hused

/-- What holds of a wait from its start `k₀` on. -/
structure Waited (B : Int) (p q : Slot) (k : Kernel n) (ℓ : Ledger n) : Prop where
  run : RunWhere (fun k _ mv => Unwrapped k mv) k ℓ
  key : (ℓ.account p).key ≤ B
  within : Within B k ℓ q

theorem Waited.step {B : Int} {mv : Move n} (h : Waited B p q k ℓ) (hB : 0 ≤ B)
    (hmv : Unwrapped k mv) (hp : p ∈ queue k.mem) (hs : step k ℓ mv = some (k', ℓ')) :
    Waited B p q k' ℓ' := by
  obtain ⟨V, hV⟩ := h.run.traced false
  have hcore := core_traced spared_false hV
  have hbook := booked_traced spared_false hV
  have hkey := (unwrapped_local spared_false fun _ _ _ h => h).kept.traced spared_false hV
  obtain ⟨tr, σ, hb⟩ := hcore.base
  obtain ⟨V', hstep⟩ := viewStep_of_step hs V
  have hcharged := charged_traced spared_false (hV.tail hmv hstep) q
  refine ⟨h.run.tail hmv hs, ?_, ?_⟩
  · cases hstep with
    | call hcode => exact h.key
    | instr hcode hex => exact (key_of_queued hb (hcore.pre hcode) hex hp).trans_le h.key
    | interrupt hi hoff =>
        rw [Ledger.recordInterrupt_account]
        split_ifs <;> exact h.key
  · cases hstep with
    | call hcode => exact ⟨h.within.begun, h.within.spent⟩
    | instr hcode hex =>
        have hnext := within_execute hb hbook hkey hp hB h.key (hcore.pre hcode) hex
          hcharged.run_le.2 h.within
        exact ⟨hnext.begun, hnext.spent⟩
    | interrupt hi hoff =>
        refine ⟨fun hbegun => ?_, ?_⟩
        · rw [Ledger.recordInterrupt_retrieved] at hbegun
          rw [Ledger.recordInterrupt_account]
          split_ifs <;> exact h.within.begun hbegun
        · rw [Ledger.recordInterrupt_account]
          split_ifs <;> exact h.within.spent

/--
**Nobody is charged much beyond a process that waits.** In every run in which no key leaves
the range of `int`, for any number of CPUs: from any state on, as long as `p` is in the queue
no process is charged more than a period beyond the key that `p` waits with, or beyond its
own key at the start if that was larger.
-/
theorem overtaken {k k' : Kernel n} {ℓ ℓ' : Ledger n} {p : Slot}
    (h : RunWhere (fun k _ mv => Unwrapped k mv) k ℓ)
    (hs : Steps (fun k _ mv => Unwrapped k mv ∧ p ∈ queue k.mem) k ℓ k' ℓ') (q : Slot) :
    (ℓ'.account q).billed ≤
      max (k.mem.proc p).virtualRuntime (k.mem.proc q).virtualRuntime + minGranularity * NPROC := by
  obtain ⟨V, hV⟩ := h.traced false
  have hcharged := charged_traced spared_false hV
  have hkey := (unwrapped_local spared_false fun _ _ _ h => h).kept.traced spared_false hV
  rw [hkey p, hkey q]
  have hnonneg := (hcharged p).key_nonneg
  have hp := le_max_left (ℓ.account p).key (ℓ.account q).key
  have hq := le_max_right (ℓ.account p).key (ℓ.account q).key
  have hrun := (hcharged q).run_le.2
  have hwaited : Waited (max (ℓ.account p).key (ℓ.account q).key) p q k' ℓ' := by
    induction hs with
    | refl => exact ⟨h, hp, fun _ => hq, add_le_add hq hrun⟩
    | tail _ hmv hstep ih => exact ih.step (by omega) hmv.1 hmv.2 hstep
  obtain ⟨V', hV'⟩ := hwaited.run.traced false
  have hsum := (charged_traced spared_false hV' q).sum
  unfold Account.billed
  rw [← hsum]
  exact hwaited.within.spent

/-- The child of the first process waits, and the first process is charged twice more. -/
theorem spendMoves_spec : (execWhere (fun k _ mv => Unwrapped k mv) (boot 2, Ledger.empty 2)
    ((riseMoves 0 1 ++ bearMoves 1).map (·.1))).any (fun s =>
      (execWhere (fun k _ mv => Unwrapped k mv ∧ 1 ∈ queue k.mem) s
        ((stretch 30 1 (.proc 0) {}).map (·.1))).any fun s' =>
          (s.2.account 0).billed = 1 ∧ (s'.2.account 0).billed = 3 ∧ 1 ∈ queue s'.1.mem) := by
  decide +kernel

/-- The first process is charged while its child waits, and has overtaken it by 3 then. -/
theorem overtaken_first : ∃ (k k' : Kernel 2) (ℓ ℓ' : Ledger 2),
    Steps (fun k _ mv => Unwrapped k mv ∧ 1 ∈ queue k.mem) k ℓ k' ℓ' ∧ 1 ∈ queue k'.mem ∧
    (ℓ.account 0).billed = 1 ∧ (ℓ'.account 0).billed = 3 ∧ (ℓ'.account 0).billed ≤
      max (k.mem.proc 1).virtualRuntime (k.mem.proc 0).virtualRuntime + minGranularity * NPROC := by
  obtain ⟨s, hs, hspec⟩ := (Option.any_eq_true _ _).mp spendMoves_spec
  obtain ⟨s', hs', hspec⟩ := (Option.any_eq_true _ _).mp hspec
  obtain ⟨h1, h3, hwaits⟩ := of_decide_eq_true hspec
  have hsteps : Steps (fun k _ mv => Unwrapped k mv ∧ 1 ∈ queue k.mem) s.1 s.2 s'.1 s'.2 :=
    Steps.refl.execWhere hs'
  exact ⟨s.1, s'.1, s.2, s'.2, hsteps, hwaits, h1, h3,
    overtaken (runWhere_exec .init hs) hsteps 0⟩

end Xv6Cfs
