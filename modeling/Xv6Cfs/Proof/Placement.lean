import Xv6Cfs.Proof.Core

/-!
# Every process is in one place

The ledger keeps what the views say of the processes that are on their way into
the queue or out of it, so what is known of the views holds of the machine and
its ledger alone.
-/

namespace Xv6Cfs

open RedBlack

variable {n : Nat} {k k' : Kernel n} {ℓ : Ledger n} {V : Thread n → View} {z : Bool}
  {P : Kernel n → Ledger n → Move n → Prop} {c : Fin n} {tr : ColorTree Slot} {σ : Slot → Sit n}

/-! ## The ledger and the views -/

/-- The ledger says what the views say. -/
structure Booked (k : Kernel n) (ℓ : Ledger n) (V : Thread n → View) : Prop where
  pending : ∀ t, ℓ.pending t = (V t).pending
  retrieved : ∀ c, ℓ.retrieved c = (V (.cpu c)).retrieved
  scanned : ∀ c, ℓ.scanned c = (V (k.thread c)).scan

/-- What a thread is about to insert, as the ledger has it. -/
theorem Ledger.record_pending (h : ∀ t, ℓ.pending t = (V t).pending)
    {i : Instr} {r : Answer i}
    (hpre : instrPre (k.running c) i (V (k.thread c))) (t : Thread n) :
    (ℓ.record k k' c i r).pending t = (Function.update V (k.thread c)
      (instrNext (k.thread c).me i (V (k.thread c)) r) t).pending := by
  by_cases ht : t = k.thread c
  · subst ht
    rw [Function.update_self]
    cases i with
    | acquire l => cases l <;> simp [Ledger.record, instrNext, h]
    | release l => cases l <;> simp [Ledger.record, instrNext, h]
    | stateIs p st =>
        simp only [Ledger.record, instrNext]
        split_ifs <;> simp [h]
    | pidIs p x =>
        simp only [Ledger.record, instrNext]
        split_ifs <;> simp [h]
    | write p w =>
        cases w with
        | free =>
            simp only [Ledger.record, Ledger.recordWrite, instrNext, View.write]
            split_ifs <;> simp [h]
        | _ => simp [Ledger.record, Ledger.recordWrite, instrNext, View.write, h]
    | retrieve => cases r <;> simp [Ledger.record, instrNext, h]
    | user =>
        simp only [Ledger.record, instrNext]
        split <;> simp [h]
    | insert p =>
        obtain ⟨l, hl⟩ := List.head?_eq_some_iff.mp hpre.2
        simp [Ledger.record, instrNext, h, hl]
    | _ => simp [Ledger.record, instrNext, h]
  · rw [Function.update_of_ne ht, ← h]
    cases i with
    | acquire l => cases l <;> simp [Ledger.record]
    | release l => cases l <;> simp [Ledger.record]
    | write p w =>
        cases w with
        | free =>
            simp only [Ledger.record, Ledger.recordWrite]
            split_ifs <;> simp
        | _ => simp [Ledger.record, Ledger.recordWrite, ht]
    | retrieve => cases r <;> simp [Ledger.record]
    | user =>
        simp only [Ledger.record]
        split <;> simp
    | _ => simp [Ledger.record, ht]

/-- What a scheduler has retrieved. -/
theorem Ledger.record_retrieved (h : ∀ c, ℓ.retrieved c = (V (.cpu c)).retrieved) {i : Instr}
    {r : Answer i} (hpre : instrPre (k.running c) i (V (k.thread c))) (c' : Fin n) :
    (ℓ.record k k' c i r).retrieved c' = (Function.update V (k.thread c)
      (instrNext (k.thread c).me i (V (k.thread c)) r) (.cpu c')).retrieved := by
  have hcpu : k.running c = none → (Thread.cpu c' = k.thread c ↔ c' = c) := fun hme => by
    rw [Kernel.thread_eq_cpu.mpr ⟨hme, rfl⟩, Thread.cpu.injEq]
  have hkeep : (instrNext (k.thread c).me i (V (k.thread c)) r).retrieved =
      (V (k.thread c)).retrieved → (Function.update V (k.thread c)
        (instrNext (k.thread c).me i (V (k.thread c)) r) (.cpu c')).retrieved = ℓ.retrieved c' := by
    intro hsame
    by_cases ht : Thread.cpu c' = k.thread c
    · rw [ht, Function.update_self, hsame, ← ht, h]
    · rw [Function.update_of_ne ht, h]
  cases i with
  | acquire l =>
      rw [hkeep (by simp [instrNext])]
      cases l <;> simp [Ledger.record]
  | release l =>
      rw [hkeep (by simp [instrNext])]
      cases l <;> simp [Ledger.record]
  | stateIs p st =>
      rw [hkeep (by simp only [instrNext]; split_ifs <;> rfl)]
      rfl
  | pidIs p x =>
      rw [hkeep (by simp only [instrNext]; split_ifs <;> rfl)]
      rfl
  | write p w =>
      rw [hkeep (by cases w <;> rfl)]
      cases w with
      | free =>
          simp only [Ledger.record, Ledger.recordWrite]
          split_ifs <;> simp
      | _ => simp [Ledger.record, Ledger.recordWrite]
  | retrieve =>
      by_cases hc : c' = c
      · subst hc
        rw [(hcpu hpre.2.1).mpr rfl, Function.update_self]
        cases r <;> simp [Ledger.record, instrNext]
      · rw [Function.update_of_ne (mt (hcpu hpre.2.1).mp hc), ← h]
        cases r <;> simp [Ledger.record, hc]
  | dispatch p =>
      by_cases hc : c' = c
      · subst hc
        rw [(hcpu hpre.1).mpr rfl, Function.update_self]
        simp [Ledger.record, instrNext]
      · rw [Function.update_of_ne (mt (hcpu hpre.1).mp hc), ← h]
        simp [Ledger.record, hc]
  | user =>
      rw [hkeep rfl]
      simp only [Ledger.record]
      split <;> simp
  | _ =>
      rw [hkeep rfl]
      simp [Ledger.record]

/-- Without `tickslock` there is no scan. -/
theorem Sane.scan_eq_none {me : Option Slot} {v : View} {p : Slot} (h : Sane me v)
    (hheld : v.held = [.proc p]) : v.scan = none := by
  by_contra hs
  simpa [hheld] using h.scan hs

/-- The locks that `clockintr` has taken. -/
theorem Ledger.record_scanned (hb : Base k V tr σ) (h : ∀ c, ℓ.scanned c = (V (k.thread c)).scan)
    {e : Env} {i : Instr} {r : Answer i} (hpre : instrPre (k.running c) i (V (k.thread c)))
    (hex : execute k c e i = some (k', r)) (c' : Fin n) :
    (ℓ.record k k' c i r).scanned c' = (viewNext k V c i r (k'.thread c')).scan := by
  by_cases hc : c' = c
  · subst hc
    have hself := hb.viewNext_self (r := r) hpre
    have hsame : (∀ p, i ≠ .dispatch p ∧ i ≠ .switch p) → (viewNext k V c' i r (k'.thread c')).scan =
        (instrNext (k.running c') i (V (k.thread c')) r).scan := fun hi => by
      rw [Kernel.thread_congr (congrFun (execute_running hex hi) c'), hself]
    cases i with
    | dispatch p =>
        -- The lock of the process is all that is held on either side of a switch.
        obtain ⟨hme, hheld, hp, -⟩ := hpre
        have hthread := Kernel.thread_eq_cpu.mpr ⟨hme, rfl⟩
        have hparked := hb.locking.parked p
          (hb.not_running_of_retrieved hme (by simp [hheld]) (hthread ▸ hp))
        simp only [execute, Option.some.injEq, Prod.mk.injEq] at hex
        have hnew : k'.thread c' = .proc p := Kernel.thread_eq_proc.mpr (by simp [← hex.1])
        rw [hnew, viewNext_of_ne (by simp), hthread, Function.update_of_ne (by simp),
          (hb.sane (.proc p)).scan_eq_none hparked.held]
        simp only [Ledger.record, Ledger.modify_scanned, Ledger.setRetrieved_scanned]
        rw [h, (hb.sane _).scan_eq_none hheld]
    | switch p =>
        obtain ⟨hme, hheld, -⟩ := hpre
        simp only [execute, Option.ite_none_right_eq_some, Option.some.injEq, Prod.mk.injEq] at hex
        have hnew : k'.thread c' = .cpu c' := Kernel.thread_eq_cpu.mpr ⟨by simp [← hex.2.1], rfl⟩
        rw [hnew, viewNext_of_ne (by simp), Kernel.thread_eq_proc.mpr hme, Function.update_of_ne (by simp),
          (hb.sane (.cpu c')).scan_eq_none (hb.locking.away c' p hme).held]
        simp only [Ledger.record]
        rw [h, (hb.sane _).scan_eq_none hheld]
    | acquire l =>
        rw [hsame (by simp)]
        cases l <;> simp [Ledger.record, instrNext, View.take, h]
    | release l =>
        rw [hsame (by simp)]
        cases l <;> simp [Ledger.record, instrNext, View.drop, h]
    | stateIs p st =>
        rw [hsame (by simp)]
        simp only [Ledger.record, instrNext]
        split_ifs <;> simp [h]
    | pidIs p x =>
        rw [hsame (by simp)]
        simp only [Ledger.record, instrNext]
        split_ifs <;> simp [h]
    | write p w =>
        rw [hsame (by simp)]
        cases w with
        | free =>
            simp only [Ledger.record, Ledger.recordWrite, instrNext, View.write]
            split_ifs <;> simp [h]
        | _ => simp [Ledger.record, Ledger.recordWrite, instrNext, View.write, h]
    | retrieve =>
        rw [hsame (by simp)]
        cases r <;> simp [Ledger.record, instrNext, h]
    | user =>
        rw [hsame (by simp)]
        simp only [Ledger.record, instrNext]
        split <;> simp [h]
    | _ =>
        rw [hsame (by simp)]
        simp [Ledger.record, instrNext, h]
  · rw [execute_thread_ne hex hc, hb.viewNext_ne hpre hc, ← h]
    cases i with
    | acquire l => cases l <;> simp [Ledger.record, hc]
    | release l => cases l <;> simp [Ledger.record, hc]
    | write p w =>
        cases w with
        | free =>
            simp only [Ledger.record, Ledger.recordWrite]
            split_ifs <;> simp
        | _ => simp [Ledger.record, Ledger.recordWrite]
    | retrieve => cases r <;> simp [Ledger.record]
    | user =>
        simp only [Ledger.record]
        split <;> simp
    | _ => simp [Ledger.record, hc]

/-- Away from the thread of a new process, only one view changes. -/
theorem viewNext_field {β : Type} (hb : Base k V tr σ) {i : Instr} {r : Answer i}
    (hpre : instrPre (k.running c) i (V (k.thread c))) (f : View → β)
    (hf : ∀ p root z, (k.mem.proc p).state = .used → f (.resumed p root z) = f (V (.proc p)))
    (t : Thread n) : f (viewNext k V c i r t) =
      f (Function.update V (k.thread c) (instrNext (k.thread c).me i (V (k.thread c)) r) t) := by
  cases i with
  | init p =>
      by_cases ht : t = .proc p
      · subst ht
        have hst := hb.used_of_head hpre.2
        have hne : Thread.proc p ≠ k.thread c := fun e =>
          hb.sits.absent p (.inr hst) c (Kernel.thread_eq_proc.mp e.symm)
        simp only [viewNext, Function.update_self, Function.update_of_ne hne]
        exact hf p _ _ hst
      · simp [viewNext, ht]
  | _ => rfl

theorem booked_kept : Kept P z (fun (k : Kernel n) ℓ V => Booked k ℓ V) where
  boot := ⟨fun t => by cases t <;> rfl, fun c => rfl, fun c => rfl⟩
  congr hshared hlock hnoff hrunning h :=
    ⟨h.pending, h.retrieved, fun c => by
      rw [h.scanned, Kernel.thread_congr (congrFun hrunning c)]⟩
  tick {k ℓ V} c i _ _ _ h := by
    unfold Ledger.recordInterrupt
    split <;> exact ⟨h.pending, h.retrieved, h.scanned⟩
  instr {k k' ℓ V c e i r tr σ} _ hcore hb _ _ hpre hex h := by
    refine ⟨fun t => ?_, fun c' => ?_, Ledger.record_scanned hb h.scanned hpre hex⟩
    · rw [viewNext_field hb hpre View.pending fun p _ _ hst =>
        (hb.sits.bare p (.inr (.inl hst))).pending.symm]
      exact Ledger.record_pending h.pending hpre t
    · rw [viewNext_field hb hpre View.retrieved fun p _ _ _ =>
        ((hb.sane (.proc p)).retrieved p rfl).symm]
      exact Ledger.record_retrieved h.retrieved hpre c'

/-- **The ledger says what the views say, in every reachable state.** -/
theorem booked_traced (hz : Spared P z) (h : Traced P z k ℓ V) : Booked k ℓ V :=
  booked_kept.traced hz h

/-! ## The places -/

/-- The place of a process in a situation. -/
def Sit.location : Sit n → Location n
  | .queued => .queued
  | .retrieved c => .retrieved c
  | .pending t => .pending t
  | .running c => .running c
  | .idle | .created _ => .idle

theorem mem_queue_iff (hb : Base k V tr σ) (p : Slot) : p ∈ queue k.mem ↔ σ p = .queued := by
  rw [hb.queue.rep.queue_eq]
  exact hb.sits.queued p

/-- A process is in the place its situation says, and in no other. -/
theorem located_iff (hb : Base k V tr σ) (hbook : Booked k ℓ V) (p : Slot) (s : Location n) :
    Located k ℓ p s ↔ s = (σ p).location := by
  have hfit := hb.sits.fits p
  have hqueue := mem_queue_iff hb p
  have hcount : (queue k.mem).count p = 1 ↔ p ∈ queue k.mem := by
    rw [hb.queue.rep.queue_eq]
    exact ⟨fun h => List.count_pos_iff.mp (by omega),
      List.count_eq_one_of_mem hb.queue.rep.denotes.nodup⟩
  have hpending : ∀ t, (ℓ.pending t).count p = 1 ↔ σ p = .pending t := fun t => by
    rw [hbook.pending, ← hb.sits.pending]
    exact ⟨fun h => List.count_pos_iff.mp (by omega),
      List.count_eq_one_of_mem (hb.sits.nodupPending t)⟩
  have hrunning : ∀ c, (k.mem.proc p).state = .running → (k.running c = some p ↔ σ p = .running c) := by
    refine fun c hst => ⟨fun hc => ?_, fun hσ => ((hb.sits.running c p).mpr hσ).1⟩
    cases hσ : σ p with
    | running c' =>
        obtain ⟨hc', -⟩ := (hb.sits.running c' p).mpr hσ
        rw [hb.locking.running c c' p hc hc']
    | _ => simp [hσ, Sit.Fits, hst] at hfit
  cases s with
  | queued =>
      simp only [Located, hcount, hqueue]
      cases hσ : σ p <;> simp_all [Sit.location, Sit.Fits]
  | retrieved c =>
      simp only [Located, hqueue, hbook.retrieved, hb.sits.retrieved]
      cases hσ : σ p <;> simp_all [Sit.location, Sit.Fits, eq_comm]
  | pending t =>
      simp only [Located, hqueue, hpending]
      cases hσ : σ p <;> simp_all [Sit.location, Sit.Fits, eq_comm]
  | running c =>
      simp only [Located, hqueue]
      cases hσ : σ p with
      | running c' =>
          have hst : (k.mem.proc p).state = .running := by simpa [hσ, Sit.Fits] using hfit
          simp [hst, hrunning c hst, hσ, Sit.location, eq_comm]
      | _ => simp_all [Sit.location, Sit.Fits]
  | idle =>
      simp only [Located, hqueue]
      cases hσ : σ p with
      | idle =>
          rw [hσ] at hfit
          rcases hfit with h | h | h <;> simp [Sit.location, h]
      | _ => simp_all [Sit.location, Sit.Fits]

/--
**Every process is in one place.** In every reachable state of any number of CPUs
it is queued, retrieved, about to be inserted, running, or none of these, and in
one of these ways only. So no process runs on two CPUs or is queued twice.
-/
theorem wellPlaced {k : Kernel n} {ℓ : Ledger n} (h : Run k ℓ) : WellPlaced k ℓ := by
  obtain ⟨V, hV⟩ := h.traced false
  have hcore := core_traced spared_false hV
  obtain ⟨tr, σ, hb⟩ := hcore.base
  have hbook := booked_traced spared_false hV
  refine ⟨fun p => ⟨(σ p).location, (located_iff hb hbook p _).mpr rfl, fun s hs =>
    (located_iff hb hbook p s).mp hs⟩, fun c p hc hst => ?_, hb.locking.running, fun c p hi => ?_,
    fun c p hi => ?_, fun q hq => ?_⟩
  · have hoff := hb.sits.not_on_of_state hc hst
    obtain ⟨q, hq, hheld⟩ := (hb.sane (.proc p)).on hoff
    obtain rfl : p = q := by simpa [Thread.me] using hq
    rw [hb.locking.lock, Kernel.thread_eq_proc.mpr hc]
    exact hheld
  · obtain ⟨next, hcode⟩ := hi
    obtain ⟨hme, hheld, hp, -⟩ := hcore.pre hcode
    rw [Kernel.thread_eq_cpu.mpr ⟨hme, rfl⟩] at hp
    exact ⟨hb.runnable_of_retrieved hp, hb.not_running_of_retrieved hme (by
      rw [Kernel.thread_eq_cpu.mpr ⟨hme, rfl⟩] at hheld ⊢; simp [hheld]) hp⟩
  · obtain ⟨next, hcode⟩ := hi
    obtain ⟨-, hp⟩ := hcore.pre hcode
    obtain ⟨l, -, -, -, hσ⟩ := hb.sits.pending_head hp
    have hout : p ∉ queue k.mem := by simp [mem_queue_iff hb, hσ]
    refine ⟨hout, ?_⟩
    rw [hb.queue.rep.queue_eq] at hout
    have := length_lt_NPROC hb.queue.rep.denotes.nodup hout
    simp only [RBTree.isFull, hb.queue.rep.count, beq_eq_false_iff_ne]
    omega
  · rw [hb.queue.rep.minvRuntime] at hq
    exact hb.queue.rep.runnable q (List.mem_of_head? hq)

/-! ## Two processes on two CPUs -/

/-- On the CPUs `a` and `b` of two: `b` runs the first process, until it is in user mode. -/
def riseMoves (a b : Fin 2) : List (Move 2 × Thread 2 × Option Slot) :=
  stretch 18 a (.cpu a) {} ++ stretch 3 b (.cpu b) {} ++ fetch b 0 ++ stretch 7 b (.cpu b) {} ++
  stretch 6 b (.proc 0) {}

/-- The first process forks, and comes back to user mode. -/
def bearMoves (b : Fin 2) : List (Move 2 × Thread 2 × Option Slot) :=
  stretch 42 b (.proc 0) { trap := .syscall .fork }

/-- The clock ticks on the CPU `a`, which has nothing to run and handles it in `m` steps. -/
def clockMoves (m : Nat) (a : Fin 2) : List (Move 2 × Thread 2 × Option Slot) :=
  (.interrupt a .timer, .cpu a, none) :: stretch m a (.cpu a) {}

/-- The process goes to sleep for one tick on the CPU `b`, whose scheduler takes another one. -/
def relayMoves (b : Fin 2) (p q : Slot) : List (Move 2 × Thread 2 × Option Slot) :=
  stretch 18 b (.proc p) { trap := .syscall (.sleep 1) } ++ stretch 4 b (.cpu b) {} ++ fetch b q ++
  stretch 7 b (.cpu b) {}

/-- While the second process runs on `b`, a tick wakes the first one on `a`. -/
def rouseMoves (a b : Fin 2) : List (Move 2 × Thread 2 × Option Slot) :=
  riseMoves a b ++ bearMoves b ++ relayMoves b 0 1 ++ clockMoves 7 a

theorem rouseMoves_spec : (execAs (boot 2, Ledger.empty 2) (rouseMoves 0 1)).any
    (fun s => s.1.running 1 = some 1 ∧ s.1.Issues 0 (.insert 0)) := by
  decide +kernel

/-- One process runs, and another is about to be inserted. -/
theorem wellPlaced_first : ∃ (k : Kernel 2) (ℓ : Ledger 2), k.running 1 = some 1 ∧
    k.Issues 0 (.insert 0) ∧ WellPlaced k ℓ := by
  obtain ⟨s, hs, hspec⟩ := (Option.any_eq_true _ _).mp rouseMoves_spec
  obtain ⟨hon, hinsert⟩ := of_decide_eq_true hspec
  exact ⟨s.1, s.2, hon, hinsert, wellPlaced (run_execAs .init hs)⟩

end Xv6Cfs
