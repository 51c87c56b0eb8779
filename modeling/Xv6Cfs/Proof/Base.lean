import Xv6Cfs.Proof.Ancestry
import Xv6Cfs.Proof.Nice
import Xv6Cfs.Proof.Period

/-!
# What an instruction keeps

The run queue in memory, the locks, the situations of the processes and the
`initproc` are one invariant, which every instruction keeps that the rules allow.
-/

namespace Xv6Cfs

open RedBlack StableQueue

variable {n : Nat} {k k' : Kernel n} {V : Thread n → View}

/-! ## The run queue and the slots outside it -/

/--
The queue of `m` is `t`; a slot outside it has no children, every nice value is 0,
and the period is that of some number of processes.
-/
structure Queued (m : Mem) (t : ColorTree Slot) : Prop where
  rep : QueueRep m t
  left : ∀ p, p ∉ t.toList → (m.proc p).left = none
  right : ∀ p, p ∉ t.toList → (m.proc p).right = none
  nice : ∀ p, (m.proc p).niceVal = 0
  period : 0 ≤ m.tree.period ∧ m.tree.period ≤ minGranularity * NPROC

namespace Queued

variable {m : Mem} {t : ColorTree Slot} {p : Slot}

/-- A change that the queue does not see. -/
theorem modify (h : Queued m t) {f : Proc → Proc}
    (hin : p ∈ t.toList → SameQueued (f (m.proc p)) (m.proc p))
    (hleft : p ∉ t.toList → (f (m.proc p)).left = none)
    (hright : p ∉ t.toList → (f (m.proc p)).right = none)
    (hnice : (f (m.proc p)).niceVal = 0) : Queued (m.modify p f) t := by
  refine ⟨h.rep.congr rfl fun q hq => ?_, fun q hq => ?_, fun q hq => ?_, fun q => ?_, h.period⟩
  · by_cases hqp : q = p
    · subst hqp
      simpa using hin hq
    · rw [Mem.modify_ne _ _ hqp]
      exact .refl _
  · by_cases hqp : q = p
    · subst hqp
      simpa using hleft hq
    · rw [Mem.modify_ne _ _ hqp]
      exact h.left q hq
  · by_cases hqp : q = p
    · subst hqp
      simpa using hright hq
    · rw [Mem.modify_ne _ _ hqp]
      exact h.right q hq
  · by_cases hqp : q = p
    · subst hqp
      simpa using hnice
    · rw [Mem.modify_ne _ _ hqp]
      exact h.nice q

/-- The assignments that the queue does not see. -/
theorem write (h : Queued m t) (w : Write)
    (hw : p ∈ t.toList → w = .kill ∨ w = .clearChan ∨ ∃ q, w = .parent q) :
    Queued (m.modify p w.apply) t := by
  refine h.modify (fun hp => ?_) (fun hp => ?_) (fun hp => ?_) ?_
  · rcases hw hp with rfl | rfl | ⟨q, rfl⟩ <;> exact ⟨⟨rfl, rfl, rfl, rfl⟩, rfl, rfl, rfl⟩
  · rw [← h.left p hp]
    cases w <;> rfl
  · rw [← h.right p hp]
    cases w <;> rfl
  · rw [← h.nice p]
    cases w <;> rfl

/-- **`insertProcess` succeeds on a runnable process that is not queued.** -/
theorem insert (h : Queued m t) (hp : p ∉ t.toList) (hst : (m.proc p).state = .runnable) :
    ∃ m' t', insertProcessLocked (calculateWight loopFuel) m p = .ok m' ∧
      Inserted m t p 819 m' t' ∧ Queued m' t' := by
  have hw : calculateWight loopFuel (m.proc p).niceVal = .ok 819 :=
    calculateWight_of_nonpos (h.nice p).le _
  obtain ⟨m', t', hrun, hi⟩ :=
    insertProcessLocked_spec h.rep hp (h.left p hp) (h.right p hp) hst hw (by decide)
  have hout : ∀ q, q ∉ t'.toList → q ∉ t.toList := fun q hq hmem => by
    refine hq ?_
    rw [hi.toList]
    exact mem_insertBy.mpr (.inr hmem)
  refine ⟨m', t', hrun, hi, hi.rep, fun q hq => ?_, fun q hq => ?_, fun q => ?_, hi.period ▸ h.period⟩
  · rw [hi.outside q hq]
    exact h.left q (hout q hq)
  · rw [hi.outside q hq]
    exact h.right q (hout q hq)
  · rw [hi.field Proc.niceVal (fun _ => rfl) (fun _ _ => rfl) q]
    exact h.nice q

/-- The period stays that of some number of processes. -/
theorem nextPeriod_bounds (h : Queued m t) : 0 ≤ nextPeriod m.tree.count m.tree.period ∧
    nextPeriod m.tree.count m.tree.period ≤ minGranularity * NPROC := by
  have hlen := length_le_NPROC h.rep.denotes.nodup
  have hcount := h.rep.count
  have hperiod := h.period
  rw [minGranularity_eq] at hperiod ⊢
  unfold nextPeriod
  rw [latency_div, minGranularity_eq]
  split_ifs <;> omega

/-- **A slice is no longer than the period.** -/
theorem slice_bounds {m' : Mem} {t' : ColorTree Slot} (h : Queued m t) (hr : Retrieved m t p m' t') :
    0 ≤ (m'.proc p).maxExecutionTime ∧ (m'.proc p).maxExecutionTime ≤ minGranularity * NPROC := by
  have hmem : p ∈ t.toList := by simp [hr.toList]
  obtain ⟨hlo, hhi⟩ := h.nextPeriod_bounds
  have hpos := h.rep.weight_pos p hmem
  have hle := h.rep.weight_le hmem
  have hprod := Int.mul_nonneg hlo hpos.le
  rw [hr.slice, Int.tdiv_eq_ediv_of_nonneg hprod]
  refine ⟨Int.ediv_nonneg hprod (by omega), (Int.ediv_le_of_le_mul (by omega) ?_).trans hhi⟩
  exact Int.mul_le_mul_of_nonneg_left hle hlo

/-- **`retrieveProcess` takes the first process, if there is one.** -/
theorem retrieve (h : Queued m t) :
    t.toList = [] ∧ retrieveProcessLocked m = .ok (m, none) ∨
      ∃ p m' t', retrieveProcessLocked m = .ok (m', some p) ∧ Retrieved m t p m' t' ∧
        Queued m' t' := by
  cases hhead : t.toList.head? with
  | none =>
      have hnil := List.head?_eq_none_iff.mp hhead
      exact .inl ⟨hnil, retrieveProcessLocked_empty h.rep hnil⟩
  | some p =>
      obtain ⟨m', t', hrun, hr⟩ := retrieveProcessLocked_spec h.rep hhead
      have hout : ∀ q, q ≠ p → q ∉ t'.toList → q ∉ t.toList := fun q hqp hq => by
        rw [hr.toList]
        simp [hqp, hq]
      refine .inr ⟨p, m', t', hrun, hr, hr.rep, fun q hq => ?_, fun q hq => ?_, fun q => ?_,
        hr.period ▸ h.nextPeriod_bounds⟩
      · by_cases hqp : q = p
        · rw [hqp, hr.left]
        · rw [hr.outside q (hout q hqp hq)]
          exact h.left q (hout q hqp hq)
      · by_cases hqp : q = p
        · rw [hqp, hr.right]
        · rw [hr.outside q (hout q hqp hq)]
          exact h.right q (hout q hqp hq)
      · rw [hr.field Proc.niceVal (fun _ => rfl) (fun _ _ => rfl) q]
        exact h.nice q

end Queued

/-! ## The invariant -/

/-- The queue is `tr`, the situations are `σ`. -/
structure Base (k : Kernel n) (V : Thread n → View) (tr : ColorTree Slot) (σ : Slot → Sit n) :
    Prop where
  sane : ∀ t, Sane t.me (V t)
  locking : Locking k V
  sits : Situations k V tr.toList σ
  queue : Queued k.mem tr
  ancestry : Ancestry k V

variable {tr : ColorTree Slot} {σ : Slot → Sit n} {c : Fin n} {p : Slot}

namespace Base

theorem sane_me (h : Base k V tr σ) (c : Fin n) : Sane (k.running c) (V (k.thread c)) := by
  rw [← Kernel.thread_me]
  exact h.sane _

/-- The other views stay as they are. -/
theorem sane_update (h : Base k V tr σ) {v : View} (hv : Sane (k.running c) v) (t : Thread n) :
    Sane t.me (Function.update V (k.thread c) v t) := by
  by_cases ht : t = k.thread c
  · subst ht
    rw [Function.update_self, Kernel.thread_me]
    exact hv
  · rw [Function.update_of_ne ht]
    exact h.sane t

/-- An instruction that moves no process and touches no lock. -/
theorem update (h : Base k V tr σ) {v : View} (hsane : Sane (k.running c) v)
    (hlock : k'.lock = k.lock) (hnoff : k'.noff = k.noff) (hrunning : k'.running = k.running)
    (hinit : k'.shared.initproc = k.shared.initproc) (hqueue : Queued k'.mem tr)
    (hstate : ∀ q, (k'.mem.proc q).state = (k.mem.proc q).state)
    (hheld : v.held = (V (k.thread c)).held) (hcreated : v.created = (V (k.thread c)).created)
    (hpending : v.pending = (V (k.thread c)).pending)
    (hretrieved : v.retrieved = (V (k.thread c)).retrieved)
    (hon : v.on = (V (k.thread c)).on) (hstarting : v.starting = (V (k.thread c)).starting)
    (hroot : v.root = (V (k.thread c)).root)
    (hseen : ∀ q st, v.seen = some (q, st) → (k.mem.proc q).state = st)
    (hreading : v.reading = (V (k.thread c)).reading ∨ v.reading = none ∨
      ∃ q, k.running c = some q ∧ (k.mem.proc q).state = .running) :
    Base k' (Function.update V (k.thread c) v) tr σ where
  sane := h.sane_update hsane
  locking := h.locking.update hlock hnoff hrunning hheld
  sits := h.sits.update hrunning hstate (by simp [View.making?, hcreated]) hpending hretrieved hon
    hseen hreading
  queue := hqueue
  ancestry := h.ancestry.update hinit (fun q => by rw [hstate]) (fun i _ hi => hstate i ▸ hi)
    (fun q g hq hg => ⟨g, hg, hcreated ▸ hq⟩) (fun _ _ => hcreated) hstarting hroot

/-- What the threads have still to do, and whether a CPU takes interrupts, plays no part. -/
theorem congr (h : Base k V tr σ) (hshared : k'.shared = k.shared) (hlock : k'.lock = k.lock)
    (hnoff : k'.noff = k.noff) (hrunning : k'.running = k.running) : Base k' V tr σ := by
  obtain ⟨h1, h2, h3, h4, h5⟩ := h
  cases k
  cases k'
  simp only at hshared hlock hnoff hrunning
  subst hshared hlock hnoff hrunning
  exact ⟨h1, ⟨h2.lock, h2.noff, h2.running, h2.away, h2.parked⟩,
    ⟨h3.created, h3.pending, h3.retrieved, h3.queued, h3.running, h3.fits, h3.nodupCreated,
      h3.nodupPending, h3.seen, h3.bare, h3.absent⟩,
    h4, ⟨h5.root, h5.starting, h5.making, h5.scheduler, h5.live⟩⟩

/-! ## The locks -/

theorem acquire (h : Base k V tr σ) {l : Lock} (hfree : k.lock l = none)
    (hord : Ordered (k.running c) (V (k.thread c)) l) :
    Base (k.take c l) (Function.update V (k.thread c) ((V (k.thread c)).take l)) tr σ where
  sane := h.sane_update ((h.sane_me c).take hord)
  locking := h.locking.take hfree (by simp)
  sits := h.sits.update rfl (fun _ => rfl) (by simp [View.making?]) (by simp) (by simp) (by simp)
    (fun q st hs => h.sits.seen c q st (by simpa using hs)) (.inl (by simp))
  queue := h.queue
  ancestry := h.ancestry.update rfl (fun _ => Iff.rfl) (fun _ _ hi => hi)
    (fun q g hq hg => ⟨g, hg, by simpa using hq⟩) (fun _ _ => by simp) (by simp) (by simp)

theorem release (h : Base k V tr σ) {l : Lock} (hl : k.lock l = some c)
    (hrel : Releasable (k.running c) (V (k.thread c)) l) :
    Base (k.drop c l) (Function.update V (k.thread c) ((V (k.thread c)).drop (k.running c) l)) tr
      σ where
  sane := h.sane_update ((h.sane_me c).drop hrel)
  locking := h.locking.drop h.sane hl (by simp)
  sits := h.sits.update rfl (fun _ => rfl) (by simp [View.making?]) (by simp) (by simp) (by simp)
    (fun q st hs => h.sits.seen c q st (by
      cases l <;> first | exact hs | simp [View.drop] at hs)) (.inl (by simp))
  queue := h.queue
  ancestry := h.ancestry.update rfl (fun _ => Iff.rfl) (fun _ _ hi => hi)
    (fun q g hq hg => ⟨g, hg, by simpa using hq⟩) (fun _ _ => by simp) (by simp) (by simp)

/-! ## The assignments -/

/-- A process that is not `RUNNABLE` is not in the queue. -/
theorem not_queued (h : Base k V tr σ) (hst : (k.mem.proc p).state ≠ .runnable) :
    p ∉ tr.toList := fun hp => hst (h.queue.rep.runnable p hp)

/-- An assignment that moves no process. -/
theorem quiet (h : Base k V tr σ) {w : Write} (hpre : writePre (k.running c) (V (k.thread c)) p w)
    (hstate : ∀ x, (w.apply x).state = x.state)
    (hin : p ∈ tr.toList → w = .kill ∨ w = .clearChan ∨ ∃ q, w = .parent q)
    (hview : (V (k.thread c)).write (k.running c) p w =
      { (V (k.thread c)) with
        named := ((V (k.thread c)).write (k.running c) p w).named
        fresh := ((V (k.thread c)).write (k.running c) p w).fresh
        reading := ((V (k.thread c)).write (k.running c) p w).reading
        due := ((V (k.thread c)).write (k.running c) p w).due
        charged := ((V (k.thread c)).write (k.running c) p w).charged })
    (hreading : ((V (k.thread c)).write (k.running c) p w).reading = (V (k.thread c)).reading ∨
      ((V (k.thread c)).write (k.running c) p w).reading = none) :
    Base (k.setMem (k.mem.modify p w.apply))
      (Function.update V (k.thread c) ((V (k.thread c)).write (k.running c) p w)) tr σ := by
  have hst : ∀ q, ((k.mem.modify p w.apply).proc q).state = (k.mem.proc q).state := fun q => by
    by_cases hq : q = p
    · rw [hq, Mem.modify_self, hstate]
    · rw [Mem.modify_ne _ _ hq]
  have hsane := (h.sane_me c).write hpre
  generalize hv : (V (k.thread c)).write (k.running c) p w = v at *
  rw [hview] at hsane ⊢
  refine h.update hsane rfl rfl rfl rfl (h.queue.write w hin) hst rfl rfl rfl rfl rfl rfl rfl
    (fun q st hs => h.sits.seen c q st hs) ?_
  rcases hreading with hr | hr
  · exact .inl hr
  · exact .inr (.inl hr)

/-- `reparent` and `fork` set a parent. -/
theorem parent (h : Base k V tr σ) {q : Option Slot}
    (hpre : writePre (k.running c) (V (k.thread c)) p (.parent q)) :
    Base (k.setMem (k.mem.modify p (Write.parent q).apply))
      (Function.update V (k.thread c) ((V (k.thread c)).write (k.running c) p (.parent q))) tr σ := by
  obtain ⟨-, hme, hcase⟩ := id hpre
  have hst : ∀ x, ((k.mem.modify p (Write.parent q).apply).proc x).state = (k.mem.proc x).state :=
    fun x => by
      by_cases hx : x = p
      · rw [hx, Mem.modify_self]
        rfl
      · rw [Mem.modify_ne _ _ hx]
  set v := (V (k.thread c)).write (k.running c) p (.parent q) with hv
  have hmaking : v.making? = (V (k.thread c)).making? := by
    rcases hcase with ⟨hq, hhead⟩ | ⟨hq, -⟩
    · obtain ⟨l, hl⟩ := List.head?_eq_some_iff.mp hhead
      simp [hv, View.write, View.making?, hq, hl]
    · simp [hv, View.write, View.making?, hq]
  refine ⟨h.sane_update ((h.sane_me c).write hpre), h.locking.update rfl rfl rfl rfl,
    h.sits.update rfl hst hmaking rfl rfl rfl (fun x st hs => h.sits.seen c x st hs) (.inl rfl),
    h.queue.write _ fun _ => .inr (.inr ⟨q, rfl⟩),
    h.ancestry.update rfl (fun x => by rw [Kernel.setMem_mem, hst])
      (fun i _ hi => (hst i).symm ▸ hi) (fun x g hx hg => ?_) (fun c' hc' => ?_) rfl rfl⟩
  · rcases hcase with ⟨hq, hhead⟩ | ⟨hq, -⟩
    · obtain ⟨l, hl⟩ := List.head?_eq_some_iff.mp hhead
      have hx' : x = p ∧ g = .adopted ∨ (x, g) ∈ l := by
        simpa [hv, View.write, hq, hl] using hx
      rcases hx' with ⟨rfl, -⟩ | hmem
      · exact ⟨.initialised, by simp, by simp [hl]⟩
      · exact ⟨g, hg, by simp [hl, hmem]⟩
    · exact ⟨g, hg, by simpa [hv, View.write, hq] using hx⟩
  · obtain ⟨hnone, -⟩ := Kernel.thread_eq_cpu.mp hc'
    simp [hnone] at hme

/-- `yield`, `wakeup`, `kill`. -/
theorem fold (h : Base k V tr σ) (hpre : writePre (k.running c) (V (k.thread c)) p .fold) :
    ∃ σ', Base (k.setMem (k.mem.modify p Write.fold.apply))
      (Function.update V (k.thread c) ((V (k.thread c)).write (k.running c) p .fold)) tr σ' := by
  -- The process has been asleep, or running.
  have hst : (k.mem.proc p).state = .sleeping ∨ (k.mem.proc p).state = .running := by
    obtain ⟨-, hon, -, hseen | ⟨hme, -⟩⟩ := hpre
    · exact .inl (h.sits.seen c p _ hseen)
    · exact .inr (h.sits.running_state hme (Kernel.thread_eq_proc.mpr hme ▸ hon))
  refine ⟨_, h.sane_update ((h.sane_me c).write hpre), h.locking.update rfl rfl rfl rfl,
    h.sits.fold h.locking h.sane hpre, h.queue.write _ fun hp => ?_,
    h.ancestry.update rfl (fun q => ?_) (fun i _ hi => ?_) (fun q g hq hg => ⟨g, hg, hq⟩)
      (fun _ _ => rfl) rfl rfl⟩
  · exact absurd hp (h.not_queued (by rcases hst with e | e <;> simp [e]))
  · by_cases hq : q = p
    · subst hq
      rcases hst with e | e <;> simp [ProcState.Born, Write.apply, e]
    · rw [Kernel.setMem_mem, Mem.modify_ne _ _ hq]
  · by_cases hq : i = p
    · subst hq
      simp [ProcState.Live, Write.apply]
    · rwa [Kernel.setMem_mem, Mem.modify_ne _ _ hq]

/-- `sleep` and `exit`. -/
theorem stop (h : Base k V tr σ) {w : Write} (hpre : writePre (k.running c) (V (k.thread c)) p w)
    (hw : (∃ chan, w = .sleep chan) ∨ ∃ status, w = .exit status) :
    ∃ σ', Base (k.setMem (k.mem.modify p w.apply))
      (Function.update V (k.thread c) ((V (k.thread c)).write (k.running c) p w)) tr σ' := by
  have hmine : .proc p ∈ (V (k.thread c)).held ∧ (V (k.thread c)).on = true ∧
      k.running c = some p := by
    rcases hw with ⟨chan, rfl⟩ | ⟨status, rfl⟩
    · exact ⟨hpre.1, hpre.2.1, hpre.2.2.1⟩
    · exact ⟨hpre.1.1, hpre.1.2.1, hpre.1.2.2.1⟩
  obtain ⟨hheld, hon, hme⟩ := hmine
  have hst := h.sits.running_state hme (Kernel.thread_eq_proc.mpr hme ▸ hon)
  have hstop := h.sits.stop h.locking h.sane hheld hon hme
    (hw.imp id fun hexit => ⟨hexit, by
      obtain ⟨status, rfl⟩ := hexit
      exact ⟨hpre.2.1.1, hpre.2.1.2.1, hpre.2.1.2.2⟩⟩)
  have hother : ∀ q, q ≠ p → ((k.mem.modify p w.apply).proc q).state = (k.mem.proc q).state :=
    fun q hq => by rw [Mem.modify_ne _ _ hq]
  refine ⟨_, h.sane_update ((h.sane_me c).write hpre), h.locking.update rfl rfl rfl ?_, hstop,
    h.queue.write _ fun hp => absurd hp (h.not_queued (by simp [hst])),
    h.ancestry.update rfl (fun q => ?_) (fun i hi hlive => ?_) (fun q g hq hg => ⟨g, hg, ?_⟩)
      (fun _ _ => ?_) ?_ ?_⟩
  · rcases hw with ⟨chan, rfl⟩ | ⟨status, rfl⟩ <;> rfl
  · by_cases hq : q = p
    · subst hq
      rcases hw with ⟨chan, rfl⟩ | ⟨status, rfl⟩ <;> simp [ProcState.Born, Write.apply, hst]
    · rw [Kernel.setMem_mem, hother q hq]
  · by_cases hip : i = p
    · subst hip
      rcases hw with ⟨chan, rfl⟩ | ⟨status, rfl⟩
      · simp [ProcState.Live, Write.apply]
      · -- `initproc` does not exit
        have hroot := h.ancestry.root i (h.sits.born_of_running hme)
        rw [hi] at hroot
        have hne := hpre.2.2.1
        rw [Kernel.thread_eq_proc.mpr hme] at hne
        exact absurd (Option.some.inj hroot).symm hne
    · rwa [Kernel.setMem_mem, hother i hip]
  · rcases hw with ⟨chan, rfl⟩ | ⟨status, rfl⟩ <;> exact hq
  all_goals rcases hw with ⟨chan, rfl⟩ | ⟨status, rfl⟩ <;> rfl

/-- **An assignment keeps the invariant.** -/
theorem write (h : Base k V tr σ) {w : Write}
    (hpre : writePre (k.running c) (V (k.thread c)) p w) :
    ∃ σ', Base (k.setMem (k.mem.modify p w.apply))
      (Function.update V (k.thread c) ((V (k.thread c)).write (k.running c) p w)) tr σ' := by
  have hsane := h.sane_update ((h.sane_me c).write hpre)
  have hlocking : (((V (k.thread c)).write (k.running c) p w).held = (V (k.thread c)).held) →
      Locking (k.setMem (k.mem.modify p w.apply))
        (Function.update V (k.thread c) ((V (k.thread c)).write (k.running c) p w)) :=
    fun hheld => h.locking.update rfl rfl rfl hheld
  cases w with
  | fold => exact h.fold hpre
  | sleep chan => exact h.stop hpre (.inl ⟨chan, rfl⟩)
  | exit status => exact h.stop hpre (.inr ⟨status, rfl⟩)
  | clearChan => exact ⟨σ, h.quiet hpre (fun _ => rfl) (fun _ => .inr (.inl rfl)) rfl (.inl rfl)⟩
  | kill => exact ⟨σ, h.quiet hpre (fun _ => rfl) (fun _ => .inl rfl) rfl (.inl rfl)⟩
  | pid x =>
      have hst := h.sits.seen c p _ hpre.2.1
      exact ⟨σ, h.quiet hpre (fun _ => rfl) (fun hp => absurd hp (h.not_queued (by simp [hst]))) rfl
        (.inl rfl)⟩
  | runtime d =>
      have hst := h.sits.running_state hpre.2.1 (Kernel.thread_eq_proc.mpr hpre.2.1 ▸ hpre.1)
      exact ⟨σ, h.quiet hpre (fun _ => rfl) (fun hp => absurd hp (h.not_queued (by simp [hst]))) rfl
        (.inr rfl)⟩
  | parent q => exact ⟨σ, h.parent hpre⟩
  | used =>
      have hst := h.sits.seen c p _ hpre.1.2.2
      exact ⟨_, hsane, hlocking rfl, h.sits.used h.locking h.sane hpre,
        h.queue.write _ fun hp => absurd hp (h.not_queued (by simp [hst])),
        h.ancestry.used h.sits hpre⟩
  | ready =>
      obtain ⟨l, -, -, -, hσ⟩ := h.sits.created_head hpre.2.2
      have hp : p ∉ tr.toList := h.sits.not_queued (by simp [hσ])
      exact ⟨_, hsane, hlocking rfl, h.sits.ready h.locking h.sane hpre,
        h.queue.write _ fun hq => absurd hq hp, h.ancestry.ready h.sits hpre⟩
  | free =>
      have hp : p ∉ tr.toList := by
        rcases hpre.2.2 with ⟨hseen, -⟩ | ⟨-, g, -, hhead⟩
        · exact h.not_queued (by simp [h.sits.seen c p _ hseen])
        · obtain ⟨l, -, -, -, hσ⟩ := h.sits.created_head hhead
          exact h.sits.not_queued (by simp [hσ])
      exact ⟨_, hsane, hlocking rfl, h.sits.free h.locking h.sane hpre,
        h.queue.write _ fun hq => absurd hq hp, h.ancestry.free h.sits hpre⟩

/-! ## The run queue -/

/-- What `insertProcess` does. -/
theorem insert_cases (h : Base k V tr σ) {e : Env} {r : Unit}
    (hp : (V (k.thread c)).pending.head? = some p) (hex : execute k c e (.insert p) = some (k', r)) :
    ∃ m' tr', k' = k.setMem m' ∧ Inserted k.mem tr p 819 m' tr' ∧ Queued m' tr' := by
  obtain ⟨l, -, -, -, hσ⟩ := h.sits.pending_head hp
  have hst : (k.mem.proc p).state = .runnable := by
    have := h.sits.fits p
    rwa [hσ] at this
  obtain ⟨m', tr', hrun, hins, hq⟩ := h.queue.insert (h.sits.not_queued (by simp [hσ])) hst
  refine ⟨m', tr', ?_, hins, hq⟩
  simp only [execute, hrun, Option.some.injEq, Prod.mk.injEq] at hex
  exact hex.1.symm

/-- What `retrieveProcess` does. -/
theorem retrieve_cases (h : Base k V tr σ) {e : Env} {r : Option Slot}
    (hex : execute k c e .retrieve = some (k', r)) :
    tr.toList = [] ∧ r = none ∧ k' = k ∨
      ∃ p m' tr', r = some p ∧ k' = k.setMem m' ∧ Retrieved k.mem tr p m' tr' ∧ Queued m' tr' := by
  rcases h.queue.retrieve with ⟨hnil, hrun⟩ | ⟨p, m', tr', hrun, hret, hq⟩
  · simp only [execute, hrun, Option.some.injEq, Prod.mk.injEq] at hex
    exact .inl ⟨hnil, hex.2.symm, hex.1.symm⟩
  · simp only [execute, hrun, Option.some.injEq, Prod.mk.injEq] at hex
    exact .inr ⟨p, m', tr', hex.2.symm, hex.1.symm, hret, hq⟩

theorem insert (h : Base k V tr σ) {e : Env} {r : Unit}
    (hpre : instrPre (k.running c) (.insert p) (V (k.thread c)))
    (hex : execute k c e (.insert p) = some (k', r)) :
    ∃ tr' σ', Base k' (Function.update V (k.thread c)
      (instrNext (k.running c) (.insert p) (V (k.thread c)) r)) tr' σ' := by
  have hsane := h.sane_update ((h.sane_me c).next (r := r) hpre)
  obtain ⟨-, hp⟩ := hpre
  obtain ⟨m', tr', rfl, hins, hq⟩ := h.insert_cases hp hex
  have hst : ∀ q, (m'.proc q).state = (k.mem.proc q).state :=
    hins.field Proc.state (fun _ => rfl) fun _ _ => rfl
  exact ⟨tr', _, hsane, h.locking.update rfl rfl rfl rfl,
    h.sits.insert hp hst fun q => by rw [hins.toList, mem_insertBy], hq,
    h.ancestry.update rfl (fun q => by rw [Kernel.setMem_mem, hst])
      (fun i _ hi => (hst i).symm ▸ hi) (fun q g hq hg => ⟨g, hg, hq⟩) (fun _ _ => rfl) rfl rfl⟩

theorem retrieve (h : Base k V tr σ) {e : Env} {r : Option Slot}
    (hpre : instrPre (k.running c) .retrieve (V (k.thread c)))
    (hex : execute k c e .retrieve = some (k', r)) :
    ∃ tr' σ', Base k' (Function.update V (k.thread c)
      (instrNext (k.running c) .retrieve (V (k.thread c)) r)) tr' σ' := by
  have hsane := h.sane_update ((h.sane_me c).next (r := r) hpre)
  obtain ⟨-, hme, hnone⟩ := hpre
  rcases h.retrieve_cases hex with ⟨-, rfl, rfl⟩ | ⟨p, m', tr', rfl, rfl, hret, hq⟩
  · have hsame : instrNext (k'.running c) .retrieve (V (k'.thread c)) none = V (k'.thread c) := by
      simp [instrNext, ← hnone]
    rw [hsame, Function.update_eq_self]
    exact ⟨tr, σ, h⟩
  · have hst : ∀ q, (m'.proc q).state = (k.mem.proc q).state :=
      hret.field Proc.state (fun _ => rfl) fun _ _ => rfl
    exact ⟨tr', _, hsane, h.locking.update rfl rfl rfl rfl,
      h.sits.retrieve hme hnone hst hret.toList h.queue.rep.denotes.nodup, hq,
      h.ancestry.update rfl (fun q => by rw [Kernel.setMem_mem, hst])
        (fun i _ hi => (hst i).symm ▸ hi) (fun q g hq hg => ⟨g, hg, hq⟩) (fun _ _ => rfl) rfl rfl⟩

/-! ## The switches -/

/-- A process that a scheduler has retrieved is `RUNNABLE`. -/
theorem runnable_of_retrieved (h : Base k V tr σ) (hp : (V (.cpu c)).retrieved = some p) :
    (k.mem.proc p).state = .runnable := by
  have := h.sits.fits p
  rwa [(h.sits.retrieved c p).mp hp] at this

/-- No CPU runs a retrieved process once its lock is taken: a process that is no longer
`RUNNING` keeps its own lock until it has switched. -/
theorem not_running_of_retrieved (h : Base k V tr σ) (hme : k.running c = none)
    (hheld : .proc p ∈ (V (k.thread c)).held) (hp : (V (.cpu c)).retrieved = some p) (c' : Fin n) :
    k.running c' ≠ some p := by
  intro hc'
  have hoff := h.sits.not_on_of_state hc' (by simp [h.runnable_of_retrieved hp])
  have hne : c' ≠ c := by
    rintro rfl
    simp [hme] at hc'
  simp [h.locking.on_of_held h.sane hheld hc' hne] at hoff

theorem dispatch (h : Base k V tr σ) (hpre : instrPre (k.running c) (.dispatch p) (V (k.thread c))) :
    ∃ σ', Base ((k.setMem (Xv6Cfs.dispatch k.mem p)).setRunning c (some p))
      (Function.update V (k.thread c)
        (instrNext (k.running c) (.dispatch p) (V (k.thread c)) ())) tr σ' := by
  have hsane := h.sane_update ((h.sane_me c).next (r := ()) hpre)
  obtain ⟨hme, hheld, hp, hwaking⟩ := hpre
  have hthread : k.thread c = .cpu c := Kernel.thread_eq_cpu.mpr ⟨hme, rfl⟩
  have hno := h.not_running_of_retrieved hme (by simp [hheld]) (hthread ▸ hp)
  have hst := h.runnable_of_retrieved (hthread ▸ hp)
  have hout : p ∉ tr.toList := h.sits.not_queued (by
    rw [(h.sits.retrieved c p).mp (hthread ▸ hp)]
    simp)
  have hstate : ∀ q, q ≠ p → ((Xv6Cfs.dispatch k.mem p).proc q).state = (k.mem.proc q).state :=
    fun q hq => by rw [Xv6Cfs.dispatch, Mem.modify_ne _ _ hq]
  have hancestry : Ancestry ((k.setMem (Xv6Cfs.dispatch k.mem p)).setRunning c (some p))
      (Function.update V (k.thread c)
        (instrNext (k.running c) (.dispatch p) (V (k.thread c)) ())) := by
    refine h.ancestry.update rfl (fun q => ?_) (fun i _ hi => ?_) (fun q g hq hg => ⟨g, hg, hq⟩)
      (fun _ _ => rfl) rfl rfl
    · by_cases hq : q = p
      · subst hq
        simp [ProcState.Born, Xv6Cfs.dispatch, hst]
      · rw [Kernel.setRunning_mem, Kernel.setMem_mem, hstate q hq]
    · by_cases hip : i = p
      · subst hip
        simp [ProcState.Live, Xv6Cfs.dispatch]
      · rwa [Kernel.setRunning_mem, Kernel.setMem_mem, hstate i hip]
  have hqueue : Queued (Xv6Cfs.dispatch k.mem p) tr := by
    refine h.queue.modify (fun hq => absurd hq hout) (fun hq => ?_) (fun hq => ?_) ?_
    · exact h.queue.left p hq
    · exact h.queue.right p hq
    · exact h.queue.nice p
  rw [hthread] at hheld hp hwaking hsane hancestry ⊢
  exact ⟨_, hsane, h.locking.dispatch hme hno hheld ⟨hheld, rfl, rfl, hwaking, rfl⟩ rfl rfl rfl,
    h.sits.dispatch h.locking h.sane hme (by simp [hheld]) hp hno rfl rfl rfl rfl rfl,
    hqueue, hancestry⟩

theorem switch (h : Base k V tr σ) (hpre : instrPre (k.running c) (.switch p) (V (k.thread c))) :
    Base (k.setRunning c none)
      (Function.update V (k.thread c)
        (instrNext (k.running c) (.switch p) (V (k.thread c)) ())) tr σ := by
  have hsane := h.sane_update ((h.sane_me c).next (r := ()) hpre)
  obtain ⟨hme, hheld, hoff, hseen, hwaking⟩ := hpre
  have hthread := Kernel.thread_eq_proc.mpr hme
  have hancestry : Ancestry (k.setRunning c none) (Function.update V (k.thread c)
      (instrNext (k.running c) (.switch p) (V (k.thread c)) ())) :=
    h.ancestry.update rfl (fun _ => Iff.rfl) (fun _ _ hi => hi) (fun q g hq hg => ⟨g, hg, hq⟩)
      (fun _ _ => rfl) rfl rfl
  rw [hthread] at hheld hoff hseen hwaking hsane hancestry ⊢
  exact ⟨hsane, h.locking.switch hme hheld ⟨hheld, rfl, hseen, hwaking, rfl⟩ rfl rfl rfl,
    h.sits.switch h.locking hme hoff rfl rfl rfl rfl rfl, h.queue, hancestry⟩

/-! ## Making a process -/

theorem used_of_head (h : Base k V tr σ) {t : Thread n} {g : Stage}
    (hhead : (V t).created.head? = some (p, g)) : (k.mem.proc p).state = .used := by
  obtain ⟨l, -, -, -, hσ⟩ := h.sits.created_head hhead
  have := h.sits.fits p
  rwa [hσ] at this

theorem init (h : Base k V tr σ) (hpre : instrPre (k.running c) (.init p) (V (k.thread c))) (z : Bool)
    (x : Code Int) :
    Base ((k.setMem (k.mem.modify p Proc.init)).setCode (.proc p) x)
      (Function.update
        (Function.update V (k.thread c) (instrNext (k.running c) (.init p) (V (k.thread c)) ()))
        (.proc p) (.resumed p (k.shared.initproc.getD p) z)) tr σ := by
  have hsane := h.sane_update ((h.sane_me c).next (r := ()) hpre)
  obtain ⟨-, hhead⟩ := hpre
  have hst := h.used_of_head hhead
  have hout : p ∉ tr.toList := h.not_queued (by simp [hst])
  have habsent := h.sits.absent p (.inr hst)
  have hstate : ∀ q, ((k.mem.modify p Proc.init).proc q).state = (k.mem.proc q).state := fun q => by
    by_cases hq : q = p
    · rw [hq, Mem.modify_self]
      rfl
    · rw [Mem.modify_ne _ _ hq]
  obtain ⟨l, hl⟩ := List.head?_eq_some_iff.mp hhead
  have hlocking : Locking (k.setMem (k.mem.modify p Proc.init)) (Function.update V (k.thread c)
      (instrNext (k.running c) (.init p) (V (k.thread c)) ())) :=
    h.locking.update rfl rfl rfl rfl
  have hsits : Situations (k.setMem (k.mem.modify p Proc.init)) (Function.update V (k.thread c)
      (instrNext (k.running c) (.init p) (V (k.thread c)) ())) tr.toList σ :=
    h.sits.update rfl hstate (by simp [instrNext, View.making?, hl]) rfl rfl rfl
      (fun q st hs => h.sits.seen c q st hs) (.inl rfl)
  refine ⟨fun t => ?_, hlocking.renew habsent ⟨rfl, rfl, rfl, rfl, rfl⟩ rfl rfl rfl,
    hsits.renew (hstate p ▸ hst) rfl (fun _ => rfl) ⟨rfl, rfl, rfl⟩,
    h.queue.modify (fun hq => absurd hq hout) (fun _ => rfl) (fun _ => rfl) rfl,
    h.ancestry.init h.sits hhead rfl hstate⟩
  by_cases ht : t = .proc p
  · subst ht
    rw [Function.update_self]
    exact sane_resumed p _ z
  · rw [Function.update_of_ne ht]
    exact hsane t

theorem initproc (h : Base k V tr σ)
    (hpre : instrPre (k.running c) (.initproc p) (V (k.thread c))) :
    Base (k.setShared { k.shared with initproc := some p })
      (Function.update V (k.thread c)
        (instrNext (k.running c) (.initproc p) (V (k.thread c)) ())) tr σ := by
  obtain ⟨l, hl⟩ := List.head?_eq_some_iff.mp hpre.2.2
  exact ⟨h.sane_update ((h.sane_me c).next (r := ()) hpre), h.locking.update rfl rfl rfl rfl,
    h.sits.update rfl (fun _ => rfl) (by simp [instrNext, View.making?, hl]) rfl rfl rfl
      (fun q st hs => h.sits.seen c q st hs) (.inl rfl), h.queue, h.ancestry.initproc h.sits hpre⟩

/-! ## The tests -/

/-- An instruction that only looks, or touches what no process and no lock depends on. -/
theorem look (h : Base k V tr σ) {i : Instr} {r : Answer i}
    (hpre : instrPre (k.running c) i (V (k.thread c))) (hlock : k'.lock = k.lock)
    (hnoff : k'.noff = k.noff) (hrunning : k'.running = k.running) (hmem : k'.mem = k.mem)
    (hinit : k'.shared.initproc = k.shared.initproc)
    (hview : ∀ w, instrNext (k.running c) i (V (k.thread c)) r = w →
      w = { V (k.thread c) with
        seen := w.seen, named := w.named, fresh := w.fresh, scan := w.scan, lore := w.lore
        reading := w.reading, due := w.due, charged := w.charged } ∧
      (∀ q st, w.seen = some (q, st) → (k.mem.proc q).state = st) ∧
      (w.reading = (V (k.thread c)).reading ∨
        ∃ q, k.running c = some q ∧ (k.mem.proc q).state = .running)) :
    Base k' (Function.update V (k.thread c) (instrNext (k.running c) i (V (k.thread c)) r)) tr σ := by
  have hsane := (h.sane_me c).next (r := r) hpre
  obtain ⟨hv, hseen, hreading⟩ := hview _ rfl
  generalize instrNext (k.running c) i (V (k.thread c)) r = w at *
  rw [hv] at hsane ⊢
  exact h.update hsane hlock hnoff hrunning hinit (hmem ▸ h.queue) (fun q => by rw [hmem]) rfl rfl rfl
    rfl rfl rfl rfl hseen (hreading.imp id .inr)

/-- What a test has found of a process is so. -/
theorem seen_stateIs (h : Base k V tr σ) {st st' : ProcState} {q : Slot}
    (hs : (instrNext (k.running c) (.stateIs p st) (V (k.thread c))
      (decide ((k.mem.proc p).state = st))).seen = some (q, st')) :
    (k.mem.proc q).state = st' := by
  simp only [instrNext] at hs
  split_ifs at hs with h1 h2 h3
  · simp only [Option.some.injEq, Prod.mk.injEq] at hs
    obtain ⟨rfl, rfl⟩ := hs
    simpa using h2
  · exact h.sits.seen c q st' hs
  · exact h.sits.seen c q st' hs
  · exact h.sits.seen c q st' hs

theorem seen_sleepsOn (h : Base k V tr σ) {chan : Option Chan} {st : ProcState} {q : Slot}
    (hs : (instrNext (k.running c) (.sleepsOn p chan) (V (k.thread c))
      (decide ((k.mem.proc p).state = .sleeping ∧ (k.mem.proc p).chan = chan))).seen =
        some (q, st)) : (k.mem.proc q).state = st := by
  simp only [instrNext] at hs
  split_ifs at hs with h1
  · simp only [Option.some.injEq, Prod.mk.injEq] at hs
    obtain ⟨rfl, rfl⟩ := hs
    exact (of_decide_eq_true h1).1
  · exact h.sits.seen c q st hs

/-- What the rules allow keeps the invariant; the queue changes by the two calls only. -/
theorem step_queue (h : Base k V tr σ) {e : Env} {i : Instr} {r : Answer i}
    (hpre : instrPre (k.running c) i (V (k.thread c))) (hex : execute k c e i = some (k', r))
    (hins : ∀ p, i ≠ .insert p) (hret : i ≠ .retrieve) :
    ∃ σ', Base k' (viewNext k V c i r) tr σ' := by
  have hrun : ∀ {q : Slot}, k.running c = some q → (V (k.thread c)).on = true →
      (k.mem.proc q).state = .running := fun hme hon =>
    h.sits.running_state hme (Kernel.thread_eq_proc.mpr hme ▸ hon)
  have hseen := h.sits.seen c
  cases i with
  | acquire l =>
      simp only [execute, Option.ite_none_right_eq_some, Option.some.injEq, Prod.mk.injEq] at hex
      obtain ⟨hfree, rfl, -⟩ := hex
      simp only [viewNext, Kernel.thread_me]
      exact ⟨σ, h.acquire hfree hpre.1⟩
  | release l =>
      simp only [execute, Option.ite_none_right_eq_some, Option.some.injEq, Prod.mk.injEq] at hex
      obtain ⟨hl, rfl, -⟩ := hex
      simp only [viewNext, Kernel.thread_me]
      exact ⟨σ, h.release hl hpre⟩
  | write p w =>
      simp only [execute, Option.some.injEq, Prod.mk.injEq] at hex
      obtain ⟨rfl, -⟩ := hex
      simp only [viewNext, Kernel.thread_me]
      exact h.write hpre
  | insert p => exact absurd rfl (hins p)
  | retrieve => exact absurd rfl hret
  | dispatch p =>
      simp only [execute, Option.some.injEq, Prod.mk.injEq] at hex
      obtain ⟨rfl, -⟩ := hex
      simp only [viewNext, Kernel.thread_me]
      exact h.dispatch hpre
  | switch p =>
      simp only [execute, Option.ite_none_right_eq_some, Option.some.injEq, Prod.mk.injEq] at hex
      obtain ⟨-, rfl, -⟩ := hex
      simp only [viewNext, Kernel.thread_me]
      exact ⟨σ, h.switch hpre⟩
  | init p =>
      simp only [execute, Option.some.injEq, Prod.mk.injEq] at hex
      obtain ⟨rfl, -⟩ := hex
      simp only [viewNext, Kernel.thread_me]
      exact ⟨σ, h.init hpre _ _⟩
  | initproc p =>
      simp only [execute, Option.some.injEq, Prod.mk.injEq] at hex
      obtain ⟨rfl, -⟩ := hex
      simp only [viewNext, Kernel.thread_me]
      exact ⟨σ, h.initproc hpre⟩
  | panic => simp [execute] at hex
  | stateIs p st =>
      simp only [execute, Option.some.injEq, Prod.mk.injEq] at hex
      obtain ⟨rfl, rfl⟩ := hex
      simp only [viewNext, Kernel.thread_me]
      refine ⟨σ, h.look hpre rfl rfl rfl rfl rfl fun w hw => ⟨?_, fun q st' hs => ?_, .inl ?_⟩⟩
      · subst hw
        simp only [instrNext]
        split_ifs <;> rfl
      · exact h.seen_stateIs (hw ▸ hs)
      · subst hw
        simp only [instrNext]
        split_ifs <;> rfl
  | pidIs p x =>
      simp only [execute, Option.some.injEq, Prod.mk.injEq] at hex
      obtain ⟨rfl, rfl⟩ := hex
      simp only [viewNext, Kernel.thread_me]
      refine ⟨σ, h.look hpre rfl rfl rfl rfl rfl fun w hw => ?_⟩
      subst hw
      simp only [instrNext]
      split_ifs <;> exact ⟨rfl, hseen, .inl rfl⟩
  | sleepsOn p chan =>
      simp only [execute, Option.some.injEq, Prod.mk.injEq] at hex
      obtain ⟨rfl, rfl⟩ := hex
      simp only [viewNext, Kernel.thread_me]
      refine ⟨σ, h.look hpre rfl rfl rfl rfl rfl fun w hw => ?_⟩
      exact hw ▸ ⟨rfl, fun q st hs => h.seen_sleepsOn hs, .inl rfl⟩
  | runtime p =>
      simp only [execute, Option.some.injEq, Prod.mk.injEq] at hex
      obtain ⟨rfl, rfl⟩ := hex
      simp only [viewNext, Kernel.thread_me]
      refine ⟨σ, h.look hpre rfl rfl rfl rfl rfl fun w hw => ?_⟩
      exact hw ▸ ⟨rfl, hseen, .inr ⟨p, hpre.1, hrun hpre.1 hpre.2.1⟩⟩
  | _ =>
      simp only [execute, Option.some.injEq, Prod.mk.injEq] at hex
      obtain ⟨rfl, -⟩ := hex
      simp only [viewNext, Kernel.thread_me]
      exact ⟨σ, h.look hpre rfl rfl rfl rfl rfl fun w hw => hw ▸ ⟨rfl, hseen, .inl rfl⟩⟩

/-- **What the rules allow keeps the invariant.** -/
theorem step (h : Base k V tr σ) {e : Env} {i : Instr} {r : Answer i}
    (hpre : instrPre (k.running c) i (V (k.thread c))) (hex : execute k c e i = some (k', r)) :
    ∃ tr' σ', Base k' (viewNext k V c i r) tr' σ' := by
  by_cases hi : (∃ p, i = .insert p) ∨ i = .retrieve
  · rcases hi with ⟨p, rfl⟩ | rfl
    · simp only [viewNext, Kernel.thread_me]
      exact h.insert hpre hex
    · simp only [viewNext, Kernel.thread_me]
      exact h.retrieve hpre hex
  · push Not at hi
    exact ⟨tr, h.step_queue hpre hex hi.1 hi.2⟩

/-- **The answers are those the rules speak of.** -/
theorem can (h : Base k V tr σ) {e : Env} {i : Instr} {r : Answer i}
    (hnozero : (V (k.thread c)).nozero = true → e.trap ≠ .syscall (.kill 0))
    (hex : execute k c e i = some (k', r)) : instrCan (k.running c) i (V (k.thread c)) r := by
  cases i with
  | stateIs p st =>
      simp only [execute, Option.some.injEq, Prod.mk.injEq] at hex
      obtain ⟨-, rfl⟩ := hex
      refine ⟨fun hme hon => ?_, fun hp => ?_⟩
      · rw [h.sits.running_state hme (Kernel.thread_eq_proc.mpr hme ▸ hon)]
        exact decide_eq_decide.mpr eq_comm
      · have hme : k.running c = none := Option.eq_none_iff_forall_not_mem.mpr fun q hq => by
          simp [(h.sane_me c).retrieved q hq] at hp
        rw [h.runnable_of_retrieved (Kernel.thread_eq_cpu.mpr ⟨hme, rfl⟩ ▸ hp)]
        exact decide_eq_decide.mpr eq_comm
  | shared =>
      simp only [execute, Option.some.injEq, Prod.mk.injEq] at hex
      obtain ⟨-, rfl⟩ := hex
      intro hme
      obtain ⟨q, hq⟩ := Option.isSome_iff_exists.mp hme
      rw [h.ancestry.root q (h.sits.born_of_running hq), Kernel.thread_eq_proc.mpr hq]
  | user =>
      simp only [execute, Option.some.injEq, Prod.mk.injEq] at hex
      obtain ⟨-, rfl⟩ := hex
      exact hnozero
  | _ => trivial

end Base

/-- The queue changes by the two calls only. -/
theorem queue_execute (h : Base k V tr σ) {e : Env} {i : Instr} {r : Answer i}
    (hpre : instrPre (k.running c) i (V (k.thread c))) (hex : execute k c e i = some (k', r))
    (hins : ∀ p, i ≠ .insert p) (hret : i ≠ .retrieve) : queue k'.mem = queue k.mem := by
  obtain ⟨σ', h'⟩ := h.step_queue hpre hex hins hret
  rw [h'.queue.rep.queue_eq, h.queue.rep.queue_eq]

end Xv6Cfs
