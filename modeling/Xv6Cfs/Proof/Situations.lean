import Xv6Cfs.Proof.Locking

/-!
# Where the processes are

Every process is in one situation: being made by a thread, waiting to be inserted
by one, in the queue, retrieved by a scheduler, on a CPU, or none of these. The
views and the states agree with it.
-/

namespace Xv6Cfs

variable {n : Nat} {k : Kernel n} {V : Thread n → View}

/-- Where a process is. -/
inductive Sit (n : Nat) where
  /-- Nowhere: it sleeps, or its slot is dead. -/
  | idle
  | created (t : Thread n)
  | pending (t : Thread n)
  | queued
  | retrieved (c : Fin n)
  | running (c : Fin n)
  deriving DecidableEq

/-- The states a process can be in there. -/
def Sit.Fits : Sit n → ProcState → Prop
  | .idle, st => st = .sleeping ∨ st = .zombie ∨ st = .unused
  | .created _, st => st = .used
  | .pending _, st | .queued, st | .retrieved _, st => st = .runnable
  | .running _, st => st = .running

/-- No other thread than `t` is responsible for the process. -/
def Sit.Mine (t : Thread n) : Sit n → Prop
  | .created t' | .pending t' => t' = t
  | .retrieved c => t = .cpu c
  | _ => True

/-- The processes a thread is making. -/
def View.making? (v : View) : List Slot := v.created.map Prod.fst

/-- It is responsible for no process, and not in the middle of a charge. -/
structure View.Bare (v : View) : Prop where
  created : v.created = []
  pending : v.pending = []
  reading : v.reading = none

/-- A process that has not begun, or has ended. -/
def ProcState.Dead (st : ProcState) : Prop := st = .unused ∨ st = .used ∨ st = .zombie

/-- The views and the states agree with the situations `σ`; in the queue are the processes `qs`. -/
structure Situations (k : Kernel n) (V : Thread n → View) (qs : List Slot) (σ : Slot → Sit n) :
    Prop where
  created : ∀ t p, p ∈ (V t).making? ↔ σ p = .created t
  pending : ∀ t p, p ∈ (V t).pending ↔ σ p = .pending t
  retrieved : ∀ c p, (V (.cpu c)).retrieved = some p ↔ σ p = .retrieved c
  queued : ∀ p, p ∈ qs ↔ σ p = .queued
  running : ∀ c p, k.running c = some p ∧ (V (.proc p)).on = true ↔ σ p = .running c
  fits : ∀ p, (σ p).Fits (k.mem.proc p).state
  nodupCreated : ∀ t, (V t).making?.Nodup
  nodupPending : ∀ t, (V t).pending.Nodup
  seen : ∀ c p st, (V (k.thread c)).seen = some (p, st) → (k.mem.proc p).state = st
  bare : ∀ p, (k.mem.proc p).state.Dead → (V (.proc p)).Bare
  absent : ∀ p, (k.mem.proc p).state = .unused ∨ (k.mem.proc p).state = .used →
    ∀ c, k.running c ≠ some p

namespace Situations

variable {qs qs' : List Slot} {σ : Slot → Sit n} {p : Slot}

/-! ## What a state says -/

theorem running_state (h : Situations k V qs σ) {c : Fin n} (hc : k.running c = some p)
    (hon : (V (.proc p)).on = true) : (k.mem.proc p).state = .running := by
  have hσ := (h.running c p).mp ⟨hc, hon⟩
  simpa [hσ, Sit.Fits] using h.fits p

theorem idle_of_sleeping (h : Situations k V qs σ) (hst : (k.mem.proc p).state = .sleeping) :
    σ p = .idle := by
  have hfit := h.fits p
  cases hσ : σ p <;> simp_all [Sit.Fits]

theorem idle_of_zombie (h : Situations k V qs σ) (hst : (k.mem.proc p).state = .zombie) :
    σ p = .idle := by
  have hfit := h.fits p
  cases hσ : σ p <;> simp_all [Sit.Fits]

theorem idle_of_unused (h : Situations k V qs σ) (hst : (k.mem.proc p).state = .unused) :
    σ p = .idle := by
  have hfit := h.fits p
  cases hσ : σ p <;> simp_all [Sit.Fits]

/-- A runnable process has not given up a CPU, unless it holds its own lock. -/
theorem not_on_of_state (h : Situations k V qs σ) {c : Fin n} (hc : k.running c = some p)
    (hst : (k.mem.proc p).state ≠ .running) : (V (.proc p)).on = false := by
  by_contra hon
  exact hst (h.running_state hc (by simpa using hon))

/-! ## A thread acts on one process -/

/-- A view changes in what has to do with no process. -/
theorem update (h : Situations k V qs σ) {k' : Kernel n} {c : Fin n} {v : View}
    (hrunning : k'.running = k.running)
    (hstate : ∀ q, (k'.mem.proc q).state = (k.mem.proc q).state)
    (hcreated : v.making? = (V (k.thread c)).making?)
    (hpending : v.pending = (V (k.thread c)).pending)
    (hretrieved : v.retrieved = (V (k.thread c)).retrieved)
    (hon : v.on = (V (k.thread c)).on)
    (hseen : ∀ q st, v.seen = some (q, st) → (k.mem.proc q).state = st)
    (hreading : v.reading = (V (k.thread c)).reading ∨ v.reading = none ∨
      ∃ q, k.running c = some q ∧ (k.mem.proc q).state = .running) :
    Situations k' (Function.update V (k.thread c) v) qs σ := by
  have hthread : ∀ c', k'.thread c' = k.thread c' := fun c' => Kernel.thread_congr (by rw [hrunning])
  have hcr : ∀ t, (Function.update V (k.thread c) v t).making? = (V t).making? := fun t => by
    by_cases ht : t = k.thread c <;> simp [ht, hcreated]
  have hpe : ∀ t, (Function.update V (k.thread c) v t).pending = (V t).pending := fun t => by
    by_cases ht : t = k.thread c <;> simp [ht, hpending]
  have hre : ∀ t, (Function.update V (k.thread c) v t).retrieved = (V t).retrieved := fun t => by
    by_cases ht : t = k.thread c <;> simp [ht, hretrieved]
  have hon' : ∀ t, (Function.update V (k.thread c) v t).on = (V t).on := fun t => by
    by_cases ht : t = k.thread c <;> simp [ht, hon]
  refine ⟨fun t q => ?_, fun t q => ?_, fun c' q => ?_, h.queued, fun c' q => ?_, fun q => ?_,
    fun t => ?_, fun t => ?_, fun c' q st hs => ?_, fun q hq => ?_, fun q hq => ?_⟩
  · rw [hcr]
    exact h.created t q
  · rw [hpe]
    exact h.pending t q
  · rw [hre]
    exact h.retrieved c' q
  · rw [hrunning, hon']
    exact h.running c' q
  · rw [hstate]
    exact h.fits q
  · rw [hcr]
    exact h.nodupCreated t
  · rw [hpe]
    exact h.nodupPending t
  · rw [hstate]
    rw [hthread] at hs
    by_cases ht : k.thread c' = k.thread c
    · rw [ht, Function.update_self] at hs
      exact hseen q st hs
    · rw [Function.update_of_ne ht] at hs
      exact h.seen c' q st hs
  · rw [hstate] at hq
    have hb := h.bare q hq
    by_cases ht : Thread.proc q = k.thread c
    · rw [ht, Function.update_self]
      refine ⟨?_, by rw [hpending, ← ht]; exact hb.pending, ?_⟩
      · have : v.making? = [] := by rw [hcreated, ← ht]; simp [View.making?, hb.created]
        simpa [View.making?] using this
      · rcases hreading with hr | hr | ⟨q', hq', hst⟩
        · rw [hr, ← ht]
          exact hb.reading
        · exact hr
        · rw [Kernel.thread_eq_proc.mp ht.symm] at hq'
          obtain rfl := Option.some.inj hq'
          simp [ProcState.Dead, hst] at hq
    · rw [Function.update_of_ne ht]
      exact hb
  · rw [hstate] at hq
    rw [hrunning]
    exact h.absent q hq

/-- The processes in a list a thread keeps, when `p` goes to `s`. -/
private theorem list_move {L : Thread n → List Slot} {mk : Thread n → Sit n} {t₀ : Thread n}
    {l : List Slot} {s : Sit n} (h : ∀ t q, q ∈ L t ↔ σ q = mk t)
    (hmk : ∀ t, (mk t).Mine t₀ → t = t₀) (hσ : (σ p).Mine t₀) (hs : s.Mine t₀)
    (hother : ∀ q, q ≠ p → (q ∈ l ↔ q ∈ L t₀)) (hp : p ∈ l ↔ s = mk t₀) (t : Thread n) (q : Slot) :
    q ∈ Function.update L t₀ l t ↔ Function.update σ p s q = mk t := by
  by_cases ht : t = t₀
  · subst ht
    by_cases hq : q = p
    · subst hq
      simp [hp]
    · simp [hq, hother q hq, h]
  · rw [Function.update_of_ne ht, h]
    by_cases hq : q = p
    · subst hq
      rw [Function.update_self]
      constructor
      · intro e
        exact absurd (hmk t (e ▸ hσ)) ht
      · intro e
        exact absurd (hmk t (e ▸ hs)) ht
    · rw [Function.update_of_ne hq]

/-- **A thread moves a process from one situation to another.** -/
theorem act (h : Situations k V qs σ) {k' : Kernel n} {c : Fin n} {v : View} {s : Sit n}
    (hrunning : k'.running = k.running)
    (hstate : ∀ q, q ≠ p → (k'.mem.proc q).state = (k.mem.proc q).state)
    (hfit : s.Fits (k'.mem.proc p).state) (hσ : (σ p).Mine (k.thread c))
    (hs : s.Mine (k.thread c)) (hsr : ∀ c', s ≠ .running c')
    (hcreated : ∀ q, q ≠ p → (q ∈ v.making? ↔ q ∈ (V (k.thread c)).making?))
    (hcreatedp : p ∈ v.making? ↔ s = .created (k.thread c))
    (hpending : ∀ q, q ≠ p → (q ∈ v.pending ↔ q ∈ (V (k.thread c)).pending))
    (hpendingp : p ∈ v.pending ↔ s = .pending (k.thread c))
    (hretrieved : ∀ q, q ≠ p → (v.retrieved = some q ↔ (V (k.thread c)).retrieved = some q))
    (hretrievedp : ∀ c', k.thread c = .cpu c' → (v.retrieved = some p ↔ s = .retrieved c'))
    (hqueued : ∀ q, q ≠ p → (q ∈ qs' ↔ q ∈ qs)) (hqueuedp : p ∈ qs' ↔ s = .queued)
    (hon : k.running c ≠ some p → v.on = (V (k.thread c)).on)
    (hoff : ∀ c', k.running c' = some p → (Function.update V (k.thread c) v (.proc p)).on = false)
    (hnodupCreated : v.making?.Nodup) (hnodupPending : v.pending.Nodup)
    (hseen : ∀ q st, v.seen = some (q, st) → (k'.mem.proc q).state = st)
    (hkeep : ∀ c' st, c' ≠ c → (V (k.thread c')).seen = some (p, st) → (k'.mem.proc p).state = st)
    (hbare : ∀ q, (k'.mem.proc q).state.Dead → (Function.update V (k.thread c) v (.proc q)).Bare)
    (habsent : (k'.mem.proc p).state = .unused ∨ (k'.mem.proc p).state = .used →
      ∀ c', k.running c' ≠ some p) :
    Situations k' (Function.update V (k.thread c) v) qs' (Function.update σ p s) := by
  have hthread : ∀ c', k'.thread c' = k.thread c' := fun c' => Kernel.thread_congr (by rw [hrunning])
  have hmap : ∀ {β : Type} (f : View → β) (t : Thread n),
      f (Function.update V (k.thread c) v t) =
        Function.update (fun t => f (V t)) (k.thread c) (f v) t := fun f t => by
    by_cases ht : t = k.thread c <;> simp [ht]
  refine ⟨fun t q => ?_, fun t q => ?_, fun c' q => ?_, fun q => ?_, fun c' q => ?_, fun q => ?_,
    fun t => ?_, fun t => ?_, fun c' q st hs => ?_, hbare, fun q hq => ?_⟩
  · rw [hmap View.making?]
    exact list_move h.created (fun t ht => ht) hσ hs hcreated hcreatedp t q
  · rw [hmap View.pending]
    exact list_move h.pending (fun t ht => ht) hσ hs hpending hpendingp t q
  · by_cases ht : k.thread c = .cpu c'
    · rw [← ht, Function.update_self]
      by_cases hq : q = p
      · subst hq
        rw [hretrievedp c' ht, Function.update_self]
      · rw [hretrieved q hq, Function.update_of_ne hq, ht]
        exact h.retrieved c' q
    · rw [Function.update_of_ne (Ne.symm ht), h.retrieved]
      by_cases hq : q = p
      · subst hq
        rw [Function.update_self]
        constructor
        · intro e
          rw [e] at hσ
          exact absurd hσ ht
        · intro e
          rw [e] at hs
          exact absurd hs ht
      · rw [Function.update_of_ne hq]
  · by_cases hq : q = p
    · subst hq
      simp [hqueuedp]
    · rw [hqueued q hq, Function.update_of_ne hq]
      exact h.queued q
  · rw [hrunning]
    by_cases hq : q = p
    · subst hq
      rw [Function.update_self]
      constructor
      · rintro ⟨hc, hon⟩
        rw [hoff c' hc] at hon
        exact absurd hon (by simp)
      · exact fun e => absurd e (hsr c')
    · rw [Function.update_of_ne hq, ← h.running c' q]
      by_cases ht : Thread.proc q = k.thread c
      · have hne : k.running c ≠ some p := fun e => by
          rw [Kernel.thread_eq_proc.mp ht.symm] at e
          exact hq (Option.some.inj e)
        rw [ht, Function.update_self, hon hne]
      · rw [Function.update_of_ne ht]
  · by_cases hq : q = p
    · subst hq
      simpa using hfit
    · rw [Function.update_of_ne hq, hstate q hq]
      exact h.fits q
  · by_cases ht : t = k.thread c
    · simpa [ht] using hnodupCreated
    · simpa [ht] using h.nodupCreated t
  · by_cases ht : t = k.thread c
    · simpa [ht] using hnodupPending
    · simpa [ht] using h.nodupPending t
  · rw [hthread] at hs
    by_cases ht : k.thread c' = k.thread c
    · rw [ht, Function.update_self] at hs
      exact hseen q st hs
    · rw [Function.update_of_ne ht] at hs
      have hcne : c' ≠ c := fun e => ht (by rw [e])
      by_cases hq : q = p
      · subst hq
        exact hkeep c' st hcne hs
      · rw [hstate q hq]
        exact h.seen c' q st hs
  · rw [hrunning]
    by_cases hqp : q = p
    · subst hqp
      exact habsent hq
    · rw [hstate q hqp] at hq
      exact h.absent q hq

/-! ## The instructions that move a process -/

/-- What another CPU has seen of a process whose lock it does not hold: nothing. -/
theorem seen_ne (hl : Locking k V) (hsane : ∀ t, Sane t.me (V t)) {c c' : Fin n} {st : ProcState}
    (hp : .proc p ∈ (V (k.thread c)).held) (hne : c' ≠ c) :
    (V (k.thread c')).seen ≠ some (p, st) := by
  intro hs
  have := (hsane (k.thread c')).seen p st hs
  exact hne (hl.exclusive this hp)

theorem not_dead_of_on (h : Situations k V qs σ) {c : Fin n} {q : Slot}
    (hc : k.running c = some q) (hon : (V (.proc q)).on = true) :
    ¬(k.mem.proc q).state.Dead := by
  rw [h.running_state hc hon]
  simp [ProcState.Dead]

/-- A running process is alive, so a dead one keeps its view. -/
theorem bare_update (h : Situations k V qs σ) {c : Fin n} {v : View} {q : Slot}
    (hon : (V (k.thread c)).on = true) (hq : (k.mem.proc q).state.Dead) :
    (Function.update V (k.thread c) v (.proc q)).Bare := by
  by_cases ht : Thread.proc q = k.thread c
  · exact absurd hq (h.not_dead_of_on (Kernel.thread_eq_proc.mp ht.symm) (ht ▸ hon))
  · rw [Function.update_of_ne ht]
    exact h.bare q hq

theorem not_created (h : Situations k V qs σ) {t : Thread n} (hσ : σ p ≠ .created t) :
    p ∉ (V t).making? := fun hp => hσ ((h.created t p).mp hp)

theorem not_pending (h : Situations k V qs σ) {t : Thread n} (hσ : σ p ≠ .pending t) :
    p ∉ (V t).pending := fun hp => hσ ((h.pending t p).mp hp)

theorem not_retrieved (h : Situations k V qs σ) {c : Fin n} (hσ : σ p ≠ .retrieved c) :
    (V (.cpu c)).retrieved ≠ some p := fun hp => hσ ((h.retrieved c p).mp hp)

theorem not_queued (h : Situations k V qs σ) (hσ : σ p ≠ .queued) : p ∉ qs :=
  fun hp => hσ ((h.queued p).mp hp)

variable {c : Fin n}

/-- **A thread that holds the lock of `p` moves it by an assignment.** -/
theorem act_locked (h : Situations k V qs σ) (hl : Locking k V) (hsane : ∀ t, Sane t.me (V t))
    {f : Proc → Proc} {v : View} {s : Sit n} (hheld : .proc p ∈ (V (k.thread c)).held)
    (hon : (V (k.thread c)).on = true) (hfit : s.Fits (f (k.mem.proc p)).state)
    (hσ : (σ p).Mine (k.thread c)) (hs : s.Mine (k.thread c))
    (hfree : (∀ c', σ p ≠ .retrieved c') ∧ σ p ≠ .queued)
    (hfree' : (∀ c', s ≠ .retrieved c') ∧ s ≠ .queued ∧ ∀ c', s ≠ .running c')
    (hcreated : ∀ q, q ≠ p → (q ∈ v.making? ↔ q ∈ (V (k.thread c)).making?))
    (hcreatedp : p ∈ v.making? ↔ s = .created (k.thread c))
    (hpending : ∀ q, q ≠ p → (q ∈ v.pending ↔ q ∈ (V (k.thread c)).pending))
    (hpendingp : p ∈ v.pending ↔ s = .pending (k.thread c))
    (hretrieved : v.retrieved = (V (k.thread c)).retrieved)
    (hkeep : k.running c ≠ some p → v.on = true ∧ ∀ c', σ p ≠ .running c')
    (hoff : k.running c = some p → v.on = false)
    (hnodupCreated : v.making?.Nodup) (hnodupPending : v.pending.Nodup) (hseen : v.seen = none)
    (hbare : (f (k.mem.proc p)).state.Dead →
      (Function.update V (k.thread c) v (.proc p)).Bare)
    (habsent : (f (k.mem.proc p)).state = .unused ∨ (f (k.mem.proc p)).state = .used →
      ∀ c', k.running c' ≠ some p) :
    Situations (k.setMem (k.mem.modify p f)) (Function.update V (k.thread c) v) qs
      (Function.update σ p s) := by
  refine h.act rfl (fun q hq => ?_) (by simpa using hfit) hσ hs hfree'.2.2 hcreated hcreatedp
    hpending hpendingp (fun q _ => by rw [hretrieved]) (fun c' hc' => ?_) (fun _ _ => Iff.rfl) ?_
    (fun hme => ?_) (fun c' hc' => ?_) hnodupCreated hnodupPending (by simp [hseen])
    (fun c' st hne hs' => absurd hs' (seen_ne hl hsane hheld hne)) (fun q hq => ?_)
    (by simpa using habsent)
  · simp [Mem.modify_ne _ _ hq]
  · have hno := h.not_retrieved (hfree.1 c')
    rw [← hc', ← hretrieved] at hno
    simp [hno, hfree'.1 c']
  · simp [h.not_queued hfree.2, hfree'.2.1]
  · rw [(hkeep hme).1, hon]
  · by_cases hme : k.running c = some p
    · rw [Kernel.thread_eq_proc.mpr hme, Function.update_self]
      exact hoff hme
    · rw [Function.update_of_ne fun e => hme (Kernel.thread_eq_proc.mp e.symm)]
      by_contra hon'
      exact (hkeep hme).2 c' ((h.running c' p).mp ⟨hc', by simpa using hon'⟩)
  · by_cases hqp : q = p
    · subst hqp
      exact hbare (by simpa using hq)
    · refine h.bare_update hon ?_
      simpa [Mem.modify_ne _ _ hqp] using hq

/-- The running process `p` of `c`. -/
theorem running_of_me (h : Situations k V qs σ) (hme : k.running c = some p)
    (hon : (V (k.thread c)).on = true) : σ p = .running c :=
  (h.running c p).mp ⟨hme, Kernel.thread_eq_proc.mpr hme ▸ hon⟩

theorem ne_running_of_idle (hσ : σ p = .idle) (c' : Fin n) : σ p ≠ .running c' := by
  simp [hσ]

/-- `yield` and `wake`: a process is made `RUNNABLE`. -/
theorem fold (h : Situations k V qs σ) (hl : Locking k V) (hsane : ∀ t, Sane t.me (V t))
    (hpre : writePre (k.running c) (V (k.thread c)) p .fold) :
    Situations (k.setMem (k.mem.modify p Write.fold.apply))
      (Function.update V (k.thread c) ((V (k.thread c)).write (k.running c) p .fold)) qs
      (Function.update σ p (.pending (k.thread c))) := by
  obtain ⟨hheld, hon, -, hcase⟩ := hpre
  -- A sleeping process is woken, or the running one gives up the CPU.
  have hsit : k.running c ≠ some p ∧ σ p = .idle ∨ k.running c = some p ∧ σ p = .running c := by
    by_cases hme : k.running c = some p
    · exact .inr ⟨hme, h.running_of_me hme hon⟩
    · have hseen : (V (k.thread c)).seen = some (p, .sleeping) := by simpa [hme] using hcase
      exact .inl ⟨hme, h.idle_of_sleeping (h.seen c p _ hseen)⟩
  have hsit' : σ p = .idle ∨ σ p = .running c := hsit.imp And.right And.right
  have hcr : ∀ t, σ p ≠ .created t := fun t => by rcases hsit' with e | e <;> simp [e]
  have hpe : ∀ t, σ p ≠ .pending t := fun t => by rcases hsit' with e | e <;> simp [e]
  refine h.act_locked hl hsane hheld hon rfl ?_ rfl ?_ (by simp) (fun _ _ => Iff.rfl) ?_
    (fun q hq => by simp [View.write, hq]) (by simp [View.write]) rfl (fun hme => ?_) (fun hme => ?_)
    (h.nodupCreated _) (List.nodup_cons.mpr ⟨h.not_pending (hpe _), h.nodupPending _⟩) rfl
    (by simp [ProcState.Dead, Write.apply]) (by simp [Write.apply])
  · rcases hsit' with e | e <;> simp [e, Sit.Mine]
  · rcases hsit' with e | e <;> simp [e]
  · exact iff_of_false (h.not_created (hcr _)) (by simp)
  · have hσ : σ p = .idle := by simpa [hme] using hsit
    exact ⟨by simp [View.write, hme, hon], ne_running_of_idle hσ⟩
  · simp [View.write, hme]

/-- `sleep` and `exit`: the running process stops. -/
theorem stop (h : Situations k V qs σ) (hl : Locking k V) (hsane : ∀ t, Sane t.me (V t))
    {w : Write} (hheld : .proc p ∈ (V (k.thread c)).held) (hon : (V (k.thread c)).on = true)
    (hme : k.running c = some p)
    (hw : (∃ chan, w = .sleep chan) ∨
      (∃ status, w = .exit status) ∧ (V (k.thread c)).Bare) :
    Situations (k.setMem (k.mem.modify p w.apply))
      (Function.update V (k.thread c) ((V (k.thread c)).write (k.running c) p w)) qs
      (Function.update σ p .idle) := by
  have hσ := h.running_of_me hme hon
  have hthread := Kernel.thread_eq_proc.mpr hme
  have hcr := h.not_created (p := p) (t := k.thread c) (by simp [hσ])
  have hpe := h.not_pending (p := p) (t := k.thread c) (by simp [hσ])
  rcases hw with ⟨chan, rfl⟩ | ⟨⟨status, rfl⟩, hbare⟩
  · exact h.act_locked hl hsane hheld hon (.inl rfl) (by simp [hσ, Sit.Mine]) trivial
      (by simp [hσ]) (by simp) (fun _ _ => Iff.rfl) (iff_of_false hcr (by simp)) (fun _ _ => Iff.rfl)
      (iff_of_false hpe (by simp)) rfl (fun hne => absurd hme hne) (fun _ => rfl) (h.nodupCreated _)
      (h.nodupPending _) rfl (by simp [ProcState.Dead, Write.apply]) (by simp [Write.apply])
  · refine h.act_locked hl hsane hheld hon (.inr (.inl rfl)) (by simp [hσ, Sit.Mine]) trivial
      (by simp [hσ]) (by simp) (fun _ _ => Iff.rfl) (iff_of_false hcr (by simp)) (fun _ _ => Iff.rfl)
      (iff_of_false hpe (by simp)) rfl (fun hne => absurd hme hne) (fun _ => rfl) (h.nodupCreated _)
      (h.nodupPending _) rfl (fun _ => ?_) (by simp [Write.apply])
    rw [hthread, Function.update_self, ← hthread]
    exact ⟨hbare.created, hbare.pending, hbare.reading⟩

/-- `allocproc`: an unused slot is taken. -/
theorem used (h : Situations k V qs σ) (hl : Locking k V) (hsane : ∀ t, Sane t.me (V t))
    (hpre : writePre (k.running c) (V (k.thread c)) p .used) :
    Situations (k.setMem (k.mem.modify p Write.used.apply))
      (Function.update V (k.thread c) ((V (k.thread c)).write (k.running c) p .used)) qs
      (Function.update σ p (.created (k.thread c))) := by
  obtain ⟨⟨hheld, hon, hseen⟩, -⟩ := hpre
  have hst := h.seen c p _ hseen
  have hσ := h.idle_of_unused hst
  have habs := h.absent p (.inl hst)
  have hne : Thread.proc p ≠ k.thread c := fun e => habs c (Kernel.thread_eq_proc.mp e.symm)
  have hcr := h.not_created (p := p) (t := k.thread c) (by simp [hσ])
  have hpe := h.not_pending (p := p) (t := k.thread c) (by simp [hσ])
  refine h.act_locked hl hsane hheld hon rfl (by simp [hσ, Sit.Mine]) rfl (by simp [hσ]) (by simp)
    (fun q hq => by simp [View.write, View.making?, hq]) (by simp [View.write, View.making?])
    (fun _ _ => Iff.rfl) (iff_of_false hpe (by simp)) rfl (fun _ => ⟨hon, ne_running_of_idle hσ⟩)
    (fun hme => absurd hme (habs c)) (List.nodup_cons.mpr ⟨hcr, h.nodupCreated _⟩)
    (h.nodupPending _) rfl (fun _ => ?_) (fun _ => habs)
  rw [Function.update_of_ne hne]
  exact h.bare p (.inl hst)

/-- The process at the head of what a thread is making. -/
theorem created_head (h : Situations k V qs σ) {t : Thread n} {g : Stage}
    (hp : (V t).created.head? = some (p, g)) :
    ∃ l, (V t).created = (p, g) :: l ∧ (V t).making? = p :: l.map Prod.fst ∧
      p ∉ l.map Prod.fst ∧ σ p = .created t := by
  obtain ⟨l, hl⟩ := List.head?_eq_some_iff.mp hp
  have hmaking : (V t).making? = p :: l.map Prod.fst := by simp [View.making?, hl]
  have hnd := h.nodupCreated t
  rw [hmaking, List.nodup_cons] at hnd
  exact ⟨l, hl, hmaking, hnd.1, (h.created t p).mp (by simp [hmaking])⟩

/-- `fork`, `userinit`: a new process is made `RUNNABLE`. -/
theorem ready (h : Situations k V qs σ) (hl : Locking k V) (hsane : ∀ t, Sane t.me (V t))
    (hpre : writePre (k.running c) (V (k.thread c)) p .ready) :
    Situations (k.setMem (k.mem.modify p Write.ready.apply))
      (Function.update V (k.thread c) ((V (k.thread c)).write (k.running c) p .ready)) qs
      (Function.update σ p (.pending (k.thread c))) := by
  obtain ⟨hheld, ⟨hon, -⟩, hhead⟩ := hpre
  obtain ⟨l, hcreated, hmaking, hpl, hσ⟩ := h.created_head hhead
  have hst : (k.mem.proc p).state = .used := by
    have := h.fits p
    rwa [hσ] at this
  have hnd := h.nodupCreated (k.thread c)
  rw [hmaking, List.nodup_cons] at hnd
  have hpe := h.not_pending (p := p) (t := k.thread c) (by simp [hσ])
  have hmaking' : ((V (k.thread c)).write (k.running c) p .ready).making? = l.map Prod.fst := by
    simp [View.write, View.making?, hcreated]
  refine h.act_locked hl hsane hheld hon rfl (by simp [hσ, Sit.Mine]) rfl (by simp [hσ]) (by simp)
    (fun q hq => ?_) ?_ (fun q hq => by simp [View.write, hq]) (by simp [View.write]) rfl
    (fun _ => ⟨hon, by simp [hσ]⟩) (fun hme => absurd hme (h.absent p (.inr hst) c)) ?_
    (List.nodup_cons.mpr ⟨hpe, h.nodupPending _⟩) rfl (by simp [ProcState.Dead, Write.apply])
    (by simp [Write.apply])
  · rw [hmaking', hmaking]
    simp [hq]
  · rw [hmaking']
    simpa using hpl
  · rw [hmaking']
    exact hnd.2

/-- `freeproc`. -/
theorem free (h : Situations k V qs σ) (hl : Locking k V) (hsane : ∀ t, Sane t.me (V t))
    (hpre : writePre (k.running c) (V (k.thread c)) p .free) :
    Situations (k.setMem (k.mem.modify p Write.free.apply))
      (Function.update V (k.thread c) ((V (k.thread c)).write (k.running c) p .free)) qs
      (Function.update σ p .idle) := by
  obtain ⟨hheld, hon, hcase⟩ := hpre
  -- No CPU runs the process, dead as it is.
  have hdead : (k.mem.proc p).state.Dead ∧ ∀ c', k.running c' ≠ some p := by
    rcases hcase with ⟨hseen, -⟩ | ⟨-, g, -, hhead⟩
    · have hst := h.seen c p _ hseen
      refine ⟨.inr (.inr hst), fun c' hc' => ?_⟩
      have hoff := h.not_on_of_state hc' (by simp [hst])
      by_cases hcc : c' = c
      · subst hcc
        rw [← Kernel.thread_eq_proc.mpr hc', hon] at hoff
        simp at hoff
      · simp [hl.on_of_held hsane hheld hc' hcc] at hoff
    · obtain ⟨l, -, -, -, hσ⟩ := h.created_head hhead
      have hst : (k.mem.proc p).state = .used := by
        have := h.fits p
        rwa [hσ] at this
      exact ⟨.inr (.inl hst), h.absent p (.inr hst)⟩
  have hne : Thread.proc p ≠ k.thread c := fun e =>
    hdead.2 c (Kernel.thread_eq_proc.mp e.symm)
  have hbare : (Function.update V (k.thread c)
      ((V (k.thread c)).write (k.running c) p .free) (.proc p)).Bare := by
    rw [Function.update_of_ne hne]
    exact h.bare p hdead.1
  rcases hcase with ⟨hseen, -⟩ | ⟨hseen, g, -, hhead⟩
  · have hσ := h.idle_of_zombie (h.seen c p _ hseen)
    have hcr := h.not_created (p := p) (t := k.thread c) (by simp [hσ])
    have hpe := h.not_pending (p := p) (t := k.thread c) (by simp [hσ])
    have hmaking : ((V (k.thread c)).write (k.running c) p .free).making? =
        (V (k.thread c)).making? := by
      simp [View.write, View.making?, hseen]
    exact h.act_locked hl hsane hheld hon (.inr (.inr rfl)) (by simp [hσ, Sit.Mine]) trivial
      (by simp [hσ]) (by simp) (fun q _ => by rw [hmaking]) (iff_of_false (hmaking ▸ hcr) (by simp))
      (fun _ _ => Iff.rfl) (iff_of_false hpe (by simp)) rfl (fun _ => ⟨hon, ne_running_of_idle hσ⟩)
      (fun hme => absurd hme (hdead.2 c)) (hmaking ▸ h.nodupCreated _) (h.nodupPending _) rfl
      (fun _ => hbare) (fun _ => hdead.2)
  · obtain ⟨l, hcreated, hmaking, hpl, hσ⟩ := h.created_head hhead
    have hpe := h.not_pending (p := p) (t := k.thread c) (by simp [hσ])
    have hnd := h.nodupCreated (k.thread c)
    rw [hmaking, List.nodup_cons] at hnd
    have hmaking' : ((V (k.thread c)).write (k.running c) p .free).making? = l.map Prod.fst := by
      simp [View.write, View.making?, hseen, hcreated]
    exact h.act_locked hl hsane hheld hon (.inr (.inr rfl)) (by simp [hσ, Sit.Mine]) trivial
      (by simp [hσ]) (by simp) (fun q hq => by rw [hmaking', hmaking]; simp [hq])
      (by rw [hmaking']; simpa using hpl) (fun _ _ => Iff.rfl) (iff_of_false hpe (by simp)) rfl
      (fun _ => ⟨hon, by simp [hσ]⟩) (fun hme => absurd hme (hdead.2 c)) (hmaking' ▸ hnd.2)
      (h.nodupPending _) rfl (fun _ => hbare) (fun _ => hdead.2)

/-- The process at the head of what a thread is about to insert. -/
theorem pending_head (h : Situations k V qs σ) {t : Thread n}
    (hp : (V t).pending.head? = some p) :
    ∃ l, (V t).pending = p :: l ∧ p ∉ l ∧ l.Nodup ∧ σ p = .pending t := by
  obtain ⟨l, hl⟩ := List.head?_eq_some_iff.mp hp
  have hnd := h.nodupPending t
  rw [hl, List.nodup_cons] at hnd
  exact ⟨l, hl, hnd.1, hnd.2, (h.pending t p).mp (by simp [hl])⟩

/-- `insertProcess`. -/
theorem insert (h : Situations k V qs σ) {m : Mem}
    (hp : (V (k.thread c)).pending.head? = some p)
    (hstate : ∀ q, (m.proc q).state = (k.mem.proc q).state)
    (hqs : ∀ q, q ∈ qs' ↔ q = p ∨ q ∈ qs) :
    Situations (k.setMem m)
      (Function.update V (k.thread c)
        { V (k.thread c) with pending := (V (k.thread c)).pending.tail, waking := none }) qs'
      (Function.update σ p .queued) := by
  obtain ⟨l, hpending, hpl, hnd, hσ⟩ := h.pending_head hp
  have hst : (k.mem.proc p).state = .runnable := by
    have := h.fits p
    rwa [hσ] at this
  refine h.act rfl (fun q _ => hstate q) (by simp [hstate, hst, Sit.Fits]) (by simp [hσ, Sit.Mine])
    trivial (by simp) (fun _ _ => Iff.rfl) ?_ (fun q hq => by simp [hpending, hq])
    (by simp [hpending, hpl]) (fun _ _ => Iff.rfl) (fun c' hc' => ?_)
    (fun q hq => by simp [hqs, hq]) (by simp [hqs]) (fun _ => rfl) (fun c' hc' => ?_)
    (h.nodupCreated _) (by simpa [hpending] using hnd) (fun q st hs => ?_)
    (fun c' st _ hs => ?_) (fun q hq => ?_) (by simp [hstate, hst])
  · exact iff_of_false (h.not_created (p := p) (t := k.thread c) (by simp [hσ])) (by simp)
  · have := h.not_retrieved (p := p) (c := c') (by simp [hσ])
    rw [← hc'] at this
    simpa using this
  · have hoff := h.not_on_of_state hc' (by simp [hst])
    by_cases ht : Thread.proc p = k.thread c
    · rw [ht, Function.update_self]
      exact ht ▸ hoff
    · rwa [Function.update_of_ne ht]
  · rw [Kernel.setMem_mem, hstate]
    exact h.seen c q st hs
  · rw [Kernel.setMem_mem, hstate]
    exact h.seen c' p st hs
  · have hb := h.bare q (by simpa [hstate] using hq)
    by_cases ht : Thread.proc q = k.thread c
    · rw [← ht, hb.pending] at hp
      simp at hp
    · rwa [Function.update_of_ne ht]

/-- `retrieveProcess` with a process to return. -/
theorem retrieve (h : Situations k V qs σ) {m : Mem} (hme : k.running c = none)
    (hnone : (V (k.thread c)).retrieved = none)
    (hstate : ∀ q, (m.proc q).state = (k.mem.proc q).state)
    (hqs : qs = p :: qs') (hnd : qs.Nodup) :
    Situations (k.setMem m)
      (Function.update V (k.thread c) { V (k.thread c) with retrieved := some p }) qs'
      (Function.update σ p (.retrieved c)) := by
  have hthread : k.thread c = .cpu c := Kernel.thread_eq_cpu.mpr ⟨hme, rfl⟩
  have hσ : σ p = .queued := (h.queued p).mp (by simp [hqs])
  have hst : (k.mem.proc p).state = .runnable := by
    have := h.fits p
    rwa [hσ] at this
  rw [hqs, List.nodup_cons] at hnd
  refine h.act rfl (fun q _ => hstate q) (by simp [hstate, hst, Sit.Fits]) (by simp [hσ, Sit.Mine])
    hthread (by simp) (fun _ _ => Iff.rfl) ?_ (fun _ _ => Iff.rfl) ?_ (fun q hq => ?_)
    (fun c' hc' => ?_) (fun q hq => by simp [hqs, hq]) (by simpa using hnd.1) (fun _ => rfl)
    (fun c' hc' => ?_) (h.nodupCreated _) (h.nodupPending _) (fun q st hs => ?_)
    (fun c' st _ hs => ?_) (fun q hq => ?_) (by simp [hstate, hst])
  · exact iff_of_false (h.not_created (p := p) (t := k.thread c) (by simp [hσ])) (by simp)
  · exact iff_of_false (h.not_pending (p := p) (t := k.thread c) (by simp [hσ])) (by simp)
  · simp [hnone, Ne.symm hq]
  · obtain rfl : c = c' := by simpa [hthread] using hc'
    simp
  · rw [Function.update_of_ne (by simp [hthread])]
    exact h.not_on_of_state hc' (by simp [hst])
  · rw [Kernel.setMem_mem, hstate]
    exact h.seen c q st hs
  · rw [Kernel.setMem_mem, hstate]
    exact h.seen c' p st hs
  · rw [Function.update_of_ne (by simp [hthread])]
    exact h.bare q (by simpa [hstate] using hq)

/-- `scheduler`: the retrieved process is put on the CPU. -/
theorem dispatch (h : Situations k V qs σ) (hl : Locking k V) (hsane : ∀ t, Sane t.me (V t))
    {k' : Kernel n} {v : View} (hme : k.running c = none)
    (hheld : .proc p ∈ (V (.cpu c)).held) (hretrieved : (V (.cpu c)).retrieved = some p)
    (hp : ∀ c', k.running c' ≠ some p)
    (hrunning : k'.running = Function.update k.running c (some p))
    (hmem : k'.mem = Xv6Cfs.dispatch k.mem p) (hcreated : v.created = (V (.cpu c)).created)
    (hpending : v.pending = (V (.cpu c)).pending) (hnone : v.retrieved = none) :
    Situations k' (Function.update V (.cpu c) v) qs (Function.update σ p (.running c)) := by
  have hthread : k.thread c = .cpu c := Kernel.thread_eq_cpu.mpr ⟨hme, rfl⟩
  have hσ : σ p = .retrieved c := (h.retrieved c p).mp hretrieved
  have hst : (k.mem.proc p).state = .runnable := by
    have := h.fits p
    rwa [hσ] at this
  have hother : ∀ q, q ≠ p → (k'.mem.proc q).state = (k.mem.proc q).state := fun q hq => by
    rw [hmem, Xv6Cfs.dispatch, Mem.modify_ne _ _ hq]
  have hstp : (k'.mem.proc p).state = .running := by
    simp [hmem, Xv6Cfs.dispatch]
  have hmaking : v.making? = (V (.cpu c)).making? := by simp [View.making?, hcreated]
  have hcr : ∀ t, (Function.update V (.cpu c) v t).making? = (V t).making? := fun t => by
    by_cases ht : t = .cpu c <;> simp [ht, hmaking]
  have hpe : ∀ t, (Function.update V (.cpu c) v t).pending = (V t).pending := fun t => by
    by_cases ht : t = .cpu c <;> simp [ht, hpending]
  have hproc : ∀ q, Function.update V (.cpu c) v (.proc q) = V (.proc q) := fun q =>
    Function.update_of_ne (by simp) _ _
  -- What is said of a list only has to be checked at `p`, which is in none.
  have hmove : ∀ s, s ≠ σ p → s ≠ .running c → ∀ q, σ q = s ↔ Function.update σ p (.running c) q = s :=
    fun s h1 h2 q => by
      by_cases hq : q = p
      · subst hq
        simp [Ne.symm h1, Ne.symm h2]
      · simp [hq]
  refine ⟨fun t q => ?_, fun t q => ?_, fun c' q => ?_, fun q => ?_, fun c' q => ?_, fun q => ?_,
    fun t => ?_, fun t => ?_, fun c' q st hs => ?_, fun q hq => ?_, fun q hq => ?_⟩
  · rw [hcr, h.created, hmove (.created t) (by simp [hσ]) (by simp)]
  · rw [hpe, h.pending, hmove (.pending t) (by simp [hσ]) (by simp)]
  · by_cases hc : c' = c
    · subst hc
      rw [Function.update_self, hnone]
      by_cases hq : q = p
      · simp [hq]
      · rw [Function.update_of_ne hq, ← h.retrieved, hretrieved]
        simp [Ne.symm hq]
    · rw [Function.update_of_ne (by simp [hc]), h.retrieved,
        hmove (.retrieved c') (by simp [hσ, hc]) (by simp)]
  · rw [h.queued, hmove .queued (by simp [hσ]) (by simp)]
  · rw [hproc]
    by_cases hq : q = p
    · subst hq
      rw [Function.update_self, hrunning, Function.update_apply, (hl.parked q hp).on]
      by_cases hc : c' = c
      · simp [hc]
      · simp [hc, Ne.symm hc, hp c']
    · rw [Function.update_of_ne hq, ← h.running, hrunning, Function.update_apply]
      by_cases hc : c' = c
      · simp [hc, hme, Ne.symm hq]
      · simp [hc]
  · by_cases hq : q = p
    · subst hq
      simp [hstp, Sit.Fits]
    · rw [Function.update_of_ne hq, hother q hq]
      exact h.fits q
  · rw [hcr]
    exact h.nodupCreated t
  · rw [hpe]
    exact h.nodupPending t
  · by_cases hc : c' = c
    · subst hc
      rw [Kernel.thread_eq_proc.mpr (by simp [hrunning] : k'.running c' = some p), hproc,
        (hl.parked p hp).seen] at hs
      simp at hs
    · have ht : k'.thread c' = k.thread c' := Kernel.thread_congr (by simp [hrunning, hc])
      have hne : k.thread c' ≠ .cpu c := fun e => hc (Kernel.thread_eq_cpu.mp e).2
      rw [ht, Function.update_of_ne hne] at hs
      have hq : q ≠ p := by
        rintro rfl
        exact seen_ne hl hsane (hthread ▸ hheld) hc hs
      rw [hother q hq]
      exact h.seen c' q st hs
  · rw [hproc]
    have hq' : q ≠ p := by
      rintro rfl
      simp [ProcState.Dead, hstp] at hq
    exact h.bare q (hother q hq' ▸ hq)
  · have hq' : q ≠ p := by
      rintro rfl
      simp [hstp] at hq
    rw [hother q hq'] at hq
    intro c'
    rw [hrunning, Function.update_apply]
    split
    · simpa using Ne.symm hq'
    · exact h.absent q hq c'

/-- `sched`: the process switches to the scheduler. -/
theorem switch (h : Situations k V qs σ) (hl : Locking k V) {k' : Kernel n} {v : View}
    (hme : k.running c = some p) (hoff : (V (.proc p)).on = false)
    (hrunning : k'.running = Function.update k.running c none) (hmem : k'.mem = k.mem)
    (hcreated : v.created = (V (.proc p)).created) (hpending : v.pending = (V (.proc p)).pending)
    (hreading : v.reading = (V (.proc p)).reading) :
    Situations k' (Function.update V (.proc p) v) qs σ := by
  have hmaking : v.making? = (V (.proc p)).making? := by simp [View.making?, hcreated]
  have hcr : ∀ t, (Function.update V (.proc p) v t).making? = (V t).making? := fun t => by
    by_cases ht : t = .proc p <;> simp [ht, hmaking]
  have hpe : ∀ t, (Function.update V (.proc p) v t).pending = (V t).pending := fun t => by
    by_cases ht : t = .proc p <;> simp [ht, hpending]
  refine ⟨fun t q => ?_, fun t q => ?_, fun c' q => ?_, h.queued, fun c' q => ?_, fun q => ?_,
    fun t => ?_, fun t => ?_, fun c' q st hs => ?_, fun q hq => ?_, fun q hq c' => ?_⟩
  · rw [hcr]
    exact h.created t q
  · rw [hpe]
    exact h.pending t q
  · rw [Function.update_of_ne (by simp)]
    exact h.retrieved c' q
  · rw [hrunning, ← h.running c' q]
    by_cases hc : c' = c
    · subst hc
      rw [Function.update_self, hme]
      constructor
      · simp
      · rintro ⟨e, hon⟩
        obtain rfl := Option.some.inj e
        simp [hoff] at hon
    · rw [Function.update_of_ne hc]
      by_cases hq : q = p
      · subst hq
        have hne : k.running c' ≠ some q := fun e => hc (hl.running c' c q e hme)
        simp [hne]
      · rw [Function.update_of_ne (by simp [hq])]
  · rw [hmem]
    exact h.fits q
  · rw [hcr]
    exact h.nodupCreated t
  · rw [hpe]
    exact h.nodupPending t
  · rw [hmem]
    by_cases hc : c' = c
    · subst hc
      rw [Kernel.thread_eq_cpu.mpr ⟨by simp [hrunning], rfl⟩, Function.update_of_ne (by simp),
        (hl.away c' p hme).seen] at hs
      simp at hs
    · have ht : k'.thread c' = k.thread c' := Kernel.thread_congr (by simp [hrunning, hc])
      have hne : k.thread c' ≠ .proc p := fun e =>
        hc (hl.running c' c p (Kernel.thread_eq_proc.mp e) hme)
      rw [ht, Function.update_of_ne hne] at hs
      exact h.seen c' q st hs
  · rw [hmem] at hq
    have hb := h.bare q hq
    by_cases hqp : q = p
    · subst hqp
      rw [Function.update_self]
      exact ⟨by rw [hcreated, hb.created], by rw [hpending, hb.pending], by rw [hreading, hb.reading]⟩
    · rwa [Function.update_of_ne (by simp [hqp])]
  · rw [hmem] at hq
    rw [hrunning, Function.update_apply]
    split
    · simp
    · exact h.absent q hq c'

/-- `allocproc`: a process that is being made gets a new thread. -/
theorem renew (h : Situations k V qs σ) {k' : Kernel n} {v : View}
    (hst : (k.mem.proc p).state = .used) (hrunning : k'.running = k.running)
    (hstate : ∀ q, (k'.mem.proc q).state = (k.mem.proc q).state) (hv : v.Bare) :
    Situations k' (Function.update V (.proc p) v) qs σ := by
  have hb := h.bare p (.inr (.inl hst))
  have hcr : ∀ t, (Function.update V (.proc p) v t).making? = (V t).making? := fun t => by
    by_cases ht : t = .proc p <;> simp [ht, View.making?, hv.created, hb.created]
  have hpe : ∀ t, (Function.update V (.proc p) v t).pending = (V t).pending := fun t => by
    by_cases ht : t = .proc p <;> simp [ht, hv.pending, hb.pending]
  refine ⟨fun t q => ?_, fun t q => ?_, fun c' q => ?_, h.queued, fun c' q => ?_, fun q => ?_,
    fun t => ?_, fun t => ?_, fun c' q st hs => ?_, fun q hq => ?_, fun q hq => ?_⟩
  · rw [hcr]
    exact h.created t q
  · rw [hpe]
    exact h.pending t q
  · rw [Function.update_of_ne (by simp)]
    exact h.retrieved c' q
  · rw [hrunning, ← h.running c' q]
    by_cases hq : q = p
    · subst hq
      have := h.absent q (.inr hst) c'
      simp [this]
    · rw [Function.update_of_ne (by simp [hq])]
  · rw [hstate]
    exact h.fits q
  · rw [hcr]
    exact h.nodupCreated t
  · rw [hpe]
    exact h.nodupPending t
  · rw [hstate]
    have ht : k'.thread c' = k.thread c' := Kernel.thread_congr (by rw [hrunning])
    have hne : k.thread c' ≠ .proc p := fun e =>
      h.absent p (.inr hst) c' (Kernel.thread_eq_proc.mp e)
    rw [ht, Function.update_of_ne hne] at hs
    exact h.seen c' q st hs
  · rw [hstate] at hq
    by_cases hqp : q = p
    · subst hqp
      rwa [Function.update_self]
    · rw [Function.update_of_ne (by simp [hqp])]
      exact h.bare q hq
  · rw [hstate] at hq
    rw [hrunning]
    exact h.absent q hq

end Situations

end Xv6Cfs
