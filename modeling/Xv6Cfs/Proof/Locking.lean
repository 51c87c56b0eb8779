import Xv6Cfs.Proof.Traces

/-!
# Who holds which lock

A CPU holds the locks in the view of the thread it runs, and no others. A thread
that no CPU runs has the view it will have when it is switched to: whoever
switches to it holds its lock, and hands it over.
-/

namespace Xv6Cfs

variable {n : Nat} {k : Kernel n} {V : Thread n → View}

/-! ## Threads and CPUs -/

namespace Kernel

@[simp] theorem thread_me (k : Kernel n) (c : Fin n) : (k.thread c).me = k.running c := by
  unfold thread
  cases k.running c <;> rfl

theorem thread_eq_proc {c : Fin n} {p : Slot} : k.thread c = .proc p ↔ k.running c = some p := by
  unfold thread
  cases k.running c <;> simp

theorem thread_eq_cpu {c c' : Fin n} :
    k.thread c = .cpu c' ↔ k.running c = none ∧ c = c' := by
  unfold thread
  cases k.running c <;> simp

theorem thread_congr {k' : Kernel n} {c : Fin n} (h : k'.running c = k.running c) :
    k'.thread c = k.thread c := by
  unfold thread
  rw [h]

end Kernel

/-- The view of the scheduler of a CPU that runs `p`. -/
structure Away (p : Slot) (v : View) : Prop where
  held : v.held = [.proc p]
  seen : v.seen = none
  retrieved : v.retrieved = none
  waking : v.waking = none
  off : v.off = some p

/-- The view of `p` while no CPU runs it. -/
structure Parked (p : Slot) (v : View) : Prop where
  held : v.held = [.proc p]
  on : v.on = true
  seen : v.seen = none
  waking : v.waking = none
  leaving : v.leaving = none

/-- The locks are those of the views. -/
structure Locking (k : Kernel n) (V : Thread n → View) : Prop where
  lock : ∀ l c, k.lock l = some c ↔ l ∈ (V (k.thread c)).held
  noff : ∀ c, k.noff c = (V (k.thread c)).held.length
  running : ∀ c c' p, k.running c = some p → k.running c' = some p → c = c'
  away : ∀ c p, k.running c = some p → Away p (V (.cpu c))
  parked : ∀ p, (∀ c, k.running c ≠ some p) → Parked p (V (.proc p))

namespace Locking

theorem thread_inj (h : Locking k V) {c c' : Fin n} (ht : k.thread c = k.thread c') : c = c' := by
  cases hc : k.running c with
  | some p =>
      have h1 := Kernel.thread_eq_proc.mpr hc
      exact h.running c c' p hc (Kernel.thread_eq_proc.mp (ht ▸ h1))
  | none =>
      have h1 := Kernel.thread_eq_cpu.mpr ⟨hc, rfl⟩
      exact (Kernel.thread_eq_cpu.mp (ht ▸ h1)).2.symm

/-- A lock is held by one thread. -/
theorem exclusive (h : Locking k V) {l : Lock} {c c' : Fin n} (hc : l ∈ (V (k.thread c)).held)
    (hc' : l ∈ (V (k.thread c')).held) : c = c' := by
  rw [← h.lock] at hc hc'
  exact Option.some.inj (hc.symm.trans hc')

/-- Who holds the lock of a process that another CPU runs knows that it is still `RUNNING`. -/
theorem on_of_held (h : Locking k V) (hsane : ∀ t, Sane t.me (V t)) {p : Slot} {c c' : Fin n}
    (hc : .proc p ∈ (V (k.thread c)).held) (hc' : k.running c' = some p) (hne : c' ≠ c) :
    (V (.proc p)).on = true := by
  by_contra hon
  obtain ⟨q, hq, hheld⟩ := (hsane (.proc p)).on (by simpa using hon)
  obtain rfl : p = q := by simpa [Thread.me] using hq
  exact hne (h.exclusive (Kernel.thread_eq_proc.mpr hc' ▸ hheld) hc)

/-! ## What the instructions do -/

/-- A thread's view changes, but not its locks. -/
theorem update (h : Locking k V) {k' : Kernel n} {c : Fin n} {v : View} (hlock : k'.lock = k.lock)
    (hnoff : k'.noff = k.noff) (hrunning : k'.running = k.running)
    (hheld : v.held = (V (k.thread c)).held) :
    Locking k' (Function.update V (k.thread c) v) := by
  have hthread : ∀ c', k'.thread c' = k.thread c' := fun c' => Kernel.thread_congr (by rw [hrunning])
  have hV : ∀ t, (Function.update V (k.thread c) v t).held = (V t).held := by
    intro t
    by_cases ht : t = k.thread c
    · subst ht
      simpa using hheld
    · simp [ht]
  refine ⟨fun l c' => ?_, fun c' => ?_, ?_, fun c' p hp => ?_, fun p hp => ?_⟩
  · rw [hlock, hthread, hV]
    exact h.lock l c'
  · rw [hnoff, hthread, hV]
    exact h.noff c'
  · rw [hrunning]
    exact h.running
  · rw [hrunning] at hp
    have hne : Thread.cpu c' ≠ k.thread c := fun e => by
      obtain ⟨hnone, rfl⟩ := Kernel.thread_eq_cpu.mp e.symm
      simp [hnone] at hp
    rw [Function.update_of_ne hne]
    exact h.away c' p hp
  · simp only [hrunning] at hp
    have hne : Thread.proc p ≠ k.thread c := fun e =>
      hp c (Kernel.thread_eq_proc.mp e.symm)
    rw [Function.update_of_ne hne]
    exact h.parked p hp

theorem take (h : Locking k V) {c : Fin n} {l : Lock} (hfree : k.lock l = none) {v : View}
    (hheld : v.held = l :: (V (k.thread c)).held) :
    Locking (k.take c l) (Function.update V (k.thread c) v) := by
  have hthread : ∀ c', (k.take c l).thread c' = k.thread c' := fun _ => rfl
  have hother : ∀ c', c' ≠ c → Function.update V (k.thread c) v (k.thread c') = V (k.thread c') :=
    fun c' hne => Function.update_of_ne (fun e => hne (h.thread_inj e)) _ _
  refine ⟨fun x c' => ?_, fun c' => ?_, h.running, fun c' p hp => ?_, fun p hp => ?_⟩
  · rw [hthread, Kernel.take_lock]
    by_cases hc : c' = c
    · subst hc
      rw [Function.update_self, hheld, List.mem_cons]
      by_cases hx : x = l
      · simp [hx]
      · simp [hx, h.lock]
    · rw [hother c' hc]
      by_cases hx : x = l
      · subst hx
        have hno : x ∉ (V (k.thread c')).held := fun hmem => by
          simp [(h.lock x c').mpr hmem] at hfree
        simp [hno, Ne.symm hc]
      · simp [hx, h.lock]
  · rw [hthread, Kernel.take_noff]
    by_cases hc : c' = c
    · subst hc
      simp [hheld, h.noff]
    · rw [hother c' hc, Function.update_of_ne hc]
      exact h.noff c'
  · have hne : Thread.cpu c' ≠ k.thread c := fun e => by
      obtain ⟨hnone, rfl⟩ := Kernel.thread_eq_cpu.mp e.symm
      simp [hnone] at hp
    rw [Function.update_of_ne hne]
    exact h.away c' p hp
  · have hne : Thread.proc p ≠ k.thread c := fun e =>
      hp c (Kernel.thread_eq_proc.mp e.symm)
    rw [Function.update_of_ne hne]
    exact h.parked p hp

theorem drop (h : Locking k V) (hsane : ∀ t, Sane t.me (V t)) {c : Fin n} {l : Lock}
    (hl : k.lock l = some c) {v : View} (hheld : v.held = (V (k.thread c)).held.erase l) :
    Locking (k.drop c l) (Function.update V (k.thread c) v) := by
  have hthread : ∀ c', (k.drop c l).thread c' = k.thread c' := fun _ => rfl
  have hother : ∀ c', c' ≠ c → Function.update V (k.thread c) v (k.thread c') = V (k.thread c') :=
    fun c' hne => Function.update_of_ne (fun e => hne (h.thread_inj e)) _ _
  have hmem := (h.lock l c).mp hl
  refine ⟨fun x c' => ?_, fun c' => ?_, h.running, fun c' p hp => ?_, fun p hp => ?_⟩
  · rw [hthread, Kernel.drop_lock]
    by_cases hc : c' = c
    · subst hc
      rw [Function.update_self, hheld]
      by_cases hx : x = l
      · subst hx
        simp [(hsane (k.thread c')).nodup.not_mem_erase]
      · simp [hx, h.lock, List.mem_erase_of_ne hx]
    · rw [hother c' hc]
      by_cases hx : x = l
      · subst hx
        have hno : x ∉ (V (k.thread c')).held := fun hm => hc (h.exclusive hm hmem)
        simp [hno]
      · simp [hx, h.lock]
  · rw [hthread, Kernel.drop_noff]
    by_cases hc : c' = c
    · subst hc
      simp [hheld, h.noff, List.length_erase_of_mem hmem]
    · rw [hother c' hc, Function.update_of_ne hc]
      exact h.noff c'
  · have hne : Thread.cpu c' ≠ k.thread c := fun e => by
      obtain ⟨hnone, rfl⟩ := Kernel.thread_eq_cpu.mp e.symm
      simp [hnone] at hp
    rw [Function.update_of_ne hne]
    exact h.away c' p hp
  · have hne : Thread.proc p ≠ k.thread c := fun e =>
      hp c (Kernel.thread_eq_proc.mp e.symm)
    rw [Function.update_of_ne hne]
    exact h.parked p hp

/-- The scheduler of `c` switches to `p`, which no CPU runs. -/
theorem dispatch (h : Locking k V) {k' : Kernel n} {c : Fin n} {p : Slot} {v : View}
    (hc : k.running c = none) (hp : ∀ c', k.running c' ≠ some p)
    (hheld : (V (.cpu c)).held = [.proc p]) (hv : Away p v) (hlock : k'.lock = k.lock)
    (hnoff : k'.noff = k.noff) (hrunning : k'.running = Function.update k.running c (some p)) :
    Locking k' (Function.update V (.cpu c) v) := by
  have hcpu : k.thread c = .cpu c := Kernel.thread_eq_cpu.mpr ⟨hc, rfl⟩
  have hself : k'.thread c = .proc p := Kernel.thread_eq_proc.mpr (by simp [hrunning])
  have hother : ∀ c', c' ≠ c → k'.thread c' = k.thread c' := fun c' hne =>
    Kernel.thread_congr (by simp [hrunning, hne])
  -- The locks of a CPU are those it had.
  have hsame : ∀ c', (Function.update V (.cpu c) v (k'.thread c')).held = (V (k.thread c')).held := by
    intro c'
    by_cases hne : c' = c
    · subst hne
      rw [hself, Function.update_of_ne (by simp), hcpu, hheld, (h.parked p hp).held]
    · have : k'.thread c' ≠ .cpu c := fun e => by
        rw [hother c' hne] at e
        exact hne (Kernel.thread_eq_cpu.mp e).2
      rw [Function.update_of_ne this, hother c' hne]
  refine ⟨fun l c' => ?_, fun c' => ?_, fun c₁ c₂ q h₁ h₂ => ?_, fun c' q hq => ?_,
    fun q hq => ?_⟩
  · rw [hlock, hsame]
    exact h.lock l c'
  · rw [hnoff, hsame]
    exact h.noff c'
  · simp only [hrunning, Function.update_apply] at h₁ h₂
    split at h₁ <;> split at h₂
    · simp_all
    · rename_i h1 _
      simp only [Option.some.injEq] at h₁
      exact absurd (h₁ ▸ h₂) (hp c₂)
    · simp only [Option.some.injEq] at h₂
      exact absurd (h₂ ▸ h₁) (hp c₁)
    · exact h.running c₁ c₂ q h₁ h₂
  · by_cases hne : c' = c
    · subst hne
      obtain rfl : p = q := by simpa [hrunning] using hq
      simpa using hv
    · rw [Function.update_of_ne (by simp [hne])]
      exact h.away c' q (by simpa [hrunning, hne] using hq)
  · rw [Function.update_of_ne (by simp)]
    refine h.parked q fun c' hc' => hq c' ?_
    have hne : c' ≠ c := fun e => by simp [e, hc] at hc'
    simpa [hrunning, hne] using hc'

/-- The process of `c` switches to the scheduler. -/
theorem switch (h : Locking k V) {k' : Kernel n} {c : Fin n} {p : Slot} {v : View}
    (hc : k.running c = some p) (hheld : (V (.proc p)).held = [.proc p]) (hv : Parked p v)
    (hlock : k'.lock = k.lock) (hnoff : k'.noff = k.noff)
    (hrunning : k'.running = Function.update k.running c none) :
    Locking k' (Function.update V (.proc p) v) := by
  have hproc : k.thread c = .proc p := Kernel.thread_eq_proc.mpr hc
  have hself : k'.thread c = .cpu c := Kernel.thread_eq_cpu.mpr ⟨by simp [hrunning], rfl⟩
  have hother : ∀ c', c' ≠ c → k'.thread c' = k.thread c' := fun c' hne =>
    Kernel.thread_congr (by simp [hrunning, hne])
  have hsame : ∀ c', (Function.update V (.proc p) v (k'.thread c')).held = (V (k.thread c')).held := by
    intro c'
    by_cases hne : c' = c
    · subst hne
      rw [hself, Function.update_of_ne (by simp), hproc, hheld, (h.away c' p hc).held]
    · have : k'.thread c' ≠ .proc p := fun e => by
        rw [hother c' hne] at e
        exact hne (h.running c' c p (Kernel.thread_eq_proc.mp e) hc)
      rw [Function.update_of_ne this, hother c' hne]
  refine ⟨fun l c' => ?_, fun c' => ?_, fun c₁ c₂ q h₁ h₂ => ?_, fun c' q hq => ?_,
    fun q hq => ?_⟩
  · rw [hlock, hsame]
    exact h.lock l c'
  · rw [hnoff, hsame]
    exact h.noff c'
  · simp only [hrunning, Function.update_apply] at h₁ h₂
    split at h₁ <;> split at h₂ <;> simp_all
    exact h.running c₁ c₂ q h₁ h₂
  · have hne : c' ≠ c := fun e => by simp [e, hrunning] at hq
    rw [Function.update_of_ne (by simp)]
    exact h.away c' q (by simpa [hrunning, hne] using hq)
  · by_cases hqp : q = p
    · subst hqp
      simpa using hv
    · rw [Function.update_of_ne (by simp [hqp])]
      refine h.parked q fun c' hc' => hq c' ?_
      have hne : c' ≠ c := fun e => by
        subst e
        simp only [hc, Option.some.injEq] at hc'
        exact hqp hc'.symm
      simpa [hrunning, hne] using hc'

/-- A process that no CPU runs gets a new thread. -/
theorem renew (h : Locking k V) {k' : Kernel n} {p : Slot} {v : View}
    (hp : ∀ c, k.running c ≠ some p) (hv : Parked p v) (hlock : k'.lock = k.lock)
    (hnoff : k'.noff = k.noff) (hrunning : k'.running = k.running) :
    Locking k' (Function.update V (.proc p) v) := by
  have hthread : ∀ c', k'.thread c' = k.thread c' := fun c' => Kernel.thread_congr (by rw [hrunning])
  have hne : ∀ c', k.thread c' ≠ .proc p := fun c' e => hp c' (Kernel.thread_eq_proc.mp e)
  refine ⟨fun l c' => ?_, fun c' => ?_, ?_, fun c' q hq => ?_, fun q hq => ?_⟩
  · rw [hlock, hthread, Function.update_of_ne (hne c')]
    exact h.lock l c'
  · rw [hnoff, hthread, Function.update_of_ne (hne c')]
    exact h.noff c'
  · rw [hrunning]
    exact h.running
  · rw [hrunning] at hq
    rw [Function.update_of_ne (by simp)]
    exact h.away c' q hq
  · rw [hrunning] at hq
    by_cases hqp : q = p
    · subst hqp
      simpa using hv
    · rw [Function.update_of_ne (by simp [hqp])]
      exact h.parked q hq

end Locking

end Xv6Cfs
