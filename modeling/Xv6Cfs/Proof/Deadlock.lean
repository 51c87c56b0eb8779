import Xv6Cfs.Proof.Placement

/-!
# Spinning in a cycle

The locks are taken in an order, with one exception: `scheduler` takes
`tickslock` while it holds the lock of the process it is about to run or has just
run. It meets `clockintr`, which takes every `p->lock` while it holds `tickslock`.
This is the only way to a deadlock.
-/

namespace Xv6Cfs

open RedBlack Threads

variable {n : Nat} {k k' : Kernel n} {ℓ : Ledger n} {V : Thread n → View} {z : Bool}
  {P : Kernel n → Ledger n → Move n → Prop} {c c' : Fin n} {tr : ColorTree Slot}
  {σ : Slot → Sit n} {p : Slot}

/-! ## A process that has switched back is on no CPU -/

/-- What a scheduler has got back, no other CPU runs. -/
def GotBack (k : Kernel n) (V : Thread n → View) : Prop :=
  ∀ c c' p, (V (.cpu c)).off = some p → k.running c' = some p → c' = c

theorem instrNext_off {me : Option Slot} {i : Instr} {v : View} {r : Answer i}
    (hi : ∀ p, i ≠ .dispatch p) (h : (instrNext me i v r).off = some p) : v.off = some p := by
  cases i with
  | dispatch p => exact absurd rfl (hi p)
  | acquire l => simpa [instrNext] using h
  | release l => cases l <;> first | exact h | simp [instrNext, View.drop] at h
  | stateIs q st =>
      simp only [instrNext] at h
      split_ifs at h <;> exact h
  | pidIs q x =>
      simp only [instrNext] at h
      split_ifs at h <;> exact h
  | write q w => cases w <;> exact h
  | _ => exact h

theorem gotBack_kept : Kept P z (fun (k : Kernel n) _ V => GotBack k V) where
  boot := fun c c' p h => by simp [bootView] at h
  congr hshared hlock hnoff hrunning h := fun c c' p hoff hc' => h c c' p hoff (by rwa [← hrunning])
  tick c i _ _ _ h := h
  instr {k k' ℓ V c e i r tr σ} _ hcore hb _ _ hpre hex h := by
    intro c₁ c₂ p hoff hc₂
    rw [viewNext_cpu] at hoff
    by_cases hi : ∃ q, i = .dispatch q
    · obtain ⟨q, rfl⟩ := hi
      obtain ⟨hme, hheld, hq, -⟩ := hpre
      have hthread := Kernel.thread_eq_cpu.mpr ⟨hme, rfl⟩
      have hno := hb.not_running_of_retrieved hme (by simp [hheld]) (hthread ▸ hq)
      simp only [execute, Option.some.injEq, Prod.mk.injEq] at hex
      replace hc₂ : (if c₂ = c then some q else k.running c₂) = some p := by
        rw [← Function.update_apply]
        rw [← hex.1] at hc₂
        exact hc₂
      rw [hthread] at hoff hheld
      by_cases hc : c₁ = c
      · subst hc
        rw [Function.update_self] at hoff
        obtain rfl : q = p := by simpa [instrNext] using hoff
        by_contra hne
        rw [if_neg hne] at hc₂
        exact hno c₂ hc₂
      · rw [Function.update_of_ne (by simp [hc])] at hoff
        split at hc₂
        · -- `c` holds the lock of `q`, so no other scheduler has it
          obtain rfl : q = p := by simpa using hc₂
          have hoffheld := (hb.sane (.cpu c₁)).off q hoff
          cases hrun : k.running c₁ with
          | none =>
              have hheld₁ : .proc q ∈ (V (k.thread c₁)).held := by
                rwa [Kernel.thread_eq_cpu.mpr ⟨hrun, rfl⟩]
              have hheld₂ : .proc q ∈ (V (k.thread c)).held := by simp [hthread, hheld]
              exact absurd (hb.locking.exclusive hheld₁ hheld₂) hc
          | some q' =>
              have haway := hb.locking.away c₁ q' hrun
              rw [haway.held] at hoffheld
              obtain rfl : q = q' := by simpa using hoffheld
              exact absurd hrun (hno c₁)
        · exact h c₁ c₂ p hoff hc₂
    · have hoff' : (V (.cpu c₁)).off = some p := by
        by_cases ht : Thread.cpu c₁ = k.thread c
        · rw [ht, Function.update_self] at hoff
          rw [ht]
          exact instrNext_off (fun q hq => hi ⟨q, hq⟩) hoff
        · rwa [Function.update_of_ne ht] at hoff
      refine h c₁ c₂ p hoff' ?_
      by_cases hs : ∃ q, i = .switch q
      · obtain ⟨q, rfl⟩ := hs
        simp only [execute, Option.ite_none_right_eq_some, Option.some.injEq, Prod.mk.injEq] at hex
        rw [← hex.2.1, Kernel.setRunning_running, Function.update_apply] at hc₂
        split at hc₂
        · simp at hc₂
        · exact hc₂
      · rwa [← execute_running hex fun q => ⟨fun e => hi ⟨q, e⟩, fun e => hs ⟨q, e⟩⟩]

/-! ## The order of the locks -/

/--
How far up a CPU waits. A scheduler that takes `tickslock` with a `p->lock` comes
after whoever waits for a `p->lock`, unless he holds `tickslock` himself.
-/
def waitRank (k : Kernel n) (V : Thread n → View) (c : Fin n) : Nat :=
  match k.code (k.thread c) with
  | .instr (.acquire l) _ =>
      if ∀ h ∈ (V (k.thread c)).held, h.rank < l.rank then
        if l.rank = 2 ∧ .ticks ∈ (V (k.thread c)).held then 10 else 4 * l.rank
      else 9
  | _ => 0

theorem waitRank_eq {l : Lock} (h : k.Issues c (.acquire l)) : waitRank k V c =
    if ∀ h ∈ (V (k.thread c)).held, h.rank < l.rank then
      if l.rank = 2 ∧ .ticks ∈ (V (k.thread c)).held then 10 else 4 * l.rank
    else 9 := by
  obtain ⟨next, hcode⟩ := h
  rw [waitRank, hcode]

/-- In a race: a scheduler waits out of order for a CPU that waits for the lock it holds. -/
theorem tickRace_of_waits (hcore : Core k V z) (hb : Base k V tr σ) (hbook : Booked k ℓ V)
    (hback : GotBack k V) (hc : k.Issues c (.acquire .ticks))
    (hout : ¬∀ h ∈ (V (k.thread c)).held, h.rank < Lock.ticks.rank)
    (hp : .proc p ∈ (V (k.thread c)).held) (hc' : k.Issues c' (.acquire (.proc p)))
    (hticks : .ticks ∈ (V (k.thread c')).held) : TickRace k ℓ := by
  obtain ⟨next, hcode⟩ := hc
  obtain ⟨next', hcode'⟩ := hc'
  obtain ⟨hord, -⟩ := hcore.pre hcode
  obtain ⟨hord', hscan⟩ := hcore.pre hcode'
  obtain ⟨hme, -, q, hheld, hq⟩ := hord.resolve_left hout
  obtain rfl : p = q := by simpa [hheld] using hp
  have hne : c' ≠ c := by
    rintro rfl
    simp [hheld] at hticks
  -- The process is on no CPU: it is still to be run, or has just been run.
  have hrun : k.running c' ≠ some p := by
    intro hc'
    rcases hq with hseen | hoff
    · have hst := hb.sits.seen c p _ hseen
      have := hb.sits.not_on_of_state hc' (by simp [hst])
      simp [hb.locking.on_of_held hb.sane hp hc' hne] at this
    · rw [Kernel.thread_eq_cpu.mpr ⟨hme, rfl⟩] at hoff
      exact hne (hback c c' p hoff hc')
  obtain ⟨ps, hps, hnot⟩ := (hscan p rfl hticks).resolve_left hrun
  refine ⟨c, c', p, ps, hme, (hb.locking.lock _ _).mpr hp, ⟨next, hcode⟩,
    (hb.locking.lock _ _).mpr hticks, ?_, hnot, hrun⟩
  rw [hbook.scanned, hps]

/-- **Without the race the rank grows from who waits to whom he waits for.** -/
theorem waitRank_lt (hcore : Core k V z) (hb : Base k V tr σ) (hbook : Booked k ℓ V)
    (hback : GotBack k V) (hrace : ¬TickRace k ℓ) (hwait : k.WaitsFor c c')
    (hwaits : ∃ c'', k.WaitsFor c' c'') : waitRank k V c < waitRank k V c' := by
  obtain ⟨l, hc, hl⟩ := hwait
  obtain ⟨c'', l', hc', hl'⟩ := hwaits
  have hl := (hb.locking.lock l c').mp hl
  rw [waitRank_eq hc, waitRank_eq hc']
  by_cases hord' : ∀ h ∈ (V (k.thread c')).held, h.rank < l'.rank
  · have hlt := hord' l hl
    have hle : l'.rank ≤ 3 := by cases l' <;> simp [Lock.rank]
    rw [if_pos hord']
    by_cases hord : ∀ h ∈ (V (k.thread c)).held, h.rank < l.rank
    · rw [if_pos hord]
      split_ifs <;> omega
    · -- `c` is a scheduler out of order, and `c'` holds `tickslock`
      rw [if_neg hord]
      obtain ⟨next, hcode⟩ := id hc
      obtain ⟨-, rfl, -⟩ := (hcore.pre hcode).1.resolve_left hord
      have hone : Lock.ticks.rank = 1 := rfl
      split_ifs with h2
      · omega
      · have : l'.rank ≠ 2 := fun e => h2 ⟨e, hl⟩
        omega
  · -- `c'` is a scheduler out of order, and `c` waits for the lock of a process
    rw [if_neg hord']
    obtain ⟨next', hcode'⟩ := id hc'
    obtain ⟨-, rfl, p, hheld', -⟩ := (hcore.pre hcode').1.resolve_left hord'
    obtain rfl : l = .proc p := by simpa [hheld'] using hl
    have hord : ∀ h ∈ (V (k.thread c)).held, h.rank < (Lock.proc p).rank := by
      obtain ⟨next, hcode⟩ := id hc
      exact (hcore.pre hcode).1.resolve_right (by simp)
    rw [if_pos hord]
    split_ifs with h2
    · exact absurd (tickRace_of_waits hcore hb hbook hback hc' hord' hl hc h2.2) hrace
    · simp [Lock.rank]

/-- **A reachable state with a cycle is in the race.** -/
theorem Run.tickRace_of_deadlocked (h : Run k ℓ) (hd : Deadlocked k) : TickRace k ℓ := by
  obtain ⟨V, hV⟩ := h.traced false
  have hcore := core_traced spared_false hV
  obtain ⟨tr, σ, hb⟩ := hcore.base
  have hbook := booked_traced spared_false hV
  have hback := gotBack_kept.traced spared_false hV
  by_contra hrace
  exact not_cyclic_of_rank (waitRank k V)
    (fun c c' => waitRank_lt hcore hb hbook hback hrace) hd

/--
**Without the race there is no deadlock.** In every run that never comes into a
state in which a scheduler spins for `tickslock` with a lock that `clockintr` has
still to take, no CPUs spin in a cycle.
-/
theorem not_deadlocked {k : Kernel n} {ℓ : Ledger n}
    (h : RunWhere (fun k ℓ _ => ¬TickRace k ℓ) k ℓ) (hrace : ¬TickRace k ℓ) : ¬Deadlocked k :=
  fun hd => hrace (h.run.tickRace_of_deadlocked hd)

/-! ## Spinning without the race -/

/-- The lock a CPU is about to take. -/
def Kernel.wants (k : Kernel n) (c : Fin n) : Option Lock :=
  match k.code (k.thread c) with
  | .instr (.acquire l) _ => some l
  | _ => none

theorem Kernel.issues_of_wants {l : Lock} (h : k.wants c = some l) : k.Issues c (.acquire l) := by
  unfold wants at h
  split at h
  · rename_i next hcode
    obtain rfl := Option.some.inj h
    exact ⟨next, hcode⟩
  · simp at h

/-- Who is about to take `tickslock` finds it free. -/
def TicksFree (k : Kernel n) : Prop := ∀ c, k.wants c = some .ticks → k.lock .ticks = none

instance (k : Kernel n) : Decidable (TicksFree k) :=
  inferInstanceAs (Decidable (∀ c, k.wants c = some .ticks → k.lock .ticks = none))

theorem TicksFree.not_tickRace (h : TicksFree k) : ¬TickRace k ℓ := by
  rintro ⟨c, c', p, ps, -, -, ⟨next, hcode⟩, hticks, -⟩
  have hfree := h c (by simp [Kernel.wants, hcode])
  simp [hfree] at hticks

/--
The first CPU has inserted the first process; the second retrieves it, takes its lock,
and reads the clock; then the first is interrupted by the timer.
-/
def tickMovesFirst : List (Move 3) :=
  List.replicate 16 (.exec 0 {}) ++ List.replicate 10 (.exec 1 {}) ++
    List.replicate 2 (.exec 0 {}) ++ [.interrupt 0 .timer] ++ List.replicate 3 (.exec 0 {})

theorem tickMovesFirst_spec :
    (execWhere (fun k _ _ => TicksFree k) (boot 3, Ledger.empty 3) tickMovesFirst).any
      (fun s => TicksFree s.1 ∧ s.1.wants 0 = some (.proc 0) ∧ s.1.lock (.proc 0) = some 1 ∧
        s.1.lock .ticks = some 0) = true := by
  decide +kernel

/-- `clockintr` spins for the lock of a process that a scheduler holds, which goes on. -/
theorem not_deadlocked_first : ∃ k : Kernel 3, k.WaitsFor 0 1 ∧ k.lock .ticks = some 0 ∧
    ¬Deadlocked k := by
  obtain ⟨s, hs, hspec⟩ := (Option.any_eq_true _ _).mp tickMovesFirst_spec
  obtain ⟨hfree, hwants, hlock, hticks⟩ := of_decide_eq_true hspec
  have hrun : RunWhere (fun k _ _ => TicksFree k) s.1 s.2 := runWhere_exec .init hs
  exact ⟨s.1, ⟨.proc 0, Kernel.issues_of_wants hwants, hlock⟩, hticks,
    not_deadlocked (hrun.mono fun k ℓ mv h => h.not_tickRace) hfree.not_tickRace⟩

/-! ## The race is lost -/

/--
The first CPU has inserted the first process; the second retrieves it, takes its
lock and is about to take `tickslock`; the first is interrupted by the timer.
-/
def raceMoves : List (Move 3) :=
  List.replicate 16 (.exec 0 {}) ++ List.replicate 8 (.exec 1 {}) ++
    List.replicate 2 (.exec 0 {}) ++ [.interrupt 0 .timer] ++ List.replicate 3 (.exec 0 {})

theorem raceMoves_isSome : (exec (boot 3, Ledger.empty 3) raceMoves).isSome := by decide +kernel

/-- **Some runs deadlock**: `scheduler` and `clockintr` spin for each other's locks. -/
theorem not_forall_not_deadlocked :
    ¬∀ (n : Nat) (k : Kernel n) (ℓ : Ledger n), Run k ℓ → ¬Deadlocked k := by
  intro h
  refine h 3 _ _ (run_exec .init (Option.some_get raceMoves_isSome).symm)
    ⟨0, .tail (b := 1) (.single ⟨.proc 0, Kernel.issues_of_wants ?_, ?_⟩)
      ⟨.ticks, Kernel.issues_of_wants ?_, ?_⟩⟩ <;> decide +kernel

end Xv6Cfs
