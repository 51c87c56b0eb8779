import Xv6Cfs.Proof.Following
import Xv6Cfs.Proof.Rousing

/-!
# No lost wakeup

A thread calls `wakeup` with a lock; the sleeper has called `sleep` with it. The two
calls are followed through the run: the first ends knowing of every process that it is
awake, and the second, from where it gives the lock up, has slept.
-/

namespace Xv6Cfs

open RedBlack Threads Rules

variable {n : Nat} {α : Type} {P : Kernel n → Ledger n → Move n → Prop} {t : Thread n}
  {x₀ x : Code α} {next : α → Code Int} {k₀ k k' : Kernel n} {ℓ₀ ℓ ℓ' : Ledger n} {y : Code Unit}
  {L : List (Act n)} {V : Thread n → View} {z : Bool} {tr : ColorTree Slot} {σ : Slot → Sit n}
  {l lk : Lock} {p q : Slot} {Q : α → View → Prop} {chan : Option Chan} {v : View}
  {me : Option Slot} {x' : Chan}

/-! ## A call under a lock -/

/-- The rules for a call that keeps the lock `l`. -/
def keeping (l : Lock) : Rules Instr Answer Routine Unit :=
  avoiding (fun i => i ≠ .release l) fun _ => False

/-- **A call that keeps a lock is not interrupted**, and ends where the rules say. -/
theorem During.lax (h : During P t x₀ next k₀ ℓ₀ k ℓ y x L) (hne : ∀ p, l ≠ .proc p)
    (hl : k₀.Holds t l) (hx : (keeping l).wp x₀ (fun _ _ => True) ())
    (h₀ : ∀ V, Traced P false k₀ ℓ₀ V → (rules t.me).lax.wp x₀ Q (V t)) :
    y = pure () ∧ (keeping l).wp x (fun _ _ => True) () ∧ ∃ V, Traced P false k ℓ V ∧
      l ∈ (V t).held ∧ (rules t.me).lax.wp x Q (V t) := by
  induction h with
  | start hrun ht hcode =>
      obtain ⟨V, hV⟩ := hrun.traced false
      obtain ⟨tr, σ, hb⟩ := (core_traced spared_false hV).base
      obtain ⟨c, rfl, hc⟩ := hl
      exact ⟨rfl, hx, V, hV, (hb.locking.lock l c).mp hc, h₀ V hV⟩
  | @act k k₁ k' ℓ ℓ' L c e i r g hd ht hP hs hex ih =>
      obtain ⟨-, hkeep, V, hV, hheld, hwp⟩ := ih
      have hcore := core_traced spared_false hV
      obtain ⟨tr, σ, hb⟩ := hcore.base
      have hcode := hd.code
      subst ht
      have hpre := hcore.pre hcode
      have hcan := hb.can (r := r) (fun hv => by simp [hcore.nozero] at hv) hex
      obtain ⟨rfl, rfl⟩ := code_step hcode hs hex
      refine ⟨rfl, hkeep.2 r trivial, _, hV.tail hP (.instr hcode hex), ?_⟩
      rw [hb.viewNext_self hpre, ← Kernel.thread_me]
      refine ⟨?_, hwp.2 r (by rwa [Kernel.thread_me])⟩
      by_cases hacq : ∃ l', i = .acquire l'
      · obtain ⟨l', rfl⟩ := hacq
        simp [instrNext, hheld]
      by_cases hrel : ∃ l', i = .release l'
      · obtain ⟨l', rfl⟩ := hrel
        rw [instrNext, View.drop_held]
        exact (List.mem_erase_of_ne fun he : l = l' => hkeep.1 (he ▸ rfl)).mpr hheld
      push Not at hacq hrel
      rwa [held_instrNext fun l' => ⟨hacq l', hrel l'⟩]
  | call hd _ _ _ ih => exact ih.2.1.1.elim
  | interrupt hd ht _ hs ih =>
      obtain ⟨-, -, V, hV, hheld, -⟩ := ih
      simp only [step, Option.ite_none_right_eq_some] at hs
      obtain ⟨⟨-, hnoff⟩, -⟩ := hs
      subst ht
      simp [((core_traced spared_false hV).free hnoff).held] at hheld
  | handle _ _ _ _ _ ih => cases ih.1
  | handleCall _ _ _ _ ih => cases ih.1
  | @other k k' ℓ ℓ' L y x mv hd ht hP hs _ ih =>
      obtain ⟨hy, hkeep, V, hV, hheld, hwp⟩ := ih
      have hcore := core_traced spared_false hV
      obtain ⟨tr, σ, hb⟩ := hcore.base
      obtain ⟨V', hstep⟩ := viewStep_of_step hs V
      refine ⟨hy, hkeep, V', hV.tail hP hstep, ?_⟩
      suffices hsame : V' t = V t by
        rw [hsame]
        exact ⟨hheld, hwp⟩
      obtain ⟨c', rfl⟩ := hb.thread_of_held hheld hne
      cases hstep with
      | call | interrupt => rfl
      | instr hcode hex => exact hb.viewNext_ne (hcore.pre hcode) fun he => ht (he ▸ rfl)

/-! ## `wakeup` -/

theorem keeping_wakeup (hne : ∀ p, l ≠ .proc p) (htree : l ≠ .tree) :
    (keeping l).wp (wakeup me chan) (fun _ _ => True) () := by
  refine wp_forEach (fun _ _ => True) (fun p ps _ _ => ?_) trivial
  unfold wakeupOne
  split
  · trivial
  · have hp : Lock.proc p ≠ l := (hne p).symm
    simp only [keeping, avoiding, acquire, sleepsOn, release, wp_bind, wp_issue]
    refine ⟨by simp, fun _ _ => ⟨by simp, fun b _ => ?_⟩⟩
    cases b with
    | false => exact ⟨by simpa using hp, fun _ _ => trivial⟩
    | true =>
        simp only [if_true, wake, callInsertProcess, write, insertLocked, acquire, release, wp_bind,
          wp_issue]
        refine ⟨by simp, fun _ _ => ⟨by simp, fun _ _ => ⟨by simp, fun _ _ => ⟨?_, fun _ _ =>
          ⟨by simpa using hp, fun _ _ => trivial⟩⟩⟩⟩⟩
        simpa using htree.symm

theorem lax_issue {i : Instr} {Q : Answer i → View → Prop} :
    (rules me).lax.wp (Prog.issue i : Code (Answer i)) Q v ↔
      ∀ r, instrCan me i v r → Q r (instrNext me i v r) :=
  ⟨fun h => h.2, fun h => ⟨trivial, h⟩⟩

/-- Afterwards the thread knows of every other process. -/
theorem lax_wakeup (hguard : v.Guarded) : (rules me).lax.wp (wakeup me chan) (fun _ u =>
    u.held = v.held ∧ ∀ p, some p ≠ me → (p, chan) ∈ u.lore.roused) v := by
  -- `ps` is what is left of the process table
  let Inv (ps : List Slot) (u : View) : Prop :=
    u.held = v.held ∧ ∀ p, some p ≠ me → p ∉ ps → (p, chan) ∈ u.lore.roused
  have hstep : ∀ p ps u, Inv (p :: ps) u →
      (rules me).lax.wp (wakeupOne me chan p) (fun _ => Inv ps) u := by
    rintro p ps u ⟨hheld, hall⟩
    have hguard' : (u.take (.proc p)).Guarded := by
      rw [View.guarded_take_proc, View.Guarded, hheld]
      exact hguard
    have hknown : ∀ w : View, w.held = u.held → w.lore = u.lore.rouse p chan → Inv ps w := by
      intro w hw hlore
      refine ⟨hw.trans hheld, fun q hq hqs => ?_⟩
      rw [hlore, Lore.rouse_roused]
      by_cases hqp : q = p
      · simp [hqp]
      · exact List.mem_cons_of_mem _ (hall q hq (by simp [hqp, hqs]))
    unfold wakeupOne
    split
    · rename_i hself
      refine ⟨hheld, fun q hq hqs => hall q hq ?_⟩
      rw [List.mem_cons, not_or]
      exact ⟨fun he => hq (he ▸ hself), hqs⟩
    · have hlook : ∀ b, instrNext me (.sleepsOn p chan) (u.take (.proc p)) b =
          { u.take (.proc p) with
            seen := if b = true then some (p, .sleeping) else (u.take (.proc p)).seen
            lore := (u.take (.proc p)).lore.rouse p chan } := fun b => by simp [instrNext, hguard']
      simp only [wp_bind]
      refine lax_issue.mpr fun _ _ => lax_issue.mpr fun b _ => ?_
      change (rules me).lax.wp _ _ (instrNext me (.sleepsOn p chan) (u.take (.proc p)) b)
      rw [hlook]
      cases b with
      | false =>
          refine lax_issue.mpr fun _ _ => hknown _ ?_ rfl
          simp [instrNext, View.take, View.drop]
      | true =>
          simp only [if_true, wake, callInsertProcess, wp_bind]
          refine lax_issue.mpr fun _ _ => lax_issue.mpr fun _ _ => lax_issue.mpr fun _ _ =>
            lax_issue.mpr fun _ _ => lax_issue.mpr fun _ _ => ?_
          refine hknown _ ?_ ?_ <;> simp [instrNext, View.take, View.drop, View.write]
  have hstart : Inv slots v := ⟨rfl, fun p _ hp => absurd (List.mem_finRange p) hp⟩
  have hrun := wp_forEach Inv hstep hstart
  exact wp_mono hrun fun _ u hu => ⟨hu.1, fun p hp => hu.2 p hp (by simp)⟩

/-- A thread that is about to call `wakeup` holds no lock of a process. -/
theorem rank_of_wakeup {f : Unit → Code Int}
    (hwp : (rules me).wp (wakeup me chan >>= f) (fun _ _ => True) v) :
    ∀ l ∈ v.held, l.rank < 2 := by
  suffices h : ∀ ps : List Slot, (∃ p ∈ ps, some p ≠ me) →
      (rules me).wp (Prog.forEach (wakeupOne me chan) ps >>= f) (fun _ _ => True) v →
      ∀ l ∈ v.held, l.rank < 2 by
    refine h slots ?_ hwp
    cases me with
    | none => exact ⟨0, List.mem_finRange _, by simp⟩
    | some p =>
        by_cases hp : p = 0
        · exact ⟨1, List.mem_finRange _, by simp [hp, NPROC]⟩
        · exact ⟨0, List.mem_finRange _, by simpa using Ne.symm hp⟩
  intro ps hps hwp
  induction ps with
  | nil => simp at hps
  | cons p ps ih =>
      by_cases hself : some p = me
      · refine ih ?_ ?_
        · obtain ⟨q, hq, hne⟩ := hps
          rcases List.mem_cons.mp hq with rfl | hq
          · exact absurd hself hne
          · exact ⟨q, hq, hne⟩
        · simpa [Prog.forEach, wakeupOne, hself] using hwp
      · simp only [Prog.forEach, wakeupOne, hself, if_false, wp_bind, wp_acquire] at hwp
        rcases hwp.1.1 with hord | ⟨-, hl, -⟩
        · exact hord
        · simp at hl

/-- Where a call has begun. -/
theorem During.begun (h : During P t x₀ next k₀ ℓ₀ k ℓ y x L) :
    RunWhere P k₀ ℓ₀ ∧ k₀.code t = x₀ >>= next := by
  induction h with
  | start hrun _ hcode => exact ⟨hrun, hcode⟩
  | act _ _ _ _ _ ih | call _ _ _ _ ih | interrupt _ _ _ _ ih | handle _ _ _ _ _ ih
  | handleCall _ _ _ _ ih | other _ _ _ _ _ ih => exact ih

/-- **When `wakeup` returns**, its thread knows of all other processes that they are awake. -/
theorem Returned.roused {chan : Option Chan}
    (h : Returned P t (wakeup t.me chan) k₀ ℓ₀ k ℓ L ()) (hl : k₀.Holds t l) (hrank : l.rank < 2) :
    ∃ V, Traced P false k ℓ V ∧ l ∈ (V t).held ∧ ∀ p, t ≠ .proc p → Rested k ℓ V l p chan := by
  obtain ⟨next, y, hd⟩ := h
  have hkeep : (keeping l).wp (wakeup t.me chan) (fun _ _ => True) () :=
    keeping_wakeup (Lock.ne_proc_of_rank hrank) fun he => by simp [he, Lock.rank] at hrank
  obtain ⟨-, hcode⟩ := hd.begun
  have hlax : ∀ V, Traced P false k₀ ℓ₀ V → (rules t.me).lax.wp (wakeup t.me chan) (fun _ u =>
      (∀ l ∈ u.held, l.rank < 2) ∧ ∀ p, some p ≠ t.me → (p, chan) ∈ u.lore.roused) (V t) := by
    intro V hV
    have hcore := core_traced spared_false hV
    obtain ⟨tr, σ, hb⟩ := hcore.base
    obtain ⟨c, rfl, hc⟩ := hl
    have hlow := rank_of_wakeup (hcode ▸ hcore.code (k₀.thread c))
    refine wp_mono (lax_wakeup ⟨l, (hb.locking.lock l c).mp hc, hrank⟩) fun _ u hu => ⟨?_, hu.2⟩
    rw [hu.1]
    exact hlow
  obtain ⟨-, -, V, hV, hheld, hlow, hall⟩ := hd.lax (Lock.ne_proc_of_rank hrank) hl hkeep hlax
  refine ⟨V, hV, hheld, fun p hp => ?_⟩
  have hne : some p ≠ t.me := by
    cases t with
    | cpu c => simp [Thread.me]
    | proc q =>
        rintro hq
        exact hp (congrArg Thread.proc (Option.some.inj hq).symm)
  rcases (rousing_traced spared_false hV t p chan (hall p hne)).2 with hvisit | hrest
  · exact absurd (hlow _ hvisit.1) (by simp [Lock.rank])
  · exact hrest l hheld hrank

/-! ## Code that neither sleeps nor ends -/

/-- By this a process goes to sleep, or ends. -/
def Instr.Stops (i : Instr) : Prop :=
  ∃ p, (∃ x, i = .write p (.sleep x)) ∨ ∃ status, i = .write p (.exit status)

/-- The procedures that interrupts call. -/
def Routine.Brief : Routine → Prop
  | .outside _ canSleep | .outsideHolding _ canSleep _ => canSleep = false
  | _ => False

/-- The rules for code that does not stop its process. -/
def lively : Rules Instr Answer Routine Unit := avoiding (fun i => ¬i.Stops) Routine.Brief

theorem lively_issue {i : Instr} {Q : Answer i → Unit → Prop} {u : Unit} (hi : ¬i.Stops)
    (hQ : ∀ r, Q r ()) : lively.wp (Prog.issue i : Code (Answer i)) Q u :=
  ⟨hi, fun r _ => hQ r⟩

theorem lively_wakeup {Q : Unit → Unit → Prop} {u : Unit} (hQ : Q () ()) :
    lively.wp (wakeup me chan) Q u := by
  refine wp_mono (wp_forEach (fun _ _ => True) (fun p ps _ _ => ?_) trivial) fun _ _ _ => hQ
  unfold wakeupOne
  split
  · trivial
  · simp only [wp_bind]
    refine lively_issue (by simp [Instr.Stops]) fun _ => lively_issue (by simp [Instr.Stops])
      fun b => ?_
    cases b with
    | false => exact lively_issue (by simp [Instr.Stops]) fun _ => trivial
    | true =>
        simp only [if_true, wake, callInsertProcess, wp_bind]
        refine lively_issue (by simp [Instr.Stops]) fun _ => lively_issue (by simp [Instr.Stops])
          fun _ => lively_issue (by simp [Instr.Stops]) fun _ =>
            lively_issue (by simp [Instr.Stops]) fun _ =>
              lively_issue (by simp [Instr.Stops]) fun _ => trivial

theorem lively_yieldCpu {Q : Unit → Unit → Prop} {u : Unit} (hQ : Q () ()) :
    lively.wp (yieldCpu p) Q u := by
  simp only [yieldCpu, callCheckPreemption, giveUp, callInsertProcess, sched, wp_bind]
  refine lively_issue (by simp [Instr.Stops]) fun _ => lively_issue (by simp [Instr.Stops])
    fun _ => lively_issue (by simp [Instr.Stops]) fun b => ?_
  cases b with
  | false => exact lively_issue (by simp [Instr.Stops]) fun _ => hQ
  | true =>
      simp only [if_true, wp_bind]
      refine lively_issue (by simp [Instr.Stops]) fun _ => lively_issue (by simp [Instr.Stops])
        fun _ => lively_issue (by simp [Instr.Stops]) fun _ =>
          lively_issue (by simp [Instr.Stops]) fun _ => lively_issue (by simp [Instr.Stops])
            fun _ => lively_issue (by simp [Instr.Stops]) fun _ =>
              lively_issue (by simp [Instr.Stops]) fun _ =>
                lively_issue (by simp [Instr.Stops]) fun _ => hQ

theorem lively_clockintr {Q : Unit → Unit → Prop} {u : Unit} (hQ : Q () ()) :
    lively.wp (clockintr me) Q u := by
  simp only [clockintr, wp_bind]
  refine lively_issue (by simp [Instr.Stops]) fun id => ?_
  split
  · simp only [wp_bind]
    exact lively_issue (by simp [Instr.Stops]) fun _ => lively_issue (by simp [Instr.Stops])
      fun _ => lively_wakeup (lively_issue (by simp [Instr.Stops]) fun _ => hQ)
  · exact hQ

/-- **An interrupt does not put the process to sleep.** -/
theorem lively_kerneltrap {i : Interrupt} {Q : Unit → Unit → Prop} {u : Unit} (hQ : Q () ()) :
    lively.wp (kerneltrap me i) Q u := by
  cases i with
  | device => exact ⟨rfl, fun _ => hQ⟩
  | timer =>
      simp only [kerneltrap, wp_bind]
      refine lively_clockintr ?_
      cases me with
      | none => exact hQ
      | some p => exact lively_yieldCpu hQ

theorem lively_outside {Q : Int → Unit → Prop} {u : Unit} (hQ : ∀ r, Q r ()) :
    lively.wp (invoke (.outside me false)) Q u := ⟨rfl, hQ⟩

theorem lively_outsideHolding {m : Nat} {Q : Int → Unit → Prop} {u : Unit} (hQ : ∀ r, Q r ()) :
    lively.wp (invoke (.outsideHolding me false m)) Q u := ⟨rfl, hQ⟩

theorem lively_sound : lively.Sound Routine.body := by
  intro f u hf
  cases f with
  | outside me canSleep =>
      obtain rfl : canSleep = false := hf
      simp only [Routine.body, wp_bind]
      refine lively_issue (by simp [Instr.Stops]) fun c => ?_
      cases c with
      | acquire m =>
          exact lively_issue (by simp [Instr.Stops]) fun _ => lively_outsideHolding fun _ => trivial
      | wakeup x =>
          simp only [outsideStep, wp_bind]
          exact lively_wakeup (lively_outside fun _ => trivial)
      | _ => trivial
  | outsideHolding me canSleep m =>
      obtain rfl : canSleep = false := hf
      simp only [Routine.body, wp_bind]
      refine lively_issue (by simp [Instr.Stops]) fun c => ?_
      cases c with
      | wakeup x =>
          simp only [outsideHoldingStep, wp_bind]
          exact lively_wakeup (lively_outsideHolding fun _ => trivial)
      | sleep x | killed => cases me <;> exact lively_outsideHolding fun _ => trivial
      | _ => exact lively_issue (by simp [Instr.Stops]) fun _ => lively_outside fun _ => trivial
  | _ => exact hf.elim

/-! ## A call of `sleep` -/

/-- How far a call of `sleep` has come: the locks it holds, then without `lk`, then asleep. -/
inductive Falling where
  | begun
  | locked
  | leaving
  | asleep
  deriving DecidableEq

/-- The rules for a call `sleep p chan lk`, and for what a process does once it has slept. -/
def falling (p : Slot) (chan : Chan) (lk : Lock) : Rules Instr Answer Routine Falling where
  pre i s :=
    match s with
    | .begun => i = .acquire (.proc p)
    | .locked => i = .release lk
    | .leaving => i = .write p (.sleep chan)
    | .asleep => ¬i.Stops
  can _ _ _ := True
  next _ s _ :=
    match s with
    | .begun => .locked
    | .locked => .leaving
    | _ => .asleep
  callPre _ _ := False
  callNext _ s := s

theorem falling_sleep {chan : Chan} :
    (falling p chan lk).wp (sleep p chan lk) (fun _ s => s = .asleep) .begun := by
  simp only [sleep, sched, acquire, release, write, getIntr, switchFrom, setIntr, wp_bind, wp_issue,
    falling, Instr.Stops]
  simp

/-- Where the thread of `p` and the account of `p` are at each stage. -/
def Falling.At (p : Slot) (chan : Chan) (lk : Lock) (k : Kernel n) (ℓ : Ledger n)
    (V : Thread n → View) (y : Code Unit) : Falling → Prop
  | .begun => y = pure () ∧ lk ∈ (V (.proc p)).held ∧ lk.rank < 2
  | .locked => y = pure () ∧ lk ∈ (V (.proc p)).held ∧ .proc p ∈ (V (.proc p)).held ∧
      (V (.proc p)).on = true ∧ lk.rank < 2
  | .leaving => y = pure () ∧ (V (.proc p)).leaving = some lk ∧ (V (.proc p)).on = true
  | .asleep => lively.wp y (fun _ _ => True) () ∧ (k.mem.proc p).state.Live ∧
      (ℓ.account p).slept = some (lk, chan)

/-- A process that lives goes on to, until it exits. -/
theorem live_execute {c : Fin n} {e : Env} {i : Instr} {r : Answer i} (hb : Base k V tr σ)
    (hpre : instrPre (k.running c) i (V (k.thread c))) (hex : execute k c e i = some (k', r))
    (h : (k.mem.proc p).state.Live) (hi : ∀ status, i ≠ .write p (.exit status)) :
    (k'.mem.proc p).state.Live := by
  rcases proc_execute hb hpre hex p with hsame | ⟨w, rfl, hw⟩ | ⟨-, hrun⟩
  · have hst : (k'.mem.proc p).state = (k.mem.proc p).state := congrArg (·.1.1) hsame
    rwa [hst]
  · rw [hw]
    cases w with
    | exit status => exact absurd rfl (hi status)
    | used =>
        have hst := hb.sits.seen c p _ hpre.1.2.2
        simp [ProcState.Live, hst] at h
    | free =>
        rcases hpre.2.2 with ⟨hs, -⟩ | ⟨-, g, -, hhead⟩
        · simp [ProcState.Live, hb.sits.seen c p _ hs] at h
        · simp [ProcState.Live, hb.used_of_head hhead] at h
    | fold | sleep | ready => simp [ProcState.Live, Write.apply]
    | _ => exact h
  · simp [ProcState.Live, hrun]

/-- **What the account says of its last sleep stays so** until the process sleeps again, or ends. -/
theorem slept_execute {c : Fin n} {e : Env} {i : Instr} {r : Answer i} (hb : Base k V tr σ)
    (hpre : instrPre (k.running c) i (V (k.thread c))) (hex : execute k c e i = some (k', r))
    (hi : k.thread c = .proc p → ¬i.Stops) (hlive : (k.mem.proc p).state.Live)
    (hslept : (ℓ.account p).slept = some (lk, x')) :
    (k'.mem.proc p).state.Live ∧ ((ℓ.record k k' c i r).account p).slept = some (lk, x') := by
  refine ⟨live_execute hb hpre hex hlive ?_, (Ledger.record_slept ?_ ?_).trans hslept⟩
  · rintro status rfl
    exact hi (Kernel.thread_eq_proc.mpr hpre.1.2.2.1) ⟨p, .inr ⟨status, rfl⟩⟩
  · rintro chan rfl
    exact hi (Kernel.thread_eq_proc.mpr hpre.2.2.1) ⟨p, .inl ⟨chan, rfl⟩⟩
  · rintro rfl
    simp [ProcState.Live, hb.used_of_head hpre.2] at hlive

theorem slept_step {mv : Move n} {V' : Thread n → View} (hcore : Core k V z)
    (hs : ViewStep k ℓ V mv k' ℓ' V')
    (hquiet : ∀ c e i g, mv = .exec c e → k.thread c = .proc p → k.code (.proc p) = .instr i g →
      ¬i.Stops)
    (hlive : (k.mem.proc p).state.Live) (hslept : (ℓ.account p).slept = some (lk, x')) :
    (k'.mem.proc p).state.Live ∧ (ℓ'.account p).slept = some (lk, x') := by
  obtain ⟨tr, σ, hb⟩ := hcore.base
  cases hs with
  | call => exact ⟨hlive, hslept⟩
  | interrupt =>
      refine ⟨hlive, ?_⟩
      rw [Ledger.recordInterrupt_account]
      split_ifs <;> exact hslept
  | @instr c e i g _ r hcode hex =>
      have h := slept_execute hb (hcore.pre hcode) hex
        (fun ht => hquiet c e i g rfl ht (ht ▸ hcode)) hlive hslept
      exact h

namespace Falling

variable {s : Falling}

/-- Before it has slept the process holds a lock, so it is on a CPU. -/
theorem At.thread (h : s.At p x' lk k ℓ V y) (hb : Base k V tr σ) (hs : s ≠ .asleep) :
    ∃ c, k.thread c = .proc p ∧ (V (.proc p)).held ≠ [] := by
  have hheld : lk ∈ (V (.proc p)).held ∧ lk.rank < 2 → ∃ c, k.thread c = .proc p ∧
      (V (.proc p)).held ≠ [] := fun ⟨hl, hrank⟩ => by
    obtain ⟨c, hc⟩ := hb.thread_of_held hl (Lock.ne_proc_of_rank hrank)
    exact ⟨c, hc, List.ne_nil_of_mem hl⟩
  cases s with
  | begun => exact hheld h.2
  | locked => exact hheld ⟨h.2.1, h.2.2.2.2⟩
  | leaving =>
      obtain ⟨q, c, hq, hc, hmem⟩ := hb.leaving_on h.2.1
      obtain rfl := Thread.proc.inj hq
      exact ⟨c, Kernel.thread_eq_proc.mpr hc, List.ne_nil_of_mem hmem⟩
  | asleep => exact absurd rfl hs

/-- A step of another thread. -/
theorem At.other {mv : Move n} {V' : Thread n → View} (h : s.At p x' lk k ℓ V y)
    (hcore : Core k V z) (hs : ViewStep k ℓ V mv k' ℓ' V') (hne : k.thread mv.cpu ≠ .proc p) :
    s.At p x' lk k' ℓ' V' y := by
  obtain ⟨tr, σ, hb⟩ := hcore.base
  have hsame : s ≠ .asleep → V' (.proc p) = V (.proc p) := fun hne' => by
    obtain ⟨c', hc', -⟩ := h.thread hb hne'
    rw [← hc']
    cases hs with
    | call | interrupt => rfl
    | instr hcode hex =>
        exact hb.viewNext_ne (hcore.pre hcode) fun he => hne (he ▸ hc')
  cases s with
  | begun | locked | leaving =>
      have hV := hsame (by simp)
      simp only [At, hV]
      exact h
  | asleep =>
      refine ⟨h.1, slept_step hcore hs ?_ h.2.1 h.2.2⟩
      rintro c e i g rfl ht
      exact absurd ht hne

end Falling

/-- The lock that `sleep` is called with comes before those of the processes. -/
theorem rank_of_sleep {x : Code Unit} {next : Unit → Code Int}
    (h : During P (.proc p) (sleep p x' lk) next k₀ ℓ₀ k ℓ y x L) (hl : k₀.Holds (.proc p) lk) :
    lk.rank < 2 := by
  obtain ⟨hrun, hcode⟩ := h.begun
  obtain ⟨V, hV⟩ := hrun.traced false
  have hcore := core_traced spared_false hV
  obtain ⟨tr, σ, hb⟩ := hcore.base
  obtain ⟨c, hc, hlock⟩ := hl
  have hpre := hcore.pre (hc ▸ hcode)
  rw [Kernel.thread_eq_proc.mp hc] at hpre
  rcases hpre.1 with hord | ⟨hnone, -⟩
  · exact hord lk ((hb.locking.lock lk c).mp hlock)
  · simp at hnone

theorem pre_of_code {lk : Lock} {chan : Chan} {s : Falling} {i i' : Instr}
    {g : Answer i → Code Int} {g' : Answer i' → Code Int} (hcode : k.code t = .instr i g)
    (hcode' : k.code t = .instr i' g') (h : (Xv6Cfs.falling p chan lk).pre i s) :
    (Xv6Cfs.falling p chan lk).pre i' s := by
  obtain ⟨rfl, -⟩ := Prog.instr.inj (hcode.symm.trans hcode')
  exact h

/-- `J` is kept by the steps of a run while a call of `sleep` goes on. -/
def Falling.Keeps (P : Kernel n → Ledger n → Move n → Prop) (p : Slot) (chan : Chan) (lk : Lock)
    (J : Falling → Kernel n → (Thread n → View) → Prop) : Prop :=
  ∀ (s s' : Falling) {k k' : Kernel n} {ℓ ℓ' : Ledger n} {V V' : Thread n → View} {mv : Move n}
    {y : Code Unit}, Traced P false k ℓ V → ViewStep k ℓ V mv k' ℓ' V' →
    s.At p chan lk k ℓ V y → (∀ c e i g, mv = .exec c e → k.thread c = .proc p →
      k.code (.proc p) = .instr i g → (Xv6Cfs.falling p chan lk).pre i s) →
    (s' = s ∨ ∃ i r, s' = (Xv6Cfs.falling p chan lk).next i s r) → J s k V → J s' k' V'

/-- **How far a call of `sleep` has come**, whatever the other threads do meanwhile. -/
theorem During.falling {x₀ x : Code Unit} {next : Unit → Code Int}
    {J : Falling → Kernel n → (Thread n → View) → Prop}
    (h : During P (.proc p) x₀ next k₀ ℓ₀ k ℓ y x L) (hx₀ : x₀ = sleep p x' lk)
    (hl : k₀.Holds (.proc p) lk) (hrank : lk.rank < 2) (hJ : Falling.Keeps P p x' lk J)
    (hJ₀ : ∀ V, Traced P false k₀ ℓ₀ V → J .begun k₀ V) :
    ∃ s V, Traced P false k ℓ V ∧ s.At p x' lk k ℓ V y ∧
      (Xv6Cfs.falling p x' lk).wp x (fun _ s => s = .asleep) s ∧ J s k V := by
  induction h with
  | start hrun ht hcode =>
      obtain ⟨V, hV⟩ := hrun.traced false
      obtain ⟨tr, σ, hb⟩ := (core_traced spared_false hV).base
      obtain ⟨c, hc, hlock⟩ := hl
      exact ⟨.begun, V, hV, ⟨rfl, hc ▸ (hb.locking.lock lk c).mp hlock, hrank⟩,
        hx₀ ▸ falling_sleep, hJ₀ V hV⟩
  | @act k k₁ k' ℓ ℓ' L c e i r g hd ht hP hs hex ih =>
      obtain ⟨s, V, hV, hat, hwp, hj⟩ := ih
      have hcore := core_traced spared_false hV
      obtain ⟨tr, σ, hb⟩ := hcore.base
      have hcode := hd.code
      rw [← ht] at hcode
      have hpre := hcore.pre hcode
      have hme := Kernel.thread_eq_proc.mp ht
      obtain ⟨rfl, rfl⟩ := code_step hcode hs hex
      have hj' := hJ s _ hV (.instr hcode hex) hat (fun _ _ _ _ _ _ hi =>
        pre_of_code (ht ▸ hcode) hi hwp.1) (.inr ⟨i, r, rfl⟩) hj
      refine ⟨_, _, hV.tail hP (.instr hcode hex), ?_, hwp.2 r trivial, hj'⟩
      have hself := hb.viewNext_self (r := r) hpre
      rw [ht, hme] at hself hpre
      cases s with
      | begun =>
          obtain rfl : i = .acquire (.proc p) := hwp.1
          obtain ⟨-, hheld, hrank⟩ := hat
          have hord : .proc p ∉ (V (.proc p)).held := hpre.1.not_mem
          have hon : (V (.proc p)).on = true := by
            by_contra hon
            obtain ⟨q, hq, hmem⟩ := (hb.sane (.proc p)).on (by simpa using hon)
            obtain rfl : p = q := Option.some.inj hq
            exact hord hmem
          refine ⟨rfl, ?_⟩
          rw [hself]
          simp [instrNext, View.take, hheld, hon, hrank]
      | locked =>
          obtain rfl : i = .release lk := hwp.1
          obtain ⟨-, hheld, hproc, hon, hrank⟩ := hat
          refine ⟨rfl, ?_⟩
          rw [hself]
          simp [instrNext, View.drop_of_rank hrank, View.Leaving, hon, hproc]
      | leaving =>
          obtain rfl : i = .write p (.sleep x') := hwp.1
          obtain ⟨-, hleave, hon⟩ := hat
          obtain ⟨hdropped, -⟩ := dropped_traced spared_false hV _ lk hleave hon
          simp only [execute, Option.some.injEq, Prod.mk.injEq] at hex
          obtain ⟨rfl, -⟩ := hex
          refine ⟨trivial, ?_, ?_⟩
          · simp [ProcState.Live, Write.apply]
          · rw [Ledger.record, Ledger.recordWrite_account, if_pos rfl, ht, hdropped]
            rfl
      | asleep =>
          obtain ⟨-, hlive, hslept⟩ := hat
          rw [← hme, ← ht] at hpre
          have h := slept_execute hb hpre hex (fun _ => hwp.1) hlive hslept
          exact ⟨trivial, h⟩
  | call hd _ _ _ ih =>
      obtain ⟨s, V, -, -, hwp, -⟩ := ih
      exact hwp.1.elim
  | @interrupt k k' ℓ ℓ' L y x c i hd ht hP hs ih =>
      obtain ⟨s, V, hV, hat, hwp, hj⟩ := ih
      have hcore := core_traced spared_false hV
      obtain ⟨tr, σ, hb⟩ := hcore.base
      simp only [step, Option.ite_none_right_eq_some, Option.some.injEq, Prod.mk.injEq] at hs
      obtain ⟨⟨hintr, hnoff⟩, rfl, rfl⟩ := hs
      have hstep : ViewStep k ℓ V (.interrupt c i) _ _ V := .interrupt hintr hnoff
      have hj' := hJ s s hV hstep hat (fun _ _ _ _ he => by simp at he) (.inl rfl) hj
      refine ⟨s, V, hV.tail hP hstep, ?_, hwp, hj'⟩
      by_cases hs : s = .asleep
      · subst hs
        refine ⟨?_, slept_step hcore hstep (fun _ _ _ _ he => by simp at he) hat.2.1 hat.2.2⟩
        simp only [wp_bind]
        exact lively_kerneltrap (lively_issue (by simp [Instr.Stops]) fun _ => hat.1)
      · obtain ⟨c', hc', hne⟩ := hat.thread hb hs
        exact absurd (ht ▸ (hcore.free hnoff).held) hne
  | @handle k k₁ k' ℓ ℓ' L x c e i r g hd ht hP hs hex ih =>
      obtain ⟨s, V, hV, hat, hwp, hj⟩ := ih
      have hcore := core_traced spared_false hV
      have hcode := hd.code
      rw [← ht] at hcode
      obtain ⟨rfl, rfl⟩ := code_step hcode hs hex
      cases s with
      | asleep =>
          obtain ⟨tr, σ, hb⟩ := hcore.base
          have h := slept_execute hb (hcore.pre hcode) hex (fun _ => hat.1.1) hat.2.1 hat.2.2
          have hj' := hJ .asleep .asleep hV (.instr hcode hex) hat (fun _ _ _ _ _ _ hi =>
            pre_of_code (ht ▸ hcode) hi hat.1.1) (.inl rfl) hj
          exact ⟨.asleep, _, hV.tail hP (.instr hcode hex), ⟨hat.1.2 r trivial, h⟩, hwp, hj'⟩
      | begun | locked | leaving => cases hat.1
  | @handleCall k k' ℓ ℓ' L x c e f g hd ht hP hs ih =>
      obtain ⟨s, V, hV, hat, hwp, hj⟩ := ih
      have hcode := hd.code
      rw [← ht] at hcode
      obtain ⟨rfl, rfl⟩ := code_call hcode hs
      cases s with
      | asleep =>
          have hstep : ViewStep k ℓ' V (.exec c e) _ ℓ' V := .call hcode
          have hj' := hJ .asleep .asleep hV hstep hat (fun c' e' i' g' _ _ hi => by
            rw [← ht] at hi
            simp [hcode] at hi) (.inl rfl) hj
          exact ⟨.asleep, V, hV.tail hP (.call hcode), ⟨lively_sound.unfold hat.1, hat.2⟩, hwp, hj'⟩
      | begun | locked | leaving => cases hat.1
  | @other k k' ℓ ℓ' L y x mv hd ht hP hs hsame ih =>
      obtain ⟨s, V, hV, hat, hwp, hj⟩ := ih
      obtain ⟨V', hstep⟩ := viewStep_of_step hs V
      have hj' := hJ s s hV hstep hat (fun c' e' i' g' hmv hc _ => by
        subst hmv
        exact absurd hc ht) (.inl rfl) hj
      exact ⟨s, V', hV.tail hP hstep, hat.other (core_traced spared_false hV) hstep ht, hwp, hj'⟩

/-! ## Both calls -/

/-- **No wakeup is lost.** -/
theorem noLostWakeup {chan : Chan} {k₁ : Kernel n} {ℓ₁ : Ledger n} {next' : Unit → Code Int}
    {y' x' : Code Unit} {L' : List (Act n)}
    (hwake : Returned P t (wakeup t.me (some chan)) k₀ ℓ₀ k ℓ L ()) (hl : k₀.Holds t lk)
    (hsleep : During P (.proc p) (sleep p chan lk) next' k₁ ℓ₁ k ℓ y' x' L')
    (hl' : k₁.Holds (.proc p) lk) (ht : t ≠ .proc p) :
    (k.mem.proc p).state ≠ .sleeping ∧ (ℓ.account p).slept = some (lk, chan) ∧
      (ℓ.account p).wakes = 1 ∧ (ℓ.account p).inserts = 1 := by
  have hrank := rank_of_sleep hsleep hl'
  obtain ⟨V, hV, hheld, hrest⟩ := hwake.roused hl hrank
  obtain ⟨hleave, hrest⟩ := hrest p ht
  have hnothing : Falling.Keeps P p chan lk fun _ _ _ => True := fun _ _ => by
    intros
    trivial
  obtain ⟨s, V', hV', hat, hwp, -⟩ := hsleep.falling rfl hl' hrank hnothing fun _ _ => trivial
  have hcore := core_traced spared_false hV
  obtain ⟨tr, σ, hb⟩ := hcore.base
  obtain ⟨tr', σ', hb'⟩ := (core_traced spared_false hV').base
  -- the sleeper has given the lock up
  have hnot : lk ∉ (V' (.proc p)).held := fun hmem => by
    obtain ⟨c', hc'⟩ := hb'.thread_of_held hmem (Lock.ne_proc_of_rank hrank)
    obtain ⟨c, rfl⟩ := hb.thread_of_held hheld (Lock.ne_proc_of_rank hrank)
    have h1 := (hb'.locking.lock lk c').mpr (hc' ▸ hmem)
    have h2 := (hb.locking.lock lk c).mpr hheld
    obtain rfl : c = c' := Option.some.inj (h2.symm.trans h1)
    exact ht hc'
  cases s with
  | begun => exact absurd hat.2.1 hnot
  | locked => exact absurd hat.2.1 hnot
  | leaving =>
      -- it would be about to sleep with it
      obtain ⟨c, hc, -⟩ := hat.thread hb' (by simp)
      obtain ⟨rfl, hleave', hon'⟩ := hat
      have hcode := hsleep.code
      cases x' with
      | ret a => simp at hwp
      | call f g => exact hwp.1.elim
      | instr i g =>
          obtain rfl : i = .write p (.sleep chan) := hwp.1
          obtain ⟨-, hon, -, l', hleaves, -⟩ := hcore.pre (hc ▸ hcode)
          rw [hc] at hleaves hon
          have h1 := (dropped_traced spared_false hV _ l' hleaves hon).1
          have h2 := (dropped_traced spared_false hV' _ lk hleave' hon').1
          obtain rfl : l' = lk := Option.some.inj (h1.symm.trans h2)
          exact absurd hleaves hleave
  | asleep =>
      obtain ⟨hst, hwaking⟩ := hrest chan rfl hat.2.2
      have hne : (ℓ.account p).slept ≠ none := by simp [hat.2.2]
      refine ⟨hst, hat.2.2, (sleepAccount_traced spared_false hV p).awake hst hne, ?_⟩
      rcases (woken_traced spared_false hV).inserts p hst hne with ⟨-, h⟩ | ⟨h, -⟩
      · exact absurd h hwaking
      · exact h

/-- On the CPUs `a` and `b` of three: `b` runs the first process, which makes a system call and
takes the lock 0. Then `a` takes an interrupt. -/
def bedMoves (a b : Fin 3) : List (Move 3 × Thread 3 × Option Slot) :=
  stretch 18 a (.cpu a) {} ++ stretch 3 b (.cpu b) {} ++ fetch b 0 ++ stretch 7 b (.cpu b) {} ++
  stretch 22 b (.proc 0) {} ++ stretch 6 b (.proc 0) { trap := .syscall .other } ++
  stretch 2 b (.proc 0) { choice := .acquire 0 } ++ [(.interrupt a .device, .cpu a, none)]

/-- The call of `sleep`, until `a` has the lock. -/
def fallMoves (a b : Fin 3) : List (Move 3 × Thread 3 × Option Slot) :=
  stretch 5 b (.proc 0) {} ++ stretch 3 b (.cpu b) {} ++
  stretch 3 a (.cpu a) { choice := .acquire 0 }

/-- What the process does after `sleep`. -/
def sleepNext (k : Kernel n) (p : Slot) (m : Nat) (_ : Unit) : Code Int := do
  let r ← invoke (.outsideHolding (some p) true m)
  k.rest (.proc p) r

/-- What the handler does after `wakeup`. -/
def wakeNext (k : Kernel n) (c : Fin n) (m : Nat) (_ : Unit) : Code Int := do
  let r ← invoke (.outsideHolding none false m)
  k.rest (.cpu c) r

/-- The first process begins to sleep on 5 with the lock 0. -/
def beginSleep (s : Kernel 3 × Ledger 3) : Followed 3 Unit :=
  ⟨s.1.chosen (.proc 0) (outsideHoldingStep (some 0) true 0) (.sleep 5), s.2,
    sleep 0 (.other 5) (.other 0)⟩

/-- The CPU `a` begins to wake who sleeps on 5. -/
def beginWake (a : Fin n) (s : Followed n Unit) : Kernel n :=
  s.k.chosen (.cpu a) (outsideHoldingStep none false 0) (.wakeup 5)

theorem bedMoves_spec : ((execAs (boot 3, Ledger.empty 3) (bedMoves 0 1)).any fun s =>
    (s.1.thread 1 = .proc 0 ∧ s.1.lock (.other 0) = some 1 ∧
      s.1.calls (.proc 0) (.outsideHolding (some 0) true 0)) &&
    ((fallMoves 0 1).foldlM (follow (.proc 0) (sleepNext s.1 0 0)) (beginSleep s)).any fun s' =>
      (s'.k.thread 0 = .cpu 0 ∧ s'.k.lock (.other 0) = some 0 ∧
        s'.k.calls (.cpu 0) (.outsideHolding none false 0)) &&
      ((stretch 196 0 (.cpu 0) {}).foldlM (follow (.proc 0) (sleepNext s.1 0 0))
        ⟨beginWake 0 s', s'.ℓ, s'.x⟩).isSome &&
      ((stretch 196 0 (.cpu 0) {}).foldlM (follow (.cpu 0) (wakeNext s'.k 0 0))
        ⟨beginWake 0 s', s'.ℓ, wakeup none (some (.other 5))⟩).any fun s =>
          match s.x with
          | .ret _ => true
          | _ => false) = true := by
  decide +kernel

/-- The first process sleeps with a lock, which the CPU 0 takes, to wake it. -/
theorem noLostWakeup_first : ∃ (k : Kernel 3) (ℓ : Ledger 3), (k.mem.proc 0).state ≠ .sleeping ∧
    (ℓ.account 0).slept = some (.other 0, .other 5) ∧
      (ℓ.account 0).wakes = 1 ∧ (ℓ.account 0).inserts = 1 := by
  obtain ⟨s, hs, hspec⟩ := (Option.any_eq_true _ _).mp bedMoves_spec
  obtain ⟨hbed, hspec⟩ := Bool.and_eq_true_iff.mp hspec
  obtain ⟨hb, hlock, hcall⟩ := of_decide_eq_true hbed
  obtain ⟨s', hs', hspec⟩ := (Option.any_eq_true _ _).mp hspec
  obtain ⟨hspec, hwake⟩ := Bool.and_eq_true_iff.mp hspec
  obtain ⟨hfall, hsleep⟩ := Bool.and_eq_true_iff.mp hspec
  obtain ⟨ha, hlock', hcall'⟩ := of_decide_eq_true hfall
  obtain ⟨s₁, hsleep⟩ := Option.isSome_iff_exists.mp hsleep
  obtain ⟨s₂, hwake, hret⟩ := (Option.any_eq_true _ _).mp hwake
  obtain ⟨h1, h2⟩ := Kernel.step_chosen (ℓ := s.2) hb hcall rfl (.sleep 5)
  -- the call of `sleep`, until `wakeup` is called
  have hrun : Run (beginSleep s).k s.2 := .tail (.tail (run_execAs .init hs) h1) h2
  have hd : During (fun _ _ _ => True) (.proc 0) (sleep 0 (.other 5) (.other 0))
      (sleepNext s.1 0 0) (beginSleep s).k s.2 (beginSleep s).k s.2 (pure ()) (beginSleep s).x
      [] := by
    refine .start (c := 1) hrun.runWhere hb ?_
    rw [beginSleep, Kernel.chosen, Kernel.setCode_code, Function.update_self]
    exact Prog.bind_assoc _ _ _
  obtain ⟨⟨L', hd'⟩, -⟩ := hd.followAll hs'
  have hd₂ := hd'.chosen ha (by simp) hcall' rfl (.wakeup 5)
  -- both calls, until `wakeup` returns
  obtain ⟨⟨L₁, hd₃⟩, hexec₁⟩ := During.followAll (s := ⟨beginWake 0 s', s'.ℓ, s'.x⟩) hd₂ hsleep
  have hw : During (fun _ _ _ => True) (.cpu 0) (wakeup none (some (.other 5)))
      (wakeNext s'.k 0 0) (beginWake 0 s') s'.ℓ (beginWake 0 s') s'.ℓ (pure ())
      (wakeup none (some (.other 5))) [] := by
    refine .start (c := 0) hd₂.run ha ?_
    rw [beginWake, Kernel.chosen, Kernel.setCode_code, Function.update_self]
    exact Prog.bind_assoc _ _ _
  obtain ⟨⟨L₂, hw₂⟩, hexec₂⟩ := During.followAll
    (s := ⟨beginWake 0 s', s'.ℓ, wakeup none (some (.other 5))⟩) hw hwake
  obtain ⟨hk, hℓ⟩ := Prod.mk.inj (Option.some.inj (hexec₁.symm.trans hexec₂))
  have hx : s₂.x = pure () := by
    cases hx : s₂.x <;> simp_all
  rw [hx, ← hk, ← hℓ] at hw₂
  exact ⟨s₁.k, s₁.ℓ, noLostWakeup ⟨_, _, hw₂⟩ ⟨0, ha, hlock'⟩ hd₃ ⟨1, hb, hlock⟩ (by simp)⟩

end Xv6Cfs
