import Xv6Cfs.Proof.Progress
import Xv6Cfs.Proof.Reaping

/-!
# The end of a killed process

`usertrap` looks at `p->killed` after every trap, and first of all in a system call. A
process that is killed in user mode notices it at its next trap, and does not come back: it
exits, and nobody switches to it again.
-/

namespace Xv6Cfs

open Threads Rules RedBlack

variable {n : Nat} {k k' : Kernel n} {ℓ ℓ' : Ledger n} {V : Thread n → View} {c : Fin n}
  {tr : ColorTree Slot} {σ : Slot → Sit n} {p q : Slot} {e : Env} {i : Instr} {r : Answer i}
  {α : Type}

/-! ## The rules -/

/-- The rules for the thread of the process `p` that is killed: it does not go back to user
mode. -/
def doomed (p : Slot) : Rules Instr Answer Routine Life where
  pre i s :=
    match s with
    | .starting => False
    | .alive => i ≠ .user
    | .exited => i ≠ .user ∧ i ≠ .panic ∧ ∀ q w, i ≠ .write q w
    | .done => True
  can i s r :=
    match i, r with
    | .shared, r => s = .alive → (r.mem.proc p).killed = true
    | _, _ => True
  next i s r := (lives (some p) p).next i s r
  callPre f s :=
    match s with
    | .starting | .exited => False
    | .alive => f.Mine (some p) ∧ f.Endless = false
    | .done => True
  callNext _ s := s

theorem doomed_done {x : Code α} {Q : α → Life → Prop} (hQ : ∀ a, Q a .done) :
    (doomed p).wp x Q .done := by
  induction x with
  | ret a => exact hQ a
  | instr i next ih => exact ⟨trivial, fun r _ => ih r⟩
  | call f next ih => exact ⟨trivial, fun r => ih r⟩

/-- Plain code leads a killed process nowhere else. -/
theorem doomed_of_plain {x : Code α} {Q : α → Life → Prop}
    (h : (plain (some p) true).wp x (fun a _ => Q a .alive) ()) : (doomed p).wp x Q .alive := by
  induction x with
  | ret a => exact h
  | instr i next ih =>
      obtain ⟨⟨-, huser⟩, hexit, -⟩ := h.1
      have hnext : ∀ r, (doomed p).next i .alive r = .alive := fun r => by
        cases i with
        | write p w => cases w <;> first | rfl | exact absurd rfl (hexit _ _)
        | _ => rfl
      refine ⟨huser, fun r _ => ?_⟩
      rw [hnext]
      exact ih r (h.2 r trivial)
  | call f next ih => exact ⟨h.1, fun r => ih r (h.2 r)⟩

/-! ## The trap -/

section

variable {β : Type} {Q : β → Life → Prop}

theorem doomed_exit {st : Int} : (doomed p).wp (exit p st) Q .alive := by
  simp only [exit, wp_bind]
  refine (wp_issue _).mpr ⟨by simp [doomed], fun x _ => ?_⟩
  have hpanic : (doomed p).wp (panic : Code β) Q .alive :=
    ⟨by simp [doomed], fun e => Empty.elim e⟩
  split
  · exact hpanic
  · simp only [wp_bind]
    refine doomed_of_plain (plain_outside ?_)
    refine doomed_of_plain (plain_acquire ?_)
    refine doomed_of_plain (plain_reparent ?_)
    refine doomed_of_plain (plain_issue (by simp [Instr.Plain]) fun q => ?_)
    refine doomed_of_plain (plain_wakeup ?_)
    refine doomed_of_plain (plain_acquire ?_)
    refine ⟨by simp [doomed], fun _ _ => ⟨by simp [doomed, lives], fun _ _ => ?_⟩⟩
    simp only [sched, wp_bind]
    refine ⟨by simp [doomed, lives], fun _ _ => ⟨by simp [doomed, lives], fun _ _ => ?_⟩⟩
    exact doomed_done fun _ => doomed_done fun _ => ⟨trivial, fun e => Empty.elim e⟩

/-- **Who looks at `p->killed` exits.** -/
theorem doomed_exitIfKilled {Q : Unit → Life → Prop} :
    (doomed p).wp (exitIfKilled p) Q .alive := by
  simp only [exitIfKilled, killed, slot, wp_bind]
  refine doomed_of_plain (plain_acquire ?_)
  refine (wp_issue _).mpr ⟨by simp [doomed], fun x hx => ?_⟩
  have hkilled : (x.mem.proc p).killed = true := hx rfl
  simp only [wp_pure]
  refine doomed_of_plain (plain_release ?_)
  simp only [hkilled, if_true]
  exact doomed_exit

theorem doomed_usertrap {x : Trap} {Q : Unit → Life → Prop} :
    (doomed p).wp (usertrap p x) Q .alive := by
  simp only [usertrap, wp_bind]
  cases x with
  | syscall x =>
      simp only [handleTrap, wp_bind]
      exact doomed_exitIfKilled
  | device => exact doomed_of_plain (plain_outside doomed_exitIfKilled)
  | timer => exact doomed_of_plain (plain_clockintr doomed_exitIfKilled)
  | fault => exact doomed_of_plain (plain_setkilled doomed_exitIfKilled)

end

theorem doomed_sound : (doomed p).Sound Routine.body := by
  intro f s hf
  cases s with
  | done => exact doomed_done fun _ => rfl
  | starting | exited => exact hf.elim
  | alive => exact doomed_of_plain (plain_body hf.1 hf.2 fun _ => rfl)

/-! ## The rest of its life -/

/-- A process that has begun stays so until it is freed. -/
theorem born_execute (hb : Base k V tr σ) (hpre : instrPre (k.running c) i (V (k.thread c)))
    (hex : execute k c e i = some (k', r)) (hi : i ≠ .write p .free)
    (hborn : (k.mem.proc p).state.Born) : (k'.mem.proc p).state.Born := by
  rcases proc_execute hb hpre hex p with hsame | ⟨w, rfl, happly⟩ | ⟨-, hrun⟩
  · have hst : (k'.mem.proc p).state = (k.mem.proc p).state := congrArg (·.1.1) hsame
    exact hst ▸ hborn
  · rw [happly]
    cases w with
    | free => exact absurd rfl hi
    | used => exact absurd (hb.sits.seen c p _ hpre.1.2.2) hborn.1
    | fold | sleep | exit | ready => simp [ProcState.Born, Write.apply]
    | _ => exact hborn
  · rw [hrun]
    simp [ProcState.Born]

/-- It stays killed, too. -/
theorem killed_execute (hb : Base k V tr σ) (hpre : instrPre (k.running c) i (V (k.thread c)))
    (hex : execute k c e i = some (k', r)) (hi : i ≠ .write p .free)
    (hborn : (k.mem.proc p).state.Born) (hkilled : (k.mem.proc p).killed = true) :
    (k'.mem.proc p).state.Born ∧ (k'.mem.proc p).killed = true := by
  refine ⟨born_execute hb hpre hex hi hborn, ?_⟩
  rcases proc_execute hb hpre hex p with hsame | ⟨w, rfl, happly⟩ | ⟨-, hrun⟩
  · have hkill : (k'.mem.proc p).killed = (k.mem.proc p).killed := congrArg (·.1.2.2.1) hsame
    exact hkill.trans hkilled
  · rw [happly]
    cases w with
    | free => exact absurd rfl hi
    | kill => rfl
    | _ => exact hkilled
  · rw [hrun]
    exact hkilled

/-- The process `p` is killed, has trapped since, and has not been freed. -/
structure Doomed (k : Kernel n) (V : Thread n → View) (p : Slot) : Prop where
  born : (k.mem.proc p).state.Born
  killed : (k.mem.proc p).killed = true
  code : ∃ s : Life, s ≠ .starting ∧ (doomed p).wp (k.code (.proc p)) (fun _ _ => True) s ∧
    s.At k V (.proc p)

namespace Doomed

/-- It is not in user mode. -/
theorem not_returns (h : Doomed k V p) : ¬k.Returns c p := by
  rintro ⟨⟨next, hcode⟩, hme⟩
  have ht := Kernel.thread_eq_proc.mpr hme
  obtain ⟨s, hstart, hwp, hat⟩ := h.code
  rw [← ht, hcode] at hwp
  cases s with
  | starting => exact hstart rfl
  | alive => exact hwp.1 rfl
  | exited => exact hwp.1.1 rfl
  | done => exact absurd rfl (ht ▸ hat : Life.At k V (k.thread c) .done).ne_done

theorem setCode (h : Doomed k V p) {x : Code Int}
    (hx : k.thread c = .proc p → ∀ s : Life, s ≠ .starting → s.At k V (.proc p) →
      (doomed p).wp (k.code (.proc p)) (fun _ _ => True) s →
      (doomed p).wp x (fun _ _ => True) s)
    (hmem : k'.mem = k.mem) (hrunning : k'.running = k.running)
    (hcode : k'.code = Function.update k.code (k.thread c) x) : Doomed k' V p := by
  obtain ⟨s, hstart, hwp, hat⟩ := h.code
  refine ⟨hmem ▸ h.born, hmem ▸ h.killed, s, hstart, ?_, hat.congr hmem hrunning⟩
  rw [hcode]
  by_cases ht : k.thread c = .proc p
  · rw [ht, Function.update_self]
    exact hx ht s hstart hat hwp
  · rwa [Function.update_of_ne (Ne.symm ht)]

/-- The thread of `p` goes on. -/
theorem own (h : Doomed k V p) (hcore : Core k V false) (hb : Base k V tr σ)
    {next : Answer i → Code Int} (ht : k.thread c = .proc p)
    (hcode : k.code (k.thread c) = .instr i next) (hex : execute k c e i = some (k', r)) :
    ∃ s : Life, s ≠ .starting ∧ (doomed p).wp (next r) (fun _ _ => True) s ∧
      s.At k' (viewNext k V c i r) (.proc p) := by
  have hpre := hcore.pre hcode
  obtain ⟨s, hstart, hwp, hat⟩ := h.code
  rw [← ht, hcode] at hwp
  rw [← ht] at hat ⊢
  have hlives : (lives (some p) p).pre i s := by
    cases s with
    | exited => exact hwp.1.2
    | alive => exact fun _ => rfl
    | _ => trivial
  have hcan : (doomed p).can i s r := by
    cases i with
    | shared =>
        simp only [execute, Option.some.injEq, Prod.mk.injEq] at hex
        obtain ⟨-, rfl⟩ := hex
        exact fun _ => h.killed
    | _ => trivial
  exact ⟨(lives (some p) p).next i s r, lives_next_ne_starting hstart r, hwp.2 r hcan,
    hat.next hb hpre hex hlives⟩

/-- **Until it is freed it does not get out of this.** -/
theorem step (h : Doomed k V p) (hcore : Core k V false) {mv : Move n} {V' : Thread n → View}
    (hmv : ¬Frees k p mv) (hs : ViewStep k ℓ V mv k' ℓ' V') : Doomed k' V' p := by
  obtain ⟨tr, σ, hb⟩ := hcore.base
  cases hs with
  | call hcode =>
      refine h.setCode (fun ht s _ _ hwp => ?_) rfl rfl rfl
      rw [← ht, hcode] at hwp
      exact doomed_sound.unfold hwp
  | @interrupt c i hintr hnoff =>
      refine h.setCode (fun ht s hstart hat hwp => ?_) rfl rfl rfl
      -- A thread that holds no lock has not exited.
      have hon := (hcore.free hnoff).on
      rw [ht] at hon
      cases s with
      | starting => exact absurd rfl hstart
      | alive =>
          rw [ht, wp_bind]
          exact doomed_of_plain (plain_kerneltrap ⟨by simp [doomed], fun _ _ => hwp⟩)
      | exited => simp [hat.1] at hon
      | done => exact absurd rfl (ht ▸ hat : Life.At k V (k.thread c) .done).ne_done
  | @instr c e i next k₁ r hcode hex =>
      have hpre := hcore.pre hcode
      have hfree : i ≠ .write p .free := by
        rintro rfl
        exact hmv ⟨next, hcode⟩
      obtain ⟨hborn, hkilled⟩ := killed_execute hb hpre hex hfree h.born h.killed
      by_cases ht : k.thread c = .proc p
      · obtain ⟨s, hstart, hwp, hat⟩ := h.own hcore hb ht hcode hex
        refine ⟨hborn, hkilled, s, hstart, ?_, hat.congr rfl rfl⟩
        rwa [Kernel.setCode_code, ht, Function.update_self]
      · -- Nobody sets up a thread in a slot that is in use.
        have hinit : ∀ q, i = .init q → (.proc p : Thread n) ≠ .proc q := by
          rintro q rfl heq
          obtain rfl : p = q := Thread.proc.inj heq
          exact h.born.2 (hb.used_of_head hpre.2)
        obtain ⟨s, hstart, hwp, hat⟩ := h.code
        refine ⟨hborn, hkilled, s, hstart, ?_,
          (hat.other (Ne.symm ht) hb hpre hex hinit).congr rfl rfl⟩
        rw [Kernel.setCode_code, Function.update_of_ne (Ne.symm ht)]
        have hsame : k₁.code (.proc p) = k.code (.proc p) := by
          cases i with
          | init q =>
              simp only [execute, Option.some.injEq, Prod.mk.injEq] at hex
              obtain ⟨rfl, -⟩ := hex
              rw [Kernel.setCode_code, Function.update_of_ne (hinit q rfl)]
              rfl
          | _ => rw [execute_code hex (by simp)]
        rwa [hsame]

end Doomed

/-! ## How it comes to this -/

/-- The rules for code of the process `p` that is not in user mode. -/
def inKernel (p : Slot) : Rules Instr Answer Routine Unit :=
  avoiding (· ≠ .user) fun f => f.Mine (some p)

theorem inKernel_of_plain {x : Code α} {Q : α → Unit → Prop} {u : Unit}
    (h : (plain (some p) true).wp x Q u) : (inKernel p).wp x Q u := by
  induction x with
  | ret a => exact h
  | instr i next ih => exact ⟨h.1.1.2, fun r _ => ih r (h.2 r trivial)⟩
  | call f next ih => exact ⟨h.1.1, fun r => ih r (h.2 r)⟩

theorem inKernel_exit {β : Type} {st : Int} {Q : β → Unit → Prop} {u : Unit} :
    (inKernel p).wp (exit p st) Q u := by
  have hpanic : ∀ u, (inKernel p).wp (panic : Code β) Q u := fun u =>
    ⟨by simp [inKernel, avoiding], fun e => Empty.elim e⟩
  simp only [exit, wp_bind]
  refine (wp_issue _).mpr ⟨by simp [inKernel, avoiding], fun x _ => ?_⟩
  split
  · exact hpanic _
  · simp only [wp_bind]
    refine inKernel_of_plain (plain_outside ?_)
    refine inKernel_of_plain (plain_acquire ?_)
    refine inKernel_of_plain (plain_reparent ?_)
    refine inKernel_of_plain (plain_issue (by simp [Instr.Plain]) fun q => ?_)
    refine inKernel_of_plain (plain_wakeup ?_)
    refine inKernel_of_plain (plain_acquire ?_)
    refine (wp_issue _).mpr ⟨by simp [inKernel, avoiding], fun _ _ => ?_⟩
    refine inKernel_of_plain (plain_release ?_)
    exact inKernel_of_plain (plain_sched (hpanic _))

section

variable {Q : Unit → Unit → Prop} {u : Unit}

theorem inKernel_exitIfKilled (hQ : Q () ()) : (inKernel p).wp (exitIfKilled p) Q u := by
  simp only [exitIfKilled, wp_bind]
  refine inKernel_of_plain (plain_killed fun b => ?_)
  split
  · exact inKernel_exit
  · exact hQ

theorem inKernel_syscall {x : Syscall} {Q : Int → Unit → Prop} (hQ : ∀ r, Q r ()) :
    (inKernel p).wp (syscall p x) Q u := by
  by_cases hx : ∃ st, x = .exit st
  · obtain ⟨st, rfl⟩ := hx
    exact inKernel_exit
  · push Not at hx
    exact inKernel_of_plain (plain_syscall hx hQ)

theorem inKernel_usertrap {x : Trap} (hQ : Q () ()) : (inKernel p).wp (usertrap p x) Q u := by
  have hset : (inKernel p).wp (setIntr false) Q () := ⟨by simp [inKernel, avoiding], fun _ _ => hQ⟩
  have hlast : (inKernel p).wp (if x = .timer then yieldCpu p else pure ())
      (fun _ u => (inKernel p).wp (setIntr false) Q u) () := by
    split
    · exact inKernel_of_plain (plain_yieldCpu hset)
    · exact hset
  have hrest : (inKernel p).wp (exitIfKilled p) (fun _ u => (inKernel p).wp (chargeAndYield p)
      (fun _ u => (inKernel p).wp (if x = .timer then yieldCpu p else pure ())
        (fun _ u => (inKernel p).wp (setIntr false) Q u) u) u) () := by
    exact inKernel_exitIfKilled (inKernel_of_plain (plain_chargeAndYield hlast))
  simp only [usertrap, wp_bind]
  cases x with
  | syscall x =>
      simp only [handleTrap, wp_bind]
      refine inKernel_exitIfKilled ⟨by simp [inKernel, avoiding], fun _ _ => ?_⟩
      exact inKernel_syscall fun _ => hrest
  | device => exact inKernel_of_plain (plain_outside hrest)
  | timer => exact inKernel_of_plain (plain_clockintr hrest)
  | fault => exact inKernel_of_plain (plain_setkilled hrest)

end

/-- Whenever the thread of `p` comes back from user mode, what it does then keeps to the rules
for a killed process. -/
def Wary (p : Slot) : Code Int → Prop
  | .ret _ => True
  | .instr .user next => ∀ x, (doomed p).wp (next x) (fun _ _ => True) .alive ∧ Wary p (next x)
  | .instr _ next => ∀ r, Wary p (next r)
  | .call f next => f.Mine (some p) ∧ ∀ r, Wary p (next r)

theorem Wary.next {next : Answer i → Code Int} (h : Wary p (.instr i next)) (r : Answer i) :
    Wary p (next r) := by
  cases i with
  | user => exact (h r).2
  | _ => exact h r

theorem wary_bind {x : Code α} {f : α → Code Int} {u : Unit}
    (h : (inKernel p).wp x (fun a _ => Wary p (f a)) u) : Wary p (x >>= f) := by
  induction x with
  | ret a => exact h
  | instr i next ih =>
      have hnext : ∀ r, Wary p (next r >>= f) := fun r => ih r (h.2 r trivial)
      cases i with
      | user => exact absurd rfl h.1
      | _ => exact hnext
  | call g next ih => exact ⟨h.1, fun r => ih r (h.2 r)⟩

/-- **The procedures are so.** -/
theorem wary_body {f : Routine} {next : Int → Code Int} (hf : f.Mine (some p))
    (h : ∀ r, Wary p (next r)) : Wary p (f.body >>= next) := by
  cases f with
  | user q =>
      obtain rfl : p = q := Option.some.inj hf
      intro x
      have hrest : Wary p ((invoke (.user p) : Code Int) >>= next) := ⟨rfl, h⟩
      have hcode : ((usertrap p x >>= fun _ => invoke (.user p)) >>= next) =
          usertrap p x >>= fun _ => (invoke (.user p) : Code Int) >>= next :=
        Prog.bind_assoc _ _ _
      change (doomed p).wp ((usertrap p x >>= fun _ => invoke (.user p)) >>= next) _ _ ∧
        Wary p ((usertrap p x >>= fun _ => invoke (.user p)) >>= next)
      rw [hcode, wp_bind]
      exact ⟨doomed_usertrap, wary_bind (u := ()) (inKernel_usertrap hrest)⟩
  | scheduler | serving q b => cases hf
  | wait q b | sysSleep q m t | outside q b | outsideHolding q b m =>
      exact wary_bind (inKernel_of_plain (u := ()) (plain_body hf rfl h))

theorem wary_forkret : Wary p (forkret p) := by
  have hrest : Wary p (setIntr false >>= fun _ => invoke (.user p)) :=
    fun _ => ⟨rfl, fun _ => trivial⟩
  have hcode : forkret p = release (.proc p) >>= fun _ => fsinit p >>= fun _ =>
      setIntr false >>= fun _ => invoke (.user p) := rfl
  rw [hcode]
  refine wary_bind (inKernel_of_plain (u := ()) (plain_release ?_))
  refine wary_bind (inKernel_of_plain (u := ()) ?_)
  simp only [fsinit, wp_bind]
  refine plain_issue (by simp [Instr.Plain]) fun x => ?_
  split
  · simp only [wp_bind]
    exact plain_outside (plain_issue (by simp [Instr.Plain]) fun _ => hrest)
  · exact hrest

/-- **The thread of a process is so in every reachable state.** -/
theorem wary_run (h : Run k ℓ) (p : Slot) : Wary p (k.code (.proc p)) := by
  induction h with
  | init => exact wary_forkret
  | @tail k k' ℓ ℓ' mv _ hs ih =>
      obtain ⟨V', hstep⟩ := viewStep_of_step hs fun _ => .resumed p p false
      cases hstep with
      | @call c e f next hcode =>
          rw [Kernel.setCode_code]
          by_cases ht : .proc p = k.thread c
          · rw [ht, hcode] at ih
            rw [ht, Function.update_self]
            exact wary_body ih.1 ih.2
          · rwa [Function.update_of_ne ht]
      | @interrupt c i hintr hnoff =>
          simp only [interrupt, Kernel.setCode_code]
          by_cases ht : .proc p = k.thread c
          · rw [ht, Function.update_self, ← ht]
            refine wary_bind (inKernel_of_plain (u := ()) (plain_kerneltrap ?_))
            exact fun _ => ih
          · rwa [Function.update_of_ne ht]
      | @instr c e i next k₁ r hcode hex =>
          rw [Kernel.setCode_code]
          by_cases ht : .proc p = k.thread c
          · rw [ht, hcode] at ih
            rw [ht, Function.update_self]
            exact ih.next r
          · rw [Function.update_of_ne ht]
            cases i with
            | init q =>
                simp only [execute, Option.some.injEq, Prod.mk.injEq] at hex
                obtain ⟨rfl, -⟩ := hex
                rw [Kernel.setCode_code]
                by_cases hq : (.proc p : Thread n) = .proc q
                · obtain rfl : p = q := Thread.proc.inj hq
                  rw [Function.update_self]
                  exact wary_forkret
                · rwa [Function.update_of_ne hq]
            | _ => rwa [execute_code hex (by simp)]

/-! ## It does not come back -/

theorem killed_step (h : Run k ℓ) {mv : Move n} (hmv : ¬Frees k p mv)
    (hs : Xv6Cfs.step k ℓ mv = some (k', ℓ')) (hborn : (k.mem.proc p).state.Born)
    (hkilled : (k.mem.proc p).killed = true) :
    (k'.mem.proc p).state.Born ∧ (k'.mem.proc p).killed = true := by
  obtain ⟨V, hV⟩ := h.traced false
  have hcore := core_traced spared_false hV
  obtain ⟨tr, σ, hb⟩ := hcore.base
  obtain ⟨V', hstep⟩ := viewStep_of_step hs V
  cases hstep with
  | call hcode | interrupt hi hoff => exact ⟨hborn, hkilled⟩
  | @instr c e i next k₁ r hcode hex =>
      have hfree : i ≠ .write p .free := by
        rintro rfl
        exact hmv ⟨next, hcode⟩
      have hnext := killed_execute hb (hcore.pre hcode) hex hfree hborn hkilled
      exact hnext

theorem killed_steps (h : Run k ℓ) (hborn : (k.mem.proc p).state.Born)
    (hkilled : (k.mem.proc p).killed = true) (hs : Steps (fun k _ mv => ¬Frees k p mv) k ℓ k' ℓ') :
    (k'.mem.proc p).state.Born ∧ (k'.mem.proc p).killed = true := by
  induction hs with
  | refl => exact ⟨hborn, hkilled⟩
  | tail hbefore hmv hstep ih => exact killed_step (hbefore.run h) hmv hstep ih.1 ih.2

/-- A process that is killed when it traps. -/
theorem doomed_of_trap {V : Thread n → View} (h : Run k ℓ) (hb : Base k V tr σ)
    (hu : k.Returns c p) (hkilled : (k.mem.proc p).killed = true) {V' : Thread n → View}
    (hs : ViewStep k ℓ V (.exec c e) k' ℓ' V') : Doomed k' V' p := by
  obtain ⟨⟨next, hcode⟩, hme⟩ := hu
  have ht := Kernel.thread_eq_proc.mpr hme
  have hwary := wary_run h p
  rw [← ht, hcode] at hwary
  cases hs with
  | call hcode' =>
      rw [hcode] at hcode'
      cases hcode'
  | @instr c e i next' k₁ r hcode' hex =>
      rw [hcode] at hcode'
      cases hcode'
      simp only [execute, Option.some.injEq, Prod.mk.injEq] at hex
      obtain ⟨rfl, -⟩ := hex
      refine ⟨hb.sits.born_of_running hme, hkilled, .alive, by simp, ?_, trivial⟩
      rw [Kernel.setCode_code, ht, Function.update_self]
      exact (hwary r).1

/--
**A killed process traps once more at most.** For any number of CPUs: from the moment a
process has been killed until its slot is freed, once it has come back from user mode it
does not return there, on any CPU, whatever the trap was.
-/
theorem killed_never_returns {k₀ k k₁ k₂ : Kernel n} {ℓ₀ ℓ ℓ₁ ℓ₂ : Ledger n} {p : Slot}
    {c c' : Fin n} {e : Env} (h : Run k₀ ℓ₀) (hborn : (k₀.mem.proc p).state ∉ [.unused, .used])
    (hkilled : (k₀.mem.proc p).killed = true)
    (hbefore : Steps (fun k _ mv => ¬Frees k p mv) k₀ ℓ₀ k ℓ) (hu : k.Returns c p)
    (hs : step k ℓ (.exec c e) = some (k₁, ℓ₁))
    (hafter : Steps (fun k _ mv => ¬Frees k p mv) k₁ ℓ₁ k₂ ℓ₂) : ¬k₂.Returns c' p := by
  have hrun := hbefore.run h
  obtain ⟨-, hstill⟩ := killed_steps h (by simpa [ProcState.Born] using hborn) hkilled hbefore
  obtain ⟨V, hV⟩ := hrun.traced false
  obtain ⟨tr, σ, hb⟩ := (core_traced spared_false hV).base
  obtain ⟨V₁, hstep⟩ := viewStep_of_step hs V
  have hdoomed : ∃ V, Traced (fun _ _ _ => True) false k₂ ℓ₂ V ∧ Doomed k₂ V p := by
    induction hafter with
    | refl => exact ⟨V₁, hV.tail trivial hstep, doomed_of_trap hrun hb hu hstill hstep⟩
    | tail _ hmv hstep ih =>
        obtain ⟨V, hV, hd⟩ := ih
        obtain ⟨V', hstep⟩ := viewStep_of_step hstep V
        exact ⟨V', hV.tail trivial hstep, hd.step (core_traced spared_false hV) hmv hstep⟩
  obtain ⟨V₂, -, hd⟩ := hdoomed
  exact hd.not_returns

/-- On the CPUs `a`, `b` and `c`: the first process forks on `b`, its child is in user mode on `c`,
and is killed by its parent. -/
def murderMoves (a b c : Fin 3) : List (Move 3 × Thread 3 × Option Slot) :=
  stretch 18 a (.cpu a) {} ++ stretch 3 b (.cpu b) {} ++ fetch b 0 ++ stretch 7 b (.cpu b) {} ++
  stretch 7 b (.proc 0) {} ++ stretch 42 b (.proc 0) { trap := .syscall .fork } ++
  stretch 3 c (.cpu c) {} ++ fetch c 1 ++ stretch 7 c (.cpu c) {} ++ stretch 4 c (.proc 1) {} ++
  stretch 11 b (.proc 0) { trap := .syscall (.kill 2) }

theorem murderMoves_spec : (execAs (boot 3, Ledger.empty 3) (murderMoves 0 1 2)).any (fun s =>
    s.1.Returns 2 1 ∧ (s.1.mem.proc 1).state ∉ [.unused, .used] ∧
      (s.1.mem.proc 1).killed = true ∧ (step s.1 s.2 (.exec 2 {})).isSome) := by
  decide +kernel

theorem killed_never_returns_first : ∃ k ℓ k₁ ℓ₁, k.Returns (2 : Fin 3) 1 ∧
    (k.mem.proc 1).killed = true ∧ step k ℓ (.exec 2 {}) = some (k₁, ℓ₁) ∧ ¬k₁.Returns 2 1 := by
  obtain ⟨s, hs, hspec⟩ := (Option.any_eq_true _ _).mp murderMoves_spec
  obtain ⟨hu, hborn, hkilled, hsome⟩ := of_decide_eq_true hspec
  obtain ⟨s₁, hs₁⟩ := Option.isSome_iff_exists.mp hsome
  exact ⟨s.1, s.2, s₁.1, s₁.2, hu, hkilled, hs₁,
    killed_never_returns (run_execAs .init hs) hborn hkilled .refl hu hs₁ .refl⟩

end Xv6Cfs
