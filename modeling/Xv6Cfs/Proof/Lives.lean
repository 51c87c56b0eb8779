import Xv6Cfs.Kernel.Machine
import Xv6Cfs.Proof.Code

/-!
# What a thread has behind it

A thread starts the kernel, or lives, or has exited and not yet switched, or is done: it
has switched for the last time, or called a procedure that does not return. The rules here
say which code may panic where, and that no code comes to its end before it is done.
-/

namespace Xv6Cfs

open Threads Rules

/-- What a thread has behind it. -/
inductive Life where
  /-- It is the first CPU's, and `initproc` is not set yet. -/
  | starting
  | alive
  /-- It has become a zombie, and holds its lock until it has switched. -/
  | exited
  /-- It does not come here on a CPU. -/
  | done
  deriving DecidableEq

/-- The procedures that do not return. -/
def Routine.Endless : Routine → Bool
  | .scheduler | .serving _ _ | .user _ => true
  | _ => false

/-- The procedure is run by the thread on which `myproc()` returns `me`. -/
def Routine.Mine (me : Option Slot) : Routine → Prop
  | .wait p _ | .sysSleep p _ _ | .user p => me = some p
  | .outside q _ | .outsideHolding q _ _ => q = me
  | .scheduler | .serving _ _ => me = none

/-- The rules for the thread on which `myproc()` returns `me`, where `root` is `initproc`. -/
def lives (me : Option Slot) (root : Slot) : Rules Instr Answer Routine Life where
  pre i s :=
    match s with
    | .starting | .done => True
    | .alive => i = .panic → me = some root
    | .exited => i ≠ .panic ∧ ∀ q w, i ≠ .write q w
  can i s r :=
    match i, r with
    | .shared, r => s = .alive → me.isSome → r.initproc = some root
    | _, _ => True
  next i s _ :=
    match s, i with
    | .starting, .initproc _ => .alive
    | .alive, .write _ (.exit _) => .exited
    | .exited, .switch _ => .done
    | s, _ => s
  callPre f s :=
    match s with
    | .starting => f.Mine me ∧ f.Endless = false
    | .alive => f.Mine me
    | .exited => False
    | .done => True
  callNext f s := if f.Endless then .done else s

variable {α : Type} {me : Option Slot} {root p : Slot} {s : Life} {chan : Option Chan} {tk : Bool}

/-- Nobody starts the kernel twice. -/
theorem lives_next_ne_starting {i : Instr} (hs : s ≠ .starting) (r : Answer i) :
    (lives me root).next i s r ≠ .starting := by
  simp only [lives]
  split
  · exact absurd rfl hs
  · simp
  · simp
  · exact hs

/-- What is done is not looked at. -/
theorem lives_done {x : Code α} {Q : α → Life → Prop} (hQ : ∀ a, Q a .done) :
    (lives me root).wp x Q .done := by
  induction x with
  | ret a => exact hQ a
  | instr i next ih => exact ⟨trivial, fun r _ => ih r⟩
  | call f next ih =>
      refine ⟨trivial, fun r => ?_⟩
      have hnext : (lives me root).callNext f .done = .done := by
        simp only [lives]
        split <;> rfl
      rw [hnext]
      exact ih r

/-- Nothing comes after `panic`. -/
theorem lives_panic {Q : α → Life → Prop} (h : (lives me root).pre .panic s) :
    (lives me root).wp (panic : Code α) Q s :=
  ⟨h, fun e => Empty.elim e⟩

/-! ## Code that always goes on -/

/-- The instruction ends nothing, stays in the kernel, and does not set `initproc`. It may count a
tick if `tk`. -/
def Instr.Plain (tk : Bool) (i : Instr) : Prop :=
  (i ≠ .panic ∧ i ≠ .user) ∧ (∀ p st, i ≠ .write p (.exit st)) ∧ (∀ p, i ≠ .initproc p) ∧
    (i = .tick → tk = true)

/-- The rules for such code. -/
def plain (me : Option Slot) (tk : Bool) : Rules Instr Answer Routine Unit :=
  avoiding (Instr.Plain tk) fun f => f.Mine me ∧ f.Endless = false

/-- Plain code leaves it as it is whether a thread lives. -/
theorem lives_of_plain {x : Code α} {Q : α → Life → Prop} (hs : s = .starting ∨ s = .alive)
    (h : (plain me true).wp x (fun a _ => Q a s) ()) : (lives me root).wp x Q s := by
  induction x with
  | ret a => exact h
  | instr i next ih =>
      obtain ⟨⟨hpanic, -⟩, hexit, hinit, -⟩ := h.1
      have hnext : ∀ r, (lives me root).next i s r = s := fun r => by
        rcases hs with rfl | rfl
        · cases i <;> first | rfl | exact absurd rfl (hinit _)
        · cases i with
          | write p w => cases w <;> first | rfl | exact absurd rfl (hexit _ _)
          | _ => rfl
      refine ⟨?_, fun r _ => ?_⟩
      · rcases hs with rfl | rfl
        · trivial
        · exact fun he => absurd he hpanic
      · rw [hnext]
        exact ih r (h.2 r trivial)
  | call f next ih =>
      obtain ⟨hmine, hends⟩ := h.1
      refine ⟨?_, fun r => ?_⟩
      · rcases hs with rfl | rfl
        · exact ⟨hmine, hends⟩
        · exact hmine
      have hnext : (lives me root).callNext f s = s := by simp [lives, hends]
      rw [hnext]
      exact ih r (h.2 r)

theorem plain_issue {i : Instr} {Q : Answer i → Unit → Prop} {u : Unit} (hi : i.Plain tk)
    (hQ : ∀ r, Q r ()) : (plain me tk).wp (Prog.issue i : Code (Answer i)) Q u :=
  ⟨hi, fun r _ => hQ r⟩

theorem plain_invoke {f : Routine} {Q : Int → Unit → Prop} {u : Unit} (hf : f.Mine me)
    (hends : f.Endless = false) (hQ : ∀ r, Q r ()) : (plain me tk).wp (invoke f) Q u :=
  ⟨⟨hf, hends⟩, hQ⟩

section

variable {Q : Unit → Unit → Prop} {u : Unit}

theorem plain_acquire {l : Lock} (hQ : Q () ()) : (plain me tk).wp (acquire l) Q u :=
  plain_issue (by simp [Instr.Plain]) fun _ => hQ

theorem plain_release {l : Lock} (hQ : Q () ()) : (plain me tk).wp (release l) Q u :=
  plain_issue (by simp [Instr.Plain]) fun _ => hQ

theorem plain_write {w : Write} (hw : ∀ st, w ≠ .exit st) (hQ : Q () ()) :
    (plain me tk).wp (write p w) Q u :=
  plain_issue (by simp [Instr.Plain, hw]) fun _ => hQ

theorem plain_callInsertProcess (hQ : Q () ()) : (plain me tk).wp (callInsertProcess p) Q u := by
  simp only [callInsertProcess, wp_bind]
  exact plain_acquire (plain_issue (by simp [Instr.Plain]) fun _ => plain_release hQ)

theorem plain_sched (hQ : Q () ()) : (plain me tk).wp (sched p) Q u := by
  simp only [sched, wp_bind]
  exact plain_issue (by simp [Instr.Plain]) fun _ => plain_issue (by simp [Instr.Plain]) fun _ =>
    plain_issue (by simp [Instr.Plain]) fun _ => hQ

theorem plain_wake (hQ : Q () ()) : (plain me tk).wp (wake p) Q u := by
  simp only [wake, wp_bind]
  exact plain_write (by simp) (plain_callInsertProcess hQ)

theorem plain_yieldCpu (hQ : Q () ()) : (plain me tk).wp (yieldCpu p) Q u := by
  simp only [yieldCpu, callCheckPreemption, wp_bind]
  refine plain_acquire (plain_issue (by simp [Instr.Plain]) fun _ =>
    plain_issue (by simp [Instr.Plain]) fun b => ?_)
  cases b with
  | false => exact plain_release hQ
  | true =>
      simp only [if_true, giveUp, wp_bind]
      exact plain_write (by simp) (plain_callInsertProcess (plain_sched (plain_release hQ)))

theorem plain_sleep {x : Chan} {lk : Lock} (hQ : Q () ()) :
    (plain me tk).wp (sleep p x lk) Q u := by
  simp only [sleep, wp_bind]
  exact plain_acquire (plain_release (plain_write (by simp) (plain_sched
    (plain_write (by simp) (plain_release (plain_acquire hQ))))))

theorem plain_wakeup (hQ : Q () ()) : (plain me tk).wp (wakeup me chan) Q u := by
  refine wp_mono (wp_forEach (fun _ _ => True) (fun p ps _ _ => ?_) trivial) fun _ _ _ => hQ
  unfold wakeupOne
  split
  · trivial
  · simp only [wp_bind]
    refine plain_acquire (plain_issue (by simp [Instr.Plain]) fun b => ?_)
    cases b with
    | false => exact plain_release trivial
    | true => exact plain_wake (plain_release trivial)

theorem plain_clockintr (hQ : Q () ()) : (plain me true).wp (clockintr me) Q u := by
  simp only [clockintr, wp_bind]
  refine plain_issue (by simp [Instr.Plain]) fun id => ?_
  split
  · simp only [wp_bind]
    exact plain_acquire (plain_issue (by simp [Instr.Plain]) fun _ =>
      plain_wakeup (plain_release hQ))
  · exact hQ

theorem plain_outside {b : Bool} (hQ : Q () ()) : (plain me tk).wp (outside me b) Q u := by
  simp only [outside, wp_bind]
  exact plain_invoke rfl rfl fun _ => hQ

theorem plain_kerneltrap {i : Interrupt} (hQ : Q () ()) :
    (plain me true).wp (kerneltrap me i) Q u := by
  cases i with
  | device => exact plain_outside hQ
  | timer =>
      simp only [kerneltrap, wp_bind]
      refine plain_clockintr ?_
      cases me with
      | none => exact hQ
      | some p => exact plain_yieldCpu hQ

theorem plain_setkilled (hQ : Q () ()) : (plain me tk).wp (setkilled p) Q u := by
  simp only [setkilled, wp_bind]
  exact plain_acquire (plain_write (by simp) (plain_release hQ))

theorem plain_giveBack (hQ : Q () ()) : (plain me tk).wp (giveBack p) Q u := by
  simp only [giveBack, wp_bind]
  exact plain_write (by simp) (plain_release hQ)

theorem plain_reparent (hQ : Q () ()) : (plain (some p) tk).wp (reparent p) Q u := by
  refine wp_mono (wp_forEach (fun _ _ => True) (fun pp ps _ _ => ?_) trivial) fun _ _ _ => hQ
  simp only [reparentOne, wp_bind]
  refine plain_issue (by simp [Instr.Plain]) fun q => ?_
  split
  · simp only [wp_bind]
    exact plain_issue (by simp [Instr.Plain]) fun _ => plain_write (by simp) (plain_wakeup trivial)
  · trivial

end

section

variable {u : Unit}

theorem plain_slot {Q : Proc → Unit → Prop} (hQ : ∀ x, Q x ()) :
    (plain me tk).wp (slot p) Q u := by
  simp only [slot, wp_bind]
  exact plain_issue (by simp [Instr.Plain]) fun _ => hQ _

theorem plain_killed {Q : Bool → Unit → Prop} (hQ : ∀ b, Q b ()) :
    (plain me tk).wp (killed p) Q u := by
  simp only [killed, wp_bind]
  exact plain_acquire (plain_slot fun x => plain_release (hQ x.killed))

theorem plain_callRetrieveProcess {Q : Option Slot → Unit → Prop} (hQ : ∀ r, Q r ()) :
    (plain me tk).wp callRetrieveProcess Q u := by
  simp only [callRetrieveProcess, wp_bind]
  exact plain_acquire (plain_issue (by simp [Instr.Plain]) fun r => plain_release (hQ r))

theorem plain_serve {b : Bool} {Q : Bool → Unit → Prop} (hQ : ∀ b, Q b ()) :
    (plain me tk).wp (serve p b) Q u := by
  simp only [serve, wp_bind]
  refine plain_issue (by simp [Instr.Plain]) fun r => ?_
  split
  · simp only [wp_bind]
    exact plain_acquire (plain_release (plain_issue (by simp [Instr.Plain]) fun _ =>
      plain_acquire (plain_release (hQ true))))
  · exact hQ b

theorem plain_allocFound {Q : Option Slot → Unit → Prop} (hQ : ∀ r, Q r ()) :
    (plain me tk).wp (allocFound p) Q u := by
  simp only [allocFound, allocpid, wp_bind]
  refine plain_acquire (plain_issue (by simp [Instr.Plain]) fun _ => plain_release
    (plain_write (by simp) (plain_write (by simp) (plain_issue (by simp [Instr.Plain])
      fun c => ?_))))
  split
  · exact (wp_bind _ _).mpr (plain_giveBack (hQ none))
  · simp only [wp_bind]
    refine plain_issue (by simp [Instr.Plain]) fun c => ?_
    split
    · exact (wp_bind _ _).mpr (plain_giveBack (hQ none))
    · exact (wp_bind _ _).mpr (plain_issue (by simp [Instr.Plain]) fun _ => hQ (some p))

theorem plain_allocproc {Q : Option Slot → Unit → Prop} (hQ : ∀ r, Q r ()) :
    (plain me tk).wp allocproc Q u := by
  suffices h : ∀ ps : List Slot, (plain me tk).wp (allocFrom ps) Q u from h slots
  intro ps
  induction ps with
  | nil => exact hQ none
  | cons p ps ih =>
      simp only [allocFrom, wp_bind]
      refine plain_acquire (plain_issue (by simp [Instr.Plain]) fun b => ?_)
      split
      · exact plain_allocFound hQ
      · exact (wp_bind _ _).mpr (plain_release ih)

end

section

variable {Q : Int → Unit → Prop} {u : Unit}

theorem plain_fork (hQ : ∀ r, Q r ()) : (plain me tk).wp (fork p) Q u := by
  simp only [fork, wp_bind]
  refine plain_allocproc fun r => ?_
  cases r with
  | none => exact hQ (-1)
  | some np =>
      simp only [wp_bind]
      refine plain_issue (by simp [Instr.Plain]) fun c => ?_
      split
      · exact (wp_bind _ _).mpr (plain_giveBack (hQ (-1)))
      · simp only [forkCopied, wp_bind]
        exact plain_slot fun x => plain_release (plain_acquire (plain_write (by simp)
          (plain_release (plain_acquire (plain_write (by simp) (plain_release
            (plain_callInsertProcess (hQ x.pid))))))))

theorem plain_kill {pid : Int} (hQ : ∀ r, Q r ()) : (plain me tk).wp (kill pid) Q u := by
  suffices h : ∀ ps : List Slot, (plain me tk).wp (killFrom pid ps) Q u from h slots
  intro ps
  induction ps with
  | nil => exact hQ (-1)
  | cons p ps ih =>
      simp only [killFrom, wp_bind]
      refine plain_acquire (plain_issue (by simp [Instr.Plain]) fun b => ?_)
      split
      · simp only [killFound, wp_bind]
        refine plain_write (by simp) (plain_issue (by simp [Instr.Plain]) fun b => ?_)
        cases b with
        | false => exact plain_release (hQ 0)
        | true => exact plain_wake (plain_release (hQ 0))
      · exact (wp_bind _ _).mpr (plain_release ih)

theorem plain_reap {b : Bool} (hQ : ∀ r, Q r ()) : (plain me tk).wp (reap p b) Q u := by
  simp only [reap, wp_bind]
  refine plain_slot fun x => plain_issue (by simp [Instr.Plain]) fun c => ?_
  split
  · simp only [wp_bind]
    exact plain_release (plain_release (hQ (-1)))
  · simp only [wp_bind]
    exact plain_write (by simp) (plain_release (plain_release (hQ x.pid)))

theorem plain_waitScan {b : Bool} {Q : Int ⊕ Bool → Unit → Prop} (hQ : ∀ r, Q r ()) {kids : Bool} :
    (plain me tk).wp (waitScan p b slots kids) Q u := by
  suffices h : ∀ (ps : List Slot) kids, (plain me tk).wp (waitScan p b ps kids) Q u from
    h slots kids
  intro ps
  induction ps with
  | nil => exact fun kids => hQ (.inr kids)
  | cons pp ps ih =>
      intro kids
      simp only [waitScan, wp_bind]
      refine plain_issue (by simp [Instr.Plain]) fun q => ?_
      split
      · simp only [wp_bind]
        refine plain_acquire (plain_issue (by simp [Instr.Plain]) fun b => ?_)
        split
        · exact (wp_bind _ _).mpr (plain_reap fun r => hQ (.inl r))
        · exact (wp_bind _ _).mpr (plain_release (ih true))
      · exact ih kids

theorem plain_waitRound {b : Bool} (hQ : ∀ r, Q r ()) :
    (plain (some p) tk).wp (waitRound p b) Q u := by
  simp only [waitRound, wp_bind]
  refine plain_waitScan fun r => ?_
  cases r with
  | inl r => exact hQ r
  | inr kids =>
      have hrest : ∀ b', (plain (some p) tk).wp (if b' = true then (do
          release .wait
          return -1)
        else (do
          sleep p (.proc p) .wait
          invoke (.wait p b)) : Code Int) Q () := by
        intro b'
        split
        · exact (wp_bind _ _).mpr (plain_release (hQ (-1)))
        · exact (wp_bind _ _).mpr (plain_sleep (plain_invoke rfl rfl hQ))
      simp only [waitPointless, wp_bind]
      cases kids with
      | false => exact hrest true
      | true => exact plain_killed hrest

theorem plain_sysSleepRound {m : Int} {t : Nat} (hQ : ∀ r, Q r ()) :
    (plain (some p) tk).wp (sysSleepRound p m t) Q u := by
  simp only [sysSleepRound, wp_bind]
  refine plain_issue (by simp [Instr.Plain]) fun x => ?_
  split
  · simp only [wp_bind]
    refine plain_killed fun b => ?_
    split
    · exact (wp_bind _ _).mpr (plain_release (hQ (-1)))
    · exact (wp_bind _ _).mpr (plain_sleep (plain_invoke rfl rfl hQ))
  · exact (wp_bind _ _).mpr (plain_release (hQ 0))

/-- A system call other than `exit`. -/
theorem plain_syscall {x : Syscall} (hx : ∀ st, x ≠ .exit st) (hQ : ∀ r, Q r ()) :
    (plain (some p) tk).wp (syscall p x) Q u := by
  cases x with
  | exit st => exact absurd rfl (hx st)
  | fork => exact plain_fork hQ
  | kill pid => exact plain_kill hQ
  | wait b =>
      simp only [syscall, wait, wp_bind]
      exact plain_acquire (plain_invoke rfl rfl hQ)
  | sleep m =>
      simp only [syscall, sysSleep, wp_bind]
      exact plain_acquire (plain_issue (by simp [Instr.Plain]) fun _ => plain_invoke rfl rfl hQ)
  | uptime =>
      simp only [syscall, sysUptime, wp_bind]
      exact plain_acquire (plain_issue (by simp [Instr.Plain]) fun x => plain_release (hQ x.ticks))
  | setnice => exact hQ 0
  | other => exact plain_invoke rfl rfl hQ

/-- `usertrap`, after the second look at `p->killed`. -/
theorem plain_chargeAndYield {Q : Unit → Unit → Prop} (hQ : Q () ()) :
    (plain (some p) tk).wp (chargeAndYield p) Q u := by
  simp only [chargeAndYield, wp_bind]
  refine plain_issue (by simp [Instr.Plain]) fun b => ?_
  split
  · simp only [chargeRuntime, wp_bind]
    exact plain_issue (by simp [Instr.Plain]) fun d => plain_write (by simp) (plain_yieldCpu hQ)
  · exact hQ

end

/-! ## Code that may exit -/

section

variable {Q : Unit → Life → Prop}

/-- Whoever exits is not `initproc`, or panics; behind the last switch nothing matters. -/
theorem lives_exit {β : Type} {st : Int} {Q : β → Life → Prop} :
    (lives (some p) root).wp (exit p st) Q .alive := by
  simp only [exit, wp_bind]
  refine (wp_issue _).mpr ⟨by simp [lives], fun x hx => ?_⟩
  have hroot : x.initproc = some root := hx rfl rfl
  split
  · rename_i hp
    obtain rfl : root = p := Option.some.inj (hroot.symm.trans hp)
    exact lives_panic fun _ => rfl
  · simp only [wp_bind]
    refine lives_of_plain (.inr rfl) (plain_outside ?_)
    refine lives_of_plain (.inr rfl) (plain_acquire ?_)
    refine lives_of_plain (.inr rfl) (plain_reparent ?_)
    refine lives_of_plain (.inr rfl) (plain_issue (by simp [Instr.Plain]) fun q => ?_)
    refine lives_of_plain (.inr rfl) (plain_wakeup ?_)
    refine lives_of_plain (.inr rfl) (plain_acquire ?_)
    refine ⟨by simp [lives], fun _ _ => ⟨by simp [lives], fun _ _ => ?_⟩⟩
    simp only [sched, wp_bind]
    refine ⟨by simp [lives], fun _ _ => ⟨by simp [lives], fun _ _ => ?_⟩⟩
    exact lives_done fun _ => lives_done fun _ => lives_panic trivial

theorem lives_exitIfKilled (hQ : Q () .alive) :
    (lives (some p) root).wp (exitIfKilled p) Q .alive := by
  simp only [exitIfKilled, wp_bind]
  refine lives_of_plain (.inr rfl) (plain_killed fun b => ?_)
  split
  · exact lives_exit
  · exact hQ

theorem lives_syscall {x : Syscall} {Q : Int → Life → Prop} (hQ : ∀ r, Q r .alive) :
    (lives (some p) root).wp (syscall p x) Q .alive := by
  by_cases hx : ∃ st, x = .exit st
  · obtain ⟨st, rfl⟩ := hx
    exact lives_exit
  · push Not at hx
    exact lives_of_plain (.inr rfl) (plain_syscall hx hQ)

theorem lives_setIntr {b : Bool} (hQ : Q () .alive) :
    (lives me root).wp (setIntr b) Q .alive :=
  ⟨by simp [lives], fun _ _ => hQ⟩

theorem lives_handleTrap {x : Trap} (hQ : Q () .alive) :
    (lives (some p) root).wp (handleTrap p x) Q .alive := by
  cases x with
  | syscall x =>
      simp only [handleTrap, wp_bind]
      exact lives_exitIfKilled (lives_setIntr (lives_syscall fun _ => hQ))
  | device => exact lives_of_plain (.inr rfl) (plain_outside hQ)
  | timer => exact lives_of_plain (.inr rfl) (plain_clockintr hQ)
  | fault => exact lives_of_plain (.inr rfl) (plain_setkilled hQ)

theorem lives_usertrap {x : Trap} (hQ : Q () .alive) :
    (lives (some p) root).wp (usertrap p x) Q .alive := by
  simp only [usertrap, wp_bind]
  refine lives_handleTrap (lives_exitIfKilled ?_)
  have hrest : (lives (some p) root).wp (if x = .timer then yieldCpu p else pure ())
      (fun _ s => (lives (some p) root).wp (setIntr false) Q s) .alive := by
    split
    · exact lives_of_plain (.inr rfl) (plain_yieldCpu (lives_setIntr hQ))
    · exact lives_setIntr hQ
  exact lives_of_plain (.inr rfl) (plain_chargeAndYield hrest)

end

/-- A procedure that returns. -/
theorem plain_body {f : Routine} (hf : f.Mine me) (hends : f.Endless = false)
    {Q : Int → Unit → Prop} {u : Unit} (hQ : ∀ r, Q r ()) : (plain me tk).wp f.body Q u := by
  cases f with
  | wait p b =>
      obtain rfl : me = some p := hf
      exact plain_waitRound hQ
  | sysSleep p m t =>
      obtain rfl : me = some p := hf
      exact plain_sysSleepRound hQ
  | outside q b =>
      obtain rfl : q = me := hf
      simp only [Routine.body, wp_bind]
      refine plain_issue (by simp [Instr.Plain]) fun c => ?_
      cases c with
      | acquire m => exact (wp_bind _ _).mpr (plain_acquire (plain_invoke rfl rfl hQ))
      | wakeup x => exact (wp_bind _ _).mpr (plain_wakeup (plain_invoke rfl rfl hQ))
      | _ => exact hQ 0
  | outsideHolding q b m =>
      obtain rfl : q = me := hf
      simp only [Routine.body, wp_bind]
      refine plain_issue (by simp [Instr.Plain]) fun c => ?_
      cases c with
      | wakeup x => exact (wp_bind _ _).mpr (plain_wakeup (plain_invoke rfl rfl hQ))
      | sleep x =>
          cases q with
          | none => exact plain_invoke rfl rfl hQ
          | some p =>
              cases b with
              | false => exact plain_invoke rfl rfl hQ
              | true => exact (wp_bind _ _).mpr (plain_sleep (plain_invoke rfl rfl hQ))
      | killed =>
          cases q with
          | none => exact plain_invoke rfl rfl hQ
          | some p =>
              cases b with
              | false => exact plain_invoke rfl rfl hQ
              | true => exact (wp_bind _ _).mpr (plain_killed fun _ => plain_invoke rfl rfl hQ)
      | _ => exact (wp_bind _ _).mpr (plain_release (plain_invoke rfl rfl hQ))
  | scheduler | serving q b | user p => simp [Routine.Endless] at hends

theorem lives_invoke {f : Routine} {Q : Int → Life → Prop} (hf : f.Mine me)
    (hends : f.Endless = true) (hQ : ∀ r, Q r .done) : (lives me root).wp (invoke f) Q .alive := by
  refine ⟨hf, fun r => ?_⟩
  have hnext : (lives me root).callNext f .alive = .done := by simp [lives, hends]
  rw [hnext]
  exact hQ r

/-- **A procedure comes back to a thread that lives**, or does not return. -/
theorem lives_sound : (lives me root).Sound Routine.body := by
  intro f s hf
  by_cases hends : f.Endless = true
  · have hnext : (lives me root).callNext f s = .done := by simp [lives, hends]
    rw [hnext]
    cases s with
    | starting => simp [lives, hends] at hf
    | exited => exact hf.elim
    | done => exact lives_done fun _ => rfl
    | alive =>
        cases f with
        | scheduler =>
            simp only [Routine.body, wp_bind]
            exact lives_setIntr (lives_of_plain (.inr rfl) (plain_callRetrieveProcess fun r =>
              (lives_invoke hf rfl fun _ => rfl)))
        | serving q b =>
            cases q with
            | none =>
                simp only [Routine.body, wp_bind]
                have hrest : (lives me root).wp (invoke .scheduler) (fun _ s => s = .done) .alive :=
                  lives_invoke hf rfl fun _ => rfl
                split
                · exact hrest
                · exact lives_setIntr hrest
            | some p =>
                simp only [Routine.body, wp_bind]
                refine lives_of_plain (.inr rfl) (plain_acquire ?_)
                refine lives_of_plain (.inr rfl) (plain_serve fun b => ?_)
                refine lives_of_plain (.inr rfl) (plain_release ?_)
                refine lives_of_plain (.inr rfl) (plain_callRetrieveProcess fun r => ?_)
                exact lives_invoke hf rfl fun _ => rfl
        | user p =>
            obtain rfl : me = some p := hf
            simp only [Routine.body, wp_bind]
            refine (wp_issue _).mpr ⟨by simp [lives], fun x _ => ?_⟩
            exact lives_usertrap (lives_invoke rfl rfl fun _ => rfl)
        | wait p b | sysSleep p m t | outside q b | outsideHolding q b m =>
            simp [Routine.Endless] at hends
  · have hends' : f.Endless = false := by simpa using hends
    have hnext : (lives me root).callNext f s = s := by simp [lives, hends']
    rw [hnext]
    cases s with
    | starting => exact lives_of_plain (.inl rfl) (plain_body hf.1 hends' fun _ => rfl)
    | alive => exact lives_of_plain (.inr rfl) (plain_body hf hends' fun _ => rfl)
    | exited => exact hf.elim
    | done => exact lives_done fun _ => rfl

/-! ## Where threads begin -/

theorem lives_forkret : (lives (some p) root).wp (forkret p) (fun _ s => s = .done) .alive := by
  simp only [forkret, fsinit, wp_bind]
  have hrest : (lives (some p) root).wp (setIntr false) (fun _ u =>
      (lives (some p) root).wp (invoke (.user p)) (fun _ s => s = .done) u) .alive :=
    lives_setIntr (lives_invoke rfl rfl fun _ => rfl)
  refine lives_of_plain (.inr rfl) (plain_release ?_)
  refine lives_of_plain (.inr rfl) (plain_issue (by simp [Instr.Plain]) fun x => ?_)
  split
  · simp only [wp_bind]
    refine lives_of_plain (.inr rfl) (plain_outside ?_)
    exact lives_of_plain (.inr rfl) (plain_issue (by simp [Instr.Plain]) fun _ => hrest)
  · exact hrest

theorem lives_userinit : (lives none root).wp userinit (fun _ s => s = .alive) .starting := by
  simp only [userinit, wp_bind]
  refine lives_of_plain (.inl rfl) (plain_allocproc fun r => ?_)
  cases r with
  | none => exact lives_panic trivial
  | some p =>
      simp only [wp_bind]
      refine (wp_issue _).mpr ⟨trivial, fun _ _ => ?_⟩
      refine lives_of_plain (.inr rfl) (plain_write (by simp) ?_)
      refine lives_of_plain (.inr rfl) (plain_callInsertProcess ?_)
      exact lives_of_plain (.inr rfl) (plain_release rfl)

theorem lives_boot {n : Nat} (t : Thread n) : ∃ s,
    (s = .alive ∨ s = .starting ∧ ∃ c, t = .cpu c ∧ c.val = 0) ∧
      (lives t.me root).wp (bootCode t) (fun _ s => s = .done) s := by
  have hsched : (lives none root).wp (invoke .scheduler) (fun _ s => s = .done) .alive :=
    lives_invoke rfl rfl fun _ => rfl
  cases t with
  | proc p => exact ⟨.alive, .inl rfl, lives_forkret⟩
  | cpu c =>
      by_cases hc : c.val = 0
      · refine ⟨.starting, .inr ⟨rfl, c, rfl, hc⟩, ?_⟩
        simp only [bootCode, hc, if_true, wp_bind]
        refine wp_mono lives_userinit fun _ u hu => ?_
        rw [hu]
        exact hsched
      · refine ⟨.alive, .inl rfl, ?_⟩
        simp only [bootCode, hc, if_false]
        exact hsched

end Xv6Cfs
