import Xv6Cfs.Kernel.Printing
import Xv6Cfs.Proof.Doom
import Xv6Cfs.Proof.Kill
import Xv6Cfs.Visual.Chart

/-!
# The log is a history

A scheduler holds the lock of the process from before it reads `ticks` the first time until it
has printed. Nobody else runs the process meanwhile, and nobody prints about it.
-/

namespace Xv6Cfs

open Threads Rules RedBlack

variable {n : Nat} {k k' : Kernel n} {ℓ ℓ' : Ledger n} {V : Thread n → View} {c c' : Fin n}
  {tr : ColorTree Slot} {σ : Slot → Sit n} {p q : Slot} {e : Env} {i : Instr} {r : Answer i}
  {P : Kernel n → Ledger n → Move n → Prop} {log : List (Entry n)}
  {s : Fin n → Slicing} {chan : Option Chan}

/-! ## The scheduler reads `ticks` before it switches -/

/-- How far a scheduler has come with a process whose lock it holds. -/
inductive Phase where
  | locked
  /-- It has read `ticks`. -/
  | stamped
  /-- It has switched to the process. -/
  | served
  | printed
  deriving DecidableEq

/-- The phase after `ticks` has been read. -/
def Phase.stamp : Phase → Phase
  | .locked => .stamped
  | .served => .printed
  | x => x

/-- The process whose lock a scheduler holds, and how far it has come with it. -/
abbrev Stamp := Option (Slot × Phase)

/-- The rules for the thread of a scheduler: with the lock of a process it reads `ticks`, switches
to the process, and reads `ticks` again. -/
def stamping : Rules Instr Answer Routine Stamp where
  pre i w :=
    match i with
    | .acquire (.proc _) => w = none
    | .release (.proc p) => ∃ x, w = some (p, x) ∧ x ≠ .served
    | .dispatch p => w = some (p, .stamped)
    | _ => True
  can _ _ _ := True
  next i w _ :=
    match i with
    | .acquire (.proc p) => some (p, .locked)
    | .release (.proc _) => none
    | .release .ticks => w.map fun x => (x.1, x.2.stamp)
    | .dispatch p => some (p, .served)
    | _ => w
  callPre f w := w = none ∧ f.Mine none
  callNext _ w := w

section

variable {w : Stamp}

theorem stamping_issue {Q : Answer i → Stamp → Prop} (hi : stamping.pre i w)
    (hQ : ∀ r, Q r (stamping.next i w r)) : stamping.wp (Prog.issue i : Code (Answer i)) Q w :=
  ⟨hi, fun r _ => hQ r⟩

theorem stamping_invoke {f : Routine} {Q : Int → Stamp → Prop} (hf : f.Mine none)
    (hQ : ∀ r, Q r none) : stamping.wp (invoke f) Q none :=
  ⟨⟨rfl, hf⟩, hQ⟩

theorem stamping_callInsertProcess {Q : Unit → Stamp → Prop} (hQ : Q () w) :
    stamping.wp (callInsertProcess p) Q w := by
  simp only [callInsertProcess, wp_bind]
  exact stamping_issue (by simp [stamping]) fun _ => stamping_issue (by simp [stamping]) fun _ =>
    stamping_issue (by simp [stamping]) fun _ => hQ

theorem stamping_callRetrieveProcess {Q : Option Slot → Stamp → Prop} (hQ : ∀ r, Q r w) :
    stamping.wp callRetrieveProcess Q w := by
  simp only [callRetrieveProcess, wp_bind]
  exact stamping_issue (by simp [stamping]) fun _ => stamping_issue (by simp [stamping]) fun r =>
    stamping_issue (by simp [stamping]) fun _ => hQ r

theorem stamping_wakeup {Q : Unit → Stamp → Prop} (hQ : Q () none) :
    stamping.wp (wakeup none chan) Q none := by
  refine wp_mono (wp_forEach (fun _ w => w = none) (fun p ps w hw => ?_) rfl) fun _ _ h => h ▸ hQ
  subst hw
  simp only [wakeupOne, reduceCtorEq, if_false, wp_bind]
  refine stamping_issue (by simp [stamping]) fun _ =>
    stamping_issue (by simp [stamping]) fun b => ?_
  cases b with
  | false => exact stamping_issue (by simp [stamping]) fun _ => rfl
  | true =>
      simp only [if_true, wake, wp_bind]
      exact stamping_issue (by simp [stamping]) fun _ => stamping_callInsertProcess
        (stamping_issue (by simp [stamping]) fun _ => rfl)

theorem stamping_clockintr {Q : Unit → Stamp → Prop} (hQ : Q () none) :
    stamping.wp (clockintr none) Q none := by
  simp only [clockintr, wp_bind]
  refine stamping_issue (by simp [stamping]) fun id => ?_
  split
  · simp only [wp_bind]
    exact stamping_issue (by simp [stamping]) fun _ => stamping_issue (by simp [stamping]) fun _ =>
      stamping_wakeup (stamping_issue (by simp [stamping]) fun _ => hQ)
  · exact hQ

theorem stamping_kerneltrap {j : Interrupt} {Q : Unit → Stamp → Prop} (hQ : Q () none) :
    stamping.wp (kerneltrap none j) Q none := by
  cases j with
  | device =>
      simp only [kerneltrap, outside, wp_bind]
      exact stamping_invoke rfl fun _ => hQ
  | timer =>
      simp only [kerneltrap, wp_bind]
      exact stamping_clockintr hQ

/-- `serve` ends with the lock of the process, as it began. -/
theorem stamping_serve {b : Bool} {Q : Bool → Stamp → Prop}
    (hQ : ∀ b x, x ≠ .served → Q b (some (p, x))) :
    stamping.wp (serve p b) Q (some (p, .locked)) := by
  simp only [serve, wp_bind]
  refine stamping_issue (by simp [stamping]) fun b => ?_
  split
  · simp only [wp_bind]
    exact stamping_issue (by simp [stamping]) fun _ => stamping_issue (by simp [stamping]) fun _ =>
      stamping_issue rfl fun _ => stamping_issue (by simp [stamping]) fun _ =>
        stamping_issue (by simp [stamping]) fun _ => hQ true .printed (by simp)
  · exact hQ _ _ (by simp)

theorem stamping_allocFrom (ps : List Slot) {Q : Option Slot → Stamp → Prop}
    (hnone : Q none none) (hsome : ∀ p, Q (some p) (some (p, .locked))) :
    stamping.wp (allocFrom ps) Q none := by
  induction ps with
  | nil => exact hnone
  | cons p ps ih =>
      have hback : stamping.wp (giveBack p) (fun _ w => Q none w) (some (p, .locked)) := by
        simp only [giveBack, wp_bind]
        exact stamping_issue (by simp [stamping]) fun _ =>
          stamping_issue (by simp [stamping]) fun _ => hnone
      simp only [allocFrom, wp_bind]
      refine stamping_issue (by simp [stamping]) fun _ =>
        stamping_issue (by simp [stamping]) fun b => ?_
      split
      · simp only [allocFound, allocpid, wp_bind]
        refine stamping_issue (by simp [stamping]) fun _ =>
          stamping_issue (by simp [stamping]) fun _ =>
            stamping_issue (by simp [stamping]) fun _ =>
              stamping_issue (by simp [stamping]) fun _ =>
                stamping_issue (by simp [stamping]) fun _ =>
                  stamping_issue (by simp [stamping]) fun c => ?_
        split
        · exact (wp_bind _ _).mpr hback
        · simp only [wp_bind]
          refine stamping_issue (by simp [stamping]) fun c => ?_
          split
          · exact (wp_bind _ _).mpr hback
          · exact (wp_bind _ _).mpr (stamping_issue (by simp [stamping]) fun _ => hsome p)
      · exact (wp_bind _ _).mpr (stamping_issue (by simp [stamping]) fun _ => ih)

theorem stamping_userinit {Q : Unit → Stamp → Prop} (hQ : Q () none) :
    stamping.wp userinit Q none := by
  simp only [userinit, allocproc, wp_bind]
  refine stamping_allocFrom slots ⟨trivial, fun e => Empty.elim e⟩ fun p => ?_
  simp only [wp_bind]
  exact stamping_issue (by simp [stamping]) fun _ => stamping_issue (by simp [stamping]) fun _ =>
    stamping_callInsertProcess (stamping_issue (by simp [stamping]) fun _ => hQ)

end

/-- **The procedures of a scheduler keep to the rules.** -/
theorem stamping_sound : stamping.Sound Routine.body := by
  rintro f w ⟨rfl, hf⟩
  cases f with
  | outside me b =>
      obtain rfl : me = none := hf
      simp only [Routine.body, wp_bind]
      refine stamping_issue (by simp [stamping]) fun x => ?_
      cases x with
      | acquire m =>
          exact (wp_bind _ _).mpr (stamping_issue (by simp [stamping]) fun _ =>
            stamping_invoke rfl fun _ => rfl)
      | wakeup x =>
          exact (wp_bind _ _).mpr (stamping_wakeup (stamping_invoke rfl fun _ => rfl))
      | _ => rfl
  | outsideHolding me b m =>
      obtain rfl : me = none := hf
      simp only [Routine.body, wp_bind]
      refine stamping_issue (by simp [stamping]) fun x => ?_
      cases x with
      | wakeup x =>
          exact (wp_bind _ _).mpr (stamping_wakeup (stamping_invoke rfl fun _ => rfl))
      | sleep x | killed => exact stamping_invoke rfl fun _ => rfl
      | _ =>
          exact (wp_bind _ _).mpr (stamping_issue (by simp [stamping]) fun _ =>
            stamping_invoke rfl fun _ => rfl)
  | scheduler =>
      simp only [Routine.body, wp_bind]
      exact stamping_issue (by simp [stamping]) fun _ => stamping_callRetrieveProcess fun _ =>
        stamping_invoke rfl fun _ => rfl
  | serving q b =>
      cases q with
      | none =>
          simp only [Routine.body, wp_bind]
          split
          · exact stamping_invoke rfl fun _ => rfl
          · exact stamping_issue (by simp [stamping]) fun _ => stamping_invoke rfl fun _ => rfl
      | some p =>
          simp only [Routine.body, wp_bind]
          exact stamping_issue (by simp [stamping]) fun _ => stamping_serve fun _ x hx =>
            stamping_issue ⟨x, rfl, hx⟩ fun _ => stamping_callRetrieveProcess fun _ =>
              stamping_invoke rfl fun _ => rfl
  | wait p b | sysSleep p m t | user p => simp [Routine.Mine] at hf

theorem stamping_boot (c : Fin n) :
    stamping.wp (bootCode (.cpu c)) (fun _ _ => True) none := by
  have hsched : stamping.wp (invoke .scheduler) (fun _ _ => True) none :=
    stamping_invoke rfl fun _ => trivial
  simp only [bootCode]
  split
  · exact (wp_bind _ _).mpr (stamping_userinit hsched)
  · exact hsched

/-! ## What the variables of a scheduler say -/

/-- **The invariant.** `w` says how far each scheduler has come. -/
structure Stamped (P : Kernel n → Ledger n → Move n → Prop) (k : Kernel n) (ℓ : Ledger n)
    (V : Thread n → View) (s : Fin n → Slicing) (log : List (Entry n)) (w : Fin n → Stamp) :
    Prop where
  code : ∀ c, stamping.wp (k.code (.cpu c)) (fun _ _ => True) (w c)
  held : ∀ c p, .proc p ∈ (V (.cpu c)).held ↔ (w c).map Prod.fst = some p
  on : ∀ c p, (s c).on = some p ↔ w c = some (p, .served)
  away : ∀ c p, k.running c = some p → (s c).on = some p
  one : ∀ c c' p, (s c).on = some p → (s c').on = some p → c = c'
  born : ∀ c p, (s c).on = some p → (k.mem.proc p).state.Born
  /-- When it read `ticks`, all that had been printed on this CPU or of this process was over. -/
  start : ∀ c p, w c = some (p, .stamped) ∨ w c = some (p, .served) →
    (s c).startTick ≤ k.shared.ticks ∧
      ∀ x ∈ log, x.cpu = c ∨ x.slot = p → x.record.finish ≤ (s c).startTick
  slice : ∀ x ∈ log, 0 ≤ x.record.start ∧ x.record.start ≤ x.record.finish ∧
    x.record.finish ≤ k.shared.ticks
  order : log.Pairwise fun x y =>
    x.cpu = y.cpu ∨ x.slot = y.slot → x.record.finish ≤ y.record.start
  pids : log.Pairwise fun x y => x.record.p = y.record.p → x.slot = y.slot
  /-- The pid was that of the process in the slot. -/
  named : ∀ x ∈ log, ∃ k₁ ℓ₁, RunWhere P k₁ ℓ₁ ∧ Named k₁.mem x.record.p x.slot ∧
    Steps P k₁ ℓ₁ k ℓ

theorem stamped_boot : Stamped P (boot n) (Ledger.empty n) (bootView false) (fun _ => ⟨0, none⟩) []
    fun _ => none where
  code := stamping_boot
  held c p := by simp [bootView]
  on c p := by simp
  away c p h := by simp [boot] at h
  one c c' p h := by simp at h
  born c p h := by simp at h
  start c p h := by simp at h
  slice := by simp
  order := .nil
  pids := .nil
  named := by simp

/-- `ticks` changes in `clockintr` only. -/
theorem ticks_execute (hex : execute k c e i = some (k', r)) :
    k'.shared.ticks = k.shared.ticks ∨ k'.shared.ticks = (k.shared.ticks + 1) % 2 ^ 32 := by
  by_cases hi : i = .tick
  · subst hi
    simp only [execute, Option.some.injEq, Prod.mk.injEq] at hex
    exact .inr (hex.1 ▸ rfl)
  · exact .inl (execute_ticks hex hi)

theorem ticks_le_execute (hex : execute k c e i = some (k', r))
    (h : i = .tick → k.shared.ticks < 2 ^ 31 - 1) : k.shared.ticks ≤ k'.shared.ticks := by
  by_cases hi : i = .tick
  · have hlt := h hi
    rcases ticks_execute hex with heq | heq <;> omega
  · exact (execute_ticks hex hi).ge

/-- The memory of a process is not given back while a scheduler has it. -/
theorem not_free (hb : Base k V tr σ) (hpre : instrPre (k.running c) i (V (k.thread c)))
    (hheld : .proc p ∈ (V (.cpu c')).held) (haway : ∀ q, k.running c' = some q → q = p)
    (hborn : (k.mem.proc p).state.Born) : i ≠ .write p .free := by
  rintro rfl
  obtain ⟨hp, hon, hcase⟩ := hpre
  rcases hcase with ⟨hseen, -, hme, -⟩ | ⟨-, g, -, hhead⟩
  · have hst := hb.sits.seen c p _ hseen
    cases hc' : k.running c' with
    | none =>
        -- the scheduler itself holds the lock
        have ht := Kernel.thread_eq_cpu.mpr ⟨hc', rfl⟩
        obtain rfl := hb.locking.exclusive hp (ht ▸ hheld)
        simp [hc'] at hme
    | some q =>
        obtain rfl := haway q hc'
        have hrun : (k.mem.proc q).state = .running := by
          refine hb.sits.running_state hc' ?_
          by_cases hcc : c' = c
          · subst hcc
            rwa [Kernel.thread_eq_proc.mpr hc'] at hon
          · exact hb.locking.on_of_held hb.sane hp hc' hcc
        simp [hst] at hrun
  · exact hborn.2 (hb.used_of_head hhead)

namespace Stamped

variable {w w' : Fin n → Stamp} {V' : Thread n → View}

theorem not_freed (h : Stamped P k ℓ V s log w) (hb : Base k V tr σ)
    (hpre : instrPre (k.running c) i (V (k.thread c))) (hon : (s c').on = some p) :
    i ≠ .write p .free := by
  have hheld : .proc p ∈ (V (.cpu c')).held := (h.held c' p).mpr (by simp [(h.on c' p).mp hon])
  refine not_free hb hpre hheld (fun q hq => ?_) (h.born c' p hon)
  exact Option.some.inj ((h.away c' q hq).symm.trans hon)

/-- A step in which no scheduler reads `ticks` or switches. -/
theorem next (h : Stamped P k ℓ V s log w)
    (hcode : ∀ c, stamping.wp (k'.code (.cpu c)) (fun _ _ => True) (w' c))
    (hheld : ∀ c p, .proc p ∈ (V' (.cpu c)).held ↔ (w' c).map Prod.fst = some p)
    (hserved : ∀ c p, w' c = some (p, .served) ↔ w c = some (p, .served))
    (hstamped : ∀ c p, w' c = some (p, .stamped) → w c = some (p, .stamped))
    (hrunning : ∀ c p, k'.running c = some p → k.running c = some p)
    (hticks : k.shared.ticks ≤ k'.shared.ticks)
    (hborn : ∀ c p, (s c).on = some p → (k'.mem.proc p).state.Born)
    (hsteps : ∀ k₁ ℓ₁, Steps P k₁ ℓ₁ k ℓ → Steps P k₁ ℓ₁ k' ℓ') :
    Stamped P k' ℓ' V' s log w' where
  code := hcode
  held := hheld
  on c p := (h.on c p).trans (hserved c p).symm
  away c p hp := h.away c p (hrunning c p hp)
  one := h.one
  born := hborn
  start c p hp := by
    obtain ⟨hle, hall⟩ := h.start c p (hp.imp (hstamped c p) (hserved c p).mp)
    exact ⟨hle.trans hticks, hall⟩
  slice x hx := by
    obtain ⟨h0, hle, hfin⟩ := h.slice x hx
    exact ⟨h0, hle, hfin.trans (by exact_mod_cast hticks)⟩
  order := h.order
  pids := h.pids
  named x hx := by
    obtain ⟨k₁, ℓ₁, hrun, hname, hst⟩ := h.named x hx
    exact ⟨k₁, ℓ₁, hrun, hname, hsteps k₁ ℓ₁ hst⟩

end Stamped

/-! ## The steps -/

theorem Kernel.not_stamps_of_running (h : k.running c = some q) : ¬k.Stamps c := fun hst => by
  simp [hst.1] at h

theorem Kernel.slicing_quiet {x : Slicing} (hst : ¬k.Stamps c)
    (hd : ∀ p, k.issued c ≠ some (.dispatch p)) : k.slicing c x = x := by
  unfold slicing
  split
  · rename_i p hp
    exact absurd hp (hd p)
  · rw [if_neg hst]

theorem Kernel.sliced_quiet (hst : ¬k.Stamps c) (hd : ∀ p, k.issued c ≠ some (.dispatch p)) :
    k.sliced s (.exec c e) = s := by
  rw [sliced, slicing_quiet hst hd, Function.update_eq_self]

theorem Kernel.prints_quiet (hst : ¬k.Stamps c) : k.prints s (.exec c e) = [] := if_neg hst

/-- Nobody gives a scheduler something else to do. -/
theorem code_cpu_execute (hex : execute k c e i = some (k', r)) :
    k'.code (.cpu c') = k.code (.cpu c') := by
  by_cases hi : ∃ p, i = .init p
  · obtain ⟨p, rfl⟩ := hi
    simp only [execute, Option.some.injEq, Prod.mk.injEq] at hex
    obtain ⟨rfl, -⟩ := hex
    simp
  · push Not at hi
    rw [execute_code hex hi]

namespace Stamped

variable {w : Fin n → Stamp}

theorem call (h : Stamped P k ℓ V s log w) {f : Routine} {next : Int → Code Int}
    (hcode : k.code (k.thread c) = .call f next)
    (hsteps : ∀ k₁ ℓ₁, Steps P k₁ ℓ₁ k ℓ →
      Steps P k₁ ℓ₁ (k.setCode (k.thread c) (f.body >>= next)) ℓ) :
    Stamped P (k.setCode (k.thread c) (f.body >>= next)) ℓ V (k.sliced s (.exec c e))
      (log ++ k.prints s (.exec c e)) w := by
  have hissued : k.issued c = none := by simp [Kernel.issued, hcode]
  have hst : ¬k.Stamps c := by
    rintro ⟨-, hi, -⟩
    simp [Kernel.issues_iff, hissued] at hi
  rw [Kernel.sliced_quiet hst (by simp [hissued]), Kernel.prints_quiet hst, List.append_nil]
  refine h.next (fun c' => ?_) h.held (fun _ _ => Iff.rfl) (fun _ _ => id) (fun _ _ => id)
    (le_refl _) h.born hsteps
  rw [Kernel.setCode_code]
  by_cases ht : Thread.cpu c' = k.thread c
  · rw [ht, Function.update_self]
    exact stamping_sound.unfold (hcode ▸ ht ▸ h.code c')
  · rw [Function.update_of_ne ht]
    exact h.code c'

theorem interrupt (h : Stamped P k ℓ V s log w) (hcore : Core k V false) {j : Interrupt}
    (hnoff : k.noff c = 0)
    (hsteps : ∀ k₁ ℓ₁, Steps P k₁ ℓ₁ k ℓ → Steps P k₁ ℓ₁ (Xv6Cfs.interrupt k c j) ℓ') :
    Stamped P (Xv6Cfs.interrupt k c j) ℓ' V (k.sliced s (.interrupt c j))
      (log ++ k.prints s (.interrupt c j)) w := by
  rw [Kernel.sliced, Kernel.prints, List.append_nil]
  refine h.next (fun c' => ?_) h.held (fun _ _ => Iff.rfl) (fun _ _ => id) (fun _ _ => id)
    (le_refl _) h.born hsteps
  rw [Xv6Cfs.interrupt, Kernel.setCode_code]
  by_cases ht : Thread.cpu c' = k.thread c
  · -- a scheduler is interrupted when it holds no lock
    have hnone : w c' = none := by
      have hfree := (hcore.free hnoff).held
      rw [← ht] at hfree
      rcases hw : w c' with - | ⟨p, x⟩
      · rfl
      · have := (h.held c' p).mpr (by simp [hw])
        simp [hfree] at this
    have hcode := h.code c'
    rw [hnone, ht] at hcode
    rw [← ht, Function.update_self, wp_bind, hnone, ht]
    have hme : (k.thread c).me = none := by rw [← ht]; rfl
    rw [hme]
    refine stamping_kerneltrap ?_
    exact (wp_bind _ _).mpr (stamping_issue (by simp [stamping]) fun _ => hcode)
  · rw [Function.update_of_ne ht]
    exact h.code c'

/-- An instruction of a process. -/
theorem process (h : Stamped P k ℓ V s log w) (hb : Base k V tr σ) (hme : k.running c = some q)
    {next : Answer i → Code Int} (hcode : k.code (k.thread c) = .instr i next)
    (hpre : instrPre (k.running c) i (V (k.thread c))) (hex : execute k c e i = some (k', r))
    (htick : i = .tick → k.shared.ticks < 2 ^ 31 - 1)
    (hsteps : ∀ k₁ ℓ₁, Steps P k₁ ℓ₁ k ℓ → Steps P k₁ ℓ₁ (k'.setCode (k.thread c) (next r)) ℓ') :
    Stamped P (k'.setCode (k.thread c) (next r)) ℓ' (viewNext k V c i r) (k.sliced s (.exec c e))
      (log ++ k.prints s (.exec c e)) w := by
  have hissued : k.issued c = some i := by simp [Kernel.issued, hcode]
  have hd : ∀ p, i ≠ .dispatch p := by
    rintro p rfl
    simp [instrPre, hme] at hpre
  have hst := Kernel.not_stamps_of_running hme
  have hne : ∀ c', Thread.cpu c' ≠ k.thread c := fun c' he => by
    rw [Kernel.thread_eq_proc.mpr hme] at he
    simp at he
  rw [Kernel.sliced_quiet hst (by simpa [hissued] using hd), Kernel.prints_quiet hst,
    List.append_nil]
  have hborn : ∀ c' p, (s c').on = some p → (k'.mem.proc p).state.Born := fun c' p hp =>
    born_execute hb hpre hex (h.not_freed hb hpre hp) (h.born c' p hp)
  have hle := ticks_le_execute hex htick
  refine h.next (fun c' => ?_) (fun c' p => ?_) (fun _ _ => Iff.rfl) (fun _ _ => id)
    (fun c' p hp => ?_) hle hborn hsteps
  · rw [Kernel.setCode_code, Function.update_of_ne (hne c'), code_cpu_execute hex]
    exact h.code c'
  · rw [viewNext_cpu, Function.update_of_ne (hne c')]
    exact h.held c' p
  · rw [Kernel.setCode_running] at hp
    by_cases hi : ∃ p, i = .switch p
    · obtain ⟨q', rfl⟩ := hi
      simp only [execute, Option.ite_none_right_eq_some, Option.some.injEq, Prod.mk.injEq] at hex
      obtain ⟨-, rfl, -⟩ := hex
      rw [Kernel.setRunning_running, Function.update_apply] at hp
      split_ifs at hp
      exact hp
    · push Not at hi
      rwa [execute_running hex fun p => ⟨hd p, hi p⟩] at hp

end Stamped

/-! ## The thread of a scheduler -/

/-- The locks of processes that a scheduler holds, when it goes on. -/
theorem stamping_held {w : Stamp} {v : View} (hsane : Sane none v) (hpre : instrPre none i v)
    (hw : stamping.pre i w) (hheld : ∀ p, .proc p ∈ v.held ↔ w.map Prod.fst = some p) (p : Slot) :
    .proc p ∈ (instrNext none i v r).held ↔ (stamping.next i w r).map Prod.fst = some p := by
  cases i with
  | acquire l =>
      cases l with
      | proc q =>
          obtain rfl : w = none := hw
          have hno : .proc p ∉ v.held := by simp [hheld]
          simp [instrNext, stamping, hno, eq_comm]
      | _ => simpa [instrNext, stamping] using hheld p
  | release l =>
      cases l with
      | proc q =>
          obtain ⟨x, rfl, -⟩ := hw
          rw [instrNext, View.drop_held]
          simp only [stamping, Option.map_none, reduceCtorEq, iff_false]
          by_cases hpq : p = q
          · subst hpq
            exact hsane.nodup.not_mem_erase
          · intro hmem
            have := (hheld p).mp (List.mem_of_mem_erase hmem)
            simp [Ne.symm hpq] at this
      | ticks =>
          rw [instrNext, View.drop_held]
          cases w <;> simpa [stamping, List.mem_erase_of_ne] using hheld p
      | _ =>
          rw [instrNext, View.drop_held]
          simpa [stamping, List.mem_erase_of_ne] using hheld p
  | dispatch q =>
      obtain rfl : w = some (q, .stamped) := hw
      rw [held_instrNext (by simp)]
      simpa [stamping] using hheld p
  | _ =>
      rw [held_instrNext (by simp)]
      exact hheld p

namespace Stamped

variable {w : Fin n → Stamp}

/-- Where a scheduler holds the lock of the process it has come so far with. -/
theorem lock (h : Stamped P k ℓ V s log w) (hb : Base k V tr σ) (hme : k.running c = none)
    {x : Phase} (hw : w c = some (p, x)) : k.lock (.proc p) = some c := by
  refine (hb.locking.lock _ c).mpr ?_
  rw [Kernel.thread_eq_cpu.mpr ⟨hme, rfl⟩]
  exact (h.held c p).mpr (by simp [hw])

/-- No other scheduler has a process whose lock a scheduler holds. -/
theorem eq_of_lock (h : Stamped P k ℓ V s log w) (hb : Base k V tr σ) (hme : k.running c = none)
    {x y : Phase} (hw : w c = some (p, x)) (hw' : w c' = some (p, y))
    (hc' : k.running c' = none) : c' = c :=
  Option.some.inj ((h.lock hb hc' hw').symm.trans (h.lock hb hme hw))

/-- A scheduler whose process is on the CPU is not one that goes on. -/
theorem running_of_ne_served (h : Stamped P k ℓ V s log w) {x : Phase} (hw : w c = some (p, x))
    (hx : x ≠ .served) : k.running c = none := by
  rcases hc : k.running c with - | q
  · rfl
  · have := (h.on c q).mp (h.away c q hc)
    rw [hw] at this
    simp_all

section

variable {next : Answer i → Code Int}

/-- An instruction of a scheduler, and the rules for what it does next. -/
theorem own (h : Stamped P k ℓ V s log w) (hb : Base k V tr σ) (hme : k.running c = none)
    (hcode : k.code (k.thread c) = .instr i next)
    (hpre : instrPre (k.running c) i (V (k.thread c))) (hex : execute k c e i = some (k', r)) :
    stamping.pre i (w c) ∧
      (∀ c', stamping.wp ((k'.setCode (k.thread c) (next r)).code (.cpu c')) (fun _ _ => True)
        (Function.update w c (stamping.next i (w c) r) c')) ∧
      ∀ c' p, .proc p ∈ (viewNext k V c i r (.cpu c')).held ↔
        (Function.update w c (stamping.next i (w c) r) c').map Prod.fst = some p := by
  have ht : k.thread c = .cpu c := Kernel.thread_eq_cpu.mpr ⟨hme, rfl⟩
  have hwp := h.code c
  rw [← ht, hcode] at hwp
  have hsane := hb.sane (.cpu c)
  rw [ht, hme] at hpre
  refine ⟨hwp.1, fun c' => ?_, fun c' p => ?_⟩
  · rw [Kernel.setCode_code, ht]
    by_cases hc : c' = c
    · subst hc
      rw [Function.update_self, Function.update_self]
      exact hwp.2 r trivial
    · rw [Function.update_of_ne (by simpa using hc), Function.update_of_ne hc,
        code_cpu_execute hex]
      exact h.code c'
  · rw [viewNext_cpu, ht, hme]
    by_cases hc : c' = c
    · subst hc
      rw [Function.update_self, Function.update_self]
      exact stamping_held hsane hpre hwp.1 (h.held c') p
    · rw [Function.update_of_ne (by simpa using hc), Function.update_of_ne hc]
      exact h.held c' p

/-- A scheduler goes on with something else. -/
theorem quiet (h : Stamped P k ℓ V s log w) (hb : Base k V tr σ) (hme : k.running c = none)
    (hcode : k.code (k.thread c) = .instr i next)
    (hpre : instrPre (k.running c) i (V (k.thread c))) (hex : execute k c e i = some (k', r))
    (hd : ∀ p, i ≠ .dispatch p) (hst : ¬k.Stamps c)
    (htick : i = .tick → k.shared.ticks < 2 ^ 31 - 1)
    (hsteps : ∀ k₁ ℓ₁, Steps P k₁ ℓ₁ k ℓ → Steps P k₁ ℓ₁ (k'.setCode (k.thread c) (next r)) ℓ') :
    Stamped P (k'.setCode (k.thread c) (next r)) ℓ' (viewNext k V c i r) (k.sliced s (.exec c e))
      (log ++ k.prints s (.exec c e)) (Function.update w c (stamping.next i (w c) r)) := by
  obtain ⟨hw, hcode', hheld⟩ := h.own hb hme hcode hpre hex
  have hissued : k.issued c = some i := by simp [Kernel.issued, hcode]
  have hborn : ∀ c' p, (s c').on = some p → (k'.mem.proc p).state.Born := fun c' p hp =>
    born_execute hb hpre hex (h.not_freed hb hpre hp) (h.born c' p hp)
  have hle := ticks_le_execute hex htick
  have hrunning : k'.running = k.running := by
    refine execute_running hex fun p => ⟨hd p, ?_⟩
    rintro rfl
    simp [instrPre, hme] at hpre
  -- what it does not stamp it does not hold
  have hphase : stamping.next i (w c) r = w c ∨ (∃ p, stamping.next i (w c) r = some (p, .locked)) ∧
      w c = none ∨ stamping.next i (w c) r = none ∧ ∀ p, w c ≠ some (p, .served) := by
    cases i with
    | acquire l =>
        cases l with
        | proc p => exact .inr (.inl ⟨⟨p, rfl⟩, hw⟩)
        | _ => exact .inl rfl
    | release l =>
        cases l with
        | proc p =>
            obtain ⟨x, hx, hne⟩ := hw
            refine .inr (.inr ⟨rfl, fun q hq => hne ?_⟩)
            rw [hx] at hq
            exact congrArg Prod.snd (Option.some.inj hq)
        | ticks =>
            rcases hwc : w c with - | ⟨p, x⟩
            · exact .inl rfl
            · exact absurd ⟨hme, Kernel.issues_iff.mpr hissued, p, h.lock hb hme hwc⟩ hst
        | _ => exact .inl rfl
    | dispatch p => exact absurd rfl (hd p)
    | _ => exact .inl rfl
  have hsame : ∀ c' p x, x = .served ∨ x = .stamped →
      Function.update w c (stamping.next i (w c) r) c' = some (p, x) → w c' = some (p, x) := by
    intro c' p x hx hwx
    by_cases hc : c' = c
    · subst hc
      rw [Function.update_self] at hwx
      rcases hphase with heq | ⟨⟨q, hq⟩, -⟩ | ⟨hnone, -⟩
      · rwa [heq] at hwx
      · rw [hq] at hwx
        simp only [Option.some.injEq, Prod.mk.injEq] at hwx
        rcases hx with rfl | rfl <;> simp at hwx
      · simp [hnone] at hwx
    · rwa [Function.update_of_ne hc] at hwx
  rw [Kernel.sliced_quiet hst (by simpa [hissued] using hd), Kernel.prints_quiet hst,
    List.append_nil]
  refine h.next hcode' hheld (fun c' p => ⟨hsame c' p _ (.inl rfl), fun hwp => ?_⟩)
    (fun c' p => hsame c' p _ (.inr rfl)) (fun c' p hp => by rwa [← hrunning]) hle hborn hsteps
  by_cases hc : c' = c
  · subst hc
    rw [Function.update_self]
    rcases hphase with heq | ⟨-, hnone⟩ | ⟨-, hno⟩
    · rwa [heq]
    · simp [hnone] at hwp
    · exact absurd hwp (hno p)
  · rwa [Function.update_of_ne hc]

/-- A scheduler switches to a process. -/
theorem dispatch (h : Stamped P k ℓ V s log w) (hb : Base k V tr σ) (hme : k.running c = none)
    {next : Unit → Code Int} {r : Unit} (hcode : k.code (k.thread c) = .instr (.dispatch p) next)
    (hpre : instrPre (k.running c) (.dispatch p) (V (k.thread c)))
    (hex : execute k c e (.dispatch p) = some (k', r))
    (hsteps : ∀ k₁ ℓ₁, Steps P k₁ ℓ₁ k ℓ → Steps P k₁ ℓ₁ (k'.setCode (k.thread c) (next r)) ℓ') :
    Stamped P (k'.setCode (k.thread c) (next r)) ℓ' (viewNext k V c (.dispatch p) r)
      (k.sliced s (.exec c e)) (log ++ k.prints s (.exec c e))
      (Function.update w c (some (p, .served))) := by
  obtain ⟨hw, hcode', hheld⟩ := h.own hb hme hcode hpre hex
  replace hw : w c = some (p, .stamped) := hw
  have hissued : k.issued c = some (.dispatch p) := by simp [Kernel.issued, hcode]
  have hst : ¬k.Stamps c := by
    rintro ⟨-, hi, -⟩
    simp [Kernel.issues_iff, hissued] at hi
  have ht : k.thread c = .cpu c := Kernel.thread_eq_cpu.mpr ⟨hme, rfl⟩
  have hret : (V (.cpu c)).retrieved = some p := ht ▸ hpre.2.2.1
  have hheld' : .proc p ∈ (V (k.thread c)).held := by simp [hpre.2.1]
  have hs : k.sliced s (.exec c e) = Function.update s c { s c with on := some p } := by
    simp [Kernel.sliced, Kernel.slicing, hissued]
  have hborn : ∀ q, (k.mem.proc q).state.Born → (k'.mem.proc q).state.Born := fun q hq =>
    born_execute hb hpre hex (by simp) hq
  have hother : ∀ c', c' ≠ c → (s c').on ≠ some p := by
    intro c' hc hon
    rcases hc' : k.running c' with - | q
    · exact hc (h.eq_of_lock hb hme hw ((h.on c' p).mp hon) hc')
    · obtain rfl : q = p := Option.some.inj ((h.away c' q hc').symm.trans hon)
      exact hb.not_running_of_retrieved hme hheld' hret c' hc'
  simp only [execute, Option.some.injEq, Prod.mk.injEq] at hex
  obtain ⟨rfl, -⟩ := hex
  rw [hs, Kernel.prints_quiet hst, List.append_nil]
  refine ⟨hcode', hheld, fun c' q => ?_, fun c' q hq => ?_, fun c₁ c₂ q h1 h2 => ?_,
    fun c' q hq => ?_, fun c' q hq => ?_, h.slice, h.order, h.pids, fun x hx => ?_⟩
  · by_cases hc : c' = c
    · subst hc
      simp
    · rw [Function.update_of_ne hc, Function.update_of_ne hc]
      exact h.on c' q
  · rw [Kernel.setCode_running, Kernel.setRunning_running] at hq
    by_cases hc : c' = c
    · subst hc
      simpa using hq
    · rw [Function.update_of_ne hc] at hq ⊢
      exact h.away c' q hq
  · by_cases hc₁ : c₁ = c <;> by_cases hc₂ : c₂ = c
    · rw [hc₁, hc₂]
    · subst hc₁
      rw [Function.update_self, Option.some.injEq] at h1
      rw [Function.update_of_ne hc₂] at h2
      exact absurd (h1 ▸ h2) (hother c₂ hc₂)
    · subst hc₂
      rw [Function.update_self, Option.some.injEq] at h2
      rw [Function.update_of_ne hc₁] at h1
      exact absurd (h2 ▸ h1) (hother c₁ hc₁)
    · rw [Function.update_of_ne hc₁] at h1
      rw [Function.update_of_ne hc₂] at h2
      exact h.one c₁ c₂ q h1 h2
  · by_cases hc : c' = c
    · subst hc
      rw [Function.update_self, Option.some.injEq] at hq
      subst hq
      exact hborn p (by simp [ProcState.Born, hb.runnable_of_retrieved hret])
    · rw [Function.update_of_ne hc] at hq
      exact hborn q (h.born c' q hq)
  · by_cases hc : c' = c
    · subst hc
      rw [Function.update_self] at hq ⊢
      obtain rfl : p = q := by simpa using hq
      exact h.start c' p (.inl hw)
    · rw [Function.update_of_ne hc] at hq ⊢
      exact h.start c' q hq
  · obtain ⟨k₁, ℓ₁, hrun, hname, hst⟩ := h.named x hx
    exact ⟨k₁, ℓ₁, hrun, hname, hsteps k₁ ℓ₁ hst⟩

/-- A scheduler reads `ticks`, and may print. -/
theorem stamps (h : Stamped P k ℓ V s log w) (hb : Base k V tr σ)
    (hfew : FewPids P) (hrun : RunWhere P k ℓ)
    (hst : k.Stamps c) {next : Unit → Code Int} {r : Unit}
    (hcode : k.code (k.thread c) = .instr (.release .ticks) next)
    (hpre : instrPre (k.running c) (.release .ticks) (V (k.thread c)))
    (hex : execute k c e (.release .ticks) = some (k', r)) (hticks : k.shared.ticks < 2 ^ 31)
    (hsteps : ∀ k₁ ℓ₁, Steps P k₁ ℓ₁ k ℓ → Steps P k₁ ℓ₁ (k'.setCode (k.thread c) (next r)) ℓ') :
    Stamped P (k'.setCode (k.thread c) (next r)) ℓ' (viewNext k V c (.release .ticks) r)
      (k.sliced s (.exec c e)) (log ++ k.prints s (.exec c e))
      (Function.update w c ((w c).map fun x => (x.1, x.2.stamp))) := by
  have hme := hst.1
  obtain ⟨-, hcode', hheld⟩ := h.own hb hme hcode hpre hex
  have hissued : k.issued c = some (.release .ticks) := by simp [Kernel.issued, hcode]
  simp only [execute, Option.ite_none_right_eq_some, Option.some.injEq, Prod.mk.injEq] at hex
  obtain ⟨-, rfl, -⟩ := hex
  have hnamed : ∀ x ∈ log, ∃ k₁ ℓ₁, RunWhere P k₁ ℓ₁ ∧ Named k₁.mem x.record.p x.slot ∧
      Steps P k₁ ℓ₁ ((k.drop c .ticks).setCode (k.thread c) (next r)) ℓ' := fun x hx => by
    obtain ⟨k₁, ℓ₁, hrun, hname, hst⟩ := h.named x hx
    exact ⟨k₁, ℓ₁, hrun, hname, hsteps k₁ ℓ₁ hst⟩
  have haway : ∀ c' q, k.running c' = some q → c' ≠ c := by
    rintro c' q hq rfl
    simp [hme] at hq
  have hserved : ∀ q, (w c).map (fun x => (x.1, x.2.stamp)) ≠ some (q, .served) := by
    intro q hq
    obtain ⟨⟨q', x⟩, -, hx⟩ := Option.map_eq_some_iff.mp hq
    cases x <;> simp [Phase.stamp] at hx
  rcases hon : (s c).on with - | p
  · -- the first time
    have hs : k.sliced s (.exec c e) =
        Function.update s c { s c with startTick := k.shared.ticks } := by
      simp [Kernel.sliced, Kernel.slicing, hissued, hst, hon]
    have hlog : k.prints s (.exec c e) = [] := by
      simp [Kernel.prints, Kernel.printed, hst, hon]
    have hsame : ∀ c', (Function.update s c { s c with startTick := k.shared.ticks } c').on =
        (s c').on := fun c' => by
      by_cases hc : c' = c
      · subst hc
        simp
      · rw [Function.update_of_ne hc]
    rw [hs, hlog, List.append_nil]
    refine ⟨hcode', hheld, fun c' q => ?_, fun c' q hq => (hsame c').trans (h.away c' q hq),
      fun c₁ c₂ q h1 h2 => h.one c₁ c₂ q ((hsame c₁).symm.trans h1) ((hsame c₂).symm.trans h2),
      fun c' q hq => h.born c' q ((hsame c').symm.trans hq), fun c' q hq => ?_, h.slice, h.order,
      h.pids, hnamed⟩
    · rw [hsame]
      by_cases hc : c' = c
      · subst hc
        rw [Function.update_self, hon]
        simpa using hserved q
      · rw [Function.update_of_ne hc]
        exact h.on c' q
    · by_cases hc : c' = c
      · subst hc
        rw [Function.update_self]
        exact ⟨le_refl _, fun x hx _ => (h.slice x hx).2.2⟩
      · rw [Function.update_of_ne hc] at hq ⊢
        exact h.start c' q hq
  · -- the second time
    have hw := (h.on c p).mp hon
    have hs : k.sliced s (.exec c e) = Function.update s c { s c with on := none } := by
      simp [Kernel.sliced, Kernel.slicing, hissued, hst, hon]
    obtain ⟨hle, hall⟩ := h.start c p (.inr hw)
    have hlog : k.prints s (.exec c e) =
        [⟨c, p, (k.mem.proc p).pid, (s c).startTick, k.shared.ticks⟩] := by
      have h1 : int32 (s c).startTick = (s c).startTick :=
        int32_of_isInt32 ⟨by omega, by omega⟩
      have h2 : int32 k.shared.ticks = k.shared.ticks := int32_of_isInt32 ⟨by omega, by omega⟩
      simp [Kernel.prints, Kernel.printed, hst, hon, h1, h2]
    have hborn := h.born c p hon
    have hsub : ∀ c' q, (Function.update s c { s c with on := none } c').on = some q →
        c' ≠ c ∧ (s c').on = some q := fun c' q hq => by
      by_cases hc : c' = c
      · subst hc
        simp at hq
      · rw [Function.update_of_ne hc] at hq
        exact ⟨hc, hq⟩
    rw [hs, hlog]
    refine ⟨hcode', hheld, fun c' q => ?_, fun c' q hq => ?_,
      fun c₁ c₂ q h1 h2 => h.one c₁ c₂ q (hsub c₁ q h1).2 (hsub c₂ q h2).2,
      fun c' q hq => h.born c' q (hsub c' q hq).2, fun c' q hq => ?_, fun x hx => ?_,
      List.pairwise_append.mpr ⟨h.order, List.pairwise_singleton _ _, fun x hx y hy => ?_⟩,
      List.pairwise_append.mpr ⟨h.pids, List.pairwise_singleton _ _, fun x hx y hy => ?_⟩,
      fun x hx => ?_⟩
    · by_cases hc : c' = c
      · subst hc
        rw [Function.update_self, Function.update_self]
        simpa using hserved q
      · rw [Function.update_of_ne hc, Function.update_of_ne hc]
        exact h.on c' q
    · rw [Function.update_of_ne (haway c' q hq)]
      exact h.away c' q hq
    · by_cases hc : c' = c
      · subst hc
        rw [Function.update_self, hw] at hq
        simp [Phase.stamp] at hq
      · rw [Function.update_of_ne hc] at hq ⊢
        obtain ⟨hle', hall'⟩ := h.start c' q hq
        refine ⟨hle', fun x hx hcase => ?_⟩
        rcases List.mem_append.mp hx with hx | hx
        · exact hall' x hx hcase
        · obtain rfl := List.mem_singleton.mp hx
          rcases hcase with hcc | hpq
          · exact absurd hcc.symm hc
          · -- nobody else has the process
            obtain rfl : p = q := hpq
            rcases hq with hstamped | hserved'
            · exact absurd (h.eq_of_lock hb hme hw hstamped
                (h.running_of_ne_served hstamped (by simp))) hc
            · exact absurd (h.one c' c p ((h.on c' p).mpr hserved') hon) hc
    · rcases List.mem_append.mp hx with hx | hx
      · exact h.slice x hx
      · obtain rfl := List.mem_singleton.mp hx
        exact ⟨Int.natCast_nonneg _, Int.ofNat_le.mpr hle, le_refl _⟩
    · obtain rfl := List.mem_singleton.mp hy
      exact hall x hx
    · obtain rfl := List.mem_singleton.mp hy
      intro hpid
      obtain ⟨k₁, ℓ₁, hrun₁, hname, hst₁⟩ := h.named x hx
      exact (named_of_steps hfew hrun₁ hst₁ hname ⟨hborn.1, hpid.symm⟩).symm
    · rcases List.mem_append.mp hx with hx | hx
      · exact hnamed x hx
      · obtain rfl := List.mem_singleton.mp hx
        exact ⟨k, ℓ, hrun, ⟨hborn.1, rfl⟩, hsteps k ℓ .refl⟩

end

/-- **Every step keeps the invariant.** -/
theorem step (h : Stamped P k ℓ V s log w)
    (hfew : FewPids P) (hrun : RunWhere P k ℓ)
    (hcore : Core k V false) {mv : Move n} {V' : Thread n → View}
    (hticks : k.shared.ticks < 2 ^ 31)
    (htick : ∀ c e, mv = .exec c e → k.Issues c .tick → k.shared.ticks < 2 ^ 31 - 1)
    (hs : ViewStep k ℓ V mv k' ℓ' V')
    (hsteps : ∀ k₁ ℓ₁, Steps P k₁ ℓ₁ k ℓ → Steps P k₁ ℓ₁ k' ℓ') :
    ∃ w', Stamped P k' ℓ' V' (k.sliced s mv) (log ++ k.prints s mv) w' := by
  obtain ⟨tr, σ, hb⟩ := hcore.base
  cases hs with
  | call hcode => exact ⟨w, h.call hcode hsteps⟩
  | interrupt hi hnoff => exact ⟨w, h.interrupt hcore hnoff hsteps⟩
  | @instr c e i next k₁ r hcode hex =>
      have hpre := hcore.pre hcode
      have htick' : i = .tick → k.shared.ticks < 2 ^ 31 - 1 := by
        rintro rfl
        exact htick c e rfl ⟨next, hcode⟩
      cases hme : k.running c with
      | some q => exact ⟨w, h.process hb hme hcode hpre hex htick' hsteps⟩
      | none =>
          by_cases hd : ∃ p, i = .dispatch p
          · obtain ⟨p, rfl⟩ := hd
            exact ⟨_, h.dispatch hb hme hcode hpre hex hsteps⟩
          · push Not at hd
            by_cases hst : k.Stamps c
            · obtain rfl : i = .release .ticks := by
                obtain ⟨g, hg⟩ := hst.2.1
                rw [hcode] at hg
                exact (Prog.instr.inj hg).1
              exact ⟨_, h.stamps hb hfew hrun hst hcode hpre hex hticks hsteps⟩
            · exact ⟨_, h.quiet hb hme hcode hpre hex hd hst htick' hsteps⟩

end Stamped

/-! ## The log -/

variable {T N : Nat}

/-- `N` pids are no more than there are. -/
theorem fewPids_atMost (hN : N < 2 ^ 31) : FewPids (AtMost (n := n) T N) := by
  intro k ℓ c e hP hi
  have hlt := hP.2 hi
  omega

/-- No pid is given back. -/
theorem Steps.allocs_le {k₀ : Kernel n} {ℓ₀ : Ledger n} (h : Steps P k₀ ℓ₀ k ℓ) :
    ℓ₀.allocs ≤ ℓ.allocs := by
  induction h with
  | refl => exact le_refl _
  | tail _ _ hs ih => exact ih.trans (allocs_le_step hs)

theorem RunWhere.atMost (h : RunWhere (AtMost T N) k ℓ) : k.shared.ticks ≤ T ∧ ℓ.allocs ≤ N := by
  induction h with
  | init => exact ⟨Nat.zero_le _, Nat.zero_le _⟩
  | @tail k k' ℓ ℓ' mv h hP hs ih =>
      obtain ⟨V, hV⟩ := h.traced false
      obtain ⟨V', hstep⟩ := viewStep_of_step hs V
      cases hstep with
      | call => exact ih
      | interrupt =>
          rw [Ledger.recordInterrupt_allocs]
          exact ih
      | @instr c e i next k₁ r hcode hex =>
          constructor
          · show k₁.shared.ticks ≤ T
            by_cases hi : i = .tick
            · subst hi
              have hlt := hP.1 ⟨next, hcode⟩
              rcases ticks_execute hex with heq | heq <;> omega
            · exact (execute_ticks hex hi).trans_le ih.1
          · by_cases hi : i = .nextpid
            · subst hi
              exact hP.2 ⟨next, hcode⟩
            · rw [Ledger.record_allocs hi]
              exact ih.2

theorem Printed.stamped (hT : T < 2 ^ 31) (hN : N < 2 ^ 31) (h : Printed (AtMost T N) k ℓ s log) :
    ∃ V w, Traced (AtMost T N) false k ℓ V ∧ Stamped (AtMost T N) k ℓ V s log w := by
  induction h with
  | init => exact ⟨_, _, .init, stamped_boot⟩
  | @tail k k' ℓ ℓ' s log mv h hP hs ih =>
      obtain ⟨V, w, hV, hw⟩ := ih
      obtain ⟨V', hstep⟩ := viewStep_of_step hs V
      have hle := h.runWhere.atMost.1
      have htick : ∀ c e, mv = .exec c e → k.Issues c .tick → k.shared.ticks < 2 ^ 31 - 1 := by
        rintro c e rfl hi
        have hlt := hP.1 hi
        omega
      obtain ⟨w', hw'⟩ := hw.step (fewPids_atMost hN) h.runWhere (core_traced spared_false hV)
        (by omega) htick hstep fun _ _ hst => hst.tail hP hs
      exact ⟨V', w', hV.tail hP hstep, hw'⟩

/-! ## Runs with their log -/

/-- A state of the machine, with the variables of the schedulers and the log. -/
structure Shown (n : Nat) where
  k : Kernel n
  ℓ : Ledger n
  s : Fin n → Slicing
  log : List (Entry n)

/-- One step, with the log. -/
def Shown.step (T N : Nat) (x : Shown n) (mv : Move n × Thread n × Option Slot) :
    Option (Shown n) :=
  if AtMost T N x.k x.ℓ mv.1 then
    match stepAs x.k x.ℓ mv.2.1 mv.2.2 mv.1 with
    | none => none
    | some (k', ℓ') => some ⟨k', ℓ', x.k.sliced x.s mv.1, x.log ++ x.k.prints x.s mv.1⟩
  else none

theorem Shown.printed {x y : Shown n} {mvs : List (Move n × Thread n × Option Slot)}
    (h : Printed (AtMost T N) x.k x.ℓ x.s x.log) (hs : mvs.foldlM (Shown.step T N) x = some y) :
    Printed (AtMost T N) y.k y.ℓ y.s y.log := by
  induction mvs generalizing x with
  | nil =>
      obtain rfl : x = y := by simpa using hs
      exact h
  | cons mv mvs ih =>
      rw [List.foldlM_cons] at hs
      obtain ⟨x', hx, hs⟩ := Option.bind_eq_some_iff.mp hs
      refine ih ?_ hs
      unfold Shown.step at hx
      split_ifs at hx with hP
      split at hx
      · simp at hx
      · rename_i k' ℓ' hstep
        obtain rfl := Option.some.inj hx
        exact h.tail hP (step_of_stepAs hstep)

/-- Two processes run in turn on the CPU `b`, from one tick to the next. -/
def sliceMoves (a b : Fin 2) : List (Move 2 × Thread 2 × Option Slot) :=
  riseMoves a b ++ bearMoves b ++ clockMoves 197 a ++ relayMoves b 0 1 ++ stretch 3 b (.proc 1) {} ++
  clockMoves 201 a ++ relayMoves b 1 0 ++ stretch 18 b (.proc 0) {} ++ clockMoves 201 a ++
  stretch 18 b (.proc 0) { trap := .syscall (.sleep 1) } ++ stretch 2 b (.cpu b) {}

/-- The three slices on the CPU `b`. -/
def slices (b : Fin 2) : List (Entry 2) := [⟨b, 0, 1, 0, 1⟩, ⟨b, 1, 2, 1, 2⟩, ⟨b, 0, 1, 2, 3⟩]

theorem sliceMoves_spec : ((sliceMoves 0 1).foldlM (Shown.step 3 2)
    ⟨boot 2, Ledger.empty 2, fun _ => ⟨0, none⟩, []⟩).any
      (fun x => x.log = slices 1 ∧ x.k.shared.ticks = 3 ∧ x.ℓ.allocs = 2) = true := by
  decide +kernel

/--
**The log of the schedulers is a history of the machine**, whatever the interleaving of any number
of CPUs: as long as the counters do not overflow, every slice begins before it ends, and ends by
now, its pid has been given out, and the slices of one CPU, like those of one process on whatever
CPUs, follow each other.
-/
theorem chronicle (hT : T < 2 ^ 31) (hN : N < 2 ^ 31) (h : Printed (AtMost T N) k ℓ s log) :
    Chronicle k.shared.ticks ℓ.allocs log := by
  have hfew := fewPids_atMost (n := n) (T := T) hN
  obtain ⟨V, w, hV, hw⟩ := h.stamped hT hN
  refine ⟨fun x hx => ?_, hw.slice, hw.order.imp fun hxy hc => hxy (.inl hc), ?_⟩
  · obtain ⟨k₁, ℓ₁, hrun, hname, hsteps⟩ := hw.named x hx
    obtain ⟨V₁, hV₁⟩ := hrun.traced false
    obtain ⟨hpos, hle⟩ := (pids_traced hfew spared_false hV₁).used x.slot hname.1
    rw [hname.2] at hpos hle
    exact ⟨hpos, hle.trans (by exact_mod_cast hsteps.allocs_le)⟩
  · exact (hw.order.and hw.pids).imp fun hxy hpid => hxy.1 (.inr (hxy.2 hpid))

/-- Three ticks, two processes and three slices. -/
theorem chronicle_first : ∃ (k : Kernel 2) (ℓ : Ledger 2) (s : Fin 2 → Slicing),
    Printed (AtMost 3 2) k ℓ s (slices 1) ∧ Chronicle 3 2 (slices 1) := by
  obtain ⟨x, hx, hspec⟩ := (Option.any_eq_true _ _).mp sliceMoves_spec
  obtain ⟨hlog, hticks, hallocs⟩ := of_decide_eq_true hspec
  have h := Shown.printed .init hx
  rw [hlog] at h
  have hchron := chronicle (by decide) (by decide) h
  rw [hticks, hallocs] at hchron
  exact ⟨x.k, x.ℓ, x.s, h, hchron⟩

/-! ## The chart -/

namespace Chronicle

variable {log shown : List (Entry n)} (h : Chronicle T N log)

include h

theorem mono {T' N' : Nat} (hT : T ≤ T') (hN : N ≤ N') : Chronicle T' N' log := by
  refine ⟨fun x hx => ?_, fun x hx => ?_, h.cpu, h.process⟩
  · obtain ⟨hpos, hle⟩ := h.pid x hx
    exact ⟨hpos, hle.trans (by exact_mod_cast hN)⟩
  · obtain ⟨h0, hle, hfin⟩ := h.slice x hx
    exact ⟨h0, hle, hfin.trans (by exact_mod_cast hT)⟩

theorem sublist (hsub : shown.Sublist log) : Chronicle T N shown :=
  ⟨fun x hx => h.pid x (hsub.subset hx), fun x hx => h.slice x (hsub.subset hx),
    h.cpu.sublist hsub, h.process.sublist hsub⟩

theorem inBounds (hT : T < 1000) (hN : N < 100) : ∀ r ∈ log.map Entry.record, r.InBounds := by
  intro r hr
  obtain ⟨x, hx, rfl⟩ := List.mem_map.mp hr
  obtain ⟨hpos, hle⟩ := h.pid x hx
  obtain ⟨h0, hsf, hfin⟩ := h.slice x hx
  exact ⟨hpos.le, by simp only [Visual.MAX_PROCESSES]; omega, h0, hsf,
    by simp only [Visual.MAX_TIME]; omega⟩

/-- Two slices of one CPU have no tick in common, unless one of them is brief. -/
theorem eq_of_marks {x y : Entry n} {t : Int} (hx : x ∈ log) (hy : y ∈ log) (hc : x.cpu = y.cpu)
    (hxb : ¬x.Brief) (hyb : ¬y.Brief) (hxt : x.record.Marks t) (hyt : y.record.Marks t) :
    x = y := by
  let R (x y : Entry n) : Prop := x.cpu = y.cpu →
    x = y ∨ x.record.finish ≤ y.record.start ∨ y.record.finish ≤ x.record.start
  have hone : log.Pairwise R := h.cpu.imp fun hxy he => .inr (.inl (hxy he))
  have hother : log.Pairwise (flip R) := h.cpu.imp fun hxy he => .inr (.inr (hxy he.symm))
  have hall := hone.forall_of_forall_of_flip (fun x _ _ => .inl rfl) hother
  have hxs : x.record.stop = x.record.finish := if_neg hxb
  have hys : y.record.stop = y.record.finish := if_neg hyb
  obtain ⟨h1, h2⟩ := hxt
  obtain ⟨h3, h4⟩ := hyt
  rcases hall hx hy hc with rfl | hle | hle
  · rfl
  · omega
  · omega

end Chronicle

/--
**The chart shows no more processes at once than there are CPUs**, not counting those with a slice
that began and ended in the tick. It is made of any part of the log, as only the slices of the
benchmarks are printed.
-/
theorem chart_le_cpus (hT : T < 1000) (hN : N < 100) (h : Printed (AtMost T N) k ℓ s log)
    {shown : List (Entry n)} (hsub : shown.Sublist log) :
    ∃ chart, Visual.enterAll Visual.Chart.init (shown.map Entry.record) = .ok chart ∧
      ∀ (t : Int) (ps : Finset Int), (∀ p ∈ ps, chart.active p t = true ∧
        ∀ x ∈ shown, x.record.p = p → x.record.start = t → ¬x.Brief) → ps.card ≤ n := by
  obtain ⟨hticks, hallocs⟩ := h.runWhere.atMost
  have hchron := ((chronicle (by omega) (by omega) h).mono hticks hallocs).sublist hsub
  obtain ⟨chart, hchart, hd⟩ := Visual.enterAll_describes (hchron.inBounds hT hN)
  refine ⟨chart, hchart, fun t ps hps => ?_⟩
  -- every process has a slice, and every slice a CPU
  let Has (p : Int) (c : Fin n) : Prop :=
    ∃ x ∈ shown, x.record.p = p ∧ x.cpu = c ∧ x.record.Marks t ∧ ¬x.Brief
  have hhas : ∀ p ∈ ps, ∃ c ∈ (Finset.univ : Finset (Fin n)), Has p c := by
    intro p hp
    obtain ⟨hactive, hlong⟩ := hps p hp
    obtain ⟨r, hr, hrp, hmarks⟩ := (hd.active p t).mp hactive
    obtain ⟨x, hx, rfl⟩ := List.mem_map.mp hr
    refine ⟨x.cpu, Finset.mem_univ _, x, hx, hrp, rfl, hmarks, fun hbrief => ?_⟩
    obtain ⟨h1, h2⟩ := hmarks
    have hstop : x.record.stop = x.record.finish + 1 := if_pos hbrief
    have hbrief' : x.record.start = x.record.finish := hbrief
    exact hlong x hx hrp (by omega) hbrief
  have hone : ∀ c ∈ (Finset.univ : Finset (Fin n)),
      ({p ∈ ps | Has p c} : Set Int).Subsingleton := by
    rintro c - p ⟨-, x, hx, hxp, hxc, hxt, hxb⟩ q ⟨-, y, hy, hyq, hyc, hyt, hyb⟩
    rw [← hxp, ← hyq, hchron.eq_of_marks hx hy (hxc.trans hyc.symm) hxb hyb hxt hyt]
  simpa using Finset.card_le_card_of_forall_subsingleton Has hhas hone

/-- So it is for the two processes. -/
theorem chart_le_cpus_first :
    ∃ chart, Visual.enterAll Visual.Chart.init ((slices 1).map Entry.record) = .ok chart ∧
      ∀ (t : Int) (ps : Finset Int), (∀ p ∈ ps, chart.active p t = true ∧
        ∀ x ∈ slices 1, x.record.p = p → x.record.start = t → ¬x.Brief) → ps.card ≤ 2 := by
  obtain ⟨x, hx, hspec⟩ := (Option.any_eq_true _ _).mp sliceMoves_spec
  have h := Shown.printed .init hx
  rw [(of_decide_eq_true hspec).1] at h
  exact chart_le_cpus (by decide) (by decide) h (List.Sublist.refl _)

end Xv6Cfs
