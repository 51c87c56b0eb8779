import Mathlib.Data.Fintype.EquivFin
import Xv6Cfs.Proof.Deadlock
import Xv6Cfs.Proof.Frozen
import Xv6Cfs.Proof.Lives
import Xv6Cfs.Proof.Rousing

/-!
# The kernel goes on

No check of the kernel fails. What a thread is about to do it can do, unless it takes a
lock that another CPU holds, or panics; and it panics in `userinit`, or when `initproc`
exits. A process that has exited is not switched to again before `allocproc` has given its
slot a new thread, so that nobody comes back from the last call of `sched`.
-/

namespace Xv6Cfs

open Threads Rules RedBlack

variable {n : Nat} {k k' : Kernel n} {ℓ ℓ' : Ledger n} {V : Thread n → View} {z : Bool}
  {P : Kernel n → Ledger n → Move n → Prop} {c : Fin n} {tr : ColorTree Slot} {σ : Slot → Sit n}
  {p q : Slot} {t : Thread n} {e : Env} {i : Instr} {r : Answer i}

/-! ## What is allowed is possible -/

/-- **An instruction that the rules allow is carried out**, but for a lock that is taken. -/
theorem Base.execute_isSome (hb : Base k V tr σ) (hpre : instrPre (k.running c) i (V (k.thread c)))
    (e : Env) : (execute k c e i).isSome ∨ (∃ l c', i = .acquire l ∧ k.lock l = some c' ∧ c' ≠ c) ∨
      i = .panic := by
  cases i with
  | acquire l =>
      cases hl : k.lock l with
      | none => exact .inl (by simp [execute, hl])
      | some c' =>
          refine .inr (.inl ⟨l, c', rfl, hl, ?_⟩)
          rintro rfl
          exact hpre.1.not_mem ((hb.locking.lock l c').mp hl)
  | release l =>
      have hl := (hb.locking.lock l c).mpr hpre.held
      exact .inl (by simp [execute, hl])
  | insert p =>
      obtain ⟨l, -, -, -, hσ⟩ := hb.sits.pending_head hpre.2
      have hst : (k.mem.proc p).state = .runnable := by
        have := hb.sits.fits p
        rwa [hσ] at this
      obtain ⟨m', tr', hrun, -⟩ := hb.queue.insert (hb.sits.not_queued (by simp [hσ])) hst
      exact .inl (by simp [execute, hrun])
  | retrieve =>
      rcases hb.queue.retrieve with ⟨-, hrun⟩ | ⟨p, m', tr', hrun, -⟩ <;>
        exact .inl (by simp [execute, hrun])
  | switch p =>
      obtain ⟨hme, hheld, hoff, -⟩ := hpre
      have hl : k.lock (.proc p) = some c := (hb.locking.lock _ c).mpr (by simp [hheld])
      have hnoff : k.noff c = 1 := by rw [hb.locking.noff, hheld]; rfl
      have hst : (k.mem.proc p).state ≠ .running := by
        intro hst
        have hfit := hb.sits.fits p
        cases hσ : σ p with
        | running c' =>
            have hon := ((hb.sits.running c' p).mpr hσ).2
            rw [← Kernel.thread_eq_proc.mpr hme, hoff] at hon
            simp at hon
        | _ => simp [hσ, hst, Sit.Fits] at hfit
      exact .inl (by simp [execute, hl, hnoff, hst])
  | panic => exact .inr (.inr rfl)
  | _ => exact .inl rfl

/-! ## Slots without a process to run -/

/-- A thread begins to set up a process in `allocproc`. -/
theorem made_execute (hb : Base k V tr σ) (hpre : instrPre (k.running c) i (V (k.thread c)))
    (h : Made (viewNext k V c i r) q) : Made V q ∨ i = .init q := by
  by_cases hw : ∃ p w, i = .write p w
  · obtain ⟨p, w, rfl⟩ := hw
    rw [viewNext_of_ne (by simp)] at h
    by_cases hq : q = p
    · subst hq
      have hmade := (made_write_self hb hpre).mp h
      cases w <;> first | exact .inl hmade | exact hmade.elim
    · exact .inl ((made_write_ne hpre hq).mp h)
  push Not at hw
  obtain ⟨t, g, hmem, hg⟩ := h
  revert hmem
  refine viewNext_cases (fun v => (q, g) ∈ v.created → _) (fun ht hmem => ?_)
    (fun _ hmem => .inl ⟨t, g, hmem, hg⟩) fun p root _ _ hmem => by simp [View.resumed] at hmem
  cases i with
  | write p w => exact absurd rfl (hw p w)
  | acquire l | release l => exact .inl ⟨t, g, by simpa [instrNext] using hmem, hg⟩
  | stateIs p st | pidIs p x =>
      simp only [instrNext] at hmem
      split_ifs at hmem <;> exact .inl ⟨t, g, hmem, hg⟩
  | init p =>
      simp only [instrNext, List.mem_cons, Prod.mk.injEq] at hmem
      rcases hmem with ⟨rfl, -⟩ | hmem
      · exact .inr rfl
      · exact .inl ⟨t, g, List.mem_of_mem_tail hmem, hg⟩
  | initproc p =>
      obtain ⟨l, hl⟩ := List.head?_eq_some_iff.mp hpre.2.2
      rw [← ht] at hl
      simp only [instrNext, List.mem_cons, Prod.mk.injEq] at hmem
      rcases hmem with ⟨rfl, -⟩ | hmem
      · exact .inl ⟨t, .initialised, by simp [hl], by simp⟩
      · exact .inl ⟨t, g, List.mem_of_mem_tail hmem, hg⟩
  | _ => exact .inl ⟨t, g, hmem, hg⟩

/-- No CPU runs `p`, and none will before `allocproc` has set its thread up. -/
structure Gone (k : Kernel n) (V : Thread n → View) (p : Slot) : Prop where
  absent : ∀ c, k.running c ≠ some p
  state : (k.mem.proc p).state.Dead
  made : ¬Made V p

/-- A zombie stays one while nobody writes to it who holds its lock. -/
theorem zombie_stays (hb : Base k V tr σ) (hpre : instrPre (k.running c) i (V (k.thread c)))
    (hex : execute k c e i = some (k', r)) (hz : (k.mem.proc p).state = .zombie)
    (hw : ∀ w, i = .write p w → .proc p ∉ (V (k.thread c)).held) :
    (k'.mem.proc p).state = .zombie := by
  rcases proc_execute hb hpre hex p with hsame | ⟨w, rfl, happly⟩ | ⟨⟨-, hst⟩, -⟩
  · exact (congrArg (·.1.1) hsame).trans hz
  · rw [happly]
    cases w with
    | fold | sleep | ready | free => exact absurd hpre.1 (hw _ rfl)
    | used => exact absurd hpre.1.1 (hw _ rfl)
    | exit => rfl
    | _ => exact hz
  · simp [hz] at hst

namespace Gone

theorem execute (h : Gone k V p) (hb : Base k V tr σ)
    (hpre : instrPre (k.running c) i (V (k.thread c))) (hex : execute k c e i = some (k', r))
    (hi : i ≠ .init p) : Gone k' (viewNext k V c i r) p := by
  have hnot : ¬(k.mem.proc p).state = .runnable := by
    rcases h.state with hst | hst | hst <;> simp [hst]
  refine ⟨fun c' => ?_, ?_, fun hm => (made_execute hb hpre hm).elim h.made hi⟩
  · cases i with
    | dispatch q =>
        have hq := hb.runnable_of_retrieved (Kernel.thread_eq_cpu.mpr ⟨hpre.1, rfl⟩ ▸ hpre.2.2.1)
        simp only [Xv6Cfs.execute, Option.some.injEq, Prod.mk.injEq] at hex
        obtain ⟨rfl, -⟩ := hex
        rw [Kernel.setRunning_running, Function.update_apply]
        split_ifs
        · rintro he
          exact hnot (Option.some.inj he ▸ hq)
        · exact h.absent c'
    | switch q =>
        simp only [Xv6Cfs.execute, Option.ite_none_right_eq_some, Option.some.injEq,
          Prod.mk.injEq] at hex
        obtain ⟨-, rfl, -⟩ := hex
        rw [Kernel.setRunning_running, Function.update_apply]
        split_ifs
        · simp
        · exact h.absent c'
    | _ =>
        rw [execute_running hex (by simp)]
        exact h.absent c'
  · rcases proc_execute hb hpre hex p with hsame | ⟨w, rfl, happly⟩ | ⟨⟨-, hst⟩, -⟩
    · have hst : (k'.mem.proc p).state = (k.mem.proc p).state := congrArg (·.1.1) hsame
      rw [hst]
      exact h.state
    · rw [happly]
      have hmine : k.running c ≠ some p := h.absent c
      cases w with
      | fold =>
          obtain ⟨-, -, -, hseen | ⟨hme, -⟩⟩ := hpre
          · have := h.state
            simp [hb.sits.seen c p _ hseen, ProcState.Dead] at this
          · exact absurd hme hmine
      | sleep => exact absurd hpre.2.2.1 hmine
      | exit => exact absurd hpre.1.2.2.1 hmine
      | ready =>
          obtain ⟨l, hl⟩ := List.head?_eq_some_iff.mp hpre.2.2
          exact absurd ⟨_, _, by rw [hl]; exact List.mem_cons_self, by simp⟩ h.made
      | used | free => simp [Write.apply, ProcState.Dead]
      | _ => exact h.state
    · exact absurd hst hnot

end Gone

/-! ## What every thread has behind it -/

/-- The thread knows the same `initproc` all its life. -/
theorem root_instrNext (me : Option Slot) (i : Instr) (v : View) (r : Answer i) :
    (instrNext me i v r).root = v.root := by
  cases i with
  | acquire l | release l => simp [instrNext]
  | stateIs p st | pidIs p x =>
      simp only [instrNext]
      split_ifs <;> rfl
  | write p w => cases w <;> rfl
  | _ => rfl

theorem starting_instrNext (me : Option Slot) (v : View) (hi : ∀ p, i ≠ .initproc p) :
    (instrNext me i v r).starting = v.starting := by
  cases i with
  | initproc p => exact absurd rfl (hi p)
  | acquire l | release l => simp [instrNext]
  | stateIs p st | pidIs p x =>
      simp only [instrNext]
      split_ifs <;> rfl
  | write p w => cases w <;> rfl
  | _ => rfl

theorem on_instrNext (me : Option Slot) (v : View) (hwrite : ∀ p w, i ≠ .write p w)
    (hswitch : ∀ p, i ≠ .switch p) : (instrNext me i v r).on = v.on := by
  cases i with
  | write p w => exact absurd rfl (hwrite p w)
  | switch p => exact absurd rfl (hswitch p)
  | acquire l | release l => simp [instrNext]
  | stateIs p st | pidIs p x =>
      simp only [instrNext]
      split_ifs <;> rfl
  | _ => rfl

namespace Life

variable {s : Life}

/-- The view of the thread and its process agree with what it has behind it. -/
def At (k : Kernel n) (V : Thread n → View) (t : Thread n) : Life → Prop
  | .starting => (V t).starting = true
  | .alive => True
  | .exited => (V t).on = false ∧ ∃ p, t = .proc p ∧ (k.mem.proc p).state = .zombie
  | .done => ∃ p, t = .proc p ∧ Gone k V p

theorem At.congr (h : s.At k V t) (hmem : k'.mem = k.mem) (hrunning : k'.running = k.running) :
    s.At k' V t := by
  cases s with
  | done =>
      obtain ⟨p, hp, hgone⟩ := h
      exact ⟨p, hp, fun c' => hrunning ▸ hgone.absent c', hmem ▸ hgone.state, hgone.made⟩
  | exited =>
      obtain ⟨hoff, p, hp, hz⟩ := h
      exact ⟨hoff, p, hp, by rwa [hmem]⟩
  | _ => exact h

/-- Who is on a CPU is not done. -/
theorem At.ne_done (h : s.At k V (k.thread c)) : s ≠ .done := by
  rintro rfl
  obtain ⟨p, hp, hgone⟩ := h
  exact hgone.absent c (Kernel.thread_eq_proc.mp hp)

/-- **A thread goes on.** -/
theorem At.next (h : s.At k V (k.thread c)) (hb : Base k V tr σ)
    (hpre : instrPre (k.running c) i (V (k.thread c))) (hex : execute k c e i = some (k', r))
    {me : Option Slot} {root : Slot} (hlives : (lives me root).pre i s) :
    ((lives me root).next i s r).At k' (viewNext k V c i r) (k.thread c) := by
  have hself := hb.viewNext_self (r := r) hpre
  cases s with
  | done => exact absurd rfl h.ne_done
  | starting =>
      by_cases hi : ∃ p, i = .initproc p
      · obtain ⟨p, rfl⟩ := hi
        trivial
      · push Not at hi
        have hsame : (lives me root).next i .starting r = .starting := by
          cases i <;> first | rfl | exact absurd rfl (hi _)
        rw [hsame, At, hself, starting_instrNext _ _ hi]
        exact h
  | alive =>
      by_cases hi : ∃ p status, i = .write p (.exit status)
      · obtain ⟨p, status, rfl⟩ := hi
        simp only [execute, Option.some.injEq, Prod.mk.injEq] at hex
        obtain ⟨rfl, -⟩ := hex
        refine ⟨by rw [hself]; rfl, p, Kernel.thread_eq_proc.mpr hpre.1.2.2.1, ?_⟩
        rw [Kernel.setMem_mem, Mem.modify_self]
        rfl
      · push Not at hi
        have hsame : (lives me root).next i .alive r = .alive := by
          cases i with
          | write p w => cases w <;> first | rfl | exact absurd rfl (hi _ _)
          | _ => rfl
        rw [hsame]
        trivial
  | exited =>
      obtain ⟨hoff, p, hp, hz⟩ := h
      have hstays := zombie_stays hb hpre hex hz fun w hw => absurd hw (hlives.2 p w)
      by_cases hi : ∃ q, i = .switch q
      · -- It has switched for the last time.
        obtain ⟨q, rfl⟩ := hi
        obtain rfl : p = q :=
          Option.some.inj ((Kernel.thread_eq_proc.mp hp).symm.trans hpre.1)
        refine ⟨p, hp, fun c' => ?_, .inr (.inr hstays), fun hm => ?_⟩
        · simp only [execute, Option.ite_none_right_eq_some, Option.some.injEq,
            Prod.mk.injEq] at hex
          obtain ⟨-, rfl, -⟩ := hex
          rw [Kernel.setRunning_running, Function.update_apply]
          split_ifs with hc
          · simp
          · exact fun hc' => hc (hb.locking.running c' c p hc' hpre.1)
        · rcases made_execute hb hpre hm with hm | hm
          · simp [hb.used_of_made hm] at hz
          · simp at hm
      · push Not at hi
        have hsame : (lives me root).next i .exited r = .exited := by
          cases i <;> first | rfl | exact absurd rfl (hi _)
        rw [hsame]
        exact ⟨by rw [hself, on_instrNext _ _ hlives.2 hi, hoff], p, hp, hstays⟩

/-- **The other threads wait.** -/
theorem At.other (h : s.At k V t) (ht : t ≠ k.thread c) (hb : Base k V tr σ)
    (hpre : instrPre (k.running c) i (V (k.thread c))) (hex : execute k c e i = some (k', r))
    (hi : ∀ p, i = .init p → t ≠ .proc p) : s.At k' (viewNext k V c i r) t := by
  have hview : viewNext k V c i r t = V t :=
    viewNext_cases (fun v => v = V t) (fun e => absurd e ht) (fun _ => rfl)
      fun p root hp e => absurd e (hi p hp)
  cases s with
  | starting => rwa [At, hview]
  | alive => trivial
  | exited =>
      obtain ⟨hoff, p, rfl, hz⟩ := h
      refine ⟨by rw [hview, hoff], p, rfl, zombie_stays hb hpre hex hz fun w _ hheld => ?_⟩
      -- Its lock is held by itself.
      obtain ⟨q, hq, hown⟩ := (hb.sane (.proc p)).on hoff
      obtain rfl : p = q := Option.some.inj hq
      have hcpu : ∃ c', k.running c' = some p := by
        by_contra hno
        push Not at hno
        simp [(hb.locking.parked p hno).on] at hoff
      obtain ⟨c', hc'⟩ := hcpu
      have hthread := Kernel.thread_eq_proc.mpr hc'
      obtain rfl := hb.locking.exclusive (hthread ▸ hown) hheld
      exact ht hthread.symm
  | done =>
      obtain ⟨p, rfl, hgone⟩ := h
      exact ⟨p, rfl, hgone.execute hb hpre hex fun e => hi p e rfl⟩

end Life

/-- Every thread has something behind it that fits what it has still to do. -/
def Living (k : Kernel n) (V : Thread n → View) : Prop :=
  ∀ t, ∃ s : Life, (lives t.me (V t).root).wp (k.code t) (fun _ s => s = .done) s ∧ s.At k V t

theorem living_boot (n : Nat) (z : Bool) : Living (boot n) (bootView z) := by
  intro t
  obtain ⟨s, hs, hwp⟩ := @lives_boot (bootView z t).root n t
  refine ⟨s, hwp, ?_⟩
  rcases hs with rfl | ⟨rfl, c, rfl, hc⟩
  · trivial
  · simp [Life.At, bootView, hc]

namespace Living

/-- The thread of the CPU `c` has still to do `x` instead. -/
theorem setCode (h : Living k V) {x : Code Int}
    (hx : ∀ s : Life, s.At k V (k.thread c) →
      (lives (k.running c) (V (k.thread c)).root).wp (k.code (k.thread c))
        (fun _ s => s = .done) s →
      (lives (k.running c) (V (k.thread c)).root).wp x (fun _ s => s = .done) s)
    (hmem : k'.mem = k.mem) (hrunning : k'.running = k.running)
    (hcode : k'.code = Function.update k.code (k.thread c) x) : Living k' V := by
  intro t
  obtain ⟨s, hwp, hat⟩ := h t
  refine ⟨s, ?_, ?_⟩
  · rw [hcode]
    by_cases ht : t = k.thread c
    · subst ht
      rw [Function.update_self, Kernel.thread_me]
      rw [Kernel.thread_me] at hwp
      exact hx s hat hwp
    · rwa [Function.update_of_ne ht]
  · exact hat.congr hmem hrunning

theorem step (h : Living k V) (hcore : Core k V false) {mv : Move n} {V' : Thread n → View}
    (hs : ViewStep k ℓ V mv k' ℓ' V') : Living k' V' := by
  obtain ⟨tr, σ, hb⟩ := hcore.base
  cases hs with
  | call hcode =>
      refine h.setCode (fun s _ hwp => ?_) rfl rfl rfl
      rw [hcode] at hwp
      exact lives_sound.unfold hwp
  | @interrupt c i hintr hnoff =>
      refine h.setCode (fun s hat hwp => ?_) rfl rfl rfl
      -- A thread that holds no lock has not exited.
      have hon := (hcore.free hnoff).on
      have hs : s = .starting ∨ s = .alive := by
        cases s with
        | starting => exact .inl rfl
        | alive => exact .inr rfl
        | exited => simp [hat.1] at hon
        | done => exact absurd rfl hat.ne_done
      rw [Kernel.thread_me, wp_bind]
      refine lives_of_plain hs (plain_kerneltrap ?_)
      rcases hs with rfl | rfl <;> exact ⟨by simp [lives], fun _ _ => hwp⟩
  | @instr c e i next k₁ r hcode hex =>
      have hpre := hcore.pre hcode
      have hcan := hb.can (r := r) (fun hv => by simp [hcore.nozero] at hv) hex
      intro t
      obtain ⟨s, hwp, hat⟩ := h t
      by_cases ht : t = k.thread c
      · subst ht
        rw [hcode] at hwp
        refine ⟨(lives (k.thread c).me (V (k.thread c)).root).next i s r, ?_, ?_⟩
        · rw [hb.viewNext_self hpre, root_instrNext, Kernel.setCode_code, Function.update_self]
          refine hwp.2 r ?_
          cases i with
          | shared => exact fun _ hme => hcan (by rwa [← Kernel.thread_me])
          | _ => trivial
        · exact (hat.next hb hpre hex hwp.1).congr rfl rfl
      · rw [Kernel.setCode_code, Function.update_of_ne ht]
        by_cases hi : ∃ p, i = .init p ∧ t = .proc p
        · obtain ⟨p, rfl, rfl⟩ := hi
          simp only [execute, Option.some.injEq, Prod.mk.injEq] at hex
          obtain ⟨rfl, -⟩ := hex
          rw [Kernel.setCode_code, Function.update_self]
          exact ⟨.alive, lives_forkret, trivial⟩
        · push Not at hi
          have hcode' : k₁.code t = k.code t := by
            cases i with
            | init p =>
                simp only [execute, Option.some.injEq, Prod.mk.injEq] at hex
                obtain ⟨rfl, -⟩ := hex
                rw [Kernel.setCode_code, Function.update_of_ne (hi p rfl)]
                rfl
            | _ => rw [execute_code hex (by simp)]
          have hroot : (viewNext k V c i r t).root = (V t).root :=
            viewNext_cases (fun v => v.root = (V t).root) (fun e => absurd e ht) (fun _ => rfl)
              fun p root hp e => absurd e (hi p hp)
          rw [hroot, hcode']
          exact ⟨s, hwp, (hat.other ht hb hpre hex hi).congr rfl rfl⟩

end Living

theorem living_traced (h : Traced (fun _ _ _ => True) false k ℓ V) : Living k V := by
  induction h with
  | init => exact living_boot n false
  | tail hV _ hs ih => exact ih.step (core_traced spared_false hV) hs

/-- Who is about to panic is the first CPU in `userinit`, or `initproc` in `exit`. -/
theorem Living.panic (h : Living k V) (hb : Base k V tr σ) (hp : k.Issues c .panic) :
    k.shared.initproc = none ∧ k.running c = none ∧ c.val = 0 ∨
      ∃ p, k.running c = some p ∧ k.shared.initproc = some p := by
  obtain ⟨next, hcode⟩ := hp
  obtain ⟨s, hwp, hat⟩ := h (k.thread c)
  rw [hcode, Kernel.thread_me] at hwp
  cases s with
  | starting =>
      obtain ⟨hnone, c', hc', hfirst⟩ := hb.ancestry.starting _ hat
      obtain ⟨hme, rfl⟩ := Kernel.thread_eq_cpu.mp hc'
      exact .inl ⟨hnone, hme, hfirst⟩
  | alive =>
      have hme := hwp.1 rfl
      refine .inr ⟨_, hme, ?_⟩
      rw [Kernel.thread_eq_proc.mpr hme] at hme ⊢
      exact hb.ancestry.root _ (hb.sits.born_of_running hme)
  | exited => exact absurd rfl hwp.1.1
  | done => exact absurd rfl hat.ne_done

/-- **The kernel goes on.** A CPU that cannot make a step spins for a lock that another CPU holds,
or panics where it is meant to. -/
theorem goesOn {k : Kernel n} {ℓ : Ledger n} (h : Run k ℓ) : GoesOn k := by
  obtain ⟨V, hV⟩ := h.traced false
  have hcore := core_traced spared_false hV
  have hliving := living_traced hV
  obtain ⟨tr, σ, hb⟩ := hcore.base
  refine ⟨fun c => ?_, fun c => hliving.panic hb⟩
  cases hcode : k.code (k.thread c) with
  | ret a =>
      -- Only who is done has nothing left to do.
      obtain ⟨s, hwp, hat⟩ := hliving (k.thread c)
      rw [hcode] at hwp
      exact absurd hwp hat.ne_done
  | call f next => exact .inl fun ℓ e => by simp [step, hcode]
  | instr i next =>
      by_cases hall : ∀ e, (execute k c e i).isSome
      · refine .inl fun ℓ e => ?_
        obtain ⟨x, hx⟩ := Option.isSome_iff_exists.mp (hall e)
        simp [step, hcode, hx]
      · push Not at hall
        obtain ⟨e, he⟩ := hall
        rcases hb.execute_isSome (hcore.pre hcode) e with hsome | ⟨l, c', rfl, hl, hne⟩ | rfl
        · exact absurd hsome he
        · exact .inr (.inl ⟨c', hne, l, ⟨next, hcode⟩, hl⟩)
        · exact .inr (.inr ⟨next, hcode⟩)

/-- **Whoever spins waits for a CPU that goes on**, through others perhaps: unless somebody panics,
or the machine is in the race for `tickslock`. -/
theorem leadsOn {k : Kernel n} {ℓ : Ledger n} (h : Run k ℓ) (hrace : ¬TickRace k ℓ) (c : Fin n) :
    ∃ c', Relation.ReflTransGen k.WaitsFor c c' ∧ (k.Ready c' ∨ k.Issues c' .panic) := by
  obtain ⟨c', hpath, hlast⟩ :=
    exists_last_of_not_cyclic (fun hd => hrace (h.tickRace_of_deadlocked hd)) c
  refine ⟨c', hpath, ?_⟩
  rcases (goesOn h).next c' with hready | ⟨c'', -, hwaits⟩ | hpanic
  · exact .inl hready
  · exact absurd hwaits (hlast c'')
  · exact .inr hpanic

/-- On the CPUs `a` and `b` of three: `a` inserts the first process, and `b` spins for
`tree.lock`. -/
def spinMoves (a b : Fin 3) : List (Move 3 × Thread 3 × Option Slot) :=
  stretch 13 a (.cpu a) {} ++ stretch 2 b (.cpu b) {}

theorem spinMoves_spec : (execAs (boot 3, Ledger.empty 3) (spinMoves 0 1)).any (fun s =>
    s.1.wants 1 = some .tree ∧ s.1.lock .tree = some 0 ∧ s.1.lock .ticks = none) := by
  decide +kernel

theorem goesOn_first : ∃ k : Kernel 3, k.WaitsFor 1 0 ∧ GoesOn k := by
  obtain ⟨s, hs, hspec⟩ := (Option.any_eq_true _ _).mp spinMoves_spec
  obtain ⟨hwants, hlock, -⟩ := of_decide_eq_true hspec
  exact ⟨s.1, ⟨.tree, Kernel.issues_of_wants hwants, hlock⟩, goesOn (run_execAs .init hs)⟩

theorem leadsOn_first : ∃ k : Kernel 3, k.WaitsFor 1 0 ∧
    ∃ c, Relation.ReflTransGen k.WaitsFor 1 c ∧ (k.Ready c ∨ k.Issues c .panic) := by
  obtain ⟨s, hs, hspec⟩ := (Option.any_eq_true _ _).mp spinMoves_spec
  obtain ⟨hwants, hlock, hticks⟩ := of_decide_eq_true hspec
  refine ⟨s.1, ⟨.tree, Kernel.issues_of_wants hwants, hlock⟩, leadsOn (run_execAs .init hs) ?_ 1⟩
  rintro ⟨c, c', p, ps, -, -, -, hheld, -⟩
  simp [hticks] at hheld

end Xv6Cfs
