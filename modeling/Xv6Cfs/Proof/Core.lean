import Xv6Cfs.Kernel.Properties
import Xv6Cfs.Proof.Base

/-!
# The invariant of the machine

Every thread keeps to the rules in its view, and the views are true of the
machine. This holds at boot and is kept by every step, so it holds in every
reachable state. What else is true of all runs is proved on top of it, as a
statement that every instruction keeps.
-/

namespace Xv6Cfs

open Threads Rules

variable {n : Nat} {k k' : Kernel n} {ℓ ℓ' : Ledger n} {V V' : Thread n → View} {z : Bool}

/-- The invariant. With `z`, no process is asked to kill the pid 0. -/
structure Core (k : Kernel n) (V : Thread n → View) (z : Bool) : Prop where
  code : ∀ t, (rules t.me).wp (k.code t) (fun _ _ => True) (V t)
  base : ∃ tr σ, Base k V tr σ
  nozero : ∀ t, (V t).nozero = z

/-! ## At boot -/

theorem base_boot (n : Nat) (z : Bool) : Base (boot n) (bootView z) .nil fun _ => .idle where
  sane t := by
    cases t with
    | cpu c => exact sane_idle none 0 z (by simp)
    | proc p => exact sane_resumed p p z
  locking := by
    have hthread : ∀ c, (boot n).thread c = .cpu c := fun _ => rfl
    refine ⟨fun l c => ?_, fun c => ?_, by simp [boot], by simp [boot], fun p _ => ?_⟩
    · rw [hthread]
      simp [boot, bootView]
    · rw [hthread]
      rfl
    · exact ⟨rfl, rfl, rfl, rfl, rfl⟩
  sits := by
    refine ⟨fun t p => ?_, fun t p => ?_, fun c p => ?_, by simp, by simp [boot],
      fun p => .inr (.inr rfl), fun t => ?_, fun t => ?_, fun c p st hs => ?_,
      fun p _ => ⟨rfl, rfl, rfl⟩, by simp [boot]⟩
    · cases t <;> simp [bootView, View.making?, View.resumed]
    · cases t <;> simp [bootView, View.resumed]
    · simp [bootView]
    · cases t <;> simp [bootView, View.making?, View.resumed]
    · cases t <;> simp [bootView, View.resumed]
    · have hthread : (boot n).thread c = .cpu c := rfl
      simp [hthread, bootView] at hs
  queue := ⟨queueRep_rbinit _, fun _ _ => rfl, fun _ _ => rfl, fun _ => rfl,
    show 0 ≤ latency ∧ latency ≤ minGranularity * NPROC by decide⟩
  ancestry := by
    refine ⟨fun p hp => ?_, fun t ht => ?_, fun t p g hp => ?_, fun c p g hp => ?_, by simp [boot]⟩
    · exact absurd rfl hp.1
    · cases t with
      | cpu c => exact ⟨rfl, c, rfl, by simpa [bootView] using ht⟩
      | proc p => simp [bootView, View.resumed] at ht
    · cases t <;> simp [bootView, View.resumed] at hp
    · simp [bootView] at hp

theorem core_boot (n : Nat) (z : Bool) : Core (boot n) (bootView z) z where
  code t := by
    cases t with
    | cpu c =>
        have hidle : Free (bootView z (.cpu c)) := free_idle 0 _ z
        have hrest : (rules (Thread.cpu c).me).wp (invoke .scheduler) (fun _ _ => True)
            { bootView z (.cpu c) with starting := false } :=
          ⟨⟨rfl, free_idle 0 false z, rfl⟩, fun _ => trivial⟩
        by_cases hc : c.val = 0
        · simp only [boot, bootCode, hc, if_true, wp_bind]
          exact wp_userinit rfl hidle (by simp [bootView, hc]) rfl hrest
        · simp only [boot, bootCode, hc, if_false]
          convert hrest using 1
          simp [bootView, hc, View.idle]
    | proc p => exact wp_forkret fun _ _ => trivial
  base := ⟨_, _, base_boot n z⟩
  nozero t := by cases t <;> rfl

/-! ## Every step -/

theorem instrNext_nozero (me : Option Slot) (i : Instr) (v : View) (r : Answer i) :
    (instrNext me i v r).nozero = v.nozero := by
  cases i with
  | acquire l => simp [instrNext]
  | release l => simp [instrNext]
  | stateIs p st =>
      simp only [instrNext]
      split_ifs <;> rfl
  | pidIs p x =>
      simp only [instrNext]
      split_ifs <;> rfl
  | write p w => cases w <;> rfl
  | _ => rfl

/-- Only `allocproc` gives another thread something to do. -/
theorem execute_code {c : Fin n} {e : Env} {i : Instr} {r : Answer i}
    (hex : execute k c e i = some (k', r)) (hi : ∀ p, i ≠ .init p) : k'.code = k.code := by
  cases i with
  | init p => exact absurd rfl (hi p)
  | acquire l | release l | switch p =>
      simp only [execute, Option.ite_none_right_eq_some, Option.some.injEq, Prod.mk.injEq] at hex
      exact hex.2.1 ▸ rfl
  | insert p | retrieve =>
      simp only [execute] at hex
      split at hex
      · simp only [Option.some.injEq, Prod.mk.injEq] at hex
        exact hex.1 ▸ rfl
      · simp at hex
  | panic => simp [execute] at hex
  | _ =>
      simp only [execute, Option.some.injEq, Prod.mk.injEq] at hex
      exact hex.1 ▸ rfl

/-- Only the switches change what a CPU runs. -/
theorem execute_running {c : Fin n} {e : Env} {i : Instr} {r : Answer i}
    (hex : execute k c e i = some (k', r)) (hi : ∀ p, i ≠ .dispatch p ∧ i ≠ .switch p) :
    k'.running = k.running := by
  cases i with
  | dispatch p => exact absurd rfl (hi p).1
  | switch p => exact absurd rfl (hi p).2
  | acquire l | release l =>
      simp only [execute, Option.ite_none_right_eq_some, Option.some.injEq, Prod.mk.injEq] at hex
      exact hex.2.1 ▸ rfl
  | insert p | retrieve =>
      simp only [execute] at hex
      split at hex
      · simp only [Option.some.injEq, Prod.mk.injEq] at hex
        exact hex.1 ▸ rfl
      · simp at hex
  | panic => simp [execute] at hex
  | _ =>
      simp only [execute, Option.some.injEq, Prod.mk.injEq] at hex
      exact hex.1 ▸ rfl

/-- The other CPUs run what they ran. -/
theorem execute_thread_ne {c c' : Fin n} {e : Env} {i : Instr} {r : Answer i}
    (hex : execute k c e i = some (k', r)) (hc : c' ≠ c) : k'.thread c' = k.thread c' := by
  refine Kernel.thread_congr ?_
  by_cases hi : ∀ p, i ≠ .dispatch p ∧ i ≠ .switch p
  · rw [execute_running hex hi]
  · push Not at hi
    obtain ⟨p, hp⟩ := hi
    by_cases hd : i = .dispatch p
    · subst hd
      simp only [execute, Option.some.injEq, Prod.mk.injEq] at hex
      rw [← hex.1]
      simp [hc]
    · obtain rfl := hp hd
      simp only [execute, Option.ite_none_right_eq_some, Option.some.injEq, Prod.mk.injEq] at hex
      rw [← hex.2.1]
      simp [hc]

theorem viewNext_of_ne {c : Fin n} {i : Instr} {r : Answer i} (hi : ∀ p, i ≠ .init p) :
    viewNext k V c i r =
      Function.update V (k.thread c) (instrNext (k.running c) i (V (k.thread c)) r) := by
  rw [← Kernel.thread_me]
  cases i with
  | init p => exact absurd rfl (hi p)
  | _ => rfl

theorem viewNext_cpu {c c' : Fin n} {i : Instr} {r : Answer i} :
    viewNext k V c i r (.cpu c') = Function.update V (k.thread c)
      (instrNext (k.running c) i (V (k.thread c)) r) (.cpu c') := by
  rw [← Kernel.thread_me]
  cases i with
  | init p => simp [viewNext]
  | _ => rfl

namespace Base

variable {tr : RedBlack.ColorTree Slot} {σ : Slot → Sit n} {c : Fin n} {i : Instr} {r : Answer i}

theorem viewNext_self (h : Base k V tr σ) (hpre : instrPre (k.running c) i (V (k.thread c))) :
    viewNext k V c i r (k.thread c) = instrNext (k.running c) i (V (k.thread c)) r := by
  cases i with
  | init p =>
      have hne : k.thread c ≠ .proc p := fun e =>
        h.sits.absent p (.inr (h.used_of_head hpre.2)) c (Kernel.thread_eq_proc.mp e)
      simp [viewNext, Function.update_of_ne hne]
  | _ => simp [viewNext]

/-- The view of no other CPU's thread changes. -/
theorem viewNext_ne (h : Base k V tr σ) (hpre : instrPre (k.running c) i (V (k.thread c)))
    {c' : Fin n} (hc : c' ≠ c) : viewNext k V c i r (k.thread c') = V (k.thread c') := by
  have hne : k.thread c' ≠ k.thread c := fun e => hc (h.locking.thread_inj e)
  cases i with
  | init p =>
      have hne' : k.thread c' ≠ .proc p := fun e =>
        h.sits.absent p (.inr (h.used_of_head hpre.2)) c' (Kernel.thread_eq_proc.mp e)
      simp [viewNext, Function.update_of_ne hne', Function.update_of_ne hne]
  | _ => simp [viewNext, Function.update_of_ne hne]

end Base

namespace Core

/-- A CPU that holds no lock runs a thread between two sections. -/
theorem free (h : Core k V z) {c : Fin n} (hnoff : k.noff c = 0) : Free (V (k.thread c)) := by
  obtain ⟨tr, σ, hb⟩ := h.base
  refine (h.base.elim fun tr h => h.elim fun σ hb => hb.sane _).free ?_
  rw [hb.locking.noff] at hnoff
  exact List.length_eq_zero_iff.mp hnoff

/-- The next instruction of a thread is allowed. -/
theorem pre (h : Core k V z) {c : Fin n} {i : Instr} {next : Answer i → Code Int}
    (hcode : k.code (k.thread c) = .instr i next) : instrPre (k.running c) i (V (k.thread c)) := by
  have hwp := h.code (k.thread c)
  rw [hcode, Kernel.thread_me] at hwp
  exact hwp.1

/-- **An instruction.** -/
theorem instr (h : Core k V z) {c : Fin n} {e : Env} {i : Instr} {next : Answer i → Code Int}
    {r : Answer i} (hz : z = true → e.trap ≠ .syscall (.kill 0))
    (hcode : k.code (k.thread c) = .instr i next) (hex : execute k c e i = some (k', r)) :
    Core (k'.setCode (k.thread c) (next r)) (viewNext k V c i r) z := by
  obtain ⟨tr, σ, hb⟩ := h.base
  have hpre := h.pre hcode
  have hcan := hb.can (r := r) (fun hv => hz (h.nozero _ ▸ hv)) hex
  obtain ⟨tr', σ', hb'⟩ := hb.step hpre hex
  have hnext : (rules (k.thread c).me).wp (next r) (fun _ _ => True)
      (instrNext (k.thread c).me i (V (k.thread c)) r) := by
    have hwp := h.code (k.thread c)
    rw [hcode] at hwp
    exact hwp.2 r (by rwa [Kernel.thread_me])
  have hnz : ∀ t, (Function.update V (k.thread c)
      (instrNext (k.thread c).me i (V (k.thread c)) r) t).nozero = z := fun t => by
    by_cases ht : t = k.thread c
    · rw [ht, Function.update_self, instrNext_nozero, h.nozero]
    · rw [Function.update_of_ne ht, h.nozero]
  -- The code of the thread goes on; the others wait.
  have hcode' : ∀ t, (rules t.me).wp (Function.update k.code (k.thread c) (next r) t)
      (fun _ _ => True) (Function.update V (k.thread c)
        (instrNext (k.thread c).me i (V (k.thread c)) r) t) := fun t => by
    by_cases ht : t = k.thread c
    · subst ht
      simpa using hnext
    · simpa [ht] using h.code t
  have hbase : Base (k'.setCode (k.thread c) (next r)) (viewNext k V c i r) tr' σ' :=
    hb'.congr rfl rfl rfl rfl
  cases i with
  | init p =>
      simp only [execute, Option.some.injEq, Prod.mk.injEq] at hex
      obtain ⟨rfl, -⟩ := hex
      have hne : k.thread c ≠ .proc p := fun e =>
        hb.sits.absent p (.inr (hb.used_of_head hpre.2)) c (Kernel.thread_eq_proc.mp e)
      refine ⟨fun t => ?_, ⟨tr', σ', hbase⟩, fun t => ?_⟩
      · by_cases ht : t = .proc p
        · subst ht
          simp only [viewNext, Function.update_self, Kernel.setCode_code, Function.update_of_ne hne.symm]
          exact wp_forkret fun _ _ => trivial
        · have hcode := hcode' t
          rw [Function.update_apply] at hcode
          simpa [viewNext, ht, Function.update_apply] using hcode
      · by_cases ht : t = .proc p
        · subst ht
          simp only [viewNext, Function.update_self]
          exact h.nozero _
        · simp only [viewNext, Function.update_of_ne ht]
          exact hnz t
  | _ =>
      have hsame := execute_code hex (by simp)
      exact ⟨fun t => by rw [Kernel.setCode_code, hsame]; exact hcode' t, ⟨tr', σ', hbase⟩, hnz⟩

/-- **A call.** -/
theorem call (h : Core k V z) {c : Fin n} {f : Routine} {next : Int → Code Int}
    (hcode : k.code (k.thread c) = .call f next) :
    Core (k.setCode (k.thread c) (f.body >>= next)) V z := by
  obtain ⟨tr, σ, hb⟩ := h.base
  refine ⟨fun t => ?_, ⟨tr, σ, hb.congr rfl rfl rfl rfl⟩, h.nozero⟩
  rw [Kernel.setCode_code]
  by_cases ht : t = k.thread c
  · subst ht
    rw [Function.update_self]
    exact (rules_sound _).unfold (hcode ▸ h.code _)
  · rw [Function.update_of_ne ht]
    exact h.code t

/-- **An interrupt.** It comes between two sections of the thread. -/
theorem interrupt (h : Core k V z) {c : Fin n} {i : Interrupt} (hnoff : k.noff c = 0) :
    Core (Xv6Cfs.interrupt k c i) V z := by
  obtain ⟨tr, σ, hb⟩ := h.base
  refine ⟨fun t => ?_, ⟨tr, σ, hb.congr rfl rfl rfl rfl⟩, h.nozero⟩
  rw [Xv6Cfs.interrupt, Kernel.setCode_code]
  by_cases ht : t = k.thread c
  · subst ht
    rw [Function.update_self, wp_bind]
    have hcode := h.code (k.thread c)
    refine wp_kerneltrap (h.free hnoff) ?_ ?_
    · exact (wp_bind _ _).mpr (wp_setIntr.mpr hcode)
    · exact (wp_bind _ _).mpr (wp_setIntr.mpr (wp_monotone (rules_monotone _) (eased_charged _) hcode))
  · rw [Function.update_of_ne ht]
    exact h.code t

/-- **Every step keeps the invariant.** -/
theorem step (h : Core k V z) {mv : Move n} (hs : ViewStep k ℓ V mv k' ℓ' V')
    (hz : z = true → ∀ c e, mv = .exec c e → e.trap ≠ .syscall (.kill 0)) : Core k' V' z := by
  cases hs with
  | call hcode => exact h.call hcode
  | instr hcode hex => exact h.instr (fun hz' => hz hz' _ _ rfl) hcode hex
  | interrupt _ hnoff => exact h.interrupt hnoff

end Core

/-! ## Every run -/

variable {P : Kernel n → Ledger n → Move n → Prop}

/-- In no step that meets `P` is a process asked to kill the pid 0, if `z`. -/
def Spared (P : Kernel n → Ledger n → Move n → Prop) (z : Bool) : Prop :=
  z = true → ∀ k ℓ c e, P k ℓ (.exec c e) → e.trap ≠ .syscall (.kill 0)

theorem spared_false : Spared P false := by simp [Spared]

/-- **The invariant holds in every reachable state.** -/
theorem core_traced (hz : Spared P z) (h : Traced P z k ℓ V) : Core k V z := by
  induction h with
  | init => exact core_boot n z
  | tail _ hP hs ih =>
      refine ih.step hs fun hz' c e he => ?_
      subst he
      exact hz hz' _ _ c e hP

/-- What every instruction that the rules allow keeps, and does not depend on the code. -/
structure Kept (P : Kernel n → Ledger n → Move n → Prop) (z : Bool)
    (I : Kernel n → Ledger n → (Thread n → View) → Prop) : Prop where
  boot : I (boot n) (Ledger.empty n) (bootView z)
  congr : ∀ {k k' : Kernel n} {ℓ V}, k'.shared = k.shared → k'.lock = k.lock → k'.noff = k.noff →
    k'.running = k.running → I k ℓ V → I k' ℓ V
  tick : ∀ {k : Kernel n} {ℓ V} c i, Traced P z k ℓ V → Core k V z → P k ℓ (.interrupt c i) →
    I k ℓ V → I k (ℓ.recordInterrupt (k.running c) i) V
  instr : ∀ {k k' : Kernel n} {ℓ V c e i} {r : Answer i} {tr σ}, Traced P z k ℓ V →
    Core k V z → Base k V tr σ → P k ℓ (.exec c e) → k.Issues c i →
    instrPre (k.running c) i (V (k.thread c)) → execute k c e i = some (k', r) → I k ℓ V →
    I k' (ℓ.record k k' c i r) (viewNext k V c i r)

/-- **What every instruction keeps holds in every reachable state.** -/
theorem Kept.traced {I : Kernel n → Ledger n → (Thread n → View) → Prop} (hI : Kept P z I)
    (hz : Spared P z) (h : Traced P z k ℓ V) : I k ℓ V := by
  induction h with
  | init => exact hI.boot
  | @tail k k' ℓ ℓ' V V' mv hr hP hs ih =>
      have hcore := core_traced hz hr
      cases hs with
      | call hcode => exact hI.congr (k := k) rfl rfl rfl rfl ih
      | @instr c e i next k₁ r hcode hex =>
          obtain ⟨tr, σ, hb⟩ := hcore.base
          exact hI.congr (k := k₁) rfl rfl rfl rfl
            (hI.instr hr hcore hb hP ⟨_, hcode⟩ (hcore.pre hcode) hex ih)
      | interrupt =>
          rw [Kernel.thread_me]
          exact hI.congr (k := k) rfl rfl rfl rfl (hI.tick _ _ hr hcore hP ih)

end Xv6Cfs
