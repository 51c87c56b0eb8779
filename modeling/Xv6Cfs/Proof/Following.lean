import Xv6Cfs.Proof.Core
import Xv6Cfs.Proof.Calls

/-!
# Following a call through given steps

A call in a run can be computed: the steps are given, with the thread that makes each,
and what is left of the call is carried along. So it can be shown that the results
about calls speak of something.
-/

namespace Xv6Cfs

open Threads

variable {n : Nat} {α : Type} {t : Thread n} {x₀ x : Code α} {next : α → Code Int}
  {k₀ k k' : Kernel n} {ℓ₀ ℓ ℓ' : Ledger n} {y : Code Unit} {L : List (Act n)}

/-! ## One call -/

theorem Run.runWhere (h : Run k ℓ) : RunWhere (fun _ _ _ => True) k ℓ := by
  induction h with
  | init => exact .init
  | tail _ hs ih => exact .tail ih trivial hs

/-- The state, and what is left of a call, while its thread takes no interrupt. -/
structure Followed (n : Nat) (α : Type) where
  k : Kernel n
  ℓ : Ledger n
  x : Code α

/-- Follow a call of `t` through a step of which it is said which thread makes it. -/
def follow (t : Thread n) (next : α → Code Int) (s : Followed n α) :
    Move n × Thread n × Option Slot → Option (Followed n α)
  | (.exec c e, t', got) =>
      if t' ≠ t then
        match s.k.code t' with
        | .instr (.init _) _ => none
        | _ => (stepAs s.k s.ℓ t' got (.exec c e)).map fun s' => ⟨s'.1, s'.2, s.x⟩
      else if s.k.thread c = t then
        match s.x with
        | .ret _ => none
        | .call f g => some ⟨s.k.setCode t ((f.body >>= g) >>= next), s.ℓ, f.body >>= g⟩
        | .instr i g =>
            match execute s.k c e i with
            | none => none
            | some (k', r) => some ⟨k'.setCode t (g r >>= next), s.ℓ.record s.k k' c i r, g r⟩
      else none
  | (.interrupt c i, _, _) =>
      if s.k.thread c = t then none
      else (step s.k s.ℓ (.interrupt c i)).map fun s' => ⟨s'.1, s'.2, s.x⟩

/-- A step of another thread, that makes no process, leaves the thread's code alone. -/
theorem code_of_step {c : Fin n} {e : Env} (hs : step k ℓ (.exec c e) = some (k', ℓ'))
    (ht : k.thread c ≠ t) (hinit : ∀ p g, k.code (k.thread c) ≠ .instr (.init p) g) :
    k'.code t = k.code t := by
  cases hcode : k.code (k.thread c) with
  | ret a => simp [step, hcode] at hs
  | call f g =>
      rw [(During.code_call hcode hs).1, Kernel.setCode_code, Function.update_of_ne ht.symm]
  | instr i g =>
      cases hex : execute k c e i with
      | none => simp [step, hcode, hex] at hs
      | some x =>
          rw [(During.code_step hcode hs hex).1, Kernel.setCode_code,
            Function.update_of_ne ht.symm, execute_code hex]
          rintro p rfl
          exact hinit p g hcode

/-- **What is followed is a call in a run.** -/
theorem During.follow {s s' : Followed n α} {mv : Move n × Thread n × Option Slot}
    (h : During (fun _ _ _ => True) t x₀ next k₀ ℓ₀ s.k s.ℓ (pure ()) s.x L)
    (hs : follow t next s mv = some s') :
    (∃ L', During (fun _ _ _ => True) t x₀ next k₀ ℓ₀ s'.k s'.ℓ (pure ()) s'.x L') ∧
      step s.k s.ℓ mv.1 = some (s'.k, s'.ℓ) := by
  obtain ⟨k, ℓ, x⟩ := s
  obtain ⟨mv, t', got⟩ := mv
  cases mv with
  | interrupt c i =>
      simp only [Xv6Cfs.follow] at hs
      split_ifs at hs with ht
      obtain ⟨⟨k', ℓ'⟩, hstep, rfl⟩ := Option.map_eq_some_iff.mp hs
      have hcode : k'.code t = k.code t := by
        simp only [step, Option.ite_none_right_eq_some, Option.some.injEq, Prod.mk.injEq] at hstep
        rw [← hstep.2.1]
        exact Function.update_of_ne (Ne.symm ht) _ _
      exact ⟨⟨L, h.other (by exact ht) trivial hstep hcode⟩, hstep⟩
  | exec c e =>
      simp only [Xv6Cfs.follow] at hs
      split_ifs at hs with ht' ht
      · split at hs
        · simp at hs
        · rename_i hinit
          obtain ⟨⟨k', ℓ'⟩, hstep, rfl⟩ := Option.map_eq_some_iff.mp hs
          have hthread : k.thread c = t' := by
            by_contra hne
            simp [stepAs, hne] at hstep
          have hstep' := step_of_stepAs hstep
          exact ⟨⟨L, h.other (hthread ▸ ht') trivial hstep'
            (code_of_step hstep' (hthread ▸ ht') (hthread ▸ hinit))⟩, hstep'⟩
      · cases x with
        | ret a => simp at hs
        | call f g =>
            obtain rfl := Option.some.inj hs
            subst ht
            have hcode : k.code (k.thread c) = .call f fun r => g r >>= next := h.code
            have hstep : step k ℓ (.exec c e) =
                some (k.setCode (k.thread c) ((f.body >>= g) >>= next), ℓ) := by
              simp [step, hcode, Prog.bind_assoc]
            exact ⟨⟨_, h.call rfl trivial hstep⟩, hstep⟩
        | instr i g =>
            subst ht
            have hcode : k.code (k.thread c) = .instr i fun r => g r >>= next := h.code
            cases hex : execute k c e i with
            | none => simp [hex] at hs
            | some kr =>
                simp only [hex, Option.some.injEq] at hs
                subst hs
                have hstep : step k ℓ (.exec c e) = some
                    (kr.1.setCode (k.thread c) (g kr.2 >>= next), ℓ.record k kr.1 c i kr.2) := by
                  simp [step, hcode, hex]
                exact ⟨⟨_, h.act rfl trivial hstep hex⟩, hstep⟩

theorem During.followAll {s s' : Followed n α} {mvs : List (Move n × Thread n × Option Slot)}
    (h : During (fun _ _ _ => True) t x₀ next k₀ ℓ₀ s.k s.ℓ (pure ()) s.x L)
    (hs : mvs.foldlM (Xv6Cfs.follow t next) s = some s') :
    (∃ L', During (fun _ _ _ => True) t x₀ next k₀ ℓ₀ s'.k s'.ℓ (pure ()) s'.x L') ∧
      exec (s.k, s.ℓ) (mvs.map (·.1)) = some (s'.k, s'.ℓ) := by
  induction mvs generalizing s L with
  | nil =>
      obtain rfl : s = s' := by simpa using hs
      exact ⟨⟨L, h⟩, rfl⟩
  | cons mv mvs ih =>
      rw [List.foldlM_cons] at hs
      obtain ⟨s₁, h₁, hs⟩ := Option.bind_eq_some_iff.mp hs
      obtain ⟨⟨L₁, hd⟩, hstep⟩ := h.follow h₁
      obtain ⟨hd', hexec⟩ := ih hd hs
      refine ⟨hd', ?_⟩
      rw [exec, List.map_cons, List.foldlM_cons]
      simp only [hstep]
      exact hexec

/-! ## Code outside the repository -/

/-- What the thread does after the call it is about to make. -/
def Kernel.rest (k : Kernel n) (t : Thread n) : Int → Code Int :=
  match k.code t with
  | .call _ g => g
  | _ => pure

/-- The thread is about to call the procedure. -/
def Kernel.calls (k : Kernel n) (t : Thread n) (f : Routine) : Bool :=
  match k.code t with
  | .call g _ => g = f
  | _ => false

theorem Kernel.code_of_calls {f : Routine} (h : k.calls t f = true) :
    k.code t = .call f (k.rest t) := by
  unfold calls at h
  unfold rest
  split at h <;> simp_all

/-- The state after a call and the choice that the procedure begins with. -/
def Kernel.chosen (k : Kernel n) (t : Thread n) (f : Choice → Code Int) (a : Choice) : Kernel n :=
  k.setCode t (f a >>= k.rest t)

theorem Kernel.step_chosen {f : Routine} {h : Choice → Code Int} {c : Fin n} (hc : k.thread c = t)
    (hcall : k.calls t f = true) (hbody : f.body = .instr .choose h) (a : Choice) :
    step k ℓ (.exec c {}) = some (k.setCode t (f.body >>= k.rest t), ℓ) ∧
      step (k.setCode t (f.body >>= k.rest t)) ℓ (.exec c { choice := a }) =
        some (k.chosen t h a, ℓ) := by
  subst hc
  have hcode := Kernel.code_of_calls hcall
  have hcode' : (k.setCode (k.thread c) (f.body >>= k.rest (k.thread c))).code
      ((k.setCode (k.thread c) (f.body >>= k.rest (k.thread c))).thread c) =
        .instr .choose fun b => h b >>= k.rest (k.thread c) := by
    rw [hbody]
    exact Function.update_self _ _ _
  refine ⟨by simp only [step, hcode], ?_⟩
  rw [step, hcode']
  simp only [execute, Ledger.record, chosen]
  simp only [setCode, Option.some.injEq, Prod.mk.injEq, Kernel.mk.injEq, true_and, and_true]
  exact Function.update_idem _ _ _

/-- Another thread makes such a choice. -/
theorem During.chosen (hd : During (fun _ _ _ => True) t x₀ next k₀ ℓ₀ k ℓ y x L) {t' : Thread n}
    {f : Routine} {h : Choice → Code Int} {c : Fin n} (hc : k.thread c = t') (hne : t' ≠ t)
    (hcall : k.calls t' f = true) (hbody : f.body = .instr .choose h) (a : Choice) :
    During (fun _ _ _ => True) t x₀ next k₀ ℓ₀ (k.chosen t' h a) ℓ y x L := by
  obtain ⟨h1, h2⟩ := Kernel.step_chosen (ℓ := ℓ) hc hcall hbody a
  have hcpu : k.thread c ≠ t := hc ▸ hne
  have h₁ := hd.other (by exact hcpu) trivial h1 (Function.update_of_ne hne.symm _ _)
  refine h₁.other (by exact hcpu) trivial h2 ?_
  rw [Kernel.chosen, Kernel.setCode_code, Kernel.setCode_code, Function.update_of_ne hne.symm,
    Function.update_of_ne hne.symm]

/-! ## System calls -/

/-- What the process does after the system call. -/
def afterSyscall (k : Kernel n) (p : Slot) (_ : Int) : Code Int := do
  exitIfKilled p
  chargeAndYield p
  setIntr false
  let r ← invoke (.user p)
  k.rest (.proc p) r

/-- What an instruction leaves its thread to do. -/
theorem code_stepAs {c : Fin n} {e : Env} {got : Option Slot} {i : Instr}
    {g : Answer i → Code Int} (hcode : k.code t = .instr i g) (hi : i ≠ .retrieve)
    (hs : stepAs k ℓ t got (.exec c e) = some (k', ℓ')) :
    ∃ k₁ r, execute k c e i = some (k₁, r) ∧ k'.code t = g r ∧ k'.shared = k₁.shared := by
  simp only [stepAs, hcode] at hs
  split_ifs at hs with ht
  cases hex : execute k c e i with
  | none => cases i <;> simp_all
  | some kr =>
      have hk : k' = kr.1.setCode t (g kr.2) := by
        cases i <;> simp_all
      exact ⟨kr.1, kr.2, rfl, by simp [hk], by simp [hk]⟩

/-- **A system call begins** when the process has been found not to be killed. -/
theorem code_syscall {c : Fin n} {p : Slot} {call : Syscall}
    (hcall : k.calls (.proc p) (.user p) = true) (hkilled : (k.mem.proc p).killed = false)
    (hs : execAs (k, ℓ) (stretch 6 c (.proc p) { trap := .syscall call }) = some (k', ℓ')) :
    k'.code (.proc p) = syscall p call >>= afterSyscall k p := by
  have hcode := Kernel.code_of_calls hcall
  simp only [execAs, stretch, List.replicate, List.foldlM_cons, List.foldlM_nil] at hs
  obtain ⟨⟨k₁, ℓ₁⟩, h₁, hs⟩ := Option.bind_eq_some_iff.mp hs
  obtain ⟨⟨k₂, ℓ₂⟩, h₂, hs⟩ := Option.bind_eq_some_iff.mp hs
  obtain ⟨⟨k₃, ℓ₃⟩, h₃, hs⟩ := Option.bind_eq_some_iff.mp hs
  obtain ⟨⟨k₄, ℓ₄⟩, h₄, hs⟩ := Option.bind_eq_some_iff.mp hs
  obtain ⟨⟨k₅, ℓ₅⟩, h₅, hs⟩ := Option.bind_eq_some_iff.mp hs
  obtain ⟨⟨k₆, ℓ₆⟩, h₆, hs⟩ := Option.bind_eq_some_iff.mp hs
  obtain ⟨rfl, rfl⟩ := Prod.mk.inj (Option.some.inj hs)
  have ht : k.thread c = .proc p := by
    by_contra hne
    simp [stepAs, hne] at h₁
  simp only [stepAs, ht, if_true, hcode, Option.some.injEq, Prod.mk.injEq] at h₁
  obtain ⟨rfl, rfl⟩ := h₁
  obtain ⟨j₂, trap, hex₂, hcode₂, hsh₂⟩ := code_stepAs (Function.update_self _ _ _) (by simp) h₂
  simp only [execute, Option.some.injEq, Prod.mk.injEq] at hex₂
  obtain ⟨rfl, rfl⟩ := hex₂
  have htrap : k₂.code (.proc p) = exitIfKilled p >>= fun _ => setIntr true >>= fun _ =>
      syscall p call >>= afterSyscall k p := by
    rw [hcode₂]
    show (usertrap p (.syscall call) >>= fun _ => invoke (.user p)) >>= k.rest (.proc p) = _
    simp only [usertrap, handleTrap, Prog.bind_assoc]
    rfl
  obtain ⟨j₃, _, hex₃, hcode₃, hsh₃⟩ := code_stepAs htrap (by simp) h₃
  obtain ⟨j₄, s, hex₄, hcode₄, hsh₄⟩ := code_stepAs hcode₃ (by simp) h₄
  obtain ⟨j₅, _, hex₅, hcode₅, hsh₅⟩ := code_stepAs hcode₄ (by simp) h₅
  simp only [execute, Option.ite_none_right_eq_some, Option.some.injEq, Prod.mk.injEq] at hex₃ hex₄
  obtain ⟨-, rfl, -⟩ := hex₃
  obtain ⟨rfl, rfl⟩ := hex₄
  have hs : (k₃.mem.proc p).killed = false := by
    simpa [Kernel.mem, hsh₃, hsh₂] using hkilled
  have hgo : ((if (k₃.mem.proc p).killed = true then exit p (-1) else pure () : Code Unit) >>=
      fun _ => setIntr true >>= fun _ => syscall p call >>= afterSyscall k p) =
        .instr (.setIntr true) fun _ => syscall p call >>= afterSyscall k p := by
    rw [if_neg (by simp [hs])]
    rfl
  obtain ⟨j₆, _, hex₆, hcode₆, -⟩ := code_stepAs (hcode₅.trans hgo) (by simp) h₆
  exact hcode₆

/-- It is a call in a run. -/
theorem During.syscall {s s' : Kernel n × Ledger n} {c : Fin n} {p : Slot} {call : Syscall}
    (hrun : Run s.1 s.2) (hcall : s.1.calls (.proc p) (.user p) = true)
    (hkilled : (s.1.mem.proc p).killed = false)
    (hs : execAs s (stretch 6 c (.proc p) { trap := .syscall call }) = some s')
    (hc : s'.1.thread c = .proc p) :
    During (fun _ _ _ => True) (.proc p) (Xv6Cfs.syscall p call) (afterSyscall s.1 p) s'.1 s'.2
      s'.1 s'.2 (pure ()) (Xv6Cfs.syscall p call) [] :=
  .start (run_execAs hrun hs).runWhere hc (code_syscall hcall hkilled hs)

end Xv6Cfs
