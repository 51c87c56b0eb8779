import Xv6Cfs.Kernel.Calls
import Xv6Cfs.Proof.Parents
import Xv6Cfs.Threads.Outcomes
import Mathlib.Data.List.Chain

/-!
# What is true of a call

The instructions of a call are those its code can issue, and between two of them
nothing has changed that a lock of the thread protects. So what a call does can be
read off its code, as if it were alone with the slots whose locks it holds.
-/

namespace Xv6Cfs

open RedBlack Threads Rules

variable {n : Nat} {α : Type} {P : Kernel n → Ledger n → Move n → Prop} {t : Thread n}
  {x₀ x : Code α} {next : α → Code Int} {k₀ k k' : Kernel n} {ℓ₀ ℓ ℓ' : Ledger n} {y : Code Unit}
  {L : List (Act n)} {V : Thread n → View} {z : Bool} {tr : ColorTree Slot} {σ : Slot → Sit n}
  {l : Lock}

/-! ## What the locks protect -/

namespace Lock.Keeps

theorem refl (l : Lock) (m : Mem) : l.Keeps m m := by
  cases l with
  | proc p => exact rfl
  | wait => exact fun _ => ⟨rfl, id⟩
  | _ => trivial

theorem trans {m m' m'' : Mem} (h : l.Keeps m m') (h' : l.Keeps m' m'') : l.Keeps m m'' := by
  cases l with
  | proc p => exact Eq.trans h' h
  | wait => exact fun p => ⟨(h' p).1.trans (h p).1, fun hz => (h' p).2 ((h p).2 hz)⟩
  | _ => trivial

theorem of_proc {m m' : Mem}
    (h : ∀ p, (m'.proc p).guarded = (m.proc p).guarded ∧ (m'.proc p).parent = (m.proc p).parent) :
    l.Keeps m m' := by
  cases l with
  | proc p => exact (h p).1
  | wait => exact fun p => ⟨(h p).2, fun hz => (congrArg Prod.fst (h p).1).trans hz⟩
  | _ => trivial

/-- A change of the slot `p`. -/
theorem modify {m : Mem} {p : Slot} {f : Proc → Proc}
    (hguarded : l = .proc p → (f (m.proc p)).guarded = (m.proc p).guarded)
    (hparent : l = .wait → (f (m.proc p)).parent = (m.proc p).parent ∧
      ((m.proc p).state = .zombie → (f (m.proc p)).state = .zombie)) :
    l.Keeps m (m.modify p f) := by
  cases l with
  | proc q =>
      show ((m.modify p f).proc q).guarded = (m.proc q).guarded
      rw [Mem.modify_proc]
      split_ifs with hq
      · subst hq
        exact hguarded rfl
      · rfl
  | wait =>
      intro q
      rw [Mem.modify_proc]
      split_ifs with hq
      · subst hq
        exact hparent rfl
      · exact ⟨rfl, id⟩
  | _ => trivial

end Lock.Keeps

/-- Assignments that somebody else makes. -/
theorem keeps_write (hb : Base k V tr σ) (hpar : Parents k V) {c : Fin n} {p : Slot} {w : Write}
    (hpre : writePre (k.running c) (V (k.thread c)) p w) (hl : l ∉ (V (k.thread c)).held) :
    l.Keeps k.mem (k.mem.modify p w.apply) := by
  have hother : .proc p ∈ (V (k.thread c)).held → l ≠ .proc p := fun hp e => hl (e ▸ hp)
  have hrunning : k.running c = some p → (V (k.thread c)).on = true →
      (k.mem.proc p).state ≠ .zombie := fun hme hon => by
    simp [hb.sits.running_state hme (Kernel.thread_eq_proc.mpr hme ▸ hon)]
  cases w with
  | parent q => exact Lock.Keeps.modify (fun _ => rfl) fun e => absurd (e ▸ hpre.1) hl
  | runtime d => exact Lock.Keeps.modify (fun _ => rfl) fun _ => ⟨rfl, id⟩
  | free =>
      refine Lock.Keeps.modify (fun e => absurd e (hother hpre.1)) fun e => ?_
      rcases hpre.2.2 with ⟨-, hw, -⟩ | ⟨-, g, hg, hhead⟩
      · exact absurd (e ▸ hw) hl
      · -- it has no parent yet
        have hst := hb.used_of_head hhead
        exact ⟨(hpar.parent_eq_none (fun hborn => hborn.2 hst)
          (not_adopted_of_head hb hg hhead)).symm, fun hz => by simp [hst] at hz⟩
  | fold =>
      refine Lock.Keeps.modify (fun e => absurd e (hother hpre.1)) fun _ => ⟨rfl, fun hz => ?_⟩
      obtain ⟨-, hon, -, hs | ⟨hme, -⟩⟩ := hpre
      · simp [hb.sits.seen c p _ hs] at hz
      · exact absurd hz (hrunning hme hon)
  | sleep chan =>
      exact Lock.Keeps.modify (fun e => absurd e (hother hpre.1)) fun _ =>
        ⟨rfl, fun hz => absurd hz (hrunning hpre.2.2.1 hpre.2.1)⟩
  | ready =>
      refine Lock.Keeps.modify (fun e => absurd e (hother hpre.1)) fun _ => ⟨rfl, fun hz => ?_⟩
      simp [hb.used_of_head hpre.2.2] at hz
  | clearChan | kill | pid =>
      exact Lock.Keeps.modify (fun e => absurd e (hother hpre.1)) fun _ => ⟨rfl, id⟩
  | exit status =>
      exact Lock.Keeps.modify (fun e => absurd e (hother hpre.1.1)) fun _ => ⟨rfl, fun _ => rfl⟩
  | used =>
      refine Lock.Keeps.modify (fun e => absurd e (hother hpre.1.1)) fun _ => ⟨rfl, fun hz => ?_⟩
      simp [hb.sits.seen c p _ hpre.1.2.2] at hz

/-- **What a lock protects changes by the thread only that holds it.** -/
theorem keeps_execute (hb : Base k V tr σ) (hpar : Parents k V) {c c' : Fin n} {e : Env} {i : Instr}
    {r : Answer i} (hpre : instrPre (k.running c) i (V (k.thread c)))
    (hex : execute k c e i = some (k', r)) (hc : c ≠ c') (hl : k.lock l = some c') :
    l.Keeps k.mem k'.mem ∧ k'.lock l = some c' := by
  have hnot : l ∉ (V (k.thread c)).held := fun h => by
    rw [(hb.locking.lock l c).mpr h] at hl
    exact hc (Option.some.inj hl)
  cases i with
  | acquire l' =>
      simp only [execute, Option.ite_none_right_eq_some, Option.some.injEq, Prod.mk.injEq] at hex
      obtain ⟨hfree, rfl, -⟩ := hex
      have hne : l ≠ l' := fun e => by simp [← e, hl] at hfree
      exact ⟨.refl _ _, by simp [hne, hl]⟩
  | release l' =>
      simp only [execute, Option.ite_none_right_eq_some, Option.some.injEq, Prod.mk.injEq] at hex
      obtain ⟨hheld, rfl, -⟩ := hex
      have hne : l ≠ l' := fun e => hc (by simpa [← e, hl] using hheld.symm)
      exact ⟨.refl _ _, by simp [hne, hl]⟩
  | write p w =>
      simp only [execute, Option.some.injEq, Prod.mk.injEq] at hex
      obtain ⟨rfl, -⟩ := hex
      exact ⟨keeps_write hb hpar hpre hnot, hl⟩
  | insert p =>
      obtain ⟨m', tr', rfl, hins, -⟩ := hb.insert_cases hpre.2 hex
      refine ⟨.of_proc fun q => ?_, hl⟩
      exact ⟨hins.field Proc.guarded (fun _ => rfl) (fun _ _ => rfl) q,
        hins.field Proc.parent (fun _ => rfl) (fun _ _ => rfl) q⟩
  | retrieve =>
      rcases hb.retrieve_cases hex with ⟨-, rfl, rfl⟩ | ⟨p, m', tr', rfl, rfl, hret, -⟩
      · exact ⟨.refl _ _, hl⟩
      · refine ⟨.of_proc fun q => ?_, hl⟩
        exact ⟨hret.field Proc.guarded (fun _ => rfl) (fun _ _ => rfl) q,
          hret.field Proc.parent (fun _ => rfl) (fun _ _ => rfl) q⟩
  | dispatch p =>
      simp only [execute, Option.some.injEq, Prod.mk.injEq] at hex
      obtain ⟨rfl, -⟩ := hex
      have hst : (k.mem.proc p).state = .runnable :=
        hb.runnable_of_retrieved (Kernel.thread_eq_cpu.mpr ⟨hpre.1, rfl⟩ ▸ hpre.2.2.1)
      have hkeep : l.Keeps k.mem (k.mem.modify p (Proc.setState · .running)) :=
        Lock.Keeps.modify (fun e => absurd (by simp [e, hpre.2.1]) hnot) fun _ =>
          ⟨rfl, fun hz => by simp [hst] at hz⟩
      exact ⟨hkeep, hl⟩
  | init p =>
      simp only [execute, Option.some.injEq, Prod.mk.injEq] at hex
      obtain ⟨rfl, -⟩ := hex
      exact ⟨Lock.Keeps.modify (fun _ => rfl) fun _ => ⟨rfl, id⟩, hl⟩
  | switch p =>
      simp only [execute, Option.ite_none_right_eq_some, Option.some.injEq, Prod.mk.injEq] at hex
      obtain ⟨-, rfl, -⟩ := hex
      exact ⟨.refl _ _, hl⟩
  | panic => simp [execute] at hex
  | _ =>
      simp only [execute, Option.some.injEq, Prod.mk.injEq] at hex
      obtain ⟨rfl, -⟩ := hex
      exact ⟨.refl _ _, hl⟩

/-! ## What is left of a call -/

namespace During

theorem run (h : During P t x₀ next k₀ ℓ₀ k ℓ y x L) : RunWhere P k ℓ := by
  induction h with
  | start hrun _ _ => exact hrun
  | act _ _ hP hs _ ih | call _ _ hP hs ih | interrupt _ _ hP hs ih | handle _ _ hP hs _ ih
  | handleCall _ _ hP hs ih | other _ _ hP hs _ ih => exact ih.tail hP hs

/-- What an instruction of the thread leaves it to do. -/
theorem code_step {c : Fin n} {e : Env} {i : Instr} {g : Answer i → Code Int} {k₁ : Kernel n}
    {r : Answer i} (hcode : k.code (k.thread c) = .instr i g)
    (hs : step k ℓ (.exec c e) = some (k', ℓ')) (hex : execute k c e i = some (k₁, r)) :
    k' = k₁.setCode (k.thread c) (g r) ∧ ℓ' = ℓ.record k k₁ c i r := by
  simp only [step, hcode, hex, Option.some.injEq, Prod.mk.injEq] at hs
  exact ⟨hs.1.symm, hs.2.symm⟩

theorem code_call {c : Fin n} {e : Env} {f : Routine} {g : Int → Code Int}
    (hcode : k.code (k.thread c) = .call f g)
    (hs : step k ℓ (.exec c e) = some (k', ℓ')) :
    k' = k.setCode (k.thread c) (f.body >>= g) ∧ ℓ' = ℓ := by
  simp only [step, hcode, Option.some.injEq, Prod.mk.injEq] at hs
  exact ⟨hs.1.symm, hs.2.symm⟩

/-- **What the thread has still to do.** -/
theorem code (h : During P t x₀ next k₀ ℓ₀ k ℓ y x L) :
    k.code t = y >>= fun _ => x >>= next := by
  induction h with
  | start _ _ hcode => exact hcode
  | act _ ht _ hs hex ih =>
      subst ht
      rw [(code_step ih hs hex).1]
      simp
  | call _ ht _ hs ih =>
      subst ht
      rw [(code_call ih hs).1]
      simp [Prog.bind_assoc]
  | interrupt _ ht _ hs ih =>
      subst ht
      simp only [step, Option.ite_none_right_eq_some, Option.some.injEq, Prod.mk.injEq] at hs
      rw [← hs.2.1, Xv6Cfs.interrupt, Kernel.setCode_code, Function.update_self, ih]
      simp [Prog.bind_assoc]
  | handle _ ht _ hs hex ih =>
      subst ht
      rw [(code_step ih hs hex).1]
      simp
  | handleCall _ ht _ hs ih =>
      subst ht
      rw [(code_call ih hs).1]
      simp [Prog.bind_assoc]
  | other _ _ _ _ hsame ih => rw [hsame, ih]

/-- **The instructions of a call are those its code can issue.** -/
theorem outcome {S : Routine → List (Act n) → Int → Prop} (hS : Summary Act.event S Routine.body)
    (h : During P t x₀ next k₀ ℓ₀ k ℓ y x L) {L' : List (Act n)} {a : α}
    (hx : Outcome Act.event S x L' a) : Outcome Act.event S x₀ (L ++ L') a := by
  induction h generalizing L' with
  | start _ _ _ => exact hx
  | act _ _ _ _ _ ih =>
      rw [List.append_assoc]
      exact ih ⟨_, L', _, rfl, rfl, hx⟩
  | call _ _ _ _ ih => exact ih (hS.call hx)
  | interrupt _ _ _ _ ih | handle _ _ _ _ _ ih | handleCall _ _ _ _ ih
  | other _ _ _ _ _ ih => exact ih hx

end During

/-! ## Between two instructions -/

/-- What `e` has left under a lock of `t`, the state `k` still has. -/
def Still (t : Thread n) (e : Act n) (k : Kernel n) : Prop :=
  ∀ l, e.after.Holds t l → k.Holds t l ∧ l.Keeps e.after.mem k.mem

theorem Still.congr {e : Act n} (h : Still t e k) (hmem : k'.mem = k.mem) (hlock : k'.lock = k.lock)
    (hrunning : k'.running = k.running) : Still t e k' := by
  intro l hl
  obtain ⟨⟨c, hc, hlc⟩, hkeep⟩ := h l hl
  refine ⟨⟨c, ?_, hlock ▸ hlc⟩, hmem ▸ hkeep⟩
  rw [Kernel.thread_congr (congrFun hrunning c), hc]

/-- Another CPU makes a step. -/
theorem Still.other {e : Act n} (h : Still t e k) (hrun : RunWhere P k ℓ) {mv : Move n}
    (ht : k.thread mv.cpu ≠ t) (hs : step k ℓ mv = some (k', ℓ')) : Still t e k' := by
  obtain ⟨V, hV⟩ := hrun.traced false
  have hcore := core_traced spared_false hV
  have hpar := parents_traced spared_false hV
  obtain ⟨tr, σ, hb⟩ := hcore.base
  obtain ⟨V', hstep⟩ := viewStep_of_step hs V
  cases hstep with
  | call hcode => exact h.congr rfl rfl rfl
  | interrupt hi hnoff => exact h.congr rfl rfl rfl
  | @instr c env i g k₁ r hcode hex =>
      intro l hl
      obtain ⟨⟨c', hc', hlc⟩, hkeep⟩ := h l hl
      have hne : c ≠ c' := fun e => ht (e ▸ hc')
      obtain ⟨hkeep', hlc'⟩ := keeps_execute hb hpar (hcore.pre hcode) hex hne hlc
      exact ⟨⟨c', (execute_thread_ne hex hne.symm).trans hc', hlc'⟩, hkeep.trans hkeep'⟩

namespace During

/--
**Nothing a lock protects changes between two instructions of a call that holds it.**
Nor does it between the last one and the present state; and there is no interrupt.
-/
theorem still (h : During P t x₀ next k₀ ℓ₀ k ℓ y x L) :
    L.IsChain (fun e₁ e₂ => Still t e₁ e₂.before) ∧
      ∀ e ∈ L.getLast?, Still t e k ∧ ((∃ l, e.after.Holds t l) → y = pure ()) := by
  induction h with
  | start _ _ _ => exact ⟨.nil, by simp⟩
  | @act k k₁ k' ℓ ℓ' L c e i r g hd ht _ hs hex ih =>
      refine ⟨ih.1.append (.singleton _) fun e₁ he₁ e₂ he₂ => ?_, fun e' he' => ?_⟩
      · obtain rfl : _ = e₂ := by simpa using he₂
        exact (ih.2 e₁ he₁).1
      · obtain rfl : _ = e' := by simpa using he'
        have hcode := hd.code
        subst ht
        rw [(code_step hcode hs hex).1]
        exact ⟨fun l hl => ⟨hl, .refl _ _⟩, fun _ => rfl⟩
  | call hd ht _ hs ih =>
      refine ⟨ih.1, fun e he => ⟨?_, fun _ => rfl⟩⟩
      have hcode := hd.code
      subst ht
      rw [(code_call hcode hs).1]
      exact (ih.2 e he).1.congr rfl rfl rfl
  | @interrupt k k' ℓ ℓ' L y x c i hd ht _ hs ih =>
      simp only [step, Option.ite_none_right_eq_some, Option.some.injEq, Prod.mk.injEq] at hs
      obtain ⟨⟨-, hnoff⟩, rfl, -⟩ := hs
      refine ⟨ih.1, fun e he => ⟨(ih.2 e he).1.congr rfl rfl rfl, ?_⟩⟩
      rintro ⟨l, hl⟩
      -- an interrupt is not taken under a lock
      obtain ⟨c', hc', hlc⟩ := ((ih.2 e he).1 l hl).1
      obtain ⟨V, hV⟩ := hd.run.traced false
      have hcore := core_traced spared_false hV
      obtain ⟨tr, σ, hb⟩ := hcore.base
      obtain rfl := hb.locking.thread_inj (hc'.trans ht.symm)
      have hheld := (hb.locking.lock l c').mp hlc
      simp [(hcore.free hnoff).held] at hheld
  | @handle k k₁ k' ℓ ℓ' L x c e i r g hd ht _ hs hex ih =>
      refine ⟨ih.1, fun e he => ?_⟩
      have hno : ¬∃ l, e.after.Holds t l := fun hl => by
        have := (ih.2 e he).2 hl
        cases this
      exact ⟨fun l hl => absurd ⟨l, hl⟩ hno, fun hl => absurd hl hno⟩
  | handleCall hd ht _ hs ih =>
      refine ⟨ih.1, fun e he => ?_⟩
      have hno : ¬∃ l, e.after.Holds _ l := fun hl => by
        have := (ih.2 e he).2 hl
        cases this
      exact ⟨fun l hl => absurd ⟨l, hl⟩ hno, fun hl => absurd hl hno⟩
  | other hd ht _ hs _ ih =>
      exact ⟨ih.1, fun e he => ⟨(ih.2 e he).1.other hd.run ht hs, (ih.2 e he).2⟩⟩

/-- An instruction of the call has been executed in a state of the run. -/
theorem executed (h : During P t x₀ next k₀ ℓ₀ k ℓ y x L) {e : Act n} (he : e ∈ L) :
    ∃ ℓ, RunWhere P e.before ℓ ∧ P e.before ℓ (.exec e.cpu e.env) ∧ e.before.thread e.cpu = t ∧
      e.before.Issues e.cpu e.instr ∧
      execute e.before e.cpu e.env e.instr = some (e.after, e.answer) := by
  induction h with
  | start _ _ _ => simp at he
  | @act k k₁ k' ℓ ℓ' L c env i r g hd ht hP hs hex ih =>
      rcases List.mem_append.mp he with he | he
      · exact ih he
      · obtain rfl : e = _ := by simpa using he
        exact ⟨ℓ, hd.run, hP, ht, ⟨_, by rw [ht, hd.code]; rfl⟩, hex⟩
  | call _ _ _ _ ih | interrupt _ _ _ _ ih | handle _ _ _ _ _ ih | handleCall _ _ _ _ ih
  | other _ _ _ _ _ ih => exact ih he

/-- Between two instructions of the call there are steps of the run. -/
theorem steps (h : During P t x₀ next k₀ ℓ₀ k ℓ y x L) :
    (∀ e ∈ L, ∃ ℓ₁, RunWhere P e.before ℓ₁ ∧ Steps P e.before ℓ₁ k ℓ) ∧
      L.Pairwise fun e₁ e₂ =>
        ∃ ℓ₁ ℓ₂, RunWhere P e₁.before ℓ₁ ∧ Steps P e₁.before ℓ₁ e₂.before ℓ₂ := by
  induction h with
  | start _ _ _ => exact ⟨by simp, .nil⟩
  | @act k k₁ k' ℓ ℓ' L c env i r g hd ht hP hs hex ih =>
      refine ⟨fun e he => ?_,
        List.pairwise_append.mpr ⟨ih.2, List.pairwise_singleton _ _, fun e₁ h₁ e₂ h₂ => ?_⟩⟩
      · rcases List.mem_append.mp he with he | he
        · obtain ⟨ℓ₁, hrun, hsteps⟩ := ih.1 e he
          exact ⟨ℓ₁, hrun, hsteps.tail hP hs⟩
        · obtain rfl : e = _ := by simpa using he
          exact ⟨ℓ, hd.run, .tail .refl hP hs⟩
      · obtain rfl : e₂ = _ := by simpa using h₂
        obtain ⟨ℓ₁, hrun, hsteps⟩ := ih.1 e₁ h₁
        exact ⟨ℓ₁, ℓ, hrun, hsteps⟩
  | call _ _ hP hs ih | interrupt _ _ hP hs ih | handle _ _ hP hs _ ih
  | handleCall _ _ hP hs ih | other _ _ hP hs _ ih =>
      refine ⟨fun e he => ?_, ih.2⟩
      obtain ⟨ℓ₁, hrun, hsteps⟩ := ih.1 e he
      exact ⟨ℓ₁, hrun, hsteps.tail hP hs⟩

end During

theorem Returned.outcome {S : Routine → List (Act n) → Int → Prop} {a : α}
    (hS : Summary Act.event S Routine.body) (h : Returned P t x₀ k₀ ℓ₀ k ℓ L a) :
    Outcome Act.event S x₀ L a := by
  obtain ⟨next, y, h⟩ := h
  have hx : Outcome Act.event S (pure a : Code α) [] a := ⟨rfl, rfl⟩
  simpa using h.outcome hS hx

end Xv6Cfs
