import Xv6Cfs.Proof.Following
import Xv6Cfs.Proof.Local

/-!
# Ending and reaping

A process that has ended keeps its slot until its parent finds it in `wait`. What a
call of `wait` does is read off its code; what it has found is so, and stays so, by
the locks it holds.
-/

namespace Xv6Cfs

open RedBlack Threads Prog

variable {n : Nat} {P : Kernel n → Ledger n → Move n → Prop} {t : Thread n} {k k' : Kernel n}
  {ℓ ℓ' : Ledger n} {L : List (Act n)} {V : Thread n → View} {z : Bool} {p q : Slot} {addr : Bool}
  {r : Int}

/-! ## What the code of `wait` does -/

/-- An instruction of `wait`, if it finds nothing: it only waits. -/
def Idles (p : Slot) (i : Instr) : Prop :=
  i ≠ .choose ∧ (i.Changes = true → i = .write p (.sleep (.proc p)) ∨ i = .write p .clearChan)

/-- What changes nothing. -/
theorem idles_of_event {e : Act n} {i : Instr} {r : Answer i} (he : e.event = ⟨i, r⟩)
    (hi : i.Changes = false) (hc : i ≠ .choose) : Idles p e.instr := by
  rw [show e.instr = i from congrArg Sigma.fst he]
  exact ⟨hc, by simp [hi]⟩

/-- The child `q` has been found to have ended: it is freed, unless `copyout` fails. -/
def ReapsFound (addr : Bool) (q : Slot) (L : List (Act n)) (r : Int) : Prop :=
  ∃ e₁ e₂ L' s ch, L = e₁ :: e₂ :: L' ∧ Act.event e₁ = ⟨.shared, s⟩ ∧ Act.event e₂ = ⟨.choose, ch⟩ ∧
    (((addr = true ∧ ch = .fail) ∧ r = -1 ∧ ∃ e₃ e₄, L' = [e₃, e₄] ∧
        Act.event e₃ = ⟨.release (.proc q), ()⟩ ∧ Act.event e₄ = ⟨.release .wait, ()⟩) ∨
      ¬(addr = true ∧ ch = .fail) ∧ r = (s.mem.proc q).pid ∧ ∃ e₃ e₄ e₅, L' = [e₃, e₄, e₅] ∧
        Act.event e₃ = ⟨.write q .free, ()⟩ ∧ Act.event e₄ = ⟨.release (.proc q), ()⟩ ∧
        Act.event e₅ = ⟨.release .wait, ()⟩)

/-- The child `q` of `p` has ended. -/
def Reaps (p : Slot) (addr : Bool) (q : Slot) (L : List (Act n)) (r : Int) : Prop :=
  ∃ e₁ e₂ e₃ L', L = e₁ :: e₂ :: e₃ :: L' ∧
    Act.event e₁ = ⟨.parentOf q, some p⟩ ∧ Act.event e₂ = ⟨.acquire (.proc q), ()⟩ ∧
    Act.event e₃ = ⟨.stateIs q .zombie, true⟩ ∧ ReapsFound addr q L' r

/-- A call of the loop of `wait`. -/
def WaitLoop (p : Slot) (addr : Bool) (L : List (Act n)) (r : Int) : Prop :=
  ∃ L₁ L₂, L = L₁ ++ L₂ ∧ (∀ e ∈ L₁, Idles p e.instr) ∧
    (L₂ = [] ∧ r = -1 ∨ ∃ q, Reaps p addr q L₂ r)

/-- What the procedures do, as far as `wait` needs it. -/
def waitSummary : Routine → List (Act n) → Int → Prop
  | .wait p addr, L, r => WaitLoop p addr L r
  | _, _, _ => True

/-- `reap`. -/
theorem outcome_reap {S : Routine → List (Act n) → Int → Prop}
    (hx : Outcome Act.event S (reap q addr) L r) : ReapsFound addr q L r := by
  simp only [reap, slot, Prog.bind_assoc, outcome_bind] at hx
  obtain ⟨s, _, _, rfl, h₄, y, _, _, rfl, ⟨rfl, rfl⟩, ch, _, L', rfl, h₅, hx⟩ := hx
  obtain ⟨e₄, rfl, he₄⟩ := (outcome_issue _ _).mp h₄
  obtain ⟨e₅, rfl, he₅⟩ := (outcome_issue _ _).mp h₅
  refine ⟨e₄, e₅, L', s, ch, rfl, he₄, he₅, ?_⟩
  split_ifs at hx with hfail
  · simp only [outcome_bind] at hx
    obtain ⟨_, _, _, rfl, h₆, _, _, _, rfl, h₇, rfl, rfl⟩ := hx
    obtain ⟨e₆, rfl, he₆⟩ := (outcome_issue _ _).mp h₆
    obtain ⟨e₇, rfl, he₇⟩ := (outcome_issue _ _).mp h₇
    exact .inl ⟨hfail, rfl, e₆, e₇, rfl, he₆, he₇⟩
  · simp only [outcome_bind] at hx
    obtain ⟨_, _, _, rfl, h₆, _, _, _, rfl, h₇, _, _, _, rfl, h₈, rfl, rfl⟩ := hx
    obtain ⟨e₆, rfl, he₆⟩ := (outcome_issue _ _).mp h₆
    obtain ⟨e₇, rfl, he₇⟩ := (outcome_issue _ _).mp h₇
    obtain ⟨e₈, rfl, he₈⟩ := (outcome_issue _ _).mp h₈
    exact .inr ⟨hfail, rfl, e₆, e₇, e₈, rfl, he₆, he₇, he₈⟩

/-- The scan finds a child that has ended, or only looks. -/
theorem outcome_waitScan {S : Routine → List (Act n) → Int → Prop} (ps : List Slot) (h : Bool)
    {res : Int ⊕ Bool} (hx : Outcome Act.event S (waitScan p addr ps h) L res) :
    (∃ b, res = .inr b) ∧ (∀ e ∈ L, Idles p e.instr) ∨
      ∃ r L₁ L₂ q, res = .inl r ∧ L = L₁ ++ L₂ ∧ (∀ e ∈ L₁, Idles p e.instr) ∧
        Reaps p addr q L₂ r := by
  induction ps generalizing h L with
  | nil =>
      obtain ⟨rfl, rfl⟩ := hx
      exact .inl ⟨⟨h, rfl⟩, by simp⟩
  | cons pp ps ih =>
      -- some instructions, then the rest of the scan
      have hrest : ∀ (L₁ L₂ : List (Act n)) h, (∀ e ∈ L₁, Idles p e.instr) →
          Outcome Act.event S (waitScan p addr ps h) L₂ res →
          (∃ b, res = .inr b) ∧ (∀ e ∈ L₁ ++ L₂, Idles p e.instr) ∨
            ∃ r L₁' L₂' q, res = .inl r ∧ L₁ ++ L₂ = L₁' ++ L₂' ∧
              (∀ e ∈ L₁', Idles p e.instr) ∧ Reaps p addr q L₂' r := by
        intro L₁ L₂ h hidle hx
        have happend : ∀ {K : List (Act n)}, (∀ e ∈ K, Idles p e.instr) →
            ∀ e ∈ L₁ ++ K, Idles p e.instr := fun hK e he =>
          (List.mem_append.mp he).elim (hidle e) (hK e)
        rcases ih h hx with ⟨hb, hidle'⟩ | ⟨r, L₁', L₂', q, hr, rfl, hidle', hreap⟩
        · exact .inl ⟨hb, happend hidle'⟩
        · exact .inr ⟨r, L₁ ++ L₁', L₂', q, hr, (List.append_assoc ..).symm, happend hidle', hreap⟩
      simp only [waitScan, outcome_bind] at hx
      obtain ⟨par, _, L', rfl, h₁, hx⟩ := hx
      obtain ⟨e₁, rfl, he₁⟩ := (outcome_issue _ _).mp h₁
      have hi₁ : Idles p e₁.instr := idles_of_event he₁ rfl (by simp)
      split_ifs at hx with hpar
      · simp only [outcome_bind] at hx
        obtain ⟨_, _, _, rfl, h₂, zomb, _, L', rfl, h₃, hx⟩ := hx
        obtain ⟨e₂, rfl, he₂⟩ := (outcome_issue _ _).mp h₂
        obtain ⟨e₃, rfl, he₃⟩ := (outcome_issue _ _).mp h₃
        have hi₂ : Idles p e₂.instr := idles_of_event he₂ rfl (by simp)
        have hi₃ : Idles p e₃.instr := idles_of_event he₃ rfl (by simp)
        split_ifs at hx with hz
        · subst hz hpar
          simp only [outcome_bind] at hx
          obtain ⟨r, _, _, rfl, hx, rfl, rfl⟩ := hx
          refine .inr ⟨r, [], _, pp, rfl, rfl, by simp, e₁, e₂, e₃, _, ?_, he₁, he₂, he₃,
            outcome_reap hx⟩
          simp
        · simp only [outcome_bind] at hx
          obtain ⟨_, _, L', rfl, h₄, hx⟩ := hx
          obtain ⟨e₄, rfl, he₄⟩ := (outcome_issue _ _).mp h₄
          have hi₄ : Idles p e₄.instr := idles_of_event he₄ rfl (by simp)
          exact hrest [e₁, e₂, e₃, e₄] L' true (by simp [hi₁, hi₂, hi₃, hi₄]) hx
      · exact hrest [e₁] L' h (by simp [hi₁]) hx

theorem only_quiet {i : Instr} (hi : i.Changes = false) (hc : i ≠ .choose) :
    (Prog.issue i : Code (Answer i)).Only (Idles p) fun _ => False :=
  (only_issue _).mpr ⟨hc, by simp [hi]⟩

theorem only_sleep : (sleep p (.proc p) .wait).Only (Idles p) fun _ => False := by
  refine .bind (only_quiet rfl (by simp)) fun _ => .bind (only_quiet rfl (by simp)) fun _ =>
    .bind ?_ fun _ => .bind ?_ fun _ => .bind ?_ fun _ => .bind (only_quiet rfl (by simp)) fun _ =>
      only_quiet rfl (by simp)
  · exact (only_issue _).mpr ⟨by simp, fun _ => .inl rfl⟩
  · exact .bind (only_quiet rfl (by simp)) fun _ => .bind (only_quiet rfl (by simp)) fun _ =>
      only_quiet rfl (by simp)
  · exact (only_issue _).mpr ⟨by simp, fun _ => .inr rfl⟩

theorem only_waitPointless (havekids : Bool) :
    (waitPointless p havekids).Only (Idles p) fun _ => False := by
  unfold waitPointless
  split
  · refine .bind (only_quiet rfl (by simp)) fun _ => .bind ?_ fun _ =>
      .bind (only_quiet rfl (by simp)) fun _ => only_pure _
    exact .bind (only_quiet rfl (by simp)) fun _ => only_pure _
  · exact only_pure _

/-- **What a round of `wait` does, the loop does.** -/
theorem waitSummary_sound : Summary (Act.event (n := n)) waitSummary Routine.body := by
  intro f L r hx
  cases f with
  | wait p addr =>
      simp only [Routine.body, waitRound, outcome_bind] at hx
      obtain ⟨res, L₁, L₂, rfl, hscan, hx⟩ := hx
      rcases outcome_waitScan slots false hscan with ⟨⟨b, rfl⟩, hidle⟩ |
        ⟨r', K₁, K₂, q, rfl, rfl, hidle, hreap⟩
      · simp only [outcome_bind] at hx
        obtain ⟨b', K₁, K₂, rfl, hpoint, hx⟩ := hx
        have hidle' := hpoint.only (only_waitPointless b) (by simp)
        have hboth : ∀ e ∈ L₁ ++ K₁, Idles p e.instr := fun e he =>
          (List.mem_append.mp he).elim (hidle e) (hidle' e)
        split_ifs at hx
        · simp only [outcome_bind] at hx
          obtain ⟨_, _, _, rfl, h₁, rfl, rfl⟩ := hx
          obtain ⟨e, rfl, he⟩ := (outcome_issue _ _).mp h₁
          refine ⟨_, [], (List.append_nil _).symm, fun e' he' => ?_, .inl ⟨rfl, rfl⟩⟩
          simp only [List.mem_append, List.mem_singleton, List.append_nil] at he'
          rcases he' with he' | he' | rfl
          · exact hidle e' he'
          · exact hidle' e' he'
          · exact idles_of_event he rfl (by simp)
        · simp only [outcome_bind] at hx
          obtain ⟨_, K₃, _, rfl, hsleep, _, _, _, rfl, ⟨J₁, J₂, rfl, hloop, hend⟩, rfl, rfl⟩ := hx
          have hidle₃ := hsleep.only only_sleep (by simp)
          refine ⟨L₁ ++ K₁ ++ K₃ ++ J₁, J₂, by simp, fun e he => ?_, hend⟩
          simp only [List.mem_append] at he
          rcases he with ((he | he) | he) | he
          · exact hidle e he
          · exact hidle' e he
          · exact hidle₃ e he
          · exact hloop e he
      · obtain ⟨rfl, rfl⟩ := hx
        exact ⟨K₁, K₂, by simp, hidle, .inr ⟨q, hreap⟩⟩
  | _ => trivial

/-- `wait`. -/
theorem outcome_wait (hx : Outcome Act.event waitSummary (wait p addr) L r) :
    WaitLoop p addr L r := by
  simp only [wait, outcome_bind] at hx
  obtain ⟨_, _, _, rfl, h₁, _, _, _, rfl, ⟨K₁, K₂, rfl, hidle, hend⟩, rfl, rfl⟩ := hx
  obtain ⟨e, rfl, he⟩ := (outcome_issue _ _).mp h₁
  refine ⟨e :: K₁, K₂, by simp, fun e' he' => ?_, hend⟩
  rcases List.mem_cons.mp he' with rfl | he'
  · exact idles_of_event he rfl (by simp)
  · exact hidle e' he'

/-! ## What the locks of `wait` are good for -/

/-- An instruction that changes neither the process table nor the queue. -/
theorem execute_mem {c : Fin n} {e : Env} {i : Instr} {r : Answer i}
    (hex : execute k c e i = some (k', r)) (hi : i.Changes = false) : k'.mem = k.mem := by
  cases i with
  | write p w | insert p | retrieve | dispatch p | init p => simp [Instr.Changes] at hi
  | acquire l | release l | switch p =>
      simp only [execute, Option.ite_none_right_eq_some, Option.some.injEq, Prod.mk.injEq] at hex
      obtain ⟨-, rfl, -⟩ := hex
      rfl
  | panic => simp [execute] at hex
  | _ =>
      simp only [execute, Option.some.injEq, Prod.mk.injEq] at hex
      obtain ⟨rfl, -⟩ := hex
      rfl

/-- A lock is released by nothing else. -/
theorem execute_lock {c c' : Fin n} {e : Env} {i : Instr} {r : Answer i} {l : Lock}
    (hex : execute k c e i = some (k', r)) (hi : i.Changes = false) (hl : i ≠ .release l)
    (hheld : k.lock l = some c') : k'.lock l = some c' := by
  cases i with
  | write p w | insert p | retrieve | dispatch p | init p => simp [Instr.Changes] at hi
  | acquire l' =>
      simp only [execute, Option.ite_none_right_eq_some, Option.some.injEq, Prod.mk.injEq] at hex
      obtain ⟨hfree, rfl, -⟩ := hex
      have hne : l ≠ l' := fun e => by simp [← e, hheld] at hfree
      simpa [hne] using hheld
  | release l' =>
      simp only [execute, Option.ite_none_right_eq_some, Option.some.injEq, Prod.mk.injEq] at hex
      obtain ⟨-, rfl, -⟩ := hex
      have hne : l ≠ l' := fun e => hl (e ▸ rfl)
      simpa [hne] using hheld
  | switch p =>
      simp only [execute, Option.ite_none_right_eq_some, Option.some.injEq, Prod.mk.injEq] at hex
      obtain ⟨-, rfl, -⟩ := hex
      exact hheld
  | panic => simp [execute] at hex
  | _ =>
      simp only [execute, Option.some.injEq, Prod.mk.injEq] at hex
      obtain ⟨rfl, -⟩ := hex
      exact hheld

/-- Only `clockintr` counts. -/
theorem execute_ticks {c : Fin n} {e : Env} {i : Instr} {r : Answer i}
    (hex : execute k c e i = some (k', r)) (hi : i ≠ .tick) :
    k'.shared.ticks = k.shared.ticks := by
  cases i with
  | tick => exact absurd rfl hi
  | acquire l | release l | switch p =>
      simp only [execute, Option.ite_none_right_eq_some, Option.some.injEq, Prod.mk.injEq] at hex
      obtain ⟨-, rfl, -⟩ := hex
      rfl
  | insert p | retrieve =>
      simp only [execute] at hex
      split at hex
      · obtain ⟨rfl, -⟩ := Prod.mk.inj (Option.some.inj hex)
        rfl
      · simp at hex
  | panic => simp [execute] at hex
  | _ =>
      simp only [execute, Option.some.injEq, Prod.mk.injEq] at hex
      obtain ⟨rfl, -⟩ := hex
      rfl

/-- The thread holds the lock, and what it protects is as in `m`. -/
structure Guards (t : Thread n) (l : Lock) (m : Mem) (k : Kernel n) : Prop where
  holds : k.Holds t l
  keeps : l.Keeps m k.mem

/-- The instructions of a call, with what is so between them. -/
structure Course (t : Thread n) (L : List (Act n)) : Prop where
  still : L.IsChain (fun e₁ e₂ => Still t e₁ e₂.before)
  executed : ∀ e ∈ L, ∃ ℓ, Run e.before ℓ ∧ e.before.thread e.cpu = t ∧
    e.before.Issues e.cpu e.instr ∧
    execute e.before e.cpu e.env e.instr = some (e.after, e.answer)

theorem Returned.course {α : Type} {x₀ : Code α} {k₀ : Kernel n} {ℓ₀ : Ledger n} {a : α}
    (h : Returned P t x₀ k₀ ℓ₀ k ℓ L a) : Course t L := by
  obtain ⟨next, y, h⟩ := h
  refine ⟨h.still.1, fun e he => ?_⟩
  obtain ⟨ℓ', hrun, -, hrest⟩ := h.executed he
  exact ⟨ℓ', hrun.run, hrest⟩

theorem Course.within {K : List (Act n)} (h : Course t L) (hK : K <:+: L) : Course t K :=
  ⟨ List.IsChain.infix h.still hK, fun e he => h.executed e (hK.subset he)⟩

theorem Course.append_right {L₁ L₂ : List (Act n)} (h : Course t (L₁ ++ L₂)) : Course t L₂ :=
  h.within (List.suffix_append _ _).isInfix

section

variable {l : Lock} {m : Mem} {e e₁ e₂ : Act n}

theorem Guards.next (h : Guards t l m e₁.after) (hs : Still t e₁ e₂.before) :
    Guards t l m e₂.before :=
  ⟨(hs l h.holds).1, h.keeps.trans (hs l h.holds).2⟩

theorem Guards.exec (h : Guards t l m e.before)
    (hex : execute e.before e.cpu e.env e.instr = some (e.after, e.answer))
    (hi : e.instr.Changes = false) (hl : e.instr ≠ .release l) (hsw : ∀ p, e.instr ≠ .switch p) :
    Guards t l m e.after := by
  obtain ⟨⟨c, hc, hlc⟩, hkeep⟩ := h
  have hrunning := execute_running hex fun p => ⟨fun e => by simp [e, Instr.Changes] at hi, hsw p⟩
  refine ⟨⟨c, ?_, execute_lock hex hi hl hlc⟩, ?_⟩
  · rw [Kernel.thread_congr (congrFun hrunning c), hc]
  · rwa [execute_mem hex hi]

/-- The instruction and its answer are those of the event. -/
theorem Act.execute_of_event {i : Instr} {r : Answer i} (he : e.event = ⟨i, r⟩)
    (hex : execute e.before e.cpu e.env e.instr = some (e.after, e.answer)) :
    execute e.before e.cpu e.env i = some (e.after, r) := by
  obtain ⟨b, c, env, i', r', a⟩ := e
  cases he
  exact hex

theorem Act.instr_of_event {i : Instr} {r : Answer i} (he : e.event = ⟨i, r⟩) : e.instr = i :=
  congrArg Sigma.fst he

end

/-- What `wait` has found when it comes to `reap`, and what it has copied. -/
structure Found (t : Thread n) (p q : Slot) (m : Mem) (k : Kernel n) : Prop where
  zombie : (m.proc q).state = .zombie
  parent : (m.proc q).parent = some p
  wait : Guards t .wait m k
  child : Guards t (.proc q) m k

theorem Found.next {m : Mem} {e₁ e₂ : Act n} (h : Found t p q m e₁.after)
    (hs : Still t e₁ e₂.before) : Found t p q m e₂.before :=
  ⟨h.zombie, h.parent, h.wait.next hs, h.child.next hs⟩

/-- The scan reads the parent of `q` under `wait_lock`, then its state under its own lock. -/
theorem Course.found {e₁ e₂ e₃ : Act n} {K : List (Act n)} (h : Course t (e₁ :: e₂ :: e₃ :: K))
    (he₁ : e₁.event = ⟨.parentOf q, some p⟩) (he₂ : e₂.event = ⟨.acquire (.proc q), ()⟩)
    (he₃ : e₃.event = ⟨.stateIs q .zombie, true⟩) : Found t p q e₃.before.mem e₃.after := by
  obtain ⟨⟨ℓ₁, hrun, ht, hissue, hex₁⟩, ⟨-, -, ht₂, -, hex₂⟩, ⟨-, -, -, -, hex₃⟩⟩ :=
    And.intro (h.executed e₁ (by simp)) (And.intro (h.executed e₂ (by simp))
      (h.executed e₃ (by simp)))
  obtain ⟨hs₁₂, hs₂₃, -⟩ : Still t e₁ e₂.before ∧ Still t e₂ e₃.before ∧ True := by
    have := h.still
    simp only [List.isChain_cons_cons] at this
    exact ⟨this.1, this.2.1, trivial⟩
  have hi₁ := Act.instr_of_event he₁
  have hi₂ := Act.instr_of_event he₂
  have hi₃ := Act.instr_of_event he₃
  -- the parent is read under `wait_lock`
  obtain ⟨V, hV⟩ := hrun.traced false
  have hcore := core_traced spared_false hV
  obtain ⟨tr, σ, hb⟩ := hcore.base
  have hwait₁ : e₁.before.Holds t .wait := by
    rw [hi₁] at hissue
    obtain ⟨g, hg⟩ := hissue
    exact ⟨e₁.cpu, ht, (hb.locking.lock _ _).mpr (hcore.pre hg)⟩
  have hparent : (e₁.before.mem.proc q).parent = some p := by
    have := Act.execute_of_event he₁ hex₁
    simp only [execute, Option.some.injEq, Prod.mk.injEq] at this
    exact this.2
  have hw₁ : Guards t .wait e₁.before.mem e₁.after :=
    Guards.exec ⟨hwait₁, .refl _ _⟩ hex₁ (by simp [hi₁, Instr.Changes]) (by simp [hi₁])
      (by simp [hi₁])
  have hw₃ : Guards t .wait e₁.before.mem e₃.before :=
    ((hw₁.next hs₁₂).exec hex₂ (by simp [hi₂, Instr.Changes]) (by simp [hi₂])
      (by simp [hi₂])).next hs₂₃
  have hc₂ : e₂.after.Holds t (.proc q) := by
    have := Act.execute_of_event he₂ hex₂
    simp only [execute, Option.ite_none_right_eq_some, Option.some.injEq, Prod.mk.injEq] at this
    obtain ⟨-, htake, -⟩ := this
    exact ⟨e₂.cpu, by rw [← htake]; exact ht₂, by simp [← htake]⟩
  have hc₃ : Guards t (.proc q) e₃.before.mem e₃.before := ⟨(hs₂₃ _ hc₂).1, .refl _ _⟩
  have hstate : (e₃.before.mem.proc q).state = .zombie := by
    have := Act.execute_of_event he₃ hex₃
    simp only [execute, Option.some.injEq, Prod.mk.injEq, decide_eq_true_eq] at this
    exact this.2
  refine ⟨hstate, (hw₃.keeps q).1.trans hparent, ?_, ?_⟩
  · exact Guards.exec ⟨hw₃.holds, .refl _ _⟩ hex₃ (by simp [hi₃, Instr.Changes]) (by simp [hi₃])
      (by simp [hi₃])
  · exact hc₃.exec hex₃ (by simp [hi₃, Instr.Changes]) (by simp [hi₃]) (by simp [hi₃])

/-- An instruction that releases nothing and changes nothing. -/
theorem Found.exec {m : Mem} {e : Act n} (h : Found t p q m e.before)
    (hex : execute e.before e.cpu e.env e.instr = some (e.after, e.answer))
    (hi : e.instr = .shared ∨ e.instr = .choose) : Found t p q m e.after := by
  have hquiet : e.instr.Changes = false ∧ (∀ l, e.instr ≠ .release l) ∧
      ∀ p, e.instr ≠ .switch p := by
    rcases hi with hi | hi <;> simp [hi, Instr.Changes]
  exact ⟨h.zombie, h.parent, h.wait.exec hex hquiet.1 (hquiet.2.1 _) hquiet.2.2,
    h.child.exec hex hquiet.1 (hquiet.2.1 _) hquiet.2.2⟩

/-- The status of a process that has ended is the one it has exited with. -/
theorem exited_local :
    Local P z fun _ x a _ _ => x.state = .zombie → a.status = some x.xstate where
  links {p x x' a v m} hx h := by
    have hstate : x'.state = x.state := by simpa using congrArg Proc.state hx
    have hxstate : x'.xstate = x.xstate := by simpa using congrArg Proc.xstate hx
    rwa [hstate, hxstate]
  view _ _ _ h := h
  boot p := by simp [bootMem, rbinit, Proc.zero]
  tick _ _ _ _ h := h
  write {k ℓ V tr σ c e p w} _ h := by
    cases w with
    | exit status => exact fun _ => rfl
    | fold | sleep chan | used | ready | free => simp [Write.apply]
    | _ => exact h
  insert _ h := h
  retrieve _ _ h := h
  dispatch _ _ := by simp
  init {k ℓ V tr σ c e p root z'} hx _ := by
    have hst : (k.mem.proc p).init.state = .used := hx.base.used_of_head hx.pre.2
    simp [hst]
  runtime _ h := h
  check _ h := h
  user _ _ h := h

theorem exited_traced (hV : Traced P z k ℓ V) (hz : Spared P z) (q : Slot)
    (h : (k.mem.proc q).state = .zombie) :
    (ℓ.account q).status = some (k.mem.proc q).xstate :=
  exited_local.kept.traced hz hV q h

/-! ## What `wait` does -/

theorem Idles.freed {i : Instr} (h : Idles p i) : i.freed = none := by
  obtain ⟨-, h⟩ := h
  cases i with
  | write q w =>
      rcases h rfl with h | h <;> obtain ⟨-, rfl⟩ := Instr.write.inj h <;> rfl
  | _ => rfl

theorem frees_eq_nil (h : ∀ e ∈ L, Instr.freed e.instr = none) : frees L = [] :=
  List.filterMap_eq_nil_iff.mpr h

theorem mem_changes {i : Instr} : i ∈ changes L ↔ (∃ e ∈ L, Act.instr e = i) ∧ i.Changes := by
  simp [changes]

/-- A call that finds nothing. -/
theorem waitSpec_idle (h : ∀ e ∈ L, Idles p (Act.instr e)) : WaitSpec p addr L (-1) where
  result := .inl ⟨frees_eq_nil fun e he => (h e he).freed, rfl⟩
  status q hq := by simp [frees_eq_nil fun e he => (h e he).freed] at hq
  own i hi := by
    obtain ⟨⟨e, he, rfl⟩, hi⟩ := mem_changes.mp hi
    exact .inr ((h e he).2 hi)
  copyout _ hch := by
    obtain ⟨e, he, hev⟩ := List.mem_map.mp hch
    exact absurd (Act.instr_of_event hev) (h e he).1

/-- A call that finds a child. -/
theorem waitSpec_reaps {L₁ L₂ : List (Act n)} (h : Course t (L₁ ++ L₂))
    (hidle : ∀ e ∈ L₁, Idles p (Act.instr e)) (hr : Reaps p addr q L₂ r) :
    WaitSpec p addr (L₁ ++ L₂) r := by
  obtain ⟨e₁, e₂, e₃, _, rfl, he₁, he₂, he₃, e₄, e₅, L', s, ch, rfl, he₄, he₅, hend⟩ := hr
  have hc := h.append_right
  have hfound := hc.found he₁ he₂ he₃
  have hchain := hc.still
  simp only [List.isChain_cons_cons] at hchain
  obtain ⟨-, -, hs₃₄, hs₄₅, hchain⟩ := hchain
  obtain ⟨-, -, -, -, hex₄⟩ := hc.executed e₄ (by simp)
  obtain ⟨-, -, -, -, hex₅⟩ := hc.executed e₅ (by simp)
  have hi₁ := Act.instr_of_event he₁
  have hi₂ := Act.instr_of_event he₂
  have hi₃ := Act.instr_of_event he₃
  have hi₄ := Act.instr_of_event he₄
  have hi₅ := Act.instr_of_event he₅
  have hf₄ := hfound.next hs₃₄
  have hf₅ := ((hf₄.exec hex₄ (.inl hi₄)).next hs₄₅).exec hex₅ (.inr hi₅)
  have hread : s.mem = e₄.before.mem := by
    have := Act.execute_of_event he₄ hex₄
    simp only [execute, Option.some.injEq, Prod.mk.injEq] at this
    exact this.2 ▸ rfl
  have hidle₁ : frees L₁ = [] := frees_eq_nil fun e he => (hidle e he).freed
  have hchanges : ∀ K : List (Act n), changes (L₁ ++ (e₁ :: e₂ :: e₃ :: e₄ :: e₅ :: K)) =
      changes L₁ ++ changes K := fun K => by
    simp [changes, hi₁, hi₂, hi₃, hi₄, hi₅, Instr.Changes]
  have hown : ∀ i ∈ changes L₁, i = .write p (.sleep (.proc p)) ∨ i = .write p .clearChan :=
    fun i hi => by
      obtain ⟨⟨e, he, rfl⟩, hi⟩ := mem_changes.mp hi
      exact (hidle e he).2 hi
  have hchoice : ∀ K : List (Act n), (∀ e ∈ K, Act.instr e ≠ .choose) →
      ⟨.choose, .fail⟩ ∈ (L₁ ++ (e₁ :: e₂ :: e₃ :: e₄ :: e₅ :: K)).map Act.event → ch = .fail := by
    intro K hK hmem
    obtain ⟨e, he, hev⟩ := List.mem_map.mp hmem
    have hi := Act.instr_of_event hev
    simp only [List.mem_append, List.mem_cons] at he
    rcases he with he | rfl | rfl | rfl | rfl | rfl | he
    · exact absurd hi (hidle e he).1
    · simp [hi₁] at hi
    · simp [hi₂] at hi
    · simp [hi₃] at hi
    · simp [hi₄] at hi
    · exact eq_of_heq (Sigma.mk.inj (he₅.symm.trans hev)).2
    · exact absurd hi (hK e he)
  rcases hend with ⟨⟨-, -⟩, rfl, e₆, e₇, rfl, he₆, he₇⟩ |
    ⟨hno, rfl, e₆, e₇, e₈, rfl, he₆, he₇, he₈⟩
  · -- `copyout` fails
    have hi₆ := Act.instr_of_event he₆
    have hi₇ := Act.instr_of_event he₇
    obtain ⟨-, -, -, -, hex₆⟩ := hc.executed e₆ (by simp)
    obtain ⟨-, -, -, -, hex₇⟩ := hc.executed e₇ (by simp)
    simp only [List.isChain_cons_cons] at hchain
    obtain ⟨hs₅₆, hs₆₇, -⟩ := hchain
    have hfrees : frees (L₁ ++ [e₁, e₂, e₃, e₄, e₅, e₆, e₇]) = [] := by
      rw [frees, List.filterMap_append, ← frees, hidle₁]
      simp [hi₁, hi₂, hi₃, hi₄, hi₅, hi₆, hi₇, Instr.freed]
    refine ⟨.inl ⟨hfrees, rfl⟩, by simp [hfrees], fun i hi => ?_, fun _ _ => ⟨rfl, hfrees, q, L₁ ++ [e₁, e₂], e₃,
      [e₄, e₅, e₆, e₇], by simp, he₃, ?_, fun e' he' => ?_⟩⟩
    · rw [hchanges] at hi
      have : changes [e₆, e₇] = [] := by simp [changes, hi₆, hi₇, Instr.Changes]
      rw [this, List.append_nil] at hi
      exact .inr (hown i hi)
    · simp [changes, hi₄, hi₅, hi₆, hi₇, Instr.Changes]
    · obtain rfl : e' = e₇ := by simpa using he'.symm
      have hw := ((hf₅.next hs₅₆).wait.exec hex₆ (by simp [hi₆, Instr.Changes]) (by simp [hi₆])
        (by simp [hi₆])).next hs₆₇
      rw [execute_mem hex₇ (by simp [hi₇, Instr.Changes])]
      exact ⟨(hw.keeps q).2 hfound.zombie, (hw.keeps q).1.trans hfound.parent⟩
  · -- it is freed
    have hi₆ := Act.instr_of_event he₆
    have hi₇ := Act.instr_of_event he₇
    have hi₈ := Act.instr_of_event he₈
    simp only [List.isChain_cons_cons] at hchain
    have hf₆ := hf₅.next hchain.1
    have hguarded₄ := hf₄.child.keeps
    have hguarded₆ := hf₆.child.keeps
    have hsame : (e₄.before.mem.proc q).guarded = (e₆.before.mem.proc q).guarded :=
      Eq.trans hguarded₄ (Eq.symm hguarded₆)
    have hpid : (s.mem.proc q).pid = (e₆.before.mem.proc q).pid := by
      rw [hread]
      exact congrArg (fun g => g.2.2.2.2) hsame
    have hfrees : frees (L₁ ++ [e₁, e₂, e₃, e₄, e₅, e₆, e₇, e₈]) = [q] := by
      rw [frees, List.filterMap_append, ← frees, hidle₁]
      simp [hi₁, hi₂, hi₃, hi₄, hi₅, hi₆, hi₇, hi₈, Instr.freed]
    have hcopy := (hf₄.exec hex₄ (.inl hi₄)).next hs₄₅
    have hzombie : (e₅.before.mem.proc q).state = .zombie :=
      (congrArg Prod.fst hcopy.child.keeps).trans hcopy.zombie
    refine ⟨.inr ⟨q, hfrees, e₄, by simp, e₆, by simp, hi₆, (congrArg Prod.fst hguarded₆).trans
      hf₆.zombie, (hf₆.wait.keeps q).1.trans hf₆.parent, hi₄, hsame, hpid⟩, fun q' hq' => ?_,
      fun i hi => ?_, fun haddr hmem => ?_⟩
    · obtain rfl : q' = q := by simpa [hfrees] using hq'
      refine ⟨e₅, by simp, hi₅, hzombie, (hcopy.wait.keeps _).1.trans hcopy.parent, fun ℓ hrun => ?_⟩
      obtain ⟨V, hV⟩ := hrun.traced false
      exact exited_traced hV spared_false _ hzombie
    · rw [hchanges, List.mem_append] at hi
      rcases hi with hi | hi
      · exact .inr (hown i hi)
      · have : changes [e₆, e₇, e₈] = [.write q .free] := by
          rw [changes, List.map_cons, List.map_cons, List.map_cons, hi₆, hi₇, hi₈]
          rfl
        rw [this, List.mem_singleton] at hi
        exact .inl ⟨q, hi⟩
    · exact absurd ⟨haddr, hchoice _ (by simp [hi₆, hi₇, hi₈]) hmem⟩ hno

/-- **What a call of `wait` does.** -/
theorem Returned.waitSpec {k₀ : Kernel n} {ℓ₀ : Ledger n}
    (h : Returned P t (wait p addr) k₀ ℓ₀ k ℓ L r) : WaitSpec p addr L r := by
  obtain ⟨L₁, L₂, rfl, hidle, ⟨rfl, rfl⟩ | ⟨q, hreap⟩⟩ :=
    outcome_wait (h.outcome waitSummary_sound)
  · rw [List.append_nil]
    exact waitSpec_idle hidle
  · exact waitSpec_reaps h.course hidle hreap

/-! ## Parents, and who has ended -/

theorem parenthood_traced (hV : Traced P z k ℓ V) (hz : Spared P z) : Parenthood k ℓ := by
  have hcore := core_traced hz hV
  have hpar := parents_traced hz hV
  obtain ⟨tr, σ, hb⟩ := hcore.base
  refine ⟨fun p hp hi => ?_, fun q hq p => hpar.not_parent (fun hlive => ?_) p, fun p hp hst => ?_,
    fun c p hissue hst => ?_, exited_traced hV hz⟩
  · have hborn : (k.mem.proc p).state.Born := by
      simp only [List.mem_cons, List.not_mem_nil, or_false] at hp
      rcases hp with hp | hp | hp | hp <;> simp [hp, ProcState.Born]
    obtain ⟨q, hq⟩ := hpar.child p (.inl hborn) hi
    refine ⟨q, hq, ?_⟩
    rcases hpar.live p q hq with hst | hst | hst <;> simp [hst]
  · rcases hlive with hst | hst | hst <;> simp [hst] at hq
  · have hborn : (k.mem.proc p).state.Born := by simp [hst, ProcState.Born]
    have hlive := hb.ancestry.live_of_born hborn hp
    simp [hst, ProcState.Live] at hlive
  · obtain ⟨g, hg⟩ := hissue
    obtain ⟨-, -, ⟨-, hwait, hme, hparent⟩ | ⟨-, s, -, hhead⟩⟩ := hcore.pre hg
    · obtain ⟨q, hq⟩ := Option.isSome_iff_exists.mp hme
      rw [hq] at hparent
      exact ⟨(hb.locking.lock _ _).mpr hwait, q, hq, (hpar.known _ _ _ hparent).2⟩
    · simp [hb.used_of_head hhead] at hst

/-- A process becomes a zombie when it exits. -/
theorem zombie_of_step (hrun : Run k ℓ) {mv : Move n} (hs : step k ℓ mv = some (k', ℓ'))
    (hexit : ¬Exits k p mv) (hst : (k.mem.proc p).state ≠ .zombie) :
    (k'.mem.proc p).state ≠ .zombie := by
  obtain ⟨V, hV⟩ := hrun.traced false
  have hcore := core_traced spared_false hV
  obtain ⟨tr, σ, hb⟩ := hcore.base
  obtain ⟨V', hstep⟩ := viewStep_of_step hs V
  cases hstep with
  | call hcode => exact hst
  | interrupt hi hnoff => exact hst
  | @instr c env i g k₁ r hcode hex =>
      rw [Kernel.setCode_mem]
      by_cases hi : i.Changes = false
      · rwa [execute_mem hex hi]
      have hpre := hcore.pre hcode
      cases i with
      | write q w =>
          simp only [execute, Option.some.injEq, Prod.mk.injEq] at hex
          obtain ⟨rfl, -⟩ := hex
          rw [Kernel.setMem_mem, Mem.modify_proc]
          split_ifs with hpq
          · subst hpq
            cases w with
            | exit status => exact absurd ⟨status, _, hcode⟩ hexit
            | fold | sleep chan | used | ready | free => simp [Write.apply, Proc.fold]
            | _ => exact hst
          · exact hst
      | insert q =>
          obtain ⟨m', tr', rfl, hins, -⟩ := hb.insert_cases hpre.2 hex
          rwa [Kernel.setMem_mem, hins.field Proc.state (fun _ => rfl) (fun _ _ => rfl) p]
      | retrieve =>
          rcases hb.retrieve_cases hex with ⟨-, rfl, rfl⟩ | ⟨q, m', tr', rfl, rfl, hret, -⟩
          · exact hst
          · rwa [Kernel.setMem_mem, hret.field Proc.state (fun _ => rfl) (fun _ _ => rfl) p]
      | dispatch q =>
          simp only [execute, Option.some.injEq, Prod.mk.injEq] at hex
          obtain ⟨rfl, -⟩ := hex
          rw [Kernel.setRunning_mem, Kernel.setMem_mem, Xv6Cfs.dispatch, Mem.modify_proc]
          split_ifs
          · simp
          · exact hst
      | init q =>
          simp only [execute, Option.some.injEq, Prod.mk.injEq] at hex
          obtain ⟨rfl, -⟩ := hex
          rw [Kernel.setCode_mem, Kernel.setMem_mem, Mem.modify_proc]
          split_ifs with hpq
          · subst hpq
            exact hst
          · exact hst
      | _ => exact absurd rfl hi

theorem Steps.run {k₀ : Kernel n} {ℓ₀ : Ledger n} (h : Steps P k₀ ℓ₀ k ℓ) (h₀ : Run k₀ ℓ₀) :
    Run k ℓ := by
  induction h with
  | refl => exact h₀
  | tail _ _ hs ih => exact ih.tail hs

/-- **Who has been freed is no zombie** until another process exits in the slot. -/
theorem freedOnce (hrun : Run k ℓ) : FreedOnce k ℓ := by
  intro c e p k₁ ℓ₁ k₂ ℓ₂ hissue hs hsteps
  induction hsteps with
  | refl =>
      obtain ⟨g, hg⟩ := hissue
      simp only [step, hg, execute, Option.some.injEq, Prod.mk.injEq] at hs
      simp [← hs.1, Write.apply]
  | tail hsteps hno hs' ih => exact zombie_of_step (hsteps.run (hrun.tail hs)) hs' hno ih

/-- **Parenthood and reaping.** In every reachable state who has begun has a parent that is alive;
only the parent frees who has ended, and once; and what `wait` returns is what it has freed. -/
theorem parenthood (h : Run k ℓ) :
    Parenthood k ℓ ∧ FreedOnce k ℓ ∧ ∀ t p addr k₀ ℓ₀ L r,
      Returned (fun _ _ _ => True) t (wait p addr) k₀ ℓ₀ k ℓ L r → WaitSpec p addr L r := by
  obtain ⟨V, hV⟩ := h.traced false
  exact ⟨parenthood_traced hV spared_false, freedOnce h, fun t p addr k₀ ℓ₀ L r hr => hr.waitSpec⟩

/-- The first process waits; its child runs and exits; it runs again, until `wait` returns. -/
def reapMoves (b : Fin 2) : List (Move 2 × Thread 2 × Option Slot) :=
  stretch 77 b (.proc 0) {} ++ stretch 4 b (.cpu b) {} ++ fetch b 1 ++ stretch 7 b (.cpu b) {} ++
  stretch 276 b (.proc 1) { trap := .syscall (.exit 7) } ++ stretch 4 b (.cpu b) {} ++
  fetch b 0 ++ stretch 7 b (.cpu b) {} ++ stretch 14 b (.proc 0) {}

/-- The first process begins to wait. -/
def beginReap (s : Kernel 2 × Ledger 2) : Followed 2 Int := ⟨s.1, s.2, wait 0 true⟩

theorem reapMoves_spec : ((execAs (boot 2, Ledger.empty 2) (riseMoves 0 1 ++ bearMoves 1)).any
    fun s => (s.1.calls (.proc 0) (.user 0) ∧ (s.1.mem.proc 0).killed = false) &&
    ((execAs s (stretch 6 1 (.proc 0) { trap := .syscall (.wait true) })).any fun s' =>
      decide (s'.1.thread 1 = .proc 0) &&
      ((reapMoves 1).foldlM (follow (.proc 0) (afterSyscall s.1 0)) (beginReap s')).any fun s =>
        match s.x with
        | .ret r => r = 2
        | _ => false)) = true := by
  decide +kernel

/-- The first process has waited for its child, and freed it. -/
theorem parenthood_first : ∃ (k : Kernel 2) (ℓ : Ledger 2) (L : List (Act 2)), frees L ≠ [] ∧
    Parenthood k ℓ ∧ FreedOnce k ℓ ∧ WaitSpec 0 true L 2 := by
  obtain ⟨s, hs, hspec⟩ := (Option.any_eq_true _ _).mp reapMoves_spec
  obtain ⟨hbear, hspec⟩ := Bool.and_eq_true_iff.mp hspec
  obtain ⟨hcall, hkilled⟩ := of_decide_eq_true hbear
  obtain ⟨s', hs', hspec⟩ := (Option.any_eq_true _ _).mp hspec
  obtain ⟨hb, hspec⟩ := Bool.and_eq_true_iff.mp hspec
  obtain ⟨⟨k₁, ℓ₁, x⟩, hs₁, hret⟩ := (Option.any_eq_true _ _).mp hspec
  have hd := During.syscall (run_execAs .init hs) hcall hkilled hs' (of_decide_eq_true hb)
  obtain ⟨⟨L, hd⟩, -⟩ := hd.followAll (s := beginReap s') hs₁
  cases x with
  | instr i g => exact absurd hret (by simp)
  | call f g => exact absurd hret (by simp)
  | ret r =>
      obtain rfl : r = 2 := of_decide_eq_true hret
      obtain ⟨hparent, honce, hwait⟩ := parenthood hd.run.run
      have hspec : WaitSpec 0 true L 2 := hwait _ _ _ _ _ _ _ ⟨_, _, hd⟩
      refine ⟨k₁, ℓ₁, L, ?_, hparent, honce, hspec⟩
      rcases hspec.result with ⟨-, hr⟩ | ⟨q, hq, -⟩
      · simp at hr
      · simp [hq]

end Xv6Cfs
