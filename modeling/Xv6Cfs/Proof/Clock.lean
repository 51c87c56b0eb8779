import Xv6Cfs.Proof.Discipline
import Xv6Cfs.Proof.Reaping
import Xv6Cfs.Proof.Following

/-!
# How long `sys_sleep` sleeps

The ticks are counted under `tickslock`, and `sys_sleep` looks at them under that lock.
So what it has seen is still so when it gives the lock up, to sleep or to return: it
sleeps as long as fewer ticks have passed than it was asked for, and no longer than
until it sees that they have, or that the process has been killed.
-/

namespace Xv6Cfs

open RedBlack Threads Prog

variable {n : Nat} {α : Type} {P : Kernel n → Ledger n → Move n → Prop} {t : Thread n}
  {k k' k₀ : Kernel n} {ℓ ℓ' ℓ₀ : Ledger n} {L : List (Act n)} {p : Slot} {m r : Int} {t₀ v : Nat}
  {e e₁ e₂ : Act n}

/-! ## `tickslock` -/

/-- The thread holds `tickslock`, and `ticks` is `v`. -/
structure Clocked (t : Thread n) (v : Nat) (k : Kernel n) : Prop where
  holds : k.Holds t .ticks
  ticks : k.shared.ticks = v

/-- `ticks` is as the act has left it, if the thread has held `tickslock` since. -/
def SameTicks (t : Thread n) (e : Act n) (k : Kernel n) : Prop :=
  e.after.Holds t .ticks → k.shared.ticks = e.after.shared.ticks

/-- Another CPU makes a step. -/
theorem SameTicks.other (h : SameTicks t e k) (hs : Still t e k) (hrun : RunWhere P k ℓ)
    {mv : Move n} (ht : k.thread mv.cpu ≠ t) (hstep : step k ℓ mv = some (k', ℓ')) :
    SameTicks t e k' := by
  intro hl
  obtain ⟨V, hV⟩ := hrun.traced false
  have hcore := core_traced spared_false hV
  have hpar := parents_traced spared_false hV
  obtain ⟨tr, σ, hb⟩ := hcore.base
  obtain ⟨V', hstep⟩ := viewStep_of_step hstep V
  cases hstep with
  | call hcode => exact h hl
  | interrupt hi hnoff => exact h hl
  | @instr c env i g k₁ r hcode hex =>
      obtain ⟨⟨c', hc', hlc⟩, -⟩ := hs _ hl
      rw [← h hl]
      by_contra hne
      -- only who holds the lock counts
      have hlock := (Disciplined.execute hb hpar (hcore.pre hcode) hex).ticks hne
      rw [hlc] at hlock
      obtain rfl := Option.some.inj hlock
      exact ht hc'

/-- **No tick is counted between two instructions of a call that holds `tickslock`.** -/
theorem During.clock {x₀ x : Code α} {next : α → Code Int} {y : Code Unit}
    (h : During P t x₀ next k₀ ℓ₀ k ℓ y x L) :
    L.IsChain (fun e₁ e₂ => SameTicks t e₁ e₂.before) ∧ ∀ e ∈ L.getLast?, SameTicks t e k := by
  induction h with
  | start _ _ _ => exact ⟨.nil, by simp⟩
  | @act k k₁ k' ℓ ℓ' L c e i r g hd ht _ hs hex ih =>
      refine ⟨ih.1.append (.singleton _) fun e₁ he₁ e₂ he₂ => ?_, fun e' he' => ?_⟩
      · obtain rfl : _ = e₂ := by simpa using he₂
        exact ih.2 e₁ he₁
      · obtain rfl : _ = e' := by simpa using he'
        have hcode := hd.code
        subst ht
        rw [(During.code_step hcode hs hex).1]
        exact fun _ => rfl
  | call hd ht _ hs ih | handleCall hd ht _ hs ih =>
      refine ⟨ih.1, fun e he hl => ?_⟩
      have hcode := hd.code
      subst ht
      rw [(During.code_call hcode hs).1]
      exact ih.2 e he hl
  | @interrupt k k' ℓ ℓ' L y x c i hd ht _ hs ih =>
      simp only [step, Option.ite_none_right_eq_some, Option.some.injEq, Prod.mk.injEq] at hs
      obtain ⟨-, rfl, -⟩ := hs
      exact ⟨ih.1, fun e he hl => ih.2 e he hl⟩
  | @handle k k₁ k' ℓ ℓ' L x c e i r g hd ht _ hs hex ih =>
      refine ⟨ih.1, fun e he hl => ?_⟩
      -- there is no interrupt under a lock
      have := (hd.still.2 e he).2 ⟨_, hl⟩
      cases this
  | other hd ht _ hs _ ih =>
      exact ⟨ih.1, fun e he => (ih.2 e he).other (hd.still.2 e he).1 hd.run ht hs⟩

/-- The instructions of a call, with what is so of `ticks` between them. -/
structure Timed (t : Thread n) (L : List (Act n)) : Prop where
  course : Course t L
  ticks : L.IsChain (fun e₁ e₂ => SameTicks t e₁ e₂.before)

theorem Returned.timed {x₀ : Code α} {a : α} (h : Returned P t x₀ k₀ ℓ₀ k ℓ L a) : Timed t L := by
  have hcourse := h.course
  obtain ⟨next, y, h⟩ := h
  exact ⟨hcourse, h.clock.1⟩

namespace Timed

theorem append_right {L₁ L₂ : List (Act n)} (h : Timed t (L₁ ++ L₂)) : Timed t L₂ :=
  ⟨h.course.append_right, (List.isChain_append.mp h.ticks).2.1⟩

theorem tail (h : Timed t (e :: L)) : Timed t L := by
  have h : Timed t ([e] ++ L) := h
  exact h.append_right

theorem executed (h : Timed t (e :: L)) : e.before.thread e.cpu = t ∧
    execute e.before e.cpu e.env e.instr = some (e.after, e.answer) := by
  obtain ⟨-, -, ht, -, hex⟩ := h.course.executed e (by simp)
  exact ⟨ht, hex⟩

/-- The next instruction finds the clock as this one has left it. -/
theorem next (h : Timed t (e :: L)) (hc : Clocked t v e.after) :
    ∀ x ∈ L.head?, Clocked t v x.before := by
  intro x hx
  obtain ⟨L', rfl⟩ := List.head?_eq_some_iff.mp hx
  exact ⟨((List.isChain_cons_cons.mp h.course.still).1 _ hc.holds).1,
    ((List.isChain_cons_cons.mp h.ticks).1 hc.holds).trans hc.ticks⟩

theorem acquire (h : Timed t (e :: L)) (he : e.event = ⟨.acquire .ticks, ()⟩) :
    Clocked t e.after.shared.ticks e.after := by
  obtain ⟨ht, hex⟩ := h.executed
  have := Act.execute_of_event he hex
  simp only [execute, Option.ite_none_right_eq_some, Option.some.injEq, Prod.mk.injEq] at this
  obtain ⟨-, htake, -⟩ := this
  exact ⟨⟨e.cpu, by rw [← htake]; exact ht, by simp [← htake]⟩, rfl⟩

/-- An instruction that looks at the shared memory, or is about the lock of a process. -/
theorem quiet (h : Timed t (e :: L)) (hc : Clocked t v e.before)
    (hi : e.instr = .shared ∨ ∃ p, e.instr = .acquire (.proc p) ∨ e.instr = .release (.proc p)) :
    ∀ x ∈ L.head?, Clocked t v x.before := by
  obtain ⟨-, hex⟩ := h.executed
  have hquiet : e.instr.Changes = false ∧ e.instr ≠ .release .ticks ∧
      ∀ p, e.instr ≠ .switch p := by
    rcases hi with hi | ⟨q, hi | hi⟩ <;> simp [hi, Instr.Changes]
  have hholds := (Guards.exec ⟨hc.holds, .refl _ _⟩ hex hquiet.1 hquiet.2.1 hquiet.2.2).holds
  have htick : e.instr ≠ .tick := by
    rcases hi with hi | ⟨q, hi | hi⟩ <;> simp [hi]
  exact h.next ⟨hholds, (execute_ticks hex htick).trans hc.ticks⟩

/-- What it sees of the clock. -/
theorem shared (h : Timed t (e :: L)) {s : Shared} (he : e.event = ⟨.shared, s⟩) :
    s = e.before.shared := by
  have := Act.execute_of_event he h.executed.2
  simp only [execute, Option.some.injEq, Prod.mk.injEq] at this
  exact this.2.symm

end Timed

/-! ## What the code of `sys_sleep` does -/

/-- The ticks since the counter stood at `t₀`. -/
def elapsed (t₀ now : Nat) : Int := ((now : Int) - t₀) % 2 ^ 32

/-- What `sleep` changes for the process `p` on the channel of the clock. -/
def Dozes (p : Slot) (i : Instr) : Prop :=
  i.Changes = true → i = .write p (.sleep .ticks) ∨ i = .write p .clearChan

/-- It sleeps, and has given up `tickslock` once. -/
def DozesOff (p : Slot) (L : List (Act n)) : Prop :=
  ∃ e₁ e₂ L' e₃, L = e₁ :: e₂ :: (L' ++ [e₃]) ∧ Act.event e₁ = ⟨.acquire (.proc p), ()⟩ ∧
    Act.event e₂ = ⟨.release .ticks, ()⟩ ∧ Act.event e₃ = ⟨.acquire .ticks, ()⟩ ∧
    ∀ e ∈ L', Act.instr e ≠ .release .ticks ∧ Dozes p (Act.instr e)

/-- `killed(p)` returns `b`. -/
def Asks (p : Slot) (b : Bool) (L : List (Act n)) : Prop :=
  ∃ e₁ e₂ e₃ s, L = [e₁, e₂, e₃] ∧ Act.event e₁ = ⟨.acquire (.proc p), ()⟩ ∧
    Act.event e₂ = ⟨.shared, s⟩ ∧ Act.event e₃ = ⟨.release (.proc p), ()⟩ ∧
    (s.mem.proc p).killed = b

/-- The rounds of the loop of `sys_sleep`. -/
inductive Naps (p : Slot) (m : Int) (t₀ : Nat) : List (Act n) → Int → Prop where
  | passed {e₁ e₂ : Act n} {s : Shared} : e₁.event = ⟨.shared, s⟩ → m ≤ elapsed t₀ s.ticks →
      e₂.event = ⟨.release .ticks, ()⟩ → Naps p m t₀ [e₁, e₂] 0
  | killed {e₁ e₂ : Act n} {K : List (Act n)} {s : Shared} : e₁.event = ⟨.shared, s⟩ →
      elapsed t₀ s.ticks < m → Asks p true K → e₂.event = ⟨.release .ticks, ()⟩ →
      Naps p m t₀ (e₁ :: (K ++ [e₂])) (-1)
  | again {e₁ : Act n} {K J L : List (Act n)} {s : Shared} {r : Int} : e₁.event = ⟨.shared, s⟩ →
      elapsed t₀ s.ticks < m → Asks p false K → DozesOff p J → Naps p m t₀ L r →
      Naps p m t₀ (e₁ :: (K ++ (J ++ L))) r

/-- What the procedures do, as far as `sys_sleep` needs it. -/
def sleepSummary : Routine → List (Act n) → Int → Prop
  | .sysSleep p m t₀, L, r => Naps p m t₀ L r
  | _, _, _ => True

theorem outcome_killed {S : Routine → List (Act n) → Int → Prop} {b : Bool}
    (hx : Outcome Act.event S (killed p) L b) : Asks p b L := by
  simp only [killed, slot, Prog.bind_assoc, outcome_bind] at hx
  obtain ⟨_, _, _, rfl, h₁, s, _, _, rfl, h₂, _, _, _, rfl, ⟨rfl, rfl⟩, _, _, _, rfl, h₃, rfl,
    rfl⟩ := hx
  obtain ⟨e₁, rfl, he₁⟩ := (outcome_issue _ _).mp h₁
  obtain ⟨e₂, rfl, he₂⟩ := (outcome_issue _ _).mp h₂
  obtain ⟨e₃, rfl, he₃⟩ := (outcome_issue _ _).mp h₃
  exact ⟨e₁, e₂, e₃, s, rfl, he₁, he₂, he₃, rfl⟩

theorem outcome_sleep {S : Routine → List (Act n) → Int → Prop} {u : Unit}
    (hx : Outcome Act.event S (sleep p .ticks .ticks) L u) : DozesOff p L := by
  simp only [sleep, sched, Prog.bind_assoc, outcome_bind] at hx
  obtain ⟨_, _, _, rfl, h₁, _, _, _, rfl, h₂, _, _, _, rfl, h₃, _, _, _, rfl, h₄, _, _, _, rfl, h₅,
    _, _, _, rfl, h₆, _, _, _, rfl, h₇, _, _, _, rfl, h₈, h₉⟩ := hx
  obtain ⟨e₁, rfl, he₁⟩ := (outcome_issue _ _).mp h₁
  obtain ⟨e₂, rfl, he₂⟩ := (outcome_issue _ _).mp h₂
  obtain ⟨e₃, rfl, he₃⟩ := (outcome_issue _ _).mp h₃
  obtain ⟨e₄, rfl, he₄⟩ := (outcome_issue _ _).mp h₄
  obtain ⟨e₅, rfl, he₅⟩ := (outcome_issue _ _).mp h₅
  obtain ⟨e₆, rfl, he₆⟩ := (outcome_issue _ _).mp h₆
  obtain ⟨e₇, rfl, he₇⟩ := (outcome_issue _ _).mp h₇
  obtain ⟨e₈, rfl, he₈⟩ := (outcome_issue _ _).mp h₈
  obtain ⟨e₉, rfl, he₉⟩ := (outcome_issue _ _).mp h₉
  refine ⟨e₁, e₂, [e₃, e₄, e₅, e₆, e₇, e₈], e₉, rfl, he₁, he₂, he₉, ?_⟩
  simp [Act.instr_of_event he₃, Act.instr_of_event he₄, Act.instr_of_event he₅,
    Act.instr_of_event he₆, Act.instr_of_event he₇, Act.instr_of_event he₈, Dozes, Instr.Changes]

/-- **What a round of `sys_sleep` does, the loop does.** -/
theorem sleepSummary_sound : Summary (Act.event (n := n)) sleepSummary Routine.body := by
  intro f L r hx
  cases f with
  | sysSleep p m t₀ =>
      simp only [Routine.body, sysSleepRound, outcome_bind] at hx
      obtain ⟨s, _, L', rfl, h₁, hx⟩ := hx
      obtain ⟨e₁, rfl, he₁⟩ := (outcome_issue _ _).mp h₁
      split_ifs at hx with hlt
      · simp only [outcome_bind] at hx
        obtain ⟨b, K, L', rfl, hask, hx⟩ := hx
        have hask := outcome_killed hask
        split_ifs at hx with hb
        · simp only [outcome_bind] at hx
          obtain ⟨_, _, _, rfl, h₂, rfl, rfl⟩ := hx
          obtain ⟨e₂, rfl, he₂⟩ := (outcome_issue _ _).mp h₂
          exact .killed he₁ hlt (hb ▸ hask) he₂
        · simp only [outcome_bind] at hx
          obtain ⟨_, J, L', rfl, hsleep, hloop⟩ := hx
          have hask' : Asks p false K := by simpa [hb] using hask
          have hloop' : Naps p m t₀ L' r := (outcome_invoke (Routine.sysSleep p m t₀) r).mp hloop
          show Naps p m t₀ (e₁ :: (K ++ (J ++ L'))) r
          exact .again he₁ hlt hask' (outcome_sleep hsleep) hloop'
      · simp only [outcome_bind] at hx
        obtain ⟨_, _, _, rfl, h₂, rfl, rfl⟩ := hx
        obtain ⟨e₂, rfl, he₂⟩ := (outcome_issue _ _).mp h₂
        exact .passed he₁ (not_lt.mp hlt) he₂
  | _ => trivial

/-! ## What a call of `sys_sleep` does -/

/--
What `sys_sleep` does once it has read `t₀`, to the last of its instructions, which is `e`: how
many of `m` ticks have passed when it gives up `tickslock` to sleep, and how many when it returns.
-/
structure SleepSpec (p : Slot) (m : Int) (t₀ : Nat) (L : List (Act n)) (e : Act n) (r : Int) :
    Prop where
  sleeps : ∀ x ∈ L, x.instr = .release .ticks → elapsed t₀ x.before.shared.ticks < m
  last : e.instr = .release .ticks
  result : r = 0 ∧ m ≤ elapsed t₀ e.before.shared.ticks ∨
    r = -1 ∧ elapsed t₀ e.before.shared.ticks < m ∧ ∃ x ∈ L, (x.before.mem.proc p).killed = true
  changes : ∀ i ∈ changes L, i = .write p (.sleep .ticks) ∨ i = .write p .clearChan

/-- Instructions before, that change nothing and do not give up `tickslock`. -/
theorem SleepSpec.append {K : List (Act n)} (h : SleepSpec p m t₀ L e r)
    (hK : ∀ x ∈ K, Dozes p x.instr)
    (hrel : ∀ x ∈ K, x.instr = .release .ticks → elapsed t₀ x.before.shared.ticks < m) :
    SleepSpec p m t₀ (K ++ L) e r where
  sleeps x hx hi := (List.mem_append.mp hx).elim (hrel x · hi) (h.sleeps x · hi)
  last := h.last
  result := h.result.imp_right fun ⟨hr, hlt, x, hx, hk⟩ =>
    ⟨hr, hlt, x, List.mem_append_right _ hx, hk⟩
  changes i hi := by
    rw [Xv6Cfs.changes, List.map_append, List.filter_append] at hi
    rcases List.mem_append.mp hi with hi | hi
    · obtain ⟨⟨x, hx, rfl⟩, hch⟩ := mem_changes.mp hi
      exact hK x hx hch
    · exact h.changes i hi

/-- What `killed` has answered is so. -/
theorem Asks.killed {b : Bool} (h : Asks p b L) (hc : Course t L) :
    ∃ e ∈ L, (e.before.mem.proc p).killed = b := by
  obtain ⟨e₁, e₂, e₃, s, rfl, -, he₂, -, hs⟩ := h
  obtain ⟨-, -, -, -, hex⟩ := hc.executed e₂ (by simp)
  have hread := Act.execute_of_event he₂ hex
  simp only [execute, Option.some.injEq, Prod.mk.injEq] at hread
  exact ⟨e₂, by simp, by rw [← hs, ← hread.2]; rfl⟩

/-- `killed` leaves the clock alone, and sees whether the process is killed. -/
theorem Timed.asks {b : Bool} {K : List (Act n)} (h : Timed t (K ++ e :: L)) (hask : Asks p b K)
    (hc : ∀ x ∈ (K ++ e :: L).head?, Clocked t v x.before) :
    Clocked t v e.before ∧ (∀ x ∈ K, x.instr.Changes = false ∧ x.instr ≠ .release .ticks) ∧
      ∃ x ∈ K, (x.before.mem.proc p).killed = b := by
  have hkilled := hask.killed (h.course.within ⟨[], e :: L, by simp⟩)
  obtain ⟨e₁, e₂, e₃, s, rfl, he₁, he₂, he₃, -⟩ := hask
  have hi₁ := Act.instr_of_event he₁
  have hi₂ := Act.instr_of_event he₂
  have hi₃ := Act.instr_of_event he₃
  have hc₁ : Clocked t v e₁.before := hc e₁ rfl
  have hc₂ := h.quiet hc₁ (.inr ⟨p, .inl hi₁⟩) e₂ rfl
  have hc₃ := h.tail.quiet hc₂ (.inl hi₂) e₃ rfl
  have hc₄ := h.tail.tail.quiet hc₃ (.inr ⟨p, .inr hi₃⟩) e rfl
  exact ⟨hc₄, by simp [hi₁, hi₂, hi₃, Instr.Changes], hkilled⟩

/-- **What the loop of `sys_sleep` does.** -/
theorem Naps.spec (h : Naps p m t₀ L r) (ht : Timed t L)
    (hl : ∀ x ∈ L.head?, x.before.Holds t .ticks) :
    ∃ L' e, L = L' ++ [e] ∧ SleepSpec p m t₀ L' e r := by
  induction h with
  | @passed e₁ e₂ s he₁ hle he₂ =>
      have hc : Clocked t e₁.before.shared.ticks e₂.before :=
        ht.quiet ⟨hl e₁ rfl, rfl⟩ (.inl (Act.instr_of_event he₁)) e₂ rfl
      rw [ht.shared he₁, ← hc.ticks] at hle
      refine ⟨[e₁], e₂, rfl, ?_, Act.instr_of_event he₂, .inl ⟨rfl, hle⟩, ?_⟩
      · simp [Act.instr_of_event he₁]
      · simp [Xv6Cfs.changes, Act.instr_of_event he₁, Instr.Changes]
  | @killed e₁ e₂ K s he₁ hlt hask he₂ =>
      have hi₁ := Act.instr_of_event he₁
      have hK := ht.quiet ⟨hl e₁ rfl, rfl⟩ (.inl hi₁)
      obtain ⟨hc, hquiet, x, hx, hkilled⟩ := ht.tail.asks hask hK
      rw [ht.shared he₁, ← hc.ticks] at hlt
      refine ⟨e₁ :: K, e₂, rfl, ?_, Act.instr_of_event he₂,
        .inr ⟨rfl, hlt, x, List.mem_cons_of_mem _ hx, hkilled⟩, ?_⟩
      · intro y hy hi
        rcases List.mem_cons.mp hy with rfl | hy
        · simp [hi₁] at hi
        · exact absurd hi (hquiet y hy).2
      · intro i hi
        obtain ⟨⟨y, hy, rfl⟩, hch⟩ := mem_changes.mp hi
        rcases List.mem_cons.mp hy with rfl | hy
        · simp [hi₁, Instr.Changes] at hch
        · simp [(hquiet y hy).1] at hch
  | @again e₁ K J L s r he₁ hlt hask hdoze hnaps ih =>
      obtain ⟨a₁, a₂, J', a₃, rfl, ha₁, ha₂, ha₃, hJ⟩ := hdoze
      have hi₁ := Act.instr_of_event he₁
      have hj₁ := Act.instr_of_event ha₁
      have hj₂ := Act.instr_of_event ha₂
      have hj₃ := Act.instr_of_event ha₃
      have hK := ht.quiet ⟨hl e₁ rfl, rfl⟩ (.inl hi₁)
      obtain ⟨hc₁, hquiet, -⟩ := ht.tail.asks hask hK
      have hc₂ := ht.tail.append_right.quiet hc₁ (.inr ⟨p, .inl hj₁⟩) a₂ rfl
      rw [ht.shared he₁, ← hc₂.ticks] at hlt
      -- it has the lock again
      have hlast : Timed t (a₃ :: L) := by
        have : Timed t ((e₁ :: (K ++ a₁ :: a₂ :: J')) ++ a₃ :: L) := by simpa using ht
        exact this.append_right
      have hback := hlast.next (hlast.acquire ha₃)
      obtain ⟨L', e, rfl, hspec⟩ := ih hlast.tail fun x hx => (hback x hx).holds
      refine ⟨e₁ :: (K ++ (a₁ :: a₂ :: (J' ++ [a₃]))) ++ L', e, by simp, hspec.append ?_ ?_⟩
      · intro x hx
        simp only [List.mem_cons, List.mem_append, List.not_mem_nil, or_false] at hx
        rcases hx with rfl | hx | rfl | rfl | hx | rfl
        · simp [Dozes, hi₁, Instr.Changes]
        · simp [Dozes, (hquiet x hx).1]
        · simp [Dozes, hj₁, Instr.Changes]
        · simp [Dozes, hj₂, Instr.Changes]
        · exact (hJ x hx).2
        · simp [Dozes, hj₃, Instr.Changes]
      · intro x hx hi
        simp only [List.mem_cons, List.mem_append, List.not_mem_nil, or_false] at hx
        rcases hx with rfl | hx | rfl | rfl | hx | rfl
        · simp [hi₁] at hi
        · exact absurd hi (hquiet x hx).2
        · simp [hj₁] at hi
        · exact hlt
        · exact absurd hi (hJ x hx).1
        · simp [hj₃] at hi

/--
**`sys_sleep` sleeps for as long as it is asked to.** It reads the clock when it has taken
`tickslock`. Whenever it gives the lock up to sleep, fewer than `m` ticks have passed since; it
returns 0 if `m` ticks have passed at that moment, and otherwise -1, and has been killed.
-/
theorem sleptThrough (h : Returned P (.proc p) (sysSleep p m) k₀ ℓ₀ k ℓ L r) :
    ∃ e₀ L' e, L = e₀ :: (L' ++ [e]) ∧ e₀.instr = .acquire .ticks ∧
      SleepSpec p (max m 0) e₀.after.shared.ticks L' e r := by
  have ht := h.timed
  have hx := h.outcome sleepSummary_sound
  simp only [sysSleep, outcome_bind] at hx
  obtain ⟨_, _, _, rfl, h₁, s, _, K, rfl, h₂, hloop⟩ := hx
  obtain ⟨e₀, rfl, he₀⟩ := (outcome_issue _ _).mp h₁
  obtain ⟨e₁, rfl, he₁⟩ := (outcome_issue _ _).mp h₂
  have hnaps : Naps p (if m < 0 then 0 else m) s.ticks K r :=
    (outcome_invoke (Routine.sysSleep p (if m < 0 then 0 else m) s.ticks) r).mp hloop
  have hmax : (if m < 0 then 0 else m) = max m 0 := by
    split_ifs <;> omega
  have hc₁ : Clocked (.proc p) e₀.after.shared.ticks e₁.before :=
    ht.next (ht.acquire he₀) e₁ rfl
  have hi₁ := Act.instr_of_event he₁
  have hc := ht.tail.quiet hc₁ (.inl hi₁)
  obtain ⟨L', e, rfl, hspec⟩ := hnaps.spec ht.tail.tail fun x hx => (hc x hx).holds
  rw [hmax, ht.tail.shared he₁, hc₁.ticks] at hspec
  refine ⟨e₀, [e₁] ++ L', e, rfl, Act.instr_of_event he₀, hspec.append ?_ ?_⟩
  · simp [Dozes, hi₁, Instr.Changes]
  · simp [hi₁]

/-- It sleeps; `a` counts a tick, and wakes it; `b` runs it again, until `sys_sleep` returns. -/
def dozeMoves (a b : Fin 2) : List (Move 2 × Thread 2 × Option Slot) :=
  stretch 12 b (.proc 0) {} ++ stretch 3 b (.cpu b) {} ++ [(.interrupt a .timer, .cpu a, none)] ++
  stretch 200 a (.cpu a) {} ++ stretch 1 b (.cpu b) {} ++ fetch b 0 ++ stretch 7 b (.cpu b) {} ++
  stretch 7 b (.proc 0) {}

/-- The first process begins to sleep for one tick. -/
def beginDoze (s : Kernel 2 × Ledger 2) : Followed 2 Int := ⟨s.1, s.2, sysSleep 0 1⟩

theorem dozeMoves_spec : ((execAs (boot 2, Ledger.empty 2) (riseMoves 0 1)).any fun s =>
    (s.1.calls (.proc 0) (.user 0) ∧ (s.1.mem.proc 0).killed = false) &&
    ((execAs s (stretch 6 1 (.proc 0) { trap := .syscall (.sleep 1) })).any fun s' =>
      decide (s'.1.thread 1 = .proc 0) &&
      ((dozeMoves 0 1).foldlM (follow (.proc 0) (afterSyscall s.1 0)) (beginDoze s')).any fun s =>
        match s.x with
        | .ret r => r = 0
        | _ => false)) = true := by
  decide +kernel

/-- The first process sleeps for one tick. -/
theorem sleptThrough_first : ∃ (t₀ : Nat) (L : List (Act 2)) (e : Act 2),
    SleepSpec 0 1 t₀ L e 0 := by
  obtain ⟨s, hs, hspec⟩ := (Option.any_eq_true _ _).mp dozeMoves_spec
  obtain ⟨hrise, hspec⟩ := Bool.and_eq_true_iff.mp hspec
  obtain ⟨hcall, hkilled⟩ := of_decide_eq_true hrise
  obtain ⟨s', hs', hspec⟩ := (Option.any_eq_true _ _).mp hspec
  obtain ⟨hb, hspec⟩ := Bool.and_eq_true_iff.mp hspec
  obtain ⟨⟨k₁, ℓ₁, x⟩, hs₁, hret⟩ := (Option.any_eq_true _ _).mp hspec
  have hd := During.syscall (run_execAs .init hs) hcall hkilled hs' (of_decide_eq_true hb)
  obtain ⟨⟨L, hd⟩, -⟩ := hd.followAll (s := beginDoze s') hs₁
  cases x with
  | instr i g => exact absurd hret (by simp)
  | call f g => exact absurd hret (by simp)
  | ret r =>
      obtain rfl : r = 0 := of_decide_eq_true hret
      obtain ⟨e₀, L', e, -, -, hspec⟩ := sleptThrough ⟨_, _, hd⟩
      exact ⟨e₀.after.shared.ticks, L', e, hspec⟩

end Xv6Cfs
