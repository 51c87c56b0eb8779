import Xv6Cfs.Proof.Charges
import Xv6Cfs.Proof.Pids

/-!
# What `kill` hits

The scan of `kill` looks at one slot after the other, each under its own lock. What it
has found is so when it marks the process. What it has not found was nowhere at some
moment of the scan: a pid never comes back, so if there always was a process of that
pid, it was always the same one, in a slot that the scan has looked at.
-/

namespace Xv6Cfs

open RedBlack Threads Prog

variable {n : Nat} {P : Kernel n → Ledger n → Move n → Prop} {t : Thread n} {k k' : Kernel n}
  {ℓ ℓ' : Ledger n} {L : List (Act n)} {V : Thread n → View} {z : Bool} {p q : Slot} {pid r : Int}

/-! ## What the code of `kill` does -/

/-- The slot is looked at and is not that of `pid`. -/
def Passes (pid : Int) (p : Slot) (L : List (Act n)) : Prop :=
  ∃ e₁ e₂ e₃, L = [e₁, e₂, e₃] ∧ Act.event e₁ = ⟨.acquire (.proc p), ()⟩ ∧
    Act.event e₂ = ⟨.pidIs p pid, false⟩ ∧ Act.event e₃ = ⟨.release (.proc p), ()⟩

/-- The process in the slot is made runnable and inserted. -/
def Wakes (p : Slot) (L : List (Act n)) : Prop :=
  ∃ e₁ e₂ e₃ e₄, L = [e₁, e₂, e₃, e₄] ∧ Act.event e₁ = ⟨.write p .fold, ()⟩ ∧
    Act.event e₂ = ⟨.acquire .tree, ()⟩ ∧ Act.event e₃ = ⟨.insert p, ()⟩ ∧
    Act.event e₄ = ⟨.release .tree, ()⟩

/-- The slot is that of `pid`. -/
def Hits (pid : Int) (p : Slot) (L : List (Act n)) : Prop :=
  ∃ e₁ e₂ e₃ e₄ e₅ asleep L', L = e₁ :: e₂ :: e₃ :: e₄ :: (L' ++ [e₅]) ∧
    Act.event e₁ = ⟨.acquire (.proc p), ()⟩ ∧ Act.event e₂ = ⟨.pidIs p pid, true⟩ ∧
    Act.event e₃ = ⟨.write p .kill, ()⟩ ∧ Act.event e₄ = ⟨.stateIs p .sleeping, asleep⟩ ∧
    Act.event e₅ = ⟨.release (.proc p), ()⟩ ∧ if asleep = true then Wakes p L' else L' = []

/-- The slots are looked at in turn. -/
inductive Scans (pid : Int) : List Slot → List (Act n) → Prop where
  | nil : Scans pid [] []
  | cons {p : Slot} {ps : List Slot} {L₁ L₂ : List (Act n)} :
      Passes pid p L₁ → Scans pid ps L₂ → Scans pid (p :: ps) (L₁ ++ L₂)

/-- **What the scan does.** -/
theorem outcome_killFrom {S : Routine → List (Act n) → Int → Prop} (ps : List Slot)
    (hx : Outcome Act.event S (killFrom pid ps) L r) :
    r = -1 ∧ Scans pid ps L ∨
      ∃ ps₁ p ps₂ L₁ L₂, ps = ps₁ ++ p :: ps₂ ∧ L = L₁ ++ L₂ ∧ r = 0 ∧ Scans pid ps₁ L₁ ∧
        Hits pid p L₂ := by
  induction ps generalizing L with
  | nil =>
      obtain ⟨rfl, rfl⟩ := hx
      exact .inl ⟨rfl, .nil⟩
  | cons p ps ih =>
      simp only [killFrom, outcome_bind] at hx
      obtain ⟨_, _, _, rfl, h₁, b, _, L', rfl, h₂, hx⟩ := hx
      obtain ⟨e₁, rfl, he₁⟩ := (outcome_issue _ _).mp h₁
      obtain ⟨e₂, rfl, he₂⟩ := (outcome_issue _ _).mp h₂
      cases b with
      | true =>
          simp only [if_true, killFound, outcome_bind] at hx
          obtain ⟨_, _, _, rfl, ⟨_, _, _, rfl, h₃, b, _, K, rfl, h₄, hK⟩, _, _, _, rfl, h₅, rfl,
            rfl⟩ := hx
          obtain ⟨e₃, rfl, he₃⟩ := (outcome_issue _ _).mp h₃
          obtain ⟨e₄, rfl, he₄⟩ := (outcome_issue _ _).mp h₄
          obtain ⟨e₅, rfl, he₅⟩ := (outcome_issue _ _).mp h₅
          refine .inr ⟨[], p, ps, [], _, rfl, rfl, rfl, .nil, e₁, e₂, e₃, e₄, e₅, b, K, by simp, he₁,
            he₂, he₃, he₄, he₅, ?_⟩
          cases b with
          | true =>
              simp only [if_true, wake, callInsertProcess, outcome_bind] at hK ⊢
              obtain ⟨_, _, _, rfl, h₆, _, _, _, rfl, h₇, _, _, _, rfl, h₈, h₉⟩ := hK
              obtain ⟨e₆, rfl, he₆⟩ := (outcome_issue _ _).mp h₆
              obtain ⟨e₇, rfl, he₇⟩ := (outcome_issue _ _).mp h₇
              obtain ⟨e₈, rfl, he₈⟩ := (outcome_issue _ _).mp h₈
              obtain ⟨e₉, rfl, he₉⟩ := (outcome_issue _ _).mp h₉
              exact ⟨e₆, e₇, e₈, e₉, rfl, he₆, he₇, he₈, he₉⟩
          | false =>
              obtain ⟨rfl, -⟩ := hK
              rfl
      | false =>
          simp only [Bool.false_eq_true, if_false, outcome_bind] at hx
          obtain ⟨_, _, L', rfl, h₃, hx⟩ := hx
          obtain ⟨e₃, rfl, he₃⟩ := (outcome_issue _ _).mp h₃
          have hpass : Passes pid p [e₁, e₂, e₃] := ⟨e₁, e₂, e₃, rfl, he₁, he₂, he₃⟩
          have hcons : ∀ {ps K}, Scans pid ps K → Scans pid (p :: ps) ([e₁, e₂, e₃] ++ K) :=
            .cons hpass
          rcases ih hx with ⟨rfl, hscan⟩ | ⟨ps₁, q, ps₂, L₁, L₂, rfl, rfl, rfl, hscan, hhit⟩
          · exact .inl ⟨rfl, hcons hscan⟩
          · exact .inr ⟨p :: ps₁, q, ps₂, [e₁, e₂, e₃] ++ L₁, L₂, rfl, by simp, rfl, hcons hscan,
              hhit⟩

/-! ## A pid never comes back -/

/-- Only `allocpid` takes a pid. -/
theorem fresh_viewNext {c : Fin n} {e : Env} {i : Instr} {a : Answer i} {x : Int} {o : Option Slot}
    (hpre : instrPre (k.running c) i (V (k.thread c))) (hex : execute k c e i = some (k', a))
    (h : (viewNext k V c i a t).fresh = some (x, o)) :
    (∃ o', (V t).fresh = some (x, o')) ∨ i = .nextpid ∧ x = k.shared.nextpid := by
  -- the view of the thread that goes on
  have hnext : (instrNext (k.thread c).me i (V (k.thread c)) a).fresh = some (x, o) →
      (∃ o', (V (k.thread c)).fresh = some (x, o')) ∨
        i = .nextpid ∧ x = k.shared.nextpid := by
    intro hx
    cases i with
    | acquire l | release l => exact .inl ⟨o, by simpa [instrNext] using hx⟩
    | stateIs p st =>
        simp only [instrNext] at hx
        split_ifs at hx <;> exact .inl ⟨o, hx⟩
    | pidIs p y =>
        simp only [instrNext] at hx
        split_ifs at hx <;> exact .inl ⟨o, hx⟩
    | write p w =>
        cases w with
        | pid y =>
            simp only [instrNext, View.write, Option.some.injEq, Prod.mk.injEq] at hx
            exact .inl ⟨none, hx.1 ▸ hpre.2.2⟩
        | used => simp [instrNext, View.write] at hx
        | _ => exact .inl ⟨o, hx⟩
    | dispatch p | switch p => simp [instrNext] at hx
    | nextpid =>
        simp only [execute, Option.some.injEq, Prod.mk.injEq] at hex
        simp only [instrNext, Option.some.injEq, Prod.mk.injEq] at hx
        exact .inr ⟨rfl, hx.1.symm.trans hex.2.symm⟩
    | _ => exact .inl ⟨o, hx⟩
  have hupdate : (Function.update V (k.thread c)
      (instrNext (k.thread c).me i (V (k.thread c)) a) t).fresh = some (x, o) →
      (∃ o', (V t).fresh = some (x, o')) ∨ i = .nextpid ∧ x = k.shared.nextpid := by
    intro hx
    by_cases ht : t = k.thread c
    · subst ht
      rw [Function.update_self] at hx
      exact hnext hx
    · rw [Function.update_of_ne ht] at hx
      exact .inl ⟨o, hx⟩
  cases i with
  | init p =>
      by_cases ht : t = .proc p
      · simp [viewNext, ht, View.resumed] at h
      · simp only [viewNext, Function.update_of_ne ht] at h
        exact hupdate h
  | _ => exact hupdate h

/-- A slot gets its name when it is used, by a pid that has been taken. -/
theorem named_execute {c : Fin n} {e : Env} {i : Instr} {a : Answer i} {tr : ColorTree Slot}
    {σ : Slot → Sit n} {x : Int} (hpids : Pids k ℓ V z) (hb : Base k V tr σ)
    (hpre : instrPre (k.running c) i (V (k.thread c))) (hex : execute k c e i = some (k', a))
    (h : Named k'.mem x q) : Named k.mem x q ∨ ∃ o, (V (k.thread c)).fresh = some (x, o) := by
  by_cases hi : i.Changes = false
  · rw [execute_mem hex hi] at h
    exact .inl h
  have hsame : ∀ m : Mem, k'.mem = m → ((m.proc q).state = (k.mem.proc q).state ∧
      (m.proc q).pid = (k.mem.proc q).pid) → Named k.mem x q := by
    rintro m rfl ⟨hst, hpid⟩
    exact ⟨hst ▸ h.1, hpid ▸ h.2⟩
  cases i with
  | write p w =>
      simp only [execute, Option.some.injEq, Prod.mk.injEq] at hex
      obtain ⟨rfl, -⟩ := hex
      by_cases hqp : q = p
      · subst hqp
        obtain ⟨hst, hpid⟩ := h
        rw [Kernel.setMem_mem, Mem.modify_self] at hst hpid
        cases w with
        | used =>
            obtain ⟨y, hy⟩ := hpre.2.1
            have : (k.mem.proc q).pid = y := (hpids.given _ y q hy).2.2
            obtain rfl : y = x := this.symm.trans hpid
            exact .inr ⟨_, hy⟩
        | free => exact absurd rfl hst
        | pid y => exact absurd (hb.sits.seen c q _ hpre.2.1) hst
        | fold =>
            refine .inl ⟨fun he => ?_, hpid⟩
            obtain ⟨-, hon, -, hs | ⟨hme, -⟩⟩ := hpre
            · simp [hb.sits.seen c q _ hs] at he
            · simp [hb.sits.running_state hme (Kernel.thread_eq_proc.mpr hme ▸ hon)] at he
        | sleep chan =>
            refine .inl ⟨fun he => ?_, hpid⟩
            simp [hb.sits.running_state hpre.2.2.1
              (Kernel.thread_eq_proc.mpr hpre.2.2.1 ▸ hpre.2.1)] at he
        | exit status =>
            refine .inl ⟨fun he => ?_, hpid⟩
            simp [hb.sits.running_state hpre.1.2.2.1
              (Kernel.thread_eq_proc.mpr hpre.1.2.2.1 ▸ hpre.1.2.1)] at he
        | ready => exact .inl ⟨by simp [hb.used_of_head hpre.2.2], hpid⟩
        | _ => exact .inl ⟨hst, hpid⟩
      · exact .inl (hsame _ rfl (by rw [Kernel.setMem_mem, Mem.modify_ne _ _ hqp]; exact ⟨rfl, rfl⟩))
  | insert p =>
      obtain ⟨m', tr', rfl, hins, -⟩ := hb.insert_cases hpre.2 hex
      exact .inl (hsame m' rfl ⟨hins.field Proc.state (fun _ => rfl) (fun _ _ => rfl) q,
        hins.field Proc.pid (fun _ => rfl) (fun _ _ => rfl) q⟩)
  | retrieve =>
      rcases hb.retrieve_cases hex with ⟨-, rfl, rfl⟩ | ⟨p, m', tr', rfl, rfl, hret, -⟩
      · exact .inl h
      · exact .inl (hsame m' rfl ⟨hret.field Proc.state (fun _ => rfl) (fun _ _ => rfl) q,
          hret.field Proc.pid (fun _ => rfl) (fun _ _ => rfl) q⟩)
  | dispatch p =>
      simp only [execute, Option.some.injEq, Prod.mk.injEq] at hex
      obtain ⟨rfl, -⟩ := hex
      obtain ⟨hst, hpid⟩ := h
      rw [Kernel.setRunning_mem, Kernel.setMem_mem, Xv6Cfs.dispatch, Mem.modify_proc] at hst hpid
      split_ifs at hst hpid with hqp
      · subst hqp
        have hrun : (k.mem.proc q).state = .runnable :=
          hb.runnable_of_retrieved (Kernel.thread_eq_cpu.mpr ⟨hpre.1, rfl⟩ ▸ hpre.2.2.1)
        exact .inl ⟨by simp [hrun], hpid⟩
      · exact .inl ⟨hst, hpid⟩
  | init p =>
      simp only [execute, Option.some.injEq, Prod.mk.injEq] at hex
      obtain ⟨rfl, -⟩ := hex
      refine .inl (hsame _ rfl ?_)
      rw [Kernel.setCode_mem, Kernel.setMem_mem, Mem.modify_proc]
      split_ifs with hqp
      · exact ⟨by rw [hqp]; rfl, by rw [hqp]; rfl⟩
      · exact ⟨rfl, rfl⟩
  | _ => exact absurd rfl hi

/-- **Later on a pid names the slot that it once named**, or none. -/
theorem named_of_steps (hfew : FewPids P) {k₁ k₂ : Kernel n} {ℓ₁ ℓ₂ : Ledger n} {x : Int}
    (hrun : RunWhere P k₁ ℓ₁)
    (hsteps : Steps P k₁ ℓ₁ k₂ ℓ₂) (hp : Named k₁.mem x p) (hq : Named k₂.mem x q) : q = p := by
  -- nobody else has the pid, nor has anybody taken it
  suffices h : ∃ V, Traced P false k₂ ℓ₂ V ∧ x ≤ ℓ₂.allocs ∧ (∀ t o, (V t).fresh ≠ some (x, o)) ∧
      ∀ q, Named k₂.mem x q → q = p by
    obtain ⟨-, -, -, -, h⟩ := h
    exact h q hq
  clear hq
  induction hsteps with
  | refl =>
      obtain ⟨V, hV⟩ := hrun.traced false
      have hpids := pids_traced hfew spared_false hV
      refine ⟨V, hV, hp.2 ▸ (hpids.used p hp.1).2, fun t o he => ?_, fun q hq => ?_⟩
      · exact (hpids.fresh t x o he).2 p hp.1 hp.2
      · exact hpids.distinct q p hq.1 hp.1 (hq.2.trans hp.2.symm)
  | @tail k k' ℓ ℓ' mv _ hP hs ih =>
      obtain ⟨V, hV, hx, hfresh, hnamed⟩ := ih
      have hpids := pids_traced hfew spared_false hV
      have hcore := core_traced spared_false hV
      obtain ⟨tr, σ, hb⟩ := hcore.base
      obtain ⟨V', hstep⟩ := viewStep_of_step hs V
      refine ⟨V', hV.tail hP hstep, ?_⟩
      cases hstep with
      | call hcode => exact ⟨hx, hfresh, hnamed⟩
      | @interrupt c i _ _ =>
          refine ⟨?_, hfresh, hnamed⟩
          rwa [Ledger.recordInterrupt_allocs]
      | @instr c e i g k₁ r hcode hex =>
          have hnew : i = .nextpid → k.shared.nextpid = ℓ.allocs + 1 := by
            rintro rfl
            have := hfew _ _ _ _ hP ⟨_, hcode⟩
            rw [hpids.next, int32_of_isInt32 ⟨by omega, by omega⟩]
          refine ⟨?_, fun t o he => ?_, fun q hq => ?_⟩
          · by_cases hi : i = .nextpid
            · subst hi
              simp only [Ledger.record, Ledger.alloc_allocs, Nat.cast_add, Nat.cast_one]
              omega
            · rwa [Ledger.record_allocs hi]
          · rcases fresh_viewNext (hcore.pre hcode) hex he with ⟨o', ho'⟩ | ⟨hi, hx'⟩
            · exact hfresh t o' ho'
            · have := hnew hi
              omega
          · rcases named_execute hpids hb (hcore.pre hcode) hex hq with hq | ⟨o, ho⟩
            · exact hnamed q hq
            · exact absurd ho (hfresh _ o)

/-! ## What a call of `kill` does -/

theorem Scans.quiet {ps : List Slot} (h : Scans pid ps L) :
    ∀ e ∈ L, (Act.instr e).Changes = false := by
  induction h with
  | nil => simp
  | cons hp _ ih =>
      obtain ⟨e₁, e₂, e₃, rfl, he₁, he₂, he₃⟩ := hp
      intro e he
      rcases List.mem_append.mp he with he | he
      · simp only [List.mem_cons, List.not_mem_nil, or_false] at he
        rcases he with rfl | rfl | rfl
        · rw [Act.instr_of_event he₁]
          rfl
        · rw [Act.instr_of_event he₂]
          rfl
        · rw [Act.instr_of_event he₃]
          rfl
      · exact ih e he

theorem Scans.looks {ps : List Slot} (h : Scans pid ps L) (hp : p ∈ ps) :
    ∃ e ∈ L, Act.event e = ⟨.pidIs p pid, false⟩ := by
  induction h with
  | nil => simp at hp
  | cons hpass _ ih =>
      obtain ⟨e₁, e₂, e₃, rfl, -, he₂, -⟩ := hpass
      rcases List.mem_cons.mp hp with rfl | hp
      · exact ⟨e₂, by simp, he₂⟩
      · obtain ⟨e, he, hev⟩ := ih hp
        exact ⟨e, List.mem_append_right _ he, hev⟩

theorem changes_eq_nil (h : ∀ e ∈ L, (Act.instr e).Changes = false) : changes L = [] := by
  rw [changes, List.filter_eq_nil_iff]
  intro i hi
  obtain ⟨e, he, rfl⟩ := List.mem_map.mp hi
  simp [h e he]

/-- Who is inserted has not been in the queue, and then is once. -/
theorem insert_once {c : Fin n} {e : Env} (hrun : RunWhere P k ℓ) (hissue : k.Issues c (.insert q))
    (hex : execute k c e (.insert q) = some (k', ())) :
    q ∉ queue k.mem ∧ (queue k'.mem).count q = 1 := by
  obtain ⟨V, hV⟩ := hrun.traced false
  have hcore := core_traced spared_false hV
  obtain ⟨tr, σ, hb⟩ := hcore.base
  obtain ⟨g, hg⟩ := hissue
  have hpre := hcore.pre hg
  obtain ⟨l, -, -, -, hσ⟩ := hb.sits.pending_head hpre.2
  have hout : q ∉ queue k.mem := by simp [mem_queue_iff hb, hσ]
  obtain ⟨m', tr', rfl, hins, hq'⟩ := hb.insert_cases hpre.2 hex
  refine ⟨hout, ?_⟩
  rw [Kernel.setMem_mem, hins.rep.queue_eq, hins.toList,
    (StableQueue.perm_insertBy _ q tr.toList).count_eq, List.count_cons_self,
    List.count_eq_zero.mpr]
  rwa [← hb.queue.rep.queue_eq]

/-- What `pidIs` has answered is so. -/
theorem pid_of_act {e : Act n} {b : Bool} (he : e.event = ⟨.pidIs p pid, b⟩)
    (hex : execute e.before e.cpu e.env e.instr = some (e.after, e.answer)) :
    b = true ↔ (e.before.mem.proc p).pid = pid := by
  have := Act.execute_of_event he hex
  simp only [execute, Option.some.injEq, Prod.mk.injEq] at this
  rw [← this.2, decide_eq_true_eq]

/-- The slot that is found is that of the process, until it is marked. -/
theorem Hits.named {L₁ : List (Act n)} {k₀ : Kernel n} {ℓ₀ : Ledger n}
    (hfew : FewPids P) (hpid : pid ≠ 0)
    (h : Returned P t (kill pid) k₀ ℓ₀ k ℓ (L₁ ++ L) r) (hhit : Hits pid q L) :
    ∃ e ∈ L, e.instr = .write q .kill ∧ Named e.before.mem pid q ∧
      (∀ q', Named e.before.mem pid q' → q' = q) ∧
      changes L = if (e.before.mem.proc q).state = .sleeping
        then [.write q .kill, .write q .fold, .insert q] else [.write q .kill] := by
  obtain ⟨e₁, e₂, e₃, e₄, e₅, asleep, L', rfl, he₁, he₂, he₃, he₄, he₅, hwake⟩ := hhit
  have hcourse := h.course.append_right
  obtain ⟨next, y, h⟩ := h
  have hi₁ := Act.instr_of_event he₁
  have hi₂ := Act.instr_of_event he₂
  have hi₃ := Act.instr_of_event he₃
  have hi₄ := Act.instr_of_event he₄
  have hi₅ := Act.instr_of_event he₅
  have hchain := hcourse.still
  simp only [List.isChain_cons_cons] at hchain
  obtain ⟨hs₁₂, hs₂₃, hs₃₄, -⟩ := hchain
  obtain ⟨-, -, ht₁, -, hex₁⟩ := hcourse.executed e₁ (by simp)
  obtain ⟨-, -, -, -, hex₂⟩ := hcourse.executed e₂ (by simp)
  obtain ⟨-, -, -, -, hex₄⟩ := hcourse.executed e₄ (by simp)
  obtain ⟨ℓ₃, hrun₃, -, ht₃, hissue₃, hex₃⟩ := h.executed (e := e₃) (by simp)
  -- the lock of the slot is held
  have hheld₁ : e₁.after.Holds t (.proc q) := by
    have := Act.execute_of_event he₁ hex₁
    simp only [execute, Option.ite_none_right_eq_some, Option.some.injEq, Prod.mk.injEq] at this
    obtain ⟨-, htake, -⟩ := this
    exact ⟨e₁.cpu, by rw [← htake]; exact ht₁, by simp [← htake]⟩
  have hg₂ : Guards t (.proc q) e₂.before.mem e₂.before := ⟨(hs₁₂ _ hheld₁).1, .refl _ _⟩
  have hg₃ : Guards t (.proc q) e₂.before.mem e₃.before :=
    (hg₂.exec hex₂ (by simp [hi₂, Instr.Changes]) (by simp [hi₂]) (by simp [hi₂])).next hs₂₃
  have hpid₃ : (e₃.before.mem.proc q).pid = pid :=
    (congrArg (fun g => g.2.2.2.2) hg₃.keeps).trans ((pid_of_act he₂ hex₂).mp rfl)
  -- no thread is about to use it
  obtain ⟨V, hV⟩ := hrun₃.traced false
  have hpids := pids_traced hfew spared_false hV
  have hcore := core_traced spared_false hV
  obtain ⟨tr, σ, hb⟩ := hcore.base
  have hst₃ : (e₃.before.mem.proc q).state ≠ .unused := by
    intro hst
    rw [hi₃] at hissue₃
    obtain ⟨g, hg⟩ := hissue₃
    obtain ⟨hheld, ⟨hon, hme⟩ | ⟨hfr, -⟩⟩ := hcore.pre hg
    · simp [hb.sits.running_state hme (Kernel.thread_eq_proc.mpr hme ▸ hon)] at hst
    · rcases hpids.unused q hst with h0 | ⟨t', ht'⟩
      · exact hpid (hpid₃.symm.trans h0)
      · obtain rfl := hpids.eq_of_held hb hheld (.inl (by simp [ht'])) (hpids.given t' _ q ht').1
        simp [hfr] at ht'
  have hasleep : asleep = true ↔ (e₃.before.mem.proc q).state = .sleeping := by
    have h₃ := Act.execute_of_event he₃ hex₃
    simp only [execute, Option.some.injEq, Prod.mk.injEq] at h₃
    have h₄ := Act.execute_of_event he₄ hex₄
    simp only [execute, Option.some.injEq, Prod.mk.injEq] at h₄
    have hheld₃ : e₃.after.Holds t (.proc q) := by
      obtain ⟨c, hc, hl⟩ := hg₃.holds
      exact ⟨c, by rw [← h₃.1]; exact hc, by rw [← h₃.1]; exact hl⟩
    have hsame : (e₄.before.mem.proc q).state = (e₃.after.mem.proc q).state :=
      congrArg Prod.fst (hs₃₄ _ hheld₃).2
    rw [← h₄.2, decide_eq_true_eq, hsame, ← h₃.1, Kernel.setMem_mem]
    simp [Write.apply]
  refine ⟨e₃, by simp, hi₃, ⟨hst₃, hpid₃⟩, fun q' hq' => ?_, ?_⟩
  · exact hpids.distinct q' q hq'.1 hst₃ (hq'.2.trans hpid₃.symm)
  · have hsplit : changes (e₁ :: e₂ :: e₃ :: e₄ :: (L' ++ [e₅])) = .write q .kill :: changes L' := by
      simp only [changes, List.map_cons, List.map_append, List.map_nil, hi₁, hi₂, hi₃, hi₄, hi₅]
      simp [Instr.Changes, List.filter_cons, List.filter_append]
    rw [hsplit, if_congr hasleep.symm rfl rfl]
    cases asleep with
    | true =>
        obtain ⟨e₆, e₇, e₈, e₉, rfl, he₆, he₇, he₈, he₉⟩ := hwake
        simp only [if_true, changes, List.map_cons, List.map_nil, Act.instr_of_event he₆,
          Act.instr_of_event he₇, Act.instr_of_event he₈, Act.instr_of_event he₉]
        rfl
    | false =>
        obtain rfl : L' = [] := hwake
        rfl

/-- During a call a pid names one slot only. -/
theorem Returned.sameSlot {k₀ : Kernel n} {ℓ₀ : Ledger n} {x : Code Int}
    (hfew : FewPids P)
    (h : Returned P t x k₀ ℓ₀ k ℓ L r) :
    ∀ e₁ ∈ L, ∀ e₂ ∈ L, ∀ p q, Named e₁.before.mem pid p → Named e₂.before.mem pid q → p = q := by
  obtain ⟨next, y, h⟩ := h
  have hfirst : ∀ e ∈ L, ∀ p q, Named e.before.mem pid p → Named e.before.mem pid q → p = q := by
    intro e he p q hp hq
    obtain ⟨ℓ₁, hrun, -⟩ := h.steps.1 e he
    exact named_of_steps hfew hrun .refl hq hp
  have hpair := h.steps.2.imp (S := fun e₁ e₂ => ∀ p q, Named e₁.before.mem pid p →
    Named e₂.before.mem pid q → p = q) fun ⟨_, _, hrun, hsteps⟩ p q hp hq =>
    (named_of_steps hfew hrun hsteps hp hq).symm
  refine hpair.forall_of_forall_of_flip hfirst (hpair.imp ?_)
  exact fun hpq p q hp hq => (hpq q p hq hp).symm

/-- **What a call of `kill` does**, but for the pid 0. -/
theorem Returned.killSpec {k₀ : Kernel n} {ℓ₀ : Ledger n}
    (hfew : FewPids P) (hpid : pid ≠ 0)
    (h : Returned P t (kill pid) k₀ ℓ₀ k ℓ L r) : KillSpec pid L r := by
  have hqueued : ∀ e ∈ L, ∀ q, e.instr = .insert q →
      q ∉ queue e.before.mem ∧ (queue e.after.mem).count q = 1 := by
    obtain ⟨next, y, h⟩ := h
    intro e he q hi
    obtain ⟨ℓ', hrun, -, -, hissue, hex⟩ := h.executed he
    obtain ⟨b, c, env, i, a, k₁⟩ := e
    subst hi
    exact insert_once hrun hissue hex
  have hx : Outcome Act.event waitSummary (kill pid) L r := h.outcome waitSummary_sound
  rcases outcome_killFrom slots hx with ⟨rfl, hscan⟩ | ⟨ps₁, q, ps₂, L₁, L₂, -, rfl, rfl, hscan, hhit⟩
  · refine ⟨by simp, fun _ => ⟨rfl, changes_eq_nil hscan.quiet, ?_⟩, hqueued⟩
    -- were there always a process of that pid, it would be found where it is
    by_contra hno
    push Not at hno
    obtain ⟨e₀, he₀, -⟩ := hscan.looks (List.mem_finRange 0)
    obtain ⟨q, hq⟩ := hno e₀ he₀
    obtain ⟨e, he, hev⟩ := hscan.looks (List.mem_finRange q)
    obtain ⟨q', hq'⟩ := hno e he
    obtain rfl := h.sameSlot hfew e₀ he₀ e he q q' hq hq'
    obtain ⟨next, y, h⟩ := h
    obtain ⟨ℓ', -, -, -, -, hex⟩ := h.executed he
    simpa using (pid_of_act hev hex).mpr hq'.2
  · obtain ⟨e, he, hrest⟩ := hhit.named hfew hpid h
    obtain ⟨hi, hn, hone, hch⟩ := hrest
    refine ⟨fun _ => ⟨q, e, List.mem_append_right _ he, hi, hn, hone, ?_⟩, fun h0 => absurd rfl h0,
      hqueued⟩
    rw [changes, List.map_append, List.filter_append, ← changes, ← changes,
      changes_eq_nil hscan.quiet, List.nil_append, hch]

/-! ## What holds when nobody kills the pid 0 -/

instance : ∀ mv : Move n, Decidable (SparesZero mv)
  | .exec _ e => inferInstanceAs (Decidable (e.trap ≠ .syscall (.kill 0)))
  | .interrupt _ _ => inferInstanceAs (Decidable True)

theorem Pids.cleanPids (hpids : Pids k ℓ V true) (hcore : Core k V true) : CleanPids k where
  positive := fun p hp => (hpids.used p hp).1
  distinct := hpids.distinct
  unused := hpids.clean rfl
  born := by
    rintro c p ⟨next, hcode⟩
    obtain ⟨tr, σ, hb⟩ := hcore.base
    exact hpids.clean rfl p (hb.sits.seen c p _ (hcore.pre hcode).1.2.2)

/--
**Recycled slots are clean, and `kill` hits only its target.** Fewer than 2^31-1 pids
are taken. The slots are clean in every state of every run in which no process calls
`kill(0)`; and a call with another pid does what it should in any run.
-/
theorem cleanPids_and_killSpec :
    (∀ (k : Kernel n) ℓ, RunWhere (fun _ ℓ mv => ℓ.allocs < 2 ^ 31 - 1 ∧ SparesZero mv) k ℓ →
      CleanPids k) ∧
    ∀ (k : Kernel n) ℓ t pid k₀ ℓ₀ L r, pid ≠ 0 →
      Returned (fun _ ℓ _ => ℓ.allocs < 2 ^ 31 - 1) t (kill pid) k₀ ℓ₀ k ℓ L r →
      KillSpec pid L r := by
  constructor
  · intro k ℓ hrun
    have hz : Spared (fun (_ : Kernel n) ℓ mv => ℓ.allocs < 2 ^ 31 - 1 ∧ SparesZero mv) true :=
      fun _ _ _ _ _ hP => hP.2
    obtain ⟨V, hV⟩ := hrun.traced true
    exact (pids_traced (fun _ _ _ _ hP _ => hP.1) hz hV).cleanPids (core_traced hz hV)
  · intro k ℓ t pid k₀ ℓ₀ L r hpid h
    exact h.killSpec (fun _ _ _ _ hP _ => hP) hpid

theorem killOneMoves_spec : (execWhere (fun _ ℓ mv => ℓ.allocs < 2 ^ 31 - 1 ∧ SparesZero mv)
    (boot 2, Ledger.empty 2) (trapMoves (.syscall (.kill 1)) 32)).any
      (fun s => (s.1.mem.proc 0).killed = true) := by
  decide +kernel

/-- A call in a run in which the pids have not run out. -/
theorem During.few {α : Type} {x₀ x : Code α} {next : α → Code Int} {k₀ : Kernel n}
    {ℓ₀ : Ledger n} {y : Code Unit} (h : During (fun _ _ _ => True) t x₀ next k₀ ℓ₀ k ℓ y x L)
    (hlt : ℓ.allocs < 2 ^ 31 - 1) :
    During (fun _ ℓ _ => ℓ.allocs < 2 ^ 31 - 1) t x₀ next k₀ ℓ₀ k ℓ y x L := by
  have hback : ∀ {k k' : Kernel n} {ℓ ℓ' : Ledger n} {mv : Move n},
      step k ℓ mv = some (k', ℓ') → ℓ'.allocs < 2 ^ 31 - 1 → ℓ.allocs < 2 ^ 31 - 1 :=
    fun hs hlt => (allocs_le_step hs).trans_lt hlt
  induction h with
  | start hrun hc hcode => exact .start (hrun.few hlt) hc hcode
  | act _ hc _ hs hex ih => exact .act (ih (hback hs hlt)) hc (hback hs hlt) hs hex
  | call _ hc _ hs ih => exact .call (ih (hback hs hlt)) hc (hback hs hlt) hs
  | interrupt _ hc _ hs ih => exact .interrupt (ih (hback hs hlt)) hc (hback hs hlt) hs
  | handle _ hc _ hs hex ih => exact .handle (ih (hback hs hlt)) hc (hback hs hlt) hs hex
  | handleCall _ hc _ hs ih => exact .handleCall (ih (hback hs hlt)) hc (hback hs hlt) hs
  | other _ hc _ hs hcode ih => exact .other (ih (hback hs hlt)) hc (hback hs hlt) hs hcode

/-- The first process calls `kill` with the pid of its child. -/
def beginKill (s : Kernel 2 × Ledger 2) : Followed 2 Int := ⟨s.1, s.2, kill 2⟩

theorem killChildMoves_spec : ((execAs (boot 2, Ledger.empty 2) (riseMoves 0 1 ++ bearMoves 1)).any
    fun s => (s.1.calls (.proc 0) (.user 0) ∧ (s.1.mem.proc 0).killed = false) &&
    ((execAs s (stretch 6 1 (.proc 0) { trap := .syscall (.kill 2) })).any fun s' =>
      decide (s'.1.thread 1 = .proc 0) &&
      ((stretch 8 1 (.proc 0) {}).foldlM (follow (.proc 0) (afterSyscall s.1 0))
        (beginKill s')).any fun s =>
        decide (s.ℓ.allocs < 2 ^ 31 - 1) && match s.x with
        | .ret r => r = 0
        | _ => false)) = true := by
  decide +kernel

/-- The slots are clean when the first process has killed itself; and a call that kills its child
has marked it. -/
theorem cleanPids_first : (∃ (k : Kernel 2) (ℓ : Ledger 2), RunWhere (fun _ ℓ mv =>
    ℓ.allocs < 2 ^ 31 - 1 ∧ SparesZero mv) k ℓ ∧ (k.mem.proc 0).killed = true ∧ CleanPids k) ∧
    ∃ (L : List (Act 2)) (q : Slot), KillSpec 2 L 0 ∧ ∃ e ∈ L, e.instr = .write q .kill := by
  constructor
  · obtain ⟨s, hs, hspec⟩ := (Option.any_eq_true _ _).mp killOneMoves_spec
    have hrun := runWhere_exec .init hs
    exact ⟨s.1, s.2, hrun, of_decide_eq_true hspec, cleanPids_and_killSpec.1 s.1 s.2 hrun⟩
  · obtain ⟨s, hs, hspec⟩ := (Option.any_eq_true _ _).mp killChildMoves_spec
    obtain ⟨hbear, hspec⟩ := Bool.and_eq_true_iff.mp hspec
    obtain ⟨hcall, hkilled⟩ := of_decide_eq_true hbear
    obtain ⟨s', hs', hspec⟩ := (Option.any_eq_true _ _).mp hspec
    obtain ⟨hb, hspec⟩ := Bool.and_eq_true_iff.mp hspec
    obtain ⟨⟨k₁, ℓ₁, x⟩, hs₁, hspec⟩ := (Option.any_eq_true _ _).mp hspec
    obtain ⟨hfew, hret⟩ := Bool.and_eq_true_iff.mp hspec
    have hd := During.syscall (run_execAs .init hs) hcall hkilled hs' (of_decide_eq_true hb)
    obtain ⟨⟨L, hd⟩, -⟩ := hd.followAll (s := beginKill s') hs₁
    cases x with
    | instr i g => exact absurd hret (by simp)
    | call f g => exact absurd hret (by simp)
    | ret r =>
        obtain rfl : r = 0 := of_decide_eq_true hret
        have hspec : KillSpec 2 L 0 := cleanPids_and_killSpec.2 _ _ _ _ _ _ _ _ (by decide)
          ⟨_, _, hd.few (of_decide_eq_true hfew)⟩
        obtain ⟨q, e, he, hi, -⟩ := hspec.found rfl
        exact ⟨L, q, hspec, e, he, hi⟩

theorem killZeroMoves_spec : (execWhere (fun _ ℓ _ => ℓ.allocs < 2 ^ 31 - 1)
    (boot 2, Ledger.empty 2) (trapMoves (.syscall (.kill 0)) 29)).any
      (fun s => (s.1.mem.proc 1).state = .unused ∧ (s.1.mem.proc 1).killed = true) := by
  decide +kernel

/-- A process that kills the pid 0 marks the first slot that is unused. -/
theorem not_forall_cleanPids : ¬∀ (n : Nat) (k : Kernel n) (ℓ : Ledger n),
    RunWhere (fun _ ℓ _ => ℓ.allocs < 2 ^ 31 - 1) k ℓ → CleanPids k := by
  intro h
  obtain ⟨s, hs, hspec⟩ := (Option.any_eq_true _ _).mp killZeroMoves_spec
  obtain ⟨hunused, hkilled⟩ := of_decide_eq_true hspec
  have := (h 2 s.1 s.2 (runWhere_exec .init hs)).unused 1 hunused
  simp [hkilled] at this

end Xv6Cfs
