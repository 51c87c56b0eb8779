import Xv6Cfs.Proof.Reaping

/-!
# Pids, and clean slots

A pid is taken from `nextpid` under `pid_lock` and given to an unused slot under the
lock of the slot. As long as `nextpid` does not go round the range of `int`, no pid is
given out twice, and an unused slot has the pid 0. This is why `kill` can mark an
unused slot only if it is called with 0.
-/

namespace Xv6Cfs

open RedBlack

variable {n : Nat} {k k' : Kernel n} {ℓ ℓ' : Ledger n} {V : Thread n → View} {z : Bool}
  {P : Kernel n → Ledger n → Move n → Prop} {c : Fin n} {tr : ColorTree Slot} {σ : Slot → Sit n}
  {p q : Slot} {t : Thread n}

/-- Only `allocpid` counts the pids. -/
theorem Ledger.record_allocs {i : Instr} {r : Answer i} (hi : i ≠ .nextpid) :
    (ℓ.record k k' c i r).allocs = ℓ.allocs := by
  cases i with
  | acquire l => cases l <;> rfl
  | release l => cases l <;> rfl
  | write p w =>
      cases w with
      | free =>
          simp only [Ledger.record, Ledger.recordWrite]
          split_ifs <;> rfl
      | _ => rfl
  | retrieve => cases r <;> rfl
  | user =>
      simp only [Ledger.record]
      split <;> rfl
  | nextpid => exact absurd rfl hi
  | _ => rfl

theorem Ledger.recordInterrupt_allocs {me : Option Slot} {j : Interrupt} :
    (ℓ.recordInterrupt me j).allocs = ℓ.allocs := by
  cases me <;> cases j <;> rfl

/-- No pid is given back. -/
theorem allocs_le_step {mv : Move n} (hs : step k ℓ mv = some (k', ℓ')) :
    ℓ.allocs ≤ ℓ'.allocs := by
  obtain ⟨V', hstep⟩ := viewStep_of_step hs (bootView false)
  cases hstep with
  | call => exact le_refl _
  | interrupt => exact Ledger.recordInterrupt_allocs.ge
  | @instr c e i next k₁ r hcode hex =>
      by_cases hi : i = .nextpid
      · subst hi
        exact Nat.le_succ _
      · exact (Ledger.record_allocs hi).ge

/-- A run in which the pids have not run out. -/
theorem RunWhere.few (h : RunWhere (fun _ _ _ => True) k ℓ) (hlt : ℓ.allocs < 2 ^ 31 - 1) :
    RunWhere (fun _ ℓ _ => ℓ.allocs < 2 ^ 31 - 1) k ℓ := by
  induction h with
  | init => exact .init
  | tail _ _ hs ih =>
      have hle := (allocs_le_step hs).trans_lt hlt
      exact .tail (ih hle) hle hs

/-- No step that meets `P` takes a pid beyond the range of `int`. -/
def FewPids (P : Kernel n → Ledger n → Move n → Prop) : Prop :=
  ∀ k ℓ c e, P k ℓ (.exec c e) → k.Issues c .nextpid → ℓ.allocs < 2 ^ 31 - 1

/-- What is so of the pids, and what the threads know of them. -/
structure Pids (k : Kernel n) (ℓ : Ledger n) (V : Thread n → View) (z : Bool) : Prop where
  next : k.shared.nextpid = int32 (ℓ.allocs + 1)
  used : ∀ p, (k.mem.proc p).state ≠ .unused →
    0 < (k.mem.proc p).pid ∧ (k.mem.proc p).pid ≤ ℓ.allocs
  distinct : ∀ p q, (k.mem.proc p).state ≠ .unused → (k.mem.proc q).state ≠ .unused →
    (k.mem.proc p).pid = (k.mem.proc q).pid → p = q
  /-- A pid that has been taken is nobody's. -/
  fresh : ∀ t x o, (V t).fresh = some (x, o) → (0 < x ∧ x ≤ ℓ.allocs) ∧
    ∀ p, (k.mem.proc p).state ≠ .unused → (k.mem.proc p).pid ≠ x
  apart : ∀ t t' x o o', (V t).fresh = some (x, o) → (V t').fresh = some (x, o') → t = t'
  given : ∀ t x p, (V t).fresh = some (x, some p) → .proc p ∈ (V t).held ∧
    (k.mem.proc p).state = .unused ∧ (k.mem.proc p).pid = x
  unused : ∀ p, (k.mem.proc p).state = .unused → (k.mem.proc p).pid = 0 ∨
    ∃ t, (V t).fresh = some ((k.mem.proc p).pid, some p)
  named : ∀ t p x, (V t).named = some (p, x) → (k.mem.proc p).pid = x
  /-- A thread that no CPU runs has taken no pid and looks at none. -/
  away : ∀ t, (∀ c, k.thread c ≠ t) → (V t).fresh = none ∧ (V t).named = none
  clean : z = true → ∀ p, (k.mem.proc p).state = .unused → (k.mem.proc p).killed = false

namespace Pids

/-- What the lock of `p` is needed for, one thread does. -/
theorem eq_of_held (h : Pids k ℓ V z) (hb : Base k V tr σ) (hp : .proc p ∈ (V (k.thread c)).held)
    (ht : (V t).fresh ≠ none ∨ (V t).named ≠ none) (hpt : .proc p ∈ (V t).held) :
    t = k.thread c := by
  by_cases haway : ∃ c', k.thread c' = t
  · obtain ⟨c', rfl⟩ := haway
    rw [hb.locking.exclusive hpt hp]
  · push Not at haway
    obtain ⟨hfresh, hnamed⟩ := h.away t haway
    simp [hfresh, hnamed] at ht

/-- A step that takes no pid, and neither begins nor ends a process. -/
theorem update (h : Pids k ℓ V z) {v : View} (hnext : k'.shared.nextpid = k.shared.nextpid)
    (hallocs : ℓ'.allocs = ℓ.allocs)
    (hstate : ∀ p, (k'.mem.proc p).state = .unused ↔ (k.mem.proc p).state = .unused)
    (hpid : ∀ p, (k'.mem.proc p).pid = (k.mem.proc p).pid)
    (hkilled : z = true → ∀ p, (k.mem.proc p).state = .unused →
      (k'.mem.proc p).killed = (k.mem.proc p).killed)
    (hheld : ∀ p, .proc p ∈ (V t).held → (V t).fresh ≠ none → v.fresh ≠ none → .proc p ∈ v.held)
    (hfresh : v.fresh = (V t).fresh ∨ v.fresh = none ∧ ∀ x p, (V t).fresh ≠ some (x, some p))
    (hnamed : ∀ p x, v.named = some (p, x) → (k.mem.proc p).pid = x)
    (haway : ∀ t', (∀ c, k'.thread c ≠ t') → (Function.update V t v t').fresh = none ∧
      (Function.update V t v t').named = none) :
    Pids k' ℓ' (Function.update V t v) z := by
  have hsub : ∀ t' x o, (Function.update V t v t').fresh = some (x, o) →
      (V t').fresh = some (x, o) := by
    intro t' x o he
    by_cases ht : t' = t
    · subst ht
      rw [Function.update_self] at he
      rcases hfresh with hf | ⟨hf, -⟩
      · rw [← hf, he]
      · simp [hf] at he
    · rwa [Function.update_of_ne ht] at he
  refine ⟨?_, fun p hp => ?_, fun p q hp hq he => ?_, fun t' x o he => ?_,
    fun t₁ t₂ x o o' h₁ h₂ => h.apart t₁ t₂ x o o' (hsub _ _ _ h₁) (hsub _ _ _ h₂),
    fun t' x p he => ?_, fun p hp => ?_, fun t' p x he => ?_, haway, fun hz p hp => ?_⟩
  · rw [hnext, hallocs, h.next]
  · rw [hpid, hallocs]
    exact h.used p fun e => hp ((hstate p).mpr e)
  · rw [hpid, hpid] at he
    exact h.distinct p q (fun e => hp ((hstate p).mpr e)) (fun e => hq ((hstate q).mpr e)) he
  · obtain ⟨hx, hno⟩ := h.fresh t' x o (hsub _ _ _ he)
    exact ⟨by rwa [hallocs], fun p hp => by rw [hpid]; exact hno p fun e => hp ((hstate p).mpr e)⟩
  · obtain ⟨hheld', hst, hx⟩ := h.given t' x p (hsub _ _ _ he)
    refine ⟨?_, (hstate p).mpr hst, by rw [hpid, hx]⟩
    by_cases ht : t' = t
    · subst ht
      have hold := hsub _ _ _ he
      rw [Function.update_self] at he ⊢
      exact hheld p hheld' (by simp [hold]) (by simp [he])
    · rwa [Function.update_of_ne ht]
  · rw [hpid]
    rcases h.unused p ((hstate p).mp hp) with h0 | ⟨t', ht'⟩
    · exact .inl h0
    · refine .inr ⟨t', ?_⟩
      by_cases ht : t' = t
      · subst ht
        rw [Function.update_self]
        rcases hfresh with hf | ⟨-, hf⟩
        · rw [hf, ht']
        · exact absurd ht' (hf _ _)
      · rwa [Function.update_of_ne ht]
  · rw [hpid]
    by_cases ht : t' = t
    · subst ht
      rw [Function.update_self] at he
      exact hnamed p x he
    · rw [Function.update_of_ne ht] at he
      exact h.named t' p x he
  · rw [hkilled hz p ((hstate p).mp hp)]
    exact h.clean hz p ((hstate p).mp hp)

/-- Threads that are away stay what they are, unless one leaves its CPU. -/
theorem away_update (h : Pids k ℓ V z) {v : View} (hrunning : k'.running = k.running) (t' : Thread n)
    (ht' : ∀ c', k'.thread c' ≠ t') :
    (Function.update V (k.thread c) v t').fresh = none ∧
      (Function.update V (k.thread c) v t').named = none := by
  have hthread : ∀ c', k'.thread c' = k.thread c' := fun c' =>
    Kernel.thread_congr (congrFun hrunning c')
  simp only [hthread] at ht'
  rw [Function.update_of_ne (Ne.symm (ht' c))]
  exact h.away t' ht'

/-- A thread that makes no assignment. -/
theorem quiet (h : Pids k ℓ V z) {v : View} (hshared : k'.shared.nextpid = k.shared.nextpid)
    (hmem : ∀ p, ((k'.mem.proc p).state = .unused ↔ (k.mem.proc p).state = .unused) ∧
      (k'.mem.proc p).pid = (k.mem.proc p).pid ∧ (k'.mem.proc p).killed = (k.mem.proc p).killed)
    (hrunning : k'.running = k.running) (hallocs : ℓ'.allocs = ℓ.allocs)
    (hheld : ∀ p, .proc p ∈ (V (k.thread c)).held → (V (k.thread c)).fresh ≠ none →
      .proc p ∈ v.held)
    (hfresh : v.fresh = (V (k.thread c)).fresh)
    (hnamed : ∀ p x, v.named = some (p, x) → (k.mem.proc p).pid = x) :
    Pids k' ℓ' (Function.update V (k.thread c) v) z :=
  h.update hshared hallocs (fun p => (hmem p).1) (fun p => (hmem p).2.1)
    (fun _ p _ => (hmem p).2.2) (fun p hp hf _ => hheld p hp hf) (.inl hfresh) hnamed
    (h.away_update hrunning)

/-! ## The assignments -/

/-- An assignment to `p`, under its lock, by a thread that takes no pid with it. -/
theorem act (h : Pids k ℓ V z) (hb : Base k V tr σ) {f : Proc → Proc} {v : View}
    (hp : .proc p ∈ (V (k.thread c)).held) (hheld : v.held = (V (k.thread c)).held)
    (hfresh : ∀ x o, v.fresh = some (x, o) → ∃ o', (V (k.thread c)).fresh = some (x, o'))
    (hothers : ∀ x q, q ≠ p →
      (v.fresh = some (x, some q) ↔ (V (k.thread c)).fresh = some (x, some q)))
    (hnamed : ∀ q x, v.named = some (q, x) → ((k.mem.modify p f).proc q).pid = x)
    -- what is so of `p`
    (hused : (f (k.mem.proc p)).state ≠ .unused →
      (0 < (f (k.mem.proc p)).pid ∧ (f (k.mem.proc p)).pid ≤ ℓ.allocs) ∧
      (∀ q, q ≠ p → (k.mem.proc q).state ≠ .unused →
        (k.mem.proc q).pid ≠ (f (k.mem.proc p)).pid) ∧
      ∀ t x o, (Function.update V (k.thread c) v t).fresh = some (x, o) →
        (f (k.mem.proc p)).pid ≠ x)
    (hgiven : ∀ x, v.fresh = some (x, some p) →
      (f (k.mem.proc p)).state = .unused ∧ (f (k.mem.proc p)).pid = x)
    (hunused : (f (k.mem.proc p)).state = .unused → (f (k.mem.proc p)).pid = 0 ∨
      v.fresh = some ((f (k.mem.proc p)).pid, some p))
    (hclean : z = true → (f (k.mem.proc p)).state = .unused → (f (k.mem.proc p)).killed = false) :
    Pids (k.setMem (k.mem.modify p f)) ℓ (Function.update V (k.thread c) v) z := by
  have hself : (k.setMem (k.mem.modify p f)).mem.proc p = f (k.mem.proc p) :=
    Mem.modify_self _ _ _
  have hother : ∀ q, q ≠ p → (k.setMem (k.mem.modify p f)).mem.proc q = k.mem.proc q :=
    fun q hq => Mem.modify_ne _ _ hq
  have hsub : ∀ t' y o, (Function.update V (k.thread c) v t').fresh = some (y, o) →
      ∃ o', (V t').fresh = some (y, o') := by
    intro t' y o he
    by_cases ht : t' = k.thread c
    · subst ht
      rw [Function.update_self] at he
      exact hfresh y o he
    · rw [Function.update_of_ne ht] at he
      exact ⟨o, he⟩
  refine ⟨h.next, fun q hq => ?_, fun q r hq hr he => ?_, fun t' y o he => ?_,
    fun t₁ t₂ y o o' h₁ h₂ => ?_, fun t' y q he => ?_, fun q hq => ?_, fun t' q y he => ?_,
    h.away_update rfl, fun hz q hq => ?_⟩
  · by_cases hqp : q = p
    · subst hqp
      rw [hself] at hq ⊢
      exact (hused hq).1
    · rw [hother q hqp] at hq ⊢
      exact h.used q hq
  · by_cases hqp : q = p
    · by_cases hrp : r = p
      · rw [hqp, hrp]
      · subst hqp
        rw [hself] at hq he
        rw [hother r hrp] at hr he
        exact absurd he.symm ((hused hq).2.1 r hrp hr)
    · by_cases hrp : r = p
      · subst hrp
        rw [hself] at hr he
        rw [hother q hqp] at hq he
        exact absurd he ((hused hr).2.1 q hqp hq)
      · rw [hother q hqp] at hq he
        rw [hother r hrp] at hr he
        exact h.distinct q r hq hr he
  · obtain ⟨o', ho'⟩ := hsub t' y o he
    refine ⟨(h.fresh t' y o' ho').1, fun q hq => ?_⟩
    by_cases hqp : q = p
    · subst hqp
      rw [hself] at hq ⊢
      exact (hused hq).2.2 t' y o he
    · rw [hother q hqp] at hq ⊢
      exact (h.fresh t' y o' ho').2 q hq
  · obtain ⟨o₁, ho₁⟩ := hsub t₁ y o h₁
    obtain ⟨o₂, ho₂⟩ := hsub t₂ y o' h₂
    exact h.apart t₁ t₂ y o₁ o₂ ho₁ ho₂
  · by_cases ht : t' = k.thread c
    · subst ht
      rw [Function.update_self] at he ⊢
      rw [hheld]
      by_cases hqp : q = p
      · subst hqp
        rw [hself]
        exact ⟨hp, hgiven y he⟩
      · rw [hother q hqp]
        exact h.given _ y q ((hothers y q hqp).mp he)
    · rw [Function.update_of_ne ht] at he ⊢
      obtain ⟨hq, hst, hpid⟩ := h.given t' y q he
      have hqp : q ≠ p := fun e => ht (h.eq_of_held hb hp (.inl (by simp [he])) (e ▸ hq))
      rw [hother q hqp]
      exact ⟨hq, hst, hpid⟩
  · by_cases hqp : q = p
    · subst hqp
      rw [hself] at hq ⊢
      refine (hunused hq).imp_right fun hv => ⟨k.thread c, ?_⟩
      rw [Function.update_self, hv]
    · rw [hother q hqp] at hq ⊢
      refine (h.unused q hq).imp_right fun ⟨t', ht'⟩ => ⟨t', ?_⟩
      by_cases ht : t' = k.thread c
      · subst ht
        rw [Function.update_self]
        exact (hothers _ q hqp).mpr ht'
      · rwa [Function.update_of_ne ht]
  · by_cases ht : t' = k.thread c
    · subst ht
      rw [Function.update_self] at he
      exact hnamed q y he
    · rw [Function.update_of_ne ht] at he
      have hqp : q ≠ p := fun e =>
        ht (h.eq_of_held hb hp (.inr (by simp [he])) (e ▸ (hb.sane t').named q y he))
      rw [hother q hqp]
      exact h.named t' q y he
  · by_cases hqp : q = p
    · subst hqp
      rw [hself] at hq ⊢
      exact hclean hz hq
    · rw [hother q hqp] at hq ⊢
      exact h.clean hz q hq

/-- `allocproc` gives the pid to the slot. -/
theorem pid (h : Pids k ℓ V z) (hb : Base k V tr σ) {x : Int}
    (hpre : writePre (k.running c) (V (k.thread c)) p (.pid x)) :
    Pids (k.setMem (k.mem.modify p (Write.pid x).apply)) ℓ
      (Function.update V (k.thread c) ((V (k.thread c)).write (k.running c) p (.pid x))) z := by
  obtain ⟨hp, hseen, hfr⟩ := hpre
  have hst : (k.mem.proc p).state = .unused := hb.sits.seen c p _ hseen
  refine h.act hb hp rfl (fun y o he => ?_) (fun y q hq => ?_) (by simp [View.write])
    (fun hu => absurd hst hu) (fun y he => ⟨hst, ?_⟩) (fun _ => .inr rfl)
    fun hz _ => h.clean hz p hst
  · simp only [View.write, Option.some.injEq, Prod.mk.injEq] at he
    exact ⟨none, he.1 ▸ hfr⟩
  · simp [View.write, hfr, Ne.symm hq]
  · simp only [View.write, Option.some.injEq, Prod.mk.injEq] at he
    exact he.1

/-- The slot is used. -/
theorem useSlot (h : Pids k ℓ V z) (hb : Base k V tr σ)
    (hpre : writePre (k.running c) (V (k.thread c)) p .used) :
    Pids (k.setMem (k.mem.modify p Write.used.apply)) ℓ
      (Function.update V (k.thread c) ((V (k.thread c)).write (k.running c) p .used)) z := by
  obtain ⟨⟨hp, -, -⟩, ⟨x, hfr⟩, -⟩ := hpre
  obtain ⟨-, hst, hpid⟩ := h.given _ x p hfr
  obtain ⟨hx, hno⟩ := h.fresh _ x _ hfr
  have hpid' : (Write.used.apply (k.mem.proc p)).pid = x := hpid
  refine h.act hb hp rfl (by simp [View.write]) (fun y q hq => ?_) (fun q y he => ?_)
    (fun _ => ⟨hpid' ▸ hx, fun q _ hqu => hpid' ▸ hno q hqu, fun t y o he => ?_⟩)
    (by simp [View.write]) (by simp [Write.apply]) (by simp [Write.apply])
  · simp [View.write, hfr, Ne.symm hq]
  · rw [Mem.modify_proc]
    split_ifs with hq
    · subst hq
      exact h.named _ q y he
    · exact h.named _ q y he
  · by_cases ht : t = k.thread c
    · subst ht
      simp [View.write] at he
    · rw [Function.update_of_ne ht] at he
      rintro rfl
      exact ht (h.apart t _ x o _ (hpid' ▸ he) hfr)

/-- `freeproc`. -/
theorem free (h : Pids k ℓ V z) (hb : Base k V tr σ)
    (hpre : writePre (k.running c) (V (k.thread c)) p .free) :
    Pids (k.setMem (k.mem.modify p Write.free.apply)) ℓ
      (Function.update V (k.thread c) ((V (k.thread c)).write (k.running c) p .free)) z := by
  have hst : (k.mem.proc p).state ≠ .unused := by
    rcases hpre.2.2 with ⟨hs, -⟩ | ⟨-, g, -, hhead⟩
    · simp [hb.sits.seen c p _ hs]
    · simp [hb.used_of_head hhead]
  exact h.act hb hpre.1 rfl (fun y o he => ⟨o, he⟩) (fun _ _ _ => Iff.rfl) (by simp [View.write])
    (fun hu => absurd rfl hu) (fun y he => absurd (h.given _ y p he).2.1 hst) (fun _ => .inl rfl)
    fun _ _ => rfl

/-- `kill`, `setkilled`: the slot is in use, unless 0 may be killed. -/
theorem kill (h : Pids k ℓ V z) (hb : Base k V tr σ) (hnozero : (V (k.thread c)).nozero = z)
    (hpre : writePre (k.running c) (V (k.thread c)) p .kill) :
    Pids (k.setMem (k.mem.modify p Write.kill.apply)) ℓ
      (Function.update V (k.thread c) ((V (k.thread c)).write (k.running c) p .kill)) z := by
  obtain ⟨hp, hcase⟩ := hpre
  -- who has given a pid to the slot is this thread
  have hgiver : (k.mem.proc p).state = .unused → (k.mem.proc p).pid = 0 ∨
      (V (k.thread c)).fresh = some ((k.mem.proc p).pid, some p) := fun hst =>
    (h.unused p hst).imp_right fun ⟨t, ht⟩ =>
      h.eq_of_held hb hp (.inl (by simp [ht])) (h.given t _ p ht).1 ▸ ht
  refine h.act hb hp rfl (fun y o he => ⟨o, he⟩) (fun _ _ _ => Iff.rfl) (fun q y he => ?_)
    (fun hu => ⟨h.used p hu, fun q hq hqu he => hq (h.distinct q p hqu hu he),
      fun t y o he hy => ?_⟩) (fun y he => (h.given _ y p he).2) (fun hst => hgiver hst)
    fun hz hst => ?_
  · rw [Mem.modify_proc]
    split_ifs with hq
    · subst hq
      exact h.named _ q y he
    · exact h.named _ q y he
  · have he' : (V t).fresh = some (y, o) := by
      by_cases ht : t = k.thread c
      · subst ht
        rwa [Function.update_self] at he
      · rwa [Function.update_of_ne ht] at he
    exact (h.fresh t y o he').2 p hu hy
  · have hst' : (k.mem.proc p).state = .unused := hst
    rcases hcase with ⟨hon, hme⟩ | ⟨hfr, x, hn, hx⟩
    · simp [hb.sits.running_state hme (Kernel.thread_eq_proc.mpr hme ▸ hon)] at hst'
    · rcases hgiver hst' with h0 | hg
      · exact absurd ((h.named _ p x hn).symm.trans h0) (hx (hnozero.trans hz))
      · rw [hfr] at hg
        cases hg

/-- **An assignment.** -/
theorem write (h : Pids k ℓ V z) (hb : Base k V tr σ) (hnozero : (V (k.thread c)).nozero = z)
    {w : Write} (hpre : writePre (k.running c) (V (k.thread c)) p w) (hℓ : ℓ'.allocs = ℓ.allocs) :
    Pids (k.setMem (k.mem.modify p w.apply)) ℓ'
      (Function.update V (k.thread c) ((V (k.thread c)).write (k.running c) p w)) z := by
  -- the slot is in use before and after
  have hstill : ((k.mem.proc p).state ≠ .unused ∧ (∀ x : Proc, (w.apply x).state ≠ .unused) ∨
        ∀ x : Proc, (w.apply x).state = x.state) →
      (∀ x : Proc, (w.apply x).pid = x.pid ∧ (w.apply x).killed = x.killed) →
      ((V (k.thread c)).write (k.running c) p w).held = (V (k.thread c)).held →
      ((V (k.thread c)).write (k.running c) p w).fresh = (V (k.thread c)).fresh →
      ((V (k.thread c)).write (k.running c) p w).named = (V (k.thread c)).named →
      Pids (k.setMem (k.mem.modify p w.apply)) ℓ'
        (Function.update V (k.thread c) ((V (k.thread c)).write (k.running c) p w)) z := by
    intro hst hw hheld hfresh hnamed
    refine h.quiet rfl (fun q => ?_) rfl hℓ (fun q hq _ => hheld ▸ hq) hfresh fun q x hq =>
      h.named _ q x (hnamed ▸ hq)
    rw [Kernel.setMem_mem, Mem.modify_proc]
    split_ifs with hqp
    · subst hqp
      refine ⟨?_, (hw _).1, (hw _).2⟩
      rcases hst with ⟨hst, hst'⟩ | hst
      · exact iff_of_false (hst' _) hst
      · rw [hst]
    · exact ⟨Iff.rfl, rfl, rfl⟩
  have hrunning : k.running c = some p → (V (k.thread c)).on = true →
      (k.mem.proc p).state ≠ .unused := fun hme hon => by
    simp [hb.sits.running_state hme (Kernel.thread_eq_proc.mpr hme ▸ hon)]
  have hledger : ∀ {v : View}, Pids (k.setMem (k.mem.modify p w.apply)) ℓ
      (Function.update V (k.thread c) v) z → Pids (k.setMem (k.mem.modify p w.apply)) ℓ'
        (Function.update V (k.thread c) v) z := fun h' =>
    ⟨by rw [hℓ]; exact h'.next, by rw [hℓ]; exact h'.used, h'.distinct,
      by rw [hℓ]; exact h'.fresh, h'.apart, h'.given, h'.unused, h'.named, h'.away, h'.clean⟩
  cases w with
  | pid x => exact hledger (h.pid hb hpre)
  | used => exact hledger (h.useSlot hb hpre)
  | free => exact hledger (h.free hb hpre)
  | kill => exact hledger (h.kill hb hnozero hpre)
  | fold =>
      refine hstill (.inl ⟨?_, fun _ => ?_⟩) (fun _ => ⟨rfl, rfl⟩) rfl rfl rfl
      · obtain ⟨-, hon, -, hs | ⟨hme, -⟩⟩ := hpre
        · simp [hb.sits.seen c p _ hs]
        · exact hrunning hme hon
      · simp [Write.apply, Proc.fold]
  | sleep chan =>
      exact hstill (.inl ⟨hrunning hpre.2.2.1 hpre.2.1, by simp [Write.apply]⟩)
        (fun _ => ⟨rfl, rfl⟩) rfl rfl rfl
  | exit status =>
      exact hstill (.inl ⟨hrunning hpre.1.2.2.1 hpre.1.2.1, by simp [Write.apply]⟩)
        (fun _ => ⟨rfl, rfl⟩) rfl rfl rfl
  | ready =>
      exact hstill (.inl ⟨by simp [hb.used_of_head hpre.2.2], by simp [Write.apply]⟩)
        (fun _ => ⟨rfl, rfl⟩) rfl rfl rfl
  | _ => exact hstill (.inr fun _ => rfl) (fun _ => ⟨rfl, rfl⟩) rfl rfl rfl

/-! ## The other instructions -/

/-- `allocpid`: the pid is new as long as `nextpid` has not gone round. -/
theorem nextpid (h : Pids k ℓ V z) (hfew : ℓ.allocs < 2 ^ 31 - 1)
    (hpre : instrPre (k.running c) .nextpid (V (k.thread c))) :
    Pids (k.setShared { k.shared with nextpid := int32 (k.shared.nextpid + 1) }) ℓ.alloc
      (Function.update V (k.thread c) { V (k.thread c) with fresh := some (k.shared.nextpid, none) })
      z := by
  obtain ⟨-, ⟨p, hp⟩, hnone⟩ := hpre
  have hnew : k.shared.nextpid = ℓ.allocs + 1 := by
    rw [h.next, int32_of_isInt32 ⟨by omega, by omega⟩]
  have hallocs : ((ℓ.alloc.allocs : ℕ) : Int) = ℓ.allocs + 1 := by simp
  have hcase : ∀ t' x o, (Function.update V (k.thread c)
      { V (k.thread c) with fresh := some (k.shared.nextpid, none) } t').fresh = some (x, o) →
      t' = k.thread c ∧ x = ℓ.allocs + 1 ∧ o = none ∨
        t' ≠ k.thread c ∧ (V t').fresh = some (x, o) := by
    intro t' x o he
    by_cases ht : t' = k.thread c
    · subst ht
      simp only [Function.update_self, Option.some.injEq, Prod.mk.injEq] at he
      exact .inl ⟨rfl, he.1 ▸ hnew, he.2.symm⟩
    · rw [Function.update_of_ne ht] at he
      exact .inr ⟨ht, he⟩
  refine ⟨?_, fun q hq => ?_, h.distinct, fun t' x o he => ?_, fun t₁ t₂ x o o' h₁ h₂ => ?_,
    fun t' x q he => ?_, fun q hq => ?_, fun t' q x he => ?_, h.away_update rfl, h.clean⟩
  · show int32 (k.shared.nextpid + 1) = _
    rw [hnew, hallocs]
  · rw [hallocs]
    exact ⟨(h.used q hq).1, (h.used q hq).2.trans (by omega)⟩
  · rw [hallocs]
    rcases hcase t' x o he with ⟨-, rfl, -⟩ | ⟨-, he⟩
    · refine ⟨by omega, fun q hq => ?_⟩
      have := (h.used q hq).2
      show (k.mem.proc q).pid ≠ _
      omega
    · obtain ⟨⟨h0, hle⟩, hno⟩ := h.fresh t' x o he
      exact ⟨⟨h0, by omega⟩, hno⟩
  · rcases hcase t₁ x o h₁ with ⟨rfl, hx, -⟩ | ⟨-, h₁⟩ <;>
      rcases hcase t₂ x o' h₂ with ⟨rfl, hx', -⟩ | ⟨-, h₂⟩
    · rfl
    · have := (h.fresh t₂ x o' h₂).1.2
      omega
    · have := (h.fresh t₁ x o h₁).1.2
      omega
    · exact h.apart t₁ t₂ x o o' h₁ h₂
  · rcases hcase t' x _ he with ⟨-, -, hno⟩ | ⟨ht, he⟩
    · cases hno
    · rw [Function.update_of_ne ht]
      exact h.given t' x q he
  · refine (h.unused q hq).imp_right fun ⟨t', ht'⟩ => ⟨t', ?_⟩
    rw [Function.update_of_ne fun e => ?_]
    · exact ht'
    · rw [e, hnone] at ht'
      cases ht'
  · by_cases ht : t' = k.thread c
    · subst ht
      rw [Function.update_self] at he
      exact h.named _ q x he
    · rw [Function.update_of_ne ht] at he
      exact h.named t' q x he

/-- A thread leaves its CPU, which goes on with `t'`. -/
theorem leave (h : Pids k ℓ V z) {v : View}
    (hheld : (V (k.thread c)).held = [.proc p]) (hst : (k.mem.proc p).state ≠ .unused)
    (hnext : k'.shared.nextpid = k.shared.nextpid) (hℓ : ℓ'.allocs = ℓ.allocs)
    (hmem : ∀ q, ((k'.mem.proc q).state = .unused ↔ (k.mem.proc q).state = .unused) ∧
      (k'.mem.proc q).pid = (k.mem.proc q).pid ∧ (k'.mem.proc q).killed = (k.mem.proc q).killed)
    (hthread : ∀ c', c' ≠ c → k'.thread c' = k.thread c')
    (hfresh : v.fresh = none) (hnamed : v.named = none) :
    Pids k' ℓ' (Function.update V (k.thread c) v) z := by
  refine h.update hnext hℓ (fun q => (hmem q).1) (fun q => (hmem q).2.1) (fun _ q _ => (hmem q).2.2)
    (fun _ _ _ hf => absurd hfresh hf) (.inr ⟨hfresh, fun x q he => ?_⟩) (by simp [hnamed])
    fun t' ht' => ?_
  · obtain ⟨hq, hqst, -⟩ := h.given _ x q he
    obtain rfl : q = p := by simpa [hheld] using hq
    exact hst hqst
  · by_cases ht : t' = k.thread c
    · subst ht
      rw [Function.update_self]
      exact ⟨hfresh, hnamed⟩
    · rw [Function.update_of_ne ht]
      refine h.away t' fun c' hc' => ?_
      by_cases hcc : c' = c
      · exact ht (by rw [← hc', hcc])
      · exact ht' c' ((hthread c' hcc).trans hc')

/-- The queue has to do with nobody's pid. -/
theorem queue (h : Pids k ℓ V z) {m : Mem} {v : View}
    (hproc : ∀ q, (m.proc q).state = (k.mem.proc q).state ∧ (m.proc q).pid = (k.mem.proc q).pid ∧
      (m.proc q).killed = (k.mem.proc q).killed) (hℓ : ℓ'.allocs = ℓ.allocs)
    (hheld : v.held = (V (k.thread c)).held) (hfresh : v.fresh = (V (k.thread c)).fresh)
    (hnamed : v.named = (V (k.thread c)).named) :
    Pids (k.setMem m) ℓ' (Function.update V (k.thread c) v) z :=
  h.quiet rfl (fun q => ⟨by rw [Kernel.setMem_mem, (hproc q).1], (hproc q).2⟩) rfl hℓ
    (fun q hq _ => hheld ▸ hq) hfresh fun q x hq => h.named _ q x (hnamed ▸ hq)

/-- What changes the view of the locks only, or nothing. -/
theorem same (h : Pids k ℓ V z) {v : View} (hshared : k'.shared.nextpid = k.shared.nextpid)
    (hmem : k'.mem = k.mem) (hrunning : k'.running = k.running) (hℓ : ℓ'.allocs = ℓ.allocs)
    (hheld : ∀ p, .proc p ∈ (V (k.thread c)).held → (V (k.thread c)).fresh ≠ none →
      .proc p ∈ v.held) (hfresh : v.fresh = (V (k.thread c)).fresh)
    (hnamed : v.named = none ∨ v.named = (V (k.thread c)).named) :
    Pids k' ℓ' (Function.update V (k.thread c) v) z := by
  refine h.quiet hshared (fun q => by rw [hmem]; exact ⟨Iff.rfl, rfl, rfl⟩) hrunning hℓ hheld hfresh
    fun q x hq => ?_
  rcases hnamed with hn | hn
  · simp [hn] at hq
  · exact h.named _ q x (hn ▸ hq)

/-- `allocproc`: the new thread has no pid to give. -/
theorem init (h : Pids k ℓ V z) (hb : Base k V tr σ) {x : Code Int} {root : Slot} {b : Bool}
    (hpre : instrPre (k.running c) (.init p) (V (k.thread c))) (hℓ : ℓ'.allocs = ℓ.allocs) :
    Pids ((k.setMem (k.mem.modify p Proc.init)).setCode (.proc p) x) ℓ'
      (Function.update
        (Function.update V (k.thread c) (instrNext (k.running c) (.init p) (V (k.thread c)) ()))
        (.proc p) (.resumed p root b)) z := by
  have hused := hb.used_of_head hpre.2
  have hne : Thread.proc p ≠ k.thread c := fun e =>
    hb.sits.absent p (.inr hused) c (Kernel.thread_eq_proc.mp e.symm)
  have haway : ∀ c', k.thread c' ≠ .proc p := fun c' e =>
    hb.sits.absent p (.inr hused) c' (Kernel.thread_eq_proc.mp e)
  have hmade : Pids (k.setMem (k.mem.modify p Proc.init)) ℓ' (Function.update V (k.thread c)
      (instrNext (k.running c) (.init p) (V (k.thread c)) ())) z := by
    refine h.queue (fun q => ?_) hℓ rfl rfl rfl
    rw [Mem.modify_proc]
    split_ifs with hq
    · exact ⟨by rw [hq]; rfl, by rw [hq]; rfl, by rw [hq]; rfl⟩
    · exact ⟨rfl, rfl, rfl⟩
  refine hmade.update rfl rfl (fun _ => Iff.rfl) (fun _ => rfl) (fun _ _ _ => rfl)
    (fun _ _ _ hf => absurd rfl hf) (.inr ⟨rfl, fun y q he => ?_⟩) (by simp [View.resumed])
    fun t' ht' => ?_
  · rw [Function.update_of_ne hne, (h.away _ haway).1] at he
    cases he
  · by_cases ht : t' = .proc p
    · rw [ht, Function.update_self]
      exact ⟨rfl, rfl⟩
    · have hne' : t' ≠ k.thread c := Ne.symm (ht' c)
      rw [Function.update_of_ne ht, Function.update_of_ne hne']
      exact h.away t' ht'

end Pids

/-- **What every instruction keeps of the pids**, as long as they do not run out. -/
theorem pids_kept (hfew : FewPids P) :
    Kept P z (fun (k : Kernel n) ℓ V => Pids k ℓ V z) where
  boot := by
    refine ⟨(int32_of_isInt32 (x := 1) (by decide)).symm, fun p hp => absurd rfl hp,
      fun p q hp => absurd rfl hp, fun t x o he => ?_,
      fun t t' x o o' he => ?_, fun t x p he => ?_, fun p _ => .inl rfl, fun t p x he => ?_,
      fun t _ => ?_, fun _ p _ => rfl⟩
    · cases t <;> simp [bootView, View.resumed] at he
    · cases t <;> simp [bootView, View.resumed] at he
    · cases t <;> simp [bootView, View.resumed] at he
    · cases t <;> simp [bootView, View.resumed] at he
    · cases t <;> exact ⟨rfl, rfl⟩
  congr {k k'} {ℓ V} hshared hlock hnoff hrunning h := by
    have hmem : k'.mem = k.mem := congrArg Shared.mem hshared
    have hthread : ∀ c, k'.thread c = k.thread c := fun c =>
      Kernel.thread_congr (congrFun hrunning c)
    exact ⟨by rw [hshared]; exact h.next, by rw [hmem]; exact h.used, by rw [hmem]; exact h.distinct,
      by rw [hmem]; exact h.fresh, h.apart, by rw [hmem]; exact h.given,
      by rw [hmem]; exact h.unused, by rw [hmem]; exact h.named,
      fun t ht => h.away t fun c => hthread c ▸ ht c, by rw [hmem]; exact h.clean⟩
  tick {k ℓ V} c i _ _ _ h := by
    have hℓ : (ℓ.recordInterrupt (k.running c) i).allocs = ℓ.allocs :=
      Ledger.recordInterrupt_allocs
    exact ⟨by rw [hℓ]; exact h.next, by rw [hℓ]; exact h.used, h.distinct, by rw [hℓ]; exact h.fresh,
      h.apart, h.given, h.unused, h.named, h.away, h.clean⟩
  instr {k k' ℓ V c e i r tr σ} _ hcore hb hP hiss hpre hex h := by
    by_cases hi : i = .nextpid
    · subst hi
      simp only [execute, Option.some.injEq, Prod.mk.injEq] at hex
      obtain ⟨rfl, rfl⟩ := hex
      rw [viewNext_of_ne (by simp)]
      exact h.nextpid (hfew _ _ _ _ hP hiss) hpre
    have hℓ : (ℓ.record k k' c i r).allocs = ℓ.allocs := Ledger.record_allocs hi
    cases i with
    | nextpid => exact absurd rfl hi
    | acquire l =>
        simp only [execute, Option.ite_none_right_eq_some, Option.some.injEq, Prod.mk.injEq] at hex
        obtain ⟨-, rfl, -⟩ := hex
        rw [viewNext_of_ne (by simp)]
        exact h.same rfl rfl rfl hℓ (fun p hp _ => by simp [instrNext, hp]) (by simp [instrNext])
          (.inr (by simp [instrNext]))
    | release l =>
        simp only [execute, Option.ite_none_right_eq_some, Option.some.injEq, Prod.mk.injEq] at hex
        obtain ⟨-, rfl, -⟩ := hex
        rw [viewNext_of_ne (by simp)]
        refine h.same rfl rfl rfl hℓ (fun p hp hf => ?_) (by simp [instrNext]) ?_
        · have hl : l = .pid := by
            by_contra hl
            exact hf (hpre.fresh hl)
          subst hl
          simp only [instrNext, View.drop_held]
          exact (List.mem_erase_of_ne (by simp)).mpr hp
        · cases l <;> simp [instrNext, View.drop]
    | write p w =>
        simp only [execute, Option.some.injEq, Prod.mk.injEq] at hex
        obtain ⟨rfl, -⟩ := hex
        rw [viewNext_of_ne (by simp)]
        exact h.write hb (hcore.nozero _) hpre hℓ
    | insert p =>
        obtain ⟨m', tr', rfl, hins, -⟩ := hb.insert_cases hpre.2 hex
        rw [viewNext_of_ne (by simp)]
        refine h.queue (fun q => ⟨?_, ?_, ?_⟩) hℓ rfl rfl rfl
        · exact hins.field Proc.state (fun _ => rfl) (fun _ _ => rfl) q
        · exact hins.field Proc.pid (fun _ => rfl) (fun _ _ => rfl) q
        · exact hins.field Proc.killed (fun _ => rfl) (fun _ _ => rfl) q
    | retrieve =>
        rw [viewNext_of_ne (by simp)]
        rcases hb.retrieve_cases hex with ⟨-, rfl, rfl⟩ | ⟨p, m', tr', rfl, rfl, hret, -⟩
        · exact h.same rfl rfl rfl hℓ (fun _ hp _ => hp) rfl (.inr rfl)
        · refine h.queue (fun q => ⟨?_, ?_, ?_⟩) hℓ rfl rfl rfl
          · exact hret.field Proc.state (fun _ => rfl) (fun _ _ => rfl) q
          · exact hret.field Proc.pid (fun _ => rfl) (fun _ _ => rfl) q
          · exact hret.field Proc.killed (fun _ => rfl) (fun _ _ => rfl) q
    | dispatch p =>
        have hthread : ∀ c' ≠ c, _ := fun _ hne => execute_thread_ne hex hne
        simp only [execute, Option.some.injEq, Prod.mk.injEq] at hex
        obtain ⟨rfl, -⟩ := hex
        rw [viewNext_of_ne (by simp)]
        have hst : (k.mem.proc p).state = .runnable :=
          hb.runnable_of_retrieved (Kernel.thread_eq_cpu.mpr ⟨hpre.1, rfl⟩ ▸ hpre.2.2.1)
        refine h.leave hpre.2.1 (by simp [hst]) rfl hℓ (fun q => ?_) hthread rfl rfl
        rw [Kernel.setRunning_mem, Kernel.setMem_mem, Xv6Cfs.dispatch, Mem.modify_proc]
        split_ifs with hq
        · subst hq
          exact ⟨by simp [hst], rfl, rfl⟩
        · exact ⟨Iff.rfl, rfl, rfl⟩
    | switch p =>
        have hthread : ∀ c' ≠ c, _ := fun _ hne => execute_thread_ne hex hne
        simp only [execute, Option.ite_none_right_eq_some, Option.some.injEq, Prod.mk.injEq] at hex
        obtain ⟨-, rfl, -⟩ := hex
        rw [viewNext_of_ne (by simp)]
        exact h.leave hpre.2.1 (fun hst => hb.sits.absent p (.inl hst) c hpre.1) rfl hℓ
          (fun _ => ⟨Iff.rfl, rfl, rfl⟩) hthread rfl rfl
    | init p =>
        simp only [execute, Option.some.injEq, Prod.mk.injEq] at hex
        obtain ⟨rfl, -⟩ := hex
        simp only [viewNext, Kernel.thread_me]
        exact h.init hb hpre hℓ
    | panic => simp [execute] at hex
    | pidIs p x =>
        simp only [execute, Option.some.injEq, Prod.mk.injEq] at hex
        obtain ⟨rfl, rfl⟩ := hex
        rw [viewNext_of_ne (by simp)]
        refine h.quiet rfl (fun _ => ⟨Iff.rfl, rfl, rfl⟩) rfl hℓ (fun q hq _ => ?_) ?_ fun q y hq => ?_
        · simp only [instrNext]
          split_ifs <;> exact hq
        · simp only [instrNext]
          split_ifs <;> rfl
        · simp only [instrNext] at hq
          split_ifs at hq with hpid
          · simp only [Option.some.injEq, Prod.mk.injEq] at hq
            obtain ⟨rfl, rfl⟩ := hq
            exact of_decide_eq_true hpid
          · exact h.named _ q y hq
    | stateIs p st =>
        simp only [execute, Option.some.injEq, Prod.mk.injEq] at hex
        obtain ⟨rfl, -⟩ := hex
        rw [viewNext_of_ne (by simp)]
        refine h.same rfl rfl rfl hℓ (fun q hq _ => ?_) ?_ (.inr ?_) <;> simp only [instrNext] <;>
          split_ifs <;> first | exact hq | rfl
    | _ =>
        simp only [execute, Option.some.injEq, Prod.mk.injEq] at hex
        obtain ⟨rfl, -⟩ := hex
        rw [viewNext_of_ne (by simp)]
        exact h.same rfl rfl rfl hℓ (fun _ hq _ => hq) rfl (.inr rfl)

/-- **What is so of the pids in every reachable state.** -/
theorem pids_traced (hfew : FewPids P) (hz : Spared P z) (h : Traced P z k ℓ V) : Pids k ℓ V z :=
  (pids_kept hfew).traced hz h

end Xv6Cfs
