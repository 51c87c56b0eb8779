import Xv6Cfs.Kernel.Machine
import Xv6Cfs.Proof.Code

/-!
# Runs with the views of the threads

A view is carried along for every thread of a run: the thread that executes an
instruction changes its own as the rules say, and a new process gets one. What
holds of the views alone, because every instruction keeps to the rules, is
`Sane`.
-/

namespace Xv6Cfs

open Threads Rules

variable {n : Nat}

/-! ## Views that make sense -/

/-- What the parts of a view have to do with the locks it holds. -/
structure Sane (me : Option Slot) (v : View) : Prop where
  nodup : v.held.Nodup
  scan : v.scan ≠ none → .ticks ∈ v.held
  seen : ∀ p st, v.seen = some (p, st) → .proc p ∈ v.held
  named : ∀ p x, v.named = some (p, x) → .proc p ∈ v.held
  waking : ∀ p, v.waking = some p → .proc p ∈ v.held
  fresh : v.fresh ≠ none → ∃ p, .proc p ∈ v.held
  on : v.on = false → ∃ p, me = some p ∧ .proc p ∈ v.held
  leaving : v.leaving ≠ none → ∃ p, me = some p ∧ .proc p ∈ v.held
  off : ∀ p, v.off = some p → .proc p ∈ v.held
  lore : v.lore ≠ .empty → v.Guarded
  retrieved : ∀ p, me = some p → v.retrieved = none
  starting : ∀ p, me = some p → v.starting = false

variable {me : Option Slot} {v : View}

/-- **A thread without locks is between two sections.** -/
theorem Sane.free (h : Sane me v) (hheld : v.held = []) : Free v := by
  have hno : ∀ l, l ∉ v.held := fun l hl => by simp [hheld] at hl
  have hon : v.on = true := by
    by_contra hon
    obtain ⟨p, -, hp⟩ := h.on (by simpa using hon)
    exact hno _ hp
  refine ⟨⟨?_, ?_, ?_, ?_, hon, ?_, ?_, ?_⟩, hheld, ?_⟩
  · exact Option.eq_none_iff_forall_not_mem.mpr fun p hp => hno _ (h.waking p hp)
  · exact Option.eq_none_iff_forall_not_mem.mpr fun x hx => hno _ (h.seen x.1 x.2 hx)
  · exact Option.eq_none_iff_forall_not_mem.mpr fun x hx => hno _ (h.named x.1 x.2 hx)
  · by_contra hne
    obtain ⟨p, hp⟩ := h.fresh hne
    exact hno _ hp
  · by_contra hne
    obtain ⟨p, -, hp⟩ := h.leaving hne
    exact hno _ hp
  · exact Option.eq_none_iff_forall_not_mem.mpr fun p hp => hno _ (h.off p hp)
  · by_contra hne
    exact hno _ (h.scan hne)
  · by_contra hne
    obtain ⟨l, hl, -⟩ := h.lore hne
    exact hno _ hl

/-- A lock is taken once. -/
theorem Ordered.not_mem {l : Lock} (h : Ordered me v l) : l ∉ v.held := by
  intro hl
  rcases h with h | ⟨-, rfl, p, hheld, -⟩
  · exact absurd (h l hl) (by omega)
  · simp [hheld] at hl

theorem Sane.take {l : Lock} (h : Sane me v) (hord : Ordered me v l) : Sane me (v.take l) where
  nodup := by
    rw [View.take_held]
    exact List.nodup_cons.mpr ⟨hord.not_mem, h.nodup⟩
  scan hs := by
    have : v.scan ≠ none := by
      cases l <;> simpa [View.take] using hs
    simp [h.scan this]
  seen p st hs := by simp [h.seen p st (by simpa using hs)]
  named p x hs := by simp [h.named p x (by simpa using hs)]
  waking p hs := by simp [h.waking p (by simpa using hs)]
  fresh hs := by
    obtain ⟨p, hp⟩ := h.fresh (by simpa using hs)
    exact ⟨p, by simp [hp]⟩
  on hs := by
    obtain ⟨p, hme, hp⟩ := h.on (by simpa using hs)
    exact ⟨p, hme, by simp [hp]⟩
  leaving hs := by
    obtain ⟨p, hme, hp⟩ := h.leaving (by simpa using hs)
    exact ⟨p, hme, by simp [hp]⟩
  off p hs := by simp [h.off p (by simpa using hs)]
  lore hs := by
    by_cases hl : l.rank < 2
    · exact ⟨l, by simp, hl⟩
    · have : v.lore ≠ .empty := by
        cases l <;> simp_all [View.take, Lock.rank]
      obtain ⟨x, hx, hrank⟩ := h.lore this
      exact ⟨x, by simp [hx], hrank⟩
  retrieved p hme := by simpa using h.retrieved p hme
  starting p hme := by simpa using h.starting p hme

/-- Releasing `pid_lock` or `tree.lock` changes nothing else. -/
theorem View.drop_of_top {l : Lock} (hl : 2 < l.rank) :
    v.drop me l = { v with held := v.held.erase l } := by
  cases l <;> first | rfl | simp [Lock.rank] at hl

theorem Sane.drop {l : Lock} (h : Sane me v) (hrel : Releasable me v l) :
    Sane me (v.drop me l) := by
  -- A lock that is not released is still held.
  have hkeep : ∀ x, x ∈ v.held → x ≠ l → x ∈ (v.drop me l).held := fun x hx hne => by
    rw [View.drop_held]
    exact (List.mem_erase_of_ne hne).mpr hx
  have hnodup : (v.drop me l).held.Nodup := by
    rw [View.drop_held]
    exact h.nodup.erase l
  have hwaking : ∀ p, (v.drop me l).waking = some p → .proc p ∈ (v.drop me l).held := fun p hp => by
    simp [hrel.waking] at hp
  have hon : (v.drop me l).on = false → ∃ p, me = some p ∧ .proc p ∈ (v.drop me l).held := by
    intro hoff
    obtain ⟨p, hme, hp⟩ := h.on (by simpa using hoff)
    refine ⟨p, hme, hkeep _ hp fun e => ?_⟩
    simp [hrel.on p e.symm hme] at hoff
  have hretrieved : ∀ p, me = some p → (v.drop me l).retrieved = none := fun p hme => by
    simpa using h.retrieved p hme
  have hstarting : ∀ p, me = some p → (v.drop me l).starting = false := fun p hme => by
    simpa using h.starting p hme
  have hfresh : (v.drop me l).fresh ≠ none → ∃ p, .proc p ∈ (v.drop me l).held := by
    intro hs
    rw [View.drop_fresh] at hs
    by_cases hl : l = .pid
    · obtain ⟨p, hp⟩ := h.fresh hs
      exact ⟨p, hkeep _ hp (by simp [hl])⟩
    · exact absurd (hrel.fresh hl) hs
  have hguard : ¬l.rank < 2 → v.Guarded → (v.drop me l).Guarded := by
    rintro hl ⟨x, hx, hrank⟩
    exact ⟨x, hkeep _ hx (by rintro rfl; exact hl hrank), hrank⟩
  rcases Nat.lt_trichotomy l.rank 2 with hl | hl | hl
  · have hne : ∀ p, Lock.proc p ≠ l := fun p e => by simp [← e, Lock.rank] at hl
    rw [View.drop_of_rank hl] at *
    refine ⟨hnodup, fun hs => ?_, fun p st hs => hkeep _ (h.seen p st hs) (hne p),
      fun p x hs => hkeep _ (h.named p x hs) (hne p), hwaking, hfresh, hon, fun hs => ?_,
      fun p hs => hkeep _ (h.off p hs) (hne p), by simp, hretrieved, hstarting⟩
    · by_cases ht : l = .ticks
      · simp [ht] at hs
      · simp only [ht, if_false] at hs
        exact hkeep _ (h.scan hs) (Ne.symm ht)
    · by_cases hleave : View.Leaving me v
      · obtain ⟨-, p, hme, hp⟩ := hleave
        exact ⟨p, hme, hkeep _ hp (hne p)⟩
      · simp only [hleave, if_false] at hs
        obtain ⟨p, hme, hp⟩ := h.leaving hs
        exact ⟨p, hme, hkeep _ hp (hne p)⟩
  · obtain ⟨q, rfl⟩ : ∃ q, l = .proc q := by
      cases l <;> first | exact ⟨_, rfl⟩ | simp [Lock.rank] at hl
    refine ⟨hnodup, fun hs => hkeep _ (h.scan hs) (by simp), by simp [View.drop],
      by simp [View.drop], hwaking, hfresh, hon, by simp [View.drop], by simp [View.drop],
      fun hs => hguard (by omega) (h.lore hs), hretrieved, hstarting⟩
  · have hne : ∀ p, Lock.proc p ≠ l := fun p e => by simp [← e, Lock.rank] at hl
    have hticks : Lock.ticks ≠ l := fun e => by simp [← e, Lock.rank] at hl
    rw [View.drop_of_top hl] at *
    refine ⟨hnodup, fun hs => hkeep _ (h.scan hs) hticks,
      fun p st hs => hkeep _ (h.seen p st hs) (hne p),
      fun p x hs => hkeep _ (h.named p x hs) (hne p), hwaking, hfresh, hon, fun hs => ?_,
      fun p hs => hkeep _ (h.off p hs) (hne p), fun hs => hguard (by omega) (h.lore hs), hretrieved,
      hstarting⟩
    obtain ⟨p, hme, hp⟩ := h.leaving hs
    exact ⟨p, hme, hkeep _ hp (hne p)⟩

/-- The parts of a view that change without the locks. -/
theorem Sane.write {p : Slot} {w : Write} (h : Sane me v) (hpre : writePre me v p w) :
    Sane me (v.write me p w) := by
  obtain ⟨h1, h2, h3, h4, h5, h6, h7, h8, h9, h10, h11, h12⟩ := h
  cases w with
  | fold =>
      obtain ⟨hp, -, hwaking, -⟩ := hpre
      refine ⟨h1, h2, by simp [View.write], h4, fun q hq => ?_, h6, fun hon => ?_, h8, h9, h10, h11,
        h12⟩
      · by_cases hme : me = some p
        · exact h5 q (by simpa [View.write, hme] using hq)
        · obtain rfl : p = q := by simpa [View.write, hme] using hq
          exact hp
      · by_cases hme : me = some p
        · exact ⟨p, hme, hp⟩
        · exact h7 (by simpa [View.write, hme] using hon)
  | sleep chan =>
      obtain ⟨hp, -, hme, -⟩ := hpre
      exact ⟨h1, h2, by simp [View.write], h4, h5, h6, fun _ => ⟨p, hme, hp⟩, h8, h9, h10, h11, h12⟩
  | exit st =>
      obtain ⟨⟨hp, -, hme, -⟩, -, -, hwait, -⟩ := hpre
      exact ⟨h1, h2, by simp [View.write], h4, h5, h6, fun _ => ⟨p, hme, hp⟩, h8, h9,
        fun _ => ⟨.wait, hwait, by simp [Lock.rank]⟩, h11, h12⟩
  | ready => exact ⟨h1, h2, by simp [View.write], h4, h5, h6, h7, h8, h9, h10, h11, h12⟩
  | pid x =>
      exact ⟨h1, h2, h3, by simp [View.write], h5, fun _ => ⟨p, hpre.1⟩, h7, h8, h9, h10, h11, h12⟩
  | used => exact ⟨h1, h2, by simp [View.write], h4, h5, by simp [View.write], h7, h8, h9, h10, h11, h12⟩
  | free =>
      refine ⟨h1, h2, by simp [View.write], by simp [View.write], h5, h6, h7, h8, h9,
        fun hl => h10 fun e => hl ?_, h11, h12⟩
      simp [View.write, e, Lore.empty]
  | parent q =>
      exact ⟨h1, h2, h3, h4, h5, h6, h7, h8, h9, fun _ => ⟨.wait, hpre.1, by simp [Lock.rank]⟩, h11,
        h12⟩
  | _ => exact ⟨h1, h2, h3, h4, h5, h6, h7, h8, h9, h10, h11, h12⟩

/-- **Views make sense as long as the rules are kept.** -/
theorem Sane.next {i : Instr} {r : Answer i} (h : Sane me v) (hpre : instrPre me i v) :
    Sane me (instrNext me i v r) := by
  obtain ⟨h1, h2, h3, h4, h5, h6, h7, h8, h9, h10, h11, h12⟩ := id h
  cases i with
  | acquire l => exact h.take hpre.1
  | release l => exact h.drop hpre
  | write p w => exact h.write hpre
  | stateIs p st =>
      simp only [instrNext]
      split_ifs with hp hr hz
      · refine ⟨h1, h2, fun q st' hq => ?_, h4, h5, h6, h7, h8, h9, h10, h11, h12⟩
        simp only [Option.some.injEq, Prod.mk.injEq] at hq
        exact hq.1 ▸ hp
      · exact ⟨h1, h2, h3, h4, h5, h6, h7, h8, h9, fun _ => ⟨.wait, hz.2, by simp [Lock.rank]⟩, h11,
          h12⟩
      · exact h
      · exact h
  | pidIs p x =>
      simp only [instrNext]
      split_ifs
      · refine ⟨h1, h2, h3, fun q y hq => ?_, h5, h6, h7, h8, h9, h10, h11, h12⟩
        simp only [Option.some.injEq, Prod.mk.injEq] at hq
        exact hq.1 ▸ hpre
      · exact h
  | sleepsOn p chan =>
      refine ⟨h1, h2, fun q st hq => ?_, h4, h5, h6, h7, h8, h9, fun hl => ?_, h11, h12⟩
      · by_cases hr : r = true
        · simp only [instrNext, hr, if_true, Option.some.injEq, Prod.mk.injEq] at hq
          exact hq.1 ▸ hpre.1
        · exact h3 q st (by simpa [instrNext, hr] using hq)
      · by_cases hg : v.Guarded
        · exact hg
        · exact h10 (by simpa [instrNext, hg] using hl)
  | parentOf p =>
      exact ⟨h1, h2, h3, h4, h5, h6, h7, h8, h9, fun _ => ⟨.wait, hpre, by simp [Lock.rank]⟩, h11, h12⟩
  | insert p => exact ⟨h1, h2, h3, h4, by simp [instrNext], h6, h7, h8, h9, h10, h11, h12⟩
  | retrieve =>
      refine ⟨h1, h2, h3, h4, h5, h6, h7, h8, h9, h10, fun p hme => ?_, h12⟩
      simp [hpre.2.1] at hme
  | dispatch p =>
      obtain ⟨hme, hheld, -⟩ := hpre
      refine ⟨h1, h2, by simp [instrNext], by simp [instrNext], h5, by simp [instrNext], h7, h8,
        fun q hq => ?_, h10, fun _ _ => rfl, h12⟩
      obtain rfl : p = q := by simpa [instrNext] using hq
      simp [instrNext, hheld]
  | switch p =>
      exact ⟨h1, h2, h3, by simp [instrNext], h5, by simp [instrNext], by simp [instrNext],
        by simp [instrNext], h9, h10, h11, h12⟩
  | nextpid => exact ⟨h1, h2, h3, h4, h5, fun _ => hpre.2.1, h7, h8, h9, h10, h11, h12⟩
  | tick => exact ⟨h1, fun _ => hpre, h3, h4, h5, h6, h7, h8, h9, h10, h11, h12⟩
  | initproc p => exact ⟨h1, h2, h3, h4, h5, h6, h7, h8, h9, h10, h11, fun _ _ => rfl⟩
  | _ => exact ⟨h1, h2, h3, h4, h5, h6, h7, h8, h9, h10, h11, h12⟩

theorem sane_idle (me : Option Slot) (root : Slot) {starting : Bool} (nozero : Bool)
    (hs : ∀ p, me = some p → starting = false) : Sane me (.idle root starting nozero) := by
  refine ⟨?_, ?_, ?_, ?_, ?_, ?_, ?_, ?_, ?_, ?_, ?_, hs⟩ <;> simp

theorem sane_resumed (p root : Slot) (nozero : Bool) :
    Sane (some p) (.resumed p root nozero) := by
  refine ⟨?_, ?_, ?_, ?_, ?_, ?_, ?_, ?_, ?_, ?_, ?_, ?_⟩ <;> simp [View.resumed]

/-! ## Runs with views -/

/-- The views after the CPU `c` has executed `i`. -/
def viewNext (k : Kernel n) (V : Thread n → View) (c : Fin n) (i : Instr) (r : Answer i) :
    Thread n → View :=
  let t := k.thread c
  let V' := Function.update V t (instrNext t.me i (V t) r)
  match i with
  | .init p =>
      Function.update V' (.proc p)
        (.resumed p (k.shared.initproc.getD p) (V t).nozero)
  | _ => V'

/-- One step, with the views. -/
inductive ViewStep (k : Kernel n) (ℓ : Ledger n) (V : Thread n → View) :
    Move n → Kernel n → Ledger n → (Thread n → View) → Prop where
  | call {c : Fin n} {e : Env} {f : Routine} {next : Int → Code Int} :
      k.code (k.thread c) = .call f next →
      ViewStep k ℓ V (.exec c e) (k.setCode (k.thread c) (f.body >>= next)) ℓ V
  | instr {c : Fin n} {e : Env} {i : Instr} {next : Answer i → Code Int} {k' : Kernel n}
      {r : Answer i} : k.code (k.thread c) = .instr i next → execute k c e i = some (k', r) →
      ViewStep k ℓ V (.exec c e) (k'.setCode (k.thread c) (next r)) (ℓ.record k k' c i r)
        (viewNext k V c i r)
  | interrupt {c : Fin n} {i : Interrupt} : k.intr c = true → k.noff c = 0 →
      ViewStep k ℓ V (.interrupt c i) (interrupt k c i)
        (ℓ.recordInterrupt (k.thread c).me i) V

theorem viewStep_of_step {k k' : Kernel n} {ℓ ℓ' : Ledger n} {mv : Move n}
    (h : step k ℓ mv = some (k', ℓ')) (V : Thread n → View) :
    ∃ V', ViewStep k ℓ V mv k' ℓ' V' := by
  cases mv with
  | exec c e =>
      rw [step] at h
      cases hcode : k.code (k.thread c) with
      | ret x => simp [hcode] at h
      | call f next =>
          simp only [hcode, Option.some.injEq, Prod.mk.injEq] at h
          obtain ⟨rfl, rfl⟩ := h
          exact ⟨V, .call hcode⟩
      | instr i next =>
          simp only [hcode] at h
          cases hex : execute k c e i with
          | none => simp [hex] at h
          | some x =>
              simp only [hex, Option.some.injEq, Prod.mk.injEq] at h
              obtain ⟨rfl, rfl⟩ := h
              exact ⟨_, .instr hcode hex⟩
  | interrupt c i =>
      rw [step] at h
      split at h
      · rename_i hi
        simp only [Option.some.injEq, Prod.mk.injEq] at h
        obtain ⟨rfl, rfl⟩ := h
        exact ⟨V, .interrupt hi.1 hi.2⟩
      · simp at h

/-- The views after boot. -/
def bootView (z : Bool) : Thread n → View
  | .cpu c => .idle 0 (decide (c.val = 0)) z
  | .proc p => .resumed p p z

/-- The states reached by steps that meet the condition `P`, with the views. -/
inductive Traced (P : Kernel n → Ledger n → Move n → Prop) (z : Bool) :
    Kernel n → Ledger n → (Thread n → View) → Prop where
  | init : Traced P z (boot n) (Ledger.empty n) (bootView z)
  | tail {k k' : Kernel n} {ℓ ℓ' : Ledger n} {V V' : Thread n → View} {mv : Move n} :
      Traced P z k ℓ V → P k ℓ mv → ViewStep k ℓ V mv k' ℓ' V' → Traced P z k' ℓ' V'

variable {P : Kernel n → Ledger n → Move n → Prop} {k : Kernel n} {ℓ : Ledger n}

/-- **Every run can be followed with views.** -/
theorem RunWhere.traced (z : Bool) (h : RunWhere P k ℓ) : ∃ V, Traced P z k ℓ V := by
  induction h with
  | init => exact ⟨_, .init⟩
  | tail _ hP hs ih =>
      obtain ⟨V, hV⟩ := ih
      obtain ⟨V', hstep⟩ := viewStep_of_step hs V
      exact ⟨V', .tail hV hP hstep⟩

theorem Run.traced (z : Bool) (h : Run k ℓ) :
    ∃ V, Traced (fun _ _ _ => True) z k ℓ V := by
  induction h with
  | init => exact ⟨_, .init⟩
  | tail _ hs ih =>
      obtain ⟨V, hV⟩ := ih
      obtain ⟨V', hstep⟩ := viewStep_of_step hs V
      exact ⟨V', .tail hV trivial hstep⟩

end Xv6Cfs
