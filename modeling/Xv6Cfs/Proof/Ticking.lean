import Xv6Cfs.Proof.Clock
import Xv6Cfs.Proof.Lives
import Xv6Cfs.Proof.Waking

/-!
# What `clockintr` does for those who sleep on `ticks`

Ticks are counted in `clockintr` only, which then calls `wakeup`: when it releases
`tickslock` it has looked at every process, and nobody who went to sleep with
`tickslock` is asleep. So a call of `sleep` misses no tick, from its beginning on.
-/

namespace Xv6Cfs

open Threads Rules RedBlack

variable {n : Nat} {k k' : Kernel n} {ℓ ℓ' : Ledger n} {V : Thread n → View} {c : Fin n}
  {tr : ColorTree Slot} {σ : Slot → Sit n} {p q : Slot} {e : Env} {i : Instr} {r : Answer i}
  {α : Type} {me : Option Slot} {chan : Option Chan} {t : Thread n} {z : Bool}
  {P : Kernel n → Ledger n → Move n → Prop}

/-! ## The rules -/

/-- The processes that the thread has looked at since it has counted a tick. -/
abbrev Seen := Option (List Slot)

/-- The rules for the thread on which `myproc()` returns `me`: after a tick, it does not release
`tickslock` before it has looked for sleepers in all other slots. -/
def ticking (me : Option Slot) : Rules Instr Answer Routine Seen where
  pre i w :=
    match i with
    | .release .ticks => ∀ ps, w = some ps → ∀ p, some p ≠ me → p ∈ ps
    | _ => True
  can _ _ _ := True
  next i w _ :=
    match i with
    | .tick => some []
    | .sleepsOn p chan => if chan = some .ticks then w.map (p :: ·) else w
    | .release .ticks => none
    | _ => w
  callPre f w := w = none ∧ f.Mine me
  callNext _ w := w

theorem ticking_next_none (hi : i ≠ .tick) : (ticking me).next i none r = none := by
  cases i with
  | tick => exact absurd rfl hi
  | release l => cases l <;> rfl
  | sleepsOn p chan => simp [ticking]
  | _ => rfl

theorem ticking_issue {Q : Answer i → Seen → Prop} (hi : i ≠ .tick) (hQ : ∀ r, Q r none) :
    (ticking me).wp (Prog.issue i : Code (Answer i)) Q none := by
  refine ⟨?_, fun r _ => ?_⟩
  · cases i with
    | release l => cases l <;> simp [ticking]
    | _ => trivial
  · rw [ticking_next_none hi]
    exact hQ r

/-- Plain code that counts no tick. -/
theorem ticking_of_plain {x : Code α} {Q : α → Seen → Prop}
    (h : (plain me false).wp x (fun a _ => Q a none) ()) : (ticking me).wp x Q none := by
  induction x with
  | ret a => exact h
  | instr i next ih =>
      have hi : i ≠ .tick := fun he => by simpa using h.1.2.2.2 he
      exact (wp_bind (Prog.issue i) next).mp
        (ticking_issue hi fun r => ih r (h.2 r trivial))
  | call f next ih => exact ⟨⟨rfl, h.1.1⟩, fun r => ih r (h.2 r)⟩

/-! ## The code -/

/-- `wakeup` looks at all other processes. -/
theorem ticking_wakeup : (ticking me).wp (wakeup me (some .ticks))
    (fun _ w => ∃ ps, w = some ps ∧ ∀ p, some p ≠ me → p ∈ ps) (some []) := by
  -- `ps` is what is left of the process table
  let Inv (ps : List Slot) (w : Seen) : Prop :=
    ∃ qs, w = some qs ∧ ∀ p, some p ≠ me → p ∉ ps → p ∈ qs
  have hstep : ∀ p ps w, Inv (p :: ps) w →
      (ticking me).wp (wakeupOne me (some .ticks) p) (fun _ => Inv ps) w := by
    rintro p ps w ⟨qs, rfl, hall⟩
    unfold wakeupOne
    split
    · rename_i hself
      refine ⟨qs, rfl, fun q hq hqs => hall q hq ?_⟩
      rw [List.mem_cons, not_or]
      exact ⟨fun he => hq (he ▸ hself), hqs⟩
    · have hdone : Inv ps (some (p :: qs)) := by
        refine ⟨p :: qs, rfl, fun q hq hqs => ?_⟩
        by_cases hqp : q = p
        · simp [hqp]
        · exact List.mem_cons_of_mem _ (hall q hq (by simp [hqp, hqs]))
      simp only [wp_bind]
      refine ⟨trivial, fun _ _ => ⟨trivial, fun b _ => ?_⟩⟩
      cases b with
      | false => exact ⟨trivial, fun _ _ => hdone⟩
      | true =>
          simp only [wake, callInsertProcess]
          exact ⟨trivial, fun _ _ => ⟨trivial, fun _ _ => ⟨trivial, fun _ _ => ⟨trivial, fun _ _ =>
            ⟨trivial, fun _ _ => hdone⟩⟩⟩⟩⟩
  have hstart : Inv slots (some []) := ⟨[], rfl, fun p _ hp => absurd (List.mem_finRange p) hp⟩
  refine wp_mono (wp_forEach Inv hstep hstart) fun _ w hw => ?_
  obtain ⟨qs, rfl, hall⟩ := hw
  exact ⟨qs, rfl, fun p hp => hall p hp (by simp)⟩

section

variable {Q : Unit → Seen → Prop}

theorem ticking_clockintr (hQ : Q () none) : (ticking me).wp (clockintr me) Q none := by
  simp only [clockintr, wp_bind]
  refine ticking_issue (by simp) fun id => ?_
  split
  · simp only [wp_bind]
    refine ticking_issue (by simp) fun _ => (wp_issue _).mpr ⟨trivial, fun _ _ => ?_⟩
    refine wp_mono ticking_wakeup fun _ w hw => ?_
    obtain ⟨ps, rfl, hall⟩ := hw
    refine ⟨fun qs hqs p hp => ?_, fun _ _ => hQ⟩
    obtain rfl := Option.some.inj hqs
    exact hall p hp
  · exact hQ

theorem ticking_kerneltrap {j : Interrupt} (hQ : Q () none) :
    (ticking me).wp (kerneltrap me j) Q none := by
  cases j with
  | device => exact ticking_of_plain (plain_outside hQ)
  | timer =>
      simp only [kerneltrap, wp_bind]
      refine ticking_clockintr ?_
      cases me with
      | none => exact hQ
      | some p => exact ticking_of_plain (plain_yieldCpu hQ)

theorem ticking_exit {β : Type} {st : Int} {Q : β → Seen → Prop} :
    (ticking (some p)).wp (exit p st) Q none := by
  have hpanic : (ticking (some p)).wp (panic : Code β) Q none :=
    ⟨trivial, fun e => Empty.elim e⟩
  simp only [exit, wp_bind]
  refine ticking_issue (by simp) fun x => ?_
  split
  · exact hpanic
  · simp only [wp_bind]
    refine ticking_of_plain (plain_outside ?_)
    refine ticking_of_plain (plain_acquire ?_)
    refine ticking_of_plain (plain_reparent ?_)
    refine ticking_issue (by simp) fun _ => ?_
    refine ticking_of_plain (plain_wakeup ?_)
    refine ticking_of_plain (plain_acquire ?_)
    refine ticking_issue (by simp) fun _ => ?_
    refine ticking_of_plain (plain_release ?_)
    exact ticking_of_plain (plain_sched hpanic)

theorem ticking_exitIfKilled (hQ : Q () none) :
    (ticking (some p)).wp (exitIfKilled p) Q none := by
  simp only [exitIfKilled, wp_bind]
  refine ticking_of_plain (plain_killed fun b => ?_)
  split
  · exact ticking_exit
  · exact hQ

theorem ticking_syscall {x : Syscall} {Q : Int → Seen → Prop} (hQ : ∀ r, Q r none) :
    (ticking (some p)).wp (syscall p x) Q none := by
  by_cases hx : ∃ st, x = .exit st
  · obtain ⟨st, rfl⟩ := hx
    exact ticking_exit
  · push Not at hx
    exact ticking_of_plain (plain_syscall hx hQ)

theorem ticking_usertrap {x : Trap} (hQ : Q () none) :
    (ticking (some p)).wp (usertrap p x) Q none := by
  have hset : (ticking (some p)).wp (setIntr false) Q none := ticking_issue (by simp) fun _ => hQ
  have hlast : (ticking (some p)).wp (if x = .timer then yieldCpu p else pure ())
      (fun _ w => (ticking (some p)).wp (setIntr false) Q w) none := by
    split
    · exact ticking_of_plain (plain_yieldCpu hset)
    · exact hset
  have hrest : (ticking (some p)).wp (exitIfKilled p) (fun _ w =>
      (ticking (some p)).wp (chargeAndYield p) (fun _ w =>
        (ticking (some p)).wp (if x = .timer then yieldCpu p else pure ())
          (fun _ w => (ticking (some p)).wp (setIntr false) Q w) w) w) none :=
    ticking_exitIfKilled (ticking_of_plain (plain_chargeAndYield hlast))
  simp only [usertrap, wp_bind]
  cases x with
  | syscall x =>
      simp only [handleTrap, wp_bind]
      exact ticking_exitIfKilled (ticking_issue (by simp) fun _ => ticking_syscall fun _ => hrest)
  | device => exact ticking_of_plain (plain_outside hrest)
  | timer => exact ticking_clockintr hrest
  | fault => exact ticking_of_plain (plain_setkilled hrest)

end

theorem ticking_invoke {f : Routine} {Q : Int → Seen → Prop} (hf : f.Mine me)
    (hQ : ∀ r, Q r none) : (ticking me).wp (invoke f) Q none := ⟨⟨rfl, hf⟩, hQ⟩

theorem ticking_sound : (ticking me).Sound Routine.body := by
  rintro f w ⟨rfl, hf⟩
  by_cases hends : f.Endless = true
  · cases f with
    | scheduler =>
        simp only [Routine.body, wp_bind]
        exact ticking_issue (by simp) fun _ => ticking_of_plain (plain_callRetrieveProcess fun _ =>
          ticking_invoke hf fun _ => rfl)
    | serving q b =>
        cases q with
        | none =>
            simp only [Routine.body, wp_bind]
            split
            · exact ticking_invoke hf fun _ => rfl
            · exact ticking_issue (by simp) fun _ => ticking_invoke hf fun _ => rfl
        | some p =>
            simp only [Routine.body, wp_bind]
            refine ticking_of_plain (plain_acquire ?_)
            refine ticking_of_plain (plain_serve fun _ => ?_)
            refine ticking_of_plain (plain_release ?_)
            exact ticking_of_plain (plain_callRetrieveProcess fun _ => ⟨⟨rfl, hf⟩, fun _ => rfl⟩)
    | user p =>
        obtain rfl : me = some p := hf
        simp only [Routine.body, wp_bind]
        exact ticking_issue (by simp) fun _ => ticking_usertrap (ticking_invoke rfl fun _ => rfl)
    | wait p b | sysSleep p m t | outside q b | outsideHolding q b m =>
        simp [Routine.Endless] at hends
  · exact ticking_of_plain (plain_body hf (by simpa using hends) fun _ => rfl)

theorem ticking_forkret : (ticking (some p)).wp (forkret p) (fun _ _ => True) none := by
  simp only [forkret, fsinit, wp_bind]
  have hrest : (ticking (some p)).wp (setIntr false) (fun _ w =>
      (ticking (some p)).wp (invoke (.user p)) (fun _ _ => True) w) none :=
    ticking_issue (by simp) fun _ => ticking_invoke rfl fun _ => trivial
  refine ticking_of_plain (plain_release ?_)
  refine ticking_issue (by simp) fun x => ?_
  split
  · simp only [wp_bind]
    refine ticking_of_plain (plain_outside ?_)
    exact ticking_issue (by simp) fun _ => hrest
  · exact hrest

theorem ticking_boot (t : Thread n) : (ticking t.me).wp (bootCode t) (fun _ _ => True) none := by
  have hsched : (ticking none).wp (invoke .scheduler) (fun _ _ => True) none :=
    ticking_invoke rfl fun _ => trivial
  cases t with
  | proc p => exact ticking_forkret
  | cpu c =>
      simp only [bootCode]
      split
      · simp only [userinit, wp_bind]
        refine ticking_of_plain (plain_allocproc fun r => ?_)
        cases r with
        | none => exact ⟨trivial, fun e => Empty.elim e⟩
        | some p =>
            simp only [wp_bind]
            refine ticking_issue (by simp) fun _ => ?_
            refine ticking_of_plain (plain_write (by simp) ?_)
            refine ticking_of_plain (plain_callInsertProcess ?_)
            exact ticking_of_plain (plain_release hsched)
      · exact hsched

/-! ## What the threads have seen -/

/-- What a thread has seen since the tick is what it knows. -/
structure Seeing (v : View) (w : Seen) : Prop where
  scan : v.scan = none ↔ w = none
  roused : ∀ ps, w = some ps → ∀ p ∈ ps, (p, some .ticks) ∈ v.lore.roused

/-- Every thread has such a view of what it has still to do. -/
def Watching (k : Kernel n) (V : Thread n → View) : Prop :=
  ∀ t, ∃ w, (ticking t.me).wp (k.code t) (fun _ _ => True) w ∧ Seeing (V t) w

theorem scan_instrNext {v : View} (hi : i ≠ .tick) (hl : i ≠ .release .ticks) :
    (instrNext me i v r).scan = none ↔ v.scan = none := by
  cases i with
  | tick => exact absurd rfl hi
  | acquire l => cases l <;> simp [instrNext, View.take]
  | release l => cases l <;> simp_all [instrNext, View.drop]
  | stateIs p st | pidIs p x =>
      simp only [instrNext]
      split_ifs <;> rfl
  | write p w => cases w <;> rfl
  | _ => exact Iff.rfl

/-- Nothing that is known is forgotten before `tickslock` is released. -/
theorem roused_stays {v : View} {x : Slot × Option Chan} (hpre : instrPre me i v) (hap : v.Apart)
    (hticks : .ticks ∈ v.held) (hl : i ≠ .release .ticks) (hx : x ∈ v.lore.roused) :
    x ∈ (instrNext me i v r).lore.roused := by
  -- it holds no other lock that one sleeps with, and takes none
  have hrank : ∀ l, i = .acquire l ∨ i = .release l → 1 < l.rank := by
    rintro l (rfl | rfl)
    · rcases hpre.1 with hord | ⟨-, -, p, hheld, -⟩
      · exact hord _ hticks
      · simp [hheld] at hticks
    · by_contra hlow
      have hle : Lock.rank .ticks = l.rank := by
        cases l <;> simp_all [Lock.rank]
      exact hl (by rw [hap _ hticks _ hpre.held hle])
  cases i with
  | acquire l =>
      have := hrank l (.inl rfl)
      cases l <;> simp_all [instrNext, View.take, Lock.rank]
  | release l =>
      have := hrank l (.inr rfl)
      cases l <;> simp_all [instrNext, View.drop, Lock.rank]
  | stateIs p st =>
      simp only [instrNext]
      split_ifs <;> exact hx
  | pidIs p y =>
      simp only [instrNext]
      split_ifs <;> exact hx
  | sleepsOn p chan =>
      simp only [instrNext]
      split_ifs
      · exact List.mem_cons_of_mem _ hx
      · exact hx
  | parentOf p => simpa [instrNext, Lore.learn] using hx
  | write p w => cases w <;> simpa [instrNext, View.write, Lore.adopt] using hx
  | _ => exact hx

/-- **A thread goes on.** -/
theorem Seeing.next {v : View} {w : Seen} (h : Seeing v w) (hpre : instrPre me i v) (hap : v.Apart)
    (hsane : Sane me v) : Seeing (instrNext me i v r) ((ticking me).next i w r) := by
  by_cases htick : i = .tick
  · subst htick
    exact ⟨by simp [instrNext, ticking], by simp [ticking]⟩
  by_cases hrel : i = .release .ticks
  · subst hrel
    exact ⟨by simp [instrNext, View.drop, ticking], by simp [ticking]⟩
  have hscan : (instrNext me i v r).scan = none ↔ v.scan = none := scan_instrNext htick hrel
  cases w with
  | none =>
      rw [ticking_next_none htick]
      exact ⟨iff_of_true (hscan.mpr (h.scan.mpr rfl)) rfl, by simp⟩
  | some ps =>
      have hsome : v.scan ≠ none := fun e => by simpa using h.scan.mp e
      have hticks := hsane.scan hsome
      have hold : ∀ q ∈ ps, (q, some .ticks) ∈ (instrNext me i v r).lore.roused := fun q hq =>
        roused_stays hpre hap hticks hrel (h.roused ps rfl q hq)
      by_cases hlook : ∃ p, i = .sleepsOn p (some .ticks)
      · obtain ⟨p, rfl⟩ := hlook
        have hguard : v.Guarded := ⟨_, hticks, by simp [Lock.rank]⟩
        refine ⟨iff_of_false (hscan.not.mpr hsome) (by simp [ticking]), fun qs hqs q hq => ?_⟩
        obtain rfl : p :: ps = qs := by simpa [ticking] using hqs
        rcases List.mem_cons.mp hq with rfl | hq
        · simp [instrNext, hguard]
        · exact hold q hq
      · have hnext : (ticking me).next i (some ps) r = some ps := by
          cases i with
          | tick => exact absurd rfl htick
          | release l => cases l <;> first | rfl | exact absurd rfl hrel
          | sleepsOn p chan =>
              have hne : chan ≠ some .ticks := fun e => hlook ⟨p, by rw [e]⟩
              exact if_neg hne
          | _ => rfl
        rw [hnext]
        refine ⟨iff_of_false (hscan.not.mpr hsome) (by simp), fun qs hqs q hq => ?_⟩
        obtain rfl := Option.some.inj hqs
        exact hold q hq

namespace Watching

theorem setCode (h : Watching k V) {x : Code Int}
    (hx : ∀ w, Seeing (V (k.thread c)) w →
      (ticking (k.thread c).me).wp (k.code (k.thread c)) (fun _ _ => True) w →
      (ticking (k.thread c).me).wp x (fun _ _ => True) w)
    (hcode : k'.code = Function.update k.code (k.thread c) x) : Watching k' V := by
  intro t
  obtain ⟨w, hwp, hw⟩ := h t
  refine ⟨w, ?_, hw⟩
  rw [hcode]
  by_cases ht : t = k.thread c
  · subst ht
    rw [Function.update_self]
    exact hx w hw hwp
  · rwa [Function.update_of_ne ht]

theorem step (h : Watching k V) (hcore : Core k V false) (hap : ∀ t, (V t).Apart) {mv : Move n}
    {V' : Thread n → View} (hs : ViewStep k ℓ V mv k' ℓ' V') : Watching k' V' := by
  obtain ⟨tr, σ, hb⟩ := hcore.base
  cases hs with
  | call hcode =>
      refine h.setCode (fun w _ hwp => ?_) rfl
      rw [hcode] at hwp
      exact ticking_sound.unfold hwp
  | @interrupt c i hintr hnoff =>
      refine h.setCode (fun w hw hwp => ?_) rfl
      -- there is no interrupt under a lock
      obtain rfl := hw.scan.mp (hcore.free hnoff).scan
      rw [wp_bind]
      exact ticking_kerneltrap (ticking_issue (by simp) fun _ => hwp)
  | @instr c e i next k₁ r hcode hex =>
      have hpre := hcore.pre hcode
      intro t
      obtain ⟨w, hwp, hw⟩ := h t
      by_cases ht : t = k.thread c
      · subst ht
        rw [hcode] at hwp
        refine ⟨(ticking (k.thread c).me).next i w r, ?_, ?_⟩
        · rw [Kernel.setCode_code, Function.update_self]
          exact hwp.2 r trivial
        · rw [hb.viewNext_self hpre, ← Kernel.thread_me]
          rw [← Kernel.thread_me] at hpre
          exact hw.next hpre (hap _) (hb.sane _)
      · rw [Kernel.setCode_code, Function.update_of_ne ht]
        by_cases hi : ∃ p, i = .init p ∧ t = .proc p
        · obtain ⟨p, rfl, rfl⟩ := hi
          simp only [execute, Option.some.injEq, Prod.mk.injEq] at hex
          obtain ⟨rfl, -⟩ := hex
          rw [Kernel.setCode_code, Function.update_self]
          refine ⟨none, ticking_forkret, ?_, by simp⟩
          simp [viewNext, View.resumed]
        · push Not at hi
          have hcode' : k₁.code t = k.code t := by
            cases i with
            | init p =>
                simp only [execute, Option.some.injEq, Prod.mk.injEq] at hex
                obtain ⟨rfl, -⟩ := hex
                rw [Kernel.setCode_code, Function.update_of_ne (hi p rfl)]
                rfl
            | _ => rw [execute_code hex (by simp)]
          rw [hcode']
          refine ⟨w, hwp, ?_⟩
          exact viewNext_cases (Seeing · w) (fun e => absurd e ht) (fun _ => hw)
            fun p root hp e => absurd e (hi p hp)

end Watching

theorem watching_traced (h : Traced P false k ℓ V) : Watching k V := by
  induction h with
  | init =>
      intro t
      refine ⟨none, ticking_boot t, ?_, by simp⟩
      cases t <;> simp [bootView, View.resumed]
  | tail hV _ hs ih =>
      exact ih.step (core_traced spared_false hV) (apart_traced spared_false hV) hs

/-! ## Who sleeps holds no lock that one sleeps with -/

/-- A process that is about to sleep has given up its lock, and holds no other of that kind. -/
def View.Yielded (v : View) : Prop := v.leaving ≠ none → ∀ l ∈ v.held, 1 < l.rank

theorem rank_pos (l : Lock) : 0 < l.rank := by
  cases l <;> simp [Lock.rank]

/-- Who holds the lock of a process takes no lower one. -/
theorem rank_of_acquire {v : View} {l : Lock} (hme : me = some p) (hp : .proc p ∈ v.held)
    (hpre : instrPre me (.acquire l) v) : 1 < l.rank := by
  rcases hpre.1 with hord | ⟨hnone, -⟩
  · have : 2 < l.rank := hord _ hp
    omega
  · simp [hme] at hnone

theorem View.Yielded.next {v : View} (h : v.Yielded) (hap : v.Apart) (hsane : Sane me v)
    (hpre : instrPre me i v) : (instrNext me i v r).Yielded := by
  intro hleave l hl
  obtain ⟨l₀, hl₀⟩ := Option.ne_none_iff_exists'.mp hleave
  rcases leaving_instrNext hl₀ with hold | ⟨rfl, hrank, -⟩
  · have hhigh := h (by simp [hold])
    by_cases hi : ∀ l, i ≠ .acquire l ∧ i ≠ .release l
    · rw [held_instrNext hi] at hl
      exact hhigh l hl
    push Not at hi
    obtain ⟨l', hi⟩ := hi
    by_cases hacq : i = .acquire l'
    · subst hacq
      rw [instrNext, View.take_held, List.mem_cons] at hl
      rcases hl with rfl | hl
      · obtain ⟨q, hq, hmem⟩ := hsane.leaving (by simp [hold])
        exact rank_of_acquire hq hmem hpre
      · exact hhigh l hl
    · obtain rfl := hi hacq
      rw [instrNext, View.drop_held] at hl
      exact hhigh l (List.mem_of_mem_erase hl)
  · rw [instrNext, View.drop_held, hsane.nodup.mem_erase_iff] at hl
    by_contra hlow
    have := rank_pos l
    have := rank_pos l₀
    exact hl.1 (hap l hl.2 l₀ hpre.held (by omega))

theorem yielded_kept (hz : Spared P z) :
    Kept P z (fun (_ : Kernel n) _ V => ∀ t, (V t).Yielded) where
  boot t := by cases t <;> exact fun h => absurd rfl h
  congr _ _ _ _ h := h
  tick _ _ _ _ _ h := h
  instr {k k' ℓ V c e i r tr σ} htr _ hb _ _ hpre _ h := by
    intro t
    refine viewNext_cases View.Yielded (fun ht => ?_) (fun _ => h t) fun p root _ _ => ?_
    · subst ht
      rw [← Kernel.thread_me] at hpre
      exact (h _).next (apart_traced hz htr _) (hb.sane _) hpre
    · exact fun h => absurd rfl h

/-- **Who sleeps holds no lock that one sleeps with.** -/
theorem unguarded_kept (hz : Spared P z) : Kept P z (fun (k : Kernel n) _ V =>
    ∀ p, (k.mem.proc p).state = .sleeping → ¬(V (.proc p)).Guarded) where
  boot p h := by
    have hst : (bootMem.proc p).state = .unused := rfl
    simp [boot, Kernel.mem, hst] at h
  congr hshared _ _ _ h p hst := h p (by rwa [Kernel.mem, hshared] at hst)
  tick _ _ _ _ _ h := h
  instr {k k' ℓ V c e i r tr σ} htr hcore hb _ _ hpre hex h := by
    intro p hst
    have hold : k.thread c = .proc p → ¬(V (.proc p)).Guarded := by
      intro hc
      have hme := Kernel.thread_eq_proc.mp hc
      rcases asleep_execute hb hpre hex hst with ⟨hst, -⟩ | ⟨chan, rfl⟩
      · exact h p hst
      · -- it goes to sleep
        obtain ⟨-, -, -, l, hleave, -⟩ := hpre
        rw [hc] at hleave
        have hhigh := (yielded_kept hz).traced hz htr (.proc p) (by simp [hleave])
        rintro ⟨l', hl', hlow⟩
        have := hhigh l' hl'
        omega
    refine viewNext_cases (fun v => ¬v.Guarded) (fun hc => ?_) (fun hc => ?_) fun q root _ _ => ?_
    · -- it takes no such lock
      rintro ⟨l, hl, hlow⟩
      refine hold hc.symm ⟨l, ?_, hlow⟩
      by_cases hi : ∀ l, i ≠ .acquire l ∧ i ≠ .release l
      · rwa [held_instrNext hi] at hl
      push Not at hi
      obtain ⟨l', hi⟩ := hi
      by_cases hacq : i = .acquire l'
      · subst hacq
        rw [instrNext, View.take_held, List.mem_cons] at hl
        rcases hl with rfl | hl
        · have hme := Kernel.thread_eq_proc.mp hc.symm
          rw [execute_mem hex rfl] at hst
          have hoff : (V (.proc p)).on = false := by
            by_contra hon
            have := hb.sits.running_state hme (by simpa using hon)
            simp [hst] at this
          obtain ⟨q, hq, hmem⟩ := (hb.sane (.proc p)).on hoff
          rw [← hc, hme] at hpre
          have := rank_of_acquire (p := p) rfl (Option.some.inj hq ▸ hmem) hpre
          omega
        · exact hl
      · obtain rfl := hi hacq
        rw [instrNext, View.drop_held] at hl
        exact List.mem_of_mem_erase hl
    · rcases asleep_execute hb hpre hex hst with ⟨hst, -⟩ | ⟨chan, rfl⟩
      · exact h p hst
      · exact absurd (Kernel.thread_eq_proc.mpr hpre.2.2.1) (Ne.symm hc)
    · simp [View.Guarded, View.resumed, Lock.rank]

/-! ## The clock and those who sleep on it -/

/-- The process sleeps on `ticks`, and has given up `tickslock` for it. -/
def AwaitsTick (k : Kernel n) (ℓ : Ledger n) (p : Slot) : Prop :=
  (k.mem.proc p).state = .sleeping ∧ (ℓ.account p).slept = some (.ticks, .ticks)

instance (k : Kernel n) (ℓ : Ledger n) (p : Slot) : Decidable (AwaitsTick k ℓ p) :=
  inferInstanceAs (Decidable (_ ∧ _))

/-- It does, or is about to. -/
def Dormant (k : Kernel n) (ℓ : Ledger n) (V : Thread n → View) (p : Slot) : Prop :=
  (V (.proc p)).leaving = some .ticks ∨ AwaitsTick k ℓ p

theorem Dormant.unguarded (h : Dormant k ℓ V p) (hV : Traced P false k ℓ V) :
    ¬(V (.proc p)).Guarded := by
  rcases h with hleave | ⟨hst, -⟩
  · have hhigh := (yielded_kept spared_false).traced spared_false hV (.proc p) (by simp [hleave])
    rintro ⟨l, hl, hlow⟩
    have := hhigh l hl
    omega
  · exact (unguarded_kept spared_false).traced spared_false hV p hst

/-- **A tick wakes everybody**: when `tickslock` is released after it, nobody sleeps on `ticks`. -/
theorem not_dormant_of_release (hV : Traced P false k ℓ V)
    (hissue : k.Issues c (.release .ticks)) (hscan : (V (k.thread c)).scan ≠ none) :
    ¬Dormant k ℓ V p := by
  intro hdormant
  have hcore := core_traced spared_false hV
  obtain ⟨tr, σ, hb⟩ := hcore.base
  obtain ⟨g, hcode⟩ := hissue
  have hpre := hcore.pre hcode
  obtain ⟨w, hwp, hw⟩ := watching_traced hV (k.thread c)
  rw [hcode] at hwp
  obtain ⟨ps, rfl⟩ := Option.ne_none_iff_exists'.mp fun e => hscan (hw.scan.mpr e)
  -- it is not the sleeper that releases it
  have hne : k.thread c ≠ .proc p := fun e =>
    hdormant.unguarded hV ⟨.ticks, e ▸ hpre.held, by simp [Lock.rank]⟩
  have hme : some p ≠ (k.thread c).me := fun e =>
    hne (Kernel.thread_eq_proc.mpr ((Kernel.thread_me k c).symm.trans e.symm))
  have hroused := hw.roused ps rfl p (hwp.1 ps rfl p hme)
  obtain ⟨-, hcase⟩ := rousing_traced spared_false hV _ p _ hroused
  have hrest : Rested k ℓ V .ticks p (some .ticks) := by
    rcases hcase with hvisit | hrest
    · exact hvisit.rested hb (sleepAccount_traced spared_false hV) hne hpre.seen hpre.waking _
    · exact hrest _ hpre.held (by simp [Lock.rank])
  rcases hdormant with hleave | ⟨hst, hslept⟩
  · exact hrest.1 hleave
  · exact (hrest.2 .ticks rfl hslept).1 hst

/-- Somebody has counted a tick, and has not released `tickslock` yet. -/
def Ticking (V : Thread n → View) : Prop := ∃ t, (V t).scan ≠ none

theorem Ticking.not_free (h : Ticking V) (hb : Base k V tr σ) : k.lock .ticks ≠ none := by
  obtain ⟨t, ht⟩ := h
  exact fun hfree => hb.not_held_of_free hfree (by simp) ((hb.sane t).scan ht)

/-- Whatever step is made, a tick goes on while somebody sleeps on `ticks`. -/
theorem Dormant.step {mv : Move n} {V' : Thread n → View} {v : Nat} (h : Dormant k ℓ V p)
    (hV : Traced P false k ℓ V) (hs : ViewStep k ℓ V mv k' ℓ' V')
    (hcase : k.shared.ticks = v ∨ Ticking V) : k'.shared.ticks = v ∨ Ticking V' := by
  have hcore := core_traced spared_false hV
  obtain ⟨tr, σ, hb⟩ := hcore.base
  cases hs with
  | call hcode | interrupt hintr hnoff => exact hcase
  | @instr c e i g k₁ r hcode hex =>
      have hpre := hcore.pre hcode
      have hself := hb.viewNext_self (r := r) hpre
      by_cases htick : i = .tick
      · subst htick
        exact .inr ⟨k.thread c, by simp [hself, instrNext]⟩
      rcases hcase with hsame | ⟨t, ht⟩
      · exact .inl ((execute_ticks hex htick).trans hsame)
      right
      obtain ⟨c', rfl⟩ := hb.thread_of_held ((hb.sane t).scan ht) (by simp)
      refine ⟨k.thread c', ?_⟩
      by_cases hc : c' = c
      · subst hc
        -- it goes on with the tick, since it cannot release `tickslock`
        have hrel : i ≠ .release .ticks := by
          rintro rfl
          exact not_dormant_of_release hV ⟨g, hcode⟩ ht h
        rw [hself]
        exact (scan_instrNext htick hrel).not.mpr ht
      · rwa [hb.viewNext_ne hpre hc]

/--
**The clock stands still while somebody sleeps on it.** A process that sleeps on `ticks` has missed
no tick whenever `tickslock` is free: since it fell asleep there was none.
-/
theorem clockStands {k₁ k₂ : Kernel n} {ℓ₁ ℓ₂ : Ledger n} (h : Run k₁ ℓ₁)
    (hsteps : Steps (fun k ℓ _ => AwaitsTick k ℓ p) k₁ ℓ₁ k₂ ℓ₂) (hfree : k₂.lock .ticks = none) :
    k₂.shared.ticks = k₁.shared.ticks := by
  suffices h : ∃ V, Traced (fun _ _ _ => True) false k₂ ℓ₂ V ∧
      (k₂.shared.ticks = k₁.shared.ticks ∨ Ticking V) by
    obtain ⟨V, hV, hsame | hticking⟩ := h
    · exact hsame
    · obtain ⟨tr, σ, hb⟩ := (core_traced spared_false hV).base
      exact absurd hfree (hticking.not_free hb)
  clear hfree
  induction hsteps with
  | refl =>
      obtain ⟨V, hV⟩ := h.traced false
      exact ⟨V, hV, .inl rfl⟩
  | @tail k k' ℓ ℓ' mv _ hawaits hs ih =>
      obtain ⟨V, hV, hcase⟩ := ih
      obtain ⟨V', hstep⟩ := viewStep_of_step hs V
      exact ⟨V', hV.tail trivial hstep, Dormant.step (.inr hawaits) hV hstep hcase⟩

/-- The first process goes to sleep for one tick. -/
def restMoves (a b : Fin 2) : List (Move 2 × Thread 2 × Option Slot) :=
  riseMoves a b ++ stretch 6 b (.proc 0) { trap := .syscall (.sleep 1) } ++
  stretch 12 b (.proc 0) {}

/-- Then the scheduler takes `tickslock` and releases it. -/
def endTickMoves (b : Fin 2) : List (Move 2) := List.replicate 3 (.exec b {})

theorem restMoves_spec : ((execAs (boot 2, Ledger.empty 2) (restMoves 0 1)).any fun s =>
    (execWhere (fun k ℓ _ => AwaitsTick k ℓ 0) s (endTickMoves 1)).any fun s' =>
      AwaitsTick s'.1 s'.2 0 ∧ s'.1.lock .ticks = none) = true := by
  decide +kernel

/-- The first process sleeps on the clock, which stands still. -/
theorem clockStands_first : ∃ (k₁ k₂ : Kernel 2) (ℓ₂ : Ledger 2), AwaitsTick k₂ ℓ₂ 0 ∧
    k₂.shared.ticks = k₁.shared.ticks := by
  obtain ⟨s, hs, hspec⟩ := (Option.any_eq_true _ _).mp restMoves_spec
  obtain ⟨s', hs', hspec⟩ := (Option.any_eq_true _ _).mp hspec
  obtain ⟨hawaits, hfree⟩ := of_decide_eq_true hspec
  have hsteps : Steps (fun k ℓ _ => AwaitsTick k ℓ 0) s.1 s.2 s'.1 s'.2 := Steps.refl.execWhere hs'
  exact ⟨s.1, s'.1, s'.2, hawaits, clockStands (run_execAs .init hs) hsteps hfree⟩

/-! ## A call of `sleep` on the clock -/

/-- No tick is counted while a process holds `tickslock` that does not count. -/
theorem ticks_step {mv : Move n} {V' : Thread n → View} (hV : Traced P false k ℓ V)
    (hs : ViewStep k ℓ V mv k' ℓ' V') (hheld : .ticks ∈ (V (.proc p)).held)
    (hi : ∀ c e i g, mv = .exec c e → k.thread c = .proc p → k.code (.proc p) = .instr i g →
      i ≠ .tick) : k'.shared.ticks = k.shared.ticks := by
  have hcore := core_traced spared_false hV
  obtain ⟨tr, σ, hb⟩ := hcore.base
  cases hs with
  | call hcode | interrupt hintr hnoff => rfl
  | @instr c e i g k₁ r hcode hex =>
      have htick : i ≠ .tick := by
        rintro rfl
        have ht := hb.eq_of_held hheld (by simp) (hcore.pre hcode)
        exact hi c e .tick g rfl ht.symm (ht ▸ hcode) rfl
      have hsame := execute_ticks hex htick
      exact hsame

/-- What the clock shows at each stage of a call of `sleep` that has begun at `v`. -/
def ClockAt (v : Nat) (p : Slot) : Falling → Kernel n → (Thread n → View) → Prop
  | .begun, k, _ | .locked, k, _ => k.shared.ticks = v
  | .leaving, k, V => k.shared.ticks = v ∨ Ticking V
  | .asleep, k, V => (k.mem.proc p).state = .sleeping → k.shared.ticks = v ∨ Ticking V

theorem clockAt_keeps (v : Nat) :
    Falling.Keeps P p .ticks .ticks (ClockAt (n := n) v p) := by
  intro s s' k k' ℓ ℓ' V V' mv y hV hs hat hpre hnext hj
  cases s with
  | begun | locked =>
      have hsame : k'.shared.ticks = v := by
        refine (ticks_step hV hs hat.2.1 fun c e i g hmv ht hcode he => ?_).trans hj
        have := hpre c e i g hmv ht hcode
        simp [he, falling] at this
      cases s' with
      | begun | locked => exact hsame
      | leaving => exact .inl hsame
      | asleep => exact fun _ => .inl hsame
  | leaving =>
      have h := Dormant.step (.inl hat.2.1) hV hs hj
      rcases hnext with rfl | ⟨i, r, rfl⟩
      · exact h
      · exact fun _ => h
  | asleep =>
      have hcore := core_traced spared_false hV
      obtain ⟨tr, σ, hb⟩ := hcore.base
      obtain rfl : s' = .asleep := by
        rcases hnext with rfl | ⟨i, r, rfl⟩ <;> rfl
      intro hst'
      -- it has not just gone to sleep
      have hst : (k.mem.proc p).state = .sleeping := by
        cases hs with
        | call hcode | interrupt hintr hnoff => exact hst'
        | @instr c e i g k₁ r hcode hex =>
            rcases asleep_execute hb (hcore.pre hcode) hex hst' with ⟨hst, -⟩ | ⟨chan, rfl⟩
            · exact hst
            · have ht := Kernel.thread_eq_proc.mpr (hcore.pre hcode).2.2.1
              exact absurd ⟨p, .inl ⟨chan, rfl⟩⟩ (hpre c e _ g rfl ht (ht ▸ hcode))
      exact Dormant.step (.inr ⟨hst, hat.2.2⟩) hV hs (hj hst)

/--
**Nobody oversleeps a tick.** While a call `sleep(&ticks, &tickslock)` is under way and its process
is asleep, `ticks` is what it was when the call began, whenever `tickslock` is free.
-/
theorem noOversleep {k₀ : Kernel n} {ℓ₀ : Ledger n} {y x : Code Unit} {next : Unit → Code Int}
    {L : List (Act n)} (h : During P (.proc p) (sleep p .ticks .ticks) next k₀ ℓ₀ k ℓ y x L)
    (hl : k₀.Holds (.proc p) .ticks) (hst : (k.mem.proc p).state = .sleeping)
    (hfree : k.lock .ticks = none) : k.shared.ticks = k₀.shared.ticks := by
  obtain ⟨s, V, hV, -, -, hj⟩ :=
    h.falling rfl hl (by simp [Lock.rank]) (clockAt_keeps k₀.shared.ticks) fun _ _ => rfl
  obtain ⟨tr, σ, hb⟩ := (core_traced spared_false hV).base
  have hcase : k.shared.ticks = k₀.shared.ticks ∨ Ticking V := by
    cases s with
    | begun | locked => exact .inl hj
    | leaving => exact hj
    | asleep => exact hj hst
  exact hcase.resolve_right fun hticking => hticking.not_free hb hfree

/-- What `sys_sleep` does after `sleep`. -/
def napNext (p : Slot) (m : Int) (v : Nat) (next : Int → Code Int) (_ : Unit) : Code Int :=
  invoke (.sysSleep p m v) >>= next

/-- **`sys_sleep` goes to sleep** when it has found its process not to be killed. -/
theorem code_sysSleep {c : Fin n} {m : Int} {next : Int → Code Int} (hm : 0 < m)
    (hcode : k.code (.proc p) = syscall p (.sleep m) >>= next)
    (hkilled : (k.mem.proc p).killed = false)
    (hs : execAs (k, ℓ) (stretch 7 c (.proc p) {}) = some (k', ℓ')) :
    k'.code (.proc p) = sleep p .ticks .ticks >>= napNext p m k.shared.ticks next := by
  simp only [execAs, stretch, List.replicate, List.foldlM_cons, List.foldlM_nil] at hs
  obtain ⟨⟨k₁, ℓ₁⟩, h₁, hs⟩ := Option.bind_eq_some_iff.mp hs
  obtain ⟨⟨k₂, ℓ₂⟩, h₂, hs⟩ := Option.bind_eq_some_iff.mp hs
  obtain ⟨⟨k₃, ℓ₃⟩, h₃, hs⟩ := Option.bind_eq_some_iff.mp hs
  obtain ⟨⟨k₄, ℓ₄⟩, h₄, hs⟩ := Option.bind_eq_some_iff.mp hs
  obtain ⟨⟨k₅, ℓ₅⟩, h₅, hs⟩ := Option.bind_eq_some_iff.mp hs
  obtain ⟨⟨k₆, ℓ₆⟩, h₆, hs⟩ := Option.bind_eq_some_iff.mp hs
  obtain ⟨⟨k₇, ℓ₇⟩, h₇, hs⟩ := Option.bind_eq_some_iff.mp hs
  obtain ⟨rfl, rfl⟩ := Prod.mk.inj (Option.some.inj hs)
  -- it takes `tickslock`, and reads the clock
  obtain ⟨j₁, _, hex₁, hcode₁, hsh₁⟩ := code_stepAs hcode (by simp) h₁
  obtain ⟨j₂, t, hex₂, hcode₂, hsh₂⟩ := code_stepAs hcode₁ (by simp) h₂
  simp only [execute, Option.ite_none_right_eq_some, Option.some.injEq, Prod.mk.injEq] at hex₁ hex₂
  obtain ⟨-, rfl, -⟩ := hex₁
  obtain ⟨rfl, rfl⟩ := hex₂
  have hround : k₂.code (.proc p) = invoke (.sysSleep p m k₁.shared.ticks) >>= next := by
    rw [hcode₂, if_neg (by omega)]
    rfl
  have ht : k₂.thread c = .proc p := by
    by_contra hne
    simp [stepAs, hne] at h₃
  have hcall : k₂.code (.proc p) = .call (.sysSleep p m k₁.shared.ticks) next := hround
  simp only [stepAs, ht, if_true, hcall, Option.some.injEq, Prod.mk.injEq] at h₃
  obtain ⟨rfl, rfl⟩ := h₃
  -- the time has not come
  obtain ⟨j₄, t, hex₄, hcode₄, hsh₄⟩ := code_stepAs (Function.update_self _ _ _) (by simp) h₄
  simp only [execute, Option.some.injEq, Prod.mk.injEq] at hex₄
  obtain ⟨rfl, rfl⟩ := hex₄
  have hasks : k₄.code (.proc p) = killed p >>= fun b =>
      (if b then (do release .ticks; return -1) else
        (do sleep p .ticks .ticks; invoke (.sysSleep p m k₁.shared.ticks)) : Code Int) >>=
        next := by
    have hsoon : ((k₂.shared.ticks : Int) - k₁.shared.ticks) % 2 ^ 32 < m := by
      simpa [hsh₂] using hm
    rw [hcode₄]
    show (if ((k₂.shared.ticks : Int) - k₁.shared.ticks) % 2 ^ 32 < m then _ else _) >>= next = _
    rw [if_pos hsoon]
    rfl
  obtain ⟨j₅, _, hex₅, hcode₅, hsh₅⟩ := code_stepAs hasks (by simp) h₅
  obtain ⟨j₆, x, hex₆, hcode₆, hsh₆⟩ := code_stepAs hcode₅ (by simp) h₆
  obtain ⟨j₇, _, hex₇, hcode₇, -⟩ := code_stepAs hcode₆ (by simp) h₇
  simp only [execute, Option.ite_none_right_eq_some, Option.some.injEq, Prod.mk.injEq] at hex₅ hex₆
  obtain ⟨-, rfl, -⟩ := hex₅
  obtain ⟨rfl, rfl⟩ := hex₆
  rw [hcode₇]
  have hlives : (k₅.mem.proc p).killed = false := by
    simpa [Kernel.mem, hsh₅, hsh₄, hsh₂, hsh₁] using hkilled
  show (if (k₅.mem.proc p).killed = true then _ else _) >>= next = _
  rw [if_neg (by simp [hlives]), hsh₁]
  rfl

/-- The first process begins to sleep on the clock. -/
def beginNap (s : Kernel 2 × Ledger 2) : Followed 2 Unit := ⟨s.1, s.2, sleep 0 .ticks .ticks⟩

theorem asleepMoves_spec : ((execAs (boot 2, Ledger.empty 2) (riseMoves 0 1)).any fun s =>
    (s.1.calls (.proc 0) (.user 0) ∧ (s.1.mem.proc 0).killed = false) &&
    ((execAs s (stretch 6 1 (.proc 0) { trap := .syscall (.sleep 1) })).any fun s₁ =>
      decide ((s₁.1.mem.proc 0).killed = false) &&
      ((execAs s₁ (stretch 7 1 (.proc 0) {})).any fun s₂ =>
        (s₂.1.thread 1 = .proc 0 ∧ s₂.1.lock .ticks = some 1) &&
        ((stretch 5 1 (.proc 0) {}).foldlM (follow (.proc 0)
          (napNext 0 1 s₁.1.shared.ticks (afterSyscall s.1 0))) (beginNap s₂)).any fun s₃ =>
            (s₃.k.mem.proc 0).state = .sleeping ∧ s₃.k.lock .ticks = none))) = true := by
  decide +kernel

/-- The first process sleeps for one tick, which does not come. -/
theorem noOversleep_first : ∃ k₀ k : Kernel 2, (k.mem.proc 0).state = .sleeping ∧
    k.shared.ticks = k₀.shared.ticks := by
  obtain ⟨s, hs, hspec⟩ := (Option.any_eq_true _ _).mp asleepMoves_spec
  obtain ⟨hrise, hspec⟩ := Bool.and_eq_true_iff.mp hspec
  obtain ⟨hcall, hkilled⟩ := of_decide_eq_true hrise
  obtain ⟨s₁, hs₁, hspec⟩ := (Option.any_eq_true _ _).mp hspec
  obtain ⟨hkilled₁, hspec⟩ := Bool.and_eq_true_iff.mp hspec
  obtain ⟨s₂, hs₂, hspec⟩ := (Option.any_eq_true _ _).mp hspec
  obtain ⟨hheld, hspec⟩ := Bool.and_eq_true_iff.mp hspec
  obtain ⟨hb, hlock⟩ := of_decide_eq_true hheld
  obtain ⟨s₃, hs₃, hspec⟩ := (Option.any_eq_true _ _).mp hspec
  obtain ⟨hst, hfree⟩ := of_decide_eq_true hspec
  have hcode := code_sysSleep (by decide) (code_syscall hcall hkilled hs₁)
    (of_decide_eq_true hkilled₁) hs₂
  have hrun := run_execAs (run_execAs (run_execAs .init hs) hs₁) hs₂
  have hd : During (fun _ _ _ => True) (.proc 0) (sleep 0 .ticks .ticks)
      (napNext 0 1 s₁.1.shared.ticks (afterSyscall s.1 0)) s₂.1 s₂.2 s₂.1 s₂.2 (pure ())
      (sleep 0 .ticks .ticks) [] := .start hrun.runWhere hb hcode
  obtain ⟨⟨L, hd⟩, -⟩ := hd.followAll (s := beginNap s₂) hs₃
  exact ⟨s₂.1, s₃.k, hst, noOversleep hd ⟨1, hb, hlock⟩ hst hfree⟩

end Xv6Cfs
