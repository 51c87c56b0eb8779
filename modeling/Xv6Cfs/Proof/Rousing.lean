import Xv6Cfs.Proof.Sleepers

/-!
# What `wakeup` knows

`sleep` takes the lock of its process before it releases the lock it was called with,
and `wakeup` looks at every process under the lock of that process. So a thread that
holds the lock and has called `wakeup` knows that nobody who went to sleep with it is
still asleep on the channel, or about to be.
-/

namespace Xv6Cfs

open RedBlack

variable {n : Nat} {k k' : Kernel n} {ℓ ℓ' : Ledger n} {V : Thread n → View} {z : Bool}
  {P : Kernel n → Ledger n → Move n → Prop} {c : Fin n} {tr : ColorTree Slot} {σ : Slot → Sit n}
  {p q : Slot} {t : Thread n} {l : Lock} {e : Env} {i : Instr} {r : Answer i}

/-! ## One lock of a rank -/

/-- The thread holds one lock of a rank at most. -/
def View.Apart (v : View) : Prop := ∀ l ∈ v.held, ∀ l' ∈ v.held, l.rank = l'.rank → l = l'

theorem held_instrNext {me : Option Slot} {v : View} (hi : ∀ l, i ≠ .acquire l ∧ i ≠ .release l) :
    (instrNext me i v r).held = v.held := by
  cases i with
  | acquire l => exact absurd rfl (hi l).1
  | release l => exact absurd rfl (hi l).2
  | stateIs p st =>
      simp only [instrNext]
      split_ifs <;> rfl
  | pidIs p x =>
      simp only [instrNext]
      split_ifs <;> rfl
  | write p w => cases w <;> rfl
  | _ => rfl

theorem View.Apart.next {me : Option Slot} {v : View} (h : v.Apart) (hpre : instrPre me i v) :
    (instrNext me i v r).Apart := by
  by_cases hi : ∀ l, i ≠ .acquire l ∧ i ≠ .release l
  · rw [Apart, held_instrNext hi]
    exact h
  push Not at hi
  obtain ⟨l, hi⟩ := hi
  by_cases hacq : i = .acquire l
  · subst hacq
    have hlow : ∀ x ∈ v.held, x.rank ≠ l.rank := by
      rcases hpre.1 with hord | ⟨-, rfl, p, hheld, -⟩
      · exact fun x hx => (hord x hx).ne
      · simp [hheld, Lock.rank]
    intro a ha b hb hr
    rw [instrNext, View.take_held, List.mem_cons] at ha hb
    rcases ha with rfl | ha <;> rcases hb with rfl | hb
    · rfl
    · exact absurd hr.symm (hlow b hb)
    · exact absurd hr (hlow a ha)
    · exact h a ha b hb hr
  · obtain rfl := hi hacq
    intro a ha b hb hr
    rw [instrNext, View.drop_held] at ha hb
    exact h a (List.mem_of_mem_erase ha) b (List.mem_of_mem_erase hb) hr

theorem apart_kept : Kept P z (fun (_ : Kernel n) _ V => ∀ t, (V t).Apart) where
  boot t := by cases t <;> simp [bootView, View.Apart, View.resumed]
  congr _ _ _ _ h := h
  tick _ _ _ _ _ h := h
  instr {k k' ℓ V c e i r tr σ} _ _ _ _ _ hpre _ h := by
    intro t
    refine viewNext_cases View.Apart (fun ht => ?_) (fun _ => h t) fun p root _ _ => ?_
    · subst ht
      rw [← Kernel.thread_me] at hpre
      exact (h _).next hpre
    · simp [View.Apart, View.resumed]

theorem apart_traced (hz : Spared P z) (h : Traced P z k ℓ V) (t : Thread n) : (V t).Apart :=
  apart_kept.traced hz h t

/-! ## What `wakeup` has found out -/

/-- The thread has the lock of `p`, and is about to wake it if it is asleep on `chan`. -/
def Visiting (k : Kernel n) (V : Thread n → View) (t : Thread n) (p : Slot) (chan : Option Chan) :
    Prop :=
  .proc p ∈ (V t).held ∧ ((k.mem.proc p).state = .sleeping → (k.mem.proc p).chan = chan →
    (V t).seen = some (p, .sleeping))

/-- `p` is not about to sleep with the lock `l`; if it slept on `chan` with it, it is awake. -/
def Rested (k : Kernel n) (ℓ : Ledger n) (V : Thread n → View) (l : Lock) (p : Slot)
    (chan : Option Chan) : Prop :=
  (V (.proc p)).leaving ≠ some l ∧ ∀ x, chan = some x → (ℓ.account p).slept = some (l, x) →
    (k.mem.proc p).state ≠ .sleeping ∧ ¬Waking V p

/-- What a thread knows of the processes it has looked at. -/
def Rousing (k : Kernel n) (ℓ : Ledger n) (V : Thread n → View) : Prop :=
  ∀ t p chan, (p, chan) ∈ (V t).lore.roused → t ≠ .proc p ∧
    (Visiting k V t p chan ∨ ∀ l ∈ (V t).held, l.rank < 2 → Rested k ℓ V l p chan)

/-- **A process cannot go to sleep with a lock that another thread holds.** -/
theorem Rested.step {chan : Option Chan} (h : Rested k ℓ V l p chan) (hb : Base k V tr σ)
    (hdrop : Dropped ℓ V) (hpre : instrPre (k.running c) i (V (k.thread c)))
    (hex : execute k c e i = some (k', r)) (ht : t ≠ .proc p) (hl : l ∈ (V t).held)
    (hrank : l.rank < 2) : Rested k' (ℓ.record k k' c i r) (viewNext k V c i r) l p chan := by
  have hno : ¬∃ x, i = .write p (.sleep x) ∧ (ℓ.dropped (k.thread c)).map (·, x) = some (l, x) := by
    rintro ⟨x, rfl, hx⟩
    obtain ⟨-, hon, hme, l', hleave, -⟩ := hpre
    obtain ⟨hdropped, -⟩ := hdrop _ l' hleave hon
    obtain rfl : l' = l := by simpa [hdropped] using hx
    exact h.1 (Kernel.thread_eq_proc.mpr hme ▸ hleave)
  refine ⟨fun hleave => ?_, fun x hx hslept => ?_⟩
  · rcases leaving_viewNext hleave with hold | ⟨hc, rfl, -⟩
    · exact h.1 hold
    · exact ht ((hb.eq_of_held hl (Lock.ne_proc_of_rank hrank) hpre.held).trans hc.symm)
  · have hsame : (ℓ.account p).slept = some (l, x) := by
      rcases slept_record hslept with hold | ⟨x', rfl, hx'⟩
      · exact hold
      · have he : x' = x := by
          obtain ⟨l', -, hl'⟩ := Option.map_eq_some_iff.mp hx'
          exact congrArg Prod.snd hl'
        subst he
        exact absurd ⟨x', rfl, hx'⟩ hno
    obtain ⟨hst, hwaking⟩ := h.2 x hx hsame
    refine ⟨fun hs => ?_, ?_⟩
    · rcases asleep_execute hb hpre hex hs with ⟨hold, -⟩ | ⟨x', rfl⟩
      · exact hst hold
      · rw [Ledger.record, Ledger.recordWrite_account, if_pos rfl] at hslept
        have he : x' = x := by
          obtain ⟨l', -, hl'⟩ := Option.map_eq_some_iff.mp hslept
          exact congrArg Prod.snd hl'
        subst he
        exact hno ⟨x', rfl, hslept⟩
    · rintro ⟨t', ht'⟩
      rcases waking_viewNext ht' with hold | ⟨rfl, rfl, hme⟩
      · exact hwaking ⟨t', hold⟩
      · rw [Kernel.thread_me] at hme
        rcases hpre.2.2.2 with hs | ⟨hme', -⟩
        · exact hst (hb.sits.seen c p _ hs)
        · exact hme hme'

/-- Who has seen a process asleep under its lock goes on to see it so, until it is woken. -/
theorem seen_instrNext (hb : Base k V tr σ) (hap : (V (k.thread c)).Apart)
    (hguard : (V (k.thread c)).Guarded) (hme : k.running c ≠ some p)
    (hp : .proc p ∈ (V (k.thread c)).held) (hpre : instrPre (k.running c) i (V (k.thread c)))
    (hex : execute k c e i = some (k', r)) (hi : ∀ l, i ≠ .release l)
    (hs : (V (k.thread c)).seen = some (p, .sleeping)) (hst : (k'.mem.proc p).state = .sleeping) :
    (instrNext (k.running c) i (V (k.thread c)) r).seen = some (p, .sleeping) := by
  have hsame : ∀ q, .proc q ∈ (V (k.thread c)).held → q = p := fun q hq =>
    Lock.proc.inj (hap _ hq _ hp rfl)
  have hold := hb.sits.seen c p _ hs
  cases i with
  | release l => exact absurd rfl (hi l)
  | acquire l => simpa [instrNext] using hs
  | stateIs q st =>
      simp only [execute, Option.some.injEq, Prod.mk.injEq] at hex
      obtain ⟨-, rfl⟩ := hex
      simp only [instrNext]
      split_ifs with hq hr
      · obtain rfl := hsame q hq
        rw [decide_eq_true_eq, hold] at hr
        rw [hr]
      · exact hs
      · exact hs
      · exact hs
  | pidIs q x =>
      simp only [instrNext]
      split_ifs <;> exact hs
  | sleepsOn q chan =>
      obtain rfl := hsame q hpre.1
      simp only [instrNext]
      split_ifs
      · rfl
      · exact hs
  | write q w =>
      simp only [execute, Option.some.injEq, Prod.mk.injEq] at hex
      obtain ⟨rfl, -⟩ := hex
      cases w with
      | fold =>
          obtain rfl := hsame q hpre.1
          simp [Write.apply] at hst
      | sleep chan => exact absurd (hsame q hpre.1 ▸ hpre.2.2.1) hme
      | exit st => exact absurd (hsame q hpre.1.1 ▸ hpre.1.2.2.1) hme
      | used =>
          obtain rfl := hsame q hpre.1.1
          simp [Write.apply] at hst
      | ready =>
          obtain rfl := hsame q hpre.1
          simp [Write.apply] at hst
      | free =>
          obtain rfl := hsame q hpre.1
          simp [Write.apply] at hst
      | _ => exact hs
  | dispatch q =>
      obtain ⟨l, hl, hrank⟩ := hguard
      simp only [hpre.2.1, List.mem_singleton] at hl
      simp [hl, Lock.rank] at hrank
  | _ => exact hs

/-- Who knows something about the others is on a CPU. -/
theorem Base.thread_of_roused (hb : Base k V tr σ) {x : Slot × Option Chan}
    (h : x ∈ (V t).lore.roused) : (V t).Guarded ∧ ∃ c, k.thread c = t := by
  obtain ⟨l, hl, hrank⟩ := (hb.sane t).lore fun e => by simp [e, Lore.empty] at h
  exact ⟨⟨l, hl, hrank⟩, hb.thread_of_held hl (Lock.ne_proc_of_rank hrank)⟩

/-- What is known anew: what has just been found out. -/
theorem roused_instrNext {me : Option Slot} {v : View} {x : Slot × Option Chan}
    (h : x ∈ (instrNext me i v r).lore.roused) :
    x ∈ v.lore.roused ∨ ∃ chan, i = .sleepsOn x.1 chan ∧ chan = x.2 := by
  cases i with
  | acquire l =>
      cases l with
      | proc q | pid | tree => exact .inl h
      | _ => simp [instrNext, View.take, Lore.empty] at h
  | release l =>
      cases l with
      | proc q | pid | tree => exact .inl h
      | _ => simp [instrNext, View.drop, Lore.empty] at h
  | stateIs q st =>
      simp only [instrNext] at h
      split_ifs at h <;> exact .inl h
  | pidIs q y =>
      simp only [instrNext] at h
      split_ifs at h <;> exact .inl h
  | sleepsOn q chan =>
      simp only [instrNext] at h
      split_ifs at h with hg
      · rcases List.mem_cons.mp h with rfl | h
        · exact .inr ⟨chan, rfl, rfl⟩
        · exact .inl h
      · exact .inl h
  | write q w => cases w <;> exact .inl h
  | _ => exact .inl h

/-- No lock that one sleeps with is taken or released while something is known. -/
theorem held_of_roused {me : Option Slot} {v : View} {x : Slot × Option Chan}
    (h : x ∈ (instrNext me i v r).lore.roused) (hl : l ∈ (instrNext me i v r).held)
    (hrank : l.rank < 2) : l ∈ v.held := by
  cases i with
  | acquire l' =>
      rw [instrNext, View.take_held, List.mem_cons] at hl
      rcases hl with rfl | hl
      · rw [instrNext, View.take_of_rank hrank] at h
        simp [Lore.empty] at h
      · exact hl
  | release l' =>
      rw [instrNext, View.drop_held] at hl
      exact List.mem_of_mem_erase hl
  | _ =>
      rw [held_instrNext (by simp)] at hl
      exact hl

/-- Who releases the lock of `p` has woken it, if it was asleep on `chan`. -/
theorem Visiting.rested {chan : Option Chan} (h : Visiting k V (k.thread c) p chan)
    (hb : Base k V tr σ)
    (hacc : ∀ p, SleepAccount p (k.mem.proc p) (ℓ.account p) (Made V p))
    (hne : k.thread c ≠ .proc p) (hseen : ∀ q, (V (k.thread c)).seen ≠ some (q, .sleeping))
    (hwaking : (V (k.thread c)).waking = none) (l : Lock) : Rested k ℓ V l p chan := by
  obtain ⟨hheld, hvisit⟩ := h
  refine ⟨fun hleave => ?_, fun x hx hslept => ⟨fun hst => ?_, ?_⟩⟩
  · -- who has left a lock holds its own
    obtain ⟨p', c', ht, hc', hp'⟩ := hb.leaving_on hleave
    obtain rfl := Thread.proc.inj ht
    rw [← Kernel.thread_eq_proc.mpr hc'] at hp'
    obtain rfl := hb.locking.exclusive hp' hheld
    exact hne (Kernel.thread_eq_proc.mpr hc')
  · obtain ⟨-, l', x', hslept', hchan, -⟩ := (hacc p).asleep hst
    have he : x' = x := by
      rw [hslept] at hslept'
      exact (congrArg Prod.snd (Option.some.inj hslept')).symm
    exact hseen p (hvisit hst (by rw [hchan, he, hx]))
  · rintro ⟨t, ht⟩
    have hp : .proc p ∈ (V t).held := (hb.sane t).waking p ht
    have hon : ∃ c', k.thread c' = t := by
      cases t with
      | cpu c' =>
          cases hc' : k.running c' with
          | none => exact ⟨c', Kernel.thread_eq_cpu.mpr ⟨hc', rfl⟩⟩
          | some q => simp [(hb.locking.away c' q hc').waking] at ht
      | proc q =>
          by_contra hno
          push Not at hno
          have := hb.locking.parked q fun c' hc' => hno c' (Kernel.thread_eq_proc.mpr hc')
          simp [this.waking] at ht
    obtain ⟨c', rfl⟩ := hon
    obtain rfl := hb.locking.exclusive hp hheld
    simp [hwaking] at ht

theorem rousing_kept (hz : Spared P z) :
    Kept P z (fun (k : Kernel n) ℓ V => Rousing k ℓ V) where
  boot := by
    intro t p chan h
    cases t <;> simp [bootView, View.resumed, Lore.empty] at h
  congr hshared _ _ _ h := by
    intro t p chan hmem
    obtain ⟨hne, hcase⟩ := h t p chan hmem
    refine ⟨hne, ?_⟩
    unfold Visiting Rested Kernel.mem at *
    rwa [hshared]
  tick {k ℓ V} c i _ _ _ h := by
    intro t p chan hmem
    obtain ⟨hne, hcase⟩ := h t p chan hmem
    refine ⟨hne, hcase.imp_right fun hrest l hl hrank => ?_⟩
    unfold Rested
    rw [Ledger.recordInterrupt_account]
    split_ifs <;> exact hrest l hl hrank
  instr {k k' ℓ V c e i r tr σ} htr hcore hb _ _ hpre hex h := by
    have hacc := sleepAccount_traced hz htr
    have hdrop := dropped_traced hz htr
    have hap := apart_traced hz htr
    have hpar := parents_traced hz htr
    intro t p chan hmem
    by_cases ht : t = k.thread c
    · subst ht
      have hself := hb.viewNext_self (r := r) hpre
      rw [hself] at hmem
      rcases roused_instrNext hmem with hold | ⟨x, rfl, rfl⟩
      · obtain ⟨hne, hcase⟩ := h _ p chan hold
        obtain ⟨hguard, -⟩ := hb.thread_of_roused hold
        have hme : k.running c ≠ some p := fun e => hne (Kernel.thread_eq_proc.mpr e)
        refine ⟨hne, ?_⟩
        rcases hcase with hvisit | hrest
        · by_cases hi : ∃ l, i = .release l
          · obtain ⟨l, rfl⟩ := hi
            by_cases hl : l = .proc p
            · right
              intro l' hl' hrank
              rw [hself] at hl'
              exact (hvisit.rested hb hacc hne hpre.seen hpre.waking l').step hb hdrop hpre hex hne
                (held_of_roused hmem hl' hrank) hrank
            · left
              rw [Visiting, hself]
              refine ⟨?_, fun hst hchan => ?_⟩
              · rw [instrNext, View.drop_held]
                exact (List.mem_erase_of_ne (Ne.symm hl)).mpr hvisit.1
              · rw [execute_mem hex rfl] at hst hchan
                exact absurd (hvisit.2 hst hchan) (hpre.seen p)
          · left
            push Not at hi
            rw [Visiting, hself]
            refine ⟨?_, fun hst hchan => ?_⟩
            · by_cases hacq : ∃ l, i = .acquire l
              · obtain ⟨l, rfl⟩ := hacq
                rw [instrNext, View.take_held]
                exact List.mem_cons_of_mem _ hvisit.1
              · push Not at hacq
                rw [held_instrNext fun l => ⟨hacq l, hi l⟩]
                exact hvisit.1
            · rcases asleep_execute hb hpre hex hst with ⟨hst', hchan'⟩ | ⟨x, rfl⟩
              · exact seen_instrNext hb (hap _) hguard hme hvisit.1 hpre hex hi
                  (hvisit.2 hst' (hchan'.symm.trans hchan)) hst
              · exact absurd hpre.2.2.1 hme
        · right
          intro l hl hrank
          rw [hself] at hl
          have hl' := held_of_roused hmem hl hrank
          exact (hrest l hl' hrank).step hb hdrop hpre hex hne hl' hrank
      · -- the thread looks at `p`
        simp only [execute, Option.some.injEq, Prod.mk.injEq] at hex
        obtain ⟨rfl, rfl⟩ := hex
        refine ⟨fun e => hpre.2 (Kernel.thread_eq_proc.mp e), .inl ?_⟩
        rw [Visiting, hself]
        refine ⟨hpre.1, fun hst hchan => ?_⟩
        have hst' : (k.mem.proc p).state = .sleeping := hst
        have hchan' : (k.mem.proc p).chan = x := hchan
        simp [instrNext, hst', hchan']
    · have hview : viewNext k V c i r t = V t := by
        revert hmem
        refine viewNext_cases (fun v => (p, chan) ∈ v.lore.roused → v = V t) (fun e => absurd e ht)
          (fun _ _ => rfl) fun q root _ _ hmem => ?_
        simp [View.resumed, Lore.empty] at hmem
      rw [hview] at hmem
      obtain ⟨hne, hcase⟩ := h t p chan hmem
      obtain ⟨-, c', rfl⟩ := hb.thread_of_roused hmem
      refine ⟨hne, ?_⟩
      rcases hcase with ⟨hp, hvisit⟩ | hrest
      · left
        have hkeep := (keeps_execute hb hpar hpre hex (fun e => ht (e ▸ rfl))
          ((hb.locking.lock _ c').mpr hp)).1
        have hst : (k'.mem.proc p).state = (k.mem.proc p).state := congrArg Prod.fst hkeep
        have hchan : (k'.mem.proc p).chan = (k.mem.proc p).chan :=
          congrArg (fun g => g.2.1) hkeep
        rw [Visiting, hview, hst, hchan]
        exact ⟨hp, hvisit⟩
      · right
        intro l hl hrank
        rw [hview] at hl
        exact (hrest l hl hrank).step hb hdrop hpre hex hne hl hrank

theorem rousing_traced (hz : Spared P z) (h : Traced P z k ℓ V) : Rousing k ℓ V :=
  (rousing_kept hz).traced hz h

/-! ## Parents in `wait` -/

/-- `p` is asleep in `wait`, or about to be. -/
def Waits (k : Kernel n) (V : Thread n → View) (p : Slot) : Prop :=
  (k.mem.proc p).state = .sleeping ∧ (k.mem.proc p).chan = some (.proc p) ∨
    (V (.proc p)).leaving = some .wait

/-- Of who waits and has a zombie child, the holder of `wait_lock` knows that it has to be woken. -/
def Owing (k : Kernel n) (V : Thread n → View) : Prop :=
  ∀ p q, Waits k V p → (k.mem.proc q).state = .zombie → (k.mem.proc q).parent = some p →
    ∃ t, .wait ∈ (V t).held ∧ p ∈ (V t).lore.owing

theorem Rested.not_waits (h : Rested k ℓ V .wait p (some (.proc p)))
    (hacc : SleepAccount p (k.mem.proc p) (ℓ.account p) (Made V p)) : ¬Waits k V p := by
  rintro (⟨hst, hchan⟩ | hleave)
  · obtain ⟨-, l, x, hslept, hx, -, hwait⟩ := hacc.asleep hst
    obtain rfl : x = .proc p := Option.some.inj (hx.symm.trans hchan)
    obtain rfl := (hwait p rfl).2
    exact (h.2 _ rfl hslept).1 hst
  · exact h.1 hleave

/-- A process begins to wait when it releases `wait_lock` in `sleep`. -/
theorem waits_execute (hb : Base k V tr σ) (hpre : instrPre (k.running c) i (V (k.thread c)))
    (hex : execute k c e i = some (k', r)) (h : Waits k' (viewNext k V c i r) p) :
    Waits k V p ∨
      k.running c = some p ∧ i = .release .wait ∧ View.Leaving (some p) (V (k.thread c)) := by
  rcases h with ⟨hst, hchan⟩ | hleave
  · rcases asleep_execute hb hpre hex hst with ⟨hst', hchan'⟩ | ⟨x, rfl⟩
    · exact .inl (.inl ⟨hst', hchan'.symm.trans hchan⟩)
    · simp only [execute, Option.some.injEq, Prod.mk.injEq] at hex
      obtain ⟨rfl, -⟩ := hex
      obtain rfl : x = .proc p := by simpa [Write.apply] using hchan
      obtain ⟨-, -, hme, l, hleave, hx⟩ := hpre
      obtain rfl := (hx p rfl).2
      exact .inl (.inr (Kernel.thread_eq_proc.mpr hme ▸ hleave))
  · rcases leaving_viewNext hleave with hold | ⟨ht, rfl, -, hleaving⟩
    · exact .inl (.inr hold)
    · exact .inr ⟨Kernel.thread_eq_proc.mp ht.symm, rfl, ht ▸ hleaving⟩

/-- A process becomes a zombie in `exit`. -/
theorem zombie_execute (hb : Base k V tr σ) (hpre : instrPre (k.running c) i (V (k.thread c)))
    (hex : execute k c e i = some (k', r)) (h : (k'.mem.proc q).state = .zombie) :
    (k.mem.proc q).state = .zombie ∨ ∃ status, i = .write q (.exit status) := by
  rcases proc_execute hb hpre hex q with hsame | ⟨w, rfl, hw⟩ | ⟨-, hrun⟩
  · have hst : (k'.mem.proc q).state = (k.mem.proc q).state := congrArg (·.1.1) hsame
    exact .inl (hst ▸ h)
  · rw [hw] at h
    cases w with
    | exit status => exact .inr ⟨status, rfl⟩
    | fold | sleep | used | ready | free => simp [Write.apply] at h
    | _ => exact .inl h
  · simp [hrun] at h

/-- A process gets a parent in `fork` and `reparent`. -/
theorem parent_execute (hb : Base k V tr σ) (hpre : instrPre (k.running c) i (V (k.thread c)))
    (hex : execute k c e i = some (k', r)) (h : (k'.mem.proc q).parent = some p) :
    (k.mem.proc q).parent = some p ∨ i = .write q (.parent (some p)) := by
  rcases proc_execute hb hpre hex q with hsame | ⟨w, rfl, hw⟩ | ⟨-, hrun⟩
  · have hparent : (k'.mem.proc q).parent = (k.mem.proc q).parent := congrArg (·.2) hsame
    exact .inl (hparent ▸ h)
  · rw [hw] at h
    cases w with
    | parent x =>
        obtain rfl : x = some p := h
        exact .inr rfl
    | free => simp [Write.apply] at h
    | _ => exact .inl h
  · rw [hrun] at h
    exact .inl h

/-- What is owed stays so while `wait_lock` is held. -/
theorem owing_instrNext {me : Option Slot} {v : View} (hap : v.Apart) (hpre : instrPre me i v)
    (hi : i ≠ .release .wait) (hwait : .wait ∈ v.held) (h : p ∈ v.lore.owing) :
    .wait ∈ (instrNext me i v r).held ∧ p ∈ (instrNext me i v r).lore.owing := by
  cases i with
  | acquire l =>
      rw [instrNext, View.take_held]
      refine ⟨List.mem_cons_of_mem _ hwait, ?_⟩
      have hl : ¬l.rank < 2 := by
        intro hl
        rcases hpre.1 with hord | ⟨-, rfl, q, hheld, -⟩
        · have hlt := hord _ hwait
          have hone : Lock.wait.rank = 1 := rfl
          omega
        · simp [hheld] at hwait
      cases l <;> first | exact h | simp [Lock.rank] at hl
  | release l =>
      have hne : Lock.wait ≠ l := fun he => hi (he ▸ rfl)
      rw [instrNext, View.drop_held]
      refine ⟨(List.mem_erase_of_ne hne).mpr hwait, ?_⟩
      cases l with
      | proc q | pid | tree => exact h
      | _ => exact absurd (hap _ hwait _ hpre.held rfl) hne
  | stateIs q st =>
      simp only [instrNext]
      split_ifs <;> exact ⟨hwait, h⟩
  | pidIs q x =>
      simp only [instrNext]
      split_ifs <;> exact ⟨hwait, h⟩
  | sleepsOn q chan =>
      simp only [instrNext]
      split_ifs <;> exact ⟨hwait, h⟩
  | write q w =>
      cases w with
      | parent x =>
          refine ⟨hwait, ?_⟩
          simp only [instrNext, View.write, Lore.adopt_owing]
          split_ifs
          · exact List.mem_append_right _ h
          · exact h
      | _ => exact ⟨hwait, h⟩
  | _ => exact ⟨hwait, h⟩

theorem owing_kept (hz : Spared P z) : Kept P z (fun (k : Kernel n) _ V => Owing k V) where
  boot := by
    intro p q _ hq
    have hst : ((boot n).mem.proc q).state = .unused := rfl
    simp [hst] at hq
  congr hshared _ _ _ h := by
    unfold Owing Waits Kernel.mem at *
    rwa [hshared]
  tick _ _ _ _ _ h := h
  instr {k k' ℓ V c e i r tr σ} htr hcore hb _ _ hpre hex h := by
    have hacc := sleepAccount_traced hz htr
    have hap := apart_traced hz htr
    have hrousing := rousing_traced hz htr
    have hpar := parents_traced hz htr
    intro p q hwaits' hzombie' hparent'
    rcases waits_execute hb hpre hex hwaits' with hwaits | ⟨hme, rfl, hon, p', hp', hheld⟩
    · rcases zombie_execute hb hpre hex hzombie' with hzombie | ⟨status, rfl⟩
      · rcases parent_execute hb hpre hex hparent' with hparent | rfl
        · obtain ⟨t, hwait, howing⟩ := h p q hwaits hzombie hparent
          obtain ⟨c', rfl⟩ := hb.thread_of_held hwait (by simp)
          by_cases hc : c' = c
          · subst hc
            by_cases hi : i = .release .wait
            · -- what is owed has been paid
              subst hi
              have hmem := (hpre.wait rfl).1 p howing
              obtain ⟨hne, hvisit | hrest⟩ := hrousing _ p _ hmem
              · exact absurd hwaits ((hvisit.rested hb hacc hne hpre.seen hpre.waking _).not_waits
                  (hacc p))
              · exact absurd hwaits ((hrest _ hwait (by simp [Lock.rank])).not_waits (hacc p))
            · refine ⟨k.thread c', ?_⟩
              rw [hb.viewNext_self hpre]
              exact owing_instrNext (hap _) hpre hi hwait howing
          · exact ⟨k.thread c', by rwa [hb.viewNext_ne hpre hc], by rwa [hb.viewNext_ne hpre hc]⟩
        · -- `q` is given the parent `p`
          obtain ⟨hwait, -, ⟨hx, hhead⟩ | ⟨hx, -, -⟩⟩ := hpre
          · simp [hb.used_of_head hhead] at hzombie
          · refine ⟨k.thread c, ?_⟩
            rw [viewNext_of_ne (by simp), Function.update_self]
            refine ⟨hwait, ?_⟩
            simp [instrNext, View.write, hx]
      · -- `q` becomes a zombie, and has woken its parent
        have hparent : (k.mem.proc q).parent = some p :=
          (parent_execute hb hpre hex hparent').resolve_right (by simp)
        obtain ⟨⟨hheld, hon, hme, hleave⟩, -, -, hwait, -, r', hr', hroused⟩ := hpre
        obtain rfl : r' = some p := (hpar.known _ q r' hr').2.symm.trans hparent
        have hthread := Kernel.thread_eq_proc.mpr hme
        by_cases hpq : p = q
        · subst hpq
          rcases hwaits with ⟨hst, -⟩ | hleave'
          · simp [hb.sits.running_state hme (hthread ▸ hon)] at hst
          · rw [hthread] at hleave
            simp [hleave] at hleave'
        · obtain ⟨hne, ⟨hp, -⟩ | hrest⟩ := hrousing _ p _ (hroused p rfl hpq)
          · exact absurd (Lock.proc.inj (hap _ _ hp _ hheld rfl)) hpq
          · exact absurd hwaits ((hrest _ hwait (by simp [Lock.rank])).not_waits (hacc p))
    · -- `p` has found no zombie among its children
      obtain rfl : p = p' := Option.some.inj hp'
      rw [execute_mem hex rfl] at hzombie' hparent'
      rcases (hpre.wait rfl).2 p hme hheld hon q with halive | ⟨x, hx, hxp⟩
      · exact absurd hzombie' (hpar.alive _ q halive).2
      · exact absurd ((hpar.known _ q x hx).2.symm.trans hparent') hxp

theorem owing_traced (hz : Spared P z) (h : Traced P z k ℓ V) : Owing k V :=
  (owing_kept hz).traced hz h

/-- **Whenever `wait_lock` is free, no process asleep in `wait` has a zombie child.** -/
theorem not_zombie_of_asleep {k : Kernel n} {ℓ : Ledger n} (h : Run k ℓ)
    (hfree : k.lock .wait = none) {p q : Slot} (hst : (k.mem.proc p).state = .sleeping)
    (hchan : (k.mem.proc p).chan = some (.proc p)) (hparent : (k.mem.proc q).parent = some p) :
    (k.mem.proc q).state ≠ .zombie := by
  intro hzombie
  obtain ⟨V, hV⟩ := h.traced false
  obtain ⟨tr, σ, hb⟩ := (core_traced spared_false hV).base
  obtain ⟨t, hwait, -⟩ := owing_traced spared_false hV p q (.inl ⟨hst, hchan⟩) hzombie hparent
  exact hb.not_held_of_free hfree (by simp) hwait

/-- On the CPUs `a` and `b` of three: `b` runs the first process, which forks, and sleeps in
`wait`. -/
def waitMoves (a b : Fin 3) : List (Move 3 × Thread 3 × Option Slot) :=
  stretch 18 a (.cpu a) {} ++ stretch 3 b (.cpu b) {} ++ fetch b 0 ++ stretch 7 b (.cpu b) {} ++
  stretch 22 b (.proc 0) {} ++ stretch 36 b (.proc 0) { trap := .syscall .fork } ++
  stretch 86 b (.proc 0) { trap := .syscall (.wait false) }

theorem waitMoves_spec : (execAs (boot 3, Ledger.empty 3) (waitMoves 0 1)).any
    (fun s => s.1.lock .wait = none ∧ (s.1.mem.proc 0).state = .sleeping ∧
      (s.1.mem.proc 0).chan = some (.proc 0) ∧ (s.1.mem.proc 1).parent = some 0) := by
  decide +kernel

theorem not_zombie_of_asleep_first : ∃ k : Kernel 3, (k.mem.proc 0).state = .sleeping ∧
    (k.mem.proc 1).parent = some 0 ∧ (k.mem.proc 1).state ≠ .zombie := by
  obtain ⟨s, hs, hspec⟩ := (Option.any_eq_true _ _).mp waitMoves_spec
  obtain ⟨hfree, hst, hchan, hparent⟩ := of_decide_eq_true hspec
  exact ⟨s.1, hst, hparent, not_zombie_of_asleep (run_execAs .init hs) hfree hst hchan hparent⟩

end Xv6Cfs
