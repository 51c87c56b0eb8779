import Xv6Cfs.Proof.Reaping

/-!
# Sleeping and being woken

A process falls asleep in `sleep` only, with the lock it has released last, and is woken
by another thread only, which then puts it into the queue. The account of the process
says of its last sleep whether this has happened; it has not happened twice.
-/

namespace Xv6Cfs

open RedBlack

variable {n : Nat} {k k' : Kernel n} {ℓ ℓ' : Ledger n} {V : Thread n → View} {z : Bool}
  {P : Kernel n → Ledger n → Move n → Prop} {c : Fin n} {tr : ColorTree Slot} {σ : Slot → Sit n}
  {p q : Slot} {t : Thread n} {l : Lock} {e : Env} {i : Instr} {r : Answer i}
  {x : Lock × Chan}

/-! ## What one instruction does -/

theorem viewNext_cases (f : View → Prop) (hself : t = k.thread c → f (instrNext t.me i (V t) r))
    (hother : t ≠ k.thread c → f (V t))
    (hinit : ∀ p root, i = .init p → t = .proc p → f (.resumed p root (V (k.thread c)).nozero)) :
    f (viewNext k V c i r t) := by
  have hupdate : f (Function.update V (k.thread c)
      (instrNext (k.thread c).me i (V (k.thread c)) r) t) := by
    by_cases ht : t = k.thread c
    · subst ht
      rw [Function.update_self]
      exact hself rfl
    · rw [Function.update_of_ne ht]
      exact hother ht
  cases i with
  | init p =>
      by_cases ht : t = .proc p
      · subst ht
        simp only [viewNext, Function.update_self]
        exact hinit p _ rfl rfl
      · simp only [viewNext, Function.update_of_ne ht]
        exact hupdate
  | _ => exact hupdate

/-- Only `sleep` leaves a lock. -/
theorem leaving_instrNext {me : Option Slot} {v : View}
    (h : (instrNext me i v r).leaving = some l) :
    v.leaving = some l ∨ i = .release l ∧ l.rank < 2 ∧ View.Leaving me v := by
  cases i with
  | acquire l' => exact .inl (by simpa [instrNext] using h)
  | release l' =>
      by_cases hl : l'.rank < 2
      · simp only [instrNext, View.drop_of_rank hl] at h
        split_ifs at h with hleave
        · obtain rfl := Option.some.inj h
          exact .inr ⟨rfl, hl, hleave⟩
        · exact .inl h
      · cases l' with
        | proc p => simp [instrNext, View.drop] at h
        | pid | tree => exact .inl h
        | _ => simp [Lock.rank] at hl
  | stateIs p st =>
      simp only [instrNext] at h
      split_ifs at h <;> exact .inl h
  | pidIs p x =>
      simp only [instrNext] at h
      split_ifs at h <;> exact .inl h
  | write p w => cases w <;> exact .inl h
  | switch p => simp [instrNext] at h
  | _ => exact .inl h

theorem leaving_viewNext (h : (viewNext k V c i r t).leaving = some l) :
    (V t).leaving = some l ∨
      t = k.thread c ∧ i = .release l ∧ l.rank < 2 ∧ View.Leaving t.me (V t) := by
  revert h
  refine viewNext_cases (fun v => v.leaving = some l → _) (fun ht h => ?_) (fun _ h => .inl h)
    fun p root _ _ h => by simp [View.resumed] at h
  exact (leaving_instrNext h).imp_right fun h => ⟨ht, h⟩

/-- A process is woken by who has seen it asleep. -/
theorem waking_viewNext (h : (viewNext k V c i r t).waking = some p) :
    (V t).waking = some p ∨ t = k.thread c ∧ i = .write p .fold ∧ t.me ≠ some p := by
  revert h
  refine viewNext_cases (fun v => v.waking = some p → _) (fun ht h => ?_) (fun _ h => .inl h)
    fun q root _ _ h => by simp [View.resumed] at h
  cases i with
  | acquire l' => exact .inl (by simpa [instrNext] using h)
  | release l' => exact .inl (by simpa [instrNext] using h)
  | stateIs p st =>
      simp only [instrNext] at h
      split_ifs at h <;> exact .inl h
  | pidIs p x =>
      simp only [instrNext] at h
      split_ifs at h <;> exact .inl h
  | write q w =>
      cases w with
      | fold =>
          simp only [instrNext, View.write] at h
          split_ifs at h with hme
          · exact .inl h
          · obtain rfl := Option.some.inj h
            exact .inr ⟨ht, rfl, hme⟩
      | _ => exact .inl h
  | insert q => simp [instrNext] at h
  | _ => exact .inl h

/-- The fields that the scheduler and the queue never look at, and the state. -/
def Proc.standing (x : Proc) : (ProcState × Option Chan × Bool × Int × Int) × Option Slot :=
  (x.guarded, x.parent)

/-- **What an instruction can do to a process**, beside its place in the queue and its times. -/
theorem proc_execute (hb : Base k V tr σ) (hpre : instrPre (k.running c) i (V (k.thread c)))
    (hex : execute k c e i = some (k', r)) (p : Slot) :
    (k'.mem.proc p).standing = (k.mem.proc p).standing ∨
      (∃ w, i = .write p w ∧ k'.mem.proc p = w.apply (k.mem.proc p)) ∨
      (i = .dispatch p ∧ (k.mem.proc p).state = .runnable) ∧
        k'.mem.proc p = (k.mem.proc p).setState .running := by
  by_cases hi : i.Changes = false
  · exact .inl (by rw [execute_mem hex hi])
  cases i with
  | write q w =>
      simp only [execute, Option.some.injEq, Prod.mk.injEq] at hex
      obtain ⟨rfl, -⟩ := hex
      rw [Kernel.setMem_mem]
      by_cases hqp : p = q
      · subst hqp
        exact .inr (.inl ⟨w, rfl, Mem.modify_self _ _ _⟩)
      · exact .inl (by rw [Mem.modify_ne _ _ hqp])
  | insert q =>
      obtain ⟨m', tr', rfl, hins, -⟩ := hb.insert_cases hpre.2 hex
      exact .inl (hins.field Proc.standing (fun _ => rfl) (fun _ _ => rfl) p)
  | retrieve =>
      rcases hb.retrieve_cases hex with ⟨-, rfl, rfl⟩ | ⟨q, m', tr', rfl, rfl, hret, -⟩
      · exact .inl rfl
      · exact .inl (hret.field Proc.standing (fun _ => rfl) (fun _ _ => rfl) p)
  | dispatch q =>
      simp only [execute, Option.some.injEq, Prod.mk.injEq] at hex
      obtain ⟨rfl, -⟩ := hex
      rw [Kernel.setRunning_mem, Kernel.setMem_mem, Xv6Cfs.dispatch]
      by_cases hqp : p = q
      · subst hqp
        exact .inr (.inr ⟨⟨rfl, hb.runnable_of_retrieved
          (Kernel.thread_eq_cpu.mpr ⟨hpre.1, rfl⟩ ▸ hpre.2.2.1)⟩, Mem.modify_self _ _ _⟩)
      · exact .inl (by rw [Mem.modify_ne _ _ hqp])
  | init q =>
      simp only [execute, Option.some.injEq, Prod.mk.injEq] at hex
      obtain ⟨rfl, -⟩ := hex
      rw [Kernel.setCode_mem, Kernel.setMem_mem, Mem.modify_proc]
      refine .inl ?_
      split_ifs with hqp
      · subst hqp
        rfl
      · rfl
  | _ => exact absurd rfl hi

/-- A process falls asleep in `sleep` only, and does not change its channel then. -/
theorem asleep_execute (hb : Base k V tr σ) (hpre : instrPre (k.running c) i (V (k.thread c)))
    (hex : execute k c e i = some (k', r)) (h : (k'.mem.proc p).state = .sleeping) :
    (k.mem.proc p).state = .sleeping ∧ (k'.mem.proc p).chan = (k.mem.proc p).chan ∨
      ∃ chan, i = .write p (.sleep chan) := by
  rcases proc_execute hb hpre hex p with hsame | ⟨w, rfl, hw⟩ | ⟨-, hrun⟩
  · have hst : (k'.mem.proc p).state = (k.mem.proc p).state := congrArg (·.1.1) hsame
    exact .inl ⟨hst ▸ h, congrArg (·.1.2.1) hsame⟩
  · rw [hw] at h ⊢
    cases w with
    | sleep chan => exact .inr ⟨chan, rfl⟩
    | fold | exit | used | ready | free => simp [Write.apply] at h
    | clearChan =>
        have hrun := hb.sits.running_state hpre.2.2 (Kernel.thread_eq_proc.mpr hpre.2.2 ▸ hpre.2.1)
        simp [Write.apply, hrun] at h
    | _ => exact .inl ⟨h, rfl⟩
  · simp [hrun] at h

theorem Ledger.modify_apply (f : Account → Account) :
    (ℓ.modify q f).account p = if p = q then f (ℓ.account p) else ℓ.account p := by
  by_cases hq : p = q
  · subst hq
    simp
  · simp [hq]

/-- Only `sleep` and `allocproc` change what the account of a process says of its sleep. -/
theorem Ledger.record_slept (hi : ∀ chan, i ≠ .write p (.sleep chan)) (hinit : i ≠ .init p) :
    ((ℓ.record k k' c i r).account p).slept = (ℓ.account p).slept := by
  cases i with
  | write q w =>
      rw [Ledger.record, Ledger.recordWrite_account]
      split_ifs with hq
      · subst hq
        cases w with
        | sleep chan => exact absurd rfl (hi chan)
        | _ => rfl
      · rfl
  | acquire l => cases l <;> rfl
  | release l => cases l <;> rfl
  | insert q | dispatch q | runtime q =>
      rw [Ledger.record, Ledger.modify_apply]
      split_ifs <;> rfl
  | retrieve =>
      cases r with
      | none => rfl
      | some q =>
          rw [Ledger.record, Ledger.modify_apply]
          split_ifs <;> rfl
  | init q =>
      rw [Ledger.record, Ledger.modify_apply, if_neg fun hq : p = q => hinit (hq ▸ rfl)]
  | user =>
      simp only [Ledger.record]
      split
      · rw [Ledger.modify_apply]
        split_ifs <;> rfl
      · rfl
  | _ => rfl

/-- The account of a process says that it has slept when it has. -/
theorem slept_record (h : ((ℓ.record k k' c i r).account p).slept = some x) :
    (ℓ.account p).slept = some x ∨
      ∃ chan, i = .write p (.sleep chan) ∧ (ℓ.dropped (k.thread c)).map (·, chan) = some x := by
  by_cases hi : ∃ chan, i = .write p (.sleep chan)
  · obtain ⟨chan, rfl⟩ := hi
    rw [Ledger.record, Ledger.recordWrite_account, if_pos rfl] at h
    exact .inr ⟨chan, rfl, h⟩
  by_cases hinit : i = .init p
  · subst hinit
    simp [Ledger.record] at h
  push Not at hi
  exact .inl (Ledger.record_slept hi hinit ▸ h)

/-! ## The lock that was released -/

/-- What `sleep` has released, as the ledger has it. -/
def Dropped (ℓ : Ledger n) (V : Thread n → View) : Prop :=
  ∀ t l, (V t).leaving = some l → (V t).on = true → ℓ.dropped t = some l ∧ l.rank < 2

/-- The ledger notes a release. -/
theorem Ledger.record_dropped (hi : ∀ l, l.rank < 2 → i ≠ .release l) :
    (ℓ.record k k' c i r).dropped = ℓ.dropped := by
  cases i with
  | acquire l => cases l <;> rfl
  | release l =>
      cases l with
      | proc q | pid | tree => rfl
      | _ => exact absurd rfl (hi _ (by simp [Lock.rank]))
  | write q w =>
      cases w with
      | free =>
          simp only [Ledger.record, Ledger.recordWrite]
          split_ifs <;> rfl
      | _ => rfl
  | retrieve => cases r <;> rfl
  | user =>
      simp only [Ledger.record]
      split <;> rfl
  | _ => rfl

theorem Ledger.record_release (hl : l.rank < 2) {r : Unit} :
    (ℓ.record k k' c (.release l) r).dropped =
      Function.update ℓ.dropped (k.thread c) (some l) := by
  cases l <;> first | rfl | simp [Lock.rank] at hl

/-- A thread that has left a lock is on a CPU. -/
theorem Base.leaving_on (hb : Base k V tr σ) (h : (V t).leaving = some l) :
    ∃ p c, t = .proc p ∧ k.running c = some p ∧ .proc p ∈ (V t).held := by
  obtain ⟨p, hme, hheld⟩ := (hb.sane t).leaving (by simp [h])
  cases t with
  | cpu c => simp [Thread.me] at hme
  | proc p' =>
      obtain rfl : p' = p := by simpa [Thread.me] using hme
      by_contra hno
      push Not at hno
      have := (hb.locking.parked p' fun c hc => hno p' c rfl hc hheld).leaving
      simp [this] at h

/-- It is not `RUNNING` no more only if it is not there yet. -/
theorem on_of_instrNext {me : Option Slot} {v : View} (h : (instrNext me i v r).on = true)
    (hleave : (instrNext me i v r).leaving = some l) : v.on = true := by
  cases i with
  | acquire l' => simpa [instrNext] using h
  | release l' => simpa [instrNext] using h
  | stateIs p st =>
      simp only [instrNext] at h
      split_ifs at h <;> exact h
  | pidIs p x =>
      simp only [instrNext] at h
      split_ifs at h <;> exact h
  | write p w =>
      cases w with
      | fold =>
          simp only [instrNext, View.write] at h
          split_ifs at h
          exact h
      | sleep chan | exit st => simp [instrNext, View.write] at h
      | _ => exact h
  | switch p => simp [instrNext] at hleave
  | _ => exact h

theorem dropped_kept : Kept P z (fun (_ : Kernel n) ℓ V => Dropped ℓ V) where
  boot := by
    intro t l h
    cases t <;> simp [bootView, View.resumed] at h
  congr _ _ _ _ h := h
  tick {k ℓ V} c i _ _ _ h := by
    intro t l hleave hon
    have : (ℓ.recordInterrupt (k.running c) i).dropped = ℓ.dropped := by
      unfold Ledger.recordInterrupt
      split <;> rfl
    rw [this]
    exact h t l hleave hon
  instr {k k' ℓ V c e i r tr σ} _ hcore hb _ _ hpre hex h := by
    intro t l
    refine viewNext_cases (fun v => v.leaving = some l → v.on = true → _) (fun ht hleave hon => ?_)
      (fun ht hleave hon => ?_) fun p root _ _ hleave => by simp [View.resumed] at hleave
    · subst ht
      have hon' := on_of_instrNext hon hleave
      by_cases hi : ∃ l', l'.rank < 2 ∧ i = .release l'
      · obtain ⟨l', hl', rfl⟩ := hi
        rw [Ledger.record_release hl', Function.update_self]
        simp only [instrNext, View.drop_of_rank hl'] at hleave
        split_ifs at hleave with hleaving
        · exact ⟨hleave, Option.some.inj hleave ▸ hl'⟩
        · -- who has left a lock before is about to sleep
          exact absurd ⟨hon', (hb.sane _).leaving (by simp [hleave])⟩ hleaving
      · push Not at hi
        rw [Ledger.record_dropped fun l' hl' e => hi l' hl' e]
        rcases leaving_instrNext hleave with hold | ⟨rfl, hl, -⟩
        · exact h _ l hold hon'
        · exact absurd rfl (hi l hl)
    · obtain ⟨hdropped, hl⟩ := h t l hleave hon
      refine ⟨?_, hl⟩
      by_cases hi : ∃ l', l'.rank < 2 ∧ i = .release l'
      · obtain ⟨l', hl', rfl⟩ := hi
        rw [Ledger.record_release hl', Function.update_of_ne ht, hdropped]
      · push Not at hi
        rw [Ledger.record_dropped fun l' hl' e => hi l' hl' e, hdropped]

theorem dropped_traced (hz : Spared P z) (h : Traced P z k ℓ V) : Dropped ℓ V :=
  dropped_kept.traced hz h

/-! ## What the ledger says of a sleeper -/

/-- The record and the account of `p`, which is in the making if `m`. -/
structure SleepAccount (p : Slot) (x : Proc) (a : Account) (m : Prop) : Prop where
  asleep : x.state = .sleeping → (a.wakes = 0 ∧ a.inserts = 0) ∧ ∃ l chan,
    a.slept = some (l, chan) ∧ x.chan = some chan ∧ l.rank < 2 ∧
      ∀ q, chan = .proc q → q = p ∧ l = .wait
  awake : x.state ≠ .sleeping → a.slept ≠ none → a.wakes = 1
  made : m → a.slept = none

namespace SleepAccount

variable {y : Proc} {a a' : Account} {m m' : Prop} {p : Slot} {x : Proc}

/-- Nothing that plays a part changes. -/
theorem congr (h : SleepAccount p x a m) (hst : y.state = x.state) (hchan : y.chan = x.chan)
    (hslept : a'.slept = a.slept) (hwakes : a'.wakes = a.wakes) (hinserts : a'.inserts = a.inserts)
    (hm : m' → m) : SleepAccount p y a' m' := by
  refine ⟨fun hy => ?_, fun hy => ?_, fun hm' => hslept.trans (h.made (hm hm'))⟩
  · rw [hwakes, hinserts, hslept, hchan]
    exact h.asleep (hst ▸ hy)
  · rw [hwakes, hslept]
    exact h.awake (hst ▸ hy)

/-- A process that did not sleep goes on not to. -/
theorem move (h : SleepAccount p x a m) (hx : x.state ≠ .sleeping) (hy : y.state ≠ .sleeping)
    (hslept : a'.slept = a.slept) (hwakes : a'.wakes = a.wakes) (hm : m' → m) :
    SleepAccount p y a' m' :=
  ⟨fun he => absurd he hy, fun _ hs => hwakes.trans (h.awake hx (hslept ▸ hs)),
    fun hm' => hslept.trans (h.made (hm hm'))⟩

end SleepAccount

/-- A process that a thread runs is not asleep. -/
theorem Executing.running (hx : Executing P z k ℓ V tr σ c e i) (hme : k.running c = some p)
    (hon : (V (k.thread c)).on = true) : (k.mem.proc p).state = .running :=
  hx.base.sits.running_state hme (Kernel.thread_eq_proc.mpr hme ▸ hon)

theorem sleepAccount_write (hz : Spared P z) {w : Write}
    (hx : Executing P z k ℓ V tr σ c e (.write p w))
    (h : SleepAccount p (k.mem.proc p) (ℓ.account p) (Made V p)) :
    SleepAccount p (w.apply (k.mem.proc p))
      ((ℓ.account p).write (decide (k.running c ≠ some p)) (ℓ.dropped (k.thread c)) w)
      (w.made (Made V p)) := by
  have hpre := hx.pre
  have hb := hx.base
  cases w with
  | fold =>
      obtain ⟨-, hon, -, hs | ⟨hme, -⟩⟩ := hpre
      · have hst := hb.sits.seen c p _ hs
        have hother : k.running c ≠ some p := fun hme => by simp [hx.running hme hon] at hst
        obtain ⟨⟨hwakes, -⟩, -⟩ := h.asleep hst
        refine ⟨by simp [Write.apply], fun _ _ => ?_, h.made⟩
        simp [Account.write, hother, hwakes]
      · exact h.move (by simp [hx.running hme hon]) (by simp [Write.apply]) rfl
          (by simp [Account.write, hme]) id
  | sleep chan =>
      obtain ⟨-, hon, hme, l, hleave, hchan⟩ := hpre
      obtain ⟨hdropped, hl⟩ := dropped_traced hz hx.traced _ l hleave hon
      have hrun := hx.running hme hon
      refine ⟨fun _ => ⟨⟨rfl, rfl⟩, l, chan, by simp [Account.write, hdropped], rfl, hl, hchan⟩,
        by simp [Write.apply], fun hm => ?_⟩
      refine absurd hm (not_made hb fun t ht => ?_)
      simpa [ht, Sit.Fits, hrun] using hb.sits.fits p
  | clearChan =>
      exact h.move (by simp [hx.running hpre.2.2 hpre.2.1])
        (by simp [Write.apply, hx.running hpre.2.2 hpre.2.1]) rfl rfl id
  | exit st =>
      exact h.move (by simp [hx.running hpre.1.2.2.1 hpre.1.2.1]) (by simp [Write.apply]) rfl rfl id
  | used =>
      exact h.move (by simp [hb.sits.seen c p _ hpre.1.2.2]) (by simp [Write.apply]) rfl rfl
        False.elim
  | ready =>
      exact h.move (by simp [hb.used_of_head hpre.2.2]) (by simp [Write.apply]) rfl rfl False.elim
  | free =>
      refine h.move ?_ (by simp [Write.apply]) rfl rfl False.elim
      rcases hpre.2.2 with ⟨hs, -⟩ | ⟨-, g, -, hhead⟩
      · simp [hb.sits.seen c p _ hs]
      · simp [hb.used_of_head hhead]
  | kill | pid | parent | runtime => exact h.congr rfl rfl rfl rfl rfl id

theorem sleepAccount_local (hz : Spared P z) :
    Local P z (fun p x a _ m => SleepAccount p x a m) where
  links hx h := h.congr (by simpa using congrArg Proc.state hx)
    (by simpa using congrArg Proc.chan hx) rfl rfl rfl id
  view _ _ _ h := h
  boot p := by
    have hst : (bootMem.proc p).state = .unused := rfl
    exact ⟨by simp [hst], by simp, False.elim⟩
  tick _ _ _ _ h := h.congr rfl rfl rfl rfl rfl id
  write hx h := sleepAccount_write hz hx h
  insert {k ℓ V tr σ c e p} hx h := by
    have hst : (k.mem.proc p).state = .runnable := by
      obtain ⟨l, -, -, -, hσ⟩ := hx.base.sits.pending_head hx.pre.2
      have := hx.base.sits.fits p
      rwa [hσ] at this
    exact h.move (by simp [hst]) (by simp [hst]) rfl rfl id
  retrieve _ _ h := h.congr rfl rfl rfl rfl rfl id
  dispatch {k ℓ V tr σ c e p} hx h := by
    have hst := hx.base.runnable_of_retrieved
      (Kernel.thread_eq_cpu.mpr ⟨hx.pre.1, rfl⟩ ▸ hx.pre.2.2.1)
    exact h.move (by simp [hst]) (by simp) rfl rfl id
  init {k ℓ V tr σ c e p root z'} hx h := by
    have hst := hx.base.used_of_head hx.pre.2
    exact ⟨fun hs => by simp [Proc.init, hst] at hs, by simp, fun _ => rfl⟩
  runtime _ h := h.congr rfl rfl rfl rfl rfl id
  check _ h := h
  user _ _ h := h.congr rfl rfl rfl rfl rfl id

theorem sleepAccount_traced (hz : Spared P z) (h : Traced P z k ℓ V) (p : Slot) :
    SleepAccount p (k.mem.proc p) (ℓ.account p) (Made V p) :=
  (sleepAccount_local hz).kept.traced hz h p

/-! ## Who is woken is put into the queue -/

/-- A thread has woken `p`, and has still to put it into the queue. -/
def Waking (V : Thread n → View) (p : Slot) : Prop := ∃ t, (V t).waking = some p

/-- Who is woken, and has still to be put into the queue. -/
structure Woken (k : Kernel n) (ℓ : Ledger n) (V : Thread n → View) : Prop where
  pending : ∀ t p, p ∈ (V t).pending → t.me ≠ some p →
    (V t).waking = some p ∨ (ℓ.account p).slept = none
  waking : ∀ t p, (V t).waking = some p → (V t).pending.head? = some p ∧ t.me ≠ some p
  inserts : ∀ p, (k.mem.proc p).state ≠ .sleeping → (ℓ.account p).slept ≠ none →
    (ℓ.account p).inserts = 0 ∧ Waking V p ∨ (ℓ.account p).inserts = 1 ∧ ¬Waking V p

/-- An instruction that wakes and inserts nobody leaves this part of the accounts alone. -/
theorem Ledger.record_sleep (hwrite : ∀ q w, i ≠ .write q w) (hinsert : ∀ q, i ≠ .insert q)
    (hinit : i ≠ .init p) : ((ℓ.record k k' c i r).account p).slept = (ℓ.account p).slept ∧
      ((ℓ.record k k' c i r).account p).inserts = (ℓ.account p).inserts := by
  cases i with
  | write q w => exact absurd rfl (hwrite q w)
  | insert q => exact absurd rfl (hinsert q)
  | acquire l => cases l <;> exact ⟨rfl, rfl⟩
  | release l => cases l <;> exact ⟨rfl, rfl⟩
  | retrieve =>
      cases r with
      | none => exact ⟨rfl, rfl⟩
      | some q =>
          rw [Ledger.record, Ledger.modify_apply]
          split_ifs <;> exact ⟨rfl, rfl⟩
  | dispatch q | runtime q =>
      rw [Ledger.record, Ledger.modify_apply]
      split_ifs <;> exact ⟨rfl, rfl⟩
  | init q =>
      rw [Ledger.record, Ledger.modify_apply, if_neg fun hq : p = q => hinit (hq ▸ rfl)]
      exact ⟨rfl, rfl⟩
  | user =>
      simp only [Ledger.record]
      split
      · rw [Ledger.modify_apply]
        split_ifs <;> exact ⟨rfl, rfl⟩
      · exact ⟨rfl, rfl⟩
  | _ => exact ⟨rfl, rfl⟩

/-- Who wakes up is folded by another thread. -/
theorem wakes_execute (hb : Base k V tr σ) (hpre : instrPre (k.running c) i (V (k.thread c)))
    (hex : execute k c e i = some (k', r)) (h : (k.mem.proc p).state = .sleeping)
    (h' : (k'.mem.proc p).state ≠ .sleeping) : i = .write p .fold := by
  rcases proc_execute hb hpre hex p with hsame | ⟨w, rfl, hw⟩ | ⟨⟨-, hst⟩, -⟩
  · have hst : (k'.mem.proc p).state = (k.mem.proc p).state := congrArg (·.1.1) hsame
    exact absurd (hst.trans h) h'
  · have hno : k.running c = some p → (V (k.thread c)).on = true → False := fun hme hon => by
      simp [hb.sits.running_state hme (Kernel.thread_eq_proc.mpr hme ▸ hon)] at h
    rw [hw] at h'
    cases w with
    | fold => rfl
    | sleep chan => exact absurd rfl h'
    | exit st => exact (hno hpre.1.2.2.1 hpre.1.2.1).elim
    | used => simp [hb.sits.seen c p _ hpre.1.2.2] at h
    | ready => simp [hb.used_of_head hpre.2.2] at h
    | free =>
        rcases hpre.2.2 with ⟨hs, -⟩ | ⟨-, g, -, hhead⟩
        · simp [hb.sits.seen c p _ hs] at h
        · simp [hb.used_of_head hhead] at h
    | _ => exact absurd h h'
  · simp [hst] at h

theorem duty_instrNext {me : Option Slot} {v : View} (hwrite : ∀ q w, i ≠ .write q w)
    (hinsert : ∀ q, i ≠ .insert q) :
    (instrNext me i v r).pending = v.pending ∧ (instrNext me i v r).waking = v.waking := by
  cases i with
  | write q w => exact absurd rfl (hwrite q w)
  | insert q => exact absurd rfl (hinsert q)
  | acquire l => simp [instrNext]
  | release l => simp [instrNext]
  | stateIs p st =>
      simp only [instrNext]
      split_ifs <;> exact ⟨rfl, rfl⟩
  | pidIs p x =>
      simp only [instrNext]
      split_ifs <;> exact ⟨rfl, rfl⟩
  | _ => exact ⟨rfl, rfl⟩

theorem waking_update {v : View} (h : (V t).waking = none) :
    Waking (Function.update V t v) q ↔ Waking V q ∨ v.waking = some q := by
  constructor
  · rintro ⟨t', ht'⟩
    by_cases he : t' = t
    · subst he
      exact .inr (by simpa using ht')
    · exact .inl ⟨t', by rwa [Function.update_of_ne he] at ht'⟩
  · rintro (⟨t', ht'⟩ | hv)
    · refine ⟨t', ?_⟩
      rwa [Function.update_of_ne]
      rintro rfl
      simp [h] at ht'
    · exact ⟨t, by simpa using hv⟩

namespace Woken

/-- Nobody is woken and nobody inserted. -/
theorem frame (h : Woken k ℓ V) {V' : Thread n → View}
    (hduty : ∀ t, (V' t).pending = (V t).pending ∧ (V' t).waking = (V t).waking)
    (hstate : ∀ p, (k'.mem.proc p).state ≠ .sleeping → (k.mem.proc p).state ≠ .sleeping)
    (hslept : ∀ p, ((ℓ'.account p).slept = (ℓ.account p).slept ∧
        (ℓ'.account p).inserts = (ℓ.account p).inserts) ∨ (ℓ'.account p).slept = none ∨
      (k'.mem.proc p).state = .sleeping ∧ ∀ t, p ∉ (V t).pending) :
    Woken k' ℓ' V' := by
  refine ⟨fun t p hp hme => ?_, fun t p hw => ?_, fun p hp hs => ?_⟩
  · rw [(hduty t).1] at hp
    rw [(hduty t).2]
    rcases hslept p with ⟨hsame, -⟩ | hnone | ⟨-, hno⟩
    · rw [hsame]
      exact h.pending t p hp hme
    · exact .inr hnone
    · exact absurd hp (hno t)
  · rw [(hduty t).2] at hw
    rw [(hduty t).1]
    exact h.waking t p hw
  · rcases hslept p with ⟨hsame, hins⟩ | hnone | ⟨hsleep, -⟩
    · simp only [Waking, hsame, hins, hduty] at hs ⊢
      exact h.inserts p (hstate p hp) hs
    · exact absurd hnone hs
    · exact absurd hsleep hp

/-- The thread `t` has `p` to insert, which it has woken if `v.waking` says so. -/
theorem push (h : Woken k ℓ V) {v : View} (hpending : v.pending = p :: (V t).pending)
    (hold : (V t).waking = none)
    (hcase : v.waking = none ∧ (t.me = some p ∨ (ℓ.account p).slept = none) ∧
        (k.mem.proc p).state ≠ .sleeping ∨
      v.waking = some p ∧ t.me ≠ some p ∧ (ℓ.account p).inserts = 0 ∧ ¬Waking V p)
    (hstate : ∀ q, q ≠ p → (k'.mem.proc q).state = (k.mem.proc q).state)
    (hslept : ∀ q, (ℓ'.account q).slept = (ℓ.account q).slept ∧
      (ℓ'.account q).inserts = (ℓ.account q).inserts) :
    Woken k' ℓ' (Function.update V t v) := by
  have hwaking : ∀ q, q ≠ p → (Waking (Function.update V t v) q ↔ Waking V q) := by
    intro q hq
    rw [waking_update hold, or_iff_left]
    rcases hcase with ⟨hv, -⟩ | ⟨hv, -⟩
    · simp [hv]
    · simp [hv, Ne.symm hq]
  refine ⟨fun t' q hq hme => ?_, fun t' q hw => ?_, fun q hq hs => ?_⟩
  · rw [(hslept q).1]
    by_cases ht : t' = t
    · subst ht
      rw [Function.update_self] at hq ⊢
      rw [hpending, List.mem_cons] at hq
      rcases hq with rfl | hq
      · rcases hcase with ⟨-, hme' | hs, -⟩ | ⟨hv, -⟩
        · exact absurd hme' hme
        · exact .inr hs
        · exact .inl hv
      · rcases h.pending t' q hq hme with hw | hs
        · simp [hold] at hw
        · exact .inr hs
    · rw [Function.update_of_ne ht] at hq ⊢
      exact h.pending t' q hq hme
  · by_cases ht : t' = t
    · subst ht
      rw [Function.update_self] at hw ⊢
      rcases hcase with ⟨hv, -⟩ | ⟨hv, hme, -⟩
      · simp [hv] at hw
      · obtain rfl : p = q := by simpa [hv] using hw
        exact ⟨by simp [hpending], hme⟩
    · rw [Function.update_of_ne ht] at hw ⊢
      exact h.waking t' q hw
  · rw [(hslept q).1] at hs
    rw [(hslept q).2]
    by_cases hqp : q = p
    · subst hqp
      rcases hcase with ⟨hv, -, hst⟩ | ⟨hv, -, hins, -⟩
      · have hsame : Waking (Function.update V t v) q ↔ Waking V q := by
          rw [waking_update hold, or_iff_left (by simp [hv])]
        rw [hsame]
        exact h.inserts q hst hs
      · exact .inl ⟨hins, (waking_update hold).mpr (.inr hv)⟩
    · rw [hwaking q hqp]
      rw [hstate q hqp] at hq
      exact h.inserts q hq hs

/-- The thread `t` has inserted `p`. -/
theorem pop (h : Woken k ℓ V) (hb : Base k V tr σ) {v : View}
    (hhead : (V t).pending.head? = some p) (hpending : v.pending = (V t).pending.tail)
    (hnone : v.waking = none) (hstate : ∀ q, (k'.mem.proc q).state = (k.mem.proc q).state)
    (hslept : ∀ q, (ℓ'.account q).slept = (ℓ.account q).slept)
    (hinserts : ∀ q, (ℓ'.account q).inserts = (ℓ.account q).inserts +
      if q = p ∧ t.me ≠ some p then 1 else 0) :
    Woken k' ℓ' (Function.update V t v) := by
  obtain ⟨l, hl, hpl, -, hσ⟩ := hb.sits.pending_head hhead
  -- what the thread has woken is `p`, and nobody else has woken it
  have hself : ∀ q, (V t).waking = some q → q = p := fun q hw => by
    have := (h.waking t q hw).1
    rw [hhead] at this
    exact (Option.some.inj this).symm
  have honly : ∀ t', (V t').waking = some p → t' = t := fun t' hw => by
    have hmem := List.mem_of_mem_head? (h.waking t' p hw).1
    have := (hb.sits.pending t' p).mp hmem
    rw [hσ] at this
    exact (Sit.pending.inj this).symm
  have hwaking : ∀ q, Waking (Function.update V t v) q ↔ Waking V q ∧ q ≠ p := by
    intro q
    constructor
    · rintro ⟨t', ht'⟩
      by_cases he : t' = t
      · subst he
        simp [hnone] at ht'
      · rw [Function.update_of_ne he] at ht'
        exact ⟨⟨t', ht'⟩, fun hq => he (honly t' (hq ▸ ht'))⟩
    · rintro ⟨⟨t', ht'⟩, hq⟩
      refine ⟨t', ?_⟩
      rwa [Function.update_of_ne]
      rintro rfl
      exact hq (hself q ht')
  refine ⟨fun t' q hq hme => ?_, fun t' q hw => ?_, fun q hq hs => ?_⟩
  · rw [hslept]
    by_cases ht : t' = t
    · subst ht
      rw [Function.update_self, hpending, hl, List.tail_cons] at hq
      rcases h.pending t' q (by simp [hl, hq]) hme with hw | hs
      · exact absurd (hself q hw ▸ hq) hpl
      · exact .inr hs
    · rw [Function.update_of_ne ht] at hq ⊢
      exact h.pending t' q hq hme
  · by_cases ht : t' = t
    · subst ht
      simp [hnone] at hw
    · rw [Function.update_of_ne ht] at hw ⊢
      exact h.waking t' q hw
  · rw [hstate] at hq
    rw [hslept] at hs
    rw [hinserts, hwaking]
    have hold := h.inserts q hq hs
    by_cases hqp : q = p
    · subst hqp
      refine .inr ⟨?_, by simp⟩
      by_cases hme : t.me = some q
      · rcases hold with ⟨-, t', ht'⟩ | ⟨hone, -⟩
        · obtain rfl := honly t' ht'
          exact absurd hme (h.waking t' q ht').2
        · simp [hone, hme]
      · rcases h.pending t q (by simp [hl]) hme with hw | hnone'
        · rcases hold with ⟨hzero, -⟩ | ⟨-, hno⟩
          · simp [hzero, hme]
          · exact absurd ⟨t, hw⟩ hno
        · exact absurd hnone' hs
    · simpa [hqp] using hold

/-- An assignment. -/
theorem write (h : Woken k ℓ V) (hb : Base k V tr σ) {w : Write} {r : Unit}
    (hacc : ∀ p, SleepAccount p (k.mem.proc p) (ℓ.account p) (Made V p))
    (hpre : writePre (k.running c) (V (k.thread c)) p w)
    (hex : execute k c e (.write p w) = some (k', r))
    (hduty : (instrNext (k.thread c).me (.write p w) (V (k.thread c)) r).pending =
        (V (k.thread c)).pending ∧
      (instrNext (k.thread c).me (.write p w) (V (k.thread c)) r).waking =
        (V (k.thread c)).waking → ∀ t, (viewNext k V c (.write p w) r t).pending = (V t).pending ∧
          (viewNext k V c (.write p w) r t).waking = (V t).waking)
    (hstate : (∀ q, (.write p w : Instr) ≠ .write q .fold) →
      ∀ q, (k'.mem.proc q).state ≠ .sleeping → (k.mem.proc q).state ≠ .sleeping) :
    Woken k' (ℓ.record k k' c (.write p w) r) (viewNext k V c (.write p w) r) := by
  simp only [execute, Option.some.injEq, Prod.mk.injEq] at hex
  obtain ⟨rfl, -⟩ := hex
  have hother : ∀ q, q ≠ p → ((k.setMem (k.mem.modify p w.apply)).mem.proc q).state =
      (k.mem.proc q).state := fun q hq => by rw [Kernel.setMem_mem, Mem.modify_ne _ _ hq]
  have hsame : (∀ chan, w ≠ .sleep chan) → ∀ q,
      ((ℓ.record k (k.setMem (k.mem.modify p w.apply)) c (.write p w) r).account q).slept =
        (ℓ.account q).slept ∧
      ((ℓ.record k (k.setMem (k.mem.modify p w.apply)) c (.write p w) r).account q).inserts =
        (ℓ.account q).inserts := by
    intro hw q
    rw [Ledger.record, Ledger.recordWrite_account]
    split_ifs with hq
    · subst hq
      cases w <;> first | exact ⟨rfl, rfl⟩ | exact absurd rfl (hw _)
    · exact ⟨rfl, rfl⟩
  cases w with
  | fold =>
      rw [viewNext_of_ne (by simp)]
      refine h.push (p := p) rfl hpre.2.2.1 ?_ hother (hsame (by simp))
      obtain ⟨-, hon, hwaking, hs | ⟨hme, -⟩⟩ := hpre
      · have hst := hb.sits.seen c p _ hs
        have hme : k.running c ≠ some p := fun hme => by
          simp [hb.sits.running_state hme (Kernel.thread_eq_proc.mpr hme ▸ hon)] at hst
        refine .inr ⟨by simp [instrNext, View.write, hme], by rwa [Kernel.thread_me],
          ((hacc p).asleep hst).1.2, ?_⟩
        rintro ⟨t, ht⟩
        have hσ := (hb.sits.pending t p).mp (List.mem_of_mem_head? (h.waking t p ht).1)
        simp [hb.sits.idle_of_sleeping hst] at hσ
      · refine .inl ⟨by simp [instrNext, View.write, hme, hwaking],
          .inl (by rwa [Kernel.thread_me]), ?_⟩
        simp [hb.sits.running_state hme (Kernel.thread_eq_proc.mpr hme ▸ hon)]
  | ready =>
      rw [viewNext_of_ne (by simp)]
      refine h.push (p := p) rfl hpre.2.1.2 (.inl ⟨hpre.2.1.2, .inr ?_, ?_⟩) hother
        (hsame (by simp))
      · exact (hacc p).made ⟨_, _, List.mem_of_mem_head? hpre.2.2, by simp⟩
      · simp [hb.used_of_head hpre.2.2]
  | sleep chan =>
      refine h.frame (hduty ⟨rfl, rfl⟩) (hstate (by simp)) fun q => ?_
      by_cases hq : q = p
      · subst hq
        refine .inr (.inr ⟨by simp [Write.apply], fun t ht => ?_⟩)
        have hrun := hb.sits.running_state hpre.2.2.1
          (Kernel.thread_eq_proc.mpr hpre.2.2.1 ▸ hpre.2.1)
        simpa [(hb.sits.pending t q).mp ht, Sit.Fits, hrun] using hb.sits.fits q
      · refine .inl ?_
        rw [Ledger.record, Ledger.recordWrite_account, if_neg hq]
        exact ⟨rfl, rfl⟩
  | _ =>
      exact h.frame (hduty ⟨rfl, rfl⟩) (hstate (by simp)) fun q => .inl (hsame (by simp) q)

end Woken

theorem woken_kept (hz : Spared P z) : Kept P z (fun (k : Kernel n) ℓ V => Woken k ℓ V) where
  boot := by
    refine ⟨fun t p h => ?_, fun t p h => ?_, fun p _ h => absurd rfl h⟩ <;>
      cases t <;> simp [bootView, View.resumed] at h
  congr hshared _ _ _ h := by
    refine h.frame (fun _ => ⟨rfl, rfl⟩) (fun p hp => ?_) fun p => .inl ⟨rfl, rfl⟩
    rwa [Kernel.mem, ← hshared]
  tick {k ℓ V} c i _ _ _ h := by
    refine h.frame (fun _ => ⟨rfl, rfl⟩) (fun _ hp => hp) fun p => .inl ?_
    rw [Ledger.recordInterrupt_account]
    split_ifs <;> exact ⟨rfl, rfl⟩
  instr {k k' ℓ V c e i r tr σ} htr hcore hb _ _ hpre hex h := by
    have hacc := sleepAccount_traced hz htr
    have hduty : (instrNext (k.thread c).me i (V (k.thread c)) r).pending =
        (V (k.thread c)).pending ∧ (instrNext (k.thread c).me i (V (k.thread c)) r).waking =
        (V (k.thread c)).waking → ∀ t, (viewNext k V c i r t).pending = (V t).pending ∧
          (viewNext k V c i r t).waking = (V t).waking := by
      intro hsame t
      rw [viewNext_field hb hpre View.pending fun p _ _ hst =>
          (hb.sits.bare p (.inr (.inl hst))).pending.symm,
        viewNext_field hb hpre View.waking fun p _ _ hst =>
          (hb.locking.parked p (hb.sits.absent p (.inr hst))).waking.symm]
      by_cases ht : t = k.thread c
      · subst ht
        rwa [Function.update_self]
      · rw [Function.update_of_ne ht]
        exact ⟨rfl, rfl⟩
    have hstate : (∀ q, i ≠ .write q .fold) → ∀ q, (k'.mem.proc q).state ≠ .sleeping →
        (k.mem.proc q).state ≠ .sleeping := fun hfold q hq hs =>
      hfold q (wakes_execute hb hpre hex hs hq)
    by_cases hinsert : ∃ p, i = .insert p
    · obtain ⟨p, rfl⟩ := hinsert
      obtain ⟨m', tr', rfl, hins, -⟩ := hb.insert_cases hpre.2 hex
      rw [viewNext_of_ne (by simp)]
      refine h.pop hb hpre.2 rfl rfl
        (fun q => hins.field Proc.state (fun _ => rfl) (fun _ _ => rfl) q) (fun q => ?_) fun q => ?_
      · rw [Ledger.record, Ledger.modify_apply]
        split_ifs <;> rfl
      · rw [Ledger.record, Ledger.modify_apply, Kernel.thread_me]
        by_cases hq : q = p
        · subst hq
          by_cases hme : k.running c = some q <;> simp [hme]
        · simp [hq]
    by_cases hwrite : ∃ p w, i = .write p w
    · obtain ⟨p, w, rfl⟩ := hwrite
      exact h.write hb hacc hpre hex hduty hstate
    push Not at hinsert hwrite
    refine h.frame (hduty (duty_instrNext hwrite hinsert)) (hstate fun q => hwrite q _) fun p => ?_
    by_cases hi : i = .init p
    · subst hi
      exact .inr (.inl (by simp [Ledger.record]))
    · exact .inl (Ledger.record_sleep hwrite hinsert hi)

theorem woken_traced (hz : Spared P z) (h : Traced P z k ℓ V) : Woken k ℓ V :=
  (woken_kept hz).traced hz h

/-- **Who has slept has been woken once since**, and inserted once, or is about to be. -/
theorem wokenOnce {k : Kernel n} {ℓ : Ledger n} (h : Run k ℓ) : WokenOnce k ℓ := by
  obtain ⟨V, hV⟩ := h.traced false
  have hacc := sleepAccount_traced spared_false hV
  have hwoken := woken_traced spared_false hV
  have hbook := booked_traced spared_false hV
  refine ⟨fun p hst => ?_, fun p hst hslept => ⟨(hacc p).awake hst hslept, ?_⟩⟩
  · obtain ⟨⟨hwakes, hinserts⟩, l, chan, hslept, hchan, -⟩ := (hacc p).asleep hst
    exact ⟨hwakes, hinserts, l, chan, hslept, hchan⟩
  · rcases hwoken.inserts p hst hslept with ⟨h0, t, ht⟩ | ⟨h1, -⟩
    · obtain ⟨hhead, hme⟩ := hwoken.waking t p ht
      refine .inr ⟨h0, t, hme, ?_⟩
      rw [hbook.pending]
      exact List.mem_of_mem_head? hhead
    · exact .inl h1

/-- On the CPUs `a` and `b` of three: `b` runs the first process, which sleeps in a system call, and
is woken by a handler on `a`. -/
def napMoves (a b : Fin 3) : List (Move 3 × Thread 3 × Option Slot) :=
  stretch 18 a (.cpu a) {} ++ stretch 3 b (.cpu b) {} ++ fetch b 0 ++ stretch 7 b (.cpu b) {} ++
  stretch 22 b (.proc 0) {} ++ stretch 6 b (.proc 0) { trap := .syscall .other } ++
  stretch 3 b (.proc 0) { choice := .acquire 0 } ++ stretch 6 b (.proc 0) { choice := .sleep 5 } ++
  stretch 3 b (.cpu b) {} ++ [(.interrupt a .device, .cpu a, none)] ++
  stretch 9 a (.cpu a) { choice := .wakeup 5 }

theorem napMoves_spec : (execAs (boot 3, Ledger.empty 3) (napMoves 0 1)).any
    (fun s => (s.2.account 0).wakes = 1 ∧ (s.2.account 0).inserts = 1) := by
  decide +kernel

theorem wokenOnce_first : ∃ (k : Kernel 3) (ℓ : Ledger 3),
    ((ℓ.account 0).wakes = 1 ∧ (ℓ.account 0).inserts = 1) ∧ WokenOnce k ℓ := by
  obtain ⟨s, hs, hspec⟩ := (Option.any_eq_true _ _).mp napMoves_spec
  exact ⟨s.1, s.2, of_decide_eq_true hspec, wokenOnce (run_execAs .init hs)⟩

end Xv6Cfs
