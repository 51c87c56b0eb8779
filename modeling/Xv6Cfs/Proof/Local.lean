import Xv6Cfs.Proof.Placement

/-!
# One process at a time

Most of what is true of all runs is about one process: its record, its account,
and what its thread knows. Here is what an instruction can do to these three,
said once; a property of them has to be checked for each of these changes only.
-/

namespace Xv6Cfs

open RedBlack

variable {n : Nat} {k k' : Kernel n} {ℓ : Ledger n} {V : Thread n → View} {z : Bool}
  {P : Kernel n → Ledger n → Move n → Prop} {c : Fin n} {tr : ColorTree Slot} {σ : Slot → Sit n}
  {p q : Slot}

/-! ## The account -/

/-- The account after an assignment. -/
def Account.write (a : Account) (byOther : Bool) (lk : Option Lock) : Write → Account
  | .fold => a.fold byOther
  | .sleep chan => a.sleep lk chan
  | .runtime d => a.charge d
  | .exit status => a.exit status
  | _ => a

theorem Ledger.recordWrite_account (t : Thread n) (x : Proc) (w : Write) (q : Slot) :
    (ℓ.recordWrite t p x w).account q =
      if q = p then (ℓ.account p).write (decide (t.me ≠ some p)) (ℓ.dropped t) w
      else ℓ.account q := by
  cases w with
  | free =>
      simp only [Ledger.recordWrite, Account.write]
      split_ifs <;> simp_all
  | _ =>
      by_cases hq : q = p
      · subst hq
        simp [Ledger.recordWrite, Account.write]
      · simp [Ledger.recordWrite, hq]

theorem Ledger.recordInterrupt_account (me : Option Slot) (i : Interrupt) (q : Slot) :
    (ℓ.recordInterrupt me i).account q =
      if me = some q ∧ i = .timer then (ℓ.account q).kernelTick else ℓ.account q := by
  cases me with
  | none => simp [Ledger.recordInterrupt]
  | some p =>
      cases i with
      | device => simp [Ledger.recordInterrupt]
      | timer =>
          by_cases hq : q = p
          · subst hq
            simp [Ledger.recordInterrupt]
          · simp [Ledger.recordInterrupt, hq, Ne.symm hq]

/-! ## Processes in the making -/

/-- A thread is making the process `p`, and has set its fields. -/
def Made (V : Thread n → View) (p : Slot) : Prop :=
  ∃ t g, (p, g) ∈ (V t).created ∧ g ≠ .allocated

/-- Whether it is so after an assignment to `p`. -/
def Write.made : Write → Prop → Prop
  | .used, _ | .ready, _ | .free, _ => False
  | _, m => m

theorem made_congr {V' : Thread n → View}
    (h : ∀ t g, g ≠ .allocated → ((q, g) ∈ (V' t).created ↔ (q, g) ∈ (V t).created)) :
    Made V' q ↔ Made V q :=
  exists_congr fun t => exists_congr fun g =>
    ⟨fun ⟨hm, hg⟩ => ⟨(h t g hg).mp hm, hg⟩, fun ⟨hm, hg⟩ => ⟨(h t g hg).mpr hm, hg⟩⟩

theorem made_update {v : View} {t : Thread n}
    (h : ∀ g, g ≠ .allocated → ((q, g) ∈ v.created ↔ (q, g) ∈ (V t).created)) :
    Made (Function.update V t v) q ↔ Made V q := by
  refine made_congr fun t' g hg => ?_
  by_cases ht : t' = t
  · rw [ht, Function.update_self]
    exact h g hg
  · rw [Function.update_of_ne ht]

/-- A process is in the making with the thread that makes it. -/
theorem Situations.making_of_mem {qs : List Slot} (h : Situations k V qs σ) {t : Thread n}
    {g : Stage} (hp : (p, g) ∈ (V t).created) : σ p = .created t :=
  (h.created t p).mp (List.mem_map.mpr ⟨_, hp, rfl⟩)

/-- An assignment to `p` makes or ends no other process. -/
theorem made_write_ne {w : Write} (hpre : writePre (k.running c) (V (k.thread c)) p w)
    (hq : q ≠ p) : Made (Function.update V (k.thread c)
      ((V (k.thread c)).write (k.running c) p w)) q ↔ Made V q := by
  refine made_update fun g _ => ?_
  cases w with
  | used => simp [View.write, hq]
  | ready =>
      obtain ⟨l, hl⟩ := List.head?_eq_some_iff.mp hpre.2.2
      simp [View.write, hl, hq]
  | free =>
      rcases hpre.2.2 with ⟨hseen, -⟩ | ⟨hseen, g', -, hhead⟩
      · simp [View.write, hseen]
      · obtain ⟨l, hl⟩ := List.head?_eq_some_iff.mp hhead
        simp [View.write, hseen, hl, hq]
  | parent x =>
      rcases hpre.2.2 with ⟨hx, hhead⟩ | ⟨hx, -⟩
      · obtain ⟨l, hl⟩ := List.head?_eq_some_iff.mp hhead
        simp [View.write, hx, hl, hq]
      · simp [View.write, hx]
  | _ => exact Iff.rfl

/-- A process that is in the making nowhere. -/
theorem not_made (hb : Base k V tr σ) (hσ : ∀ t, σ p ≠ .created t) : ¬Made V p := by
  rintro ⟨t, g, hp, -⟩
  exact hσ t (hb.sits.making_of_mem hp)

/-- A thread that drops the process it is making leaves nobody who makes it. -/
theorem not_made_drop (hb : Base k V tr σ) {t : Thread n} {g : Stage} {v : View}
    {l : List (Slot × Stage)} (hl : (V t).created = (p, g) :: l) (hv : v.created = l) :
    ¬Made (Function.update V t v) p := by
  obtain ⟨l', hl', -, hpl, hσ⟩ := hb.sits.created_head (t := t) (g := g) (by rw [hl]; rfl)
  obtain rfl : l = l' := by simpa [hl] using hl'
  rintro ⟨t', g', hp, -⟩
  by_cases ht : t' = t
  · rw [ht, Function.update_self, hv] at hp
    exact hpl (List.mem_map.mpr ⟨_, hp, rfl⟩)
  · rw [Function.update_of_ne ht] at hp
    have := hb.sits.making_of_mem hp
    rw [hσ] at this
    exact ht (Sit.created.inj this).symm

theorem made_write_self (hb : Base k V tr σ) {w : Write}
    (hpre : writePre (k.running c) (V (k.thread c)) p w) :
    Made (Function.update V (k.thread c) ((V (k.thread c)).write (k.running c) p w)) p ↔
      w.made (Made V p) := by
  cases w with
  | used =>
      refine iff_of_false ?_ id
      have hσ := hb.sits.idle_of_unused (hb.sits.seen c p _ hpre.1.2.2)
      rw [made_update fun g hg => by simp [View.write, hg]]
      exact not_made hb (by simp [hσ])
  | ready =>
      obtain ⟨l, hl⟩ := List.head?_eq_some_iff.mp hpre.2.2
      exact iff_of_false (not_made_drop hb hl (by simp [View.write, hl])) id
  | free =>
      refine iff_of_false ?_ id
      rcases hpre.2.2 with ⟨hseen, -⟩ | ⟨hseen, g', -, hhead⟩
      · have hσ := hb.sits.idle_of_zombie (hb.sits.seen c p _ hseen)
        rw [made_update fun g _ => by simp [View.write, hseen]]
        exact not_made hb (by simp [hσ])
      · obtain ⟨l, hl⟩ := List.head?_eq_some_iff.mp hhead
        exact not_made_drop hb hl (by simp [View.write, hseen, hl])
  | parent x =>
      rcases hpre.2.2 with ⟨hx, hhead⟩ | ⟨hx, -⟩
      · obtain ⟨l, hl⟩ := List.head?_eq_some_iff.mp hhead
        refine iff_of_true ⟨k.thread c, .adopted, ?_, by simp⟩ ⟨k.thread c, .initialised, ?_, by simp⟩
        · simp [View.write, hx]
        · simp [hl]
      · exact made_update fun g _ => by simp [View.write, hx]
  | _ => exact made_update fun _ _ => Iff.rfl

/-! ## What an instruction can do to a process -/

/-- The facts at hand when the CPU `c` executes `i`. -/
structure Executing (P : Kernel n → Ledger n → Move n → Prop) (z : Bool) (k : Kernel n)
    (ℓ : Ledger n) (V : Thread n → View) (tr : ColorTree Slot) (σ : Slot → Sit n) (c : Fin n)
    (e : Env) (i : Instr) : Prop where
  traced : Traced P z k ℓ V
  core : Core k V z
  base : Base k V tr σ
  allowed : P k ℓ (.exec c e)
  issues : k.Issues c i
  pre : instrPre (k.running c) i (V (k.thread c))

/--
A property of the record, the account, the view of a process, and of whether it is
in the making, that every instruction keeps.
-/
structure Local (P : Kernel n → Ledger n → Move n → Prop) (z : Bool)
    (J : Slot → Proc → Account → View → Prop → Prop) : Prop where
  /-- Links and colours play no part. -/
  links : ∀ {p x x' a v m}, x'.unlinked = x.unlinked → J p x a v m → J p x' a v m
  /-- Of the view, only what has to do with charges does. -/
  view : ∀ {p x a v v' m}, v'.reading = v.reading → v'.due = v.due → v'.charged = v.charged →
    J p x a v m → J p x a v' m
  boot : ∀ p, J p (bootMem.proc p) {} (.resumed p p z) False
  tick : ∀ {k ℓ V c p}, Traced P z k ℓ V → Core k V z → P k ℓ (.interrupt c .timer) → k.running c = some p →
    J p (k.mem.proc p) (ℓ.account p) (V (.proc p)) (Made V p) →
    J p (k.mem.proc p) (ℓ.account p).kernelTick (V (.proc p)) (Made V p)
  write : ∀ {k ℓ V tr σ c e p w}, Executing P z k ℓ V tr σ c e (.write p w) →
    J p (k.mem.proc p) (ℓ.account p) (V (.proc p)) (Made V p) →
    J p (w.apply (k.mem.proc p))
      ((ℓ.account p).write (decide (k.running c ≠ some p)) (ℓ.dropped (k.thread c)) w)
      (if k.running c = some p then (V (.proc p)).write (some p) p w else V (.proc p))
      (w.made (Made V p))
  insert : ∀ {k ℓ V tr σ c e p}, Executing P z k ℓ V tr σ c e (.insert p) →
    J p (k.mem.proc p) (ℓ.account p) (V (.proc p)) (Made V p) →
    J p ((k.mem.proc p).setWeightVal 819)
      ((ℓ.account p).queued (decide (k.running c ≠ some p)) ((k.mem.proc p).setWeightVal 819))
      (V (.proc p)) (Made V p)
  retrieve : ∀ {k ℓ V tr σ c e p m' tr'}, Executing P z k ℓ V tr σ c e .retrieve →
    Retrieved k.mem tr p m' tr' → J p (k.mem.proc p) (ℓ.account p) (V (.proc p)) (Made V p) →
    J p ((k.mem.proc p).setMaxExecutionTime (m'.proc p).maxExecutionTime)
      ((ℓ.account p).retrieved (m'.proc p)) (V (.proc p)) (Made V p)
  dispatch : ∀ {k ℓ V tr σ c e p}, Executing P z k ℓ V tr σ c e (.dispatch p) →
    J p (k.mem.proc p) (ℓ.account p) (V (.proc p)) (Made V p) →
    J p ((k.mem.proc p).setState .running)
      ((ℓ.account p).dispatch ((k.mem.proc p).setState .running)) (V (.proc p)) (Made V p)
  init : ∀ {k ℓ V tr σ c e p root z'}, Executing P z k ℓ V tr σ c e (.init p) →
    J p (k.mem.proc p) (ℓ.account p) (V (.proc p)) (Made V p) →
    J p (k.mem.proc p).init {} (.resumed p root z') True
  runtime : ∀ {k ℓ V tr σ c e p}, Executing P z k ℓ V tr σ c e (.runtime p) →
    J p (k.mem.proc p) (ℓ.account p) (V (.proc p)) (Made V p) →
    J p (k.mem.proc p) (ℓ.account p).readRuntime
      { V (.proc p) with reading := some (k.mem.proc p).currentRuntime } (Made V p)
  check : ∀ {k ℓ V tr σ c e p q}, Executing P z k ℓ V tr σ c e (.checkPreemption p q) →
    J p (k.mem.proc p) (ℓ.account p) (V (.proc p)) (Made V p) →
    J p (k.mem.proc p) (ℓ.account p)
      { V (.proc p) with charged := (V (.proc p)).charged && checkPreemption k.mem p q } (Made V p)
  user : ∀ {k ℓ V tr σ c e p}, Executing P z k ℓ V tr σ c e .user → k.running c = some p →
    J p (k.mem.proc p) (ℓ.account p) (V (.proc p)) (Made V p) →
    J p (k.mem.proc p) ((ℓ.account p).trap e.trap) { V (.proc p) with due := true } (Made V p)

/-- The record, the account and the view of every process have the property. -/
def Everywhere (J : Slot → Proc → Account → View → Prop → Prop) (k : Kernel n) (ℓ : Ledger n)
    (V : Thread n → View) : Prop :=
  ∀ p, J p (k.mem.proc p) (ℓ.account p) (V (.proc p)) (Made V p)

namespace Local

variable {J : Slot → Proc → Account → View → Prop → Prop} {e : Env} {i : Instr} {r : Answer i}

/-- An instruction that does nothing to `q` that plays a part. -/
theorem quiet (hJ : Local P z J) (hi : ∀ p, i ≠ .init p)
    (hproc : (k'.mem.proc q).unlinked = (k.mem.proc q).unlinked)
    (haccount : (ℓ.record k k' c i r).account q = ℓ.account q)
    (hview : k.running c = some q → ∀ w, instrNext (k.running c) i (V (k.thread c)) r = w →
      w.reading = (V (k.thread c)).reading ∧ w.due = (V (k.thread c)).due ∧
        w.charged = (V (k.thread c)).charged)
    (hmade : Made (viewNext k V c i r) q ↔ Made V q)
    (h : J q (k.mem.proc q) (ℓ.account q) (V (.proc q)) (Made V q)) :
    J q (k'.mem.proc q) ((ℓ.record k k' c i r).account q) (viewNext k V c i r (.proc q))
      (Made (viewNext k V c i r) q) := by
  rw [haccount, propext hmade, viewNext_of_ne hi]
  refine hJ.links hproc ?_
  by_cases ht : Thread.proc q = k.thread c
  · obtain ⟨h1, h2, h3⟩ := hview (Kernel.thread_eq_proc.mp ht.symm) _ rfl
    rw [← ht] at h1 h2 h3
    rw [ht, Function.update_self, ← ht]
    exact hJ.view h1 h2 h3 h
  · rwa [Function.update_of_ne ht]

/-- `insertProcess` puts `p` into the queue. -/
theorem kept_insert (hJ : Local P z J) (hx : Executing P z k ℓ V tr σ c e (.insert p))
    {r : Unit} (hex : execute k c e (.insert p) = some (k', r)) (h : Everywhere J k ℓ V) :
    Everywhere J k' (ℓ.record k k' c (.insert p) r) (viewNext k V c (.insert p) r) := by
  intro q
  obtain ⟨m', tr', rfl, hins, -⟩ := hx.base.insert_cases hx.pre.2 hex
  have hmade : Made (viewNext k V c (.insert p) r) q ↔ Made V q := by
    rw [viewNext_of_ne (by simp)]
    exact made_update fun _ _ => Iff.rfl
  by_cases hq : q = p
  · subst hq
    have hnew : (ℓ.record k (k.setMem m') c (.insert q) r).account q =
        (ℓ.account q).queued (decide (k.running c ≠ some q))
          ((k.mem.proc q).setWeightVal 819) := by
      simp [Ledger.record, Account.queued, hins.virtualRuntime, hins.weightVal]
    rw [hnew, propext hmade, viewNext_of_ne (by simp)]
    refine hJ.links (x := (k.mem.proc q).setWeightVal 819) (by rw [Kernel.setMem_mem, hins.inserted]; rfl) ?_
    have hcase : ∃ v', Function.update V (k.thread c)
        (instrNext (k.running c) (.insert q) (V (k.thread c)) r) (.proc q) = v' ∧
        v'.reading = (V (.proc q)).reading ∧ v'.due = (V (.proc q)).due ∧
        v'.charged = (V (.proc q)).charged := by
      refine ⟨_, rfl, ?_⟩
      by_cases ht : Thread.proc q = k.thread c
      · rw [ht, Function.update_self]
        exact ⟨rfl, rfl, rfl⟩
      · rw [Function.update_of_ne ht]
        exact ⟨rfl, rfl, rfl⟩
    obtain ⟨v', hv', h1, h2, h3⟩ := hcase
    rw [hv']
    exact hJ.view h1 h2 h3 (hJ.insert hx (h q))
  · refine hJ.quiet (by simp) ?_ ?_ (fun _ w hw => hw ▸ ⟨rfl, rfl, rfl⟩) hmade (h q)
    · rw [Kernel.setMem_mem, hins.unlinked q hq]
    · simp [Ledger.record, hq]

/-- `retrieveProcess` takes a process out of the queue. -/
theorem kept_retrieve (hJ : Local P z J) (hx : Executing P z k ℓ V tr σ c e .retrieve)
    {r : Option Slot} (hex : execute k c e .retrieve = some (k', r)) (h : Everywhere J k ℓ V) :
    Everywhere J k' (ℓ.record k k' c .retrieve r) (viewNext k V c .retrieve r) := by
  intro q
  have hmade : Made (viewNext k V c .retrieve r) q ↔ Made V q := by
    rw [viewNext_of_ne (by simp)]
    exact made_update fun _ _ => Iff.rfl
  rcases hx.base.retrieve_cases hex with ⟨-, rfl, rfl⟩ | ⟨p, m', tr', rfl, rfl, hret, -⟩
  · exact hJ.quiet (by simp) rfl rfl (fun _ w hw => hw ▸ ⟨rfl, rfl, rfl⟩) hmade (h q)
  · by_cases hq : q = p
    · subst hq
      have hnew : (ℓ.record k (k.setMem m') c .retrieve (some q)).account q =
          (ℓ.account q).retrieved (m'.proc q) := by
        simp [Ledger.record]
      have hne : Thread.proc q ≠ k.thread c := fun ht => by
        have := Kernel.thread_eq_proc.mp ht.symm
        simp [hx.pre.2.1] at this
      rw [hnew, propext hmade, viewNext_of_ne (by simp), Function.update_of_ne hne]
      refine hJ.links ?_ (hJ.retrieve hx hret (h q))
      rw [Kernel.setMem_mem, hret.slice, hret.retrieved]
      rfl
    · refine hJ.quiet (by simp) ?_ ?_ (fun _ w hw => hw ▸ ⟨rfl, rfl, rfl⟩) hmade (h q)
      · rw [Kernel.setMem_mem, hret.unlinked q hq]
      · simp [Ledger.record, hq]

/-- An assignment. -/
theorem kept_write (hJ : Local P z J) {w : Write}
    (hx : Executing P z k ℓ V tr σ c e (.write p w)) {r : Unit}
    (hex : execute k c e (.write p w) = some (k', r)) (h : Everywhere J k ℓ V) :
    Everywhere J k' (ℓ.record k k' c (.write p w) r) (viewNext k V c (.write p w) r) := by
  intro q
  simp only [execute, Option.some.injEq, Prod.mk.injEq] at hex
  obtain ⟨rfl, -⟩ := hex
  have hmem : ∀ q, ((k.setMem (k.mem.modify p w.apply)).mem.proc q) =
      if q = p then w.apply (k.mem.proc p) else k.mem.proc q := fun q => Mem.modify_proc _ _ _ _
  have hacc := Ledger.recordWrite_account (ℓ := ℓ) (p := p) (k.thread c) (k.mem.proc p) w q
  rw [Kernel.thread_me] at hacc
  by_cases hq : q = p
  · subst hq
    have hmade : Made (viewNext k V c (.write q w) r) q ↔ w.made (Made V q) := by
      rw [viewNext_of_ne (by simp)]
      exact made_write_self hx.base hx.pre
    rw [hmem, if_pos rfl, Ledger.record, hacc, if_pos rfl, propext hmade, viewNext_of_ne (by simp)]
    have hview : Function.update V (k.thread c)
        (instrNext (k.running c) (.write q w) (V (k.thread c)) r) (.proc q) =
        if k.running c = some q then (V (.proc q)).write (some q) q w else V (.proc q) := by
      by_cases hme : k.running c = some q
      · rw [if_pos hme, Kernel.thread_eq_proc.mpr hme, Function.update_self, hme]
        rfl
      · rw [if_neg hme, Function.update_of_ne fun e => hme (Kernel.thread_eq_proc.mp e.symm)]
    rw [hview]
    exact hJ.write hx (h q)
  · have hmade : Made (viewNext k V c (.write p w) r) q ↔ Made V q := by
      rw [viewNext_of_ne (by simp)]
      exact made_write_ne hx.pre hq
    refine hJ.quiet (by simp) (by rw [hmem, if_neg hq]) (by rw [Ledger.record, hacc, if_neg hq])
      (fun hme u hu => ?_) hmade (h q)
    subst hu
    -- the thread of `q` writes to another process
    have hne : k.running c ≠ some p := fun e => hq (Option.some.inj (hme.symm.trans e))
    cases w with
    | fold => simp [instrNext, View.write, hne]
    | runtime d => exact absurd hx.pre.2.1 hne
    | _ => exact ⟨rfl, rfl, rfl⟩

/-- `scheduler` puts `p` on the CPU. -/
theorem kept_dispatch (hJ : Local P z J) (hx : Executing P z k ℓ V tr σ c e (.dispatch p))
    {r : Unit} (hex : execute k c e (.dispatch p) = some (k', r)) (h : Everywhere J k ℓ V) :
    Everywhere J k' (ℓ.record k k' c (.dispatch p) r) (viewNext k V c (.dispatch p) r) := by
  intro q
  simp only [execute, Option.some.injEq, Prod.mk.injEq] at hex
  obtain ⟨rfl, -⟩ := hex
  have hmade : Made (viewNext k V c (.dispatch p) r) q ↔ Made V q := by
    rw [viewNext_of_ne (by simp)]
    exact made_update fun _ _ => Iff.rfl
  by_cases hq : q = p
  · subst hq
    have hne : Thread.proc q ≠ k.thread c := fun ht => by
      have := Kernel.thread_eq_proc.mp ht.symm
      simp [hx.pre.1] at this
    have hproc : ((k.setMem (Xv6Cfs.dispatch k.mem q)).setRunning c (some q)).mem.proc q =
        (k.mem.proc q).setState .running := by simp [Xv6Cfs.dispatch]
    have hacc : (ℓ.record k ((k.setMem (Xv6Cfs.dispatch k.mem q)).setRunning c (some q)) c (.dispatch q)
        r).account q = (ℓ.account q).dispatch ((k.mem.proc q).setState .running) := by
      simp only [Ledger.record, Ledger.modify_account, Function.update_self,
        Ledger.setRetrieved_account, hproc]
    rw [hproc, hacc, propext hmade, viewNext_of_ne (by simp), Function.update_of_ne hne]
    exact hJ.dispatch hx (h q)
  · refine hJ.quiet (by simp) ?_ ?_ (fun _ w hw => hw ▸ ⟨rfl, rfl, rfl⟩) hmade (h q)
    · rw [Kernel.setRunning_mem, Kernel.setMem_mem, Xv6Cfs.dispatch, Mem.modify_ne _ _ hq]
    · simp [Ledger.record, hq]

/-- `allocproc` sets the fields of a new process. -/
theorem kept_init (hJ : Local P z J) (hx : Executing P z k ℓ V tr σ c e (.init p)) {r : Unit}
    (hex : execute k c e (.init p) = some (k', r)) (h : Everywhere J k ℓ V) :
    Everywhere J k' (ℓ.record k k' c (.init p) r) (viewNext k V c (.init p) r) := by
  intro q
  simp only [execute, Option.some.injEq, Prod.mk.injEq] at hex
  obtain ⟨rfl, -⟩ := hex
  obtain ⟨l, hl⟩ := List.head?_eq_some_iff.mp hx.pre.2
  have hself := hx.base.viewNext_self (r := r) hx.pre
  have hne : k.thread c ≠ .proc p := fun ht =>
    hx.base.sits.absent p (.inr (hx.base.used_of_head hx.pre.2)) c (Kernel.thread_eq_proc.mp ht)
  by_cases hq : q = p
  · subst hq
    have hmade : Made (viewNext k V c (.init q) r) q ↔ True :=
      iff_true_intro ⟨k.thread c, .initialised, by rw [hself]; simp [instrNext], by simp⟩
    have hproc : ((k.setMem (k.mem.modify q Proc.init)).setCode (.proc q) (forkret q)).mem.proc q =
        (k.mem.proc q).init := Mem.modify_self _ _ _
    have hacc : (ℓ.record k ((k.setMem (k.mem.modify q Proc.init)).setCode (.proc q) (forkret q)) c
        (.init q) r).account q = {} := by simp [Ledger.record]
    have hview : viewNext k V c (.init q) r (.proc q) =
        .resumed q (k.shared.initproc.getD q) (V (k.thread c)).nozero := by simp [viewNext]
    rw [hproc, hacc, propext hmade, hview]
    exact hJ.init hx (h q)
  · have hmade : Made (viewNext k V c (.init p) r) q ↔ Made V q := by
      have hp := (hx.base.sits.bare p (.inr (.inl (hx.base.used_of_head hx.pre.2)))).created
      refine made_congr fun t g _ => ?_
      by_cases ht : t = .proc p
      · subst ht
        simp [viewNext, View.resumed, hp]
      · by_cases ht' : t = k.thread c
        · subst ht'
          rw [hself]
          simp [instrNext, hl, hq]
        · simp [viewNext, ht, ht']
    have hother : viewNext k V c (.init p) r (.proc q) = Function.update V (k.thread c)
        (instrNext (k.running c) (.init p) (V (k.thread c)) r) (.proc q) := by
      simp [viewNext, hq]
    have hacc : (ℓ.record k ((k.setMem (k.mem.modify p Proc.init)).setCode (.proc p) (forkret p)) c
        (.init p) r).account q = ℓ.account q := by simp [Ledger.record, hq]
    rw [propext hmade, hother, hacc]
    refine hJ.links (x := k.mem.proc q) ?_ ?_
    · rw [Kernel.setCode_mem, Kernel.setMem_mem, Mem.modify_ne _ _ hq]
    · by_cases ht : Thread.proc q = k.thread c
      · have hq := h q
        rw [ht] at hq ⊢
        rw [Function.update_self]
        refine hJ.view (v := V (k.thread c)) ?_ ?_ ?_ hq <;> rfl
      · rw [Function.update_of_ne ht]
        exact h q

/-- `usertrap` reads `currentRuntime`. -/
theorem kept_runtime (hJ : Local P z J) (hx : Executing P z k ℓ V tr σ c e (.runtime p)) {r : Int}
    (hex : execute k c e (.runtime p) = some (k', r)) (h : Everywhere J k ℓ V) :
    Everywhere J k' (ℓ.record k k' c (.runtime p) r) (viewNext k V c (.runtime p) r) := by
  intro q
  simp only [execute, Option.some.injEq, Prod.mk.injEq] at hex
  obtain ⟨rfl, rfl⟩ := hex
  have hmade : Made (viewNext k V c (.runtime p) (k.mem.proc p).currentRuntime) q ↔ Made V q := by
    rw [viewNext_of_ne (by simp)]
    exact made_update fun _ _ => Iff.rfl
  by_cases hq : q = p
  · subst hq
    have ht := Kernel.thread_eq_proc.mpr hx.pre.1
    have hacc : (ℓ.record k k c (.runtime q) (k.mem.proc q).currentRuntime).account q =
        (ℓ.account q).readRuntime := by simp [Ledger.record]
    rw [hacc, propext hmade, viewNext_of_ne (by simp), ht, Function.update_self]
    exact hJ.runtime hx (h q)
  · refine hJ.quiet (by simp) rfl (by simp [Ledger.record, hq]) (fun hme => ?_) hmade (h q)
    exact absurd (Option.some.inj (hme.symm.trans hx.pre.1)) hq

/-- `checkPreemption`. -/
theorem kept_check (hJ : Local P z J) {m : Option Slot}
    (hx : Executing P z k ℓ V tr σ c e (.checkPreemption p m)) {r : Bool}
    (hex : execute k c e (.checkPreemption p m) = some (k', r)) (h : Everywhere J k ℓ V) :
    Everywhere J k' (ℓ.record k k' c (.checkPreemption p m) r)
      (viewNext k V c (.checkPreemption p m) r) := by
  intro q
  simp only [execute, Option.some.injEq, Prod.mk.injEq] at hex
  obtain ⟨rfl, rfl⟩ := hex
  have hmade : Made (viewNext k V c (.checkPreemption p m) (checkPreemption k.mem p m)) q ↔
      Made V q := by
    rw [viewNext_of_ne (by simp)]
    exact made_update fun _ _ => Iff.rfl
  by_cases hq : q = p
  · subst hq
    have ht := Kernel.thread_eq_proc.mpr hx.pre.1
    rw [propext hmade, viewNext_of_ne (by simp), ht, Function.update_self]
    exact hJ.check hx (h q)
  · refine hJ.quiet (by simp) rfl rfl (fun hme => ?_) hmade (h q)
    exact absurd (Option.some.inj (hme.symm.trans hx.pre.1)) hq

/-- A trap in user mode. -/
theorem kept_user (hJ : Local P z J) (hx : Executing P z k ℓ V tr σ c e .user) {r : Trap}
    (hex : execute k c e .user = some (k', r)) (h : Everywhere J k ℓ V) :
    Everywhere J k' (ℓ.record k k' c .user r) (viewNext k V c .user r) := by
  intro q
  simp only [execute, Option.some.injEq, Prod.mk.injEq] at hex
  obtain ⟨rfl, rfl⟩ := hex
  have hmade : Made (viewNext k V c .user e.trap) q ↔ Made V q := by
    rw [viewNext_of_ne (by simp)]
    exact made_update fun _ _ => Iff.rfl
  obtain ⟨p, hme⟩ := Option.isSome_iff_exists.mp hx.pre.1
  have hrecord : ℓ.record k (k.setIntr c false) c .user e.trap =
      ℓ.modify p (Account.trap · e.trap) := by simp [Ledger.record, hme]
  by_cases hq : q = p
  · subst hq
    have ht := Kernel.thread_eq_proc.mpr hme
    rw [hrecord, propext hmade, viewNext_of_ne (by simp), ht, Function.update_self,
      Ledger.modify_account, Function.update_self, Kernel.setIntr_mem]
    exact hJ.user hx hme (h q)
  · refine hJ.quiet (by simp) rfl (by simp [hrecord, hq]) (fun hq' => ?_) hmade (h q)
    exact absurd (Option.some.inj (hq'.symm.trans hme)) hq

/-- **What every instruction keeps of each process holds of all.** -/
theorem kept (hJ : Local P z J) : Kept P z (fun (k : Kernel n) ℓ V => Everywhere J k ℓ V) where
  boot p := by
    have hmade : ¬Made (bootView (n := n) z) p := by
      rintro ⟨t, g, hp, -⟩
      cases t <;> simp [bootView, View.resumed] at hp
    rw [eq_false hmade]
    exact hJ.boot p
  congr hshared _ _ _ h := fun p => by
    have hp := h p
    simp only [Kernel.mem] at hp ⊢
    rwa [hshared]
  tick {k ℓ V} c i hr hcore hP h := by
    intro p
    rw [Ledger.recordInterrupt_account]
    split_ifs with hme
    · obtain ⟨hme, rfl⟩ := hme
      exact hJ.tick hr hcore hP hme (h p)
    · exact h p
  instr {k k' ℓ V c e i r tr σ} hr hcore hb hP hiss hpre hex h := by
    have hx : Executing P z k ℓ V tr σ c e i := ⟨hr, hcore, hb, hP, hiss, hpre⟩
    cases i with
    | write p w => exact hJ.kept_write hx hex h
    | insert p => exact hJ.kept_insert hx hex h
    | retrieve => exact hJ.kept_retrieve hx hex h
    | dispatch p => exact hJ.kept_dispatch hx hex h
    | init p => exact hJ.kept_init hx hex h
    | runtime p => exact hJ.kept_runtime hx hex h
    | checkPreemption p m => exact hJ.kept_check hx hex h
    | user => exact hJ.kept_user hx hex h
    | acquire l =>
        simp only [execute, Option.ite_none_right_eq_some, Option.some.injEq, Prod.mk.injEq] at hex
        obtain ⟨-, rfl, -⟩ := hex
        intro q
        refine hJ.quiet (by simp) rfl (by cases l <;> rfl) (fun _ w hw => ?_) ?_ (h q)
        · simp [← hw, instrNext]
        · rw [viewNext_of_ne (by simp)]
          exact made_update fun _ _ => by simp [instrNext]
    | release l =>
        simp only [execute, Option.ite_none_right_eq_some, Option.some.injEq, Prod.mk.injEq] at hex
        obtain ⟨-, rfl, -⟩ := hex
        intro q
        refine hJ.quiet (by simp) rfl (by cases l <;> rfl) (fun _ w hw => ?_) ?_ (h q)
        · simp [← hw, instrNext]
        · rw [viewNext_of_ne (by simp)]
          exact made_update fun _ _ => by simp [instrNext]
    | stateIs p st =>
        simp only [execute, Option.some.injEq, Prod.mk.injEq] at hex
        obtain ⟨rfl, -⟩ := hex
        intro q
        refine hJ.quiet (by simp) rfl rfl (fun _ w hw => ?_) ?_ (h q)
        · subst hw
          simp only [instrNext]
          split_ifs <;> exact ⟨rfl, rfl, rfl⟩
        · rw [viewNext_of_ne (by simp)]
          refine made_update fun _ _ => ?_
          simp only [instrNext]
          split_ifs <;> exact Iff.rfl
    | pidIs p x =>
        simp only [execute, Option.some.injEq, Prod.mk.injEq] at hex
        obtain ⟨rfl, -⟩ := hex
        intro q
        refine hJ.quiet (by simp) rfl rfl (fun _ w hw => ?_) ?_ (h q)
        · subst hw
          simp only [instrNext]
          split_ifs <;> exact ⟨rfl, rfl, rfl⟩
        · rw [viewNext_of_ne (by simp)]
          refine made_update fun _ _ => ?_
          simp only [instrNext]
          split_ifs <;> exact Iff.rfl
    | switch p =>
        simp only [execute, Option.ite_none_right_eq_some, Option.some.injEq, Prod.mk.injEq] at hex
        obtain ⟨-, rfl, -⟩ := hex
        intro q
        refine hJ.quiet (by simp) rfl rfl (fun _ w hw => hw ▸ ⟨rfl, rfl, rfl⟩) ?_ (h q)
        rw [viewNext_of_ne (by simp)]
        exact made_update fun _ _ => Iff.rfl
    | initproc p =>
        simp only [execute, Option.some.injEq, Prod.mk.injEq] at hex
        obtain ⟨rfl, -⟩ := hex
        obtain ⟨l, hl⟩ := List.head?_eq_some_iff.mp hpre.2.2
        intro q
        refine hJ.quiet (by simp) rfl rfl (fun _ w hw => hw ▸ ⟨rfl, rfl, rfl⟩) ?_ (h q)
        rw [viewNext_of_ne (by simp)]
        by_cases hq : q = p
        · subst hq
          exact iff_of_true ⟨k.thread c, .adopted, by simp [instrNext], by simp⟩
            ⟨k.thread c, .initialised, by simp [hl], by simp⟩
        · exact made_update fun _ _ => by simp [instrNext, hl, hq]
    | panic => simp [execute] at hex
    | _ =>
        simp only [execute, Option.some.injEq, Prod.mk.injEq] at hex
        obtain ⟨rfl, -⟩ := hex
        intro q
        refine hJ.quiet (by simp) rfl rfl (fun _ w hw => hw ▸ ⟨rfl, rfl, rfl⟩) ?_ (h q)
        rw [viewNext_of_ne (by simp)]
        exact made_update fun _ _ => Iff.rfl

end Local

end Xv6Cfs
