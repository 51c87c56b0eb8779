import Xv6Cfs.Proof.Views

/-!
# The kernel's code keeps to the rules

One lemma for each function: from which views it may be called, and what the view
is when it returns. Nearly always it is the view before the call.
-/

namespace Xv6Cfs

open Threads Rules

variable {me : Option Slot} {v : View} {p q : Slot} {l : Lock}

/-! ## The instructions -/

section Instructions

variable {Q : Unit → View → Prop}

@[simp] theorem wp_acquire : (rules me).wp (acquire l) Q v ↔
    (Ordered me v l ∧ Unscanned me v l) ∧ Q () (v.take l) :=
  ⟨fun h => ⟨h.1, h.2 () trivial⟩, fun h => ⟨h.1, fun _ _ => h.2⟩⟩

@[simp] theorem wp_release :
    (rules me).wp (release l) Q v ↔ Releasable me v l ∧ Q () (v.drop me l) :=
  ⟨fun h => ⟨h.1, h.2 () trivial⟩, fun h => ⟨h.1, fun _ _ => h.2⟩⟩

@[simp] theorem wp_shared {Q : Shared → View → Prop} :
    (rules me).wp shared Q v ↔ ∀ s, (me.isSome → s.initproc = some v.root) → Q s v :=
  ⟨fun h s => h.2 s, fun h => ⟨trivial, fun s => h s⟩⟩

@[simp] theorem wp_stateIs {st : ProcState} {Q : Bool → View → Prop} :
    (rules me).wp (stateIs p st) Q v ↔
      ∀ r, (me = some p → v.on = true → r = decide (st = .running)) ∧
        (v.retrieved = some p → r = decide (st = .runnable)) →
        Q r (instrNext me (.stateIs p st) v r) :=
  ⟨fun h r hr => h.2 r hr, fun h => ⟨trivial, fun r hr => h r hr⟩⟩

@[simp] theorem wp_pidIs {n : Int} {Q : Bool → View → Prop} :
    (rules me).wp (pidIs p n) Q v ↔ .proc p ∈ v.held ∧
      ∀ r, Q r (if r = true then { v with named := some (p, n) } else v) :=
  ⟨fun h => ⟨h.1, fun r => h.2 r trivial⟩, fun h => ⟨h.1, fun r _ => h.2 r⟩⟩

@[simp] theorem wp_sleepsOn {chan : Option Chan} {Q : Bool → View → Prop} :
    (rules me).wp (sleepsOn p chan) Q v ↔ (.proc p ∈ v.held ∧ me ≠ some p) ∧
      ∀ r, Q r { v with
        seen := if r = true then some (p, .sleeping) else v.seen
        lore := if v.Guarded then v.lore.rouse p chan else v.lore } :=
  ⟨fun h => ⟨h.1, fun r => h.2 r trivial⟩, fun h => ⟨h.1, fun r _ => h.2 r⟩⟩

@[simp] theorem wp_procParent {Q : Option Slot → View → Prop} :
    (rules me).wp (procParent p) Q v ↔ .wait ∈ v.held ∧
      ∀ r, Q r { v with lore := v.lore.learn p r } :=
  ⟨fun h => ⟨h.1, fun r => h.2 r trivial⟩, fun h => ⟨h.1, fun r _ => h.2 r⟩⟩

@[simp] theorem wp_preempted {m : Option Slot} {Q : Bool → View → Prop} :
    (rules me).wp (preempted p m) Q v ↔ (me = some p ∧ v.on = true) ∧
      ∀ r, Q r { v with charged := v.charged && r } :=
  ⟨fun h => ⟨h.1, fun r => h.2 r trivial⟩, fun h => ⟨h.1, fun r _ => h.2 r⟩⟩

@[simp] theorem wp_runtime {Q : Int → View → Prop} :
    (rules me).wp (runtime p) Q v ↔
      (me = some p ∧ v.on = true ∧ v.reading = none ∧ v.charged = false) ∧
        ∀ r, Q r { v with reading := some r } :=
  ⟨fun h => ⟨h.1, fun r => h.2 r trivial⟩, fun h => ⟨h.1, fun r _ => h.2 r⟩⟩

@[simp] theorem wp_write {w : Write} :
    (rules me).wp (write p w) Q v ↔ writePre me v p w ∧ Q () (v.write me p w) :=
  ⟨fun h => ⟨h.1, h.2 () trivial⟩, fun h => ⟨h.1, fun _ _ => h.2⟩⟩

@[simp] theorem wp_insertLocked : (rules me).wp (insertLocked p) Q v ↔
    (.tree ∈ v.held ∧ v.pending.head? = some p) ∧
      Q () { v with pending := v.pending.tail, waking := none } :=
  ⟨fun h => ⟨h.1, h.2 () trivial⟩, fun h => ⟨h.1, fun _ _ => h.2⟩⟩

@[simp] theorem wp_retrieveLocked {Q : Option Slot → View → Prop} :
    (rules me).wp retrieveLocked Q v ↔ (.tree ∈ v.held ∧ me = none ∧ v.retrieved = none) ∧
      ∀ r, Q r { v with retrieved := r } :=
  ⟨fun h => ⟨h.1, fun r => h.2 r trivial⟩, fun h => ⟨h.1, fun r _ => h.2 r⟩⟩

@[simp] theorem wp_dispatchTo : (rules me).wp (dispatchTo p) Q v ↔
    (me = none ∧ v.held = [.proc p] ∧ v.retrieved = some p ∧ v.waking = none) ∧
      Q () { v with
        retrieved := none, seen := none, named := none, fresh := none, off := some p } :=
  ⟨fun h => ⟨h.1, h.2 () trivial⟩, fun h => ⟨h.1, fun _ _ => h.2⟩⟩

@[simp] theorem wp_switchFrom : (rules me).wp (switchFrom p) Q v ↔
    (me = some p ∧ v.held = [.proc p] ∧ v.on = false ∧ v.seen = none ∧ v.waking = none) ∧
      Q () { v with on := true, leaving := none, named := none, fresh := none } :=
  ⟨fun h => ⟨h.1, h.2 () trivial⟩, fun h => ⟨h.1, fun _ _ => h.2⟩⟩

@[simp] theorem wp_initProc : (rules me).wp (initProc p) Q v ↔
    (.proc p ∈ v.held ∧ v.created.head? = some (p, .allocated)) ∧
      Q () { v with created := (p, .initialised) :: v.created.tail } :=
  ⟨fun h => ⟨h.1, h.2 () trivial⟩, fun h => ⟨h.1, fun _ _ => h.2⟩⟩

@[simp] theorem wp_takeNextpid {Q : Int → View → Prop} :
    (rules me).wp takeNextpid Q v ↔ (.pid ∈ v.held ∧ (∃ p, .proc p ∈ v.held) ∧ v.fresh = none) ∧
      ∀ r, Q r { v with fresh := some (r, none) } :=
  ⟨fun h => ⟨h.1, fun r => h.2 r trivial⟩, fun h => ⟨h.1, fun r _ => h.2 r⟩⟩

@[simp] theorem wp_tick :
    (rules me).wp tick Q v ↔ .ticks ∈ v.held ∧ Q () { v with scan := some [] } :=
  ⟨fun h => ⟨h.1, h.2 () trivial⟩, fun h => ⟨h.1, fun _ _ => h.2⟩⟩

@[simp] theorem wp_setInitproc : (rules me).wp (setInitproc p) Q v ↔
    (me = none ∧ v.starting = true ∧ v.created.head? = some (p, .initialised)) ∧
      Q () { v with created := (p, .adopted) :: v.created.tail, starting := false } :=
  ⟨fun h => ⟨h.1, h.2 () trivial⟩, fun h => ⟨h.1, fun _ _ => h.2⟩⟩

@[simp] theorem wp_firstDone : (rules me).wp firstDone Q v ↔ Q () v :=
  ⟨fun h => h.2 () trivial, fun h => ⟨trivial, fun _ _ => h⟩⟩

@[simp] theorem wp_getIntr {Q : Bool → View → Prop} :
    (rules me).wp getIntr Q v ↔ ∀ r, Q r v :=
  ⟨fun h r => h.2 r trivial, fun h => ⟨trivial, fun r _ => h r⟩⟩

@[simp] theorem wp_setIntr {on : Bool} : (rules me).wp (setIntr on) Q v ↔ Q () v :=
  ⟨fun h => h.2 () trivial, fun h => ⟨trivial, fun _ _ => h⟩⟩

@[simp] theorem wp_cpuid {Q : Nat → View → Prop} : (rules me).wp cpuid Q v ↔ ∀ r, Q r v :=
  ⟨fun h r => h.2 r trivial, fun h => ⟨trivial, fun r _ => h r⟩⟩

@[simp] theorem wp_userMode {Q : Trap → View → Prop} :
    (rules me).wp userMode Q v ↔ instrPre me .user v ∧
      ∀ t, (v.nozero = true → t ≠ .syscall (.kill 0)) → Q t { v with due := true } :=
  ⟨fun h => ⟨h.1, fun r => h.2 r⟩, fun h => ⟨h.1, fun r => h.2 r⟩⟩

@[simp] theorem wp_choose {Q : Choice → View → Prop} :
    (rules me).wp choose Q v ↔ ∀ r, Q r v :=
  ⟨fun h r => h.2 r trivial, fun h => ⟨trivial, fun r _ => h r⟩⟩

/-- Nothing follows a panic. -/
@[simp] theorem wp_panic {α : Type} {Q : α → View → Prop} : (rules me).wp panic Q v :=
  ⟨trivial, fun r => r.elim⟩

theorem wp_callRoutine {f : Routine} {Q : Int → View → Prop} :
    (rules me).wp (invoke f) Q v ↔ routinePre me f v ∧ ∀ r, Q r (routineNext f v) := Iff.rfl

theorem wp_slot {Q : Proc → View → Prop} (hQ : ∀ x, Q x v) : (rules me).wp (slot p) Q v := by
  simp [slot, hQ]

end Instructions

/-! ## Taking and releasing a lock -/

namespace View

variable (v l me)

@[simp] theorem take_held : (v.take l).held = l :: v.held := by cases l <;> rfl
@[simp] theorem take_created : (v.take l).created = v.created := by cases l <;> rfl
@[simp] theorem take_pending : (v.take l).pending = v.pending := by cases l <;> rfl
@[simp] theorem take_waking : (v.take l).waking = v.waking := by cases l <;> rfl
@[simp] theorem take_retrieved : (v.take l).retrieved = v.retrieved := by cases l <;> rfl
@[simp] theorem take_seen : (v.take l).seen = v.seen := by cases l <;> rfl
@[simp] theorem take_named : (v.take l).named = v.named := by cases l <;> rfl
@[simp] theorem take_fresh : (v.take l).fresh = v.fresh := by cases l <;> rfl
@[simp] theorem take_on : (v.take l).on = v.on := by cases l <;> rfl
@[simp] theorem take_leaving : (v.take l).leaving = v.leaving := by cases l <;> rfl
@[simp] theorem take_off : (v.take l).off = v.off := by cases l <;> rfl
@[simp] theorem take_reading : (v.take l).reading = v.reading := by cases l <;> rfl
@[simp] theorem take_due : (v.take l).due = v.due := by cases l <;> rfl
@[simp] theorem take_charged : (v.take l).charged = v.charged := by cases l <;> rfl
@[simp] theorem take_starting : (v.take l).starting = v.starting := by cases l <;> rfl
@[simp] theorem take_root : (v.take l).root = v.root := by cases l <;> rfl
@[simp] theorem take_nozero : (v.take l).nozero = v.nozero := by cases l <;> rfl

@[simp] theorem drop_held : (v.drop me l).held = v.held.erase l := by cases l <;> rfl
@[simp] theorem drop_created : (v.drop me l).created = v.created := by cases l <;> rfl
@[simp] theorem drop_pending : (v.drop me l).pending = v.pending := by cases l <;> rfl
@[simp] theorem drop_waking : (v.drop me l).waking = v.waking := by cases l <;> rfl
@[simp] theorem drop_retrieved : (v.drop me l).retrieved = v.retrieved := by cases l <;> rfl
@[simp] theorem drop_fresh : (v.drop me l).fresh = v.fresh := by cases l <;> rfl
@[simp] theorem drop_on : (v.drop me l).on = v.on := by cases l <;> rfl
@[simp] theorem drop_reading : (v.drop me l).reading = v.reading := by cases l <;> rfl
@[simp] theorem drop_due : (v.drop me l).due = v.due := by cases l <;> rfl
@[simp] theorem drop_charged : (v.drop me l).charged = v.charged := by cases l <;> rfl
@[simp] theorem drop_starting : (v.drop me l).starting = v.starting := by cases l <;> rfl
@[simp] theorem drop_root : (v.drop me l).root = v.root := by cases l <;> rfl
@[simp] theorem drop_nozero : (v.drop me l).nozero = v.nozero := by cases l <;> rfl

end View

theorem Lock.ne_proc_of_rank (hl : l.rank < 2) (q : Slot) : l ≠ .proc q := by
  rintro rfl
  simp [Lock.rank] at hl

/-- Taking a lock that one may sleep with. -/
theorem View.take_of_rank (hl : l.rank < 2) :
    v.take l = { v with held := l :: v.held, lore := .empty } := by
  cases l <;> first | rfl | simp [Lock.rank] at hl

/-- Releasing a lock that one may sleep with. -/
theorem View.drop_of_rank (hl : l.rank < 2) :
    v.drop me l = { v with
      held := v.held.erase l, lore := .empty
      leaving := if View.Leaving me v then some l else v.leaving
      scan := if l = .ticks then none else v.scan } := by
  cases l <;> first | rfl | simp [Lock.rank] at hl

theorem View.guarded_take_proc : (v.take (.proc p)).Guarded ↔ v.Guarded := by
  simp [View.Guarded, Lock.rank]

theorem ordered_nil (h : v.held = []) : Ordered me v l := by
  simp [Ordered, h]

theorem ordered_of_rank (h : ∀ x ∈ v.held, x.rank < l.rank) : Ordered me v l := .inl h

theorem unscanned_of_ne (h : ∀ p, l ≠ .proc p) : Unscanned me v l := fun p hp => absurd hp (h p)

theorem unscanned_of_ticks (h : Lock.ticks ∉ v.held) : Unscanned me v l :=
  fun _ _ ht => absurd ht h

theorem unscanned_self (h : me = some p) : Unscanned me v (.proc p) :=
  fun _ hq _ => .inl (Lock.proc.inj hq ▸ h)

theorem releasable (hs : Settled v) (hl : l ∈ v.held) (hw : l ≠ .wait) : Releasable me v l where
  held := hl
  on _ _ _ := hs.on
  seen := by simp [hs.seen]
  waking := hs.waking
  fresh _ := hs.fresh
  wait h := absurd h hw

theorem releasable_wait (hs : Settled v) (hl : .wait ∈ v.held) (hp : ∀ p, .proc p ∉ v.held)
    (hpaid : v.lore.Paid) : Releasable me v .wait where
  held := hl
  on _ h := by simp at h
  seen := by simp [hs.seen]
  waking := hs.waking
  fresh _ := hs.fresh
  wait _ := ⟨hpaid, fun p _ h => absurd h (hp p)⟩

theorem Settled.take (hs : Settled v) : Settled (v.take l) where
  waking := by simp [hs.waking]
  seen := by simp [hs.seen]
  named := by simp [hs.named]
  fresh := by simp [hs.fresh]
  on := by simp [hs.on]
  leaving := by simp [hs.leaving]
  off := by simp [hs.off]
  scan := by cases l <;> simp [View.take, hs.scan]

theorem paid_empty : Lore.empty.Paid := by simp [Lore.Paid, Lore.empty]

/-- A `p->lock` that was taken and released again leaves a trace in a scan only. -/
theorem View.drop_take_proc (hs : Settled { v with scan := none }) :
    (v.take (.proc p)).drop me (.proc p) = { v with scan := v.scan.map (p :: ·) } := by
  obtain ⟨-, hseen, hnamed, -, -, hleaving, hoff, -⟩ := hs
  simp only at hseen hnamed hleaving hoff
  ext1 <;> simp [View.take, View.drop, *]

theorem View.drop_take_proc_self (hs : Settled v) :
    (v.take (.proc p)).drop me (.proc p) = v := by
  have hscan : { v with scan := none } = v := by ext1 <;> simp [hs.scan]
  rw [View.drop_take_proc (hscan.symm ▸ hs), hs.scan]
  exact hscan

/-! ## The run queue, switching and sleeping -/

theorem wp_callInsertProcess {Q : Unit → View → Prop} (hheld : ∀ h ∈ v.held, h.rank < 3)
    (hseen : ∀ q, v.seen ≠ some (q, .sleeping)) (hfresh : v.fresh = none)
    (hp : v.pending.head? = some p)
    (hQ : Q () { v with pending := v.pending.tail, waking := none }) :
    (rules me).wp (callInsertProcess p) Q v := by
  simp only [callInsertProcess, wp_bind, wp_acquire, wp_insertLocked, wp_release]
  refine ⟨⟨ordered_of_rank hheld, unscanned_of_ne (by simp)⟩, ⟨by simp, by simpa using hp⟩,
    ⟨by simp, by simp, by simpa using hseen, rfl, by simp [hfresh], by simp⟩, ?_⟩
  simpa [View.take, View.drop] using hQ

theorem wp_callRetrieveProcess {Q : Option Slot → View → Prop} (hme : me = none)
    (hf : Free v) (hr : v.retrieved = none) (hQ : ∀ r, Q r { v with retrieved := r }) :
    (rules me).wp callRetrieveProcess Q v := by
  simp only [callRetrieveProcess, wp_bind, wp_acquire, wp_retrieveLocked, wp_release, wp_pure]
  refine ⟨⟨ordered_nil hf.held, unscanned_of_ne (by simp)⟩, ⟨by simp, hme, by simpa using hr⟩,
    fun r => ⟨⟨by simp, by simp, by simp [hf.seen], by simp [hf.waking], by simp [hf.fresh],
      by simp⟩, ?_⟩⟩
  simpa [View.take, View.drop] using hQ r

theorem wp_sched {Q : Unit → View → Prop} (hme : me = some p) (hheld : v.held = [.proc p])
    (hon : v.on = false) (hseen : v.seen = none) (hwaking : v.waking = none)
    (hQ : Q () { v with on := true, leaving := none, named := none, fresh := none }) :
    (rules me).wp (sched p) Q v := by
  simp only [sched, wp_bind, wp_getIntr, wp_switchFrom, wp_setIntr]
  exact fun _ => ⟨⟨hme, hheld, hon, hseen, hwaking⟩, hQ⟩

theorem wp_callCheckPreemption {Q : Bool → View → Prop} (hme : me = some p) (hon : v.on = true)
    (hQ : ∀ b, Q b { v with charged := v.charged && b }) :
    (rules me).wp (callCheckPreemption p) Q v := by
  simp only [callCheckPreemption, wp_bind, wp_shared, wp_preempted]
  exact fun _ _ => ⟨⟨hme, hon⟩, hQ⟩

theorem wp_giveUp {Q : Unit → View → Prop} (hme : me = some p) (hheld : v.held = [.proc p])
    (hs : Settled v) (hQ : Q () { v with charged := false }) : (rules me).wp (giveUp p) Q v := by
  simp only [giveUp, wp_bind, wp_write]
  refine ⟨⟨by simp [hheld], hs.on, hs.waking, .inr ⟨hme, hs.leaving⟩⟩, ?_⟩
  refine wp_callInsertProcess (by simp [View.write, hheld, Lock.rank]) (by simp [View.write])
    hs.fresh rfl ?_
  refine wp_sched hme (by simp [View.write, hheld]) (by simp [View.write, hme]) rfl rfl ?_
  convert hQ using 1
  ext1 <;> simp [View.write, hme, hs.on, hs.seen, hs.waking, hs.leaving, hs.named, hs.fresh]

/-- **`yield`.** -/
theorem wp_yieldCpu {Q : Unit → View → Prop} (hme : me = some p) (hf : Free v)
    (hQ : Q () { v with charged := false }) : (rules me).wp (yieldCpu p) Q v := by
  have hs : ∀ b, Settled { v.take (.proc p) with charged := b } := fun b => by
    obtain ⟨h1, h2, h3, h4, h5, h6, h7, h8⟩ := hf.toSettled.take (l := .proc p)
    exact ⟨h1, h2, h3, h4, h5, h6, h7, h8⟩
  have hback : ({ v.take (.proc p) with charged := false }).drop me (.proc p) =
      { v with charged := false } := by
    ext1 <;> simp [View.take, View.drop, hf.seen, hf.named, hf.leaving, hf.off, hf.scan]
  simp only [yieldCpu, wp_bind, wp_acquire, wp_release]
  refine ⟨⟨ordered_nil hf.held, unscanned_self hme⟩,
    wp_callCheckPreemption hme (by simp [hf.on]) fun b => ?_⟩
  cases b with
  | false =>
      simp only [Bool.false_eq_true, if_false, wp_pure, Bool.and_false]
      exact ⟨releasable (hs _) (by simp) (by simp), hback ▸ hQ⟩
  | true =>
      simp only [if_true]
      refine wp_giveUp hme (by simp [hf.held]) (hs _) ?_
      exact ⟨releasable (hs _) (by simp) (by simp), hback ▸ hQ⟩

/-- **`sleep`.** -/
theorem wp_sleep {chan : Chan} {Q : Unit → View → Prop} (hme : me = some p)
    (hheld : v.held = [l]) (hl : l.rank < 2) (hs : Settled v)
    (hwait : l = .wait → v.lore.Paid ∧ v.lore.NoZombieChild p)
    (hchan : ∀ q, chan = .proc q → q = p ∧ l = .wait) (hQ : Q () { v with lore := .empty }) :
    (rules me).wp (sleep p chan l) Q v := by
  have hne := Lock.ne_proc_of_rank hl
  have herase : [Lock.proc p, l].erase l = [.proc p] := by simp [(hne p).symm]
  have hleaving : View.Leaving me (v.take (.proc p)) :=
    ⟨by simp [hs.on], p, hme, by simp⟩
  have hrel : Releasable me (v.take (.proc p)) l := by
    refine ⟨by simp [hheld], fun q hq => absurd hq (hne q), by simp [hs.seen],
      by simp [hs.waking], by simp [hs.fresh], ?_⟩
    rintro rfl
    refine ⟨(hwait rfl).1, fun q hq _ _ => ?_⟩
    obtain rfl : p = q := by simpa [hme] using hq
    exact (hwait rfl).2
  simp only [sleep, wp_bind, wp_acquire, wp_release, wp_write, View.drop_of_rank hl,
    View.take_of_rank hl]
  refine ⟨⟨ordered_of_rank ?_, unscanned_self hme⟩, hrel, ⟨?_, ?_, hme, l, ?_, hchan⟩,
    wp_sched hme ?_ rfl ?_ ?_ ⟨⟨?_, rfl, hme⟩, ?_, ⟨ordered_nil ?_, unscanned_of_ne hne⟩, ?_⟩⟩
  · simpa [hheld, Lock.rank] using hl
  · simp [hheld, herase]
  · simp [hs.on]
  · simp [hleaving]
  · simp [View.write, hheld, herase]
  · simp [View.write]
  · simp [View.write, hs.waking]
  · simp [View.write, hheld, herase]
  · refine ⟨by simp [View.write, hheld, herase], fun _ _ _ => rfl, ?_, ?_, ?_, by simp⟩
    · simp [View.write]
    · simp [View.write, hs.waking]
    · simp [View.write, hs.fresh]
  · simp [View.write, hheld, herase]
  · convert hQ using 1
    ext1 <;> simp [View.write, View.take, View.drop, hheld, herase, hs.seen, hs.on, hs.named,
      hs.leaving, hs.off, hs.scan, hs.fresh]

/-! ## Waking -/

theorem wp_wake {Q : Unit → View → Prop} (hme : me ≠ some p) (hp : .proc p ∈ v.held)
    (hheld : ∀ h ∈ v.held, h.rank < 3) (hon : v.on = true) (hwaking : v.waking = none)
    (hfresh : v.fresh = none) (hseen : v.seen = some (p, .sleeping))
    (hQ : Q () { v with seen := none }) : (rules me).wp (wake p) Q v := by
  simp only [wake, wp_bind, wp_write]
  refine ⟨⟨hp, hon, hwaking, .inl hseen⟩,
    wp_callInsertProcess hheld (by simp [View.write]) hfresh rfl ?_⟩
  simpa [View.write, hme, hwaking] using hQ

/-- One turn of the loop of `wakeup`. -/
theorem wp_wakeupOne {chan : Option Chan} {Q : Unit → View → Prop}
    (hheld : ∀ h ∈ v.held, h.rank < 2) (hs : Settled { v with scan := none })
    (hscan : Unscanned me v (.proc p)) (hself : some p = me → Q () v)
    (hQ : Q () { v with
      scan := v.scan.map (p :: ·)
      lore := if v.Guarded then v.lore.rouse p chan else v.lore }) :
    (rules me).wp (wakeupOne me chan p) Q v := by
  obtain ⟨hwaking, hseen, hnamed, hfresh, hon, hleaving, hoff, -⟩ := hs
  simp only at hwaking hseen hnamed hfresh hon hleaving hoff
  unfold wakeupOne
  split
  · rename_i h
    exact hself h
  · rename_i hne
    have hrank : ∀ h ∈ (v.take (.proc p)).held, h.rank < 3 := by
      intro h hh
      rw [View.take_held] at hh
      rcases List.mem_cons.mp hh with rfl | hh
      · simp [Lock.rank]
      · have := hheld h hh
        omega
    simp only [wp_bind, wp_acquire, wp_release, wp_sleepsOn, View.guarded_take_proc]
    refine ⟨⟨ordered_of_rank hheld, hscan⟩, ⟨by simp, Ne.symm hne⟩, fun r => ?_⟩
    cases r with
    | false =>
        simp only [Bool.false_eq_true, if_false, wp_pure]
        refine ⟨⟨by simp, by simp [hon], by simp [hseen], by simp [hwaking], by simp [hfresh],
          by simp⟩, ?_⟩
        convert hQ using 1
        ext1 <;> simp [View.take, View.drop, *]
    | true =>
        simp only [if_true]
        refine wp_wake (Ne.symm hne) (by simp) hrank (by simp [hon]) (by simp [hwaking])
          (by simp [hfresh]) rfl
          ⟨⟨by simp, by simp [hon], by simp, by simp [hwaking], by simp [hfresh], by simp⟩, ?_⟩
        convert hQ using 1
        ext1 <;> simp [View.take, View.drop, *]

/-- What `wakeup` adds to what the thread knows. -/
structure Roused (me : Option Slot) (v : View) (chan : Option Chan)
    (rs : List (Slot × Option Chan)) : Prop where
  same : ¬v.Guarded → rs = v.lore.roused
  mono : ∀ x ∈ v.lore.roused, x ∈ rs
  all : v.Guarded → ∀ q, some q ≠ me → (q, chan) ∈ rs

/-- **`wakeup`, as the scan of `clockintr` sees it.** -/
theorem wp_wakeup_scan {chan : Option Chan} {Q : Unit → View → Prop}
    (hheld : ∀ h ∈ v.held, h.rank < 2) (hs : Settled { v with scan := none })
    (hscan : Lock.ticks ∈ v.held → v.scan = some []) (hnone : v.scan.isSome → v.scan = some [])
    (hQ : ∀ s rs, (v.scan = none → s = none) → Roused me v chan rs →
      Q () { v with scan := s, lore := { v.lore with roused := rs } }) :
    (rules me).wp (wakeup me chan) Q v := by
  -- `ps` is what is left of the process table.
  let Inv (ps : List Slot) (u : View) : Prop := ∃ s rs,
    u = { v with scan := s, lore := { v.lore with roused := rs } } ∧
    (v.scan = none ↔ s = none) ∧ ps.Nodup ∧ (∀ qs, s = some qs → ∀ p ∈ ps, p ∉ qs) ∧
    (¬v.Guarded → rs = v.lore.roused) ∧ (∀ x ∈ v.lore.roused, x ∈ rs) ∧
    (v.Guarded → ∀ q, some q ≠ me → q ∉ ps → (q, chan) ∈ rs)
  have hstep : ∀ p ps u, Inv (p :: ps) u →
      (rules me).wp (wakeupOne me chan p) (fun _ => Inv ps) u := by
    rintro p ps _ ⟨s, rs, rfl, hs', hnd, hfresh, hsame, hmono, hall⟩
    obtain ⟨hp, hnd⟩ := List.nodup_cons.mp hnd
    refine wp_wakeupOne hheld ⟨hs.waking, hs.seen, hs.named, hs.fresh, hs.on, hs.leaving, hs.off,
      rfl⟩ ?_ ?_ ?_
    · intro q hq hticks
      obtain rfl := Lock.proc.inj hq
      cases hcase : s with
      | none => simp [hscan hticks, hcase] at hs'
      | some qs => exact .inr ⟨qs, rfl, hfresh qs hcase p (by simp)⟩
    · intro hself
      refine ⟨s, rs, rfl, hs', hnd, fun qs hqs q hq => hfresh qs hqs q (by simp [hq]), hsame, hmono,
        fun hg q hq hmem => hall hg q hq ?_⟩
      rw [List.mem_cons, not_or]
      exact ⟨fun e => hq (e ▸ hself), hmem⟩
    · have hguard : ({ v with scan := s, lore := { v.lore with roused := rs } } : View).Guarded ↔
          v.Guarded := Iff.rfl
      refine ⟨s.map (p :: ·), if v.Guarded then (p, chan) :: rs else rs, ?_, by simp [hs'], hnd,
        ?_, fun hg => ?_, fun x hx => ?_, fun hg q hq hmem => ?_⟩
      · simp only [hguard]
        split <;> rfl
      · intro qs hqs q hq
        obtain ⟨qs', hqs', rfl⟩ := Option.map_eq_some_iff.mp hqs
        have hne : q ≠ p := fun e => hp (e ▸ hq)
        simp [hne, hfresh qs' hqs' q (by simp [hq])]
      · rw [if_neg hg]
        exact hsame hg
      · have := hmono x hx
        split <;> simp [this]
      · rw [if_pos hg]
        by_cases hqp : q = p
        · simp [hqp]
        · have := hall hg q hq (by simp [hqp, hmem])
          simp [this]
  have hinit : Inv slots v := by
    refine ⟨v.scan, v.lore.roused, rfl, Iff.rfl, List.nodup_finRange _, ?_, fun _ => rfl,
      fun _ h => h, fun _ q _ hq => absurd (List.mem_finRange q) hq⟩
    intro qs hqs p _
    have := hnone (by simp [hqs])
    simp_all
  refine wp_mono (wp_forEach Inv hstep hinit) ?_
  rintro _ _ ⟨s, rs, rfl, hs', -, -, hsame, hmono, hall⟩
  exact hQ s rs hs'.mp ⟨hsame, hmono, fun hg q hq => hall hg q hq (by simp)⟩

/-- **`wakeup`.** -/
theorem wp_wakeup {chan : Option Chan} {Q : Unit → View → Prop}
    (hheld : ∀ h ∈ v.held, h.rank < 2) (hticks : Lock.ticks ∉ v.held) (hs : Settled v)
    (hQ : ∀ rs, Roused me v chan rs → Q () { v with lore := { v.lore with roused := rs } }) :
    (rules me).wp (wakeup me chan) Q v := by
  have hscan : ∀ x, { v with scan := none, lore := x } = { v with lore := x } := by
    intro x
    ext1 <;> simp [hs.scan]
  refine wp_wakeup_scan hheld ⟨hs.waking, hs.seen, hs.named, hs.fresh, hs.on, hs.leaving, hs.off,
    rfl⟩ (fun h => absurd h hticks) (by simp [hs.scan]) fun s rs h hr => ?_
  rw [h hs.scan, hscan]
  exact hQ rs hr

/-- `wakeup` without a lock that one may sleep with. -/
theorem wp_wakeup_free {chan : Option Chan} {Q : Unit → View → Prop} (hf : Free v) (hQ : Q () v) :
    (rules me).wp (wakeup me chan) Q v := by
  refine wp_wakeup (by simp [hf.held]) (by simp [hf.held]) hf.toSettled fun rs hr => ?_
  rw [hr.same (by simp [View.Guarded, hf.held])]
  exact hQ

/-- **`clockintr`.** -/
theorem wp_clockintr {Q : Unit → View → Prop} (hf : Free v) (hQ : Q () v) :
    (rules me).wp (clockintr me) Q v := by
  obtain ⟨⟨h1, h2, h3, h4, h5, h6, h7, h8⟩, hheld, hlore⟩ := hf
  simp only [clockintr, wp_bind, wp_cpuid]
  intro id
  split
  · simp only [wp_bind, wp_acquire, wp_tick, wp_release]
    refine ⟨⟨ordered_nil hheld, unscanned_of_ne (by simp)⟩, by simp, ?_⟩
    refine wp_wakeup_scan (by simp [hheld, Lock.rank])
      ⟨by simpa using h1, by simpa using h2, by simpa using h3, by simpa using h4,
        by simpa using h5, by simpa using h6, by simpa using h7, rfl⟩ (fun _ => rfl)
      (fun _ => rfl) fun s rs _ _ =>
        ⟨⟨by simp, by simp, by simp [h2], by simp [h1], by simp [h4], by simp⟩, ?_⟩
    convert hQ using 1
    ext1 <;> simp [View.drop, View.Leaving, *]
  · exact hQ

theorem wp_killFound {Q : Unit → View → Prop} {n : Int} (hheld : v.held = [.proc p])
    (hs : Settled { v with named := none }) (hn : v.named = some (p, n))
    (hzero : v.nozero = true → n ≠ 0) (hQ : Q () v) : (rules me).wp (killFound p) Q v := by
  have hp : Lock.proc p ∈ v.held := by simp [hheld]
  have hseen : v.seen = none := hs.seen
  have hnone : { v with seen := none } = v := by ext1 <;> simp [hseen]
  simp only [killFound, wp_bind, wp_write, wp_stateIs]
  refine ⟨⟨hp, .inr ⟨hs.fresh, n, hn, hzero⟩⟩, fun r hr => ?_⟩
  cases r with
  | false => simpa [instrNext, View.write, wp_pure] using hQ
  | true =>
      have hme : me ≠ some p := fun e => by simpa using hr.1 e hs.on
      simp only [instrNext, View.write, hp, if_true]
      refine wp_wake hme hp ?_ hs.on hs.waking hs.fresh rfl (hnone.symm ▸ hQ)
      simp [hheld, Lock.rank]

/-- **`kill`.** -/
theorem wp_killFrom {pid : Int} {ps : List Slot} {Q : Int → View → Prop} (hf : Free v)
    (hzero : v.nozero = true → pid ≠ 0) (hQ : ∀ r, Q r v) :
    (rules me).wp (killFrom pid ps) Q v := by
  induction ps with
  | nil => exact hQ _
  | cons p ps ih =>
      have hs := hf.toSettled.take (l := .proc p)
      simp only [killFrom, wp_bind, wp_acquire, wp_pidIs]
      refine ⟨⟨ordered_nil hf.held, unscanned_of_ticks (by simp [hf.held])⟩, by simp, fun r => ?_⟩
      cases r with
      | true =>
          simp only [if_true, wp_bind, wp_release, wp_pure]
          refine wp_killFound (by simp [hf.held])
            ⟨hs.waking, hs.seen, rfl, hs.fresh, hs.on, hs.leaving, hs.off, hs.scan⟩ rfl
            (by simpa using hzero)
            ⟨⟨by simp, fun _ _ _ => hs.on, ?_, hs.waking, fun _ => hs.fresh, by simp⟩, ?_⟩
          · simp [hf.seen]
          · convert hQ 0 using 1
            ext1 <;> simp [View.take, View.drop, hf.seen, hf.named, hf.leaving, hf.off, hf.scan]
      | false =>
          simp only [Bool.false_eq_true, if_false, wp_bind, wp_release]
          refine ⟨releasable hs (by simp) (by simp), ?_⟩
          rw [View.drop_take_proc_self hf.toSettled]
          exact ih

theorem wp_setkilled {Q : Unit → View → Prop} (hme : me = some p) (hf : Free v) (hQ : Q () v) :
    (rules me).wp (setkilled p) Q v := by
  have hs := hf.toSettled.take (l := .proc p)
  simp only [setkilled, wp_bind, wp_acquire, wp_write, wp_release]
  refine ⟨⟨ordered_nil hf.held, unscanned_self hme⟩, ⟨by simp, .inl ⟨hs.on, hme⟩⟩,
    releasable (v := v.take (.proc p)) hs (by simp) (by simp), ?_⟩
  have hwrite : View.write me (v.take (.proc p)) p .kill = v.take (.proc p) := rfl
  rw [hwrite, View.drop_take_proc_self hf.toSettled]
  exact hQ

/-- **`killed`.** -/
theorem wp_killed {Q : Bool → View → Prop} (hme : me = some p)
    (hheld : ∀ h ∈ v.held, h.rank < 2) (hs : Settled v) (hQ : ∀ b, Q b v) :
    (rules me).wp (killed p) Q v := by
  simp only [killed, wp_bind, wp_acquire, wp_release, wp_pure]
  refine ⟨⟨ordered_of_rank hheld, unscanned_self hme⟩, wp_slot fun x =>
    ⟨releasable hs.take (by simp) (by simp), ?_⟩⟩
  rw [View.drop_take_proc_self hs]
  exact hQ _

theorem wp_outside {canSleep : Bool} {Q : Unit → View → Prop} (hf : Free v) (hQ : Q () v) :
    (rules me).wp (outside me canSleep) Q v :=
  ⟨⟨rfl, hf⟩, fun _ => hQ⟩

/-! ## Creating processes -/

theorem wp_allocpid {Q : Int → View → Prop} (hheld : ∀ h ∈ v.held, h.rank < 3)
    (hp : .proc p ∈ v.held) (hseen : ∀ q, v.seen ≠ some (q, .sleeping)) (hwaking : v.waking = none)
    (hfresh : v.fresh = none) (hQ : ∀ r, Q r { v with fresh := some (r, none) }) :
    (rules me).wp allocpid Q v := by
  simp only [allocpid, wp_bind, wp_acquire, wp_takeNextpid, wp_release, wp_pure]
  refine ⟨⟨ordered_of_rank hheld, unscanned_of_ne (by simp)⟩, ⟨by simp, ⟨p, by simp [hp]⟩, by simpa using hfresh⟩,
    fun r => ⟨⟨by simp, by simp, by simpa using hseen, by simpa using hwaking, by simp, by simp⟩,
      ?_⟩⟩
  simpa [View.take, View.drop] using hQ r

/-- The view of a thread without locks while it makes `p`. -/
def View.making (v : View) (p : Slot) (g : Stage) : View :=
  { v with held := [.proc p], created := (p, g) :: v.created }

/-- A process that is given back. -/
theorem wp_giveBack {g : Stage} {Q : Unit → View → Prop} (hf : Free v) (hg : g ≠ .adopted)
    (hQ : Q () v) : (rules me).wp (giveBack p) Q (v.making p g) := by
  simp only [giveBack, wp_bind, wp_write, wp_release]
  refine ⟨⟨by simp [View.making], hf.on, .inr ⟨hf.seen, g, hg, rfl⟩⟩,
    ⟨by simp [View.write, View.making], fun _ _ _ => hf.on, by simp [View.write], hf.waking,
      fun _ => hf.fresh, by simp⟩, ?_⟩
  convert hQ using 1
  ext1 <;> simp [View.write, View.making, View.drop, hf.seen, hf.scan, hf.held, hf.named,
    hf.leaving, hf.off, hf.lore, Lore.empty]

/-- `allocproc` once a slot has been found. -/
theorem wp_allocFound {Q : Option Slot → View → Prop} (hf : Free v)
    (hme : me = none → v.starting = true ∧ v.created = []) (hnone : Q none v)
    (hsome : Q (some p) (v.making p .initialised)) :
    (rules me).wp (allocFound p) Q { v with held := [.proc p], seen := some (p, .unused) } := by
  simp only [allocFound, wp_bind]
  refine wp_allocpid (p := p) (by simp [Lock.rank]) (by simp) (by simp) hf.waking hf.fresh fun pid => ?_
  simp only [wp_write, wp_choose]
  refine ⟨⟨by simp, rfl, rfl⟩, ⟨⟨by simp [View.write], hf.on, rfl⟩, ⟨pid, rfl⟩, hme⟩,
    fun trapframe => ?_⟩
  have hview : View.write me (View.write me { v with
        held := [.proc p], seen := some (p, .unused), fresh := some (pid, none) } p (.pid pid)) p
        .used = v.making p .allocated := by
    ext1 <;> simp [View.write, View.making, hf.seen, hf.fresh, hf.named]
  rw [hview]
  split
  · simp only [wp_bind, wp_pure]
    exact wp_giveBack hf (by simp) hnone
  · simp only [wp_bind, wp_choose]
    intro pagetable
    split
    · simp only [wp_bind, wp_pure]
      exact wp_giveBack hf (by simp) hnone
    · simp only [wp_bind, wp_initProc, wp_pure]
      exact ⟨⟨by simp [View.making], rfl⟩, hsome⟩

/-- **`allocproc`.** -/
theorem wp_allocFrom {ps : List Slot} {Q : Option Slot → View → Prop} (hf : Free v)
    (hme : me = none → v.starting = true ∧ v.created = []) (hnone : Q none v) (hsome : ∀ p, Q (some p) (v.making p .initialised)) :
    (rules me).wp (allocFrom ps) Q v := by
  induction ps with
  | nil => exact hnone
  | cons p ps ih =>
      simp only [allocFrom, wp_bind, wp_acquire, wp_stateIs]
      refine ⟨⟨ordered_nil hf.held, unscanned_of_ticks (by simp [hf.held])⟩, fun r _ => ?_⟩
      cases r with
      | false =>
          have hview : instrNext me (.stateIs p .unused) (v.take (.proc p)) false =
              v.take (.proc p) := by
            simp [instrNext]
          simp only [hview, Bool.false_eq_true, if_false, wp_bind, wp_release]
          refine ⟨releasable hf.take (by simp) (by simp), ?_⟩
          rw [View.drop_take_proc_self hf.toSettled]
          exact ih
      | true =>
          simp only [if_true]
          convert wp_allocFound hf hme hnone (hsome p) using 1
          ext1 <;> simp [instrNext, View.take, hf.scan, hf.held]

theorem wp_forkCopied {np : Slot} {Q : Int → View → Prop} (hme : me = some p) (hf : Free v)
    (hQ : ∀ r, Q r v) : (rules me).wp (forkCopied p np) Q (v.making np .initialised) := by
  subst hme
  have hseen := hf.seen
  have hwaking := hf.waking
  have hon := hf.on
  have hfresh := hf.fresh
  simp only [forkCopied, wp_bind, wp_release, wp_acquire, wp_write, wp_pure]
  refine wp_slot fun x => ⟨⟨by simp [View.making], fun _ _ _ => hon, by simp [View.making, hseen],
      hwaking, fun _ => hfresh, by simp⟩, ⟨ordered_nil (by simp [View.making]), unscanned_of_ne (by simp)⟩,
    ⟨by simp, rfl, .inl ⟨rfl, by simp [View.making]⟩⟩, ⟨by simp [View.write], by simp, ?_, ?_, fun _ => hfresh, ?_⟩,
    ⟨ordered_nil (by simp [View.write, View.making]), unscanned_of_ticks (by
      simp [View.write, View.making])⟩, ⟨by simp, ?_, ?_⟩, ⟨by simp [View.write], ?_, ?_, ?_,
      fun _ => hfresh, by simp⟩, ?_⟩
  · simp [View.write, View.drop]
  · simp [View.write, View.making, hwaking]
  · intro _
    refine ⟨?_, fun q _ h => ?_⟩
    · simp [View.write, Lore.adopt, View.take, Lore.Paid, Lore.empty]
    · simp [View.write, View.making] at h
  · simpa [View.write, View.making, hwaking] using hon
  · simp [View.write]
  · intro _ _ _
    simpa [View.write, View.making] using hon
  · simp [View.write, View.drop]
  · simp [View.write, View.making, hwaking]
  · refine wp_callInsertProcess (by simp [View.write, View.making]) (by simp [View.drop]) hfresh
      rfl ?_
    convert hQ _ using 1
    ext1 <;> simp [View.write, View.making, View.take, View.drop, View.Leaving, hf.held, hf.seen,
      hf.scan, hf.named, hf.leaving, hf.off, hf.lore, hf.waking]

/-- **`fork`.** -/
theorem wp_fork {Q : Int → View → Prop} (hme : me = some p) (hf : Free v) (hQ : ∀ r, Q r v) :
    (rules me).wp (fork p) Q v := by
  simp only [fork, wp_bind]
  refine wp_allocFrom hf (by simp [hme]) (hQ _) fun np => ?_
  simp only [wp_bind, wp_choose]
  intro uvmcopy
  split
  · simp only [wp_bind, wp_pure]
    exact wp_giveBack hf (by simp) (hQ _)
  · exact wp_forkCopied hme hf hQ

/-- **`userinit`.** -/
theorem wp_userinit {Q : Unit → View → Prop} (hme : me = none) (hf : Free v)
    (hstart : v.starting = true) (hcreated : v.created = []) (hQ : Q () { v with starting := false }) :
    (rules me).wp userinit Q v := by
  have hwaking := hf.waking
  have hseen := hf.seen
  have hfresh := hf.fresh
  simp only [userinit, wp_bind]
  refine wp_allocFrom hf (fun _ => ⟨hstart, hcreated⟩) wp_panic fun p => ?_
  simp only [wp_bind, wp_setInitproc, wp_write, wp_release]
  refine ⟨⟨hme, hstart, rfl⟩, ⟨by simp [View.making], ⟨hf.on, hwaking⟩, rfl⟩, wp_callInsertProcess ?_ ?_ hfresh
    rfl ⟨⟨?_, fun _ _ _ => hf.on, ?_, rfl, fun _ => hfresh, by simp⟩, ?_⟩⟩
  · simp [View.write, View.making, Lock.rank]
  · simp [View.write, View.making, hseen]
  · simp [View.write, View.making]
  · simp [View.write, View.making, hseen]
  · convert hQ using 1
    ext1 <;> simp [View.write, View.making, View.drop, hf.held, hf.seen, hf.named, hf.leaving,
      hf.off, hf.waking]

/-! ## Ending processes -/

/-- **`reparent`**: no child is left, and who was given one is awake. -/
theorem wp_reparent {Q : Unit → View → Prop} (hme : me = some p) (hroot : v.root ≠ p)
    (hheld : v.held = [.wait]) (hs : Settled v) (hpaid : v.lore.Paid)
    (hQ : ∀ x : Lore, x.Childless p → x.Paid → Q () { v with lore := x }) :
    (rules me).wp (reparent p) Q v := by
  subst hme
  -- `ps` is what is left of the process table.
  let Inv (ps : List Slot) (u : View) : Prop := ∃ x : Lore, u = { v with lore := x } ∧
    (∀ q, q ∉ ps → ∃ r, (q, r) ∈ x.parents ∧ r ≠ some p) ∧ x.Paid
  have hstep : ∀ pp ps u, Inv (pp :: ps) u →
      (rules (some p)).wp (reparentOne p pp) (fun _ => Inv ps) u := by
    rintro pp ps _ ⟨x, rfl, hknown, hpaid⟩
    simp only [reparentOne, wp_bind, wp_procParent]
    refine ⟨by simp [hheld], fun r => ?_⟩
    split
    · rename_i hr
      simp only [wp_bind, wp_shared, wp_write]
      intro s hinit
      have hinit : s.initproc = some v.root := hinit rfl
      refine ⟨⟨by simp [hheld], rfl, .inr ⟨by simp [hinit, hroot], hinit, by simp [hr]⟩⟩, ?_⟩
      have hs' : ∀ y, Settled { v with lore := y } := fun y =>
        ⟨hs.waking, hs.seen, hs.named, hs.fresh, hs.on, hs.leaving, hs.off, hs.scan⟩
      have hview : View.write (some p) { v with lore := x.learn pp r } pp (.parent s.initproc) =
          { v with lore := (x.learn pp r).adopt pp (some v.root) true } := by
        simp [View.write, hinit, hroot]
      rw [hview]
      refine wp_wakeup (by simp [hheld, Lock.rank]) (by simp [hheld]) (hs' _) fun rs hr => ?_
      refine ⟨_, rfl, fun q hq => ?_, fun q hq => ?_⟩
      · by_cases hqp : q = pp
        · exact ⟨some v.root, by simp [hqp], by simp [hroot]⟩
        · obtain ⟨r', hr', hne⟩ := hknown q (by simp [hq, hqp])
          exact ⟨r', by simp [hr', hqp], hne⟩
      · simp only [Lore.adopt_owing, if_true, Option.toList_some, Lore.learn_owing, List.mem_append,
          List.mem_singleton] at hq
        rcases hq with rfl | hq
        · have := hr.all ⟨.wait, by simp [hheld], by simp [Lock.rank]⟩ v.root (by simp [hroot])
          simpa [hinit] using this
        · exact hr.mono _ (hpaid q hq)
    · rename_i hr
      refine ⟨_, rfl, fun q hq => ?_, hpaid⟩
      by_cases hqp : q = pp
      · exact ⟨r, by simp [hqp], hr⟩
      · obtain ⟨r', hr', hne⟩ := hknown q (by simp [hq, hqp])
        exact ⟨r', by simp [hr'], hne⟩
  have hinit : Inv slots v :=
    ⟨v.lore, rfl, fun q hq => absurd (List.mem_finRange q) hq, hpaid⟩
  refine wp_mono (wp_forEach Inv hstep hinit) ?_
  rintro _ _ ⟨x, rfl, hknown, hpaid⟩
  exact hQ x (fun q => hknown q (by simp)) hpaid

/-- **`exit`** does not return. -/
theorem wp_exit {α : Type} {status : Int} {Q : α → View → Prop} (hv : AtLeisure me p v) :
    (rules me).wp (exit p status) Q v := by
  obtain ⟨hf, rfl, hcreated, hpending, hreading⟩ := hv
  simp only [exit, wp_bind, wp_shared]
  intro s hinit
  split
  · exact wp_panic
  · rename_i hne
    have hroot : v.root ≠ p := fun e => hne (e ▸ hinit rfl)
    simp only [wp_bind, wp_acquire, wp_procParent, wp_write, wp_release]
    refine wp_outside hf ⟨⟨ordered_nil hf.held, unscanned_of_ne (by simp)⟩, ?_⟩
    have hs : ∀ y, Settled { v.take .wait with lore := y } := fun y => by
      obtain ⟨h1, h2, h3, h4, h5, h6, h7, h8⟩ := hf.toSettled.take (l := .wait)
      exact ⟨h1, h2, h3, h4, h5, h6, h7, h8⟩
    refine wp_reparent rfl (by simpa using hroot) (by simp [hf.held]) hf.take paid_empty ?_
    intro x hchildless hpaid
    refine ⟨by simp, fun r => wp_wakeup (by simp [hf.held, Lock.rank]) (by simp [hf.held]) (hs _)
      fun rs hr => ?_⟩
    have hchildless' : ∀ y : Lore, y.parents = (x.learn p r).parents → y.Childless p :=
      fun y hy q => by
        obtain ⟨r', hr', hne⟩ := hchildless q
        exact ⟨r', by simp [hy, hr'], hne⟩
    have hroused : ∀ y : Lore, y.parents = (x.learn p r).parents → y.roused = rs →
        y.ParentRoused p := fun y hy hrs => by
      refine ⟨r, by simp [hy], fun f hf' hfp => ?_⟩
      have := hr.all ⟨.wait, by simp, by simp [Lock.rank]⟩ f (by simpa using hfp)
      rw [hrs]
      simpa [hf'] using this
    refine ⟨⟨ordered_of_rank (by simp [hf.held, Lock.rank]), unscanned_self rfl⟩,
      ⟨⟨by simp, by simp [hf.on], rfl, by simp [hf.leaving]⟩,
        ⟨by simp [hcreated], by simp [hpending], by simp [hreading]⟩, by simpa using hroot,
        by simp, hchildless' _ rfl, hroused _ rfl rfl⟩,
      ⟨by simp [View.write], by simp, by simp [View.write, hf.seen],
        by simp [View.write, hf.waking], by simp [View.write, hf.fresh],
        fun _ => ⟨fun q hq => ?_, ?_⟩⟩, ?_⟩
    · exact hr.mono _ (hpaid q hq)
    · simp [View.write]
    · refine wp_sched rfl (by simp [View.write, hf.held]) rfl ?_ ?_ wp_panic
      · simp [View.write, View.drop, hf.seen]
      · simp [View.write, View.drop, hf.waking]

theorem wp_reap {pp : Slot} {addr : Bool} {Q : Int → View → Prop} {x : Lore} (hme : me = some p)
    (hs : Settled v) (hx : (pp, some p) ∈ x.parents) (hpaid : x.Paid)
    (hQ : ∀ r, Q r { v with held := [], lore := .empty }) :
    (rules me).wp (reap pp addr) Q
      { v with held := [.proc pp, .wait], seen := some (pp, .zombie), lore := x } := by
  subst hme
  simp only [reap, wp_bind, wp_choose]
  refine wp_slot fun y => fun copyout => ?_
  split
  · simp only [wp_bind, wp_release, wp_pure]
    refine ⟨⟨by simp, fun _ _ _ => hs.on, by simp, hs.waking, fun _ => hs.fresh, by simp⟩,
      ⟨by simp, by simp, by simp [View.drop], hs.waking, fun _ => hs.fresh, fun _ => ⟨by simpa [View.drop] using hpaid,
        fun q _ h => by simp at h⟩⟩, ?_⟩
    convert hQ _ using 1
    ext1 <;> simp [View.drop, View.Leaving, hs.seen, hs.named, hs.leaving, hs.off]
  · simp only [wp_bind, wp_write, wp_release, wp_pure]
    refine ⟨⟨by simp, hs.on, .inl ⟨rfl, by simp, rfl, hx⟩⟩,
      ⟨by simp [View.write], fun _ _ _ => hs.on, by simp [View.write], hs.waking,
        fun _ => hs.fresh, by simp⟩,
      ⟨by simp [View.write], by simp, by simp [View.drop], hs.waking, fun _ => hs.fresh,
        fun _ => ⟨by simpa [View.drop, View.write, Lore.Paid] using hpaid,
          fun q _ h => by simp [View.write] at h⟩⟩, ?_⟩
    convert hQ _ using 1
    ext1 <;> simp [View.write, View.drop, View.Leaving, hs.seen, hs.named, hs.leaving, hs.off]

/-- The scan of `wait` ends the call, or has seen that no child is a zombie. -/
theorem wp_waitScan {addr : Bool} {Q : Int ⊕ Bool → View → Prop} (hme : me = some p)
    (hheld : v.held = [.wait]) (hs : Settled v)
    (hdone : ∀ r, Q (.inl r) { v with held := [], lore := .empty })
    (hno : ∀ (x : Lore) b, x.NoZombieChild p → x.Paid → Q (.inr b) { v with lore := x })
    {ps : List Slot} {havekids : Bool} {x : Lore}
    (hx : ∀ q, q ∉ ps → q ∈ x.alive ∨ ∃ r, (q, r) ∈ x.parents ∧ r ≠ some p) (hpaid : x.Paid) :
    (rules me).wp (waitScan p addr ps havekids) Q { v with lore := x } := by
  induction ps generalizing havekids x with
  | nil => exact hno x _ (fun q => hx q (by simp)) hpaid
  | cons pp ps ih =>
      -- What the scan knows is kept when it learns more.
      have hmono : ∀ y : Lore, (∀ z ∈ x.parents, z ∈ y.parents) → (∀ z ∈ x.alive, z ∈ y.alive) →
          (pp ∈ y.alive ∨ ∃ r, (pp, r) ∈ y.parents ∧ r ≠ some p) →
          ∀ q, q ∉ ps → q ∈ y.alive ∨ ∃ r, (q, r) ∈ y.parents ∧ r ≠ some p := by
        intro y hpar halive hpp q hq
        by_cases hqp : q = pp
        · exact hqp ▸ hpp
        · rcases hx q (by simp [hq, hqp]) with h | ⟨r, hr, hne⟩
          · exact .inl (halive q h)
          · exact .inr ⟨r, hpar _ hr, hne⟩
      simp only [waitScan, wp_bind, wp_procParent]
      refine ⟨by simp [hheld], fun r => ?_⟩
      split
      · rename_i hr
        have hs' : Settled { v with lore := x.learn pp r } :=
          ⟨hs.waking, hs.seen, hs.named, hs.fresh, hs.on, hs.leaving, hs.off, hs.scan⟩
        simp only [wp_bind, wp_acquire, wp_stateIs]
        refine ⟨⟨ordered_of_rank (by simp [hheld, Lock.rank]),
          unscanned_of_ticks (by simp [hheld])⟩, fun b _ => ?_⟩
        cases b with
        | false =>
            simp only [Bool.false_eq_true, if_false, wp_bind, wp_release]
            have hview : (instrNext me (.stateIs pp .zombie)
                (View.take { v with lore := x.learn pp r } (.proc pp)) false).drop me (.proc pp) =
                  { v with lore := { x.learn pp r with alive := pp :: x.alive } } := by
              ext1 <;> simp [instrNext, View.take, View.drop, hheld, hs.seen, hs.named, hs.leaving,
                hs.off, hs.scan]
            refine ⟨⟨?_, fun _ _ _ => ?_, ?_, ?_, ?_, by simp⟩, ?_⟩
            · simp [instrNext, hheld]
            · simp [instrNext, hheld, hs.on]
            · simp [instrNext, hheld, hs.seen]
            · simp [instrNext, hheld, hs.waking]
            · simp [instrNext, hheld, hs.fresh]
            · rw [hview]
              exact ih (hmono _ (by simp +contextual) (by simp +contextual) (.inl (by simp))) hpaid
        | true =>
            simp only [if_true, wp_bind, wp_pure]
            have hview : instrNext me (.stateIs pp .zombie)
                (View.take { v with lore := x.learn pp r } (.proc pp)) true =
                  { v with held := [.proc pp, .wait], seen := some (pp, .zombie)
                           lore := x.learn pp r } := by
              ext1 <;> simp [instrNext, View.take, hheld, hs.scan]
            rw [hview]
            exact wp_reap hme hs (by simp [hr]) hpaid hdone
      · rename_i hr
        exact ih (hmono _ (by simp +contextual) (by simp) (.inr ⟨r, by simp, hr⟩)) hpaid

theorem wp_waitPointless {havekids : Bool} {Q : Bool → View → Prop} (hme : me = some p)
    (hheld : v.held = [.wait]) (hs : Settled v) (hQ : ∀ b, Q b v) :
    (rules me).wp (waitPointless p havekids) Q v := by
  unfold waitPointless
  split
  · exact wp_killed hme (by simp [hheld, Lock.rank]) hs hQ
  · exact hQ true

/-- **One round of `wait`.** -/
theorem wp_waitRound {addr : Bool} {Q : Int → View → Prop} (hme : me = some p)
    (hheld : v.held = [.wait]) (hs : Settled v) (hlore : v.lore = .empty)
    (hQ : ∀ r, Q r { v with held := [], lore := .empty }) :
    (rules me).wp (waitRound p addr) Q v := by
  have hv : { v with lore := .empty } = v := by ext1 <;> simp [hlore]
  rw [← hv]
  simp only [waitRound, wp_bind]
  refine wp_waitScan hme hheld hs hQ (fun x havekids hx hpaid => ?_)
    (fun q hq => absurd (List.mem_finRange q) hq) paid_empty
  have hs' : Settled { v with lore := x } :=
    ⟨hs.waking, hs.seen, hs.named, hs.fresh, hs.on, hs.leaving, hs.off, hs.scan⟩
  simp only [wp_bind]
  refine wp_waitPointless hme hheld hs' fun b => ?_
  cases b with
  | true =>
      simp only [if_true, wp_bind, wp_release, wp_pure]
      refine ⟨releasable_wait hs' (by simp [hheld]) (by simp [hheld]) hpaid, ?_⟩
      convert hQ _ using 1
      ext1 <;> simp [View.drop, View.Leaving, hheld]
  | false =>
      simp only [Bool.false_eq_true, if_false, wp_bind]
      refine wp_sleep hme hheld (by simp [Lock.rank]) hs' (fun _ => ⟨hpaid, hx⟩)
        (fun q hq => ⟨(Chan.proc.inj hq).symm, rfl⟩) ?_
      exact wp_callRoutine.mpr ⟨⟨hme, hheld, ⟨hs.waking, hs.seen, hs.named, hs.fresh, hs.on,
        hs.leaving, hs.off, hs.scan⟩, rfl⟩, hQ⟩

theorem wp_wait {addr : Bool} {Q : Int → View → Prop} (hme : me = some p) (hf : Free v)
    (hQ : ∀ r, Q r v) : (rules me).wp (wait p addr) Q v := by
  simp only [wait, wp_bind, wp_acquire, wp_callRoutine]
  refine ⟨⟨ordered_nil hf.held, unscanned_of_ne (by simp)⟩,
    ⟨hme, by simp [hf.held], hf.take, rfl⟩, fun r => ?_⟩
  convert hQ r using 1
  ext1 <;> simp [routineNext, View.take, hf.held, hf.lore]

/-! ## Interrupts and system calls -/

/-- **`kerneltrap`** leaves in the view no trace but that of `checkPreemption`. -/
theorem wp_kerneltrap {i : Interrupt} {Q : Unit → View → Prop} (hf : Free v) (hQ : Q () v)
    (hcharged : Q () { v with charged := false }) : (rules me).wp (kerneltrap me i) Q v := by
  cases i with
  | device => exact wp_outside hf hQ
  | timer =>
      simp only [kerneltrap, wp_bind]
      refine wp_clockintr hf ?_
      cases me with
      | none => exact hQ
      | some p => exact wp_yieldCpu rfl hf hcharged

theorem wp_sysSleepRound {n : Int} {ticks0 : Nat} {Q : Int → View → Prop} (hme : me = some p)
    (hheld : v.held = [.ticks]) (hs : Settled v)
    (hQ : ∀ r, Q r { v with held := [], lore := .empty }) :
    (rules me).wp (sysSleepRound p n ticks0) Q v := by
  have hdrop : v.drop me .ticks = { v with held := [], lore := .empty } := by
    ext1 <;> simp [View.drop, View.Leaving, hheld, hs.scan]
  have hrel : Releasable me v .ticks := releasable hs (by simp [hheld]) (by simp)
  simp only [sysSleepRound, wp_bind, wp_shared]
  intro s _
  split
  · simp only [wp_bind]
    refine wp_killed hme (by simp [hheld, Lock.rank]) hs fun b => ?_
    cases b with
    | true =>
        simp only [if_true, wp_bind, wp_release, wp_pure]
        exact ⟨hrel, hdrop ▸ hQ _⟩
    | false =>
        simp only [Bool.false_eq_true, if_false, wp_bind]
        refine wp_sleep hme hheld (by simp [Lock.rank]) hs (by simp) (by simp) ?_
        exact wp_callRoutine.mpr ⟨⟨hme, hheld, ⟨hs.waking, hs.seen, hs.named, hs.fresh, hs.on,
          hs.leaving, hs.off, hs.scan⟩, rfl⟩, hQ⟩
  · simp only [wp_bind, wp_release, wp_pure]
    exact ⟨hrel, hdrop ▸ hQ _⟩

theorem wp_sysSleep {n : Int} {Q : Int → View → Prop} (hme : me = some p) (hf : Free v)
    (hQ : ∀ r, Q r v) : (rules me).wp (sysSleep p n) Q v := by
  simp only [sysSleep, wp_bind, wp_acquire, wp_shared, wp_callRoutine]
  refine ⟨⟨ordered_nil hf.held, unscanned_of_ne (by simp)⟩, fun s _ =>
    ⟨⟨hme, by simp [hf.held], hf.take, rfl⟩, fun r => ?_⟩⟩
  convert hQ r using 1
  ext1 <;> simp [routineNext, View.take, hf.held, hf.lore]

theorem wp_sysUptime {Q : Int → View → Prop} (hf : Free v) (hQ : ∀ r, Q r v) :
    (rules me).wp sysUptime Q v := by
  simp only [sysUptime, wp_bind, wp_acquire, wp_shared, wp_release, wp_pure]
  refine ⟨⟨ordered_nil hf.held, unscanned_of_ne (by simp)⟩, fun s _ =>
    ⟨releasable hf.take (by simp) (by simp), ?_⟩⟩
  convert hQ _ using 1
  ext1 <;> simp [View.take, View.drop, View.Leaving, hf.held, hf.lore, hf.scan]

/-- **`syscall`.** -/
theorem wp_syscall {call : Syscall} {Q : Int → View → Prop} (hv : AtLeisure me p v)
    (hzero : v.nozero = true → call ≠ .kill 0) (hQ : ∀ r, Q r v) :
    (rules me).wp (syscall p call) Q v := by
  have hf := hv.toFree
  have hme := hv.me
  cases call with
  | fork => exact wp_fork hme hf hQ
  | exit status => exact wp_exit hv
  | wait addr => exact wp_wait hme hf hQ
  | kill pid => exact wp_killFrom hf (fun h e => hzero h (e ▸ rfl)) hQ
  | sleep n => exact wp_sysSleep hme hf hQ
  | uptime => exact wp_sysUptime hf hQ
  | setnice => exact hQ 0
  | other => exact wp_callRoutine.mpr ⟨⟨hme.symm, hf⟩, hQ⟩

theorem wp_exitIfKilled {Q : Unit → View → Prop} (hv : AtLeisure me p v) (hQ : Q () v) :
    (rules me).wp (exitIfKilled p) Q v := by
  simp only [exitIfKilled, wp_bind]
  refine wp_killed hv.me (by simp [hv.held]) hv.toSettled fun b => ?_
  cases b with
  | true => exact wp_exit hv
  | false => exact hQ

theorem wp_handleTrap {trap : Trap} {Q : Unit → View → Prop} (hv : AtLeisure me p v)
    (hzero : v.nozero = true → trap ≠ .syscall (.kill 0)) (hQ : Q () v) :
    (rules me).wp (handleTrap p trap) Q v := by
  obtain rfl := hv.me
  cases trap with
  | syscall call =>
      simp only [handleTrap, wp_bind, wp_setIntr, wp_pure]
      exact wp_exitIfKilled hv (wp_syscall hv (fun h e => hzero h (e ▸ rfl)) fun _ => hQ)
  | device => exact wp_outside hv.toFree hQ
  | timer => exact wp_clockintr hv.toFree hQ
  | fault => exact wp_setkilled rfl hv.toFree hQ

theorem wp_chargeAndYield {Q : Unit → View → Prop} (hv : AtLeisure me p v) (hdue : v.due = true)
    (hcharged : v.charged = false) (hQ : Q () { v with due := false }) :
    (rules me).wp (chargeAndYield p) Q v := by
  have hp : Lock.proc p ∉ v.held := by simp [hv.held]
  simp only [chargeAndYield, wp_bind, wp_stateIs]
  intro r hr
  have hr' : r = true := by simpa using hr.1 hv.me hv.on
  subst hr'
  simp only [instrNext, hp, if_false, if_true, chargeRuntime, wp_bind, wp_runtime, wp_write]
  refine ⟨⟨hv.me, hv.on, hv.reading, hcharged⟩, fun x => ⟨⟨hv.on, hv.me, hdue, x, rfl, rfl⟩, ?_⟩⟩
  refine wp_yieldCpu hv.me ⟨⟨hv.waking, hv.seen, hv.named, hv.fresh, hv.on, hv.leaving, hv.off,
    hv.scan⟩, hv.held, hv.lore⟩ ?_
  convert hQ using 1
  ext1 <;> simp [View.write, hv.reading, hcharged]

/-- **`usertrap`** charges the process once. -/
theorem wp_usertrap {trap : Trap} {Q : Unit → View → Prop} (hv : AtLeisure me p v)
    (hdue : v.due = true) (hcharged : v.charged = false)
    (hzero : v.nozero = true → trap ≠ .syscall (.kill 0)) (hQ : Q () { v with due := false }) :
    (rules me).wp (usertrap p trap) Q v := by
  have hview : { v with due := false, charged := false } = { v with due := false } := by
    ext1 <;> simp [hcharged]
  simp only [usertrap, wp_bind, wp_setIntr]
  refine wp_handleTrap hv hzero (wp_exitIfKilled hv (wp_chargeAndYield hv hdue hcharged ?_))
  split
  · refine wp_yieldCpu hv.me ⟨⟨hv.waking, hv.seen, hv.named, hv.fresh, hv.on, hv.leaving, hv.off,
      hv.scan⟩, hv.held, hv.lore⟩ ?_
    exact hview ▸ hQ
  · exact hQ

theorem wp_fsinit {Q : Unit → View → Prop} (hme : me = some p) (hf : Free v) (hQ : Q () v) :
    (rules me).wp (fsinit p) Q v := by
  subst hme
  simp only [fsinit, wp_bind, wp_shared]
  intro s _
  split
  · simp only [wp_bind, wp_firstDone]
    exact wp_outside hf hQ
  · exact hQ

theorem free_idle (root : Slot) (starting nozero : Bool) :
    Free (View.idle root starting nozero) :=
  ⟨⟨rfl, rfl, rfl, rfl, rfl, rfl, rfl, rfl⟩, rfl, rfl⟩

/-- **`forkret`**: where the thread of a new process starts. -/
theorem wp_forkret {root : Slot} {nozero : Bool} {Q : Int → View → Prop} (hQ : ∀ r v, Q r v) :
    (rules (some p)).wp (forkret p) Q (.resumed p root nozero) := by
  have hview : (View.resumed p root nozero).drop (some p) (.proc p) = .idle root false nozero := by
    ext1 <;> simp [View.drop, View.resumed]
  simp only [forkret, wp_bind, wp_release, wp_setIntr, wp_callRoutine, hview]
  refine ⟨⟨by simp [View.resumed], fun _ _ _ => rfl, by simp [View.resumed], rfl, fun _ => rfl,
    by simp⟩, wp_fsinit rfl (free_idle _ _ _) ?_⟩
  exact ⟨⟨⟨free_idle _ _ _, rfl, rfl, rfl, rfl⟩, rfl, rfl⟩, fun r => hQ r _⟩

/-! ## The scheduler -/

/-- The body of the `while` loop, in which alone a lock is taken out of order. -/
theorem wp_serve {found : Bool} {Q : Bool → View → Prop} (hme : me = none)
    (hheld : v.held = [.proc p]) (hs : Settled v) (hr : v.retrieved = some p)
    (hlore : v.lore = .empty) (hQ : ∀ b, Q b { v with retrieved := none, off := some p }) :
    (rules me).wp (serve p found) Q v := by
  subst hme
  have hmem : Lock.proc p ∈ v.held := by simp [hheld]
  simp only [serve, wp_bind, wp_stateIs]
  intro r hcan
  have hr' : r = true := by simpa using hcan.2 hr
  subst hr'
  simp only [instrNext, hmem, if_true, wp_bind, wp_acquire, wp_release, wp_dispatchTo, wp_pure]
  refine ⟨⟨.inr ⟨rfl, rfl, p, hheld, .inl rfl⟩, unscanned_of_ne (by simp)⟩,
    ⟨by simp, by simp, by simp, by simp [hs.waking], by simp [hs.fresh], by simp⟩,
    ⟨trivial, by simp [hheld], by simpa using hr, by simp [hs.waking]⟩,
    ⟨.inr ⟨rfl, rfl, p, by simp [hheld], .inr rfl⟩, unscanned_of_ne (by simp)⟩,
    ⟨by simp, by simp, by simp, by simp [hs.waking], by simp, by simp⟩, ?_⟩
  convert hQ _ using 1
  ext1 <;> simp [View.drop, View.Leaving, hs.seen, hs.scan, hs.named, hs.fresh, hlore]

theorem wp_serving {found : Bool} {q : Option Slot} {Q : Int → View → Prop} (hme : me = none)
    (hf : Free v) (hr : v.retrieved = q) (hQ : ∀ r, Q r { v with retrieved := none }) :
    (rules me).wp (Routine.serving q found).body Q v := by
  cases q with
  | none =>
      have hv : { v with retrieved := none } = v := by ext1 <;> simp [hr]
      have hnext : (rules me).wp (invoke .scheduler) Q v :=
        wp_callRoutine.mpr ⟨⟨hme, hf, hr⟩, hv ▸ hQ⟩
      simp only [Routine.body, wp_bind]
      split
      · exact hnext
      · simp only [wp_setIntr]
        exact hnext
  | some p =>
      have hs := hf.toSettled.take (l := .proc p)
      simp only [Routine.body, wp_bind, wp_acquire, wp_release]
      refine ⟨⟨ordered_nil hf.held, unscanned_of_ticks (by simp [hf.held])⟩,
        wp_serve hme (by simp [hf.held]) hs (by simpa using hr) ?_ fun b =>
          ⟨⟨by simp, fun _ _ _ => hs.on, by simp [hf.seen], hs.waking, fun _ => hs.fresh,
            by simp⟩, ?_⟩⟩
      · simp [View.take, hf.lore]
      · have hback : View.drop me { v.take (.proc p) with retrieved := none, off := some p }
            (.proc p) = { v with retrieved := none } := by
          ext1 <;> simp [View.take, View.drop, hf.seen, hf.named, hf.leaving, hf.off, hf.scan]
        have hf' : ∀ r, Free { v with retrieved := r } := fun r =>
          ⟨⟨hf.waking, hf.seen, hf.named, hf.fresh, hf.on, hf.leaving, hf.off, hf.scan⟩, hf.held,
            hf.lore⟩
        rw [hback]
        refine wp_callRetrieveProcess hme (hf' _) rfl fun r => ?_
        exact wp_callRoutine.mpr ⟨⟨hme, hf' r, rfl⟩, hQ⟩

theorem wp_scheduler {Q : Int → View → Prop} (hme : me = none) (hf : Free v)
    (hr : v.retrieved = none) (hQ : ∀ r, Q r v) : (rules me).wp Routine.scheduler.body Q v := by
  simp only [Routine.body, wp_bind, wp_setIntr]
  refine wp_callRetrieveProcess hme hf hr fun q => ?_
  refine wp_callRoutine.mpr ⟨⟨hme, ⟨⟨hf.waking, hf.seen, hf.named, hf.fresh, hf.on, hf.leaving,
    hf.off, hf.scan⟩, hf.held, hf.lore⟩, rfl⟩, fun r => ?_⟩
  convert hQ r using 1
  ext1 <;> simp [routineNext, hr]

/-! ## The procedures -/

theorem wp_outsideStep {canSleep : Bool} {c : Choice} {Q : Int → View → Prop} (hf : Free v)
    (hQ : ∀ r, Q r v) : (rules me).wp (outsideStep me canSleep c) Q v := by
  have hagain : (rules me).wp (invoke (.outside me canSleep)) Q v :=
    wp_callRoutine.mpr ⟨⟨rfl, hf⟩, hQ⟩
  cases c with
  | acquire n =>
      simp only [outsideStep, wp_bind, wp_acquire, wp_callRoutine]
      refine ⟨⟨ordered_nil hf.held, unscanned_of_ne (by simp)⟩, ⟨rfl, by simp [hf.held], hf.take⟩,
        fun r => ?_⟩
      convert hQ r using 1
      ext1 <;> simp [routineNext, View.take, hf.held, hf.lore]
  | wakeup chan =>
      simp only [outsideStep, wp_bind]
      exact wp_wakeup_free hf hagain
  | done => exact hQ 0
  | fail => exact hQ 0
  | sleep chan => exact hQ 0
  | killed => exact hQ 0

theorem wp_outsideHoldingStep {canSleep : Bool} {n : Nat} {c : Choice} {Q : Int → View → Prop}
    (hheld : v.held = [.other n]) (hs : Settled v)
    (hQ : ∀ r, Q r { v with held := [], lore := .empty }) :
    (rules me).wp (outsideHoldingStep me canSleep n c) Q v := by
  have hs' : ∀ x, Settled { v with lore := x } := fun x =>
    ⟨hs.waking, hs.seen, hs.named, hs.fresh, hs.on, hs.leaving, hs.off, hs.scan⟩
  have hagain : ∀ x, (rules me).wp (invoke (.outsideHolding me canSleep n)) Q
      { v with lore := x } := fun x =>
    wp_callRoutine.mpr ⟨⟨rfl, hheld, hs' x⟩, hQ⟩
  have hrelease : (rules me).wp (do
      release (.other n)
      invoke (.outside me canSleep)) Q v := by
    have hdrop : v.drop me (.other n) = { v with held := [], lore := .empty } := by
      ext1 <;> simp [View.drop, View.Leaving, hheld]
    simp only [wp_bind, wp_release, wp_callRoutine, hdrop]
    exact ⟨releasable hs (by simp [hheld]) (by simp), ⟨rfl, ⟨hs.waking, hs.seen, hs.named,
      hs.fresh, hs.on, hs.leaving, hs.off, hs.scan⟩, rfl, rfl⟩, hQ⟩
  cases c with
  | wakeup chan =>
      simp only [outsideHoldingStep, wp_bind]
      exact wp_wakeup (by simp [hheld, Lock.rank]) (by simp [hheld]) hs fun rs _ => hagain _
  | sleep chan =>
      cases me with
      | none => exact hagain v.lore
      | some p =>
          cases canSleep with
          | false => exact hagain v.lore
          | true =>
              simp only [outsideHoldingStep, wp_bind]
              exact wp_sleep rfl hheld (by simp [Lock.rank]) hs (by simp) (by simp) (hagain _)
  | killed =>
      cases me with
      | none => exact hagain v.lore
      | some p =>
          cases canSleep with
          | false => exact hagain v.lore
          | true =>
              simp only [outsideHoldingStep, wp_bind]
              exact wp_killed rfl (by simp [hheld, Lock.rank]) hs fun _ => hagain v.lore
  | done => exact hrelease
  | fail => exact hrelease
  | acquire k => exact hrelease

theorem wp_user {Q : Int → View → Prop} (hv : AtLeisure me p v) (hdue : v.due = false)
    (hcharged : v.charged = false) (hQ : ∀ r, Q r v) : (rules me).wp (Routine.user p).body Q v := by
  have hv' : ∀ b, AtLeisure me p { v with due := b } := fun b =>
    ⟨⟨⟨hv.waking, hv.seen, hv.named, hv.fresh, hv.on, hv.leaving, hv.off, hv.scan⟩, hv.held,
      hv.lore⟩, hv.me, hv.created, hv.pending, hv.reading⟩
  simp only [Routine.body, wp_bind, wp_userMode]
  refine ⟨⟨by simp [hv.me], hv.held, hv.created, hv.pending, hv.reading, hdue, hcharged, hv.on⟩,
    fun t ht => ?_⟩
  refine wp_usertrap (hv' true) rfl hcharged ht ?_
  refine wp_callRoutine.mpr ⟨⟨hv' false, rfl, hcharged⟩, fun r => ?_⟩
  convert hQ r using 1
  ext1 <;> simp [routineNext, hdue]

/-- **All kernel code keeps to the rules.** -/
theorem rules_sound (me : Option Slot) : (rules me).Sound Routine.body := by
  intro f v hpre
  cases f with
  | wait p addr =>
      obtain ⟨hme, hheld, hs, hlore⟩ := hpre
      exact wp_waitRound hme hheld hs hlore fun _ => rfl
  | sysSleep p n ticks0 =>
      obtain ⟨hme, hheld, hs, -⟩ := hpre
      exact wp_sysSleepRound hme hheld hs fun _ => rfl
  | outside q canSleep =>
      obtain ⟨rfl, hf⟩ := hpre
      simp only [Routine.body, wp_bind, wp_choose]
      exact fun c => wp_outsideStep hf fun _ => rfl
  | outsideHolding q canSleep n =>
      obtain ⟨rfl, hheld, hs⟩ := hpre
      simp only [Routine.body, wp_bind, wp_choose]
      exact fun c => wp_outsideHoldingStep hheld hs fun _ => rfl
  | scheduler =>
      obtain ⟨hme, hf, hr⟩ := hpre
      exact wp_scheduler hme hf hr fun _ => rfl
  | serving q found =>
      obtain ⟨hme, hf, hr⟩ := hpre
      exact wp_serving hme hf hr fun _ => rfl
  | user p =>
      obtain ⟨hv, hdue, hcharged⟩ := hpre
      exact wp_user hv hdue hcharged fun _ => rfl

end Xv6Cfs
