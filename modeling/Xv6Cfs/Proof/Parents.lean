import Xv6Cfs.Proof.Local

/-!
# Who is whose parent

Parents are read and written under `wait_lock`, so what its holder has read of them
is still so. A process is given a parent before it begins, and a parent ends only
when its holder of `wait_lock` has seen that it has no child left. That every parent
is alive thus holds in every state, whoever holds `wait_lock`.
-/

namespace Xv6Cfs

open RedBlack

variable {n : Nat} {k k' : Kernel n} {ℓ : Ledger n} {V : Thread n → View} {z : Bool}
  {P : Kernel n → Ledger n → Move n → Prop} {c : Fin n} {tr : ColorTree Slot} {σ : Slot → Sit n}
  {p q : Slot} {t : Thread n}

/-! ## Who holds `wait_lock` -/

/-- A thread that holds another lock than that of a process is on a CPU. -/
theorem Base.thread_of_held (h : Base k V tr σ) {l : Lock} (hl : l ∈ (V t).held)
    (hne : ∀ p, l ≠ .proc p) : ∃ c, k.thread c = t := by
  cases t with
  | cpu c =>
      cases hc : k.running c with
      | none => exact ⟨c, Kernel.thread_eq_cpu.mpr ⟨hc, rfl⟩⟩
      | some p =>
          rw [(h.locking.away c p hc).held, List.mem_singleton] at hl
          exact absurd hl (hne p)
  | proc p =>
      by_cases hc : ∃ c, k.running c = some p
      · obtain ⟨c, hc⟩ := hc
        exact ⟨c, Kernel.thread_eq_proc.mpr hc⟩
      · push Not at hc
        rw [(h.locking.parked p hc).held, List.mem_singleton] at hl
        exact absurd hl (hne p)

/-- One thread holds it. -/
theorem Base.eq_of_held (h : Base k V tr σ) {l : Lock} (hl : l ∈ (V t).held)
    (hne : ∀ p, l ≠ .proc p) (hc : l ∈ (V (k.thread c)).held) : t = k.thread c := by
  obtain ⟨c', rfl⟩ := h.thread_of_held hl hne
  rw [h.locking.exclusive hl hc]

/-- Nobody holds it when it is free. -/
theorem Base.not_held_of_free (h : Base k V tr σ) {l : Lock} (hl : k.lock l = none)
    (hne : ∀ p, l ≠ .proc p) : l ∉ (V t).held := by
  intro ht
  obtain ⟨c, rfl⟩ := h.thread_of_held ht hne
  rw [(h.locking.lock l c).mpr ht] at hl
  simp at hl

/-- A process is at one stage, with one thread. -/
theorem Situations.stage_eq {qs : List Slot} (h : Situations k V qs σ) {t' : Thread n}
    {g g' : Stage} (hp : (p, g) ∈ (V t).created) (hhead : (V t').created.head? = some (p, g')) :
    t = t' ∧ g = g' := by
  obtain ⟨l, hl, -, hpl, hσ⟩ := h.created_head hhead
  have ht : σ p = .created t := (h.created t p).mp (List.mem_map.mpr ⟨_, hp, rfl⟩)
  rw [hσ] at ht
  obtain rfl := Sit.created.inj ht
  rw [hl, List.mem_cons] at hp
  rcases hp with he | hmem
  · exact ⟨rfl, (Prod.mk.inj he).2⟩
  · exact absurd (List.mem_map.mpr ⟨_, hmem, rfl⟩) hpl

theorem ProcState.Live.of_born {st : ProcState} (h : st.Born) (hz : st ≠ .zombie) : st.Live := by
  obtain ⟨h1, h2⟩ := h
  cases st <;> simp_all [ProcState.Live]

/-- A thread is making `p` and has given it a parent, or made it `initproc`. -/
def Adopted (V : Thread n → View) (p : Slot) : Prop := ∃ t, (p, Stage.adopted) ∈ (V t).created

theorem adopted_update {v : View} {t : Thread n}
    (h : (q, Stage.adopted) ∈ v.created ↔ (q, Stage.adopted) ∈ (V t).created) :
    Adopted (Function.update V t v) q ↔ Adopted V q := by
  refine exists_congr fun t' => ?_
  by_cases ht : t' = t
  · rw [ht, Function.update_self, h]
  · rw [Function.update_of_ne ht]

/-- An assignment to `p` adopts no other process. -/
theorem adopted_write_ne {w : Write} (hpre : writePre (k.running c) (V (k.thread c)) p w)
    (hq : q ≠ p) : Adopted (Function.update V (k.thread c)
      ((V (k.thread c)).write (k.running c) p w)) q ↔ Adopted V q := by
  refine adopted_update ?_
  cases w with
  | used => simp [View.write]
  | ready =>
      obtain ⟨l, hl⟩ := List.head?_eq_some_iff.mp hpre.2.2
      simp [View.write, hl, hq]
  | free =>
      rcases hpre.2.2 with ⟨hseen, -⟩ | ⟨hseen, g', -, hhead⟩
      · simp [View.write, hseen]
      · obtain ⟨l, hl⟩ := List.head?_eq_some_iff.mp hhead
        simp [View.write, hseen, hl, hq]
  | parent x =>
      rcases hpre.2.2 with ⟨hx, hhead⟩ | ⟨hx, -⟩
      · obtain ⟨l, hl⟩ := List.head?_eq_some_iff.mp hhead
        simp [View.write, hx, hl, hq]
      · simp [View.write, hx]
  | _ => exact Iff.rfl

/-- A process that is in the making nowhere is not adopted. -/
theorem not_adopted (hb : Base k V tr σ) (hσ : ∀ t, σ p ≠ .created t) : ¬Adopted V p := by
  rintro ⟨t, hp⟩
  exact hσ t (hb.sits.making_of_mem hp)

/-- A thread that is not as far has the process to itself. -/
theorem not_adopted_of_head (hb : Base k V tr σ) {g : Stage} (hg : g ≠ .adopted)
    (hhead : (V t).created.head? = some (p, g)) : ¬Adopted V p := by
  rintro ⟨t', hp⟩
  exact hg (hb.sits.stage_eq hp hhead).2.symm

/-- Without `initproc` nobody is adopted. -/
theorem not_adopted_of_root (hb : Base k V tr σ) (hnone : k.shared.initproc = none) :
    ¬Adopted V p := by
  rintro ⟨t, hp⟩
  cases t with
  | cpu c' =>
      have := (hb.ancestry.scheduler c' p _ hp).2.1 rfl
      simp [hnone] at this
  | proc r => exact hb.ancestry.not_born hnone r (Ancestry.born_of_making hb.sits hp)

/-! ## The invariant -/

/-- What is so of the parents, and what the threads know of them. -/
structure Parents (k : Kernel n) (V : Thread n → View) : Prop where
  known : ∀ t p q, (p, q) ∈ (V t).lore.parents →
    .wait ∈ (V t).held ∧ (k.mem.proc p).parent = q
  alive : ∀ t p, p ∈ (V t).lore.alive → .wait ∈ (V t).held ∧ (k.mem.proc p).state ≠ .zombie
  /-- A process is given a parent before it begins. -/
  begun : ∀ p q, (k.mem.proc p).parent = some q → (k.mem.proc p).state.Born ∨ Adopted V p
  child : ∀ p, (k.mem.proc p).state.Born ∨ Adopted V p → k.shared.initproc ≠ some p →
    ∃ q, (k.mem.proc p).parent = some q
  live : ∀ p q, (k.mem.proc p).parent = some q → (k.mem.proc q).state.Live

namespace Parents

/-- A step that begins and ends no process and sets no parent. -/
theorem update (h : Parents k V) {v : View} (hinit : k'.shared.initproc = k.shared.initproc)
    (hparent : ∀ p, (k'.mem.proc p).parent = (k.mem.proc p).parent)
    (hborn : ∀ p, (k'.mem.proc p).state.Born ↔ (k.mem.proc p).state.Born)
    (hlive : ∀ p, (k.mem.proc p).state.Live → (k'.mem.proc p).state.Live)
    (hzombie : ∀ p, (k'.mem.proc p).state = .zombie → (k.mem.proc p).state = .zombie)
    (hadopted : ∀ p, (p, Stage.adopted) ∈ v.created ↔ (p, Stage.adopted) ∈ (V t).created)
    (hknown : ∀ p q, (p, q) ∈ v.lore.parents → .wait ∈ v.held ∧ (k.mem.proc p).parent = q)
    (halive : ∀ p, p ∈ v.lore.alive → .wait ∈ v.held ∧ (k.mem.proc p).state ≠ .zombie) :
    Parents k' (Function.update V t v) := by
  have hsame : ∀ p, Adopted (Function.update V t v) p ↔ Adopted V p := fun p =>
    adopted_update (hadopted p)
  refine ⟨fun t' p q hp => ?_, fun t' p hp => ?_, fun p q hp => ?_, fun p hp hi => ?_,
    fun p q hp => ?_⟩
  · rw [hparent]
    by_cases ht : t' = t
    · rw [ht, Function.update_self] at hp ⊢
      exact hknown p q hp
    · rw [Function.update_of_ne ht] at hp ⊢
      exact h.known t' p q hp
  · have hold : .wait ∈ (Function.update V t v t').held ∧ (k.mem.proc p).state ≠ .zombie := by
      by_cases ht : t' = t
      · rw [ht, Function.update_self] at hp ⊢
        exact halive p hp
      · rw [Function.update_of_ne ht] at hp ⊢
        exact h.alive t' p hp
    exact ⟨hold.1, fun e => hold.2 (hzombie p e)⟩
  · rw [hparent] at hp
    rw [hborn, hsame]
    exact h.begun p q hp
  · rw [hborn, hsame] at hp
    rw [hinit] at hi
    rw [hparent]
    exact h.child p hp hi
  · rw [hparent] at hp
    exact hlive q (h.live p q hp)

/-- A step that changes no state either. -/
theorem quiet (h : Parents k V) {v : View} (hinit : k'.shared.initproc = k.shared.initproc)
    (hparent : ∀ p, (k'.mem.proc p).parent = (k.mem.proc p).parent)
    (hstate : ∀ p, (k'.mem.proc p).state = (k.mem.proc p).state)
    (hadopted : ∀ p, (p, Stage.adopted) ∈ v.created ↔ (p, Stage.adopted) ∈ (V t).created)
    (hknown : ∀ p q, (p, q) ∈ v.lore.parents → .wait ∈ v.held ∧ (k.mem.proc p).parent = q)
    (halive : ∀ p, p ∈ v.lore.alive → .wait ∈ v.held ∧ (k.mem.proc p).state ≠ .zombie) :
    Parents k' (Function.update V t v) :=
  h.update hinit hparent (fun p => by rw [hstate]) (fun p hp => hstate p ▸ hp)
    (fun p hp => hstate p ▸ hp) hadopted hknown halive

/-- A step that begins or ends the process `p`, or sets its parent. -/
theorem act (h : Parents k V) {v : View} (hinit : k'.shared.initproc = k.shared.initproc)
    (hother : ∀ q, q ≠ p → (k'.mem.proc q).parent = (k.mem.proc q).parent ∧
      (k'.mem.proc q).state = (k.mem.proc q).state)
    (hadopted : ∀ q, q ≠ p → (Adopted (Function.update V t v) q ↔ Adopted V q))
    -- what the threads know
    (hknown : ∀ q r, (q, r) ∈ v.lore.parents → .wait ∈ v.held ∧ (k'.mem.proc q).parent = r)
    (halive : ∀ q, q ∈ v.lore.alive → .wait ∈ v.held ∧ (k'.mem.proc q).state ≠ .zombie)
    (hknown' : ∀ t' r, t' ≠ t → (p, r) ∈ (V t').lore.parents → (k'.mem.proc p).parent = r)
    (halive' : ∀ t', t' ≠ t → p ∈ (V t').lore.alive → (k'.mem.proc p).state ≠ .zombie)
    -- what is so of `p`
    (hbegun : ∀ r, (k'.mem.proc p).parent = some r →
      (k'.mem.proc p).state.Born ∨ Adopted (Function.update V t v) p)
    (hchild : (k'.mem.proc p).state.Born ∨ Adopted (Function.update V t v) p →
      k.shared.initproc ≠ some p → ∃ r, (k'.mem.proc p).parent = some r)
    (hlive : ∀ r, (k'.mem.proc p).parent = some r → (k'.mem.proc r).state.Live)
    (hlive' : ∀ q, q ≠ p → (k.mem.proc q).parent = some p → (k'.mem.proc p).state.Live) :
    Parents k' (Function.update V t v) := by
  refine ⟨fun t' q r hq => ?_, fun t' q hq => ?_, fun q r hq => ?_, fun q hq hi => ?_,
    fun q r hq => ?_⟩
  · by_cases ht : t' = t
    · rw [ht, Function.update_self] at hq ⊢
      exact hknown q r hq
    · rw [Function.update_of_ne ht] at hq ⊢
      refine ⟨(h.known t' q r hq).1, ?_⟩
      by_cases hqp : q = p
      · exact hqp ▸ hknown' t' r ht (hqp ▸ hq)
      · rw [(hother q hqp).1]
        exact (h.known t' q r hq).2
  · by_cases ht : t' = t
    · rw [ht, Function.update_self] at hq ⊢
      exact halive q hq
    · rw [Function.update_of_ne ht] at hq ⊢
      refine ⟨(h.alive t' q hq).1, ?_⟩
      by_cases hqp : q = p
      · exact hqp ▸ halive' t' ht (hqp ▸ hq)
      · rw [(hother q hqp).2]
        exact (h.alive t' q hq).2
  · by_cases hqp : q = p
    · subst hqp
      exact hbegun r hq
    · rw [(hother q hqp).1] at hq
      rw [(hother q hqp).2, hadopted q hqp]
      exact h.begun q r hq
  · by_cases hqp : q = p
    · subst hqp
      exact hchild hq (hinit ▸ hi)
    · rw [(hother q hqp).2, hadopted q hqp] at hq
      rw [(hother q hqp).1]
      exact h.child q hq (hinit ▸ hi)
  · by_cases hqp : q = p
    · exact hlive r (hqp ▸ hq)
    · rw [(hother q hqp).1] at hq
      by_cases hrp : r = p
      · exact hrp ▸ hlive' q hqp (hrp ▸ hq)
      · rw [(hother r hrp).2]
        exact h.live q r hq

/-- A process that is not alive is nobody's parent. -/
theorem not_parent (h : Parents k V) (hp : ¬(k.mem.proc p).state.Live) (q : Slot) :
    (k.mem.proc q).parent ≠ some p := fun hq => hp (h.live q p hq)

/-- A process that has not begun has no parent. -/
theorem parent_eq_none (h : Parents k V) (hborn : ¬(k.mem.proc p).state.Born)
    (hadopted : ¬Adopted V p) : (k.mem.proc p).parent = none :=
  Option.eq_none_iff_forall_not_mem.mpr fun q hq => (h.begun p q hq).elim hborn hadopted

/-- The holder of `wait_lock` is alone in knowing something. -/
theorem known_only (h : Parents k V) (hb : Base k V tr σ) (hwait : .wait ∈ (V (k.thread c)).held)
    {r : Option Slot} (hp : (p, r) ∈ (V t).lore.parents) : t = k.thread c :=
  hb.eq_of_held (h.known t p r hp).1 (by simp) hwait

theorem alive_only (h : Parents k V) (hb : Base k V tr σ) (hwait : .wait ∈ (V (k.thread c)).held)
    (hp : p ∈ (V t).lore.alive) : t = k.thread c :=
  hb.eq_of_held (h.alive t p hp).1 (by simp) hwait

/-! ## The assignments -/

/-- `reparent` and `fork`. -/
theorem parent (h : Parents k V) (hb : Base k V tr σ) {x : Option Slot}
    (hpre : writePre (k.running c) (V (k.thread c)) p (.parent x)) :
    Parents (k.setMem (k.mem.modify p (Write.parent x).apply))
      (Function.update V (k.thread c)
        ((V (k.thread c)).write (k.running c) p (.parent x))) := by
  have hadopted : ∀ q, q ≠ p → (Adopted (Function.update V (k.thread c)
      ((V (k.thread c)).write (k.running c) p (.parent x))) q ↔ Adopted V q) :=
    fun q => adopted_write_ne hpre
  obtain ⟨hwait, hsome, hcase⟩ := hpre
  obtain ⟨me, hme⟩ := Option.isSome_iff_exists.mp hsome
  have hself : ((k.mem.modify p (Write.parent x).apply).proc p).parent = x := by
    rw [Mem.modify_self]
    rfl
  have hother : ∀ q, q ≠ p →
      (k.mem.modify p (Write.parent x).apply).proc q = k.mem.proc q := fun q hq => Mem.modify_ne _ _ hq
  have hstate : ∀ q, ((k.mem.modify p (Write.parent x).apply).proc q).state =
      (k.mem.proc q).state := fun q => by
    by_cases hq : q = p
    · rw [hq, Mem.modify_self]
      rfl
    · rw [hother q hq]
  have hxsome : ∃ q, x = some q := by
    rcases hcase with ⟨hx, -⟩ | ⟨-, hx, -⟩
    · exact ⟨me, hx.trans hme⟩
    · exact ⟨_, hx⟩
  -- the new parent is the caller, or `initproc`
  have hlive : ∀ r, x = some r → (k.mem.proc r).state.Live := fun r hr => by
    have hborn := hb.sits.born_of_running hme
    rcases hcase with ⟨hx, hhead⟩ | ⟨-, hx, -⟩
    · obtain rfl : me = r := Option.some.inj (hme.symm.trans (hx.symm.trans hr))
      refine .of_born hborn fun hz => ?_
      have := (hb.sits.bare me (.inr (.inr hz))).created
      rw [← Kernel.thread_eq_proc.mpr hme] at this
      simp [this] at hhead
    · refine hb.ancestry.live_of_born hborn ?_
      rw [hb.ancestry.root me hborn, ← Kernel.thread_eq_proc.mpr hme, ← hx, hr]
  refine h.act rfl (fun q hq => ?_) hadopted (fun q r hq => ⟨hwait, ?_⟩) (fun q hq => ?_)
    (fun t' r ht hr => absurd (h.known_only hb hwait hr) ht)
    (fun t' ht hp => absurd (h.alive_only hb hwait hp) ht) (fun r _ => ?_) (fun _ _ => ?_)
    (fun r hr => ?_) fun q _ hqp => ?_
  · rw [Kernel.setMem_mem, hother q hq]
    exact ⟨rfl, rfl⟩
  · simp only [View.write, Lore.adopt_parents, List.mem_cons, Prod.mk.injEq, List.mem_filter,
      decide_eq_true_eq] at hq
    rcases hq with ⟨rfl, rfl⟩ | ⟨hq, hne⟩
    · exact hself
    · rw [Kernel.setMem_mem, hother q hne]
      exact (h.known _ q r hq).2
  · rw [Kernel.setMem_mem, hstate]
    exact h.alive _ q hq
  · rw [Kernel.setMem_mem, hstate]
    rcases hcase with ⟨hx, hhead⟩ | ⟨hx, -, hparent⟩
    · exact .inr ⟨k.thread c, by simp [View.write, hx]⟩
    · -- it had a parent before
      rw [hme] at hparent
      rw [adopted_update (by simp [View.write, hx])]
      exact h.begun p me (h.known _ p _ hparent).2
  · rw [Kernel.setMem_mem, hself]
    exact hxsome
  · rw [Kernel.setMem_mem, hself] at hr
    rw [Kernel.setMem_mem, hstate]
    exact hlive r hr
  · rw [Kernel.setMem_mem, hstate]
    exact h.live q p hqp

/-- `freeproc`. -/
theorem free (h : Parents k V) (hb : Base k V tr σ)
    (hpre : writePre (k.running c) (V (k.thread c)) p .free) :
    Parents (k.setMem (k.mem.modify p Write.free.apply))
      (Function.update V (k.thread c) ((V (k.thread c)).write (k.running c) p .free)) := by
  have hadopted : ∀ q, q ≠ p → (Adopted (Function.update V (k.thread c)
      ((V (k.thread c)).write (k.running c) p .free)) q ↔ Adopted V q) :=
    fun q => adopted_write_ne hpre
  have hmade := made_write_self hb hpre
  obtain ⟨-, -, hcase⟩ := hpre
  have hother : ∀ q, q ≠ p → (k.mem.modify p Write.free.apply).proc q = k.mem.proc q :=
    fun q hq => Mem.modify_ne _ _ hq
  -- it was a zombie, or in the making
  have hdead : ¬(k.mem.proc p).state.Live := by
    rcases hcase with ⟨hs, -⟩ | ⟨-, g, -, hhead⟩
    · simp [hb.sits.seen c p _ hs, ProcState.Live]
    · simp [hb.used_of_head hhead, ProcState.Live]
  have hgone : ¬Adopted (Function.update V (k.thread c)
      ((V (k.thread c)).write (k.running c) p .free)) p := by
    rintro ⟨t', ht'⟩
    exact hmade.mp ⟨t', .adopted, ht', by simp⟩
  refine h.act rfl (fun q hq => ?_) hadopted (by simp [View.write]) (fun q hq => ?_)
    (fun t' r ht hr => ?_) (fun t' ht hp => ?_) (fun r hr => ?_) (fun hp => ?_) (fun r hr => ?_)
    fun q _ hqp => absurd hqp (h.not_parent hdead q)
  · rw [Kernel.setMem_mem, hother q hq]
    exact ⟨rfl, rfl⟩
  · refine ⟨(h.alive _ q hq).1, ?_⟩
    rw [Kernel.setMem_mem]
    by_cases hqp : q = p
    · rw [hqp, Mem.modify_self]
      simp [Write.apply]
    · rw [hother q hqp]
      exact (h.alive _ q hq).2
  · rw [Kernel.setMem_mem, Mem.modify_self]
    rcases hcase with ⟨-, hw, -⟩ | ⟨-, g, hg, hhead⟩
    · exact absurd (h.known_only hb hw hr) ht
    · -- it has no parent yet
      rw [← (h.known t' p r hr).2, h.parent_eq_none (fun hborn => hborn.2 (hb.used_of_head hhead))
        (not_adopted_of_head hb hg hhead)]
      rfl
  · rw [Kernel.setMem_mem, Mem.modify_self]
    simp [Write.apply]
  · rw [Kernel.setMem_mem, Mem.modify_self] at hr
    simp [Write.apply] at hr
  · rcases hp with hborn | hp
    · rw [Kernel.setMem_mem, Mem.modify_self] at hborn
      exact absurd rfl hborn.1
    · exact absurd hp hgone
  · rw [Kernel.setMem_mem, Mem.modify_self] at hr
    simp [Write.apply] at hr

/-- `exit`: nobody's parent is the process that ends. -/
theorem exit (h : Parents k V) (hb : Base k V tr σ) {status : Int}
    (hpre : writePre (k.running c) (V (k.thread c)) p (.exit status)) :
    Parents (k.setMem (k.mem.modify p (Write.exit status).apply))
      (Function.update V (k.thread c)
        ((V (k.thread c)).write (k.running c) p (.exit status))) := by
  obtain ⟨⟨-, hon, hme, -⟩, -, -, hwait, hchildless, -⟩ := hpre
  have hst := hb.sits.running_state hme (Kernel.thread_eq_proc.mpr hme ▸ hon)
  have hborn : (k.mem.proc p).state.Born := hb.sits.born_of_running hme
  have hother : ∀ q, q ≠ p → (k.mem.modify p (Write.exit status).apply).proc q = k.mem.proc q :=
    fun q hq => Mem.modify_ne _ _ hq
  have hparent : ∀ q, ((k.mem.modify p (Write.exit status).apply).proc q).parent =
      (k.mem.proc q).parent := fun q => by
    by_cases hq : q = p
    · rw [hq, Mem.modify_self]
      rfl
    · rw [hother q hq]
  have hnot : ∀ q, (k.mem.proc q).parent ≠ some p := fun q hq => by
    obtain ⟨x, hx, hne⟩ := hchildless q
    exact hne ((h.known _ q x hx).2.symm.trans hq)
  refine h.act rfl (fun q hq => ?_) (fun q _ => adopted_update Iff.rfl) (fun q r hq => ?_)
    (by simp [View.write]) (fun t' r ht hr => absurd (h.known_only hb hwait hr) ht)
    (fun t' ht hp => absurd (h.alive_only hb hwait hp) ht) (fun r _ => .inl ?_) (fun _ hi => ?_)
    (fun r hr => ?_) fun q _ hqp => absurd hqp (hnot q)
  · rw [Kernel.setMem_mem, hother q hq]
    exact ⟨rfl, rfl⟩
  · rw [Kernel.setMem_mem, hparent]
    exact h.known _ q r hq
  · rw [Kernel.setMem_mem, Mem.modify_self]
    simp [ProcState.Born, Write.apply]
  · rw [Kernel.setMem_mem, hparent]
    exact h.child p (.inl hborn) hi
  · rw [Kernel.setMem_mem, hparent] at hr
    have hrp : r ≠ p := fun e => hnot p (e ▸ hr)
    rw [Kernel.setMem_mem, hother r hrp]
    exact h.live p r hr

/-- `allocproc`. -/
theorem used (h : Parents k V) (hb : Base k V tr σ)
    (hpre : writePre (k.running c) (V (k.thread c)) p .used) :
    Parents (k.setMem (k.mem.modify p Write.used.apply))
      (Function.update V (k.thread c) ((V (k.thread c)).write (k.running c) p .used)) := by
  have hst : (k.mem.proc p).state = .unused := hb.sits.seen c p _ hpre.1.2.2
  have hother : ∀ q, q ≠ p → (k.mem.modify p Write.used.apply).proc q = k.mem.proc q :=
    fun q hq => Mem.modify_ne _ _ hq
  have hnot : ¬Adopted V p := not_adopted hb (by simp [hb.sits.idle_of_unused hst])
  have hnot' : ¬Adopted (Function.update V (k.thread c)
      ((V (k.thread c)).write (k.running c) p .used)) p := by
    rwa [adopted_update (by simp [View.write])]
  have hnone : ((k.mem.modify p Write.used.apply).proc p).parent = none := by
    rw [Mem.modify_self]
    exact h.parent_eq_none (fun hborn => hborn.1 hst) hnot
  have hparent : ∀ q, ((k.mem.modify p Write.used.apply).proc q).parent = (k.mem.proc q).parent :=
    fun q => by
      by_cases hq : q = p
      · rw [hq, Mem.modify_self]
        rfl
      · rw [hother q hq]
  have hzombie : ∀ q, (k.mem.proc q).state ≠ .zombie →
      ((k.mem.modify p Write.used.apply).proc q).state ≠ .zombie := fun q hq => by
    by_cases hqp : q = p
    · rw [hqp, Mem.modify_self]
      simp [Write.apply]
    · rwa [hother q hqp]
  refine h.act rfl (fun q hq => ?_) (fun q => adopted_write_ne hpre) (fun q r hq => ?_)
    (fun q hq => ?_) (fun t' r _ hr => ?_) (fun t' _ hp => ?_) (fun r hr => ?_) (fun hp => ?_)
    (fun r hr => ?_) fun q _ hqp => absurd hqp (h.not_parent (by simp [ProcState.Live, hst]) q)
  · rw [Kernel.setMem_mem, hother q hq]
    exact ⟨rfl, rfl⟩
  · rw [Kernel.setMem_mem, hparent]
    exact h.known _ q r hq
  · exact ⟨(h.alive _ q hq).1, hzombie q (h.alive _ q hq).2⟩
  · rw [Kernel.setMem_mem, hparent]
    exact (h.known t' p r hr).2
  · exact hzombie p (h.alive t' p hp).2
  · exact absurd (hnone.symm.trans hr) (by simp)
  · rcases hp with hborn | hp
    · rw [Kernel.setMem_mem, Mem.modify_self] at hborn
      exact absurd rfl hborn.2
    · exact absurd hp hnot'
  · exact absurd (hnone.symm.trans hr) (by simp)

/-- `fork` and `userinit`: the process begins. -/
theorem ready (h : Parents k V) (hb : Base k V tr σ)
    (hpre : writePre (k.running c) (V (k.thread c)) p .ready) :
    Parents (k.setMem (k.mem.modify p Write.ready.apply))
      (Function.update V (k.thread c) ((V (k.thread c)).write (k.running c) p .ready)) := by
  have hhead := hpre.2.2
  have hst := hb.used_of_head hhead
  have hwas : Adopted V p := ⟨k.thread c, List.mem_of_mem_head? hhead⟩
  have hother : ∀ q, q ≠ p → (k.mem.modify p Write.ready.apply).proc q = k.mem.proc q :=
    fun q hq => Mem.modify_ne _ _ hq
  have hparent : ∀ q, ((k.mem.modify p Write.ready.apply).proc q).parent = (k.mem.proc q).parent :=
    fun q => by
      by_cases hq : q = p
      · rw [hq, Mem.modify_self]
        rfl
      · rw [hother q hq]
  have hzombie : ∀ q, (k.mem.proc q).state ≠ .zombie →
      ((k.mem.modify p Write.ready.apply).proc q).state ≠ .zombie := fun q hq => by
    by_cases hqp : q = p
    · rw [hqp, Mem.modify_self]
      simp [Write.apply]
    · rwa [hother q hqp]
  have hnew : ((k.mem.modify p Write.ready.apply).proc p).state = .runnable := by
    rw [Mem.modify_self]
    rfl
  refine h.act rfl (fun q hq => ?_) (fun q => adopted_write_ne hpre) (fun q r hq => ?_)
    (fun q hq => ?_) (fun t' r _ hr => ?_) (fun t' _ hp => ?_) (fun r hr => .inl ?_) (fun _ hi => ?_)
    (fun r hr => ?_) fun q _ hqp => absurd hqp (h.not_parent (by simp [ProcState.Live, hst]) q)
  · rw [Kernel.setMem_mem, hother q hq]
    exact ⟨rfl, rfl⟩
  · rw [Kernel.setMem_mem, hparent]
    exact h.known _ q r hq
  · exact ⟨(h.alive _ q hq).1, hzombie q (h.alive _ q hq).2⟩
  · rw [Kernel.setMem_mem, hparent]
    exact (h.known t' p r hr).2
  · exact hzombie p (h.alive t' p hp).2
  · rw [Kernel.setMem_mem, hnew]
    simp [ProcState.Born]
  · rw [Kernel.setMem_mem, hparent]
    exact h.child p (.inr hwas) hi
  · rw [Kernel.setMem_mem, hparent] at hr
    have hlive := h.live p r hr
    have hrp : r ≠ p := by
      rintro rfl
      simp [ProcState.Live, hst] at hlive
    rwa [Kernel.setMem_mem, hother r hrp]

/-- The other assignments. -/
theorem write (h : Parents k V) (hb : Base k V tr σ) {w : Write}
    (hpre : writePre (k.running c) (V (k.thread c)) p w) :
    Parents (k.setMem (k.mem.modify p w.apply))
      (Function.update V (k.thread c) ((V (k.thread c)).write (k.running c) p w)) := by
  have hstill : (∀ x : Proc, (w.apply x).parent = x.parent ∧ (w.apply x).state = x.state) →
      ((V (k.thread c)).write (k.running c) p w).created = (V (k.thread c)).created →
      ((V (k.thread c)).write (k.running c) p w).lore = (V (k.thread c)).lore →
      ((V (k.thread c)).write (k.running c) p w).held = (V (k.thread c)).held →
      Parents (k.setMem (k.mem.modify p w.apply))
        (Function.update V (k.thread c) ((V (k.thread c)).write (k.running c) p w)) := by
    intro hw hcreated hlore hheld
    refine h.quiet rfl (fun q => ?_) (fun q => ?_) (fun q => by rw [hcreated]) (fun q r hq => ?_)
      fun q hq => ?_
    · rw [Kernel.setMem_mem, Mem.modify_proc]
      split_ifs with hq
      · rw [(hw _).1, hq]
      · rfl
    · rw [Kernel.setMem_mem, Mem.modify_proc]
      split_ifs with hq
      · rw [(hw _).2, hq]
      · rfl
    · rw [hlore] at hq
      rw [hheld]
      exact h.known _ q r hq
    · rw [hlore] at hq
      rw [hheld]
      exact h.alive _ q hq
  -- `yield`, `sleep`, `wakeup`, `kill`: the process is alive before and after
  have hmoved : (k.mem.proc p).state.Live → (∀ x : Proc, (w.apply x).parent = x.parent) →
      (∀ x : Proc, (w.apply x).state.Live) →
      ((V (k.thread c)).write (k.running c) p w).created = (V (k.thread c)).created →
      ((V (k.thread c)).write (k.running c) p w).lore = (V (k.thread c)).lore →
      ((V (k.thread c)).write (k.running c) p w).held = (V (k.thread c)).held →
      Parents (k.setMem (k.mem.modify p w.apply))
        (Function.update V (k.thread c) ((V (k.thread c)).write (k.running c) p w)) := by
    intro hwas hw hlive hcreated hlore hheld
    refine h.update rfl (fun q => ?_) (fun q => ?_) (fun q hq => ?_) (fun q hq => ?_)
      (fun q => by rw [hcreated]) (fun q r hq => ?_) fun q hq => ?_
    · rw [Kernel.setMem_mem, Mem.modify_proc]
      split_ifs with hq
      · rw [hw, hq]
      · rfl
    · rw [Kernel.setMem_mem, Mem.modify_proc]
      split_ifs with hqp
      · exact iff_of_true (hlive _).born (hqp ▸ hwas.born)
      · exact Iff.rfl
    · rw [Kernel.setMem_mem, Mem.modify_proc]
      split_ifs with hqp
      · exact hlive _
      · exact hq
    · rw [Kernel.setMem_mem, Mem.modify_proc] at hq
      split_ifs at hq with hqp
      · have := hlive (k.mem.proc p)
        simp [hq, ProcState.Live] at this
      · exact hq
    · rw [hlore] at hq
      rw [hheld]
      exact h.known _ q r hq
    · rw [hlore] at hq
      rw [hheld]
      exact h.alive _ q hq
  cases w with
  | used => exact h.used hb hpre
  | ready => exact h.ready hb hpre
  | free => exact h.free hb hpre
  | exit status => exact h.exit hb hpre
  | parent x => exact h.parent hb hpre
  | fold =>
      refine hmoved ?_ (fun _ => rfl) (fun _ => .inr (.inl rfl)) rfl rfl rfl
      obtain ⟨-, hon, -, hs | ⟨hme, -⟩⟩ := hpre
      · exact .inl (hb.sits.seen c p _ hs)
      · exact .inr (.inr (hb.sits.running_state hme (Kernel.thread_eq_proc.mpr hme ▸ hon)))
  | sleep chan =>
      refine hmoved ?_ (fun _ => rfl) (fun _ => .inl rfl) rfl rfl rfl
      obtain ⟨-, hon, hme, -⟩ := hpre
      exact .inr (.inr (hb.sits.running_state hme (Kernel.thread_eq_proc.mpr hme ▸ hon)))
  | _ => exact hstill (fun _ => ⟨rfl, rfl⟩) rfl rfl rfl

/-! ## The other instructions -/

/-- `allocproc`: the new thread knows nothing. -/
theorem init (h : Parents k V) (hb : Base k V tr σ) {x : Code Int} {root : Slot}
    (hpre : instrPre (k.running c) (.init p) (V (k.thread c))) :
    Parents ((k.setMem (k.mem.modify p Proc.init)).setCode (.proc p) x)
      (Function.update
        (Function.update V (k.thread c) (instrNext (k.running c) (.init p) (V (k.thread c)) ()))
        (.proc p) (.resumed p root z)) := by
  obtain ⟨-, hhead⟩ := hpre
  obtain ⟨l, hl⟩ := List.head?_eq_some_iff.mp hhead
  have hfield : ∀ q, ((k.mem.modify p Proc.init).proc q).parent = (k.mem.proc q).parent ∧
      ((k.mem.modify p Proc.init).proc q).state = (k.mem.proc q).state := fun q => by
    rw [Mem.modify_proc]
    split_ifs with hq
    · exact ⟨by rw [hq]; rfl, by rw [hq]; rfl⟩
    · exact ⟨rfl, rfl⟩
  have hbare := hb.sits.bare p (.inr (.inl (hb.used_of_head hhead)))
  have hne : Thread.proc p ≠ k.thread c := fun e =>
    hb.sits.absent p (.inr (hb.used_of_head hhead)) c (Kernel.thread_eq_proc.mp e.symm)
  have hmade : Parents (k.setMem (k.mem.modify p Proc.init)) (Function.update V (k.thread c)
      (instrNext (k.running c) (.init p) (V (k.thread c)) ())) :=
    h.quiet rfl (fun q => (hfield q).1) (fun q => (hfield q).2)
      (fun q => by simp [instrNext, hl]) (fun q r hq => h.known _ q r hq) fun q hq => h.alive _ q hq
  refine hmade.quiet rfl (fun _ => rfl) (fun _ => rfl) (fun q => ?_) ?_ ?_
  · rw [Function.update_of_ne hne, hbare.created]
    rfl
  · simp [View.resumed, Lore.empty]
  · simp [View.resumed, Lore.empty]

/-- `userinit`: the first process is adopted by nobody. -/
theorem initproc (h : Parents k V) (hb : Base k V tr σ)
    (hpre : instrPre (k.running c) (.initproc p) (V (k.thread c))) :
    Parents (k.setShared { k.shared with initproc := some p })
      (Function.update V (k.thread c)
        (instrNext (k.running c) (.initproc p) (V (k.thread c)) ())) := by
  obtain ⟨-, hstarting, hhead⟩ := hpre
  obtain ⟨l, hl⟩ := List.head?_eq_some_iff.mp hhead
  have hnone := (hb.ancestry.starting _ hstarting).1
  have hother : ∀ q, q ≠ p → (Adopted (Function.update V (k.thread c)
      (instrNext (k.running c) (.initproc p) (V (k.thread c)) ())) q ↔ Adopted V q) :=
    fun q hq => adopted_update (by simp [instrNext, hl, hq])
  have hnobody : ∀ q r, (k.mem.proc q).parent ≠ some r := fun q r hq =>
    (h.begun q r hq).elim (hb.ancestry.not_born hnone q) (not_adopted_of_root hb hnone)
  refine ⟨fun t' q r hq => ?_, fun t' q hq => ?_, fun q r hq => absurd hq (hnobody q r),
    fun q hq hi => ?_, fun q r hq => absurd hq (hnobody q r)⟩
  · by_cases ht : t' = k.thread c
    · rw [ht, Function.update_self] at hq ⊢
      exact h.known _ q r hq
    · rw [Function.update_of_ne ht] at hq ⊢
      exact h.known t' q r hq
  · by_cases ht : t' = k.thread c
    · rw [ht, Function.update_self] at hq ⊢
      exact h.alive _ q hq
    · rw [Function.update_of_ne ht] at hq ⊢
      exact h.alive t' q hq
  · have hqp : q ≠ p := fun e => hi (e ▸ rfl)
    rw [hother q hqp] at hq
    exact absurd hq (not_or.mpr ⟨hb.ancestry.not_born hnone q, not_adopted_of_root hb hnone⟩)

/-- The queue has to do with nobody's parent or state. -/
theorem queue (h : Parents k V) {m : Mem} {v : View}
    (hproc : ∀ q, (m.proc q).parent = (k.mem.proc q).parent ∧
      (m.proc q).state = (k.mem.proc q).state)
    (hcreated : v.created = (V t).created) (hheld : v.held = (V t).held)
    (hlore : v.lore = (V t).lore) : Parents (k.setMem m) (Function.update V t v) :=
  h.quiet rfl (fun q => (hproc q).1) (fun q => (hproc q).2) (fun q => by rw [hcreated])
    (fun q r hq => by rw [hheld]; exact h.known _ q r (hlore ▸ hq))
    fun q hq => by rw [hheld]; exact h.alive _ q (hlore ▸ hq)

/-- Taking a lock loses no knowledge but that under another lock of `sleep`. -/
theorem take (h : Parents k V) (l : Lock) :
    Parents (k.take c l) (Function.update V (k.thread c) ((V (k.thread c)).take l)) := by
  refine h.quiet rfl (fun _ => rfl) (fun _ => rfl) (fun q => by simp) (fun q r hq => ?_)
    fun q hq => ?_
  · cases l with
    | wait | ticks | other m => simp [View.take, Lore.empty] at hq
    | _ => exact ⟨List.mem_cons_of_mem _ (h.known _ q r hq).1, (h.known _ q r hq).2⟩
  · cases l with
    | wait | ticks | other m => simp [View.take, Lore.empty] at hq
    | _ => exact ⟨List.mem_cons_of_mem _ (h.alive _ q hq).1, (h.alive _ q hq).2⟩

/-- Nothing is known after the release of a lock that it was known under. -/
theorem drop (h : Parents k V) (l : Lock) :
    Parents (k.drop c l)
      (Function.update V (k.thread c) ((V (k.thread c)).drop (k.running c) l)) := by
  have hkeep : ∀ l', l' ≠ .wait → .wait ∈ (V (k.thread c)).held →
      .wait ∈ (V (k.thread c)).held.erase l' := fun l' hl' hwait =>
    (List.mem_erase_of_ne (Ne.symm hl')).mpr hwait
  refine h.quiet rfl (fun _ => rfl) (fun _ => rfl) (fun q => by simp) (fun q r hq => ?_)
    fun q hq => ?_
  · cases l with
    | wait | ticks | other m => simp [View.drop, Lore.empty] at hq
    | _ => exact ⟨hkeep _ (by simp) (h.known _ q r hq).1, (h.known _ q r hq).2⟩
  · cases l with
    | wait | ticks | other m => simp [View.drop, Lore.empty] at hq
    | _ => exact ⟨hkeep _ (by simp) (h.alive _ q hq).1, (h.alive _ q hq).2⟩

/-- A process found not to be a zombie. -/
theorem stateIs (h : Parents k V) {st : ProcState} :
    Parents k (Function.update V (k.thread c) (instrNext (k.running c) (.stateIs p st)
      (V (k.thread c)) (decide ((k.mem.proc p).state = st)))) := by
  refine h.quiet rfl (fun _ => rfl) (fun _ => rfl) (fun q => ?_) (fun q r hq => ?_) fun q hq => ?_
  · simp only [instrNext]
    split_ifs <;> exact Iff.rfl
  · have hsame : (instrNext (k.running c) (.stateIs p st) (V (k.thread c))
        (decide ((k.mem.proc p).state = st))).held = (V (k.thread c)).held ∧
        (instrNext (k.running c) (.stateIs p st) (V (k.thread c))
          (decide ((k.mem.proc p).state = st))).lore.parents = (V (k.thread c)).lore.parents := by
      simp only [instrNext]
      split_ifs <;> exact ⟨rfl, rfl⟩
    rw [hsame.2] at hq
    rw [hsame.1]
    exact h.known _ q r hq
  · simp only [instrNext] at hq ⊢
    split_ifs at hq ⊢ with h1 h2 h3
    · exact h.alive _ q hq
    · rcases List.mem_cons.mp hq with rfl | hq
      · exact ⟨h3.2, fun hz => h2 (by simp [h3.1, hz])⟩
      · exact h.alive _ q hq
    · exact h.alive _ q hq
    · exact h.alive _ q hq

end Parents

/-- **What every instruction keeps of the parents.** -/
theorem parents_kept : Kept P z (fun (k : Kernel n) _ V => Parents k V) where
  boot := by
    refine ⟨fun t p q hp => ?_, fun t p hp => ?_, fun p q hp => ?_, fun p hp => ?_,
      fun p q hp => ?_⟩
    · cases t <;> simp [bootView, View.resumed, Lore.empty] at hp
    · cases t <;> simp [bootView, View.resumed, Lore.empty] at hp
    · cases hp
    · rcases hp with hp | ⟨t, hp⟩
      · exact absurd rfl hp.1
      · cases t <;> simp [bootView, View.resumed] at hp
    · cases hp
  congr {k k'} {ℓ V} hshared hlock hnoff hrunning h := by
    have hmem : k'.mem = k.mem := congrArg Shared.mem hshared
    exact ⟨by rw [hmem]; exact h.known, by rw [hmem]; exact h.alive, by rw [hmem]; exact h.begun,
      by rw [hmem, hshared]; exact h.child, by rw [hmem]; exact h.live⟩
  tick _ _ _ _ _ h := h
  instr {k k' ℓ V c e i r tr σ} _ _ hb _ _ hpre hex h := by
    cases i with
    | acquire l =>
        simp only [execute, Option.ite_none_right_eq_some, Option.some.injEq, Prod.mk.injEq] at hex
        obtain ⟨-, rfl, -⟩ := hex
        rw [viewNext_of_ne (by simp)]
        exact h.take l
    | release l =>
        simp only [execute, Option.ite_none_right_eq_some, Option.some.injEq, Prod.mk.injEq] at hex
        obtain ⟨-, rfl, -⟩ := hex
        rw [viewNext_of_ne (by simp)]
        exact h.drop l
    | write p w =>
        simp only [execute, Option.some.injEq, Prod.mk.injEq] at hex
        obtain ⟨rfl, -⟩ := hex
        rw [viewNext_of_ne (by simp)]
        exact h.write hb hpre
    | insert p =>
        obtain ⟨m', tr', rfl, hins, -⟩ := hb.insert_cases hpre.2 hex
        rw [viewNext_of_ne (by simp)]
        refine h.queue (fun q => ?_) rfl rfl rfl
        exact ⟨hins.field Proc.parent (fun _ => rfl) (fun _ _ => rfl) q,
          hins.field Proc.state (fun _ => rfl) (fun _ _ => rfl) q⟩
    | retrieve =>
        rw [viewNext_of_ne (by simp)]
        rcases hb.retrieve_cases hex with ⟨-, rfl, rfl⟩ | ⟨p, m', tr', rfl, rfl, hret, -⟩
        · exact h.queue (m := k'.mem) (fun _ => ⟨rfl, rfl⟩) rfl rfl rfl
        · refine h.queue (fun q => ?_) rfl rfl rfl
          exact ⟨hret.field Proc.parent (fun _ => rfl) (fun _ _ => rfl) q,
            hret.field Proc.state (fun _ => rfl) (fun _ _ => rfl) q⟩
    | dispatch p =>
        simp only [execute, Option.some.injEq, Prod.mk.injEq] at hex
        obtain ⟨rfl, -⟩ := hex
        rw [viewNext_of_ne (by simp)]
        have hst : (k.mem.proc p).state = .runnable :=
          hb.runnable_of_retrieved (Kernel.thread_eq_cpu.mpr ⟨hpre.1, rfl⟩ ▸ hpre.2.2.1)
        refine h.update rfl (fun q => ?_) (fun q => ?_) (fun q hq => ?_) (fun q hq => ?_)
          (fun q => Iff.rfl) (fun q r hq => h.known _ q r hq) fun q hq => h.alive _ q hq
        · rw [Kernel.setRunning_mem, Kernel.setMem_mem, Xv6Cfs.dispatch, Mem.modify_proc]
          split_ifs with hqp
          · rw [hqp]; rfl
          · rfl
        · rw [Kernel.setRunning_mem, Kernel.setMem_mem, Xv6Cfs.dispatch, Mem.modify_proc]
          split_ifs with hqp
          · simp [hqp, hst, ProcState.Born]
          · rfl
        · rw [Kernel.setRunning_mem, Kernel.setMem_mem, Xv6Cfs.dispatch, Mem.modify_proc]
          split_ifs
          · simp [ProcState.Live]
          · exact hq
        · rw [Kernel.setRunning_mem, Kernel.setMem_mem, Xv6Cfs.dispatch, Mem.modify_proc] at hq
          split_ifs at hq
          · simp at hq
          · exact hq
    | switch p =>
        simp only [execute, Option.ite_none_right_eq_some, Option.some.injEq, Prod.mk.injEq] at hex
        obtain ⟨-, rfl, -⟩ := hex
        rw [viewNext_of_ne (by simp)]
        exact h.quiet rfl (fun _ => rfl) (fun _ => rfl) (fun _ => Iff.rfl)
          (fun q r hq => h.known _ q r hq) fun q hq => h.alive _ q hq
    | init p =>
        simp only [execute, Option.some.injEq, Prod.mk.injEq] at hex
        obtain ⟨rfl, -⟩ := hex
        simp only [viewNext, Kernel.thread_me]
        exact h.init hb hpre
    | initproc p =>
        simp only [execute, Option.some.injEq, Prod.mk.injEq] at hex
        obtain ⟨rfl, -⟩ := hex
        rw [viewNext_of_ne (by simp)]
        exact h.initproc hb hpre
    | panic => simp [execute] at hex
    | stateIs p st =>
        simp only [execute, Option.some.injEq, Prod.mk.injEq] at hex
        obtain ⟨rfl, rfl⟩ := hex
        rw [viewNext_of_ne (by simp)]
        exact h.stateIs
    | pidIs p x =>
        simp only [execute, Option.some.injEq, Prod.mk.injEq] at hex
        obtain ⟨rfl, rfl⟩ := hex
        rw [viewNext_of_ne (by simp)]
        simp only [instrNext]
        split_ifs <;> exact h.quiet rfl (fun _ => rfl) (fun _ => rfl) (fun _ => Iff.rfl)
          (fun q r hq => h.known _ q r hq) fun q hq => h.alive _ q hq
    | sleepsOn p chan =>
        simp only [execute, Option.some.injEq, Prod.mk.injEq] at hex
        obtain ⟨rfl, rfl⟩ := hex
        rw [viewNext_of_ne (by simp)]
        refine h.quiet rfl (fun _ => rfl) (fun _ => rfl) (fun _ => Iff.rfl) (fun q r hq => ?_)
          fun q hq => ?_
        · refine h.known _ q r ?_
          simp only [instrNext] at hq
          split_ifs at hq <;> exact hq
        · refine h.alive _ q ?_
          simp only [instrNext] at hq
          split_ifs at hq <;> exact hq
    | parentOf p =>
        simp only [execute, Option.some.injEq, Prod.mk.injEq] at hex
        obtain ⟨rfl, rfl⟩ := hex
        rw [viewNext_of_ne (by simp)]
        refine h.quiet rfl (fun _ => rfl) (fun _ => rfl) (fun _ => Iff.rfl) (fun q r hq => ?_)
          fun q hq => h.alive _ q hq
        simp only [instrNext, Lore.learn_parents, List.mem_cons, Prod.mk.injEq] at hq
        rcases hq with ⟨rfl, rfl⟩ | hq
        · exact ⟨hpre, rfl⟩
        · exact h.known _ q r hq
    | _ =>
        simp only [execute, Option.some.injEq, Prod.mk.injEq] at hex
        obtain ⟨rfl, -⟩ := hex
        rw [viewNext_of_ne (by simp)]
        exact h.quiet rfl (fun _ => rfl) (fun _ => rfl) (fun _ => Iff.rfl)
          (fun q r hq => h.known _ q r hq) fun q hq => h.alive _ q hq

/-- **What is so of the parents in every reachable state.** -/
theorem parents_traced (hz : Spared P z) (h : Traced P z k ℓ V) : Parents k V :=
  parents_kept.traced hz h

end Xv6Cfs
