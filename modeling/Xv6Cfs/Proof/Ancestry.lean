import Xv6Cfs.Proof.Situations

/-!
# What `initproc` is

Once a process has begun there is an `initproc`, every thread knows which it is,
and it never ends.
-/

namespace Xv6Cfs

variable {n : Nat} {k : Kernel n} {V : Thread n → View}

/-- A process that has begun. -/
def ProcState.Born (st : ProcState) : Prop := st ≠ .unused ∧ st ≠ .used

/-- A process that has begun and not ended. -/
def ProcState.Live (st : ProcState) : Prop := st = .sleeping ∨ st = .runnable ∨ st = .running

theorem ProcState.Live.born {st : ProcState} (h : st.Live) : st.Born := by
  rcases h with rfl | rfl | rfl <;> simp [ProcState.Born]

/-- What the views say of `initproc` is so. -/
structure Ancestry (k : Kernel n) (V : Thread n → View) : Prop where
  root : ∀ p, (k.mem.proc p).state.Born → k.shared.initproc = some (V (.proc p)).root
  starting : ∀ t, (V t).starting = true →
    k.shared.initproc = none ∧ ∃ c, t = .cpu c ∧ c.val = 0
  making : ∀ t p g, (p, g) ∈ (V t).created → g ≠ .allocated →
    (V (.proc p)).root = k.shared.initproc.getD p
  scheduler : ∀ c p g, (p, g) ∈ (V (.cpu c)).created →
    (c.val = 0 ∧ (V (.cpu c)).created = [(p, g)] ∧ ∀ q, ¬(k.mem.proc q).state.Born) ∧
      (g = .adopted → k.shared.initproc = some p) ∧ (g ≠ .adopted → (V (.cpu c)).starting = true)
  live : ∀ i, k.shared.initproc = some i →
    (k.mem.proc i).state.Live ∨ ∃ c, (i, .adopted) ∈ (V (.cpu c)).created

variable {qs : List Slot} {σ : Slot → Sit n} {p : Slot} {c : Fin n}

/-- A running process has begun. -/
theorem Situations.born_of_running (h : Situations k V qs σ) (hc : k.running c = some p) :
    (k.mem.proc p).state.Born :=
  ⟨fun e => h.absent p (.inl e) c hc, fun e => h.absent p (.inr e) c hc⟩

namespace Ancestry

/-- Before `initproc` is set no process has begun. -/
theorem not_born (h : Ancestry k V) (hnone : k.shared.initproc = none) (q : Slot) :
    ¬(k.mem.proc q).state.Born := fun hq => by simp [h.root q hq] at hnone

/-- **Once a process has begun, `initproc` is alive.** -/
theorem live_of_born (h : Ancestry k V) {q i : Slot} (hq : (k.mem.proc q).state.Born)
    (hi : k.shared.initproc = some i) : (k.mem.proc i).state.Live := by
  rcases h.live i hi with hlive | ⟨c, hc⟩
  · exact hlive
  · exact absurd hq ((h.scheduler c i _ hc).1.2.2 q)

/-- A step that begins and ends no process. -/
theorem update (h : Ancestry k V) {k' : Kernel n} {t : Thread n} {v : View}
    (hinit : k'.shared.initproc = k.shared.initproc)
    (hborn : ∀ q, (k'.mem.proc q).state.Born ↔ (k.mem.proc q).state.Born)
    (hlive : ∀ i, k.shared.initproc = some i → (k.mem.proc i).state.Live →
      (k'.mem.proc i).state.Live)
    (hcreated : ∀ q g, (q, g) ∈ v.created → g ≠ .allocated →
      ∃ g', g' ≠ .allocated ∧ (q, g') ∈ (V t).created)
    (hcpu : ∀ c, t = .cpu c → v.created = (V t).created)
    (hstarting : v.starting = (V t).starting) (hroot : v.root = (V t).root) :
    Ancestry k' (Function.update V t v) := by
  have hst : ∀ t', (Function.update V t v t').starting = (V t').starting := fun t' => by
    by_cases ht : t' = t <;> simp [ht, hstarting]
  have hro : ∀ t', (Function.update V t v t').root = (V t').root := fun t' => by
    by_cases ht : t' = t <;> simp [ht, hroot]
  have hcr : ∀ c, (Function.update V t v (.cpu c)).created = (V (.cpu c)).created := fun c => by
    by_cases ht : Thread.cpu c = t
    · rw [ht, Function.update_self]
      exact hcpu c ht.symm
    · rw [Function.update_of_ne ht]
  refine ⟨fun p hp => ?_, fun t' ht' => ?_, fun t' p g hp hg => ?_, fun c p g hp => ?_,
    fun i hi => ?_⟩
  · rw [hinit, hro]
    exact h.root p ((hborn p).mp hp)
  · rw [hst] at ht'
    rw [hinit]
    exact h.starting t' ht'
  · rw [hinit, hro]
    by_cases ht : t' = t
    · rw [ht, Function.update_self] at hp
      obtain ⟨g', hg', hp'⟩ := hcreated p g hp hg
      exact h.making t p g' hp' hg'
    · rw [Function.update_of_ne ht] at hp
      exact h.making t' p g hp hg
  · rw [hcr] at hp ⊢
    rw [hst, hinit]
    obtain ⟨⟨h1, h2, h3⟩, h4, h5⟩ := h.scheduler c p g hp
    exact ⟨⟨h1, h2, fun q hq => h3 q ((hborn q).mp hq)⟩, h4, h5⟩
  · rw [hinit] at hi
    rcases h.live i hi with hl | ⟨c, hc⟩
    · exact .inl (hlive i hi hl)
    · exact .inr ⟨c, hcr c ▸ hc⟩

/-- A scheduler that makes a process is that of the first CPU. -/
theorem eq_of_making (h : Ancestry k V) {c' : Fin n} {q q' : Slot} {g g' : Stage}
    (hc : (q, g) ∈ (V (.cpu c)).created) (hc' : (q', g') ∈ (V (.cpu c')).created) : c = c' :=
  Fin.ext ((h.scheduler c q g hc).1.1.trans (h.scheduler c' q' g' hc').1.1.symm)

/-- The thread of a process that makes another has begun. -/
theorem born_of_making (hs : Situations k V qs σ) {q r : Slot} {g : Stage}
    (hq : (q, g) ∈ (V (.proc r)).created) : (k.mem.proc r).state.Born := by
  constructor <;> intro hst
  · have := (hs.bare r (.inl hst)).created
    simp [this] at hq
  · have := (hs.bare r (.inr (.inl hst))).created
    simp [this] at hq

theorem used (h : Ancestry k V) (hs : Situations k V qs σ)
    (hpre : writePre (k.running c) (V (k.thread c)) p .used) :
    Ancestry (k.setMem (k.mem.modify p Write.used.apply))
      (Function.update V (k.thread c) ((V (k.thread c)).write (k.running c) p .used)) := by
  obtain ⟨⟨-, -, hseen⟩, -, hboot⟩ := hpre
  have hst := hs.seen c p _ hseen
  have hborn : ∀ q, ((k.mem.modify p Write.used.apply).proc q).state.Born ↔
      (k.mem.proc q).state.Born := fun q => by
    by_cases hq : q = p
    · subst hq
      simp [ProcState.Born, hst, Write.apply]
    · rw [Mem.modify_ne _ _ hq]
  -- The scheduler of the first CPU makes its only process.
  have hcpu : ∀ c', k.thread c = .cpu c' → (V (.cpu c')).starting = true ∧
      (V (.cpu c')).created = [] := fun c' hc' => by
    obtain ⟨hnone, rfl⟩ := Kernel.thread_eq_cpu.mp hc'
    exact hc' ▸ hboot hnone
  have hro : ∀ t, (Function.update V (k.thread c)
      ((V (k.thread c)).write (k.running c) p .used) t).root = (V t).root := fun t => by
    by_cases ht : t = k.thread c <;> simp [ht, View.write]
  have hst' : ∀ t, (Function.update V (k.thread c)
      ((V (k.thread c)).write (k.running c) p .used) t).starting = (V t).starting := fun t => by
    by_cases ht : t = k.thread c <;> simp [ht, View.write]
  refine ⟨fun q hq => ?_, fun t ht => ?_, fun t q g hq hg => ?_, fun c' q g hq => ?_,
    fun i hi => ?_⟩
  · rw [hro]
    exact h.root q ((hborn q).mp hq)
  · exact h.starting t (hst' t ▸ ht)
  · rw [hro]
    by_cases ht : t = k.thread c
    · subst ht
      have : (q, g) ∈ (V (k.thread c)).created := by
        simpa [View.write, hg] using hq
      exact h.making _ q g this hg
    · rw [Function.update_of_ne ht] at hq
      exact h.making t q g hq hg
  · rw [hst']
    by_cases ht : Thread.cpu c' = k.thread c
    · obtain ⟨hstart, hnil⟩ := hcpu c' ht.symm
      obtain ⟨hnone, c₀, hc₀, hzero⟩ := h.starting _ hstart
      obtain rfl : c' = c₀ := by simpa using hc₀
      rw [ht, Function.update_self] at hq ⊢
      simp only [View.write, ← ht, hnil, List.mem_singleton, Prod.mk.injEq] at hq
      obtain ⟨rfl, rfl⟩ := hq
      exact ⟨⟨hzero, by simp [View.write, ← ht, hnil], fun q hq =>
        h.not_born hnone q ((hborn q).mp hq)⟩, by simp, fun _ => ht ▸ hstart⟩
    · rw [Function.update_of_ne ht] at hq ⊢
      obtain ⟨⟨h1, h2, h3⟩, h4, h5⟩ := h.scheduler c' q g hq
      exact ⟨⟨h1, h2, fun q hq => h3 q ((hborn q).mp hq)⟩, h4, h5⟩
  · rcases h.live i hi with hl | ⟨c', hc'⟩
    · refine .inl ?_
      have hip : i ≠ p := fun e => by
        rw [e, hst] at hl
        simp [ProcState.Live] at hl
      simpa [Mem.modify_ne _ _ hip] using hl
    · refine .inr ⟨c', ?_⟩
      by_cases ht : Thread.cpu c' = k.thread c
      · have := (hcpu c' ht.symm).2
        simp [this] at hc'
      · rwa [Function.update_of_ne ht]

/-- `allocproc`, its end: the new thread knows what `initproc` is, or that it is itself. -/
theorem init (h : Ancestry k V) (hs : Situations k V qs σ) {z : Bool}
    (hhead : (V (k.thread c)).created.head? = some (p, .allocated)) {k' : Kernel n}
    (hinit : k'.shared.initproc = k.shared.initproc)
    (hstate : ∀ q, (k'.mem.proc q).state = (k.mem.proc q).state) :
    Ancestry k' (Function.update
      (Function.update V (k.thread c)
        { V (k.thread c) with created := (p, .initialised) :: (V (k.thread c)).created.tail })
      (.proc p) (.resumed p (k.shared.initproc.getD p) z)) := by
  obtain ⟨l, hcreated, hmaking, hpl, hσ⟩ := hs.created_head hhead
  have hst : (k.mem.proc p).state = .used := by
    have := hs.fits p
    rwa [hσ] at this
  have hbare := hs.bare p (.inr (.inl hst))
  set v := { V (k.thread c) with created := (p, .initialised) :: (V (k.thread c)).created.tail }
    with hv
  set V' := Function.update (Function.update V (k.thread c) v) (.proc p)
    (.resumed p (k.shared.initproc.getD p) z) with hV'
  have hne : k.thread c ≠ .proc p := fun e => by
    rw [e, hbare.created] at hcreated
    simp at hcreated
  have hself : V' (k.thread c) = v := by rw [hV', Function.update_of_ne hne, Function.update_self]
  have hp : V' (.proc p) = .resumed p (k.shared.initproc.getD p) z := by
    rw [hV', Function.update_self]
  have hother : ∀ t, t ≠ k.thread c → t ≠ .proc p → V' t = V t := fun t h1 h2 => by
    rw [hV', Function.update_of_ne h2, Function.update_of_ne h1]
  have hro : ∀ q, q ≠ p → (V' (.proc q)).root = (V (.proc q)).root := fun q hq => by
    by_cases ht : Thread.proc q = k.thread c
    · rw [ht, hself]
    · rw [hother _ ht (by simp [hq])]
  have hst' : ∀ c', (V' (.cpu c')).starting = (V (.cpu c')).starting := fun c' => by
    by_cases ht : Thread.cpu c' = k.thread c
    · rw [ht, hself]
    · rw [hother _ ht (by simp)]
  -- Nobody else makes `p`.
  have honly : ∀ t g, (p, g) ∈ (V t).created → t = k.thread c := fun t g hg => by
    have := (hs.created t p).mp (List.mem_map.mpr ⟨_, hg, rfl⟩)
    rw [hσ] at this
    exact (Sit.created.inj this).symm
  refine ⟨fun q hq => ?_, fun t ht => ?_, fun t q g hq hg => ?_, fun c' q g hq => ?_,
    fun i hi => ?_⟩
  · rw [hstate] at hq
    have hqp : q ≠ p := fun e => by
      rw [e, hst] at hq
      simp [ProcState.Born] at hq
    rw [hinit, hro q hqp]
    exact h.root q hq
  · rw [hinit]
    refine h.starting t ?_
    by_cases h2 : t = .proc p
    · rw [h2, hp] at ht
      simp [View.resumed] at ht
    · by_cases h1 : t = k.thread c
      · rw [h1, hself] at ht
        rwa [h1]
      · rwa [hother t h1 h2] at ht
  · rw [hinit]
    have hcase : q = p ∨ q ≠ p ∧ (q, g) ∈ (V t).created := by
      by_cases hqp : q = p
      · exact .inl hqp
      · refine .inr ⟨hqp, ?_⟩
        by_cases h2 : t = .proc p
        · rw [h2, hp] at hq
          simp [View.resumed] at hq
        · by_cases h1 : t = k.thread c
          · rw [h1, hself, hv] at hq
            rw [h1]
            simp only [List.mem_cons, Prod.mk.injEq, hqp, false_and, false_or] at hq
            exact List.mem_of_mem_tail hq
          · rwa [hother t h1 h2] at hq
    rcases hcase with rfl | ⟨hqp, hmem⟩
    · rw [hp]
      rfl
    · rw [hro q hqp]
      exact h.making t q g hmem hg
  · rw [hst', hinit]
    by_cases ht : Thread.cpu c' = k.thread c
    · have hmem : (p, .allocated) ∈ (V (.cpu c')).created := by rw [ht, hcreated]; simp
      obtain ⟨⟨h1, h2, h3⟩, -, h5⟩ := h.scheduler c' p _ hmem
      have hv' : v.created = [(p, .initialised)] := by simp [hv, ← ht, h2]
      rw [ht, hself, hv'] at hq ⊢
      simp only [List.mem_singleton, Prod.mk.injEq] at hq
      obtain ⟨rfl, rfl⟩ := hq
      exact ⟨⟨h1, rfl, fun q hq => h3 q (hstate q ▸ hq)⟩, by simp, fun _ => ht ▸ h5 (by simp)⟩
    · rw [hother _ ht (by simp)] at hq ⊢
      obtain ⟨⟨h1, h2, h3⟩, h4, h5⟩ := h.scheduler c' q g hq
      exact ⟨⟨h1, h2, fun q hq => h3 q (hstate q ▸ hq)⟩, h4, h5⟩
  · rw [hstate]
    rcases h.live i (hinit ▸ hi) with hl | ⟨c', hc'⟩
    · exact .inl hl
    · refine .inr ⟨c', ?_⟩
      by_cases ht : Thread.cpu c' = k.thread c
      · rw [ht, hcreated, List.mem_cons] at hc'
        rw [ht, hself, hv, hcreated]
        simpa using hc'
      · rwa [hother _ ht (by simp)]

/-- `userinit` sets `initproc`. -/
theorem initproc (h : Ancestry k V) (hs : Situations k V qs σ)
    (hpre : instrPre (k.running c) (.initproc p) (V (k.thread c))) :
    Ancestry (k.setShared { k.shared with initproc := some p })
      (Function.update V (k.thread c)
        { V (k.thread c) with
          created := (p, .adopted) :: (V (k.thread c)).created.tail, starting := false }) := by
  obtain ⟨hme, hstart, hhead⟩ := hpre
  have hthread : k.thread c = .cpu c := Kernel.thread_eq_cpu.mpr ⟨hme, rfl⟩
  obtain ⟨hnone, -⟩ := h.starting _ hstart
  obtain ⟨l, hcreated, -, -, -⟩ := hs.created_head hhead
  have hmem : (p, .initialised) ∈ (V (.cpu c)).created := by rw [← hthread, hcreated]; simp
  obtain ⟨⟨hzero, hone, hborn⟩, -, -⟩ := h.scheduler c p _ hmem
  have hroot : (V (.proc p)).root = p := by
    rw [h.making _ p _ hmem (by simp), hnone]
    rfl
  rw [hthread]
  have hown : (p, Stage.adopted) :: (V (.cpu c)).created.tail = [(p, .adopted)] := by
    rw [hone, List.tail_cons]
  refine ⟨fun q hq => absurd hq (hborn q), fun t ht => ?_, fun t q g hq hg => ?_,
    fun c' q g hq => ?_, fun i hi => ?_⟩
  · by_cases htc : t = .cpu c
    · simp [htc] at ht
    · rw [Function.update_of_ne htc] at ht
      obtain ⟨-, c', rfl, hc'⟩ := h.starting t ht
      exact absurd (congrArg Thread.cpu (Fin.ext (hc'.trans hzero.symm))) htc
  · rw [Function.update_of_ne (by simp)]
    by_cases htc : t = .cpu c
    · rw [htc, Function.update_self, hown] at hq
      simp only [List.mem_singleton, Prod.mk.injEq] at hq
      rw [hq.1, hroot]
      rfl
    · rw [Function.update_of_ne htc] at hq
      cases t with
      | cpu c' => exact absurd (congrArg Thread.cpu (h.eq_of_making hq hmem)) htc
      | proc r => exact absurd (born_of_making hs hq) (hborn r)
  · by_cases hc' : c' = c
    · subst hc'
      rw [Function.update_self] at hq ⊢
      rw [hown] at hq
      simp only [List.mem_singleton, Prod.mk.injEq] at hq
      obtain ⟨rfl, rfl⟩ := hq
      exact ⟨⟨hzero, hown, hborn⟩, fun _ => rfl, by simp⟩
    · rw [Function.update_of_ne (by simp [hc'])] at hq
      exact absurd (h.eq_of_making hq hmem) hc'
  · obtain rfl : p = i := by simpa using hi
    exact .inr ⟨c, by simp⟩

/-- A new process is made `RUNNABLE`: `initproc`, or the child of a process. -/
theorem ready (h : Ancestry k V) (hs : Situations k V qs σ)
    (hpre : writePre (k.running c) (V (k.thread c)) p .ready) :
    Ancestry (k.setMem (k.mem.modify p Write.ready.apply))
      (Function.update V (k.thread c) ((V (k.thread c)).write (k.running c) p .ready)) := by
  obtain ⟨-, -, hhead⟩ := hpre
  obtain ⟨l, hcreated, hmaking, hpl, hσ⟩ := hs.created_head hhead
  have hmem : (p, .adopted) ∈ (V (k.thread c)).created := by simp [hcreated]
  have hst : (k.mem.proc p).state = .used := by
    have := hs.fits p
    rwa [hσ] at this
  have hstp : ((k.mem.modify p Write.ready.apply).proc p).state = .runnable := by
    simp [Write.apply]
  have hother : ∀ q, q ≠ p → ((k.mem.modify p Write.ready.apply).proc q).state =
      (k.mem.proc q).state := fun q hq => by rw [Mem.modify_ne _ _ hq]
  -- There is an `initproc`, either because the maker has begun or because it is `p`.
  have hinit : ∃ i, k.shared.initproc = some i := by
    cases hme : k.running c with
    | some r => exact ⟨_, h.root r (hs.born_of_running hme)⟩
    | none =>
        have hthread : k.thread c = .cpu c := Kernel.thread_eq_cpu.mpr ⟨hme, rfl⟩
        exact ⟨p, (h.scheduler c p _ (hthread ▸ hmem)).2.1 rfl⟩
  obtain ⟨i, hi⟩ := hinit
  have hrootp : (V (.proc p)).root = i := by
    rw [h.making _ p _ hmem (by simp), hi]
    rfl
  set v := (V (k.thread c)).write (k.running c) p .ready with hv
  have hvc : v.created = l := by simp [hv, View.write, hcreated]
  have hro : ∀ t, (Function.update V (k.thread c) v t).root = (V t).root := fun t => by
    by_cases ht : t = k.thread c <;> simp [ht, hv, View.write]
  have hst' : ∀ t, (Function.update V (k.thread c) v t).starting = (V t).starting := fun t => by
    by_cases ht : t = k.thread c <;> simp [ht, hv, View.write]
  refine ⟨fun q hq => ?_, fun t ht => ?_, fun t q g hq hg => ?_, fun c' q g hq => ?_,
    fun j hj => ?_⟩
  · rw [hro]
    by_cases hqp : q = p
    · rw [hqp, hrootp]
      exact hi
    · exact h.root q (hother q hqp ▸ hq)
  · exact h.starting t (hst' t ▸ ht)
  · rw [hro]
    by_cases ht : t = k.thread c
    · rw [ht, Function.update_self, hvc] at hq
      exact h.making (k.thread c) q g (by simp [hcreated, hq]) hg
    · rw [Function.update_of_ne ht] at hq
      exact h.making t q g hq hg
  · -- A scheduler that still makes a process cannot be: it would have made `p` alone.
    exfalso
    by_cases ht : Thread.cpu c' = k.thread c
    · have hone := (h.scheduler c' p _ (ht ▸ hmem)).1.2.1
      rw [ht, hcreated] at hone
      obtain rfl : l = [] := by simpa using hone
      rw [ht, Function.update_self, hvc] at hq
      simp at hq
    · rw [Function.update_of_ne ht] at hq
      cases hme : k.running c with
      | some r => exact (h.scheduler c' q g hq).1.2.2 r (hs.born_of_running hme)
      | none =>
          have hthread : k.thread c = .cpu c := Kernel.thread_eq_cpu.mpr ⟨hme, rfl⟩
          exact ht (hthread ▸ congrArg Thread.cpu (h.eq_of_making hq (hthread ▸ hmem)))
  · refine .inl ?_
    by_cases hjp : j = p
    · rw [hjp]
      exact .inr (.inl hstp)
    · rw [Kernel.setMem_mem, hother j hjp]
      rcases h.live j hj with hl | ⟨c', hc'⟩
      · exact hl
      · exfalso
        obtain ⟨⟨-, hone, hborn⟩, -, -⟩ := h.scheduler c' j _ hc'
        by_cases ht : Thread.cpu c' = k.thread c
        · rw [ht, hcreated] at hone
          simp [Ne.symm hjp] at hone
        · cases hme : k.running c with
          | some r => exact hborn r (hs.born_of_running hme)
          | none =>
              have hthread : k.thread c = .cpu c := Kernel.thread_eq_cpu.mpr ⟨hme, rfl⟩
              exact ht (hthread ▸ congrArg Thread.cpu (h.eq_of_making hc' (hthread ▸ hmem)))

/-- `freeproc` frees a zombie, or a process that has no parent yet. -/
theorem free (h : Ancestry k V) (hs : Situations k V qs σ)
    (hpre : writePre (k.running c) (V (k.thread c)) p .free) :
    Ancestry (k.setMem (k.mem.modify p Write.free.apply))
      (Function.update V (k.thread c) ((V (k.thread c)).write (k.running c) p .free)) := by
  obtain ⟨-, -, hcase⟩ := hpre
  have hstp : ((k.mem.modify p Write.free.apply).proc p).state = .unused := by
    simp [Write.apply]
  have hother : ∀ q, q ≠ p → ((k.mem.modify p Write.free.apply).proc q).state =
      (k.mem.proc q).state := fun q hq => by rw [Mem.modify_ne _ _ hq]
  have hborn : ∀ q, ((k.mem.modify p Write.free.apply).proc q).state.Born →
      (k.mem.proc q).state.Born := fun q hq => by
    by_cases hqp : q = p
    · rw [hqp, hstp] at hq
      simp [ProcState.Born] at hq
    · rwa [hother q hqp] at hq
  set v := (V (k.thread c)).write (k.running c) p .free with hv
  have hro : ∀ t, (Function.update V (k.thread c) v t).root = (V t).root := fun t => by
    by_cases ht : t = k.thread c <;> simp [ht, hv, View.write]
  have hst' : ∀ t, (Function.update V (k.thread c) v t).starting = (V t).starting := fun t => by
    by_cases ht : t = k.thread c <;> simp [ht, hv, View.write]
  have hsub : ∀ x, x ∈ v.created → x ∈ (V (k.thread c)).created := fun x hx => by
    simp only [hv, View.write] at hx
    split at hx
    · exact List.mem_of_mem_tail hx
    · exact hx
  have hsub' : ∀ t x, x ∈ (Function.update V (k.thread c) v t).created → x ∈ (V t).created :=
    fun t x hx => by
      by_cases ht : t = k.thread c
      · rw [ht, Function.update_self] at hx
        exact ht ▸ hsub x hx
      · rwa [Function.update_of_ne ht] at hx
  refine ⟨fun q hq => ?_, fun t ht => ?_, fun t q g hq hg => ?_, fun c' q g hq => ?_,
    fun i hi => ?_⟩
  · rw [hro]
    exact h.root q (hborn q hq)
  · exact h.starting t (hst' t ▸ ht)
  · rw [hro]
    exact h.making t q g (hsub' t _ hq) hg
  · obtain ⟨⟨h1, h2, h3⟩, h4, h5⟩ := h.scheduler c' q g (hsub' _ _ hq)
    refine ⟨⟨h1, ?_, fun q hq => h3 q (hborn q hq)⟩, h4, hst' (.cpu c') ▸ h5⟩
    by_cases ht : Thread.cpu c' = k.thread c
    · rw [ht, Function.update_self] at hq ⊢
      rw [ht] at h2
      simp only [hv, View.write, h2] at hq ⊢
      split at hq
      · simp at hq
      · rename_i hseen
        simp [hseen]
    · rwa [Function.update_of_ne ht]
  · rcases h.live i hi with hl | ⟨c', hc'⟩
    · refine .inl ?_
      have hip : i ≠ p := by
        rintro rfl
        rcases hcase with ⟨hseen, -⟩ | ⟨-, g, -, hhead⟩
        · rw [hs.seen c i _ hseen] at hl
          simp [ProcState.Live] at hl
        · obtain ⟨l, -, -, -, hσ⟩ := hs.created_head hhead
          have := hs.fits i
          rw [hσ] at this
          have hused : (k.mem.proc i).state = .used := this
          rw [hused] at hl
          simp [ProcState.Live] at hl
      rw [Kernel.setMem_mem, hother i hip]
      exact hl
    · refine .inr ⟨c', ?_⟩
      by_cases ht : Thread.cpu c' = k.thread c
      · obtain ⟨⟨-, hone, -⟩, -, -⟩ := h.scheduler c' i _ hc'
        obtain ⟨hnone, rfl⟩ := Kernel.thread_eq_cpu.mp ht.symm
        rcases hcase with ⟨-, -, hme, -⟩ | ⟨-, g, hg, hhead⟩
        · simp [hnone] at hme
        · rw [← ht, hone] at hhead
          simp only [List.head?_cons, Option.some.injEq, Prod.mk.injEq] at hhead
          exact absurd hhead.2.symm hg
      · rwa [Function.update_of_ne ht]

end Ancestry

end Xv6Cfs
