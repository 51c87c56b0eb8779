import Xv6Cfs.Visual.Main

/-!
# What the table holds

After any sequence of records within the bounds of the arrays the table is described
by the set of these records alone: by the slots they cover, and by the smallest and
the largest numbers in them. Each record is entered on top of such a description.
-/

namespace Xv6Cfs.Visual

/-! ## Records and slots -/

namespace Record

/-- Where the marked slots end. -/
def stop (r : Record) : Int := if r.start = r.finish then r.finish + 1 else r.finish

/-- The slot is one of those of the record. -/
def Marks (r : Record) (t : Int) : Prop := r.start ≤ t ∧ t < r.stop

instance (r : Record) (t : Int) : Decidable (r.Marks t) := inferInstanceAs (Decidable (_ ∧ _))

/-- The record is one for which the arrays are made. -/
structure InBounds (r : Record) : Prop where
  p_nonneg : 0 ≤ r.p
  p_lt : r.p < MAX_PROCESSES
  start_nonneg : 0 ≤ r.start
  start_le : r.start ≤ r.finish
  finish_lt : r.finish < MAX_TIME

instance (r : Record) : Decidable r.InBounds :=
  decidable_of_iff (0 ≤ r.p ∧ r.p < MAX_PROCESSES ∧ 0 ≤ r.start ∧ r.start ≤ r.finish ∧
    r.finish < MAX_TIME) ⟨fun ⟨h1, h2, h3, h4, h5⟩ => ⟨h1, h2, h3, h4, h5⟩,
      fun ⟨h1, h2, h3, h4, h5⟩ => ⟨h1, h2, h3, h4, h5⟩⟩

namespace InBounds

variable {r : Record}

theorem start_lt_stop (h : r.InBounds) : r.start < r.stop := by
  have := h.start_le
  unfold stop
  split_ifs <;> omega

theorem stop_le (h : r.InBounds) : r.stop ≤ MAX_TIME := by
  have := h.finish_lt
  unfold stop
  split_ifs <;> omega

theorem marks_start (h : r.InBounds) : r.Marks r.start := ⟨le_refl _, h.start_lt_stop⟩

end InBounds

end Record

/-- The active slots of `p`. -/
noncomputable def slots (rs : List Record) (p : Int) : Finset Int :=
  (Finset.Ico 0 MAX_TIME).filter fun t => ∃ r ∈ rs, r.p = p ∧ r.Marks t

theorem mem_slots {rs : List Record} (h : ∀ r ∈ rs, r.InBounds) {p t : Int} :
    t ∈ slots rs p ↔ ∃ r ∈ rs, r.p = p ∧ r.Marks t := by
  simp only [slots, Finset.mem_filter, Finset.mem_Ico, and_iff_right_iff_imp]
  rintro ⟨r, hr, -, hlo, hhi⟩
  have := (h r hr).start_nonneg
  have := (h r hr).stop_le
  omega

/-! ## The loop over the slots -/

theorem checkIndex_ok {bound i : Int} (h : 0 ≤ i ∧ i < bound) :
    checkIndex bound i = .ok () := if_pos h

@[simp] theorem ok_bind {α β : Type} (x : α) (f : α → Except Fault β) :
    (Except.ok x >>= f) = f x := rfl

@[simp] theorem pure_eq_ok {α : Type} (x : α) : (pure x : Except Fault α) = .ok x := rfl

/-- What the loop over `n` slots from `t` on leaves. -/
structure Marked (p first t : Int) (n : Nat) (s s' : Chart) : Prop where
  active : ∀ q u, s'.active q u = true ↔ s.active q u = true ∨ q = p ∧ t ≤ u ∧ u < t + n
  other : ∀ q, q ≠ p → s'.processDetails q = s.processDetails q
  start : (s'.processDetails p).start = (s.processDetails p).start
  last : (s'.processDetails p).last =
    if n = 0 then (s.processDetails p).last else max (s.processDetails p).last first
  burst : (s'.processDetails p).burst = (s.processDetails p).burst +
    ((Finset.Ico t (t + n)).filter fun u => s.active p u = false).card
  available : s'.processAvailable = s.processAvailable
  maxProcess : s'.maxProcess = s.maxProcess
  currentTime : s'.currentTime = s.currentTime

/-- One slot more. -/
theorem Marked.step {p first t : Int} {n : Nat} {s s' : Chart} {d : Details}
    (hstart : d.start = (s.processDetails p).start)
    (hlast : d.last = max (s.processDetails p).last first)
    (hburst : d.burst = (s.processDetails p).burst + if s.active p t then 0 else 1)
    (h : Marked p first (t + 1) n ((s.setActive p t).setDetails p d) s') :
    Marked p first t (n + 1) s s' := by
  have hactive : ∀ q u, ((s.setActive p t).setDetails p d).active q u = true ↔
      s.active q u = true ∨ q = p ∧ u = t := fun q u => by
    simp only [Chart.setDetails_active, Chart.setActive_active, Function.update_apply]
    by_cases hq : q = p
    · subst hq
      by_cases hu : u = t <;> simp [hu]
    · simp [hq]
  have hself : ((s.setActive p t).setDetails p d).processDetails p = d := by simp
  have hlast' := h.last
  have hburst' := h.burst
  rw [hself] at hlast' hburst'
  -- the slots from `t + 1` on are as active as before
  have hsame : ((Finset.Ico (t + 1) (t + 1 + n)).filter fun u =>
      ((s.setActive p t).setDetails p d).active p u = false) =
      (Finset.Ico (t + 1) (t + 1 + n)).filter fun u => s.active p u = false := by
    refine Finset.filter_congr fun u hu => ?_
    have hne : u ≠ t := by
      have := (Finset.mem_Ico.mp hu).1
      omega
    have := hactive p u
    simp only [hne, and_false, or_false] at this
    rw [← Bool.not_eq_true, ← Bool.not_eq_true, this]
  have hico : Finset.Ico t (t + ((n + 1 : Nat) : Int)) =
      insert t (Finset.Ico (t + 1) (t + 1 + n)) := by
    ext u
    simp only [Finset.mem_Ico, Finset.mem_insert]
    omega
  refine ⟨fun q u => ?_, fun q hq => ?_, ?_, ?_, ?_, h.available, h.maxProcess, h.currentTime⟩
  · rw [h.active, hactive]
    constructor
    · rintro ((hs | ⟨rfl, rfl⟩) | ⟨rfl, hlo, hhi⟩)
      · exact .inl hs
      · exact .inr ⟨rfl, le_refl _, by push_cast; omega⟩
      · exact .inr ⟨rfl, by omega, by push_cast; omega⟩
    · rintro (hs | ⟨rfl, hlo, hhi⟩)
      · exact .inl (.inl hs)
      · by_cases hu : u = t
        · exact .inl (.inr ⟨rfl, hu⟩)
        · exact .inr ⟨rfl, by omega, by push_cast at hhi; omega⟩
  · rw [h.other q hq]
    simp [hq]
  · rw [h.start, hself, hstart]
  · rw [hlast', hlast, if_neg (Nat.succ_ne_zero n)]
    split_ifs
    · rfl
    · rw [max_assoc, max_self]
  · rw [hburst', hsame, hico, Finset.filter_insert, hburst]
    by_cases ha : s.active p t = true
    · simp [ha]
    · have hnot : t ∉ (Finset.Ico (t + 1) (t + 1 + n)).filter fun u => s.active p u = false := by
        simp
      simp only [Bool.not_eq_true] at ha
      rw [if_pos ha, Finset.card_insert_of_notMem hnot]
      simp only [ha, Bool.false_eq_true, if_false]
      push_cast
      omega

/-- **The loop marks its slots.** -/
theorem markSlots_spec {p : Int} (start : Int) (hp : 0 ≤ p ∧ p < MAX_PROCESSES) (n : Nat) {t : Int}
    (ht : 0 ≤ t) (hn : t + n ≤ MAX_TIME) (s : Chart) :
    ∃ s', markSlots p start n t s = .ok s' ∧ Marked p start t n s s' := by
  induction n generalizing t s with
  | zero => exact ⟨s, rfl, by simp, fun _ _ => rfl, rfl, rfl, by simp, rfl, rfl, rfl⟩
  | succ n ih =>
      push_cast at hn
      have hd : ∀ d : Details, (if d.last < start then start else d.last) = max d.last start :=
        fun d => by
          rcases lt_or_ge d.last start with h | h
          · rw [if_pos h, max_eq_right h.le]
          · rw [if_neg (by omega), max_eq_left h]
      rw [markSlots, markSlot, checkIndex_ok hp, checkIndex_ok ⟨ht, by omega⟩]
      simp only [ok_bind, pure_eq_ok, hd]
      obtain ⟨s', hs', hm⟩ := ih (t := t + 1) (by omega) (by omega)
        ((s.setActive p t).setDetails p _)
      refine ⟨s', hs', hm.step ?_ ?_ ?_⟩
      · dsimp only
        split_ifs <;> rfl
      · dsimp only
        split_ifs <;> rfl
      · dsimp only
        split_ifs <;> simp

/-! ## The table of a set of records -/

/-- The starts of the records of `p`. -/
def starts (rs : List Record) (p : Int) : Set Int := {t | ∃ r ∈ rs, r.p = p ∧ r.start = t}

/-- **The table as the records of `rs` give it.** -/
structure Describes (rs : List Record) (s : Chart) : Prop where
  active : ∀ p t, s.active p t = true ↔ ∃ r ∈ rs, r.p = p ∧ r.Marks t
  available : ∀ p, s.processAvailable p = true ↔ ∃ r ∈ rs, r.p = p
  start : ∀ p, IsLeast (insert 999999999 (starts rs p)) (s.processDetails p).start
  last : ∀ p, IsGreatest (insert 0 (starts rs p)) (s.processDetails p).last
  burst : ∀ p, (s.processDetails p).burst = (slots rs p).card
  maxProcess : IsGreatest (insert 0 {p | ∃ r ∈ rs, r.p = p}) s.maxProcess
  currentTime : IsGreatest (insert 0 {t | ∃ r ∈ rs, r.finish = t}) s.currentTime

theorem describes_init : Describes [] Chart.init where
  active := by simp [Chart.init]
  available := by simp [Chart.init]
  start := by simp [Chart.init, starts]
  last := by simp [Chart.init, starts]
  burst := by simp [Chart.init, slots]
  maxProcess := by simp [Chart.init]
  currentTime := by simp [Chart.init]

theorem exists_concat (rs : List Record) (r : Record) (Q : Record → Prop) :
    (∃ r' ∈ rs ++ [r], Q r') ↔ (∃ r' ∈ rs, Q r') ∨ Q r := by
  simp [or_and_right, exists_or]

theorem starts_concat_self (rs : List Record) (r : Record) :
    starts (rs ++ [r]) r.p = insert r.start (starts rs r.p) := by
  ext t
  simp only [starts, List.mem_append, List.mem_singleton, Set.mem_ofPred_eq, Set.mem_insert_iff]
  constructor
  · rintro ⟨r', hr' | rfl, hp, ht⟩
    · exact .inr ⟨r', hr', hp, ht⟩
    · exact .inl ht.symm
  · rintro (rfl | ⟨r', hr', hp, ht⟩)
    · exact ⟨r, .inr rfl, rfl, rfl⟩
    · exact ⟨r', .inl hr', hp, ht⟩

theorem starts_concat_of_ne (rs : List Record) {r : Record} {p : Int} (h : p ≠ r.p) :
    starts (rs ++ [r]) p = starts rs p := by
  ext t
  simp only [starts, List.mem_append, List.mem_singleton, Set.mem_ofPred_eq]
  constructor
  · rintro ⟨r', hr' | rfl, hp, ht⟩
    · exact ⟨r', hr', hp, ht⟩
    · exact absurd hp.symm h
  · rintro ⟨r', hr', hp, ht⟩
    exact ⟨r', .inl hr', hp, ht⟩

theorem slots_concat_self {rs : List Record} {r : Record} (hrs : ∀ r ∈ rs, r.InBounds)
    (hr : r.InBounds) :
    slots (rs ++ [r]) r.p = slots rs r.p ∪ (Finset.Ico r.start r.stop \ slots rs r.p) := by
  have hall : ∀ r' ∈ rs ++ [r], r'.InBounds := fun r' hr' => by
    rcases List.mem_append.mp hr' with hr' | hr'
    · exact hrs r' hr'
    · exact List.mem_singleton.mp hr' ▸ hr
  ext t
  rw [Finset.union_sdiff_self_eq_union, Finset.mem_union, mem_slots hall, mem_slots hrs,
    exists_concat, Finset.mem_Ico]
  simp only [Record.Marks, true_and]

theorem slots_concat_of_ne (rs : List Record) {r : Record} {p : Int} (h : p ≠ r.p) :
    slots (rs ++ [r]) p = slots rs p := by
  refine Finset.filter_congr fun t _ => ?_
  rw [exists_concat, or_iff_left fun hr => h hr.1.symm]

/-- The code's `<`, with the record's value in the second branch. -/
theorem least_ite {A : Set Int} {c m a : Int} (h : IsLeast (insert c A) m) :
    IsLeast (insert c (insert a A)) (if m < a then m else a) := by
  have := h.insert a
  rw [Set.insert_comm] at this
  rwa [← show min a m = if m < a then m else a by split_ifs <;> omega]

theorem greatest_ite {A : Set Int} {c m a : Int} (h : IsGreatest (insert c A) m) :
    IsGreatest (insert c (insert a A)) (if a > m then a else m) := by
  have := h.insert a
  rw [Set.insert_comm] at this
  rwa [← show max a m = if a > m then a else m by split_ifs <;> omega]

theorem values_concat (rs : List Record) (r : Record) (f : Record → Int) :
    {t | ∃ r' ∈ rs ++ [r], f r' = t} = insert (f r) {t | ∃ r' ∈ rs, f r' = t} := by
  ext t
  simp only [List.mem_append, List.mem_singleton, or_and_right, exists_or, exists_eq_left,
    Set.mem_ofPred_eq, Set.mem_insert_iff]
  rw [or_comm, eq_comm]

/-- **A record more.** -/
theorem Describes.enter {rs : List Record} {s : Chart} {r : Record} (h : Describes rs s)
    (hrs : ∀ r ∈ rs, r.InBounds) (hr : r.InBounds) :
    ∃ s', enter s r = .ok s' ∧ Describes (rs ++ [r]) s' := by
  obtain ⟨n, hn⟩ : ∃ n : Nat, r.stop = r.start + n :=
    ⟨(r.stop - r.start).toNat, by have := hr.start_lt_stop; omega⟩
  have hpos : n ≠ 0 := by
    have := hr.start_lt_stop
    omega
  have hp : 0 ≤ r.p ∧ r.p < MAX_PROCESSES := ⟨hr.p_nonneg, hr.p_lt⟩
  have hstop := hr.stop_le
  obtain ⟨s', hs', hm⟩ := markSlots_spec r.start hp n hr.start_nonneg (by omega)
    (((s.setAvailable r.p).setDetails r.p { s.processDetails r.p with
      start := if (s.processDetails r.p).start < r.start then (s.processDetails r.p).start
        else r.start }).raise r.p r.finish)
  refine ⟨s', ?_, ?_⟩
  · rw [Visual.enter, checkIndex_ok hp]
    simp only [ok_bind]
    rw [show (if r.start = r.finish then r.finish + 1 else r.finish) = r.stop from rfl,
      show (r.stop - r.start).toNat = n by omega]
    exact hs'
  have hmarks : ∀ u, r.Marks u ↔ r.start ≤ u ∧ u < r.start + n := fun u => by
    rw [Record.Marks, hn]
  have hactive : ∀ q u, s'.active q u = true ↔ ∃ r' ∈ rs ++ [r], r'.p = q ∧ r'.Marks u :=
    fun q u => by
      rw [hm.active, exists_concat, hmarks]
      simp only [Chart.raise_active, Chart.setDetails_active, Chart.setAvailable_active]
      rw [h.active, @eq_comm _ q]
  refine ⟨hactive, fun q => ?_, fun q => ?_, fun q => ?_, fun q => ?_, ?_, ?_⟩
  · rw [hm.available, exists_concat]
    by_cases hq : q = r.p
    · simp [hq]
    · simp [hq, h.available, Ne.symm hq]
  · by_cases hq : q = r.p
    · subst hq
      rw [starts_concat_self, hm.start]
      simpa using least_ite (a := r.start) (h.start r.p)
    · rw [starts_concat_of_ne rs hq, hm.other q hq]
      simpa [hq] using h.start q
  · by_cases hq : q = r.p
    · subst hq
      rw [starts_concat_self, hm.last, if_neg hpos, Set.insert_comm, max_comm]
      simpa using (h.last r.p).insert r.start
    · rw [starts_concat_of_ne rs hq, hm.other q hq]
      simpa [hq] using h.last q
  · by_cases hq : q = r.p
    · subst hq
      have hfree : ∀ u, s.active r.p u = false ↔ u ∉ slots rs r.p := fun u => by
        rw [← Bool.not_eq_true, h.active, mem_slots hrs]
      rw [hm.burst, slots_concat_self hrs hr, Finset.card_union_of_disjoint]
      · simp only [Chart.raise_processDetails, Chart.setDetails_processDetails,
          Function.update_self, Chart.raise_active, Chart.setDetails_active,
          Chart.setAvailable_active, hfree, h.burst, Finset.sdiff_eq_filter, hn, Nat.cast_add]
      · exact Finset.disjoint_sdiff
    · rw [slots_concat_of_ne rs hq, hm.other q hq, ← h.burst q]
      simp only [Chart.raise_processDetails, Chart.setDetails_processDetails,
        Function.update_of_ne hq, Chart.setAvailable_processDetails]
  · rw [values_concat rs r Record.p, hm.maxProcess]
    exact greatest_ite h.maxProcess
  · rw [values_concat rs r Record.finish, hm.currentTime]
    exact greatest_ite h.currentTime

/-- Records within the bounds are all entered. -/
theorem enterAll_describes {rs : List Record} (h : ∀ r ∈ rs, r.InBounds) :
    ∃ s, enterAll Chart.init rs = .ok s ∧ Describes rs s := by
  induction rs using List.reverseRecOn with
  | nil => exact ⟨_, rfl, describes_init⟩
  | append_singleton rs r ih =>
      have hrs : ∀ r' ∈ rs, r'.InBounds := fun r' hr' => h r' (List.mem_append_left _ hr')
      obtain ⟨s, hs, hd⟩ := ih hrs
      obtain ⟨s', hs', hd'⟩ := hd.enter hrs (h r (by simp))
      refine ⟨s', ?_, hd'⟩
      rw [enterAll, List.foldlM_append]
      rw [enterAll] at hs
      rw [hs, ok_bind, List.foldlM_cons, hs']
      rfl

namespace Describes

variable {rs rs' : List Record} {s s' : Chart}

/-- Only which records there are counts. -/
theorem of_mem_iff (h : Describes rs s) (hmem : ∀ r, r ∈ rs ↔ r ∈ rs') : Describes rs' s := by
  have hex : ∀ Q : Record → Prop, (∃ r ∈ rs, Q r) ↔ ∃ r ∈ rs', Q r := fun Q => by
    simp only [hmem]
  have hstarts : ∀ p, starts rs p = starts rs' p := fun p => Set.ext fun t => hex _
  have hslots : ∀ p, slots rs p = slots rs' p := fun p =>
    Finset.filter_congr fun t _ => hex _
  refine ⟨fun p t => ?_, fun p => ?_, fun p => ?_, fun p => ?_, fun p => ?_, ?_, ?_⟩
  · rw [h.active, hex]
  · rw [h.available, hex]
  · exact hstarts p ▸ h.start p
  · exact hstarts p ▸ h.last p
  · exact hslots p ▸ h.burst p
  · have := h.maxProcess
    simp only [hmem] at this
    exact this
  · have := h.currentTime
    simp only [hmem] at this
    exact this

/-- No two tables are described by the same records. -/
theorem unique (h : Describes rs s) (h' : Describes rs s') : s = s' := by
  refine Chart.ext ?_ ?_ ?_ (h.maxProcess.unique h'.maxProcess)
    (h.currentTime.unique h'.currentTime)
  · funext p t
    rw [Bool.eq_iff_iff, h.active, h'.active]
  · funext p
    have hstart := (h.start p).unique (h'.start p)
    have hlast := (h.last p).unique (h'.last p)
    have hburst := (h.burst p).trans (h'.burst p).symm
    rcases hd : s.processDetails p with ⟨a, b, c⟩
    rcases hd' : s'.processDetails p with ⟨a', b', c'⟩
    rw [hd, hd'] at hstart hlast hburst
    simp only at hstart hlast hburst
    rw [hstart, hlast, hburst]
  · funext p
    rw [Bool.eq_iff_iff, h.available, h'.available]

end Describes

/-- **Order and repetition do not matter.** Two logs with the same records in them leave the
same table. -/
theorem enterAll_eq_of_mem_iff (rs rs' : List Record) (h : ∀ r ∈ rs, r.InBounds)
    (hmem : ∀ r, r ∈ rs ↔ r ∈ rs') :
    ∃ s, enterAll Chart.init rs = .ok s ∧ enterAll Chart.init rs' = .ok s := by
  obtain ⟨s, hs, hd⟩ := enterAll_describes h
  obtain ⟨s', hs', hd'⟩ := enterAll_describes fun r hr => h r ((hmem r).mpr hr)
  exact ⟨s, hs, (hd.of_mem_iff hmem).unique hd' ▸ hs'⟩

/-- Two CPUs that printed in another order, and one record printed twice. -/
theorem enterAll_eq_of_mem_iff_swapped :
    ∃ s, enterAll Chart.init [⟨1, 0, 5⟩, ⟨1, 3, 3⟩, ⟨2, 4, 9⟩] = .ok s ∧
      enterAll Chart.init [⟨2, 4, 9⟩, ⟨1, 3, 3⟩, ⟨1, 0, 5⟩, ⟨1, 3, 3⟩] = .ok s :=
  enterAll_eq_of_mem_iff _ _ (by decide) fun r => by
    simp only [List.mem_cons, List.not_mem_nil, or_false]
    tauto

/-! ## The waiting time -/

/-- **What the table says about `p`**: the smallest start, the last active slot and how many
slots are active, and a waiting time that counts the inactive slots between the first and the
last active one. -/
structure WaitingLaw (rs : List Record) (s : Chart) (p : Int) : Prop where
  start : IsLeast (starts rs p) (s.processDetails p).start
  last : IsGreatest {t | s.active p t = true} (s.processDetails p).last
  burst : (s.processDetails p).burst =
    ((Finset.Ico 0 MAX_TIME).filter fun t => s.active p t = true).card
  waiting : ∀ first last, IsLeast {t | s.active p t = true} first →
    IsGreatest {t | s.active p t = true} last →
    waitingTime (s.processDetails p) =
      ((Finset.Icc first last).filter fun t => s.active p t = false).card

/-- No record of `p` goes on for more than a slot after the last of their starts, and up to that
start no slot is left out. -/
structure Seamless (rs : List Record) (p : Int) : Prop where
  short : ∀ r ∈ rs, r.p = p → ∃ r' ∈ rs, r'.p = p ∧ r.finish ≤ r'.start + 1
  covered : ∀ t, (∃ r ∈ rs, r.p = p ∧ r.start ≤ t) → (∃ r ∈ rs, r.p = p ∧ t ≤ r.start) →
    ∃ r ∈ rs, r.p = p ∧ r.Marks t

/-- What the analyser computes for a process that it has seen. -/
structure Computed (rs : List Record) (s : Chart) (p : Int) : Prop where
  least : IsLeast (starts rs p) (s.processDetails p).start
  greatest : IsGreatest (starts rs p) (s.processDetails p).last

theorem Describes.computed {rs : List Record} {s : Chart} {p : Int} (h : Describes rs s)
    (hrs : ∀ r ∈ rs, r.InBounds) (hp : s.processAvailable p = true) : Computed rs s p := by
  obtain ⟨r, hr, hrp⟩ := (h.available p).mp hp
  have hmem : r.start ∈ starts rs p := ⟨r, hr, hrp, rfl⟩
  have hlo := (hrs r hr).start_nonneg
  have hhi : r.start < 999999999 := by
    have := (hrs r hr).start_le
    have := (hrs r hr).finish_lt
    simp only [MAX_TIME] at this
    omega
  constructor
  · refine ⟨?_, fun t ht => (h.start p).2 (Set.mem_insert_of_mem _ ht)⟩
    rcases (h.start p).1 with heq | hin
    · have := (h.start p).2 (Set.mem_insert_of_mem _ hmem)
      omega
    · exact hin
  · refine ⟨?_, fun t ht => (h.last p).2 (Set.mem_insert_of_mem _ ht)⟩
    rcases (h.last p).1 with heq | hin
    · have := (h.last p).2 (Set.mem_insert_of_mem _ hmem)
      rw [heq] at this ⊢
      rwa [show (0 : Int) = r.start by omega]
    · exact hin

/-- The active slots between two bounds of theirs, and the others. -/
theorem Describes.card_inactive {rs : List Record} {s : Chart} {p a b : Int}
    (h : Describes rs s) (hrs : ∀ r ∈ rs, r.InBounds) (hab : a ≤ b + 1)
    (hall : ∀ t, s.active p t = true → a ≤ t ∧ t ≤ b) :
    (s.processDetails p).burst +
      ((Finset.Icc a b).filter fun t => s.active p t = false).card = b + 1 - a := by
  have hslots : (Finset.Icc a b).filter (fun t => s.active p t = true) = slots rs p := by
    ext t
    rw [Finset.mem_filter, Finset.mem_Icc, mem_slots hrs, ← h.active]
    exact ⟨fun ht => ht.2, fun ht => ⟨hall t ht, ht⟩⟩
  have hsum := Finset.card_filter_add_card_filter_not (s := Finset.Icc a b)
    (fun t => s.active p t = true)
  rw [hslots] at hsum
  simp only [Bool.not_eq_true] at hsum
  rw [h.burst, ← Int.card_Icc_of_le a b hab]
  exact_mod_cast hsum

theorem Record.InBounds.marks_last {r : Record} (h : r.InBounds) : r.Marks (r.stop - 1) := by
  have := h.start_lt_stop
  exact ⟨by omega, by omega⟩

section

variable {rs : List Record} {s : Chart} {p : Int}

/-- The first active slot is the smallest start. -/
theorem Computed.least_active (hc : Computed rs s p) (hd : Describes rs s)
    (hrs : ∀ r ∈ rs, r.InBounds) :
    IsLeast {t | s.active p t = true} (s.processDetails p).start := by
  constructor
  · obtain ⟨r, hr, hrp, hstart⟩ := hc.least.1
    exact (hd.active p _).mpr ⟨r, hr, hrp, hstart ▸ (hrs r hr).marks_start⟩
  · intro t ht
    obtain ⟨r, hr, hrp, hm⟩ := (hd.active p t).mp ht
    exact le_trans (hc.least.2 ⟨r, hr, hrp, rfl⟩) hm.1

/-- The last active slot is the largest start just when no record goes on for more than a slot
after it. -/
theorem Computed.greatest_active (hc : Computed rs s p) (hd : Describes rs s)
    (hrs : ∀ r ∈ rs, r.InBounds) :
    IsGreatest {t | s.active p t = true} (s.processDetails p).last ↔
      ∀ r ∈ rs, r.p = p → ∃ r' ∈ rs, r'.p = p ∧ r.finish ≤ r'.start + 1 := by
  obtain ⟨r₀, hr₀, hrp₀, hlast⟩ := hc.greatest.1
  constructor
  · intro hg r hr hrp
    have hle : r.stop - 1 ≤ (s.processDetails p).last :=
      hg.2 ((hd.active p _).mpr ⟨r, hr, hrp, (hrs r hr).marks_last⟩)
    have hstop : r.finish ≤ r.stop := by
      unfold Record.stop
      split_ifs <;> omega
    exact ⟨r₀, hr₀, hrp₀, by omega⟩
  · intro hshort
    refine ⟨(hd.active p _).mpr ⟨r₀, hr₀, hrp₀, hlast ▸ (hrs r₀ hr₀).marks_start⟩, ?_⟩
    intro t ht
    obtain ⟨r, hr, hrp, hlo, hhi⟩ := (hd.active p t).mp ht
    obtain ⟨r', hr', hrp', hfin⟩ := hshort r hr hrp
    have h1 : r.start ≤ (s.processDetails p).last := hc.greatest.2 ⟨r, hr, hrp, rfl⟩
    have h2 : r'.start ≤ (s.processDetails p).last := hc.greatest.2 ⟨r', hr', hrp', rfl⟩
    unfold Record.stop at hhi
    split_ifs at hhi <;> omega

/-- Once first and last are right, the waiting time is one slot short, unless there is nothing
to wait for. -/
theorem Describes.waiting_iff (hd : Describes rs s) (hrs : ∀ r ∈ rs, r.InBounds)
    (hl : IsLeast {t | s.active p t = true} (s.processDetails p).start)
    (hg : IsGreatest {t | s.active p t = true} (s.processDetails p).last) :
    waitingTime (s.processDetails p) = ((Finset.Icc (s.processDetails p).start
        (s.processDetails p).last).filter fun t => s.active p t = false).card ↔
      ∀ t, (s.processDetails p).start ≤ t → t ≤ (s.processDetails p).last →
        s.active p t = true := by
  have hsum := hd.card_inactive hrs (a := (s.processDetails p).start)
    (b := (s.processDetails p).last) (by have := hl.2 hg.1; omega)
    fun t ht => ⟨hl.2 ht, hg.2 ht⟩
  generalize hA : (Finset.Icc (s.processDetails p).start (s.processDetails p).last).filter
    (fun t => s.active p t = false) = A at hsum ⊢
  have hempty : A.card = 0 ↔ ∀ t, (s.processDetails p).start ≤ t →
      t ≤ (s.processDetails p).last → s.active p t = true := by
    rw [Finset.card_eq_zero, ← hA, Finset.filter_eq_empty_iff]
    simp only [Finset.mem_Icc, and_imp, Bool.not_eq_false]
  rw [← hempty]
  simp only [waitingTime]
  split_ifs <;> omega

end

/-- **When the law holds**: for the processes whose records are seamless, and for no others.
Otherwise `last` is the last start and not the last slot, or a gap counts one slot short. -/
theorem waitingLaw_iff (rs : List Record) (h : ∀ r ∈ rs, r.InBounds) :
    ∃ s, enterAll Chart.init rs = .ok s ∧
      ∀ p, s.processAvailable p = true → (WaitingLaw rs s p ↔ Seamless rs p) := by
  obtain ⟨s, hs, hd⟩ := enterAll_describes h
  refine ⟨s, hs, fun p hp => ?_⟩
  have hc := hd.computed h hp
  have hl := hc.least_active hd h
  constructor
  · intro hw
    refine ⟨(hc.greatest_active hd h).mp hw.last, ?_⟩
    rintro t ⟨r₁, hr₁, hrp₁, hlo⟩ ⟨r₂, hr₂, hrp₂, hhi⟩
    have hall := (hd.waiting_iff h hl hw.last).mp (hw.waiting _ _ hl hw.last)
    exact (hd.active p t).mp (hall t (le_trans (hc.least.2 ⟨r₁, hr₁, hrp₁, rfl⟩) hlo)
      (le_trans hhi (hc.greatest.2 ⟨r₂, hr₂, hrp₂, rfl⟩)))
  · intro hseam
    have hg := (hc.greatest_active hd h).mpr hseam.short
    refine ⟨hc.least, hg, ?_, fun first last hfirst hlast => ?_⟩
    · have hslots : slots rs p = (Finset.Ico 0 MAX_TIME).filter fun t => s.active p t = true :=
        Finset.filter_congr fun t _ => (hd.active p t).symm
      rw [hd.burst, hslots]
    · rw [hfirst.unique hl, hlast.unique hg]
      refine (hd.waiting_iff h hl hg).mpr fun t hlo hhi => ?_
      obtain ⟨r₁, hr₁, hrp₁, h1⟩ := hc.least.1
      obtain ⟨r₂, hr₂, hrp₂, h2⟩ := hc.greatest.1
      exact (hd.active p t).mpr
        (hseam.covered t ⟨r₁, hr₁, hrp₁, h1 ▸ hlo⟩ ⟨r₂, hr₂, hrp₂, h2 ▸ hhi⟩)

/-- A process that stayed on for three ticks, and was then off for two and on for one. -/
theorem waitingLaw_iff_gap :
    ∃ s, enterAll Chart.init [⟨3, 10, 13⟩, ⟨3, 15, 16⟩] = .ok s ∧
      ∀ p, s.processAvailable p = true →
        (WaitingLaw [⟨3, 10, 13⟩, ⟨3, 15, 16⟩] s p ↔ Seamless [⟨3, 10, 13⟩, ⟨3, 15, 16⟩] p) :=
  waitingLaw_iff _ (by decide)

/-- A run of five slots: the last slice is said to be slot 0. -/
theorem not_waitingLaw_run :
    ¬∀ s, enterAll Chart.init [⟨3, 0, 5⟩] = .ok s → ∀ p, s.processAvailable p = true →
      WaitingLaw [⟨3, 0, 5⟩] s p := by
  intro hall
  have hin : ∀ r ∈ [(⟨3, 0, 5⟩ : Record)], r.InBounds := by decide
  obtain ⟨s, hs, hd⟩ := enterAll_describes hin
  have hlaw := hall s hs 3 ((hd.available 3).mpr ⟨_, List.mem_singleton.mpr rfl, rfl⟩)
  have hlast : s.active 3 4 = true :=
    (hd.active 3 4).mpr ⟨_, List.mem_singleton.mpr rfl, rfl, by decide⟩
  have hle := hlaw.last.2 hlast
  rcases (hd.last 3).1 with heq | ⟨r, hr, -, hstart⟩
  · omega
  · rw [List.mem_singleton] at hr
    subst hr
    simp only at hstart
    omega

end Xv6Cfs.Visual
