import Xv6Cfs.Visual.Chart

/-!
# Which logs the analyser survives

No fault shows until an index leaves its array or a chart without processes is drawn.
What is needed of the table for this is little: the processes and the largest numbers
of the records that have been entered.
-/

namespace Xv6Cfs.Visual

/-! ## Without a fault -/

/-- The computation ends without a fault. -/
def Ok {α : Type} (x : Except Fault α) : Prop := ∃ a, x = .ok a

section

variable {α β : Type}

@[simp] theorem ok_ok (a : α) : Ok (.ok a : Except Fault α) := ⟨a, rfl⟩

@[simp] theorem not_ok_error (e : Fault) : ¬Ok (.error e : Except Fault α) :=
  fun ⟨_, h⟩ => nomatch h

theorem ok_bind_iff {x : Except Fault α} {f : α → Except Fault β} :
    Ok (x >>= f) ↔ ∃ a, x = .ok a ∧ Ok (f a) := by
  cases x with
  | error e => exact ⟨fun h => (not_ok_error e h).elim, fun ⟨_, h, _⟩ => nomatch h⟩
  | ok a => exact ⟨fun h => ⟨a, rfl, h⟩, fun ⟨_, h, h'⟩ => Except.ok.inj h ▸ h'⟩

theorem ok_check_bind {bound i : Int} {x : Except Fault α} :
    Ok (checkIndex bound i >>= fun _ => x) ↔ (0 ≤ i ∧ i < bound) ∧ Ok x := by
  rw [checkIndex]
  split_ifs with h
  · simp [h, ok_bind]
  · exact ⟨fun h' => (not_ok_error _ h').elim, fun h' => absurd h'.1 h⟩

theorem ok_mapM {f : α → Except Fault β} {xs : List α} :
    Ok (xs.mapM f) ↔ ∀ x ∈ xs, Ok (f x) := by
  induction xs with
  | nil => simp
  | cons x xs ih =>
      rw [List.mapM_cons, ok_bind_iff, List.forall_mem_cons, ← ih]
      constructor
      · rintro ⟨a, ha, h⟩
        obtain ⟨b, hb, -⟩ := ok_bind_iff.mp h
        exact ⟨⟨a, ha⟩, ⟨b, hb⟩⟩
      · rintro ⟨⟨a, ha⟩, ⟨b, hb⟩⟩
        exact ⟨a, ha, ok_bind_iff.mpr ⟨b, hb, by simp⟩⟩

theorem mapM_eq_ok {f : α → Except Fault β} {g : α → β} {xs : List α}
    (h : ∀ x ∈ xs, f x = .ok (g x)) : xs.mapM f = .ok (xs.map g) := by
  induction xs with
  | nil => rfl
  | cons x xs ih =>
      rw [List.forall_mem_cons] at h
      rw [List.mapM_cons, h.1, ih h.2]
      rfl

end

/-! ## Drawing -/

theorem mem_span {a b t : Int} : t ∈ span a b ↔ a ≤ t ∧ t ≤ b := by
  simp only [span, List.mem_map, List.mem_range]
  constructor
  · rintro ⟨i, hi, rfl⟩
    omega
  · rintro ⟨hlo, hhi⟩
    exact ⟨(t - a).toNat, by omega, by omega⟩

theorem ok_drawLine {s : Chart} {a b p : Int} :
    Ok (drawLine s a b p) ↔ (0 ≤ p ∧ p < MAX_PROCESSES) ∧
      (s.processAvailable p = true → ∀ t, a ≤ t → t ≤ b → 0 ≤ t ∧ t < MAX_TIME) := by
  rw [drawLine, ok_check_bind]
  refine and_congr_right fun _ => ?_
  split_ifs with h
  · rw [ok_bind_iff]
    simp only [h, forall_true_left]
    constructor
    · rintro ⟨slots, hslots, -⟩ t hlo hhi
      exact (ok_check_bind.mp (ok_mapM.mp ⟨slots, hslots⟩ t (mem_span.mpr ⟨hlo, hhi⟩))).1
    · intro hin
      have hm : Ok ((span a b).mapM fun t => do
          checkIndex MAX_TIME t
          return s.active p t) := ok_mapM.mpr fun t ht =>
        ok_check_bind.mpr ⟨hin t (mem_span.mp ht).1 (mem_span.mp ht).2, ok_ok _⟩
      obtain ⟨slots, hslots⟩ := hm
      exact ⟨slots, hslots, ok_ok _⟩
  · simp [h]

/-- The statistics of the processes that have been seen. -/
def statsOf (s : Chart) (p : Int) : List Stat :=
  if s.processAvailable p then
    [⟨p, (s.processDetails p).last - (s.processDetails p).start, waitingTime (s.processDetails p)⟩]
  else []

theorem drawStat_eq {s : Chart} {p : Int} (hp : 0 ≤ p ∧ p < MAX_PROCESSES) :
    drawStat s p = .ok (statsOf s p) := by
  rw [drawStat, checkIndex_ok hp, ok_bind, statsOf]
  split_ifs <;> rfl

/-- Statistics are printed if there is a process to print them of. -/
theorem exists_available_iff {s : Chart} :
    ((span 0 s.maxProcess).map (statsOf s)).flatten ≠ [] ↔
      ∃ p, 0 ≤ p ∧ p ≤ s.maxProcess ∧ s.processAvailable p = true := by
  rw [Ne, List.flatten_eq_nil_iff, List.forall_mem_map]
  push Not
  refine exists_congr fun p => ?_
  rw [mem_span, statsOf, and_assoc]
  split_ifs with h <;> simp [h]

/-- **Which tables can be drawn.** -/
theorem ok_drawChart {s : Chart} {a b : Int} :
    Ok (drawChart s a b) ↔
      (∀ p, 0 ≤ p → p ≤ s.maxProcess → p < MAX_PROCESSES ∧
        (s.processAvailable p = true → ∀ t, a ≤ t → t ≤ b → 0 ≤ t ∧ t < MAX_TIME)) ∧
      ∃ p, 0 ≤ p ∧ p ≤ s.maxProcess ∧ s.processAvailable p = true := by
  have hlines : Ok ((span 0 s.maxProcess).mapM (drawLine s a b)) ↔
      ∀ p, 0 ≤ p → p ≤ s.maxProcess → p < MAX_PROCESSES ∧
        (s.processAvailable p = true → ∀ t, a ≤ t → t ≤ b → 0 ≤ t ∧ t < MAX_TIME) := by
    simp only [ok_mapM, mem_span, ok_drawLine, and_imp]
    exact forall_congr' fun p => forall_congr' fun h0 => by simp [h0]
  rw [← hlines, ← exists_available_iff, drawChart, ok_bind_iff]
  constructor
  · rintro ⟨lines, hl, h⟩
    rw [mapM_eq_ok fun p hp => drawStat_eq ⟨(mem_span.mp hp).1,
      (hlines.mp ⟨lines, hl⟩ p (mem_span.mp hp).1 (mem_span.mp hp).2).1⟩, ok_bind] at h
    refine ⟨⟨lines, hl⟩, fun hnil => ?_⟩
    dsimp only at h
    rw [hnil] at h
    exact not_ok_error _ h
  · rintro ⟨⟨lines, hl⟩, hne⟩
    refine ⟨lines, hl, ?_⟩
    rw [mapM_eq_ok fun p hp => drawStat_eq ⟨(mem_span.mp hp).1,
      (hlines.mp ⟨lines, hl⟩ p (mem_span.mp hp).1 (mem_span.mp hp).2).1⟩, ok_bind]
    dsimp only
    rw [if_neg (by exact_mod_cast List.length_pos_iff.mpr hne |>.ne')]
    exact ok_ok _

/-! ## The table, as far as faults depend on it -/

/-- The processes that have been seen, and the largest numbers. -/
structure Seen (rs : List Record) (s : Chart) : Prop where
  available : ∀ p, s.processAvailable p = true ↔ ∃ r ∈ rs, r.p = p
  bound : ∀ r ∈ rs, 0 ≤ r.p ∧ r.p < MAX_PROCESSES
  maxProcess : IsGreatest (insert 0 {p | ∃ r ∈ rs, r.p = p}) s.maxProcess
  currentTime : IsGreatest (insert 0 {t | ∃ r ∈ rs, r.finish = t}) s.currentTime

theorem seen_init : Seen [] Chart.init where
  available := by simp [Chart.init]
  bound := by simp
  maxProcess := by simp [Chart.init]
  currentTime := by simp [Chart.init]

/-- Its process and its slots are within the arrays. -/
def Enters (r : Record) : Prop :=
  (0 ≤ r.p ∧ r.p < MAX_PROCESSES) ∧ (r.start ≤ r.finish → 0 ≤ r.start ∧ r.stop ≤ MAX_TIME)

/-- The loop faults at the first slot that is outside. -/
theorem not_ok_markSlots {p : Int} (first : Int) {n : Nat} {t : Int} (s : Chart) (hn : n ≠ 0)
    (hout : ¬(0 ≤ t ∧ t + n ≤ MAX_TIME)) : ¬Ok (markSlots p first n t s) := by
  induction n generalizing t s with
  | zero => exact absurd rfl hn
  | succ n ih =>
      intro hok
      obtain ⟨s', hs', hrest⟩ := ok_bind_iff.mp hok
      have ht := (ok_check_bind.mp (ok_check_bind.mp ⟨s', hs'⟩).2).1
      push_cast at hout
      by_cases h0 : n = 0
      · subst h0
        push_cast at hout
        omega
      · exact ih s' h0 (by omega) hrest

theorem ok_markSlots {p : Int} (first : Int) (hp : 0 ≤ p ∧ p < MAX_PROCESSES) {n : Nat} {t : Int}
    (s : Chart) : Ok (markSlots p first n t s) ↔ (n ≠ 0 → 0 ≤ t ∧ t + n ≤ MAX_TIME) := by
  constructor
  · intro h hn
    by_contra hout
    exact not_ok_markSlots first s hn hout h
  · intro h
    by_cases hn : n = 0
    · subst hn
      exact ⟨s, rfl⟩
    · obtain ⟨s', hs', -⟩ := markSlots_spec first hp n (h hn).1 (h hn).2 s
      exact ⟨s', hs'⟩

/-- A record is entered without a fault just when it is within the arrays. -/
theorem ok_enter {s : Chart} {r : Record} : Ok (enter s r) ↔ Enters r := by
  rw [enter, ok_check_bind]
  refine and_congr_right fun hp => ?_
  have hstop : (if r.start = r.finish then r.finish + 1 else r.finish) = r.stop := rfl
  rw [hstop, ok_markSlots _ hp]
  have hpos : (r.stop - r.start).toNat ≠ 0 ↔ r.start ≤ r.finish := by
    unfold Record.stop
    split_ifs <;> omega
  refine ⟨fun h hle => ?_, fun h hne => ?_⟩
  · have := h (hpos.mpr hle)
    have := hpos.mpr hle
    omega
  · have := h (hpos.mp hne)
    omega

theorem Seen.enter {rs : List Record} {s s' : Chart} {r : Record} (h : Seen rs s)
    (hs' : enter s r = .ok s') : Seen (rs ++ [r]) s' := by
  have hin : Enters r := ok_enter.mp ⟨s', hs'⟩
  rw [Visual.enter, checkIndex_ok hin.1, ok_bind] at hs'
  dsimp only at hs'
  generalize hs₁ : ((s.setAvailable r.p).setDetails r.p _).raise r.p r.finish = s₁ at hs'
  have hsame : s'.processAvailable = s₁.processAvailable ∧ s'.maxProcess = s₁.maxProcess ∧
      s'.currentTime = s₁.currentTime := by
    generalize (_ - r.start).toNat = n at hs'
    by_cases hn : n = 0
    · subst hn
      cases hs'
      exact ⟨rfl, rfl, rfl⟩
    · have hb := (ok_markSlots r.start hin.1 s₁).mp ⟨s', hs'⟩ hn
      obtain ⟨s₂, hs₂, hm⟩ := markSlots_spec r.start hin.1 n hb.1 hb.2 s₁
      obtain rfl : s₂ = s' := Except.ok.inj (hs₂.symm.trans hs')
      exact ⟨hm.available, hm.maxProcess, hm.currentTime⟩
  obtain ⟨hav, hmax, hcur⟩ := hsame
  refine ⟨fun q => ?_, fun r' hr' => ?_, ?_, ?_⟩
  · rw [hav, ← hs₁, exists_concat]
    by_cases hq : q = r.p
    · simp [hq]
    · simp [hq, h.available, Ne.symm hq]
  · rcases List.mem_append.mp hr' with hr' | hr'
    · exact h.bound r' hr'
    · exact List.mem_singleton.mp hr' ▸ hin.1
  · rw [values_concat rs r Record.p, hmax, ← hs₁]
    exact greatest_ite h.maxProcess
  · rw [values_concat rs r Record.finish, hcur, ← hs₁]
    exact greatest_ite h.currentTime

theorem Seen.ok_enterAll {rs : List Record} {s : Chart} (h : Seen rs s) (new : List Record) :
    (Ok (enterAll s new) ↔ ∀ r ∈ new, Enters r) ∧
      ∀ s', enterAll s new = .ok s' → Seen (rs ++ new) s' := by
  induction new generalizing rs s with
  | nil =>
      refine ⟨by simp [enterAll], fun s' hs' => ?_⟩
      obtain rfl : s = s' := Except.ok.inj hs'
      rwa [List.append_nil]
  | cons r new ih =>
      rw [List.forall_mem_cons, ← ok_enter (s := s)]
      constructor
      · rw [enterAll, List.foldlM_cons, ok_bind_iff]
        constructor
        · rintro ⟨s₁, hs₁, hok⟩
          exact ⟨⟨s₁, hs₁⟩, (ih (h.enter hs₁)).1.mp hok⟩
        · rintro ⟨⟨s₁, hs₁⟩, hin⟩
          exact ⟨s₁, hs₁, (ih (h.enter hs₁)).1.mpr hin⟩
      · intro s' hs'
        rw [enterAll, List.foldlM_cons] at hs'
        obtain ⟨s₁, hs₁, -⟩ := ok_bind_iff.mp ⟨s', hs'⟩
        rw [hs₁, ok_bind] at hs'
        have := (ih (h.enter hs₁)).2 s' hs'
        rwa [List.append_assoc] at this

/-- **The chart can be drawn** if there is a record and all end before the last slot. -/
theorem Seen.ok_drawChart {rs : List Record} {s : Chart} (h : Seen rs s) :
    Ok (drawChart s (if s.currentTime > TIME_SLICE_STEP then s.currentTime - TIME_SLICE_STEP
        else 0) s.currentTime) ↔
      (∀ r ∈ rs, r.finish < MAX_TIME) ∧ rs ≠ [] := by
  have hmax0 : 0 ≤ s.maxProcess := h.maxProcess.2 (Set.mem_insert _ _)
  have hcur0 : 0 ≤ s.currentTime := h.currentTime.2 (Set.mem_insert _ _)
  have hmax : s.maxProcess < MAX_PROCESSES := by
    rcases h.maxProcess.1 with h0 | ⟨r, hr, hrp⟩
    · rw [h0]
      decide
    · exact hrp ▸ (h.bound r hr).2
  have hexists : (∃ p, 0 ≤ p ∧ p ≤ s.maxProcess ∧ s.processAvailable p = true) ↔ rs ≠ [] := by
    constructor
    · rintro ⟨p, -, -, hp⟩ rfl
      simpa using (h.available p).mp hp
    · intro hne
      obtain ⟨r, hr⟩ := List.exists_mem_of_ne_nil rs hne
      exact ⟨r.p, (h.bound r hr).1, h.maxProcess.2 (Set.mem_insert_of_mem _ ⟨r, hr, rfl⟩),
        (h.available r.p).mpr ⟨r, hr, rfl⟩⟩
  have hcur : s.currentTime < MAX_TIME ↔ ∀ r ∈ rs, r.finish < MAX_TIME := by
    constructor
    · intro hlt r hr
      exact lt_of_le_of_lt (h.currentTime.2 (Set.mem_insert_of_mem _ ⟨r, hr, rfl⟩)) hlt
    · intro hall
      rcases h.currentTime.1 with h0 | ⟨r, hr, hrf⟩
      · rw [h0]
        decide
      · exact hrf ▸ hall r hr
  have hstart : 0 ≤ (if s.currentTime > TIME_SLICE_STEP then s.currentTime - TIME_SLICE_STEP
      else 0) ∧ (if s.currentTime > TIME_SLICE_STEP then s.currentTime - TIME_SLICE_STEP
      else 0) ≤ s.currentTime := by
    simp only [TIME_SLICE_STEP]
    split_ifs <;> omega
  rw [Visual.ok_drawChart, hexists, ← hcur]
  refine and_congr_left fun hne => ⟨fun hall => ?_, fun hlt p h0 hp => ⟨by omega, ?_⟩⟩
  · obtain ⟨p, h0, hp, hav⟩ := hexists.mpr hne
    exact ((hall p h0 hp).2 hav s.currentTime hstart.2 (le_refl _)).2
  · intro _ t hlo hhi
    exact ⟨le_trans hstart.1 hlo, lt_of_le_of_lt hhi hlt⟩

/-! ## The polls -/

/-- A record that no poll stumbles over. -/
structure Fits (r : Record) : Prop where
  process : 0 ≤ r.p ∧ r.p < MAX_PROCESSES
  finish : r.finish < MAX_TIME
  start : r.start ≤ r.finish → 0 ≤ r.start

theorem fits_iff {r : Record} : Fits r ↔ Enters r ∧ r.finish < MAX_TIME := by
  have hstop : r.finish < MAX_TIME → r.start ≤ r.finish → r.stop ≤ MAX_TIME := fun h hle => by
    unfold Record.stop
    split_ifs <;> omega
  exact ⟨fun h => ⟨⟨h.process, fun hle => ⟨h.start hle, hstop h.finish hle⟩⟩, h.finish⟩,
    fun h => ⟨h.1.1, h.2, fun hle => (h.1.2 hle).1⟩⟩

/-- A round, on top of records that fit. -/
theorem Seen.ok_round {rs : List Record} {s : Chart} (h : Seen rs s)
    (hfin : ∀ r ∈ rs, r.finish < MAX_TIME) (buffer : List Char) :
    (Ok (round s buffer) ↔ (∀ r ∈ decode buffer, Fits r) ∧ rs ++ decode buffer ≠ []) ∧
      ∀ x, round s buffer = .ok x → Seen (rs ++ decode buffer) x.1 := by
  have hall : (∀ r ∈ rs ++ decode buffer, r.finish < MAX_TIME) ↔
      ∀ r ∈ decode buffer, r.finish < MAX_TIME := by
    simp only [List.mem_append, or_imp, forall_and, and_iff_right hfin]
  have hfits : (∀ r ∈ decode buffer, Fits r) ↔
      (∀ r ∈ decode buffer, Enters r) ∧ ∀ r ∈ decode buffer, r.finish < MAX_TIME := by
    simp only [fits_iff, forall_and]
  obtain ⟨hok, hseen⟩ := h.ok_enterAll (decode buffer)
  constructor
  · rw [hfits, ← hall, ← hok, round, ok_bind_iff]
    constructor
    · rintro ⟨s', hs', hdraw⟩
      obtain ⟨d, hd, -⟩ := ok_bind_iff.mp hdraw
      obtain ⟨h1, h2⟩ := (hseen s' hs').ok_drawChart.mp ⟨d, hd⟩
      exact ⟨⟨⟨s', hs'⟩, h1⟩, h2⟩
    · rintro ⟨⟨⟨s', hs'⟩, h1⟩, h2⟩
      obtain ⟨d, hd⟩ := (hseen s' hs').ok_drawChart.mpr ⟨h1, h2⟩
      exact ⟨s', hs', ok_bind_iff.mpr ⟨d, hd, ok_ok _⟩⟩
  · intro x hx
    obtain ⟨s', hs', hdraw⟩ := ok_bind_iff.mp ⟨x, hx⟩
    obtain ⟨d, hd, -⟩ := ok_bind_iff.mp hdraw
    rw [round, hs', ok_bind] at hx
    dsimp only at hx
    rw [hd, ok_bind] at hx
    obtain rfl := Except.ok.inj hx
    exact hseen s' hs'

/-- **The rounds.** Only the first one can find nothing to draw. -/
theorem Seen.ok_rounds {rs : List Record} {s : Chart} (h : Seen rs s)
    (hfin : ∀ r ∈ rs, r.finish < MAX_TIME) (buffers : List (List Char)) :
    Ok (rounds s buffers) ↔ (∀ buffer ∈ buffers, ∀ r ∈ decode buffer, Fits r) ∧
      ∀ buffer, buffers.head? = some buffer → rs ++ decode buffer ≠ [] := by
  induction buffers generalizing rs s with
  | nil => simp [rounds]
  | cons buffer buffers ih =>
      obtain ⟨hok, hseen⟩ := h.ok_round hfin buffer
      have hhead : (∀ b, (buffer :: buffers).head? = some b → rs ++ decode b ≠ []) ↔
          rs ++ decode buffer ≠ [] := by simp
      have hfin' : (∀ r ∈ decode buffer, Fits r) →
          ∀ r ∈ rs ++ decode buffer, r.finish < MAX_TIME := fun hf r hr =>
        (List.mem_append.mp hr).elim (hfin r) fun hr => (hf r hr).finish
      rw [hhead, List.forall_mem_cons, rounds, ok_bind_iff]
      constructor
      · rintro ⟨⟨s', d⟩, hx, hrest⟩
        obtain ⟨hf, hne⟩ := hok.mp ⟨_, hx⟩
        exact ⟨⟨hf, ((ih (hseen _ hx) (hfin' hf)).mp hrest).1⟩, hne⟩
      · rintro ⟨⟨hf, hrest⟩, hne⟩
        obtain ⟨⟨s', d⟩, hx⟩ := hok.mpr ⟨hf, hne⟩
        exact ⟨_, hx, (ih (hseen _ hx) (hfin' hf)).mpr
          ⟨hrest, fun b _ hnil => hne (List.append_eq_nil_iff.mp hnil).1⟩⟩

/-- **When the analyser is safe**: if every record that the polls decode is within the arrays,
and the first poll decodes one. -/
theorem ok_main_iff (files : List (List Char)) :
    Ok (main files) ↔
      (∀ buffer ∈ readPolls .init files, ∀ r ∈ decode buffer, Fits r) ∧
        ∀ buffer, (readPolls .init files).head? = some buffer → decode buffer ≠ [] := by
  rw [main, seen_init.ok_rounds (by simp)]
  simp only [List.nil_append]

/-- Nothing has been printed yet; the hundredth process; the thousandth tick. -/
theorem not_ok_main :
    ¬Ok (main [bytes []]) ∧ ¬Ok (main [bytes [.record ⟨100, 0, 1⟩]]) ∧
      ¬Ok (main [bytes [.record ⟨1, 0, 1⟩, .record ⟨1, 1000, 1000⟩]]) := by
  refine ⟨?_, ?_, ?_⟩
  · have : main [bytes []] = .error .divByZero := rfl
    rw [this]
    exact not_ok_error _
  · have : main [bytes [.record ⟨100, 0, 1⟩]] = .error .outOfBounds := rfl
    rw [this]
    exact not_ok_error _
  · have : main [bytes [.record ⟨1, 0, 1⟩, .record ⟨1, 1000, 1000⟩]] = .error .outOfBounds := rfl
    rw [this]
    exact not_ok_error _

end Xv6Cfs.Visual
