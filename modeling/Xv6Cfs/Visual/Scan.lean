import Xv6Cfs.Visual.Main

/-!
# What `sscanf` makes of a printed record, and of a part of one

A printed number is read back whatever follows it, unless that is another digit. The
beginning of a printed number, if it is read at all, is another number. So of the
beginnings of a printed record only the whole of it is read as this record: an earlier
end leaves no record, or one with another `finish`.
-/

namespace Xv6Cfs.Visual

/-! ## Digits -/

/-- The digits of `n` cut short are less than `n`. -/
theorem ofDigitChars_lt {n : Nat} {d : List Char} (h : d <+: Nat.toDigits 10 n)
    (hne : d ≠ Nat.toDigits 10 n) (hd : d ≠ []) : Nat.ofDigitChars 10 d 0 < n := by
  induction n using Nat.strongRecOn with
  | ind n ih =>
      rcases Nat.lt_or_ge n 10 with hn | hn
      · rw [Nat.toDigits_of_lt_base hn] at h hne
        rcases List.prefix_cons_iff.mp h with rfl | ⟨t, rfl, ht⟩
        · exact absurd rfl hd
        · exact absurd (by rw [List.prefix_nil.mp ht]) hne
      · rw [Nat.toDigits_of_base_le (by omega) hn] at h hne
        have hlt : n / 10 < n := by omega
        rcases List.prefix_concat_iff.mp h with heq | hpre
        · exact absurd heq hne
        · by_cases heq : d = Nat.toDigits 10 (n / 10)
          · rwa [heq, Nat.ofDigitChars_ten_toDigits]
          · exact lt_trans (ih _ hlt hpre heq) hlt

theorem isDigit_of_mem {n : Nat} {c : Char} (h : c ∈ Nat.toDigits 10 n) : c.isDigit = true :=
  Nat.isDigit_of_mem_toDigits (by decide) (by decide) h

/-- What follows is no digit. -/
def Stops (y : List Char) : Prop := ∀ c ∈ y.head?, c.isDigit = false

theorem stops_nil : Stops [] := by simp [Stops]

theorem stops_cons {c : Char} {y : List Char} : Stops (c :: y) ↔ c.isDigit = false := by
  simp [Stops]

theorem takeWhile_digits {d y : List Char} (hd : ∀ c ∈ d, c.isDigit = true) (hy : Stops y) :
    (d ++ y).takeWhile Char.isDigit = d ∧ (d ++ y).dropWhile Char.isDigit = y := by
  rw [List.takeWhile_append_of_pos hd, List.dropWhile_append_of_pos hd]
  cases y with
  | nil => simp
  | cons c y =>
      have hc : ¬c.isDigit = true := by simp [stops_cons.mp hy]
      simp [hc]

theorem scanDigits_append {d y : List Char} (hd : ∀ c ∈ d, c.isDigit = true) (hne : d ≠ [])
    (hy : Stops y) : scanDigits (d ++ y) = some (((Nat.ofDigitChars 10 d 0 : Nat) : Int), y) := by
  obtain ⟨h1, h2⟩ := takeWhile_digits hd hy
  rw [scanDigits, h1, h2]
  exact if_neg hne

/-! ## Numbers -/

theorem isDigit_not_sign {c : Char} (h : c.isDigit = true) :
    isSpace c = false ∧ c ≠ '-' ∧ c ≠ '+' := by
  have hne : ∀ d : Char, d.isDigit = false → c ≠ d := fun d hd heq => by
    rw [heq, hd] at h
    cases h
  refine ⟨?_, hne _ rfl, hne _ rfl⟩
  simp only [isSpace, Bool.or_eq_false_iff, decide_eq_false_iff_not]
  exact ⟨⟨⟨⟨⟨hne _ rfl, hne _ rfl⟩, hne _ rfl⟩, hne _ rfl⟩, hne _ rfl⟩, hne _ rfl⟩

/-- A number with no sign. -/
theorem scanNumber_digits {d y : List Char} (hd : ∀ c ∈ d, c.isDigit = true) (hne : d ≠ [])
    (hy : Stops y) : scanNumber (d ++ y) = some (((Nat.ofDigitChars 10 d 0 : Nat) : Int), y) := by
  rw [← scanDigits_append hd hne hy]
  cases d with
  | nil => exact absurd rfl hne
  | cons c d =>
      obtain ⟨hspace, hminus, hplus⟩ := isDigit_not_sign (hd c List.mem_cons_self)
      rw [scanNumber, List.cons_append, List.dropWhile_cons_of_neg (by simp [hspace])]
      split
      · rename_i heq
        exact absurd (List.cons.inj heq).1 hminus
      · rename_i heq
        exact absurd (List.cons.inj heq).1 hplus
      · rfl

theorem scanNumber_minus (s : List Char) :
    scanNumber ('-' :: s) = (scanDigits s).map fun x => (-x.1, x.2) := by
  simp [scanNumber, isSpace]

/-- A printed number is read back. -/
theorem scanNumber_printInt (i : Int) {y : List Char} (hy : Stops y) :
    scanNumber (printInt i ++ y) = some (i, y) := by
  have hd : ∀ c ∈ Nat.toDigits 10 i.natAbs, c.isDigit = true := fun c hc => isDigit_of_mem hc
  rw [printInt]
  split_ifs with h
  · rw [List.cons_append, scanNumber_minus, scanDigits_append hd Nat.toDigits_ne_nil hy,
      Nat.ofDigitChars_ten_toDigits, Option.map_some]
    simp only [Option.some.injEq, Prod.mk.injEq, and_true]
    omega
  · rw [scanNumber_digits hd Nat.toDigits_ne_nil hy, Nat.ofDigitChars_ten_toDigits]
    simp only [Option.some.injEq, Prod.mk.injEq, and_true]
    omega

/-- A number cut short is a smaller number, or none. -/
theorem scanNumber_cut {i : Int} {a : List Char} (h : a <+: printInt i) (hne : a ≠ printInt i) :
    scanNumber a = none ∨ ∃ v : Int, v.natAbs < i.natAbs ∧ scanNumber a = some (v, []) := by
  have hcut : ∀ d, d <+: Nat.toDigits 10 i.natAbs → d ≠ Nat.toDigits 10 i.natAbs → d ≠ [] →
      Nat.ofDigitChars 10 d 0 < i.natAbs := fun d => ofDigitChars_lt
  have hdig : ∀ d, d <+: Nat.toDigits 10 i.natAbs → ∀ c ∈ d, c.isDigit = true :=
    fun d hd c hc => isDigit_of_mem (hd.subset hc)
  rw [printInt] at h hne
  split_ifs at h hne with hneg
  · rcases List.prefix_cons_iff.mp h with rfl | ⟨d, rfl, hd⟩
    · exact .inl rfl
    · rw [scanNumber_minus]
      by_cases hnil : d = []
      · subst hnil
        exact .inl rfl
      · have hlt := hcut d hd (fun heq => hne (heq ▸ rfl)) hnil
        have hscan := scanDigits_append (hdig d hd) hnil stops_nil
        rw [List.append_nil] at hscan
        rw [hscan, Option.map_some]
        exact .inr ⟨_, by dsimp only; omega, rfl⟩
  · by_cases hnil : a = []
    · subst hnil
      exact .inl rfl
    · have hlt := hcut a h hne hnil
      have hscan := scanNumber_digits (hdig a h) hnil stops_nil
      rw [List.append_nil] at hscan
      exact .inr ⟨_, by omega, hscan⟩

/-- An `int` is stored as it is. -/
theorem storeInt_eq {i : Int} (h : IsInt32 i) : storeInt i = i := by
  obtain ⟨hlo, hhi⟩ := h
  rw [storeInt, min_eq_left (by omega), max_eq_right (by omega)]
  exact int32_of_isInt32 ⟨hlo, hhi⟩

/-- **A printed number is read back**, if an `int` holds it. -/
theorem scanInt_printInt {i : Int} (hi : IsInt32 i) {y : List Char} (hy : Stops y) :
    scanInt (printInt i ++ y) = some (i, y) := by
  rw [scanInt, scanNumber_printInt i hy, Option.map_some, storeInt_eq hi]

/-- **A number cut short is another number**, or none. -/
theorem scanInt_cut {i : Int} (hi : IsInt32 i) {a : List Char} (h : a <+: printInt i)
    (hne : a ≠ printInt i) : scanInt a = none ∨ ∃ v, v ≠ i ∧ scanInt a = some (v, []) := by
  rcases scanNumber_cut h hne with hnone | ⟨v, hlt, hv⟩
  · exact .inl (by rw [scanInt, hnone, Option.map_none])
  · obtain ⟨hlo, hhi⟩ := hi
    have hv32 : IsInt32 v := ⟨by omega, by omega⟩
    refine .inr ⟨v, by omega, ?_⟩
    rw [scanInt, hv, Option.map_some, storeInt_eq hv32]

/-! ## Records -/

/-- A beginning of two texts, one after the other. -/
theorem prefix_append_cases {α : Type} {a x y : List α} (h : a <+: x ++ y) :
    (a <+: x ∧ a ≠ x) ∨ ∃ z, z <+: y ∧ a = x ++ z := by
  rcases List.prefix_or_prefix_of_prefix h (List.prefix_append x y) with hax | ⟨z, rfl⟩
  · by_cases heq : a = x
    · exact .inr ⟨[], List.nil_prefix, by rw [heq, List.append_nil]⟩
    · exact .inl ⟨hax, heq⟩
  · exact .inr ⟨z, (List.prefix_append_right_inj x).mp h, rfl⟩

/-- What `sscanf` does after the last number but one. -/
def scanFinish (p start : Int) (s : List Char) : Option Record := do
  let s ← scanChar ',' s
  let s ← scanChar 'e' s
  let (finish, _) ← scanInt s
  return ⟨p, start, finish⟩

/-- What it does after the first number. -/
def scanStart (p : Int) (s : List Char) : Option Record := do
  let s ← scanChar ',' s
  let s ← scanChar 's' s
  let (start, s) ← scanInt s
  scanFinish p start s

theorem scanRecord_open (s : List Char) :
    scanRecord ('{' :: 'p' :: s) = (scanInt s).bind fun x => scanStart x.1 x.2 := rfl

theorem scanStart_open (p : Int) (s : List Char) :
    scanStart p (',' :: 's' :: s) = (scanInt s).bind fun x => scanFinish p x.1 x.2 := rfl

theorem scanFinish_open (p start : Int) (s : List Char) :
    scanFinish p start (',' :: 'e' :: s) = (scanInt s).bind fun x => some ⟨p, start, x.1⟩ := rfl

/-- A token that begins otherwise is no record. -/
theorem scanRecord_cons_of_ne {c : Char} (h : c ≠ '{') (s : List Char) :
    scanRecord (c :: s) = none := by
  simp [scanRecord, scanChar, h]

theorem body_eq (r : Record) :
    body r = '{' :: 'p' :: (printInt r.p ++ ',' :: 's' ::
      (printInt r.start ++ ',' :: 'e' :: printInt r.finish)) := by
  simp [body]

theorem stops_comma (s : List Char) : Stops (',' :: s) := stops_cons.mpr rfl

/-- An `int` holds each of the three numbers. -/
structure Record.Ints (r : Record) : Prop where
  p : IsInt32 r.p
  start : IsInt32 r.start
  finish : IsInt32 r.finish

/-- **A printed record is read back**, with or without its brace. -/
theorem scanRecord_body {r : Record} (hr : r.Ints) {y : List Char} (hy : Stops y) :
    scanRecord (body r ++ y) = some r := by
  rw [body_eq]
  simp only [List.cons_append, List.append_assoc]
  rw [scanRecord_open, scanInt_printInt hr.p (stops_comma _), Option.bind_some, scanStart_open,
    scanInt_printInt hr.start (stops_comma _), Option.bind_some, scanFinish_open,
    scanInt_printInt hr.finish hy, Option.bind_some]

/-- The field of a number: the number is cut short and nothing comes after it, or it is whole. -/
theorem scanInt_field {β : Type} {i : Int} {a y : List Char} {f : Int → List Char → Option β}
    (hi : IsInt32 i) (hf : ∀ v, f v [] = none) (hy : Stops y) (h : a <+: printInt i ++ y) :
    ((scanInt a).bind fun x => f x.1 x.2) = none ∨
      ∃ z, z <+: y ∧ a = printInt i ++ z ∧ ((scanInt a).bind fun x => f x.1 x.2) = f i z := by
  rcases prefix_append_cases h with ⟨hpre, hne⟩ | ⟨z, hz, rfl⟩
  · rcases scanInt_cut hi hpre hne with hnone | ⟨v, -, hv⟩
    · exact .inl (by rw [hnone, Option.bind_none])
    · exact .inl (by rw [hv, Option.bind_some, hf])
  · have hstops : Stops z := by
      rcases z with - | ⟨c, z⟩
      · exact stops_nil
      · obtain ⟨t, rfl⟩ := hz
        exact stops_cons.mpr (stops_cons.mp hy)
    exact .inr ⟨z, hz, rfl, by rw [scanInt_printInt hi hstops, Option.bind_some]⟩

/-- The two characters between two fields. -/
theorem prefix_cons_cons_cases {α : Type} {c d : α} {a s : List α} (h : a <+: c :: d :: s) :
    a = [] ∨ a = [c] ∨ ∃ b, b <+: s ∧ a = c :: d :: b := by
  rcases List.prefix_cons_iff.mp h with rfl | ⟨b, rfl, hb⟩
  · exact .inl rfl
  · rcases List.prefix_cons_iff.mp hb with rfl | ⟨b', rfl, hb'⟩
    · exact .inr (.inl rfl)
    · exact .inr (.inr ⟨b', hb', rfl⟩)

/-- **A record cut short is not this record.** -/
theorem scanRecord_cut {r : Record} (hr : r.Ints) {a : List Char} (h : a <+: body r)
    (hne : a ≠ body r) : scanRecord a ≠ some r := by
  rw [body_eq] at h hne
  rcases prefix_cons_cons_cases h with rfl | rfl | ⟨b₁, hb₁, rfl⟩
  · simp [scanRecord, scanChar]
  · simp [scanRecord, scanChar]
  rw [scanRecord_open]
  rcases scanInt_field (i := r.p) (f := scanStart) hr.p (fun v => rfl) (stops_comma _) hb₁ with
    hnone | ⟨z₁, hz₁, rfl, heq⟩
  · simp [hnone]
  rw [heq]
  rcases prefix_cons_cons_cases hz₁ with rfl | rfl | ⟨b₂, hb₂, rfl⟩
  · simp [scanStart, scanChar]
  · simp [scanStart, scanChar]
  rw [scanStart_open]
  rcases scanInt_field (i := r.start) (f := scanFinish r.p) hr.start (fun v => rfl)
    (stops_comma _) hb₂ with hnone | ⟨z₂, hz₂, rfl, heq⟩
  · simp [hnone]
  rw [heq]
  rcases prefix_cons_cons_cases hz₂ with rfl | rfl | ⟨b₃, hb₃, rfl⟩
  · simp [scanFinish, scanChar]
  · simp [scanFinish, scanChar]
  rw [scanFinish_open]
  rcases scanInt_cut hr.finish hb₃ (fun heq => hne (by rw [heq])) with hnone | ⟨v, hv, hscan⟩
  · simp [hnone]
  · rw [hscan, Option.bind_some]
    intro heq
    exact hv (congrArg Record.finish (Option.some.inj heq))

end Xv6Cfs.Visual
