import Xv6Cfs.Visual.Scan

/-!
# What the polls make of the log

A poll ends the token it is in, as a `>` would. So what the polls decode is what would be
decoded at once from the log with a `>` put in wherever a poll ended. A record that has
none put into it, from its brace to its last digit, is decoded; any other one is lost or
altered. Nothing is decoded from the rest of the log.
-/

namespace Xv6Cfs.Visual

/-! ## Tokens -/

/-- The records of a text, when the characters `cur` of a token have been seen before it. -/
def scans (cur s : List Char) : List Record := (tokensFrom cur s).filterMap scanRecord

theorem scanRecord_nil : scanRecord [] = none := rfl

theorem scans_nil (cur : List Char) : scans cur [] = (scanRecord cur).toList := by
  rw [scans, tokensFrom]
  split_ifs with h
  · rw [h]
    rfl
  · cases hs : scanRecord cur <;> simp [hs]

theorem scans_sep (cur s : List Char) :
    scans cur ('>' :: s) = (scanRecord cur).toList ++ scans [] s := by
  rw [scans, tokensFrom, if_pos rfl]
  split_ifs with h
  · rw [h]
    rfl
  · cases hs : scanRecord cur <;> simp [hs, scans]

theorem scans_char {c : Char} (h : c ≠ '>') (cur s : List Char) :
    scans cur (c :: s) = scans (cur ++ [c]) s := by
  rw [scans, tokensFrom, if_neg h, scans]

theorem scans_word {w : List Char} (h : ∀ c ∈ w, c ≠ '>') (cur s : List Char) :
    scans cur (w ++ s) = scans (cur ++ w) s := by
  induction w generalizing cur with
  | nil => simp
  | cons c w ih =>
      rw [List.forall_mem_cons] at h
      rw [List.cons_append, scans_char h.1, ih h.2, List.append_assoc]
      rfl

theorem scans_append_sep (cur a b : List Char) :
    scans cur (a ++ '>' :: b) = scans cur a ++ scans [] b := by
  induction a generalizing cur with
  | nil => rw [List.nil_append, scans_sep, scans_nil]
  | cons c a ih =>
      by_cases hc : c = '>'
      · subst hc
        rw [List.cons_append, scans_sep, scans_sep, ih, List.append_assoc]
      · rw [List.cons_append, scans_char hc, scans_char hc, ih]

theorem scans_seps {x : List Char} (h : ∀ c ∈ x, c = '>') (z : List Char) :
    scans [] (x ++ z) = scans [] z := by
  induction x with
  | nil => rfl
  | cons c x ih =>
      rw [List.forall_mem_cons] at h
      obtain ⟨rfl, h⟩ := h
      rw [List.cons_append, scans_sep, ih h]
      rfl

/-- Whatever is put after it, the token is read as `o`. -/
def Idle (cur : List Char) (o : Option Record) : Prop :=
  cur = [] ∧ o = none ∨ cur ≠ [] ∧ ∀ y, scanRecord (cur ++ y) = o

theorem idle_nil : Idle [] none := .inl ⟨rfl, rfl⟩

theorem idle_cons {c : Char} (h : c ≠ '{') (s : List Char) : Idle (c :: s) none :=
  .inr ⟨List.cons_ne_nil c s, fun y => scanRecord_cons_of_ne h (s ++ y)⟩

theorem idle_body {r : Record} (hr : r.Ints) : Idle (body r ++ ['}']) (some r) := by
  refine .inr ⟨by simp, fun y => ?_⟩
  rw [List.append_assoc]
  exact scanRecord_body hr (stops_cons.mpr rfl)

theorem Idle.scan {cur : List Char} {o : Option Record} (h : Idle cur o) : scanRecord cur = o := by
  rcases h with ⟨rfl, rfl⟩ | ⟨-, h⟩
  · rfl
  · simpa using h []

theorem Idle.char {cur : List Char} {o : Option Record} (h : Idle cur o) {c : Char}
    (hc : c ≠ '{') : Idle (cur ++ [c]) o := by
  rcases h with ⟨rfl, rfl⟩ | ⟨hne, h⟩
  · exact idle_cons hc []
  · exact .inr ⟨by simp, fun y => by rw [List.append_assoc]; exact h _⟩

/-- **Text decides nothing**: it ends a token, or goes on with one that is settled. -/
theorem scans_text {x z : List Char} {R : List Record} (hx : ∀ c ∈ x, c ≠ '{')
    (hz : ∀ cur o, Idle cur o → scans cur z = o.toList ++ R) {cur : List Char}
    {o : Option Record} (h : Idle cur o) : scans cur (x ++ z) = o.toList ++ R := by
  induction x generalizing cur o with
  | nil => exact hz cur o h
  | cons c x ih =>
      rw [List.forall_mem_cons] at hx
      by_cases hc : c = '>'
      · subst hc
        rw [List.cons_append, scans_sep, h.scan, ih hx.2 idle_nil]
        rfl
      · rw [List.cons_append, scans_char hc]
        exact ih hx.2 (h.char hx.1)

/-! ## The log with the ends of the polls -/

/-- A text that begins at position `i`, with a `>` put in at the positions of `K`. -/
def stream (K : List Nat) (i : Nat) : List Char → List Char
  | [] => []
  | c :: s => if i ∈ K then '>' :: c :: stream K (i + 1) s else c :: stream K (i + 1) s

variable {K : List Nat}

theorem stream_append (i : Nat) (a b : List Char) :
    stream K i (a ++ b) = stream K i a ++ stream K (i + a.length) b := by
  induction a generalizing i with
  | nil => rfl
  | cons c a ih =>
      have hi : i + (a.length + 1) = i + 1 + a.length := by omega
      simp only [List.cons_append, stream, ih, List.length_cons, hi]
      split_ifs <;> rfl

theorem mem_stream {i : Nat} {c : Char} {s : List Char} (h : c ∈ stream K i s) :
    c = '>' ∨ c ∈ s := by
  induction s generalizing i with
  | nil => cases h
  | cons d s ih =>
      rw [stream] at h
      split_ifs at h
      · rcases List.mem_cons.mp h with rfl | h
        · exact .inl rfl
        · rcases List.mem_cons.mp h with rfl | h
          · exact .inr List.mem_cons_self
          · exact (ih h).imp_right (List.mem_cons_of_mem _)
      · rcases List.mem_cons.mp h with rfl | h
        · exact .inr List.mem_cons_self
        · exact (ih h).imp_right (List.mem_cons_of_mem _)

/-- The first character, and what is put before it. -/
theorem stream_cons (i : Nat) (c : Char) (s : List Char) :
    ∃ x, (∀ d ∈ x, d = '>') ∧ stream K i (c :: s) = x ++ c :: stream K (i + 1) s := by
  rw [stream]
  split_ifs
  · exact ⟨['>'], by simp, rfl⟩
  · exact ⟨[], by simp, rfl⟩

/-- Up to the first end. -/
theorem stream_cut (i : Nat) (s : List Char) :
    (∀ j, i ≤ j → j < i + s.length → j ∉ K) ∧ stream K i s = s ∨
      ∃ k, k < s.length ∧ i + k ∈ K ∧
        ∃ u, stream K i s = s.take k ++ '>' :: u ∧ ∀ c ∈ u, c = '>' ∨ c ∈ s := by
  induction s generalizing i with
  | nil => exact .inl ⟨fun j h1 h2 => absurd h2 (by simpa using h1), rfl⟩
  | cons c s ih =>
      by_cases hi : i ∈ K
      · refine .inr ⟨0, by simp, hi, c :: stream K (i + 1) s, by simp [stream, hi], ?_⟩
        intro d hd
        rcases List.mem_cons.mp hd with rfl | hd
        · exact .inr List.mem_cons_self
        · exact (mem_stream hd).imp_right (List.mem_cons_of_mem _)
      · rcases ih (i + 1) with ⟨hno, heq⟩ | ⟨k, hk, hin, u, heq, hu⟩
        · refine .inl ⟨fun j hlo hhi => ?_, by rw [stream, if_neg hi, heq]⟩
          rcases Nat.eq_or_lt_of_le hlo with rfl | hlt
          · exact hi
          · exact hno j hlt (by rw [List.length_cons] at hhi; omega)
        · refine .inr ⟨k + 1, by simpa using hk, by rwa [show i + (k + 1) = i + 1 + k by omega],
            u, by rw [stream, if_neg hi, heq]; rfl, fun d hd => ?_⟩
          exact (hu d hd).imp_right (List.mem_cons_of_mem _)

theorem stream_of_not_mem {i : Nat} {s : List Char}
    (h : ∀ j, i ≤ j → j < i + s.length → j ∉ K) : stream K i s = s := by
  rcases stream_cut (K := K) i s with ⟨-, heq⟩ | ⟨k, hk, hin, -⟩
  · exact heq
  · exact absurd hin (h _ (by omega) (by omega))

/-- Where the pieces end, the first of which begins at `i`. -/
def ends (i : Nat) : List (List Char) → List Nat
  | [] => []
  | piece :: pieces => (i + piece.length) :: ends (i + piece.length) pieces

theorem le_of_mem_ends {i j : Nat} {pieces : List (List Char)} (h : j ∈ ends i pieces) :
    i ≤ j := by
  induction pieces generalizing i with
  | nil => cases h
  | cons piece pieces ih =>
      rcases List.mem_cons.mp h with rfl | h
      · omega
      · have := ih h
        omega

/-- **The end of a piece is a separator.** -/
theorem scans_pieces {i : Nat} {pieces : List (List Char)}
    (hK : ∀ j, i < j → (j ∈ K ↔ j ∈ ends i pieces)) :
    pieces.flatMap (scans []) = scans [] (stream K i pieces.flatten) := by
  induction pieces generalizing i with
  | nil => rfl
  | cons piece pieces ih =>
      have hrest := ih (i := i + piece.length) fun j hj => by
        rw [hK j (by omega), ends, List.mem_cons, or_iff_right (by omega)]
      rw [List.flatMap_cons, hrest, List.flatten_cons, stream_append]
      cases piece with
      | nil => rfl
      | cons c piece =>
          obtain ⟨x, hx, heq⟩ := stream_cons (K := K) i c piece
          have hsame : stream K (i + 1) piece = piece := stream_of_not_mem fun j hlo hhi hj => by
            rw [hK j (by omega), ends, List.mem_cons, List.length_cons] at hj
            rcases hj with hj | hj
            · omega
            · have := le_of_mem_ends hj
              omega
          have hend : i + (c :: piece).length ∈ K := by
            rw [hK _ (by simp), ends]
            exact List.mem_cons_self
          rw [heq, hsame, List.append_assoc, scans_seps hx]
          cases hflat : pieces.flatten with
          | nil => rw [stream, scans_nil, scanRecord_nil, List.append_nil]; simp
          | cons d rest =>
              rw [stream, if_pos hend, scans_append_sep, scans_sep, scanRecord_nil]
              rfl

/-! ## The records of the log -/

/-- Records are of numbers that an `int` holds. Texts have no brace and no end of a string in them. -/
def Segment.Plain : Segment → Prop
  | .record r => r.Ints
  | .text x => ∀ c ∈ x, c ≠ '{' ∧ c ≠ '\x00'

/-- What is decoded from a log that begins at position `i`: of a record into which nothing has
been put the record, else not this record. -/
inductive Decoded (K : List Nat) : Nat → List Segment → List Record → Prop
  | nil (i : Nat) : Decoded K i [] []
  | text {i : Nat} {x : List Char} {log : List Segment} {rs : List Record} :
      Decoded K (i + x.length) log rs → Decoded K i (.text x :: log) rs
  | whole {i : Nat} {r : Record} {log : List Segment} {rs : List Record} :
      (∀ j, i + 2 < j → j < i + 2 + (body r).length → j ∉ K) →
      Decoded K (i + (printRecord r).length) log rs →
      Decoded K i (.record r :: log) (r :: rs)
  | cut {i j : Nat} {r : Record} {o : Option Record} {log : List Segment} {rs : List Record} :
      i + 2 < j → j < i + 2 + (body r).length → j ∈ K → o ≠ some r →
      Decoded K (i + (printRecord r).length) log rs →
      Decoded K i (.record r :: log) (o.toList ++ rs)

theorem printInt_plain {i : Int} {c : Char} (h : c ∈ printInt i) :
    c ≠ '{' ∧ c ≠ '>' ∧ c ≠ '\x00' := by
  have hdig : c.isDigit = true ∨ c = '-' := by
    rw [printInt] at h
    split_ifs at h
    · rcases List.mem_cons.mp h with rfl | h
      · exact .inr rfl
      · exact .inl (isDigit_of_mem h)
    · exact .inl (isDigit_of_mem h)
  refine ⟨?_, ?_, ?_⟩
  · rintro rfl
    revert hdig
    decide
  · rintro rfl
    revert hdig
    decide
  · rintro rfl
    revert hdig
    decide

/-- A printed record is a brace and what has none. -/
theorem exists_body_tail (r : Record) :
    ∃ t, body r = '{' :: t ∧ ∀ c ∈ t, c ≠ '{' ∧ c ≠ '>' ∧ c ≠ '\x00' := by
  refine ⟨_, body_eq r, fun c hc => ?_⟩
  simp only [List.mem_cons, List.mem_append] at hc
  rcases hc with rfl | hc | rfl | rfl | hc | rfl | rfl | hc
  · decide
  · exact printInt_plain hc
  · decide
  · decide
  · exact printInt_plain hc
  · decide
  · decide
  · exact printInt_plain hc

/-- What is decoded from the body of a record and its brace. -/
theorem scans_record (i : Nat) {r : Record} (hr : r.Ints) {z : List Char} {R : List Record}
    (hz : ∀ cur o, Idle cur o → scans cur z = o.toList ++ R) :
    (∀ j, i < j → j < i + (body r).length → j ∉ K) ∧
        scans [] (stream K i (body r ++ ['}']) ++ z) = r :: R ∨
      (∃ j, i < j ∧ j < i + (body r).length ∧ j ∈ K) ∧
        ∃ o, o ≠ some r ∧ scans [] (stream K i (body r ++ ['}']) ++ z) = o.toList ++ R := by
  obtain ⟨t, ht, hplain⟩ := exists_body_tail r
  obtain ⟨x, hx, heq⟩ := stream_cons (K := K) i '{' t
  have hlen : (body r).length = t.length + 1 := by rw [ht, List.length_cons]
  have hword : ∀ c ∈ body r, c ≠ '>' := by
    rw [ht, List.forall_mem_cons]
    exact ⟨by decide, fun c hc => (hplain c hc).2.1⟩
  have hbrace : ∀ c ∈ stream K (i + (body r).length) ['}'], c ≠ '{' := fun c hc => by
    rcases mem_stream hc with rfl | hc
    · decide
    · rw [List.mem_singleton.mp hc]
      decide
  rw [stream_append, List.append_assoc]
  rcases stream_cut (K := K) (i + 1) t with ⟨hno, hsame⟩ | ⟨k, hk, hin, u, hcut, hu⟩
  · refine .inl ⟨fun j hlo hhi => hno j hlo (by omega), ?_⟩
    rw [ht, heq, hsame, ← ht, List.append_assoc, scans_seps hx, scans_word hword,
      List.nil_append]
    -- a poll may still end between the last digit and the brace
    rw [stream, stream]
    split_ifs
    · rw [List.cons_append, scans_sep, List.cons_append, List.nil_append, scans_char (by decide),
        List.nil_append, hz _ _ (idle_cons (by decide) []), ← List.append_nil (body r),
        scanRecord_body hr stops_nil]
      rfl
    · rw [List.cons_append, List.nil_append, scans_char (by decide), hz _ _ (idle_body hr)]
      rfl
  · refine .inr ⟨⟨i + 1 + k, by omega, by omega, hin⟩, scanRecord ('{' :: t.take k), ?_, ?_⟩
    · refine scanRecord_cut hr ?_ fun h => ?_
      · rw [ht]
        exact List.cons_prefix_cons.mpr ⟨rfl, List.take_prefix k t⟩
      · have := congrArg List.length (h.trans ht)
        rw [List.length_cons, List.length_cons, List.length_take] at this
        omega
    · have hhead : ∀ c ∈ '{' :: t.take k, c ≠ '>' := by
        rw [List.forall_mem_cons]
        exact ⟨by decide, fun c hc => (hplain c (List.mem_of_mem_take hc)).2.1⟩
      rw [ht, heq, hcut, ← ht, List.append_assoc, scans_seps hx]
      rw [← List.cons_append, List.append_assoc, scans_word hhead, List.nil_append,
        List.cons_append, scans_sep]
      congr 1
      rw [← List.append_assoc]
      refine scans_text (fun c hc => ?_) hz idle_nil
      rcases List.mem_append.mp hc with hc | hc
      · rcases hu c hc with rfl | hc
        · decide
        · exact (hplain c hc).1
      · exact hbrace c hc

theorem scans_log {log : List Segment} (hlog : ∀ seg ∈ log, seg.Plain) (i : Nat) :
    ∃ rs, Decoded K i log rs ∧ ∀ cur o, Idle cur o →
      scans cur (stream K i (bytes log)) = o.toList ++ rs := by
  induction log generalizing i with
  | nil =>
      refine ⟨[], .nil i, fun cur o h => ?_⟩
      rw [List.append_nil, ← h.scan]
      exact scans_nil cur
  | cons seg log ih =>
      rw [List.forall_mem_cons] at hlog
      obtain ⟨rs, hrs, hz⟩ := ih hlog.2 (i + seg.bytes.length)
      have hbytes : stream K i (bytes (seg :: log)) =
          stream K i seg.bytes ++ stream K (i + seg.bytes.length) (bytes log) := by
        rw [← stream_append]
        rfl
      rw [hbytes]
      cases seg with
      | text x =>
          refine ⟨rs, .text hrs, fun cur o h => scans_text (fun c hc => ?_) hz h⟩
          rcases mem_stream hc with rfl | hc
          · decide
          · exact (hlog.1 c hc).1
      | record r =>
          have hsplit : ∃ x, (∀ d ∈ x, d = '>') ∧ stream K i (printRecord r) =
              '>' :: (x ++ stream K (i + 2) (body r ++ ['}'])) := by
            obtain ⟨x, hx, heq⟩ := stream_cons (K := K) i '>' ('>' :: (body r ++ ['}']))
            obtain ⟨y, hy, heq'⟩ := stream_cons (K := K) (i + 1) '>' (body r ++ ['}'])
            have hrec : printRecord r = '>' :: '>' :: (body r ++ ['}']) := by simp [printRecord]
            rw [hrec, heq, heq']
            cases x with
            | nil =>
                refine ⟨y ++ ['>'], fun d hd => ?_, by simp⟩
                rcases List.mem_append.mp hd with hd | hd
                · exact hy d hd
                · exact List.mem_singleton.mp hd
            | cons c x =>
                rw [List.forall_mem_cons] at hx
                obtain ⟨rfl, hx⟩ := hx
                refine ⟨x ++ '>' :: (y ++ ['>']), fun d hd => ?_, by simp⟩
                simp only [List.mem_append, List.mem_cons, List.not_mem_nil, or_false] at hd
                rcases hd with hd | rfl | hd | rfl
                · exact hx d hd
                · rfl
                · exact hy d hd
                · rfl
          obtain ⟨x, hx, heq⟩ := hsplit
          have hopen : ∀ cur o, Idle cur o →
              scans cur (stream K i (printRecord r) ++
                stream K (i + (printRecord r).length) (bytes log)) =
              o.toList ++ scans [] (stream K (i + 2) (body r ++ ['}']) ++
                stream K (i + (printRecord r).length) (bytes log)) := fun cur o h => by
            rw [heq, List.cons_append, scans_sep, h.scan, List.append_assoc, scans_seps hx]
          rcases scans_record (K := K) (i + 2) hlog.1 hz with
            ⟨hno, hscan⟩ | ⟨⟨j, hlo, hhi, hj⟩, o', ho', hscan⟩
          · exact ⟨r :: rs, .whole hno hrs, fun cur o h => by
              rw [Segment.bytes] at hscan ⊢
              rw [hopen cur o h, hscan]⟩
          · exact ⟨o'.toList ++ rs, .cut hlo hhi hj ho' hrs, fun cur o h => by
              rw [Segment.bytes] at hscan ⊢
              rw [hopen cur o h, hscan]⟩

/-! ## What is decoded and what was printed -/

/-- Position `j` is inside a record of the log, after its brace and before its last digit. -/
def Inside (i : Nat) (log : List Segment) (j : Nat) : Prop :=
  ∃ l₁ r l₂, log = l₁ ++ .record r :: l₂ ∧ i + (bytes l₁).length + 2 < j ∧
    j < i + (bytes l₁).length + 2 + (body r).length

theorem inside_cons {i j : Nat} {seg : Segment} {log : List Segment} :
    Inside i (seg :: log) j ↔
      (∃ r, seg = .record r ∧ i + 2 < j ∧ j < i + 2 + (body r).length) ∨
        Inside (i + seg.bytes.length) log j := by
  constructor
  · rintro ⟨l₁, r, l₂, heq, hlo, hhi⟩
    cases l₁ with
    | nil =>
        obtain ⟨rfl, rfl⟩ := List.cons.inj heq
        exact .inl ⟨r, rfl, by simpa [bytes] using hlo, by simpa [bytes] using hhi⟩
    | cons seg' l₁ =>
        obtain ⟨rfl, rfl⟩ := List.cons.inj heq
        have hlen : (bytes (seg :: l₁)).length = seg.bytes.length + (bytes l₁).length := by
          simp [bytes]
        rw [hlen] at hlo hhi
        exact .inr ⟨l₁, r, l₂, rfl, by omega, by omega⟩
  · rintro (⟨r, rfl, hlo, hhi⟩ | ⟨l₁, r, l₂, rfl, hlo, hhi⟩)
    · exact ⟨[], r, log, rfl, by simpa [bytes] using hlo, by simpa [bytes] using hhi⟩
    · have hlen : (bytes (seg :: l₁)).length = seg.bytes.length + (bytes l₁).length := by
        simp [bytes]
      exact ⟨seg :: l₁, r, l₂, rfl, by omega, by omega⟩

theorem records_text (x : List Char) (log : List Segment) :
    records (.text x :: log) = records log := rfl

theorem records_record (r : Record) (log : List Segment) :
    records (.record r :: log) = r :: records log := rfl

theorem Decoded.length_le {i : Nat} {log : List Segment} {rs : List Record}
    (h : Decoded K i log rs) : rs.length ≤ (records log).length := by
  induction h with
  | nil => exact le_refl _
  | text _ ih => rwa [records_text]
  | whole _ _ ih =>
      rw [records_record, List.length_cons, List.length_cons]
      omega
  | @cut _ _ _ o _ _ _ _ _ _ _ ih =>
      have : o.toList.length ≤ 1 := by cases o <;> simp
      rw [List.length_append, records_record, List.length_cons]
      omega

/-- **All is decoded as it was printed** just when no poll ended inside a record. -/
theorem Decoded.eq_records_iff {i : Nat} {log : List Segment} {rs : List Record}
    (h : Decoded K i log rs) : rs = records log ↔ ∀ j ∈ K, ¬Inside i log j := by
  induction h with
  | nil i =>
      refine ⟨fun _ j _ => ?_, fun _ => rfl⟩
      rintro ⟨l₁, r, l₂, heq, -⟩
      simp at heq
  | @text i x log rs _ ih =>
      rw [records_text, ih]
      refine forall₂_congr fun j _ => not_congr ?_
      rw [inside_cons, or_iff_right (by simp)]
      rfl
  | @whole i r log rs hno _ ih =>
      rw [records_record, List.cons.injEq, and_iff_right rfl, ih]
      refine forall₂_congr fun j hj => not_congr ?_
      rw [inside_cons, or_iff_right]
      · rfl
      · rintro ⟨r', hr', hlo, hhi⟩
        obtain rfl := Segment.record.inj hr'
        exact hno j hlo hhi hj
  | @cut i j r o log rs hlo hhi hj ho hrest _ =>
      refine iff_of_false (fun heq => ?_) fun hall => ?_
      · rw [records_record] at heq
        cases o with
        | none =>
            have := hrest.length_le
            have hlen := congrArg List.length heq
            simp only [Option.toList, List.nil_append, List.length_cons] at hlen
            omega
        | some r' =>
            exact ho (congrArg some (List.cons.inj heq).1)
      · exact hall j hj (inside_cons.mpr (.inl ⟨r, rfl, hlo, hhi⟩))

end Xv6Cfs.Visual
