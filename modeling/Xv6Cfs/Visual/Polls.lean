import Xv6Cfs.Visual.Decoding

/-!
# Where the polls end

`main` goes on where it has stopped as long as `last_read_position` is the position in the file,
which it is up to `2 ^ 31`. From there on `fseek` fails. The stream then goes on where it is, as
long as its end has not been seen; once it has, nothing is read any more. From `2 ^ 32` on `main`
goes back and reads the log again, and does so for ever if the log only grows.
-/

namespace Xv6Cfs.Visual

variable {s x : Reader} {file text : List Char} {files : List (List Char)} {log : List Segment}
  {r : Record}

/-! ## One poll -/

/-- The stream after the next poll. -/
def Reader.poll (s : Reader) (file : List Char) : Reader := s.seek.next (readBuffer file s.seek)

/-- The stream after each of the polls. -/
def readers (s : Reader) : List (List Char) → List Reader
  | [] => []
  | file :: files => s.poll file :: readers (s.poll file) files

theorem readPolls_cons (s : Reader) (file : List Char) (files : List (List Char)) :
    readPolls s (file :: files) = readBuffer file s.seek :: readPolls (s.poll file) files := rfl

/-- `main` knows where it is in the file, unless that is too far. -/
structure Reader.Wf (s : Reader) : Prop where
  told : s.lastReadPosition = int32 s.position
  small : s.position < 2 ^ 32

theorem Reader.wf_init : Reader.init.Wf :=
  ⟨(int32_of_isInt32 (by decide)).symm, by decide⟩

theorem Reader.poll_told (s : Reader) (file : List Char) :
    (s.poll file).lastReadPosition = int32 (s.poll file).position := by
  simp only [poll, next]

theorem Reader.wf_poll (hsmall : (s.poll file).position < 2 ^ 32) : (s.poll file).Wf where
  told := s.poll_told file
  small := hsmall

namespace Reader.Wf

variable (h : s.Wf)

include h

/-- What `fseek` does: it finds the position, or fails. -/
theorem seek_eq : (s.position < 2 ^ 31 → s.seek = { s with eof := false }) ∧
    (2 ^ 31 ≤ s.position → s.seek = s) := by
  have htold := h.told
  have hsmall := h.small
  simp only [int32, Int.bmod] at htold
  constructor
  · intro hlt
    have hpos : s.lastReadPosition = s.position := by omega
    rw [seek, if_pos (by omega), hpos, Int.toNat_natCast]
  · intro hle
    rw [seek, if_neg (by omega)]

theorem seek_position : s.seek.position = s.position := by
  obtain ⟨hlow, hhigh⟩ := h.seek_eq
  rcases Nat.lt_or_ge s.position (2 ^ 31) with hlt | hge
  · rw [hlow hlt]
  · rw [hhigh hge]

theorem poll_position (file : List Char) :
    (s.poll file).position = s.position + (readBuffer file s.seek).length := by
  rw [poll, next, h.seek_position]

/-- A poll goes on in the file, or reads nothing. -/
theorem readBuffer_prefix (file : List Char) :
    readBuffer file s.seek <+: (file.drop s.position).take (BUFFER_SIZE - 1) := by
  rw [readBuffer, h.seek_position]
  split_ifs
  · exact List.nil_prefix
  · exact List.prefix_refl _

/-- Nothing is read any more. -/
theorem readBuffer_eof (heof : s.eof = true) (hge : 2 ^ 31 ≤ s.position) (file : List Char) :
    readBuffer file s.seek = [] := by
  rw [h.seek_eq.2 hge, readBuffer, if_pos heof]

end Reader.Wf

/-- Less is read than there is room for only at the end of the file. -/
theorem drop_of_readBuffer_nil (heof : s.eof = false) (h : readBuffer file s = []) :
    file.drop s.position = [] := by
  rw [readBuffer, heof, if_neg (by simp)] at h
  rcases List.take_eq_nil_iff.mp h with h | h
  · exact absurd h (by decide)
  · exact h

/-! ## All polls -/

/-- The polls end where their pieces end. -/
theorem readers_position (h : s.Wf) (hsmall : ∀ x ∈ readers s files, x.position < 2 ^ 32) :
    (readers s files).map Reader.position = ends s.position (readPolls s files) := by
  induction files generalizing s with
  | nil => rfl
  | cons file files ih =>
      rw [readers, List.forall_mem_cons] at hsmall
      rw [readers, readPolls_cons, List.map_cons, ends, ih (Reader.wf_poll hsmall.1) hsmall.2,
        h.poll_position]

/-- The polls read on in the log. -/
theorem flatten_readPolls_le {log : List Char} (h : s.Wf)
    (hsmall : ∀ x ∈ readers s files, x.position < 2 ^ 32) (hgrow : ∀ file ∈ files, file <+: log) :
    (readPolls s files).flatten <+: log.drop s.position := by
  induction files generalizing s with
  | nil => exact List.nil_prefix
  | cons file files ih =>
      rw [readers, List.forall_mem_cons] at hsmall
      rw [List.forall_mem_cons] at hgrow
      have hbuf : readBuffer file s.seek <+: log.drop s.position :=
        ((h.readBuffer_prefix file).trans (List.take_prefix _ _)).trans (hgrow.1.drop s.position)
      obtain ⟨rest, hrest⟩ := hbuf
      have hdrop : log.drop (s.poll file).position = rest := by
        rw [h.poll_position, ← List.drop_drop, ← hrest, List.drop_left]
      rw [readPolls_cons, List.flatten_cons, ← hrest]
      exact (List.prefix_append_right_inj _).mpr
        (hdrop ▸ ih (Reader.wf_poll hsmall.1) hsmall.2 hgrow.2)

/-- A stream whose end has been seen too far in the file stays where it is. -/
theorem flatten_readPolls_eof (h : s.Wf) (heof : s.eof = true) (hge : 2 ^ 31 ≤ s.position) :
    (readPolls s files).flatten = [] := by
  induction files generalizing s with
  | nil => rfl
  | cons file files ih =>
      have hnil := h.readBuffer_eof heof hge file
      have hpos : (s.poll file).position = s.position := by
        rw [h.poll_position, hnil, List.length_nil, Nat.add_zero]
      have heof' : (s.poll file).eof = true := by
        rw [Reader.poll, Reader.next, hnil]
        rfl
      rw [readPolls_cons, hnil, List.flatten_cons, List.nil_append]
      exact ih (Reader.wf_poll (hpos ▸ h.small)) heof' (hpos ▸ hge)

/-- So all polls together end there. -/
theorem position_of_eof (h : s.Wf) (hsmall : ∀ x ∈ readers s files, x.position < 2 ^ 32)
    (hx : x ∈ readers s files) (heof : x.eof = true) (hge : 2 ^ 31 ≤ x.position) :
    x.position = s.position + (readPolls s files).flatten.length := by
  induction files generalizing s with
  | nil => cases hx
  | cons file files ih =>
      rw [readers, List.forall_mem_cons] at hsmall
      rw [readPolls_cons, List.flatten_cons, List.length_append, ← Nat.add_assoc,
        ← h.poll_position]
      rcases List.mem_cons.mp hx with rfl | hx
      · rw [flatten_readPolls_eof (Reader.wf_poll hsmall.1) heof hge, List.length_nil, Nat.add_zero]
      · exact ih (Reader.wf_poll hsmall.1) hsmall.2 hx

/-- **The last poll, if it reads nothing**, sees the end of the file, or has seen an end before. -/
theorem exists_last (h : s.Wf) (hsmall : ∀ x ∈ readers s files, x.position < 2 ^ 32)
    (hlast : files.getLast? = some text) (hrest : (readPolls s files).getLast? = some []) :
    ∃ x ∈ readers s files, x.eof = true ∧
      x.position = s.position + (readPolls s files).flatten.length ∧
      (x.position < 2 ^ 31 → text.drop x.position = []) := by
  induction files generalizing s with
  | nil => cases hlast
  | cons file files ih =>
      rw [readers, List.forall_mem_cons] at hsmall
      rw [readPolls_cons] at hrest ⊢
      cases files with
      | nil =>
          obtain rfl : file = text := by simpa using hlast
          have hnil : readBuffer file s.seek = [] := by simpa [readPolls] using hrest
          have hpos : (s.poll file).position = s.position := by
            rw [h.poll_position, hnil, List.length_nil, Nat.add_zero]
          refine ⟨s.poll file, List.mem_cons_self, ?_, ?_, fun hlt => ?_⟩
          · rw [Reader.poll, Reader.next, hnil]
            rfl
          · rw [hpos, hnil]
            rfl
          · rw [hpos] at hlt ⊢
            rw [← h.seek_position]
            refine drop_of_readBuffer_nil ?_ hnil
            rw [h.seek_eq.1 hlt]
      | cons file' files =>
          have hrest' : (readPolls (s.poll file) (file' :: files)).getLast? = some [] := by
            simpa [readPolls_cons] using hrest
          obtain ⟨x, hx, heof, hpos, hdrop⟩ :=
            ih (Reader.wf_poll hsmall.1) hsmall.2 (by simpa using hlast) hrest'
          refine ⟨x, List.mem_cons_of_mem _ hx, heof, ?_, hdrop⟩
          rw [hpos, h.poll_position, List.flatten_cons, List.length_append, Nat.add_assoc]

/-! ## A log that grows -/

/-- `main` has been at `2 ^ 32`, and reads again what it has read. -/
structure Reader.Again (s : Reader) : Prop where
  told : s.lastReadPosition = int32 s.position
  below : s.position < 2 ^ 32 + (BUFFER_SIZE - 1)
  seen : s.eof = true → 2 ^ 32 ≤ s.position

/-- There is always more of the log then. -/
theorem Reader.Again.seek (h : s.Again) : s.seek.eof = false ∧ s.seek.position < 2 ^ 32 := by
  have htold := h.told
  have hbelow := h.below
  have hseen := h.seen
  simp only [int32, Int.bmod] at htold
  simp only [BUFFER_SIZE] at hbelow
  rw [Reader.seek]
  split_ifs with hneg
  · exact ⟨rfl, by dsimp only; omega⟩
  · -- fseek fails between 2 ^ 31 and 2 ^ 32 only, where the end has not been seen
    have hlt : s.position < 2 ^ 32 := by omega
    refine ⟨Bool.eq_false_iff.mpr fun heof => ?_, hlt⟩
    exact absurd (hseen heof) (by omega)

theorem length_readBuffer (heof : s.eof = false) :
    (readBuffer file s).length = min (BUFFER_SIZE - 1) (file.length - s.position) := by
  rw [readBuffer, heof, if_neg (by decide), List.length_take, List.length_drop]

theorem Reader.Again.poll (h : s.Again) (hlong : 2 ^ 32 ≤ file.length) :
    readBuffer file s.seek ≠ [] ∧ (s.poll file).Again := by
  obtain ⟨heof, hlt⟩ := h.seek
  have hlen : (readBuffer file s.seek).length = _ := length_readBuffer heof
  simp only [BUFFER_SIZE] at hlen
  refine ⟨fun hnil => ?_, s.poll_told file, ?_, fun hseen => ?_⟩
  · rw [hnil, List.length_nil] at hlen
    omega
  · simp only [Reader.poll, Reader.next, BUFFER_SIZE]
    omega
  · -- less than it wanted: the poll ends where the file does
    have hshort : (readBuffer file s.seek).length < BUFFER_SIZE - 1 := of_decide_eq_true hseen
    simp only [BUFFER_SIZE] at hshort
    simp only [Reader.poll, Reader.next]
    omega

/-- From there on `main` does not stop any more. -/
theorem Reader.Again.readPolls_ne_nil (h : s.Again) (hlong : ∀ file ∈ files, 2 ^ 32 ≤ file.length) :
    ∀ buffer ∈ readPolls s files, buffer ≠ [] := by
  induction files generalizing s with
  | nil => exact List.forall_mem_nil _
  | cons file files ih =>
      rw [List.forall_mem_cons] at hlong
      rw [readPolls_cons, List.forall_mem_cons]
      obtain ⟨hne, hagain⟩ := h.poll hlong.1
      exact ⟨hne, ih hagain hlong.2⟩

/-- A poll that gets to `2 ^ 32` has found a file that is as long. -/
theorem Reader.Wf.poll_again (h : s.Wf) (hle : 2 ^ 32 ≤ (s.poll file).position) :
    2 ^ 32 ≤ file.length ∧ readBuffer file s.seek ≠ [] ∧ (s.poll file).Again := by
  have hsmall := h.small
  have hpos := h.poll_position file
  have hlen := (h.readBuffer_prefix file).length_le
  rw [List.length_take, List.length_drop] at hlen
  simp only [BUFFER_SIZE] at hlen
  refine ⟨by omega, fun hnil => ?_, s.poll_told file, ?_, fun _ => hle⟩
  · rw [hnil, List.length_nil] at hpos
    omega
  · simp only [BUFFER_SIZE]
    omega

/-- **A log that grows is read to the end only if no poll gets to `2 ^ 32`.** -/
theorem readers_small (h : s.Wf) (hgrow : files.Pairwise (· <+: ·))
    (hrest : (readPolls s files).getLast? = some []) :
    ∀ x ∈ readers s files, x.position < 2 ^ 32 := by
  induction files generalizing s with
  | nil => exact List.forall_mem_nil _
  | cons file files ih =>
      rw [List.pairwise_cons] at hgrow
      rcases Nat.lt_or_ge (s.poll file).position (2 ^ 32) with hlt | hge
      · rw [readers, List.forall_mem_cons]
        refine ⟨hlt, ?_⟩
        cases files with
        | nil => exact List.forall_mem_nil _
        | cons file' files =>
            refine ih (Reader.wf_poll hlt) hgrow.2 ?_
            simpa [readPolls_cons] using hrest
      · exfalso
        obtain ⟨hlong, hne, hagain⟩ := h.poll_again hge
        have hall : ∀ file' ∈ files, 2 ^ 32 ≤ file'.length := fun file' hfile' =>
          hlong.trans (hgrow.1 file' hfile').length_le
        have hmem := List.mem_of_getLast? hrest
        rw [readPolls_cons, List.mem_cons] at hmem
        rcases hmem with hnil | hmem
        · exact hne hnil.symm
        · exact hagain.readPolls_ne_nil hall _ hmem rfl

/-- All files are beginnings of the last one. -/
theorem prefix_getLast (hgrow : files.Pairwise (· <+: ·)) (hlast : files.getLast? = some text) :
    ∀ file ∈ files, file <+: text := by
  obtain ⟨before, rfl⟩ := List.getLast?_eq_some_iff.mp hlast
  rw [List.pairwise_append] at hgrow
  intro file hfile
  rcases List.mem_append.mp hfile with hfile | hfile
  · exact hgrow.2.2 file hfile text (List.mem_singleton.mpr rfl)
  · rw [List.mem_singleton.mp hfile]

/-! ## What is left -/

/-- Position `b` is after the last digit of every record of the log. -/
def Passed (log : List Segment) (b : Nat) : Prop :=
  ∀ l₁ r l₂, log = l₁ ++ .record r :: l₂ → (bytes l₁).length + 2 + (body r).length ≤ b

theorem passed_cons {seg : Segment} {b : Nat} (h : Passed (seg :: log) b) :
    Passed log (b - seg.bytes.length) := by
  intro l₁ r l₂ heq
  have hle := h (seg :: l₁) r l₂ (by rw [heq, List.cons_append])
  have hlen : (bytes (seg :: l₁)).length = seg.bytes.length + (bytes l₁).length := by simp [bytes]
  omega

/-- Behind all records there is no brace that opens one. -/
theorem no_brace_of_passed (hlog : ∀ seg ∈ log, seg.Plain) {b : Nat} (h : Passed log b) :
    ∀ c ∈ (bytes log).drop b, c ≠ '{' := by
  induction log generalizing b with
  | nil => simp [bytes]
  | cons seg log ih =>
      rw [List.forall_mem_cons] at hlog
      have hbytes : bytes (seg :: log) = seg.bytes ++ bytes log := rfl
      rw [hbytes, List.drop_append]
      intro c hc
      rcases List.mem_append.mp hc with hc | hc
      · cases seg with
        | text x => exact (hlog.1 c (List.mem_of_mem_drop hc)).1
        | record r =>
            have hle := h [] r log rfl
            have hrec : Segment.bytes (.record r) = (['>', '>'] ++ body r) ++ ['}'] := rfl
            have hlen : (['>', '>'] ++ body r).length ≤ b := by
              rw [List.length_append]
              simpa [bytes] using hle
            rw [hrec, List.drop_append, List.drop_of_length_le hlen, List.nil_append] at hc
            rw [List.mem_singleton.mp (List.mem_of_mem_drop hc)]
            decide
      · exact ih hlog.2 (passed_cons h) c hc

theorem scans_no_brace {z : List Char} (h : ∀ c ∈ z, c ≠ '{') : scans [] z = [] := by
  have hnil : ∀ cur o, Idle cur o → scans cur [] = o.toList ++ [] := fun cur o ho => by
    rw [scans_nil, ho.scan, List.append_nil]
  have hz := scans_text h hnil idle_nil
  rwa [List.append_nil] at hz

/-- A record that is there is decoded. -/
theorem scans_ne_nil {cur : List Char} (h : ∀ y, scanRecord (cur ++ y) = some r) (y : List Char) :
    scans cur y ≠ [] := by
  induction y generalizing cur with
  | nil =>
      have hcur := h []
      rw [List.append_nil] at hcur
      simp [scans_nil, hcur]
  | cons c y ih =>
      by_cases hc : c = '>'
      · have hcur := h []
        rw [List.append_nil] at hcur
        subst hc
        simp [scans_sep, hcur]
      · rw [scans_char hc]
        exact ih fun z => by rw [List.append_assoc]; exact h _

/-- So it is with what comes after a `>`. -/
theorem scans_suffix_ne_nil {x w : List Char} (h : scans [] w ≠ []) (b : Nat) :
    b ≤ (x ++ ['>', '>']).length → scans [] ((x ++ ['>', '>']).drop b ++ w) ≠ [] := by
  intro hb
  have hsplit : x ++ ['>', '>'] = (x ++ ['>']) ++ ['>'] := by simp
  rcases Nat.lt_or_ge (x ++ ['>']).length b with hlt | hge
  · rw [List.drop_of_length_le (by simp at hlt ⊢; omega)]
    exact h
  · rw [hsplit, List.drop_append_of_le_length hge, List.append_assoc, List.singleton_append,
      scans_append_sep]
    exact List.append_ne_nil_of_right_ne_nil _ h

/-- A log that is not inside a record any more, and of which nothing more is decoded, is over. -/
theorem passed_of_scans (hlog : ∀ seg ∈ log, seg.Plain) {b : Nat} (hin : ¬Inside 0 log b)
    (hnil : scans [] ((bytes log).drop b) = []) : Passed log b := by
  rintro l₁ r l₂ rfl
  by_contra hlt
  have hb : b ≤ (bytes l₁ ++ ['>', '>']).length := by
    by_contra hgt
    rw [List.length_append, List.length_cons, List.length_singleton] at hgt
    exact hin ⟨l₁, r, l₂, rfl, by omega, by omega⟩
  have hbytes : bytes (l₁ ++ .record r :: l₂) =
      (bytes l₁ ++ ['>', '>']) ++ (body r ++ '}' :: bytes l₂) := by
    simp [bytes, Segment.bytes, printRecord]
  rw [hbytes, List.drop_append_of_le_length hb] at hnil
  refine scans_suffix_ne_nil ?_ b hb hnil
  obtain ⟨t, ht, hplain⟩ := exists_body_tail r
  have hword : ∀ c ∈ body r, c ≠ '>' := by
    rw [ht, List.forall_mem_cons]
    exact ⟨by decide, fun c hc => (hplain c hc).2.1⟩
  have hr : r.Ints := hlog (.record r) (by simp)
  rw [scans_word hword, scans_char (by decide), List.nil_append]
  refine scans_ne_nil (r := r) (fun y => ?_) _
  rw [List.append_assoc]
  exact scanRecord_body hr (stops_cons.mpr rfl)

/-! ## What the polls decode -/

/-- A buffer with no end of a string in it is decoded whole. -/
theorem decode_eq_scans {buffer : List Char} (h : ∀ c ∈ buffer, c ≠ '\x00') :
    decode buffer = scans [] buffer := by
  rw [decode, tokens, cString, List.takeWhile_eq_self_iff.mpr (by simpa using h)]
  rfl

theorem bytes_plain {log : List Segment} (hlog : ∀ seg ∈ log, seg.Plain) :
    ∀ c ∈ bytes log, c ≠ '\x00' := by
  intro c hc
  obtain ⟨seg, hseg, hc⟩ := List.mem_flatMap.mp hc
  cases seg with
  | text x => exact (hlog _ hseg c hc).2
  | record r =>
      obtain ⟨t, ht, hplain⟩ := exists_body_tail r
      rw [Segment.bytes, printRecord, ht] at hc
      simp only [List.cons_append, List.nil_append, List.mem_cons, List.mem_append,
        List.not_mem_nil, or_false] at hc
      rcases hc with rfl | rfl | rfl | hc | rfl
      · decide
      · decide
      · decide
      · exact (hplain c hc).2.2
      · decide

theorem ends_append (i : Nat) (pieces : List (List Char)) (piece : List Char) :
    ends i (pieces ++ [piece]) = ends i pieces ++ [i + (pieces ++ [piece]).flatten.length] := by
  induction pieces generalizing i with
  | nil => simp [ends]
  | cons p pieces ih =>
      simp only [List.cons_append, ends, ih, List.flatten_cons, List.length_append, Nat.add_assoc]

theorem not_inside_length : ¬Inside 0 log (bytes log).length := by
  rintro ⟨l₁, r, l₂, rfl, -, hhi⟩
  simp [bytes, Segment.bytes, printRecord] at hhi
  omega

/-- What has been read and what is left, as one more piece, make up the log with the ends put in. -/
theorem decoded_readPolls (hlog : ∀ seg ∈ log, seg.Plain) {files : List (List Char)}
    (hgrow : ∀ file ∈ files, file <+: bytes log)
    (hsmall : ∀ s ∈ readers .init files, s.position < 2 ^ 32) :
    ∃ rest, (readPolls .init files).flatten ++ rest = bytes log ∧
      ((readPolls .init files).flatMap decode ++ scans [] rest).length ≤ (records log).length ∧
      ((readPolls .init files).flatMap decode ++ scans [] rest = records log ↔
        ∀ s ∈ readers .init files, ¬Inside 0 log s.position) := by
  have hwf := Reader.wf_init
  obtain ⟨rest, hflat⟩ := flatten_readPolls_le hwf hsmall hgrow
  have hread := readers_position hwf hsmall
  have hzero : Reader.init.position = 0 := rfl
  rw [hzero, List.drop_zero] at hflat
  rw [hzero] at hread
  have hall : (readPolls .init files ++ [rest]).flatten = bytes log := by simp [hflat]
  have hdecode : (readPolls .init files).flatMap decode =
      (readPolls .init files).flatMap (scans []) := by
    refine List.flatMap_congr fun buffer hbuffer => decode_eq_scans fun c hc => ?_
    refine bytes_plain hlog c ?_
    rw [← hflat]
    exact List.mem_append_left _ (List.mem_flatten.mpr ⟨buffer, hbuffer, hc⟩)
  obtain ⟨rs, hrs, hz⟩ := scans_log (K := ends 0 (readPolls .init files ++ [rest])) hlog 0
  have hpieces : (readPolls .init files ++ [rest]).flatMap (scans []) =
      scans [] (stream (ends 0 (readPolls .init files ++ [rest])) 0
        (readPolls .init files ++ [rest]).flatten) := scans_pieces fun _ _ => Iff.rfl
  rw [hall, hz _ _ idle_nil, List.flatMap_append, List.flatMap_singleton, ← hdecode] at hpieces
  have hends : (∀ j ∈ ends 0 (readPolls .init files ++ [rest]), ¬Inside 0 log j) ↔
      ∀ s ∈ readers .init files, ¬Inside 0 log s.position := by
    rw [ends_append, hall, ← hread, Nat.zero_add]
    simp only [List.mem_append, List.mem_map, List.mem_singleton, or_imp, forall_and,
      forall_exists_index, and_imp, forall_apply_eq_imp_iff₂, forall_eq, not_inside_length,
      not_false_eq_true, and_true]
  have hrs' : (readPolls .init files).flatMap decode ++ scans [] rest = rs := hpieces
  refine ⟨rest, hflat, ?_, ?_⟩
  · rw [hrs']
    exact hrs.length_le
  · rw [hrs']
    exact hrs.eq_records_iff.trans hends

/-- A poll that ends before the last digit. -/
def shortPoll : List Segment := [.text ['h', 'i', '\n'], .record ⟨1, 5, 12⟩]

theorem shortPoll_plain : ∀ seg ∈ shortPoll, seg.Plain := by
  simp only [shortPoll, List.forall_mem_cons, Segment.Plain]
  have h1 : IsInt32 1 := by decide
  have h5 : IsInt32 5 := by decide
  have h12 : IsInt32 12 := by decide
  exact ⟨by simp, ⟨h1, h5, h12⟩, by simp⟩

/-- The log has grown when it is polled again; the third poll reads nothing. -/
def shortFiles : List (List Char) :=
  [(bytes shortPoll).take 14, bytes shortPoll, bytes shortPoll]

theorem shortFiles_grow : shortFiles.Pairwise (· <+: ·) := by
  simp [shortFiles, List.take_prefix]

end Xv6Cfs.Visual
