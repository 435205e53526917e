import LeanRows.ScanSteps

/-!
# One-pass segmentation of a document

`reference` reads the whole byte string once, with one byte of lookahead, and lists the
record spans and where a quoted field is left open. It is written after the oracle of the
scanner tests, for any dialect. The scanners agree with it from every field state.
-/

namespace LeanRows

set_option autoImplicit false

open BoundaryScanner

/-- The records of a byte string, and the end and record start of an open quoted field. -/
structure Reference where
  spans : List RecordSpan
  unterminated : Option (Nat × Nat)
deriving DecidableEq, Repr

namespace ViewportFormat

def isQuote : ViewportFormat → Byte → Bool
  | .delimited dialect, byte => byte == dialect.quote
  | .lines, _ => false

def isDelimiter : ViewportFormat → Byte → Bool
  | .delimited dialect, byte => byte == dialect.delimiter
  | .lines, _ => false

end ViewportFormat

def spanOfLen (start len : Nat) : RecordSpan := ⟨start, start + len, Nat.le_add_right _ _⟩

/-- The segmentation from inside a record that starts at `recordStart` and has `len` bytes
so far. Outside quotes a CR, LF or CRLF ends it; a quote opens a quoted field only at the
start of a field, and a doubled quote inside it stands for itself. -/
def segment (format : ViewportFormat) (recordStart len : Nat) (fieldStart quoted : Bool) :
    List Byte → Reference
  | [] =>
    ⟨if len = 0 then [] else [spanOfLen recordStart len],
      if quoted then some (recordStart + len, recordStart) else none⟩
  | byte :: rest =>
    if quoted then
      if format.isQuote byte then
        match rest with
        | [] => segment format recordStart (len + 1) false false []
        | next :: rest' =>
          if format.isQuote next then segment format recordStart (len + 2) fieldStart true rest'
          else segment format recordStart (len + 1) false false (next :: rest')
      else segment format recordStart (len + 1) fieldStart true rest
    else if byte = cr ∨ byte = lf then
      let after :=
        match rest with
        | [] => segment format (recordStart + len + 1) 0 true false []
        | next :: rest' =>
          if byte = cr ∧ next = lf then segment format (recordStart + len + 2) 0 true false rest'
          else segment format (recordStart + len + 1) 0 true false (next :: rest')
      ⟨spanOfLen recordStart len :: after.spans, after.unterminated⟩
    else if fieldStart && format.isQuote byte then
      segment format recordStart (len + 1) false true rest
    else segment format recordStart (len + 1) (format.isDelimiter byte) false rest

/-- The reference segmentation of a whole document. -/
def reference (format : ViewportFormat) (document : List Byte) : Reference :=
  segment format 0 0 true false document

/-- The records of a document. -/
def records (format : ViewportFormat) (document : List Byte) : List RecordSpan :=
  (reference format document).spans

def openQuote (format : ViewportFormat) (document : List Byte) : Option CsvDiagnostic :=
  (reference format document).unterminated.map fun place =>
    ⟨.unterminatedQuotedField, place.1, place.2⟩

-- a CR "b LF "" " CRLF LF c
example : reference (.delimited .csv) [97, cr, 34, 98, lf, 34, 34, 34, cr, lf, lf, 99] =
    ⟨[spanOfLen 0 1, spanOfLen 2 6, spanOfLen 10 0, spanOfLen 11 1], none⟩ := by decide

/-! ## The scanners agree with it -/

/-- A field state stands for the flags of the one-pass reader. Behind a closing quote the
reader has already looked at the byte ahead and found no second quote. -/
def Agrees : (format : ViewportFormat) → format.rules.State → Bool → Bool → List Byte → Prop
  | .lines, _, _, quoted, _ => quoted = false
  | .delimited dialect, state, fieldStart, quoted, ahead =>
    match state with
    | CsvState.fieldStart => fieldStart = true ∧ quoted = false
    | CsvState.unquoted => fieldStart = false ∧ quoted = false
    | CsvState.quoted => fieldStart = false ∧ quoted = true
    | CsvState.quoteClosed =>
      fieldStart = false ∧ quoted = false ∧ ahead.head? ≠ some dialect.quote

section Agrees
variable {format : ViewportFormat} {state : format.rules.State} {fieldStart quoted : Bool}
  {byte : Byte} {ahead : List Byte}

theorem agrees_fieldStart (ahead : List Byte) :
    Agrees format format.rules.fieldStart true false ahead := by
  cases format with
  | lines => rfl
  | delimited dialect => exact ⟨rfl, rfl⟩

theorem Agrees.inQuotes (h : Agrees format state fieldStart quoted ahead) :
    format.rules.inQuotes state = quoted := by
  cases format with
  | lines => exact (Eq.symm h)
  | delimited dialect =>
    revert h
    change CsvState at state
    change _ → (state == CsvState.quoted) = quoted
    cases state <;> simp [Agrees] <;> intros <;> simp_all

theorem Agrees.next_open (h : Agrees format state fieldStart false (byte :: ahead))
    (hquote : (fieldStart && format.isQuote byte) = true) :
    Agrees format (format.rules.next state byte) false true ahead := by
  cases format with
  | lines => simp [ViewportFormat.isQuote] at hquote
  | delimited dialect =>
    change CsvState at state
    simp only [ViewportFormat.isQuote, Bool.and_eq_true, beq_iff_eq] at hquote
    cases state <;> simp_all [Agrees, ViewportFormat.rules, csvRules, CsvState.next]

theorem Agrees.next_plain (h : Agrees format state fieldStart false (byte :: ahead))
    (hquote : (fieldStart && format.isQuote byte) = false) :
    Agrees format (format.rules.next state byte) (format.isDelimiter byte) false ahead := by
  cases format with
  | lines => exact rfl
  | delimited dialect =>
    change CsvState at state
    have hne := dialect.distinct
    simp only [ViewportFormat.isQuote, ViewportFormat.isDelimiter] at hquote ⊢
    cases state <;>
      simp only [Agrees, ViewportFormat.rules, csvRules, CsvState.next] at h ⊢ <;>
      by_cases hd : byte = dialect.delimiter <;> simp_all

theorem Agrees.next_inside (h : Agrees format state fieldStart true (byte :: ahead))
    (hquote : format.isQuote byte = false) :
    Agrees format (format.rules.next state byte) fieldStart true ahead := by
  cases format with
  | lines => cases h
  | delimited dialect =>
    change CsvState at state
    simp only [ViewportFormat.isQuote] at hquote
    cases state <;> simp_all [Agrees, ViewportFormat.rules, csvRules, CsvState.next]

theorem Agrees.next_close (h : Agrees format state fieldStart true (byte :: ahead))
    (hquote : format.isQuote byte = true)
    (hahead : ∀ next ∈ ahead.head?, format.isQuote next = false) :
    Agrees format (format.rules.next state byte) false false ahead := by
  cases format with
  | lines => cases h
  | delimited dialect =>
    change CsvState at state
    simp only [ViewportFormat.isQuote] at hquote hahead
    cases state <;> simp_all [Agrees, ViewportFormat.rules, csvRules, CsvState.next]
    intro hhead
    simpa using hahead _ hhead

theorem Agrees.next_doubled {next : Byte}
    (h : Agrees format state fieldStart true (byte :: next :: ahead))
    (hquote : format.isQuote byte = true) (hnext : format.isQuote next = true) :
    Agrees format (format.rules.next (format.rules.next state byte) next) fieldStart true
      ahead := by
  cases format with
  | lines => cases h
  | delimited dialect =>
    change CsvState at state
    simp only [ViewportFormat.isQuote] at hquote hnext
    cases state <;> simp_all [Agrees, ViewportFormat.rules, csvRules, CsvState.next]

theorem not_newline_of_isQuote (h : format.isQuote byte = true) : byte ≠ cr ∧ byte ≠ lf := by
  cases format with
  | lines => cases h
  | delimited dialect =>
    obtain rfl : byte = dialect.quote := by simpa [ViewportFormat.isQuote] using h
    exact dialect.quote_not_newline

end Agrees

namespace BoundaryScanner

variable {rules : BoundaryRules}

theorem scans_byte {s : BoundaryScanner rules} (hp : s.pendingCrEnd = none) {byte : Byte}
    (h : rules.inQuotes s.state = true ∨ byte ≠ cr ∧ byte ≠ lf) (rest : List Byte) :
    Scans s (byte :: rest) [] (s.withState (rules.next s.state byte)).advanceOffset rest := by
  have htake : s.takeByte byte =
      (none, (s.withState (rules.next s.state byte)).advanceOffset) := by
    rw [takeByte_none hp]
    rcases h with h | ⟨hcr, hlf⟩ <;> simp_all
  simpa [htake] using Scans.take (flushCr_none hp byte) (.refl (s.takeByte byte).2 rest)

theorem scans_lf {s : BoundaryScanner rules} (hp : s.pendingCrEnd = none)
    (h : rules.inQuotes s.state = false) (rest : List Byte) :
    Scans s (lf :: rest) [⟨s.recordStart, s.offset, s.recordStart_le_offset⟩]
      (atOffset rules (s.offset + 1)) rest := by
  have htake : s.takeByte lf = (some ⟨s.recordStart, s.offset, s.recordStart_le_offset⟩,
      atOffset rules (s.offset + 1)) := by
    rw [takeByte_none hp]
    simp [h, lf, cr]
  simpa [htake] using Scans.take (flushCr_none hp lf) (.refl (s.takeByte lf).2 rest)

theorem scans_cr {s : BoundaryScanner rules} (hp : s.pendingCrEnd = none)
    (h : rules.inQuotes s.state = false) (rest : List Byte) :
    Scans s (cr :: rest) [] s.holdCr.advanceOffset rest := by
  have htake : s.takeByte cr = (none, s.holdCr.advanceOffset) := by
    rw [takeByte_none hp]
    simp [h]
  simpa [htake] using Scans.take (flushCr_none hp cr) (.refl (s.takeByte cr).2 rest)

theorem scans_crlf {s : BoundaryScanner rules} (hp : s.pendingCrEnd = none)
    (h : rules.inQuotes s.state = false) (rest : List Byte) :
    Scans s (cr :: lf :: rest) [⟨s.recordStart, s.offset, s.recordStart_le_offset⟩]
      (atOffset rules (s.offset + 2)) rest := by
  have hpending : s.holdCr.advanceOffset.pendingCrEnd = some s.offset := rfl
  have htake := takeByte_pending hpending lf
  have hlf := Scans.take (flushCr_lf s.holdCr.advanceOffset)
    (.refl (s.holdCr.advanceOffset.takeByte lf).2 rest)
  rw [htake] at hlf
  exact (scans_cr hp h _).trans hlf

theorem scans_cr_other {s : BoundaryScanner rules} (hp : s.pendingCrEnd = none)
    (h : rules.inQuotes s.state = false) {next : Byte} (hnext : next ≠ lf)
    (rest : List Byte) :
    Scans s (cr :: next :: rest) [⟨s.recordStart, s.offset, s.recordStart_le_offset⟩]
      (atOffset rules (s.offset + 1)) (next :: rest) := by
  have hpending : s.holdCr.advanceOffset.pendingCrEnd = some s.offset := rfl
  have hflush := flushCr_pending hpending hnext
  exact (scans_cr hp h _).trans (.flush hflush (.refl _ _))

/-- A scanner between records that reads a CR at the very end keeps the record pending. -/
theorem remaining_cr_last {s : BoundaryScanner rules} (hp : s.pendingCrEnd = none)
    (h : rules.inQuotes s.state = false) :
    (stream rules).remaining s [cr] =
        [⟨s.recordStart, s.offset, s.recordStart_le_offset⟩] ∧
      ((stream rules).after s [cr]).diagnostic = none := by
  have hscan := scans_cr hp h []
  rw [hscan.remaining_eq, hscan.after_eq]
  constructor
  · simp [stream, lastRecord, holdCr, advanceOffset]
  · simp [diagnostic, h]

end BoundaryScanner

/-- What is left to come from a scanner is the segmentation from where it stands. -/
def Follows (format : ViewportFormat) (s : FormatScanner format) (bytes : List Byte)
    (r : Reference) : Prop :=
  (stream format.rules).remaining s bytes = r.spans ∧
    ((stream format.rules).after s bytes).diagnostic =
      r.unterminated.map fun place => ⟨.unterminatedQuotedField, place.1, place.2⟩

section Follows
variable {format : ViewportFormat} {s s' : FormatScanner format} {bytes rest : List Byte}
  {spans : List RecordSpan} {r : Reference}

theorem Follows.of_scans (h : Scans s bytes spans s' rest) (hr : Follows format s' rest r) :
    Follows format s bytes ⟨spans ++ r.spans, r.unterminated⟩ :=
  ⟨h.remaining_eq.trans (by rw [hr.1]), by rw [h.after_eq]; exact hr.2⟩

theorem follows_nil {recordStart len : Nat} {fieldStart quoted : Bool}
    (hp : s.pendingCrEnd = none) (hstart : s.recordStart = recordStart)
    (hoffset : s.offset = recordStart + len)
    (hstate : Agrees format s.state fieldStart quoted []) :
    Follows format s [] (segment format recordStart len fieldStart quoted []) := by
  subst hstart
  constructor
  · have hlast : s.lastRecord =
        if len = 0 then none else some (spanOfLen s.recordStart len) := by
      unfold lastRecord
      split
      · simp_all
      · by_cases hlen : len = 0
        · simp [hlen, hoffset]
        · have hlt : 0 < len := by omega
          simp [hlen, hlt, spanOfLen, hoffset]
    simp only [Mealy.remaining_nil, stream, hlast, segment]
    split <;> rfl
  · simp only [Mealy.after_nil, diagnostic, hstate.inQuotes, segment]
    split <;> simp [hoffset]

end Follows

/-- From every state between the bytes of a CRLF, the scanner goes on as the one-pass
reader does. The induction follows the reader, which may look two bytes ahead. -/
theorem follows_segment {format : ViewportFormat} (n : Nat) : ∀ (bytes : List Byte),
    bytes.length = n → ∀ (s : FormatScanner format) (recordStart len : Nat)
      (fieldStart quoted : Bool), s.pendingCrEnd = none → s.recordStart = recordStart →
      s.offset = recordStart + len → Agrees format s.state fieldStart quoted bytes →
      Follows format s bytes (segment format recordStart len fieldStart quoted bytes) := by
  induction n using Nat.strong_induction_on with
  | _ n ih =>
    intro bytes hn s recordStart len fieldStart quoted hp hstart hoffset hstate
    cases bytes with
    | nil => exact follows_nil hp hstart hoffset hstate
    | cons byte rest =>
      have hrest : rest.length < n := by simp at hn; omega
      -- the scanner behind one byte that neither ends nor could end the record
      have hplain : ∀ {fieldStart' quoted'},
          (format.rules.inQuotes s.state = true ∨ byte ≠ cr ∧ byte ≠ lf) →
          Agrees format (format.rules.next s.state byte) fieldStart' quoted' rest →
          Follows format s (byte :: rest)
            (segment format recordStart (len + 1) fieldStart' quoted' rest) := by
        intro fieldStart' quoted' hbyte hnext
        have h := ih _ hrest rest rfl (s.withState (format.rules.next s.state byte)).advanceOffset
          recordStart (len + 1) fieldStart' quoted' hp hstart (by simp [hoffset]; omega) hnext
        exact Follows.of_scans (scans_byte hp hbyte rest) h
      -- the scanner at the start of the next record
      have hfresh : ∀ (ahead : List Byte), ahead.length < n → ∀ o,
          Follows format (atOffset format.rules o) ahead (segment format o 0 true false ahead) :=
        fun ahead hahead o => ih _ hahead ahead rfl _ o 0 true false rfl rfl rfl
          (agrees_fieldStart ahead)
      have hspan : spanOfLen recordStart len =
          ⟨s.recordStart, s.offset, s.recordStart_le_offset⟩ := by
        ext <;> simp [spanOfLen, hstart, hoffset]
      have hin := hstate.inQuotes
      unfold segment
      cases quoted with
      | true =>
        simp only [if_true]
        by_cases hq : format.isQuote byte
        · rw [if_pos hq]
          cases rest with
          | nil => exact hplain (.inl hin) (hstate.next_close hq (by simp))
          | cons next rest' =>
            by_cases hq' : format.isQuote next
            · simp only [hq', if_true]
              let t := (s.withState (format.rules.next s.state byte)).advanceOffset
              have ht : t.pendingCrEnd = none := hp
              have h := ih rest'.length (by simp at hrest; omega) rest' rfl
                (t.withState (format.rules.next t.state next)).advanceOffset
                recordStart (len + 2) fieldStart true hp hstart (by simp [t, hoffset]; omega)
                (hstate.next_doubled hq hq')
              exact Follows.of_scans ((scans_byte hp (.inl hin) _).trans
                (scans_byte ht (.inr (not_newline_of_isQuote hq')) rest')) h
            · simp only [hq', Bool.false_eq_true, if_false]
              exact hplain (.inl hin) (hstate.next_close hq (by simpa using hq'))
        · rw [if_neg hq]
          exact hplain (.inl hin) (hstate.next_inside (by simpa using hq))
      | false =>
        simp only [Bool.false_eq_true, if_false]
        by_cases hnl : byte = cr ∨ byte = lf
        · rw [if_pos hnl, hspan]
          rcases hnl with rfl | rfl
          · cases rest with
            | nil =>
              have h := remaining_cr_last hp hin
              exact ⟨by simpa [segment] using h.1, by simpa [segment] using h.2⟩
            | cons next rest' =>
              have hrest' : rest'.length < n := by simp at hrest; omega
              by_cases hnext : next = lf
              · subst hnext
                rw [← hoffset]
                simpa using Follows.of_scans (scans_crlf hp hin rest') (hfresh rest' hrest' _)
              · rw [← hoffset]
                simpa [hnext] using
                  Follows.of_scans (scans_cr_other hp hin hnext rest') (hfresh _ hrest _)
          · have h := Follows.of_scans (scans_lf hp hin rest) (hfresh rest hrest _)
            rw [← hoffset]
            cases rest with
            | nil => simpa using h
            | cons next rest' => simpa [lf, cr] using h
        · rw [if_neg hnl]
          have hbyte : byte ≠ cr ∧ byte ≠ lf := not_or.mp hnl
          by_cases hq : (fieldStart && format.isQuote byte) = true
          · rw [if_pos hq]
            exact hplain (.inr hbyte) (hstate.next_open hq)
          · rw [if_neg hq]
            exact hplain (.inr hbyte) (hstate.next_plain (by simpa using hq))

/-- A fresh scanner over the whole document delivers its records. -/
theorem remaining_eq_records (format : ViewportFormat) (document : List Byte) :
    (stream format.rules).remaining (atOffset format.rules 0) document =
      records format document :=
  (follows_segment _ document rfl (atOffset format.rules 0) 0 0 true false rfl rfl rfl
    (agrees_fieldStart document)).1

theorem diagnostic_eq_openQuote (format : ViewportFormat) (document : List Byte) :
    ((stream format.rules).after (atOffset format.rules 0) document).diagnostic =
      openQuote format document :=
  (follows_segment _ document rfl (atOffset format.rules 0) 0 0 true false rfl rfl rfl
    (agrees_fieldStart document)).2

end LeanRows
