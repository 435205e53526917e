import LeanRows.Projection
import LeanRows.ScanRuns

/-!
# Decoding undoes encoding

A table whose fields are all quoted, with inner quotes doubled, comes back from the
boundary scanner and the field projection, whatever bytes the fields hold and however each
row is ended.
-/

namespace LeanRows

set_option autoImplicit false

open BoundaryScanner

inductive RowEnd where
  | lf
  | cr
  | crlf
deriving DecidableEq, Repr

def RowEnd.bytes : RowEnd → List Byte
  | .lf => [LeanRows.lf]
  | .cr => [LeanRows.cr]
  | .crlf => [LeanRows.cr, LeanRows.lf]

section Encode
variable (dialect : CsvDialect)

def doubleQuotes (field : List Byte) : List Byte :=
  field.flatMap fun byte => if byte = dialect.quote then [byte, byte] else [byte]

def encodeField (field : List Byte) : List Byte :=
  dialect.quote :: (doubleQuotes dialect field ++ [dialect.quote])

def encodeRow : List (List Byte) → List Byte
  | [] => []
  | [field] => encodeField dialect field
  | field :: next :: fields =>
    encodeField dialect field ++ dialect.delimiter :: encodeRow (next :: fields)

def encodeTable : List (List (List Byte) × RowEnd) → List Byte
  | [] => []
  | (row, rowEnd) :: rows => encodeRow dialect row ++ (rowEnd.bytes ++ encodeTable rows)

end Encode

/-- The boundary scanner, fed and stopped as `calls` say, and the projection of each record
it delivers. -/
def decodeTable (dialect : CsvDialect) (limits : FieldProjectionLimits) (document : List Byte)
    (calls : List FeedCall) (last : RecordSpan → EmitControl) :
    Except ScanError (List (Except FieldProjectionError (List (List Byte)))) := do
  let scanned ← ScanRun.scanAll (.delimited dialect) document calls last
  return (numbered scanned.1).map fun record =>
    (projectDelimitedRecord ⟨record.1, record.2, record.2.bytesOf document, false⟩ dialect
      limits).map fun projection => projection.fields.map FieldProjection.decodedBytes

/-! ## The fields of an encoded row -/

section Fields
variable {dialect : CsvDialect}

theorem fieldsFrom_doubleQuotes (field rest : List Byte) :
    fieldsFrom dialect .quoted (doubleQuotes dialect field ++ rest) =
      (field ++ (fieldsFrom dialect .quoted rest).1, (fieldsFrom dialect .quoted rest).2) := by
  induction field with
  | nil => rfl
  | cons byte field ih =>
    rw [doubleQuotes, List.flatMap_cons, ← doubleQuotes]
    by_cases hquote : byte = dialect.quote
    · subst hquote
      have hopen : FieldState.quoted.read dialect dialect.quote = .quoting .quoteClosed := by
        simp [FieldState.read]
      have hclose : FieldState.quoteClosed.read dialect dialect.quote = .value .quoted := by
        simp [FieldState.read]
      rw [if_pos rfl, List.append_assoc, List.cons_append, List.cons_append, List.nil_append,
        fieldsFrom_quoting _ hopen, fieldsFrom_value _ hclose, ih, List.cons_append]
    · have hread : FieldState.quoted.read dialect byte = .value .quoted := by
        simp [FieldState.read, hquote]
      rw [if_neg hquote, List.cons_append, List.nil_append, List.cons_append,
        fieldsFrom_value _ hread, ih, List.cons_append]

/-- A quoted field in front of what does not start with another quote. -/
theorem fieldsFrom_encodeField (field rest : List Byte) :
    fieldsFrom dialect .start (encodeField dialect field ++ rest) =
      (field ++ (fieldsFrom dialect .quoteClosed rest).1,
        (fieldsFrom dialect .quoteClosed rest).2) := by
  have hopen : FieldState.start.read dialect dialect.quote = .quoting .quoted := by
    simp [FieldState.read]
  have hclose : FieldState.quoted.read dialect dialect.quote = .quoting .quoteClosed := by
    simp [FieldState.read]
  rw [encodeField, List.cons_append, fieldsFrom_quoting _ hopen, List.append_assoc,
    fieldsFrom_doubleQuotes, List.cons_append, List.nil_append, fieldsFrom_quoting _ hclose]

theorem decodeFields_encodeRow {row : List (List Byte)} (hrow : row ≠ []) :
    decodeFields dialect (encodeRow dialect row) = row := by
  induction row with
  | nil => exact absurd rfl hrow
  | cons field fields ih =>
    cases fields with
    | nil =>
      rw [decodeFields, encodeRow, ← List.append_nil (encodeField dialect field),
        fieldsFrom_encodeField]
      simp [fieldsFrom]
    | cons next fields =>
      have hdelim : FieldState.quoteClosed.read dialect dialect.delimiter = .ends := by
        simp [FieldState.read, dialect.distinct]
      have hrest := ih (by simp)
      rw [decodeFields] at hrest ⊢
      rw [encodeRow, fieldsFrom_encodeField, fieldsFrom_ends _ hdelim, List.append_nil, hrest]

end Fields

/-! ## The records of an encoded table -/

section Scan
variable {dialect : CsvDialect} {s : CsvBoundaryScanner dialect}

/-- A scanner in the middle of a record, `len` bytes behind its start. -/
structure InRecord (s : CsvBoundaryScanner dialect) (start len : Nat) (state : CsvState) :
    Prop where
  pending : s.pendingCrEnd = none
  recordStart : s.recordStart = start
  offset : s.offset = start + len
  state : s.state = state

theorem InRecord.cast {start len len' : Nat} {state state' : CsvState}
    (h : InRecord s start len state) (hlen : len = len') (hstate : state = state') :
    InRecord s start len' state' := by
  subst hlen hstate
  exact h

/-- A byte that is not a line break outside quotes moves the scanner on. -/
theorem InRecord.byte {start len : Nat} {state : CsvState} (h : InRecord s start len state)
    (byte : Byte) (hbyte : state = .quoted ∨ byte ≠ cr ∧ byte ≠ lf) (rest : List Byte) :
    ∃ s', Scans s (byte :: rest) [] s' rest ∧
      InRecord s' start (len + 1) (state.next dialect byte) := by
  have hquotes : (csvRules dialect).inQuotes s.state = true ∨ byte ≠ cr ∧ byte ≠ lf := by
    rw [h.state]
    apply hbyte.imp_left
    rintro rfl
    rfl
  refine ⟨_, scans_byte h.pending hquotes rest, h.pending, h.recordStart, ?_, ?_⟩
  · rw [advanceOffset_offset, withState_offset, h.offset]
    omega
  · rw [advanceOffset_state, withState_state, h.state]
    rfl

theorem InRecord.doubled {start len : Nat} (h : InRecord s start len .quoted)
    (field rest : List Byte) :
    ∃ s', Scans s (doubleQuotes dialect field ++ rest) [] s' rest ∧
      InRecord s' start (len + (doubleQuotes dialect field).length) .quoted := by
  induction field generalizing s len with
  | nil => exact ⟨s, .refl _ _, h⟩
  | cons byte field ih =>
    rw [doubleQuotes, List.flatMap_cons, ← doubleQuotes]
    by_cases hquote : byte = dialect.quote
    · subst hquote
      rw [if_pos rfl]
      obtain ⟨s₁, hscan₁, h₁⟩ := h.byte dialect.quote (.inl rfl)
        (dialect.quote :: (doubleQuotes dialect field ++ rest))
      obtain ⟨s₂, hscan₂, h₂⟩ := h₁.byte dialect.quote (.inr dialect.quote_not_newline)
        (doubleQuotes dialect field ++ rest)
      obtain ⟨s₃, hscan₃, h₃⟩ := ih (h₂.cast rfl (by simp [CsvState.next]))
      refine ⟨s₃, (hscan₁.trans hscan₂).trans hscan₃, h₃.cast ?_ rfl⟩
      simp only [List.length_append, List.length_cons, List.length_nil]
      omega
    · rw [if_neg hquote]
      obtain ⟨s₁, hscan₁, h₁⟩ := h.byte byte (.inl rfl) (doubleQuotes dialect field ++ rest)
      obtain ⟨s₂, hscan₂, h₂⟩ := ih (h₁.cast rfl (by simp [CsvState.next, hquote]))
      refine ⟨s₂, hscan₁.trans hscan₂, h₂.cast ?_ rfl⟩
      simp only [List.length_append, List.length_cons, List.length_nil]
      omega

theorem InRecord.encodedField {start len : Nat} (h : InRecord s start len .fieldStart)
    (field rest : List Byte) :
    ∃ s', Scans s (encodeField dialect field ++ rest) [] s' rest ∧
      InRecord s' start (len + (encodeField dialect field).length) .quoteClosed := by
  rw [encodeField, List.cons_append, List.append_assoc]
  obtain ⟨s₁, hscan₁, h₁⟩ := h.byte dialect.quote (.inr dialect.quote_not_newline)
    (doubleQuotes dialect field ++ ([dialect.quote] ++ rest))
  obtain ⟨s₂, hscan₂, h₂⟩ := (h₁.cast rfl (by simp [CsvState.next])).doubled field
    ([dialect.quote] ++ rest)
  obtain ⟨s₃, hscan₃, h₃⟩ := h₂.byte dialect.quote (.inl rfl) rest
  refine ⟨s₃, (hscan₁.trans hscan₂).trans hscan₃, h₃.cast ?_ (by simp [CsvState.next])⟩
  simp only [List.length_append, List.length_cons, List.length_nil]
  omega

theorem InRecord.encodedRow {start len : Nat} (h : InRecord s start len .fieldStart)
    {row : List (List Byte)} (hrow : row ≠ []) (rest : List Byte) :
    ∃ s', Scans s (encodeRow dialect row ++ rest) [] s' rest ∧
      InRecord s' start (len + (encodeRow dialect row).length) .quoteClosed := by
  induction row generalizing s len with
  | nil => exact absurd rfl hrow
  | cons field fields ih =>
    cases fields with
    | nil => exact h.encodedField field rest
    | cons next fields =>
      rw [encodeRow, List.append_assoc, List.cons_append]
      obtain ⟨s₁, hscan₁, h₁⟩ := h.encodedField field
        (dialect.delimiter :: (encodeRow dialect (next :: fields) ++ rest))
      obtain ⟨s₂, hscan₂, h₂⟩ := h₁.byte dialect.delimiter (.inr dialect.delimiter_not_newline)
        (encodeRow dialect (next :: fields) ++ rest)
      obtain ⟨s₃, hscan₃, h₃⟩ := ih
        (h₂.cast rfl (by simp [CsvState.next, dialect.distinct])) (by simp)
      refine ⟨s₃, (hscan₁.trans hscan₂).trans hscan₃, h₃.cast ?_ rfl⟩
      simp only [List.length_append, List.length_cons]
      omega

/-- An encoded table starts with a quote, never with the LF of a CRLF. -/
theorem encodeTable_head_ne_lf (rows : List (List (List Byte) × RowEnd))
    (hrows : ∀ row ∈ rows, row.1 ≠ []) :
    ∀ next rest, encodeTable dialect rows = next :: rest → next ≠ lf := by
  intro next rest h
  cases rows with
  | nil => cases h
  | cons entry rows =>
    obtain ⟨row, rowEnd⟩ := entry
    cases row with
    | nil => exact absurd rfl (hrows _ List.mem_cons_self)
    | cons field fields =>
      have hquote : next = dialect.quote := by
        cases fields <;> simp [encodeTable, encodeRow, encodeField] at h <;> exact h.1.symm
      rw [hquote]
      exact dialect.quote_not_newline.2

/-- The spans of the rows of an encoded table that starts at `o`. -/
def tableSpans (dialect : CsvDialect) : Nat → List (List (List Byte) × RowEnd) → List RecordSpan
  | _, [] => []
  | o, (row, rowEnd) :: rows =>
    spanOfLen o (encodeRow dialect row).length ::
      tableSpans dialect (o + (encodeRow dialect row).length + rowEnd.bytes.length) rows

/-- The scanner delivers these records from here on, and leaves no field open. -/
def Delivered (s : CsvBoundaryScanner dialect) (bytes : List Byte) (spans : List RecordSpan) :
    Prop :=
  (stream (csvRules dialect)).remaining s bytes = spans ∧
    ((stream (csvRules dialect)).after s bytes).diagnostic = none

theorem Delivered.of_scans {s' : CsvBoundaryScanner dialect} {bytes rest : List Byte}
    {spans more : List RecordSpan} (h : Scans s bytes spans s' rest)
    (hrest : Delivered s' rest more) : Delivered s bytes (spans ++ more) :=
  ⟨by rw [h.remaining_eq, hrest.1], by rw [h.after_eq, hrest.2]⟩

/-- The end of a row completes its record. -/
theorem delivered_rowEnd {start len : Nat} (h : InRecord s start len .quoteClosed)
    (rowEnd : RowEnd) {rest : List Byte} {more : List RecordSpan}
    (hhead : ∀ next rest', rest = next :: rest' → next ≠ lf)
    (hrest : Delivered (atOffset (csvRules dialect) (start + len + rowEnd.bytes.length)) rest
      more) :
    Delivered s (rowEnd.bytes ++ rest) (spanOfLen start len :: more) := by
  have hopen : (csvRules dialect).inQuotes s.state = false := by
    rw [h.state]
    rfl
  have hspan : (⟨s.recordStart, s.offset, s.recordStart_le_offset⟩ : RecordSpan) =
      spanOfLen start len := RecordSpan.ext h.recordStart h.offset
  cases rowEnd with
  | lf =>
    have hscan := scans_lf h.pending hopen rest
    rw [hspan, h.offset] at hscan
    exact .of_scans hscan hrest
  | crlf =>
    have hscan := scans_crlf h.pending hopen rest
    rw [hspan, h.offset] at hscan
    exact .of_scans hscan hrest
  | cr =>
    cases rest with
    | nil =>
      -- the record waits for an LF that never comes, and `finish` delivers it
      obtain ⟨hremaining, hafter⟩ := remaining_cr_last h.pending hopen
      rw [hspan] at hremaining
      have hmore : more = [] := by
        rw [← hrest.1]
        exact recordsFrom_eq_nil.mpr rfl
      rw [hmore]
      exact ⟨hremaining, hafter⟩
    | cons next rest =>
      have hscan := scans_cr_other h.pending hopen (hhead next rest rfl) rest
      rw [hspan, h.offset] at hscan
      exact .of_scans hscan hrest

variable (dialect) in
theorem delivered_encodeTable (rows : List (List (List Byte) × RowEnd))
    (hrows : ∀ row ∈ rows, row.1 ≠ []) (o : Nat) :
    Delivered (atOffset (csvRules dialect) o) (encodeTable dialect rows)
      (tableSpans dialect o rows) := by
  induction rows generalizing o with
  | nil => exact ⟨recordsFrom_eq_nil.mpr rfl, rfl⟩
  | cons entry rows ih =>
    obtain ⟨row, rowEnd⟩ := entry
    have hrows' : ∀ row ∈ rows, row.1 ≠ [] := fun row h => hrows row (List.mem_cons_of_mem _ h)
    have hfresh : InRecord (atOffset (csvRules dialect) o) o 0 .fieldStart := ⟨rfl, rfl, rfl, rfl⟩
    obtain ⟨s', hscan, hrow⟩ := hfresh.encodedRow (hrows _ List.mem_cons_self)
      (rowEnd.bytes ++ encodeTable dialect rows)
    rw [Nat.zero_add] at hrow
    exact .of_scans hscan (delivered_rowEnd hrow rowEnd
      (encodeTable_head_ne_lf rows hrows') (ih hrows' _))

/-- Each span covers the bytes of its row. -/
theorem tableSpans_bytesOf (rows : List (List (List Byte) × RowEnd)) {o : Nat}
    {document : List Byte} (h : document.drop o = encodeTable dialect rows) :
    (tableSpans dialect o rows).map (fun span => span.bytesOf document) =
      rows.map fun row => encodeRow dialect row.1 := by
  induction rows generalizing o with
  | nil => rfl
  | cons entry rows ih =>
    obtain ⟨row, rowEnd⟩ := entry
    rw [encodeTable] at h
    rw [tableSpans, List.map_cons, List.map_cons]
    congr 1
    · rw [RecordSpan.bytesOf, RecordSpan.len, spanOfLen, h]
      simp
    · apply ih
      rw [Nat.add_assoc, ← List.drop_drop, h, ← List.append_assoc, ← List.length_append,
        List.drop_left]

end Scan

/-! ## The round trip -/

/-- Every span of a scan that ended well is projected without loss. -/
theorem project_spans {dialect : CsvDialect} {limits : FieldProjectionLimits}
    {document : List Byte} (hsize : document.length < u64Bound)
    (hlimits : limits.Unlimited document.length) {spans : List RecordSpan}
    (hspans : ∀ span ∈ spans, span.stop ≤ document.length) :
    (numbered spans).map (fun record =>
      (projectDelimitedRecord ⟨record.1, record.2, record.2.bytesOf document, false⟩ dialect
        limits).map fun projection => projection.fields.map FieldProjection.decodedBytes) =
      spans.map fun span => .ok (decodeFields dialect (span.bytesOf document)) := by
  have hnumbered : spans = (numbered spans).map Prod.snd := by
    simp [numbered, Function.comp_def]
  conv_rhs => rw [hnumbered, List.map_map]
  apply List.map_congr_left
  rintro ⟨row, span⟩ hmem
  have hstop := hspans span (mem_of_mem_numbered hmem)
  have hlen := RecordSpan.bytesOf_length hstop
  have hle : span.len ≤ document.length := by
    rw [RecordSpan.len]
    omega
  have hroom : limits.Unlimited (span.bytesOf document).length := by
    rw [hlen]
    exact ⟨by have := hlimits.fields; omega, by have := hlimits.perField; omega,
      by have := hlimits.total; omega⟩
  obtain ⟨projection, hproject, hfields, -⟩ :=
    project_decodeFields row dialect hroom hlen (by omega)
  simp only [hproject, Except.map, hfields, Function.comp_apply]

/-- Decoding undoes encoding, however the scanner is fed and stopped. -/
theorem decodeTable_encodeTable (dialect : CsvDialect) (rows : List (List (List Byte) × RowEnd))
    (hrows : ∀ row ∈ rows, row.1 ≠ []) {limits : FieldProjectionLimits}
    (hlimits : limits.Unlimited (encodeTable dialect rows).length)
    (hsize : (encodeTable dialect rows).length < u64Bound)
    (calls : List FeedCall) (last : RecordSpan → EmitControl) :
    decodeTable dialect limits (encodeTable dialect rows) calls last =
      .ok (rows.map fun row => .ok row.1) := by
  obtain ⟨hdelivered, hquote⟩ := delivered_encodeTable dialect rows hrows 0
  have hspans : records (.delimited dialect) (encodeTable dialect rows) =
      tableSpans dialect 0 rows := (remaining_eq_records _ _).symm.trans hdelivered
  have hscan : ScanRun.scanAll (.delimited dialect) (encodeTable dialect rows) calls last =
      .ok (tableSpans dialect 0 rows, none) := by
    rw [ScanRun.scanAll_of_lt _ hsize, hspans, ← diagnostic_eq_openQuote]
    exact congrArg (fun quote => Except.ok (tableSpans dialect 0 rows, quote)) hquote
  have hstop : ∀ span ∈ tableSpans dialect 0 rows,
      span.stop ≤ (encodeTable dialect rows).length := by
    intro span hspan
    rw [← hspans] at hspan
    exact record_stop_le hspan
  have hdecoded : (tableSpans dialect 0 rows).map (fun span =>
      (.ok (decodeFields dialect (span.bytesOf (encodeTable dialect rows))) :
        Except FieldProjectionError (List (List Byte)))) = rows.map fun row => .ok row.1 := by
    have hdrop : (encodeTable dialect rows).drop 0 = encodeTable dialect rows := rfl
    have hbytes := congrArg (List.map fun bytes =>
      (.ok (decodeFields dialect bytes) : Except FieldProjectionError (List (List Byte))))
      (tableSpans_bytesOf rows hdrop)
    rw [List.map_map, List.map_map] at hbytes
    refine hbytes.trans (List.map_congr_left fun row hmem => ?_)
    simp only [Function.comp_apply]
    rw [decodeFields_encodeRow (hrows row hmem)]
  simp only [decodeTable, hscan, bind, Except.bind, pure, Except.pure]
  rw [project_spans hsize hlimits hstop, hdecoded]

theorem decodeTable_encodeTable_quotes :
    decodeTable .csv ⟨100, 100, 100, by decide⟩
      (encodeTable .csv [([[34, 13, 10], []], .cr), ([[44]], .crlf)]) [] (fun _ => .continue) =
      .ok [.ok [[34, 13, 10], []], .ok [[44]]] :=
  decodeTable_encodeTable .csv [([[34, 13, 10], []], .cr), ([[44]], .crlf)] (by decide)
    ⟨by decide, by decide, by decide⟩ (by decide) [] fun _ => .continue

end LeanRows
