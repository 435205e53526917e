import LeanRows.Viewport

/-!
# Projecting the fields of a record

`projectDelimitedRecord` splits the visible prefix of a record into bounded, unescaped
fields. Without binding limits the decoded bytes are those of `decodeFields`, which reads
the record once and keeps nothing but the fields.
-/

namespace LeanRows

set_option autoImplicit false

structure FieldProjectionLimits where
  fields : Nat
  decodedBytesPerField : Nat
  totalDecodedBytes : Nat
  fields_pos : 0 < fields

inductive FieldProjectionError where
  | zeroFieldLimit
  | offsetOverflow
  | visiblePrefixOutsideRecord
deriving DecidableEq, Repr

def FieldProjectionLimits.new (maxFields maxDecodedBytesPerField maxTotalDecodedBytes : Nat) :
    Except FieldProjectionError FieldProjectionLimits :=
  if h : maxFields = 0 then .error .zeroFieldLimit
  else .ok ⟨maxFields, maxDecodedBytesPerField, maxTotalDecodedBytes, Nat.pos_of_ne_zero h⟩

inductive FieldUtf8Status where
  | valid
  | invalid
  | incomplete
deriving DecidableEq, Repr

structure FieldFlags where
  quoted : Bool
  escapedQuotes : Bool
  rawTruncated : Bool
  decodedTruncated : Bool
deriving DecidableEq, Repr

structure FieldProjection where
  rawSpan : RecordSpan
  decodedBytes : List Byte
  flags : FieldFlags
  utf8Status : FieldUtf8Status
deriving DecidableEq, Repr

structure DelimitedRecordProjection where
  recordSpan : RecordSpan
  fields : List FieldProjection
  fieldsTruncated : Bool
deriving DecidableEq, Repr

/-! ## UTF-8 -/

/-- Why bytes are not UTF-8: a sequence is wrong, or the input ends inside one. -/
inductive Utf8Error where
  | invalidSequence
  | unexpectedEnd
deriving DecidableEq, Repr

/-- The ranges that the continuation bytes behind a first byte must lie in. -/
def utf8Continuation (byte : Byte) : Option (List (Byte × Byte)) :=
  if byte ≤ 0x7F then some []
  else if byte < 0xC2 then none
  else if byte ≤ 0xDF then some [(0x80, 0xBF)]
  else if byte = 0xE0 then some [(0xA0, 0xBF), (0x80, 0xBF)]
  else if byte = 0xED then some [(0x80, 0x9F), (0x80, 0xBF)]
  else if byte ≤ 0xEF then some [(0x80, 0xBF), (0x80, 0xBF)]
  else if byte = 0xF0 then some [(0x90, 0xBF), (0x80, 0xBF), (0x80, 0xBF)]
  else if byte ≤ 0xF3 then some [(0x80, 0xBF), (0x80, 0xBF), (0x80, 0xBF)]
  else if byte = 0xF4 then some [(0x80, 0x8F), (0x80, 0xBF), (0x80, 0xBF)]
  else none

/-- `std::str::from_utf8`, with the ranges still expected of the current sequence. -/
def fromUtf8 : List (Byte × Byte) → List Byte → Except Utf8Error Unit
  | [], [] => .ok ()
  | _ :: _, [] => .error .unexpectedEnd
  | [], byte :: bytes =>
    match utf8Continuation byte with
    | none => .error .invalidSequence
    | some ranges => fromUtf8 ranges bytes
  | (low, high) :: ranges, byte :: bytes =>
    if low ≤ byte ∧ byte ≤ high then fromUtf8 ranges bytes else .error .invalidSequence

def classifyUtf8 (bytes : List Byte) (truncated : Bool) : FieldUtf8Status :=
  match fromUtf8 [] bytes with
  | .ok () => .valid
  | .error error => if truncated && error == .unexpectedEnd then .incomplete else .invalid

/-! ## The projection -/

inductive FieldState where
  | start
  | unquoted
  | quoted
  | quoteClosed
deriving DecidableEq, Repr

structure FieldAccumulator where
  rawStart : Nat
  decoded : List Byte
  decodedLimit : Nat
  quoted : Bool
  hadEscapedQuotes : Bool
  decodedTruncated : Bool
deriving Repr

namespace FieldAccumulator

def new (rawStart decodedLimit : Nat) : FieldAccumulator :=
  ⟨rawStart, [], decodedLimit, false, false, false⟩

def pushDecoded (field : FieldAccumulator) (byte : Byte) : FieldAccumulator :=
  if field.decoded.length < field.decodedLimit then
    { field with decoded := field.decoded ++ [byte] }
  else { field with decodedTruncated := true }

def finish (field : FieldAccumulator) (recordStart rawEnd : Nat) (rawTruncated : Bool) :
    Except FieldProjectionError FieldProjection :=
  match checkedAdd recordStart field.rawStart, checkedAdd recordStart rawEnd with
  | some rawStart, some rawEnd =>
    match RecordSpan.new rawStart rawEnd with
    | .error _ => .error .visiblePrefixOutsideRecord
    | .ok rawSpan =>
      .ok ⟨rawSpan, field.decoded,
        ⟨field.quoted, field.hadEscapedQuotes, rawTruncated, field.decodedTruncated⟩,
        classifyUtf8 field.decoded (rawTruncated || field.decodedTruncated)⟩
  | _, _ => .error .offsetOverflow

end FieldAccumulator

/-- The variables of the loop of `project_delimited_record`. -/
structure Projecting where
  fields : List FieldProjection
  omittedFields : Bool
  totalRemaining : Nat
  state : FieldState
  field : FieldAccumulator
  cursor : Nat

namespace Projecting

def finishField (p : Projecting) (recordStart rawEnd : Nat) (rawTruncated : Bool)
    (limits : FieldProjectionLimits) : Except FieldProjectionError Projecting :=
  if p.fields.length = limits.fields then .ok { p with omittedFields := true }
  else do
    let projection ← p.field.finish recordStart rawEnd rawTruncated
    return { p with
      totalRemaining := p.totalRemaining - projection.decodedBytes.length
      fields := p.fields ++ [projection] }

def newField (rawStart projectedCount totalRemaining : Nat) (limits : FieldProjectionLimits) :
    FieldAccumulator :=
  .new rawStart
    (if projectedCount < limits.fields then min limits.decodedBytesPerField totalRemaining else 0)

/-- A delimiter outside quotes. -/
def endField (p : Projecting) (recordStart : Nat) (limits : FieldProjectionLimits) :
    Except FieldProjectionError Projecting := do
  let p ← p.finishField recordStart p.cursor false limits
  return { p with
    cursor := p.cursor + 1
    field := newField (p.cursor + 1) p.fields.length p.totalRemaining limits
    state := .start }

/-- A byte of the field's value. -/
def keep (p : Projecting) (byte : Byte) (state : FieldState) : Projecting :=
  { p with field := p.field.pushDecoded byte, state := state, cursor := p.cursor + 1 }

/-- The second quote of a doubled one. -/
def escape (p : Projecting) : Projecting :=
  { p with field := { p.field with hadEscapedQuotes := true } }

def step (recordStart : Nat) (dialect : CsvDialect) (limits : FieldProjectionLimits)
    (p : Projecting) (byte : Byte) : Except FieldProjectionError Projecting :=
  match p.state with
  | .start =>
    if byte = dialect.quote then
      .ok { p with
        field := { p.field with quoted := true }, state := .quoted, cursor := p.cursor + 1 }
    else if byte = dialect.delimiter then p.endField recordStart limits
    else .ok (p.keep byte .unquoted)
  | .unquoted =>
    if byte = dialect.delimiter then p.endField recordStart limits
    else .ok (p.keep byte .unquoted)
  | .quoted =>
    if byte = dialect.quote then .ok { p with state := .quoteClosed, cursor := p.cursor + 1 }
    else .ok (p.keep byte .quoted)
  | .quoteClosed =>
    if byte = dialect.delimiter then p.endField recordStart limits
    else if byte = dialect.quote then
      .ok (p.escape.keep dialect.quote .quoted)
    else .ok (p.keep byte .unquoted)

end Projecting

def projectDelimitedRecord (record : RecordPreview) (dialect : CsvDialect)
    (limits : FieldProjectionLimits) : Except FieldProjectionError DelimitedRecordProjection :=
  match checkedAdd record.span.start record.bytes.length with
  | none => .error .offsetOverflow
  | some visibleEnd =>
    if record.span.stop < visibleEnd then .error .visiblePrefixOutsideRecord
    else do
      let rawRecordTruncated := visibleEnd < record.span.stop || record.truncated
      let p ← record.bytes.foldlM (Projecting.step record.span.start dialect limits)
        ⟨[], false, limits.totalDecodedBytes, .start,
          .new 0 (min limits.decodedBytesPerField limits.totalDecodedBytes), 0⟩
      let p ← p.finishField record.span.start record.bytes.length rawRecordTruncated limits
      return ⟨record.span, p.fields, p.omittedFields || rawRecordTruncated⟩

/-! ## The fields of a record -/

/-- What a byte is to the field it is read in: its end, or a byte of its value or of its
quoting, with the state it leads to. -/
inductive FieldByte where
  | ends
  | quoting (state : FieldState)
  | value (state : FieldState)
deriving DecidableEq, Repr

def FieldState.read (dialect : CsvDialect) (state : FieldState) (byte : Byte) : FieldByte :=
  match state with
  | .start =>
    if byte = dialect.quote then .quoting .quoted
    else if byte = dialect.delimiter then .ends else .value .unquoted
  | .unquoted => if byte = dialect.delimiter then .ends else .value .unquoted
  | .quoted => if byte = dialect.quote then .quoting .quoteClosed else .value .quoted
  | .quoteClosed =>
    if byte = dialect.quote then .value .quoted
    else if byte = dialect.delimiter then .ends else .value .unquoted

/-- The rest of the value of the field a record is read in, and the fields behind it. -/
def fieldsFrom (dialect : CsvDialect) : FieldState → List Byte → List Byte × List (List Byte)
  | _, [] => ([], [])
  | state, byte :: bytes =>
    match state.read dialect byte with
    | .ends =>
      ([], (fieldsFrom dialect .start bytes).1 :: (fieldsFrom dialect .start bytes).2)
    | .quoting state => fieldsFrom dialect state bytes
    | .value state =>
      (byte :: (fieldsFrom dialect state bytes).1, (fieldsFrom dialect state bytes).2)

/-- The values of the fields of a record, quotes undone. -/
def decodeFields (dialect : CsvDialect) (bytes : List Byte) : List (List Byte) :=
  (fieldsFrom dialect .start bytes).1 :: (fieldsFrom dialect .start bytes).2

-- a,"b""c",,"d"e
example : decodeFields .csv [97, 44, 34, 98, 34, 34, 99, 34, 44, 44, 34, 100, 34, 101] =
    [[97], [98, 34, 99], [], [100, 101]] := by decide

section FieldsFrom
variable {dialect : CsvDialect} {state next : FieldState} {byte : Byte} (bytes : List Byte)

theorem fieldsFrom_ends (h : state.read dialect byte = .ends) :
    fieldsFrom dialect state (byte :: bytes) =
      ([], (fieldsFrom dialect .start bytes).1 :: (fieldsFrom dialect .start bytes).2) := by
  rw [fieldsFrom, h]

theorem fieldsFrom_quoting (h : state.read dialect byte = .quoting next) :
    fieldsFrom dialect state (byte :: bytes) = fieldsFrom dialect next bytes := by
  rw [fieldsFrom, h]

theorem fieldsFrom_value (h : state.read dialect byte = .value next) :
    fieldsFrom dialect state (byte :: bytes) =
      (byte :: (fieldsFrom dialect next bytes).1, (fieldsFrom dialect next bytes).2) := by
  rw [fieldsFrom, h]

end FieldsFrom

/-! ## The projection keeps all of them when no limit binds -/

/-- The limits leave room for everything a record of `len` bytes can hold. -/
structure FieldProjectionLimits.Unlimited (limits : FieldProjectionLimits) (len : Nat) :
    Prop where
  fields : len < limits.fields
  perField : len ≤ limits.decodedBytesPerField
  total : len ≤ limits.totalDecodedBytes

namespace Projecting

/-- There is room for the bytes ahead. -/
structure Room (recordStart : Nat) (limits : FieldProjectionLimits) (ahead : List Byte)
    (p : Projecting) : Prop where
  fields : p.fields.length + ahead.length < limits.fields
  perField : ahead.length ≤ limits.decodedBytesPerField
  total : p.field.decoded.length + ahead.length ≤ p.totalRemaining
  field : p.field.decoded.length + ahead.length ≤ p.field.decodedLimit
  rawStart : p.field.rawStart ≤ p.cursor
  offsets : recordStart + p.cursor + ahead.length < u64Bound
  none_omitted : p.omittedFields = false

/-- The values read so far, the last of them to be continued. -/
def values (p : Projecting) (rest : List Byte × List (List Byte)) : List (List Byte) :=
  p.fields.map FieldProjection.decodedBytes ++ (p.field.decoded ++ rest.1) :: rest.2

section Room
variable {recordStart : Nat} {limits : FieldProjectionLimits} {ahead : List Byte}
  {p : Projecting} {dialect : CsvDialect} {byte : Byte}

theorem finishField_room (h : p.Room recordStart limits ahead) (rawTruncated : Bool) :
    ∃ projection, projection.decodedBytes = p.field.decoded ∧
      p.finishField recordStart p.cursor rawTruncated limits =
        .ok { p with
          totalRemaining := p.totalRemaining - p.field.decoded.length
          fields := p.fields ++ [projection] } := by
  have hoffsets := h.offsets
  have hraw := h.rawStart
  have hstart : checkedAdd recordStart p.field.rawStart = some (recordStart + p.field.rawStart) :=
    checkedAdd_eq_some.mpr ⟨by omega, rfl⟩
  have hend : checkedAdd recordStart p.cursor = some (recordStart + p.cursor) :=
    checkedAdd_eq_some.mpr ⟨by omega, rfl⟩
  have hspan : recordStart + p.field.rawStart ≤ recordStart + p.cursor := by omega
  have hfields : p.fields.length ≠ limits.fields := by
    have := h.fields
    omega
  simp only [finishField, if_neg hfields, FieldAccumulator.finish, hstart, hend, RecordSpan.new,
    dif_pos hspan]
  exact ⟨_, rfl, rfl⟩

theorem endField_room (h : p.Room recordStart limits (byte :: ahead)) :
    ∃ next, p.endField recordStart limits = .ok next ∧ next.Room recordStart limits ahead ∧
      next.state = .start ∧ next.cursor = p.cursor + 1 ∧
      ∀ rest, next.values rest = p.values ([], rest.1 :: rest.2) := by
  obtain ⟨projection, hdecoded, hfinish⟩ := finishField_room h false
  have hfields := h.fields
  have hperField := h.perField
  have htotal := h.total
  have hoffsets := h.offsets
  simp only [List.length_cons] at hfields hperField htotal hoffsets
  refine ⟨_, by simp only [endField, hfinish]; rfl, ⟨?_, ?_, ?_, ?_, ?_, ?_, ?_⟩, rfl, rfl, ?_⟩
  · simp only [List.length_append, List.length_singleton]
    omega
  · omega
  · simp only [newField, FieldAccumulator.new, List.length_nil]
    omega
  · have hroom : (p.fields ++ [projection]).length < limits.fields := by
      simp only [List.length_append, List.length_singleton]
      omega
    simp only [newField, FieldAccumulator.new, List.length_nil, if_pos hroom]
    omega
  · exact Nat.le_refl _
  · dsimp only
    omega
  · exact h.none_omitted
  · intro rest
    simp [values, newField, FieldAccumulator.new, hdecoded]

theorem keep_room (h : p.Room recordStart limits (byte :: ahead)) (kept : Byte)
    (state : FieldState) :
    (p.keep kept state).Room recordStart limits ahead ∧
      ∀ rest, (p.keep kept state).values rest = p.values (kept :: rest.1, rest.2) := by
  have hfields := h.fields
  have hperField := h.perField
  have htotal := h.total
  have hfield := h.field
  have hraw := h.rawStart
  have hoffsets := h.offsets
  simp only [List.length_cons] at hfields hperField htotal hfield hoffsets
  have hpush : p.field.pushDecoded kept =
      { p.field with decoded := p.field.decoded ++ [kept] } := by
    rw [FieldAccumulator.pushDecoded, if_pos (by omega)]
  refine ⟨⟨?_, ?_, ?_, ?_, ?_, ?_, h.none_omitted⟩, ?_⟩
  · simp only [keep]
    omega
  · omega
  · simp only [keep, hpush, List.length_append, List.length_singleton]
    omega
  · simp only [keep, hpush, List.length_append, List.length_singleton]
    omega
  · simp only [keep, hpush]
    omega
  · simp only [keep]
    omega
  · intro rest
    simp [values, keep, hpush]

theorem quoting_room (h : p.Room recordStart limits (byte :: ahead)) (state : FieldState)
    (quoted : Bool) :
    ({ p with
      field := { p.field with quoted := quoted }
      state := state
      cursor := p.cursor + 1 } : Projecting).Room recordStart limits ahead := by
  have hfields := h.fields
  have hperField := h.perField
  have htotal := h.total
  have hfield := h.field
  have hraw := h.rawStart
  have hoffsets := h.offsets
  simp only [List.length_cons] at hfields hperField htotal hfield hoffsets
  refine ⟨?_, ?_, ?_, ?_, ?_, ?_, h.none_omitted⟩
  all_goals try dsimp only
  all_goals omega

variable (dialect) in
/-- One byte of the loop does what `FieldState.read` says, and leaves the values to come. -/
theorem step_room (h : p.Room recordStart limits (byte :: ahead)) :
    ∃ next, p.step recordStart dialect limits byte = .ok next ∧
      next.Room recordStart limits ahead ∧ next.cursor = p.cursor + 1 ∧
      next.values (fieldsFrom dialect next.state ahead) =
        p.values (fieldsFrom dialect p.state (byte :: ahead)) := by
  obtain ⟨ended, hended, hroom, hstart, hcursor, hvalues⟩ := endField_room h
  have hends : p.state.read dialect byte = .ends →
      ended.values (fieldsFrom dialect ended.state ahead) =
        p.values (fieldsFrom dialect p.state (byte :: ahead)) := by
    intro hread
    rw [fieldsFrom_ends _ hread, hvalues, hstart]
  have hkeeps : ∀ state, p.state.read dialect byte = .value state →
      (p.keep byte state).values (fieldsFrom dialect (p.keep byte state).state ahead) =
        p.values (fieldsFrom dialect p.state (byte :: ahead)) := by
    intro state hread
    rw [fieldsFrom_value _ hread, (keep_room h byte state).2]
    rfl
  unfold step
  cases hstate : p.state with
  | start =>
    rw [hstate] at hends hkeeps
    simp only [FieldState.read] at hends hkeeps
    dsimp only
    split
    · rename_i hquote
      have hread : FieldState.start.read dialect byte = .quoting .quoted := by
        simp [FieldState.read, hquote]
      refine ⟨_, rfl, quoting_room h .quoted true, rfl, ?_⟩
      rw [fieldsFrom_quoting ahead hread]
      rfl
    · rename_i hquote
      simp only [if_neg hquote] at hends hkeeps
      split
      · rename_i hdelim
        exact ⟨ended, hended, hroom, hcursor, hends (by simp [hdelim])⟩
      · rename_i hdelim
        exact ⟨_, rfl, (keep_room h byte _).1, rfl, hkeeps _ (by simp [hdelim])⟩
  | unquoted =>
    rw [hstate] at hends hkeeps
    simp only [FieldState.read] at hends hkeeps
    dsimp only
    split
    · rename_i hdelim
      exact ⟨ended, hended, hroom, hcursor, hends (by simp [hdelim])⟩
    · rename_i hdelim
      exact ⟨_, rfl, (keep_room h byte _).1, rfl, hkeeps _ (by simp [hdelim])⟩
  | quoted =>
    rw [hstate] at hkeeps
    simp only [FieldState.read] at hkeeps
    dsimp only
    split
    · rename_i hquote
      have hread : FieldState.quoted.read dialect byte = .quoting .quoteClosed := by
        simp [FieldState.read, hquote]
      refine ⟨_, rfl, quoting_room h .quoteClosed p.field.quoted, rfl, ?_⟩
      rw [fieldsFrom_quoting ahead hread]
      rfl
    · rename_i hquote
      exact ⟨_, rfl, (keep_room h byte _).1, rfl, hkeeps _ (by simp [hquote])⟩
  | quoteClosed =>
    rw [hstate] at hends hkeeps
    simp only [FieldState.read] at hends hkeeps
    dsimp only
    have hne := dialect.distinct
    split
    · rename_i hdelim
      have hquote : byte ≠ dialect.quote := by
        rintro rfl
        exact hne hdelim.symm
      exact ⟨ended, hended, hroom, hcursor, hends (by simp [hdelim, hne])⟩
    split
    · rename_i hdelim hquote
      subst hquote
      have hescaped : p.escape.Room recordStart limits (dialect.quote :: ahead) :=
        ⟨h.fields, h.perField, h.total, h.field, h.rawStart, h.offsets, h.none_omitted⟩
      have hread : FieldState.quoteClosed.read dialect dialect.quote = .value .quoted := by
        simp [FieldState.read]
      refine ⟨_, rfl, (keep_room hescaped dialect.quote .quoted).1, rfl, ?_⟩
      rw [(keep_room hescaped dialect.quote .quoted).2, fieldsFrom_value ahead hread]
      rfl
    · rename_i hdelim hquote
      exact ⟨_, rfl, (keep_room h byte _).1, rfl, hkeeps _ (by simp [hdelim, hquote])⟩

end Room

/-- The whole loop. -/
theorem foldlM_room {recordStart : Nat} {limits : FieldProjectionLimits} (dialect : CsvDialect)
    (bytes : List Byte) {p : Projecting} (h : p.Room recordStart limits bytes) :
    ∃ last, bytes.foldlM (step recordStart dialect limits) p = .ok last ∧
      last.Room recordStart limits [] ∧
      last.values ([], []) = p.values (fieldsFrom dialect p.state bytes) ∧
      last.cursor = p.cursor + bytes.length := by
  induction bytes generalizing p with
  | nil => exact ⟨p, rfl, h, rfl, rfl⟩
  | cons byte bytes ih =>
    obtain ⟨next, hnext, hroom, hcursor, hvalues⟩ := step_room dialect h
    obtain ⟨last, hlast, hroom', hvalues', hcursor'⟩ := ih hroom
    refine ⟨last, ?_, hroom', hvalues'.trans hvalues, ?_⟩
    · rw [List.foldlM_cons, hnext]
      exact hlast
    · rw [hcursor', hcursor, List.length_cons]
      omega

end Projecting

/-- Without binding limits the projection of a whole record decodes its fields. -/
theorem project_decodeFields {span : RecordSpan} {bytes : List Byte} (row : Nat)
    (dialect : CsvDialect) {limits : FieldProjectionLimits}
    (hlimits : limits.Unlimited bytes.length) (hlen : bytes.length = span.len)
    (hstop : span.stop < u64Bound) :
    ∃ projection, projectDelimitedRecord ⟨row, span, bytes, false⟩ dialect limits =
        .ok projection ∧
      projection.fields.map FieldProjection.decodedBytes = decodeFields dialect bytes ∧
      projection.fieldsTruncated = false := by
  have hspan := span.start_le_stop
  have hlen' : span.start + bytes.length = span.stop := by
    rw [hlen, RecordSpan.len]
    omega
  have hend : checkedAdd span.start bytes.length = some span.stop :=
    checkedAdd_eq_some.mpr ⟨by omega, hlen'⟩
  have hperField := hlimits.perField
  have htotal := hlimits.total
  have hroom : Projecting.Room span.start limits bytes ⟨[], false, limits.totalDecodedBytes,
      .start, .new 0 (min limits.decodedBytesPerField limits.totalDecodedBytes), 0⟩ := by
    refine ⟨by simpa using hlimits.fields, hperField, ?_, ?_, Nat.le_refl _, ?_, rfl⟩
    · simpa [FieldAccumulator.new] using htotal
    · simp only [FieldAccumulator.new, List.length_nil]
      omega
    · dsimp only
      omega
  obtain ⟨last, hlast, hroom', hvalues, hcursor⟩ :=
    Projecting.foldlM_room dialect bytes hroom
  obtain ⟨projection, hdecoded, hfinish⟩ := Projecting.finishField_room hroom' false
  rw [hcursor, Nat.zero_add] at hfinish
  refine ⟨⟨span, last.fields ++ [projection], false⟩, ?_, ?_, rfl⟩
  · simp only [projectDelimitedRecord, hend, lt_irrefl, if_false, decide_false, Bool.or_false,
      hlast, bind, Except.bind, hfinish, hroom'.none_omitted]
    rfl
  · rw [decodeFields]
    simpa [Projecting.values, FieldAccumulator.new, hdecoded] using hvalues

end LeanRows
