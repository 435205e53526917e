import LeanRows.Types

/-!
# The incremental boundary scanners

`CsvBoundaryScanner` and `LineBoundaryScanner` run one loop: the delimited scanner
adds a field state that hides line breaks inside quotes. The loop is stated once over
`BoundaryRules`; each scanner is that loop at its own rules.
-/

namespace LeanRows

set_option autoImplicit false

inductive EmitControl where
  | continue
  | stop
deriving DecidableEq, Repr

inductive ScanStatus where
  | complete
  | stopped
  | cancelled
deriving DecidableEq, Repr

structure ScanProgress where
  consumed : Nat
  status : ScanStatus
deriving DecidableEq, Repr

inductive ScanError where
  | offsetOverflow
deriving DecidableEq, Repr

inductive CsvDiagnosticKind where
  | unterminatedQuotedField
deriving DecidableEq, Repr

structure CsvDiagnostic where
  kind : CsvDiagnosticKind
  offset : Nat
  recordStart : Nat
deriving DecidableEq, Repr

/-- What the token answers when it is polled with `consumed` bytes of the chunk taken.
Another thread moves the token, so any answer can come at any poll. -/
structure CancelCheck where
  every : Nat
  every_pos : 0 < every
  isCancelled : Nat → Bool

def CancelCheck.fires (cancel : Option CancelCheck) (consumed : Nat) : Bool :=
  match cancel with
  | none => false
  | some check => consumed % check.every == 0 && check.isCancelled consumed

/-- How one scanner reads a byte that is not a line break outside quotes. -/
structure BoundaryRules where
  State : Type
  fieldStart : State
  inQuotes : State → Bool
  next : State → Byte → State

/-- `pendingCrEnd` is the end of a record whose CR has been read while the next byte,
possibly its LF, has not. -/
@[ext] structure BoundaryScanner (rules : BoundaryRules) where
  state : rules.State
  offset : Nat
  recordStart : Nat
  pendingCrEnd : Option Nat
  monotonic : recordStart ≤ pendingCrEnd.getD offset ∧ pendingCrEnd.getD offset ≤ offset

/-- The scanner, the sink and the answer one `feed` call leaves. -/
structure Feed (rules : BoundaryRules) (σ : Type) where
  scanner : BoundaryScanner rules
  sink : σ
  result : Except ScanError ScanProgress

/-- What `finish` hands back: the final record it delivered, if any, and the diagnostic. -/
structure Finish (σ : Type) where
  sink : σ
  emitted : Nat
  stopped : Bool
  diagnostic : Option CsvDiagnostic

namespace BoundaryScanner

variable {rules : BoundaryRules} {σ : Type}

def atOffset (rules : BoundaryRules) (offset : Nat) : BoundaryScanner rules where
  state := rules.fieldStart
  offset := offset
  recordStart := offset
  pendingCrEnd := none
  monotonic := ⟨Nat.le_refl _, Nat.le_refl _⟩

theorem recordStart_le_offset (s : BoundaryScanner rules) : s.recordStart ≤ s.offset :=
  Nat.le_trans s.monotonic.1 s.monotonic.2

theorem recordStart_le_of_pending {s : BoundaryScanner rules} {recordEnd : Nat}
    (h : s.pendingCrEnd = some recordEnd) : s.recordStart ≤ recordEnd := by
  simpa [h] using s.monotonic.1

theorem pending_le_offset {s : BoundaryScanner rules} {recordEnd : Nat}
    (h : s.pendingCrEnd = some recordEnd) : recordEnd ≤ s.offset := by
  simpa [h] using s.monotonic.2

def clearCr (s : BoundaryScanner rules) : BoundaryScanner rules :=
  { s with pendingCrEnd := none, monotonic := ⟨s.recordStart_le_offset, Nat.le_refl _⟩ }

/-- `advance_offset` succeeds. -/
def canAdvance (s : BoundaryScanner rules) : Bool := s.offset + 1 < u64Bound

/-- The scanner one byte further. -/
def advanceOffset (s : BoundaryScanner rules) : BoundaryScanner rules :=
  { s with
    offset := s.offset + 1
    monotonic := by
      have := s.monotonic
      cases h : s.pendingCrEnd <;> simp_all <;> omega }

/-- The record from `recordStart` to `stop`, and the scanner at the start of the next one. -/
def completeRecord (s : BoundaryScanner rules) (stop : Nat) (h : s.recordStart ≤ stop) :
    RecordSpan × BoundaryScanner rules :=
  (⟨s.recordStart, stop, h⟩, atOffset rules s.offset)

/-- A CR outside quotes ends the record, but an LF may still belong to it. -/
def holdCr (s : BoundaryScanner rules) : BoundaryScanner rules :=
  { s with
    pendingCrEnd := some s.offset
    monotonic := ⟨s.recordStart_le_offset, Nat.le_refl _⟩ }

def withState (s : BoundaryScanner rules) (state : rules.State) : BoundaryScanner rules :=
  { s with state := state }

/-- The head of the loop body: a pending record is delivered before a byte that is not
the LF of its CRLF, and that byte stays unread. -/
def flushCr (s : BoundaryScanner rules) (byte : Byte) :
    Option (RecordSpan × BoundaryScanner rules) :=
  match h : s.pendingCrEnd with
  | none => none
  | some recordEnd =>
    if byte = lf then none
    else some (s.completeRecord recordEnd (recordStart_le_of_pending h))

/-- The rest of the loop body: the record the byte ends, if any, and the scanner one byte
further. While a CR is pending the only byte read is the LF of its CRLF. -/
def takeByte (s : BoundaryScanner rules) (byte : Byte) :
    Option RecordSpan × BoundaryScanner rules :=
  match h : s.pendingCrEnd with
  | some recordEnd =>
    let (span, next) := s.advanceOffset.completeRecord recordEnd (recordStart_le_of_pending h)
    (some span, next)
  | none =>
    if !rules.inQuotes s.state && byte == cr then (none, s.holdCr.advanceOffset)
    else if !rules.inQuotes s.state && byte == lf then
      let (span, next) := s.advanceOffset.completeRecord s.offset s.recordStart_le_offset
      (some span, next)
    else (none, (s.withState (rules.next s.state byte)).advanceOffset)

/-- The scanner left when `advance_offset` fails: the source has by then cleared or set the
pending CR, or entered the next field state. -/
def overflowed (s : BoundaryScanner rules) (byte : Byte) : BoundaryScanner rules :=
  match s.pendingCrEnd with
  | some _ => s.clearCr
  | none =>
    if !rules.inQuotes s.state && byte == cr then s.holdCr
    else if !rules.inQuotes s.state && byte == lf then s
    else s.withState (rules.next s.state byte)

/-- The record `finish` delivers: one that waits for the LF of a CRLF, or bytes with no
line break after them. -/
def lastRecord (s : BoundaryScanner rules) : Option RecordSpan :=
  match h : s.pendingCrEnd with
  | some recordEnd => some ⟨s.recordStart, recordEnd, recordStart_le_of_pending h⟩
  | none =>
    if s.recordStart < s.offset then
      some ⟨s.recordStart, s.offset, s.recordStart_le_offset⟩
    else none

def diagnostic (s : BoundaryScanner rules) : Option CsvDiagnostic :=
  if rules.inQuotes s.state then
    some ⟨.unterminatedQuotedField, s.offset, s.recordStart⟩
  else none

section Loop
variable (cancel : Option CancelCheck) (emit : RecordSpan → σ → EmitControl × σ)

/-- Calls the sink on a record that may have ended. -/
def deliver : Option RecordSpan → σ → EmitControl × σ
  | none, sink => (.continue, sink)
  | some span, sink => emit span sink

/-- The loop of `feed_inner`. `sink` is what the callback may change; it is called once
for each record delivered. -/
def feedInner : List Byte → Nat → BoundaryScanner rules → σ → Feed rules σ
  | [], consumed, s, sink => ⟨s, sink, .ok ⟨consumed, .complete⟩⟩
  | byte :: chunk, consumed, s, sink =>
    if CancelCheck.fires cancel consumed then ⟨s, sink, .ok ⟨consumed, .cancelled⟩⟩
    else
      let s' := ((s.flushCr byte).map Prod.snd).getD s
      match deliver emit ((s.flushCr byte).map Prod.fst) sink with
      | (.stop, sink) => ⟨s', sink, .ok ⟨consumed, .stopped⟩⟩
      | (.continue, sink) =>
        if s'.canAdvance then
          match deliver emit (s'.takeByte byte).1 sink with
          | (.stop, sink) => ⟨(s'.takeByte byte).2, sink, .ok ⟨consumed + 1, .stopped⟩⟩
          | (.continue, sink) => feedInner chunk (consumed + 1) (s'.takeByte byte).2 sink
        else ⟨s'.overflowed byte, sink, .error .offsetOverflow⟩

def feed (chunk : List Byte) (s : BoundaryScanner rules) (sink : σ) : Feed rules σ :=
  feedInner none emit chunk 0 s sink

def feedCancellable (check : CancelCheck) (chunk : List Byte) (s : BoundaryScanner rules)
    (sink : σ) : Feed rules σ :=
  feedInner (some check) emit chunk 0 s sink

/-- Consumes the scanner: delivers a pending or unterminated record, and diagnoses a
quoted field that is still open. -/
def finish (s : BoundaryScanner rules) (sink : σ) : Finish σ :=
  match s.lastRecord with
  | some span => ⟨(emit span sink).2, 1, (emit span sink).1 == .stop, s.diagnostic⟩
  | none => ⟨sink, 0, false, s.diagnostic⟩

end Loop

end BoundaryScanner

/-! ## The two scanners -/

inductive CsvState where
  | fieldStart
  | unquoted
  | quoted
  | quoteClosed
deriving DecidableEq, Repr

/-- The state a byte leads to when it is not a line break outside quotes. -/
def CsvState.next (dialect : CsvDialect) (state : CsvState) (byte : Byte) : CsvState :=
  match state with
  | .fieldStart =>
    if byte = dialect.quote then .quoted
    else if byte = dialect.delimiter then .fieldStart else .unquoted
  | .unquoted => if byte = dialect.delimiter then .fieldStart else .unquoted
  | .quoted => if byte = dialect.quote then .quoteClosed else .quoted
  | .quoteClosed =>
    if byte = dialect.quote then .quoted
    else if byte = dialect.delimiter then .fieldStart else .unquoted

def csvRules (dialect : CsvDialect) : BoundaryRules where
  State := CsvState
  fieldStart := .fieldStart
  inQuotes state := state == .quoted
  next := CsvState.next dialect

/-- A line scanner has no field state, so every CR or LF ends a record. -/
def lineRules : BoundaryRules where
  State := Unit
  fieldStart := ()
  inQuotes _ := false
  next _ _ := ()

abbrev CsvBoundaryScanner (dialect : CsvDialect) := BoundaryScanner (csvRules dialect)

abbrev LineBoundaryScanner := BoundaryScanner lineRules

def ViewportFormat.rules : ViewportFormat → BoundaryRules
  | .delimited dialect => csvRules dialect
  | .lines => lineRules

/-- The scanner that the viewport, the scan session, the query and the sort pick by
format: each wraps one of the two scanners in an enumeration of its own. -/
abbrev FormatScanner (format : ViewportFormat) := BoundaryScanner format.rules

end LeanRows
