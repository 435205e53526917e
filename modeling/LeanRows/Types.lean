import Mathlib

/-!
# Spans, checkpoints and dialects

The value types every part of the reader shares. Positions, sizes and row numbers
are `u64` in the source; here they are natural numbers, and a sum that could leave
the `u64` range goes through `checkedAdd`.
-/

namespace LeanRows

set_option autoImplicit false

abbrev Byte := UInt8

def lf : Byte := 10

def cr : Byte := 13

/-- One more than the largest `u64`. -/
def u64Bound : Nat := 2 ^ 64

def checkedAdd (a b : Nat) : Option Nat := if a + b < u64Bound then some (a + b) else none

theorem checkedAdd_eq_some {a b c : Nat} :
    checkedAdd a b = some c ↔ a + b < u64Bound ∧ a + b = c := by
  unfold checkedAdd
  split <;> simp_all

/-- An end-exclusive byte range occupied by one logical record (`end` is `stop` here). -/
@[ext] structure RecordSpan where
  start : Nat
  stop : Nat
  start_le_stop : start ≤ stop
deriving DecidableEq, Repr

namespace RecordSpan

/-- An end that precedes the start. -/
structure SpanError where
  start : Nat
  stop : Nat
deriving DecidableEq, Repr

def new (start stop : Nat) : Except SpanError RecordSpan :=
  if h : start ≤ stop then .ok ⟨start, stop, h⟩ else .error ⟨start, stop⟩

def len (s : RecordSpan) : Nat := s.stop - s.start

def isEmpty (s : RecordSpan) : Bool := s.start == s.stop

theorem new_start_stop (s : RecordSpan) : new s.start s.stop = .ok s := by
  simp [new, s.start_le_stop]

/-- The bytes a span covers in a document. -/
def bytesOf (s : RecordSpan) (document : List Byte) : List Byte :=
  (document.drop s.start).take s.len

theorem bytesOf_length {s : RecordSpan} {document : List Byte} (h : s.stop ≤ document.length) :
    (s.bytesOf document).length = s.len := by
  have := s.start_le_stop
  simp only [bytesOf, len, List.length_take, List.length_drop]
  omega

end RecordSpan

/-- A sparse mapping from a logical row to its record-start byte offset. -/
@[ext] structure Checkpoint where
  row : Nat
  offset : Nat
deriving DecidableEq, Repr

/-- Why a dialect could not be constructed. -/
inductive CsvDialectError where
  | sameDelimiterAndQuote
  | newlineDelimiter
  | newlineQuote
deriving DecidableEq, Repr

/-- Delimiter and quote bytes: distinct, and neither a line break. -/
structure CsvDialect where
  delimiter : Byte
  quote : Byte
  distinct : delimiter ≠ quote
  delimiter_not_newline : delimiter ≠ cr ∧ delimiter ≠ lf
  quote_not_newline : quote ≠ cr ∧ quote ≠ lf
deriving DecidableEq, Repr

namespace CsvDialect

def new (delimiter quote : Byte) : Except CsvDialectError CsvDialect :=
  if hsame : delimiter = quote then .error .sameDelimiterAndQuote
  else if hdelim : delimiter = cr ∨ delimiter = lf then .error .newlineDelimiter
  else if hquote : quote = cr ∨ quote = lf then .error .newlineQuote
  else .ok ⟨delimiter, quote, hsame, not_or.mp hdelim, not_or.mp hquote⟩

def csv : CsvDialect := ⟨44, 34, by decide, by decide, by decide⟩

def tsv : CsvDialect := ⟨9, 34, by decide, by decide, by decide⟩

end CsvDialect

/-- Boundary rules used to find records: a delimited dialect, or physical lines. -/
inductive ViewportFormat where
  | delimited (dialect : CsvDialect)
  | lines
deriving DecidableEq, Repr

/-- A row-oriented document format understood by the core engine. -/
inductive DocumentFormat where
  | csv
  | tsv
  | jsonl
  | log
deriving DecidableEq, Repr

namespace DocumentFormat

def viewportFormat : DocumentFormat → ViewportFormat
  | csv => .delimited .csv
  | tsv => .delimited .tsv
  | jsonl | log => .lines

def delimitedDialect : DocumentFormat → Option CsvDialect
  | csv => some .csv
  | tsv => some .tsv
  | jsonl | log => none

end DocumentFormat

end LeanRows
