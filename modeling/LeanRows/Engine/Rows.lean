import LeanRows.Projection
import LeanRows.Session
import LeanRows.Sort.Key

/-!
# Rows ready for display

What the document engine hands to the user interface: rows of UTF-16 cells with the number
of the row in front, their column layout, and the errors of the engine. How the bytes of a
field become UTF-16 units is left open; nothing here depends on it.
-/

namespace LeanRows

set_option autoImplicit false

def maxProjectedFields : Nat := 64

def maxDecodedBytesPerField : Nat := 1024

def maxRecordPreviewBytes : Nat := 4 * 1024

def maxDecodedBytesPerRow : Nat := maxRecordPreviewBytes

/-! ## Errors -/

/-- What the workbook reader reports. The kinds the engine does not look at are numbered. -/
inductive XlsxError where
  | cancelled
  | truncated
  | sheetOutOfRange
  | noWorksheet
  | io (error : IoError)
  | other (kind : Nat)
deriving DecidableEq, Repr

/-- `order` is an I/O error whose source is an error of the sorted order; `path` stands for
what is found wrong with a path before its file is opened. -/
inductive DocumentEngineError where
  | path (reason : Nat)
  | unsupportedFormat
  | notRegularFile
  | reparsePointUnsupported
  | sourceChanged (change : SourceChange) (expectedSize actualSize : Nat)
  | sourceIntegrityLost
  | cancelled
  | tooManyDisplayColumns
  | io (operation : String) (source : IoError)
  | scan (error : ScanSessionError)
  | viewport (error : ViewportError)
  | projection (error : FieldProjectionError)
  | xlsx (error : XlsxError)
  | findUnavailable
  | sortUnavailable
  | order (error : Sort.SortError)
deriving DecidableEq, Repr

def mapViewportError : ViewportError → DocumentEngineError
  | .cancelled => .cancelled
  | other => .viewport other

def mapXlsxError : XlsxError → DocumentEngineError
  | .cancelled => .cancelled
  | other => .xlsx other

/-- The errors that end the continuity of a scan's snapshot for good. -/
def ScanSessionError.isSourceIntegrityFailure : ScanSessionError → Bool
  | .sourceShrank .. | .sourceGrew .. | .sourceChanged .. | .sourceEvidenceUnavailable .. => true
  | _ => false

/-! ## Columns -/

inductive UiColumnKind where
  | preview
  | fields
  | cells
deriving DecidableEq, Repr

structure UiColumnLayout where
  kind : UiColumnKind
  dataColumns : Nat
deriving DecidableEq, Repr

namespace UiColumnLayout

def new (kind : UiColumnKind) (dataColumns : Nat) : Except DocumentEngineError UiColumnLayout :=
  if maxProjectedFields < dataColumns ∨ kind = .preview ∧ dataColumns ≠ 1 then
    .error .tooManyDisplayColumns
  else .ok ⟨kind, dataColumns⟩

def isValid (layout : UiColumnLayout) : Bool :=
  decide (layout.dataColumns ≤ maxProjectedFields) &&
    (layout.kind == .fields || layout.kind == .cells || layout.dataColumns == 1)

def grow (layout candidate : UiColumnLayout) : Option UiColumnLayout :=
  if !layout.isValid || !candidate.isValid || layout.kind != candidate.kind then none
  else some ⟨layout.kind, max layout.dataColumns candidate.dataColumns⟩

end UiColumnLayout

/-! ## Cells and rows -/

abbrev Utf16Unit := UInt16

abbrev Utf16Cell := List Utf16Unit

/-- The digits of a number behind each other, and the terminator. -/
def Utf16Cell.decimal (value : Nat) : Utf16Cell :=
  (Nat.toDigits 10 value).map (fun digit => digit.toNat.toUInt16) ++ [0]

/-- The preview of a field, and what had to be left out of it or escaped. -/
structure EncodedField where
  units : Utf16Cell
  truncated : Bool
  escapedNonUtf8 : Bool

/-- How a preview is built of bytes; the flag asks for the mark of an omission. -/
abbrev PreviewEncoder := List Byte → Bool → EncodedField

structure UiCachedRow where
  absoluteRow : Nat
  displayRank : Nat
  cells : List Utf16Cell
  sourceTruncated : Bool
  displayTruncated : Bool
  escapedNonUtf8 : Bool
deriving DecidableEq

def UiCachedRow.dataColumns (row : UiCachedRow) : Nat := row.cells.length - 1

structure UiRowSnapshot where
  firstRow : Nat
  rows : List UiCachedRow
  columns : UiColumnLayout
  reachedEof : Bool
  diagnostic : Option CsvDiagnostic
deriving DecidableEq

def saturatingAdd (a b : Nat) : Nat := min (a + b) (u64Bound - 1)

section Build
variable (encode : PreviewEncoder)

def buildCachedRow (record : RecordPreview) (format : DocumentFormat)
    (limits : FieldProjectionLimits) : Except DocumentEngineError UiCachedRow :=
  let number := Utf16Cell.decimal (saturatingAdd record.row 1)
  match format.delimitedDialect with
  | some dialect =>
    match projectDelimitedRecord record dialect limits with
    | .error error => .error (.projection error)
    | .ok projection =>
      let previews := projection.fields.map fun field =>
        (field, encode field.decodedBytes (field.flags.rawTruncated ||
          field.flags.decodedTruncated))
      .ok {
        absoluteRow := record.row
        displayRank := record.row
        cells := number :: previews.map fun preview => preview.2.units
        sourceTruncated := record.truncated || projection.fieldsTruncated ||
          previews.any fun preview =>
            preview.1.flags.rawTruncated || preview.1.flags.decodedTruncated
        displayTruncated := previews.any fun preview => preview.2.truncated
        escapedNonUtf8 := previews.any fun preview =>
          preview.1.utf8Status != .valid || preview.2.escapedNonUtf8 }
  | none =>
    let preview := encode record.bytes record.truncated
    .ok {
      absoluteRow := record.row
      displayRank := record.row
      cells := [number, preview.units]
      sourceTruncated := record.truncated
      displayTruncated := preview.truncated
      escapedNonUtf8 := preview.escapedNonUtf8 }

structure XlsxCell where
  bytes : List Byte
  truncated : Bool

structure XlsxRow where
  index : Nat
  cells : List XlsxCell
  truncated : Bool

def buildXlsxRow (row : XlsxRow) : UiCachedRow :=
  let previews := row.cells.map fun cell => (cell, encode cell.bytes cell.truncated)
  { absoluteRow := row.index
    displayRank := row.index
    cells := Utf16Cell.decimal (saturatingAdd row.index 1) ::
      previews.map fun preview => preview.2.units
    sourceTruncated := row.truncated || previews.any fun preview => preview.1.truncated
    displayTruncated := previews.any fun preview => preview.2.truncated
    escapedNonUtf8 := previews.any fun preview => preview.2.escapedNonUtf8 }

variable {encode}

theorem buildCachedRow_ok {record : RecordPreview} {format : DocumentFormat}
    {limits : FieldProjectionLimits} {row : UiCachedRow}
    (h : buildCachedRow encode record format limits = .ok row) :
    row.absoluteRow = record.row ∧ row.displayRank = record.row ∧ row.cells ≠ [] := by
  unfold buildCachedRow at h
  dsimp only at h
  split at h
  · split at h
    · cases h
    · cases h
      exact ⟨rfl, rfl, List.cons_ne_nil _ _⟩
  · cases h
    exact ⟨rfl, rfl, List.cons_ne_nil _ _⟩

end Build

end LeanRows
