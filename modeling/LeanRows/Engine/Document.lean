import LeanRows.Engine.Rows
import LeanRows.Engine.ReadCache
import LeanRows.Lib.Exec

/-!
# The document engine

One open document: the retained handle with its path, the scan that builds the index, and
a flag that remembers that the source is no longer the one that was opened. A call that
fails changes nothing else that a later call looks at.
-/

namespace LeanRows

set_option autoImplicit false

/-! ## What the system tells of a file -/

structure EntryMetadata where
  isFile : Bool
  isReparse : Bool
  len : Nat

/-- The identity that Windows keeps of an open file. -/
structure FileEvidence where
  volume : Nat
  fileIndex : Nat
  size : Nat
  creationTime : Nat
  lastWriteTime : Nat
  changeTime : Nat
  attributes : Nat
deriving DecidableEq

def FileEvidence.compare (self current : FileEvidence) : SourceChange :=
  if self.volume ≠ current.volume ∨ self.fileIndex ≠ current.fileIndex then .identityChanged
  else if current.size < self.size then .shrank
  else if self.size < current.size then .grew
  else if self.creationTime ≠ current.creationTime ∨
      self.lastWriteTime ≠ current.lastWriteTime ∨ self.changeTime ≠ current.changeTime ∨
      self.attributes ≠ current.attributes then .revisionChanged
  else .unchanged

/-- The calls about a file that only Windows has: evidence of the handle, and the path
opened once more. -/
structure WindowsFile (W : Type) where
  handleEvidence : W → Except IoError FileEvidence × W
  openPath : W → Except IoError Unit × W
  pathMetadata : W → Except IoError EntryMetadata × W
  pathEvidence : W → Except IoError FileEvidence × W

/-- The retained handle of a file, and the path it was opened by. `cloneForQuery` makes a
second handle and proves it to be of the same file; its error names what it was doing. -/
structure SourceFile (W : Type) where
  handle : PositionedRead W
  entryMetadata : W → Except IoError EntryMetadata × W
  pathFingerprint : W → Except IoError SourceFingerprint × W
  windows : Option (WindowsFile W)
  cloneForQuery : W → Except (String × IoError) Unit × W

/-! ## Workbooks and orders -/

structure XlsxStep where
  consumedBytes : Nat
  discoveredRows : Nat
  status : ScanStepStatus

structure XlsxProgress where
  compressedRead : Nat
  rows : Nat
  complete : Bool

structure XlsxViewport where
  rows : List XlsxRow
  reachedEnd : Bool

structure SheetChoice where
  index : Nat
  name : String
deriving DecidableEq

/-- The workbook reader, as the engine calls it. -/
structure XlsxReader (W X : Type) where
  openXlsx : PositionedRead W → Option Nat → StepPolls → W → Except XlsxError X × W
  step : X → PositionedRead W → Nat → StepPolls → W → Except XlsxError XlsxStep × X × W
  progress : X → XlsxProgress
  readRows : X → PositionedRead W → Nat → Nat → StepPolls → W → Except XlsxError XlsxViewport × W
  sheets : X → List SheetChoice × Nat

structure SortedRecord where
  sourceRow : Nat
  span : RecordSpan
deriving DecidableEq

/-- The answers of a finished sort: the record of a rank and the rank of a row. -/
structure SortedOrder (W : Type) where
  len : Nat
  recordAt : Nat → W → Except Sort.SortError SortedRecord × W
  rankOf : Nat → W → Except Sort.SortError Nat × W

/-! ## The preview of one record -/

section Preview
variable {W : Type} (source : PositionedRead W)

/-- The loop of `RecordPreview::read_at`. -/
def readLoop (polls : Nat → Bool) (start count : Nat) :
    Nat → Nat → List Byte → Exec W ViewportError (List Byte)
  | 0, _, filled => pure filled
  | fuel + 1, pass, filled =>
    if filled.length < count then
      if polls pass then .throw .cancelled
      else do
        let bytes ← source.read .io (start + filled.length) (count - filled.length)
        if bytes.isEmpty then .throw .sourceShrank
        else readLoop polls start count fuel (pass + 1) (filled ++ bytes)
    else pure filled

def RecordPreview.readAt (row : Nat) (span : RecordSpan) (maxBytes : Nat) (polls : StepPolls) :
    Exec W ViewportError RecordPreview :=
  if polls.entry then .throw .cancelled
  else do
    let fingerprint ← source.capture .io
    if fingerprint.size < span.stop then .throw .invalidCheckpoint
    else do
      let count := min span.len maxBytes
      let bytes ← readLoop source polls.feed span.start count count 0 []
      ensureSourceUnchanged source fingerprint
      pure ⟨row, span, bytes, decide (count < span.len)⟩

end Preview

/-! ## The source of a query -/

/-- What a query source changes by itself: its read cache, and that the snapshot is lost. -/
structure QuerySourceCells where
  readCache : QueryReadCache
  integrityFailed : Bool

def QuerySourceCells.new : QuerySourceCells := ⟨.new, false⟩

/-- A positioned source tied to the exact document snapshot retained at open. Its cells travel
with the world. -/
structure DocumentQuerySource (W : Type) where
  source : PositionedRead W
  sourceSnapshot : SourceFingerprint
  windows : Bool

structure DocumentQueryPlan (W : Type) where
  source : DocumentQuerySource W
  format : ViewportFormat

def SourceChange.debug : SourceChange → String
  | .unchanged => "Unchanged"
  | .grew => "Grew"
  | .shrank => "Shrank"
  | .identityChanged => "IdentityChanged"
  | .revisionChanged => "RevisionChanged"
  | .evidenceLost => "EvidenceLost"

namespace DocumentQuerySource

variable {W : Type} (self : DocumentQuerySource W)

def rejectChange (change : SourceChange) (actualSize : Nat) :
    Exec (QuerySourceCells × W) IoError Unit :=
  if change.isChanged then do
    Exec.modify fun cells => { cells with integrityFailed := true }
    Exec.throw (.invalidData ("query source changed (" ++ change.debug ++ ") from " ++
      toString self.sourceSnapshot.size ++ " to " ++ toString actualSize ++ " bytes"))
  else pure ()

/-- The Windows open keeps writers out, so there the captured evidence stands. -/
def verifyHandle : Exec (QuerySourceCells × W) IoError SourceFingerprint := do
  let cells ← Exec.get
  if cells.integrityFailed then
    Exec.throw (.invalidData "query source snapshot integrity was previously lost")
  else if self.windows then pure self.sourceSnapshot
  else do
    let handle ← Exec.inner self.source.fingerprint
    self.rejectChange (self.sourceSnapshot.compare handle) handle.size
    pure handle

/-- Every read goes through the cache. -/
def positionedRead : PositionedRead (QuerySourceCells × W) where
  fingerprint := self.verifyHandle
  readAt p offset len :=
    let r := p.1.readCache.readAt self.source offset len p.2
    (r.1.mapError QueryReadError.toIoError, { p.1 with readCache := r.2.1 }, r.2.2)

end DocumentQuerySource

/-! ## The engine -/

inductive DocumentContent (X : Type) where
  | text (format : DocumentFormat) (scan : ScanSession format.viewportFormat)
  | xlsx (content : X)

structure DocumentEngine (W X : Type) where
  file : SourceFile W
  sourceSnapshot : SourceFingerprint
  windowsSnapshot : FileEvidence
  content : DocumentContent X
  integrityFailed : Bool
  bytesSinceStrongPathCheck : Nat

structure DocumentProgress where
  scannedBytes : Nat
  sourceBytes : Nat
  rowCount : Nat
  complete : Bool
  diagnostic : Option CsvDiagnostic
deriving DecidableEq

structure DocumentScanStep where
  processedBytes : Nat
  discoveredRows : Nat
  status : ScanStepStatus
  progress : DocumentProgress
deriving DecidableEq

def maxScanStepBytes : Nat := 64 * 1024

def maxViewportRows : Nat := 128

def strongPathCheckBytes : Nat := 4 * 1024 * 1024

def viewportLimits : EngineLimits where
  readBufferBytes := readBufferBytes
  maxViewportRecords := maxViewportRows
  maxRecordPreviewBytes := maxRecordPreviewBytes
  maxViewportPayloadBytes := maxViewportRows * maxRecordPreviewBytes
  cancellationCheckBytes := 16 * 1024
  readBufferBytes_pos := by decide
  maxViewportRecords_pos := by decide
  cancellationCheckBytes_pos := by decide

def projectionLimits : FieldProjectionLimits where
  fields := maxProjectedFields
  decodedBytesPerField := maxDecodedBytesPerField
  totalDecodedBytes := maxDecodedBytesPerRow
  fields_pos := by decide

/-- What the token answers during a snapshot. -/
structure SnapshotPolls where
  entry : Bool
  read : ViewportPolls
  sheet : StepPolls
  row : Nat → Bool

def SnapshotPolls.never : SnapshotPolls :=
  ⟨false, .never, ⟨false, fun _ => false⟩, fun _ => false⟩

abbrev EngineM (W X : Type) := Exec (DocumentEngine W X × W) DocumentEngineError

namespace DocumentEngine

variable {W X : Type}

def progress (xlsx : XlsxReader W X) (engine : DocumentEngine W X) : DocumentProgress :=
  match engine.content with
  | .text _ scan =>
    ⟨scan.scannerOffset, scan.snapshot.size, scan.recordCount, scan.isComplete, scan.diagnostic⟩
  | .xlsx content =>
    let progress := xlsx.progress content
    let sourceBytes := engine.sourceSnapshot.size
    ⟨if progress.complete then sourceBytes else min progress.compressedRead sourceBytes,
      sourceBytes, progress.rows, progress.complete, none⟩

/-! ### The check of the source -/

def failIntegrity : EngineM W X Unit :=
  Exec.modify fun engine => { engine with integrityFailed := true }

/-- Evidence that cannot be had counts as lost. -/
def revalidate {α : Type} (operation : String) (call : W → Except IoError α × W) :
    EngineM W X α := fun (engine, w) =>
  match call w with
  | (.ok evidence, w) => (.ok evidence, engine, w)
  | (.error error, w) =>
    (.error (.io operation error), { engine with integrityFailed := true }, w)

def rejectChange (change : SourceChange) (actualSize : Nat) : EngineM W X Unit := do
  let engine ← Exec.get
  if change.isChanged then do
    failIntegrity
    Exec.throw (.sourceChanged change engine.sourceSnapshot.size actualSize)
  else pure ()

def verifyWindowsSource (file : WindowsFile W) (strongPathCheck : Bool) : EngineM W X Unit := do
  let engine ← Exec.get
  let handle ← revalidate "revalidate opened Windows file identity" file.handleEvidence
  rejectChange (engine.windowsSnapshot.compare handle) handle.size
  if strongPathCheck then do
    revalidate "reopen source path for identity validation" file.openPath
    let metadata ← revalidate "inspect reopened source path" file.pathMetadata
    if !metadata.isFile || metadata.isReparse then rejectChange .identityChanged metadata.len
    else do
      let path ← revalidate "capture current Windows path identity" file.pathEvidence
      rejectChange (engine.windowsSnapshot.compare path) path.size
  else pure ()

/-- Only a build for Windows has the evidence. -/
def verifyPlatform (windows : Option (WindowsFile W)) (strongPathCheck : Bool) :
    EngineM W X Unit :=
  match windows with
  | some file => verifyWindowsSource file strongPathCheck
  | none => pure ()

def verifySource (strongPathCheck : Bool) : EngineM W X Unit := do
  let engine ← Exec.get
  if engine.integrityFailed then Exec.throw .sourceIntegrityLost
  else do
    let handle ← revalidate "revalidate opened file fingerprint" engine.file.handle.fingerprint
    rejectChange (engine.sourceSnapshot.compare handle) handle.size
    let entry ← revalidate "revalidate source path entry" engine.file.entryMetadata
    if !entry.isFile || entry.isReparse then rejectChange .identityChanged entry.len
    else do
      verifyPlatform engine.file.windows strongPathCheck
      let path ← revalidate "revalidate source path fingerprint" engine.file.pathFingerprint
      rejectChange (engine.sourceSnapshot.compare path) path.size

def validateQuerySnapshot : EngineM W X Unit := verifySource true

/-! ### Scanning -/

/-- The step of the scan session, with the flag set on the errors that ask for it. -/
def textStep (format : DocumentFormat) (scan : ScanSession format.viewportFormat)
    (polls : StepPolls) : EngineM W X (Nat × Nat × ScanStepStatus) := fun (engine, w) =>
  match scan.step engine.file.handle maxScanStepBytes polls w with
  | (.ok step, scan, w) =>
    (.ok (step.processedBytes, step.discoveredRecords, step.status),
      { engine with content := .text format scan }, w)
  | (.error error, scan, w) =>
    (.error (.scan error),
      { engine with
        content := .text format scan
        integrityFailed := engine.integrityFailed || error.isSourceIntegrityFailure }, w)

/-- The step of the sheet scan, which has no flag to set. -/
def xlsxStep (xlsx : XlsxReader W X) (content : X) (polls : StepPolls) :
    EngineM W X (Nat × Nat × ScanStepStatus) := fun (engine, w) =>
  match xlsx.step content engine.file.handle maxScanStepBytes polls w with
  | (.ok step, content, w) =>
    (.ok (step.consumedBytes, step.discoveredRows, step.status),
      { engine with content := .xlsx content }, w)
  | (.error error, content, w) =>
    (.error (mapXlsxError error), { engine with content := .xlsx content }, w)

def contentStep (xlsx : XlsxReader W X) (content : DocumentContent X) (polls : StepPolls) :
    EngineM W X (Nat × Nat × ScanStepStatus) :=
  match content with
  | .text format scan => textStep format scan polls
  | .xlsx content => xlsxStep xlsx content polls

/-- At most one quantum. The token is asked at the start, and by the scan. -/
def scanStep (xlsx : XlsxReader W X) (entry : Bool) (polls : StepPolls) :
    EngineM W X DocumentScanStep := do
  let engine ← Exec.get
  if entry then pure ⟨0, 0, .cancelled, engine.progress xlsx⟩
  else do
    verifySource false
    let (processedBytes, discoveredRows, status) ← contentStep xlsx engine.content polls
    Exec.modify fun engine => { engine with
      bytesSinceStrongPathCheck :=
        saturatingAdd engine.bytesSinceStrongPathCheck processedBytes }
    let engine ← Exec.get
    let strongPathCheck := decide (strongPathCheckBytes ≤ engine.bytesSinceStrongPathCheck) ||
      status == .complete
    verifySource strongPathCheck
    Exec.modify fun engine => { engine with
      bytesSinceStrongPathCheck :=
        if strongPathCheck then 0 else engine.bytesSinceStrongPathCheck }
    let engine ← Exec.get
    pure ⟨processedBytes, discoveredRows, status, engine.progress xlsx⟩

/-! ### Snapshots -/

section Snapshot
variable (encode : PreviewEncoder) (xlsx : XlsxReader W X)

/-- Builds the rows one by one; the token is asked in front of each. -/
def buildRows {α : Type} (build : α → Except DocumentEngineError UiCachedRow)
    (polls : Nat → Bool) : Nat → List α → Except DocumentEngineError (List UiCachedRow)
  | _, [] => .ok []
  | i, record :: records =>
    if polls i then .error .cancelled
    else do
      let row ← build record
      let rows ← buildRows build polls (i + 1) records
      return row :: rows

def widest (least : Nat) (rows : List UiCachedRow) : Nat :=
  rows.foldl (fun columns row => max columns row.dataColumns) least

def columnKind (format : DocumentFormat) : UiColumnKind :=
  if format.delimitedDialect.isSome then .fields else .preview

def leastColumns (kind : UiColumnKind) : Nat := if kind = .preview then 1 else 0

def xlsxSnapshot (content : X) (firstRow : Nat) (polls : SnapshotPolls) :
    EngineM W X UiRowSnapshot := do
  let engine ← Exec.get
  let viewport ← Exec.inner fun w =>
    let r := xlsx.readRows content engine.file.handle firstRow maxViewportRows polls.sheet w
    (r.1.mapError mapXlsxError, r.2)
  let rows ← Exec.ofExcept
    (buildRows (fun row => .ok (buildXlsxRow encode row)) polls.row 0 viewport.rows)
  let columns ← Exec.ofExcept (UiColumnLayout.new .cells (widest 0 rows))
  pure ⟨firstRow, rows, columns, viewport.reachedEnd, none⟩

/-- `read_viewport`, with the flag set when it reports a changed or a shorter source. -/
def textViewport (format : DocumentFormat) (scan : ScanSession format.viewportFormat)
    (firstRow : Nat) (polls : ViewportPolls) : EngineM W X Viewport := fun (engine, w) =>
  match readViewport engine.file.handle format.viewportFormat scan.index.nearest firstRow
      viewportLimits polls w with
  | (.ok viewport, w) => (.ok viewport, engine, w)
  | (.error error, w) =>
    let lost := match error with
      | .sourceShrank | .sourceChanged .. => true
      | _ => false
    (.error (mapViewportError error),
      { engine with integrityFailed := engine.integrityFailed || lost }, w)

def snapshot (firstRow : Nat) (polls : SnapshotPolls) : EngineM W X UiRowSnapshot :=
  if polls.entry then Exec.throw .cancelled
  else do
    verifySource true
    let engine ← Exec.get
    match engine.content with
    | .xlsx content => do
      let snapshot ← xlsxSnapshot encode xlsx content firstRow polls
      verifySource true
      pure snapshot
    | .text format scan => do
      let viewport ← textViewport format scan firstRow polls.read
      verifySource true
      let kind := columnKind format
      let rows ← Exec.ofExcept (buildRows
        (fun record => buildCachedRow encode record format projectionLimits) polls.row 0
        viewport.records)
      let columns ← Exec.ofExcept (UiColumnLayout.new kind (widest (leastColumns kind) rows))
      pure ⟨firstRow, rows, columns, viewport.reachedEof, viewport.csvDiagnostic⟩

/-! ### The rows of an order -/

/-- The row of one rank: the record of the order, read where the record says it is. What
goes wrong here does not touch the flag. -/
def orderedRow (order : SortedOrder W) (format : DocumentFormat) (rank : Nat)
    (polls : StepPolls) : EngineM W X UiCachedRow := do
  let engine ← Exec.get
  let descriptor ← Exec.inner fun w =>
    let r := order.recordAt rank w
    (r.1.mapError DocumentEngineError.order, r.2)
  let record ← Exec.inner fun w =>
    let r := RecordPreview.readAt engine.file.handle descriptor.sourceRow descriptor.span
      maxRecordPreviewBytes polls w
    (r.1.mapError mapViewportError, r.2)
  let row ← Exec.ofExcept (buildCachedRow encode record format projectionLimits)
  pure { row with displayRank := rank }

def orderedRows (order : SortedOrder W) (format : DocumentFormat) (firstRow : Nat)
    (polls : Nat → StepPolls) : Nat → Nat → EngineM W X (List UiCachedRow)
  | 0, _ => pure []
  | count + 1, index => do
    let row ← orderedRow encode order format (firstRow + index) (polls index)
    let rows ← orderedRows order format firstRow polls count (index + 1)
    pure (row :: rows)

def snapshotOrdered (order : SortedOrder W) (firstRow : Nat) (polls : Nat → StepPolls) :
    EngineM W X UiRowSnapshot := do
  let engine ← Exec.get
  match engine.content with
  | .xlsx _ => Exec.throw .sortUnavailable
  | .text format scan => do
    verifySource true
    let count := min (order.len - firstRow) maxViewportRows
    let kind := columnKind format
    let rows ← orderedRows encode order format firstRow polls count 0
    verifySource true
    let columns ← Exec.ofExcept (UiColumnLayout.new kind (widest (leastColumns kind) rows))
    pure ⟨firstRow, rows, columns, decide (order.len ≤ saturatingAdd firstRow count),
      scan.diagnostic⟩

end Snapshot

/-! ### Plans for a query and a sort -/

/-- The plan is made from the snapshot that the engine holds. -/
def queryPlan : EngineM W X (DocumentQueryPlan W) := do
  let engine ← Exec.get
  match engine.content with
  | .xlsx _ => Exec.throw .findUnavailable
  | .text format _ => do
    verifySource true
    Exec.inner fun w =>
      let r := engine.file.cloneForQuery w
      (r.1.mapError fun failure => .io failure.1 failure.2, r.2)
    verifySource true
    pure ⟨⟨engine.file.handle, engine.sourceSnapshot, engine.file.windows.isSome⟩,
      format.viewportFormat⟩

def sortPlan : EngineM W X (DocumentQueryPlan W) := do
  let engine ← Exec.get
  match engine.content with
  | .xlsx _ => Exec.throw .sortUnavailable
  | .text .. => queryPlan

/-! ### Opening -/

inductive DocumentKind where
  | text (format : DocumentFormat)
  | xlsx

/-- What the token answers while a document is opened. -/
structure OpenPolls where
  workbook : StepPolls
  snapshot : SnapshotPolls

def scanConfig : ScanSessionConfig := ⟨4096, 1024, readBufferBytes, 16 * 1024⟩

/-- Only Windows has the evidence; elsewhere nothing looks at what stands for it. -/
def captureEvidence (file : SourceFile W) : Exec W DocumentEngineError FileEvidence :=
  match file.windows with
  | some windows => fun w =>
    let r := windows.handleEvidence w
    (r.1.mapError (.io "capture opened Windows file identity"), r.2)
  | none => pure ⟨0, 0, 0, 0, 0, 0, 0⟩

def openContent (xlsx : XlsxReader W X) (kind : DocumentKind) (file : SourceFile W)
    (sheet : Option Nat) (polls : StepPolls) : Exec W DocumentEngineError (DocumentContent X) :=
  match kind with
  | .text format => fun w =>
    let r := ScanSession.new file.handle format.viewportFormat scanConfig w
    ((r.1.mapError .scan).map (.text format), r.2)
  | .xlsx => fun w =>
    let r := xlsx.openXlsx file.handle sheet polls w
    ((r.1.mapError mapXlsxError).map .xlsx, r.2)

/-- The document on an opened file, with its first rows. -/
def openSheet (encode : PreviewEncoder) (xlsx : XlsxReader W X) (kind : DocumentKind)
    (file : SourceFile W) (sheet : Option Nat) (polls : OpenPolls) :
    Exec W DocumentEngineError (DocumentEngine W X × UiRowSnapshot) := do
  let windowsSnapshot ← captureEvidence file
  let sourceSnapshot ← file.handle.capture (.io "capture opened file fingerprint")
  let content ← openContent xlsx kind file sheet polls.workbook
  fun w =>
    let r := snapshot encode xlsx 0 polls.snapshot
      (⟨file, sourceSnapshot, windowsSnapshot, content, false, 0⟩, w)
    (r.1.map fun first => (r.2.1, first), r.2.2)

end DocumentEngine

end LeanRows
