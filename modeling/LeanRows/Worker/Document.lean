import LeanRows.Worker.Calls

/-!
# The active document

What the worker keeps of the open document: the engine, the row cache, the running query
and sort. The functions here are the parts of the worker's code that touch nothing shared.
The query and the sort sessions come as services, like the workbook reader of the engine.
-/

namespace LeanRows.Worker

set_option autoImplicit false

/-! ## Services -/

/-- A query session, as the worker calls it, on the source of the engine's plan. Errors come as
their texts. -/
structure QueryService (W Q : Type) where
  start : DocumentQuerySource W → ViewportFormat → List Byte → LiteralMatchMode → W →
    Except String Q × W
  advance : Q → Nat → (Nat → StepPolls) → W → Except String QueryStepStatus × Q × W
  progress : Q → QueryProgress
  status : Q → QueryStepStatus
  hitCount : Q → Nat
  readHit : Q → Nat → W → Except String (Option QueryHit) × Q × W
  previousHitIndex : Q → Option Nat → Option Nat

structure SortStep where
  phase : SortPhase
  scannedBytes : Nat

/-- A sort session, as the worker calls it. Memory for its source is reserved first; its start
includes the folder and the check of the space on disk. -/
structure SortService (W Z : Type) where
  reserve : W → Except String Unit × W
  start : Sort.SortRequest → DocumentQuerySource W → ViewportFormat → DocumentProgress → W →
    Except String Z × W
  advance : Z → StepPolls → W → Except String SortStep × Z × W
  intoOrder : Z → W → Except String (SortedOrder W) × W

/-- What the worker calls: the file of a path, the readers, and the texts of errors. -/
structure Services (W X Q Z : Type) where
  openFile : String → W →
    Except DocumentEngineError (DocumentEngine.DocumentKind × SourceFile W) × W
  encode : PreviewEncoder
  xlsx : XlsxReader W X
  query : QueryService W Q
  sort : SortService W Z
  describe : DocumentEngineError → String
  describeSort : Sort.SortError → String

/-! ## The row cache -/

structure CacheState where
  cache : ImmutableRowCache
  firstRow : Nat
  rowCount : Nat
  columns : UiColumnLayout
  sourceTruncatedRows : Nat
  displayTruncatedRows : Nat
  escapedNonUtf8Rows : Nat
deriving DecidableEq

inductive CacheConversionError where
  | invalidUtf16Cell
  | inconsistentColumns
  | tooManyRows
deriving DecidableEq

def conversionFailed : String := "bounded UTF-16 row cache conversion failed"

def u32Bound : Nat := 2 ^ 32

/-- A terminator at the end and none before it. -/
def isNulTerminated (cell : Utf16Cell) : Bool :=
  cell.getLast? == some 0 && !cell.dropLast.contains 0

def convertRow (columns : UiColumnLayout) (row : UiCachedRow) :
    Except CacheConversionError CachedRow :=
  if !row.cells.all isNulTerminated then .error .invalidUtf16Cell
  else if columns.dataColumns < row.cells.length - 1 then .error .inconsistentColumns
  else if columns.kind = .preview ∧ row.cells.length < 2 then .error .inconsistentColumns
  else .ok ⟨row.displayRank, row.absoluteRow, row.cells⟩

/-- How many rows have the flag, in 32 bits. -/
def countRows (flag : UiCachedRow → Bool) (rows : List UiCachedRow) : Nat :=
  min (rows.countP flag) (u32Bound - 1)

def convertCache (snapshot : UiRowSnapshot) : Except CacheConversionError CacheState :=
  if u32Bound ≤ snapshot.rows.length then .error .tooManyRows
  else do
    let rows ← snapshot.rows.mapM (convertRow snapshot.columns)
    return {
      cache := .new rows
      firstRow := snapshot.firstRow
      rowCount := snapshot.rows.length
      columns := snapshot.columns
      sourceTruncatedRows := countRows UiCachedRow.sourceTruncated snapshot.rows
      displayTruncatedRows := countRows UiCachedRow.displayTruncated snapshot.rows
      escapedNonUtf8Rows := countRows UiCachedRow.escapedNonUtf8 snapshot.rows }

/-! ## The document -/

structure ActiveQuery (Q : Type) where
  serial : Nat
  generation : CancellationGeneration
  session : Option Q
  demandHit : Option Nat
  unreportedBytes : Nat
  state : WorkerQueryState

structure ActiveSort (Z : Type) where
  serial : Nat
  request : Sort.SortRequest
  generation : CancellationGeneration
  session : Option Z
  permit : Bool
  checkedSteps : Nat

structure ActiveDocument (W X Q Z : Type) where
  order : Option (SortedOrder W)
  sort : Option (ActiveSort Z)
  sortState : Option WorkerSortState
  revealRank : Option Nat
  path : String
  serial : Nat
  engine : DocumentEngine W X
  cache : CacheState
  scanComplete : Bool
  unreportedBytes : Nat
  query : Option (ActiveQuery Q)
  sheets : Option WorkerSheets

/-! ### Messages -/

/-- The longest front whose characters fit. -/
def takeBytes : Nat → List Char → List Char
  | _, [] => []
  | room, c :: cs => if c.utf8Size ≤ room then c :: takeBytes (room - c.utf8Size) cs else []

def boundedQueryMessage (message : String) : String :=
  if message.utf8ByteSize ≤ maxQueryMessageBytes then message
  else String.ofList (takeBytes maxQueryMessageBytes message.toList)

/-! ### Queries -/

namespace ActiveQuery

variable {W Q : Type} (service : QueryService W Q)

def withSession (query : ActiveQuery Q) (session : Q) : ActiveQuery Q :=
  { query with session := some session }

def updateProgress (query : ActiveQuery Q) : ActiveQuery Q :=
  match query.session with
  | none => query
  | some session =>
    let progress := service.progress session
    { query with
      state := { query.state with
        scannedBytes := progress.scannedBytes
        sourceBytes := progress.sourceBytes
        storedHits := progress.storedHits } }

def setComplete (query : ActiveQuery Q) : ActiveQuery Q :=
  { query with
    demandHit := none
    state := { query.state with
      phase := .complete
      message := boundedQueryMessage (
        if query.state.storedHits = 0 then "No matches found."
        else "No more matches. Use Previous to revisit stored results.") } }

def setQuotaExceeded (query : ActiveQuery Q) (details : QueryQuotaExceeded) : ActiveQuery Q :=
  { query with
    demandHit := none
    state := { query.state with
      phase := .quotaExceeded
      message := boundedQueryMessage (
        "Search reached its " ++ toString details.quotaBytes ++
          "-byte hit-cache limit. Use a more specific search.") } }

def fail (query : ActiveQuery Q) (message : String) : ActiveQuery Q :=
  { query with
    demandHit := none
    session := none
    state := { query.state with phase := .failed, message := boundedQueryMessage message } }

/-- What a hit that has been read makes of the query. -/
def activate (query : ActiveQuery Q) (index : Nat) (hit : QueryHit) : ActiveQuery Q :=
  let query := query.updateProgress service
  { query with
    demandHit := none
    unreportedBytes := 0
    state := { query.state with
      phase := .matchReady
      activeHitIndex := some index
      activeRow := some hit.row
      message := boundedQueryMessage (
        "Match " ++ toString (saturatingAdd index 1) ++ " (" ++
          toString query.state.storedHits ++ " stored).") } }

/-- A query that could not be started. -/
def failed (querySerial : Nat) (generation : CancellationGeneration) (sourceBytes : Nat)
    (message : String) : ActiveQuery Q :=
  ⟨querySerial, generation, none, none, 0,
    ⟨querySerial, .failed, 0, sourceBytes, 0, none, none, boundedQueryMessage message⟩⟩

/-- A query as it starts. -/
def started (querySerial : Nat) (generation : CancellationGeneration) (session : Q) :
    ActiveQuery Q :=
  let progress := service.progress session
  ⟨querySerial, generation, some session, some 0, 0,
    ⟨querySerial, .searching, progress.scannedBytes, progress.sourceBytes, progress.storedHits,
      none, none, boundedQueryMessage "Searching this document..."⟩⟩

def scratchCorrupt : String := "query scratch data is corrupt"

/-- Reads the hit with the session and makes it the active one. -/
def activateHit (query : ActiveQuery Q) (index : Nat) (w : W) :
    Except String Unit × ActiveQuery Q × W :=
  match query.session with
  | none => (.error scratchCorrupt, query, w)
  | some session =>
    match service.readHit session index w with
    | (.error error, session, w) => (.error error, query.withSession session, w)
    | (.ok none, session, w) => (.error scratchCorrupt, query.withSession session, w)
    | (.ok (some hit), session, w) =>
      (.ok (), (query.withSession session).activate service index hit, w)

def navigateToPreviousHit (query : ActiveQuery Q) (w : W) :
    Except String Unit × ActiveQuery Q × W :=
  match query.session with
  | none => (.ok (), query, w)
  | some session =>
    let query := query.updateProgress service
    match service.previousHitIndex session query.state.activeHitIndex with
    | some previous => query.activateHit service previous w
    | none =>
      if query.state.activeHitIndex.isSome then
        (.ok (), { query with
          state := { query.state with
            phase := .matchReady
            message := boundedQueryMessage "Already at the first match." } }, w)
      else
        (.ok (), { query with
          state := { query.state with
            phase := .complete
            message := boundedQueryMessage "No previous match is stored." } }, w)

def navigateToNextHit (query : ActiveQuery Q) (w : W) :
    Except String Unit × ActiveQuery Q × W :=
  match query.session with
  | none => (.ok (), query, w)
  | some session =>
    let query := query.updateProgress service
    let target := (query.state.activeHitIndex.bind fun index => checkedAdd index 1).getD 0
    if target < service.hitCount session then query.activateHit service target w
    else
      match service.status session with
      | .running | .cancelled =>
        (.ok (), { query with
          demandHit := some target
          state := { query.state with
            phase := .searching
            message := boundedQueryMessage "Searching for the next match..." } }, w)
      | .complete => (.ok (), query.setComplete, w)
      | .quotaExceeded details => (.ok (), query.setQuotaExceeded details, w)

/-- One navigation; the demand of an earlier one is dropped. -/
def navigate (query : ActiveQuery Q) (direction : QueryDirection)
    (generation : CancellationGeneration) (w : W) : ActiveQuery Q × W :=
  let query := { query with generation := generation, demandHit := none, unreportedBytes := 0 }
  let r := match direction with
    | .previous => query.navigateToPreviousHit service w
    | .next => query.navigateToNextHit service w
  match r with
  | (.ok (), query, w) => (query, w)
  | (.error error, query, w) => (query.fail ("Search navigation failed: " ++ error), w)

def progressEventBytes : Nat := 4 * 1024 * 1024

/-- What the answer of a session makes of the query when the source is as it was, and
whether there is something to report. -/
def advanced (query : ActiveQuery Q) (target before : Nat)
    (outcome : Except String QueryStepStatus) (w : W) : Bool × ActiveQuery Q × W :=
  match outcome with
  | .error error =>
    (true, query.fail ("Search failed: " ++ error ++ ". Reopen the file and try again."), w)
  | .ok status =>
    let query := query.updateProgress service
    let query := { query with
      unreportedBytes :=
        saturatingAdd query.unreportedBytes (query.state.scannedBytes - before) }
    if target < query.state.storedHits then
      match query.activateHit service target w with
      | (.ok (), query, w) => (true, query, w)
      | (.error error, query, w) =>
        (true, query.fail ("Search result could not be read: " ++ error), w)
    else
      match status with
      | .running =>
        if progressEventBytes ≤ query.unreportedBytes then
          (true, { query with unreportedBytes := 0 }, w)
        else (false, query, w)
      | .cancelled => (false, query, w)
      | .complete => (true, query.setComplete, w)
      | .quotaExceeded details => (true, query.setQuotaExceeded details, w)

end ActiveQuery

/-! ### Documents -/

namespace ActiveDocument

variable {W X Q Z : Type}

def currentPhase (document : ActiveDocument W X Q Z) : WorkerPhase :=
  if document.scanComplete then .complete else .scanning

def sortFailed (document : ActiveDocument W X Q Z) (message : String) :
    ActiveDocument W X Q Z :=
  { document with
    sort := none
    sortState := document.sortState.map fun state =>
      { state with phase := .cancelled, error := some (boundedQueryMessage message) } }

def committed (document : ActiveDocument W X Q Z) : Option Sort.SortRequest :=
  document.sortState.bind WorkerSortState.committed

end ActiveDocument

def workerProgress (progress : DocumentProgress) (cache : CacheState) : WorkerProgress where
  scannedBytes := progress.scannedBytes
  sourceBytes := progress.sourceBytes
  indexedRows := progress.rowCount
  availableRows := max progress.rowCount (saturatingAdd cache.firstRow cache.rowCount)
  complete := progress.complete

section Event
variable {W X Q Z : Type} (services : Services W X Q Z)

/-- The event of a document. `rank` is where the active match is shown, or why that could not
be found out. -/
def activeEvent (document : ActiveDocument W X Q Z) (phase : WorkerPhase)
    (failure : Option String) (rank : Except String (Option Nat)) : WorkerEvent :=
  let progress := workerProgress (document.engine.progress services.xlsx) document.cache
  let progress := match document.order with
    | some order => { progress with availableRows := order.len }
    | none => progress
  let result := match rank with
    | .error message => .failed message
    | .ok _ =>
      match failure with
      | some message => .failed message
      | none => .ready progress.sourceBytes
  { path := document.path
    result := result
    serial := document.serial
    cache := document.cache.cache
    cacheFirstRow := document.cache.firstRow
    cachedRows := document.cache.rowCount
    columns := some document.cache.columns
    progress := progress
    phase := if result.isReady then phase else .failed
    sourceTruncatedRows := document.cache.sourceTruncatedRows
    displayTruncatedRows := document.cache.displayTruncatedRows
    escapedNonUtf8Rows := document.cache.escapedNonUtf8Rows
    query := document.query.map ActiveQuery.state
    sheets := document.sheets
    sort := document.sortState
    revealRank := document.revealRank
    queryRank := rank.toOption.join }

def failedOpenEvent (path : String) (serial : Nat) (message : String) : WorkerEvent where
  path := path
  result := .failed message
  serial := serial
  cache := []
  cacheFirstRow := 0
  cachedRows := 0
  columns := none
  progress := ⟨0, 0, 0, 0, false⟩
  phase := .failed
  sourceTruncatedRows := 0
  displayTruncatedRows := 0
  escapedNonUtf8Rows := 0
  query := none
  sheets := none
  sort := none
  revealRank := none
  queryRank := none

end Event

end LeanRows.Worker
