import LeanRows.Worker.Document

/-!
# The loop of the worker

One pass serves at most one command: an open first, then a viewport, a query and a sort. With
none of them it goes on with the sort, the query or the scan of the document, and sleeps when
nothing of them is left. Every access to what is shared is an action of its own; what the tokens
answer while the worker reads, and when a sort is reported, is a choice.
-/

namespace LeanRows.Worker

set_option autoImplicit false

/-- What is not for the worker to decide. -/
structure Choice where
  opening : DocumentEngine.OpenPolls
  snapshot : SnapshotPolls
  rows : Nat → StepPolls
  entry : Bool
  step : StepPolls
  query : Nat → StepPolls
  permit : Bool
  elapsed : Bool

abbrev WorkerM (W : Type) := Prog (System W) Choice

/-! ## Accesses -/

section Access
variable {W α : Type}

def onShared (f : Shared W → α × Shared W) : WorkerM W α :=
  Prog.atomic fun s => ((f s.shared).1, { s with shared := (f s.shared).2 })

def load (f : Shared W → α) : WorkerM W α := onShared fun shared => (f shared, shared)

def store (f : Shared W → Shared W) : WorkerM W Unit := onShared fun shared => ((), f shared)

/-- A call that touches only what is outside of the program. -/
def onWorld (f : Choice → W → α × W) : WorkerM W α :=
  Prog.choose fun c s => ((f c s.shared.world).1,
    { s with shared := { s.shared with world := (f c s.shared.world).2 } })

def ask (f : Choice → α) : WorkerM W α := Prog.choose fun c s => (f c, s)

def takeSignals : WorkerM W Unit :=
  store fun shared => { shared with signals := shared.signals.tryTake }

def takeOpens : WorkerM W (Option OpenCommand) :=
  onShared fun shared => (shared.opens.pending, { shared with opens := shared.opens.tryTake })

def takeViewports : WorkerM W (Option ViewportCommand) := onShared fun shared =>
  (shared.viewports.pending, { shared with viewports := shared.viewports.tryTake })

def takeQueries : WorkerM W (Option QueryCommand) := onShared fun shared =>
  (shared.queries.pending, { shared with queries := shared.queries.tryTake })

def takeSorts : WorkerM W (Option SortCommand) :=
  onShared fun shared => (shared.sorts.pending, { shared with sorts := shared.sorts.tryTake })

def storeActiveSerial (serial : Nat) : WorkerM W Unit :=
  store fun shared => { shared with activeSerial := serial }

/-- The query of the user is no longer the latest one. -/
def withdrawQuery : WorkerM W Unit := do
  storeActiveSerial 0
  store fun shared => { shared with queryCancellation := cancel shared.queryCancellation }
  store fun shared => { shared with latestQuerySerial := 0 }
  let _ ← takeQueries
  pure ()

/-- Whether `serial` is still this tab's newest sort request, and is not cancelled. -/
def sortCurrent (serial : Nat) (generation : CancellationGeneration) : WorkerM W Bool := do
  let latest ← load Shared.latestSortSerial
  if latest = serial then do
    let token ← load Shared.sortCancellation
    pure (token == generation)
  else pure false

/-! ## Events -/

/-- False where nobody takes events any more. -/
def emitEvent (event : WorkerEvent) : WorkerM W Bool := do
  let latest ← load Shared.latestSerial
  if latest = event.serial then
    onShared fun shared =>
      (!shared.events.closed, { shared with events := shared.events.send event })
  else pure true

def emitFailedOpen (path : String) (serial : Nat) (message : String) : WorkerM W Bool := do
  withdrawQuery
  emitEvent (failedOpenEvent path serial message)

end Access

section Loop
variable {W X Q Z : Type} (services : Services W X Q Z)

/-- The rank of a row in the order that is shown. -/
def rankOf (document : ActiveDocument W X Q Z) (row : Nat) : WorkerM W (Except String Nat) :=
  match document.order with
  | none => pure (.ok row)
  | some order => onWorld fun _ w =>
    ((order.rankOf row w).1.mapError services.describeSort, (order.rankOf row w).2)

def queryRank (document : ActiveDocument W X Q Z) : WorkerM W (Except String (Option Nat)) :=
  match document.query.bind fun query => query.state.activeRow with
  | none => pure (.ok none)
  | some row => do
    let rank ← rankOf services document row
    pure (rank.map some)

def emitActive (document : ActiveDocument W X Q Z) (phase : WorkerPhase)
    (failure : Option String) : WorkerM W Bool := do
  let rank ← queryRank services document
  emitEvent (activeEvent services document phase failure rank)

/-! ## Opening -/

def openSheet (command : OpenCommand) (polls : DocumentEngine.OpenPolls) :
    Exec W DocumentEngineError (DocumentEngine W X × UiRowSnapshot) := do
  let (kind, file) ← services.openFile command.path
  DocumentEngine.openSheet services.encode services.xlsx kind file command.sheet polls

def documentSheets (engine : DocumentEngine W X) : Option WorkerSheets :=
  match engine.content with
  | .text .. => none
  | .xlsx content => some ⟨(services.xlsx.sheets content).1, (services.xlsx.sheets content).2⟩

def newDocument (command : OpenCommand) (engine : DocumentEngine W X) (cache : CacheState) :
    ActiveDocument W X Q Z where
  order := none
  sort := none
  sortState := none
  revealRank := none
  path := command.path
  serial := command.serial
  engine := engine
  cache := cache
  scanComplete := (engine.progress services.xlsx).complete
  unreportedBytes := 0
  query := none
  sheets := documentSheets services engine

/-- The document before is gone in any case. -/
def replaceDocument (command : OpenCommand) :
    WorkerM W (Bool × Option (ActiveDocument W X Q Z)) := do
  let opened ← onWorld fun c w => openSheet services command c.opening w
  match opened with
  | .error .cancelled => pure (true, none)
  | .error error => do
    let sent ← emitFailedOpen command.path command.serial (services.describe error)
    pure (sent, none)
  | .ok (engine, first) =>
    match convertCache first with
    | .error _ => do
      let sent ← emitFailedOpen command.path command.serial conversionFailed
      pure (sent, none)
    | .ok cache => do
      storeActiveSerial command.serial
      let document := newDocument services command engine cache
      let sent ← emitActive services document .viewportReady none
      pure (sent, some document)

/-! ## Calls to the engine -/

def onEngine {α : Type} (document : ActiveDocument W X Q Z) (x : Choice → EngineM W X α) :
    WorkerM W (Except DocumentEngineError α × ActiveDocument W X Q Z) :=
  onWorld fun c w =>
    (((x c (document.engine, w)).1, { document with engine := (x c (document.engine, w)).2.1 }),
      (x c (document.engine, w)).2.2)

def readRows (order : Option (SortedOrder W)) (document : ActiveDocument W X Q Z) (firstRow : Nat) :
    WorkerM W (Except DocumentEngineError UiRowSnapshot × ActiveDocument W X Q Z) :=
  onEngine document fun c =>
    match order with
    | some order => DocumentEngine.snapshotOrdered services.encode order firstRow c.rows
    | none => DocumentEngine.snapshot services.encode services.xlsx firstRow c.snapshot

def validateSource (document : ActiveDocument W X Q Z) :
    WorkerM W (Except DocumentEngineError Unit × ActiveDocument W X Q Z) :=
  onEngine document fun _ => DocumentEngine.validateQuerySnapshot

def invalidateQuery (document : ActiveDocument W X Q Z) : WorkerM W (ActiveDocument W X Q Z) := do
  withdrawQuery
  pure { document with query := none }

/-- A failure that ends the query, too. -/
def failDocument (document : ActiveDocument W X Q Z) (message : String) :
    WorkerM W (Bool × ActiveDocument W X Q Z) := do
  let document ← invalidateQuery document
  let sent ← emitActive services document .failed (some message)
  pure (sent, document)

/-! ## Viewports -/

/-- The rows of a snapshot for the cache; its columns only grow. -/
def ActiveDocument.nextCache (document : ActiveDocument W X Q Z) (snapshot : UiRowSnapshot) :
    Option CacheState :=
  match convertCache snapshot with
  | .error _ => none
  | .ok cache => (document.cache.columns.grow cache.columns).map fun columns =>
    { cache with columns := columns }

def showRows (document : ActiveDocument W X Q Z) (firstRow : Nat) :
    WorkerM W (Bool × ActiveDocument W X Q Z) := do
  let (read, document) ← readRows services document.order document firstRow
  match read with
  | .error .cancelled => pure (true, document)
  | .error error => failDocument services document (services.describe error)
  | .ok snapshot =>
    match document.nextCache snapshot with
    | none => failDocument services document conversionFailed
    | some cache => do
      let document := { document with cache := cache }
      let sent ← emitActive services document .viewportReady none
      pure (sent, { document with revealRank := none })

def revealRow (document : ActiveDocument W X Q Z) (row : Nat) :
    WorkerM W (Bool × ActiveDocument W X Q Z) := do
  let rank ← rankOf services document row
  match rank with
  | .error message => do
    let sent ← emitActive services document .failed (some message)
    pure (sent, document)
  | .ok rank => showRows services { document with revealRank := some rank } rank

def applyViewportRequest (document : ActiveDocument W X Q Z) (request : ViewportCommand) :
    WorkerM W (Bool × ActiveDocument W X Q Z) := do
  let latest ← load Shared.latestSerial
  if document.serial = request.serial ∧ latest = request.serial then
    let document := { document with revealRank := none }
    if request.sourceRow then revealRow services document request.firstRow
    else showRows services document request.firstRow
  else pure (true, document)

/-! ## Queries -/

def queryReadBytes : Nat := 64 * 1024

/-- The document and the query that a query command is for are the latest ones. -/
def queryCurrent (document : ActiveDocument W X Q Z) (documentSerial querySerial : Nat) :
    WorkerM W Bool := do
  let latest ← load Shared.latestSerial
  if document.serial = documentSerial ∧ latest = documentSerial then do
    let latestQuery ← load Shared.latestQuerySerial
    pure (latestQuery == querySerial)
  else pure false

def startSession (document : ActiveDocument W X Q Z) (needle : List Byte)
    (mode : LiteralMatchMode) : WorkerM W (Except String Q × ActiveDocument W X Q Z) := do
  let (plan, document) ← onEngine document fun _ => DocumentEngine.queryPlan
  match plan with
  | .error error => pure (.error (services.describe error), document)
  | .ok plan => do
    let session ← onWorld fun _ w => services.query.start plan.source plan.format needle mode w
    pure (session, document)

def emitProgress (document : ActiveDocument W X Q Z) : WorkerM W Bool :=
  emitActive services document document.currentPhase none

def startDocumentQuery (document : ActiveDocument W X Q Z) (documentSerial querySerial : Nat)
    (needle : List Byte) (mode : LiteralMatchMode) (generation : CancellationGeneration) :
    WorkerM W (Bool × ActiveDocument W X Q Z) := do
  let current ← queryCurrent document documentSerial querySerial
  if current then do
    let (session, document) ← startSession services { document with query := none } needle mode
    let query := match session with
      | .ok session => ActiveQuery.started services.query querySerial generation session
      | .error error => ActiveQuery.failed querySerial generation
          (document.engine.progress services.xlsx).sourceBytes
          ("Search could not start: " ++ error)
    let document := { document with query := some query }
    let sent ← emitProgress services document
    pure (sent, document)
  else pure (true, document)

def navigateDocumentQuery (document : ActiveDocument W X Q Z) (documentSerial querySerial : Nat)
    (direction : QueryDirection) (generation : CancellationGeneration) :
    WorkerM W (Bool × ActiveDocument W X Q Z) := do
  let current ← queryCurrent document documentSerial querySerial
  if current then
    match document.query.filter (·.serial == querySerial) with
    | none => pure (true, document)
    | some query => do
      let query ← onWorld fun _ w => query.navigate services.query direction generation w
      let document := { document with query := some query }
      let sent ← emitProgress services document
      pure (sent, document)
  else pure (true, document)

def applyQueryCommand (document : ActiveDocument W X Q Z) :
    QueryCommand → WorkerM W (Bool × ActiveDocument W X Q Z)
  | .start documentSerial querySerial needle mode generation =>
    startDocumentQuery services document documentSerial querySerial needle mode generation
  | .navigate documentSerial querySerial direction generation =>
    navigateDocumentQuery services document documentSerial querySerial direction generation

/-- What a step of the session makes of the query, and whether it is reported. -/
def judgeQuery (query : ActiveQuery Q) (target before : Nat)
    (outcome : Except String QueryStepStatus) (valid : Except DocumentEngineError Unit) :
    WorkerM W (Bool × ActiveQuery Q) :=
  match valid with
  | .error error => do
    storeActiveSerial 0
    pure (true, query.fail
      ("Search stopped because the source changed: " ++ services.describe error))
  | .ok () => onWorld fun _ w =>
    (((query.advanced services.query target before outcome w).1,
        (query.advanced services.query target before outcome w).2.1),
      (query.advanced services.query target before outcome w).2.2)

def stepQuery (document : ActiveDocument W X Q Z) (query : ActiveQuery Q) (target : Nat)
    (session : Q) : WorkerM W (Bool × ActiveDocument W X Q Z) := do
  let before := (services.query.progress session).scannedBytes
  let (outcome, session) ← onWorld fun c w =>
    (((services.query.advance session queryReadBytes c.query w).1,
        (services.query.advance session queryReadBytes c.query w).2.1),
      (services.query.advance session queryReadBytes c.query w).2.2)
  let (valid, document) ← validateSource document
  let (reported, query) ← judgeQuery services (query.withSession session) target before outcome
    valid
  let document := { document with query := some query }
  if reported then do
    let sent ← emitProgress services document
    pure (sent, document)
  else pure (true, document)

def advanceQueryOnce (document : ActiveDocument W X Q Z) :
    WorkerM W (Bool × ActiveDocument W X Q Z) :=
  match document.query with
  | none => pure (true, document)
  | some query =>
    match query.demandHit, query.session with
    | some target, some session => stepQuery services document query target session
    | _, _ => pure (true, document)

/-! ## Sorts -/

def restoreFailed : String := "restore source rows: " ++ conversionFailed

/-- The state of a sort that has just been asked for. -/
def ActiveDocument.sortAsked (document : ActiveDocument W X Q Z) (command : SortCommand) :
    ActiveDocument W X Q Z :=
  { document with
    sort := none
    revealRank := none
    sortState := some {
      serial := command.serial
      request := command.request
      committed := document.committed
      phase := .extracting
      scannedBytes := 0
      sourceBytes := (document.engine.progress services.xlsx).sourceBytes
      error := none } }

/-- The order is installed with its rows and its description. -/
def ActiveDocument.install (document : ActiveDocument W X Q Z) (order : Option (SortedOrder W))
    (cache : CacheState) (committed : Option Sort.SortRequest) : ActiveDocument W X Q Z :=
  { document with
    cache := cache
    order := order
    sortState := document.sortState.map fun state =>
      { state with phase := .complete, committed := committed } }

def restoreSource (document : ActiveDocument W X Q Z) : WorkerM W (ActiveDocument W X Q Z) := do
  let (read, document) ← readRows services none document 0
  match read with
  | .error error => pure (document.sortFailed (services.describe error))
  | .ok snapshot =>
    match convertCache snapshot with
    | .error _ => pure (document.sortFailed restoreFailed)
    | .ok cache =>
      let columns := (document.cache.columns.grow cache.columns).getD cache.columns
      pure (document.install none { cache with columns := columns } none)

def beginSort (document : ActiveDocument W X Q Z) (command : SortCommand) :
    WorkerM W (ActiveDocument W X Q Z) :=
  match command.request with
  | some request => pure { document with
      sort := some ⟨command.serial, request, command.generation, none, false, 0⟩ }
  | none => restoreSource services document

def startSort (document : ActiveDocument W X Q Z) (command : SortCommand) :
    WorkerM W (ActiveDocument W X Q Z) := do
  let latest ← load Shared.latestSortSerial
  if command.documentSerial = document.serial ∧ command.serial = latest then do
    let document ← beginSort services (document.sortAsked services command) command
    let _ ← emitProgress services document
    pure document
  else pure document

def endSort (document : ActiveDocument W X Q Z) : WorkerM W (ActiveDocument W X Q Z) := do
  let _ ← emitProgress services document
  pure document

/-- The session of a sort, from the memory of its source on. -/
def openSort (document : ActiveDocument W X Q Z) (request : Sort.SortRequest) :
    WorkerM W (Except String Z × ActiveDocument W X Q Z) := do
  let memory ← onWorld fun _ w => services.sort.reserve w
  match memory with
  | .error message => pure (.error message, document)
  | .ok () => do
    let (plan, document) ← onEngine document fun _ => DocumentEngine.sortPlan
    match plan with
    | .error error => pure (.error (services.describe error), document)
    | .ok plan => do
      let progress := document.engine.progress services.xlsx
      let session ← onWorld fun _ w =>
        services.sort.start request plan.source plan.format progress w
      pure (session, document)

def sortCancelled : String := "sorting was cancelled"

def sourceFailed (error : DocumentEngineError) : String :=
  "sort I/O failed: " ++ services.describe error

/-- The order of a finished session with its first rows, if the source is as it was before
and behind reading them. -/
def prepareOrder (document : ActiveDocument W X Q Z) (session : Z) :
    WorkerM W (Except String (SortedOrder W × CacheState) × ActiveDocument W X Q Z) := do
  let (valid, document) ← validateSource document
  match valid with
  | .error error => pure (.error (services.describe error), document)
  | .ok () => do
    let order ← onWorld fun _ w => services.sort.intoOrder session w
    match order with
    | .error message => pure (.error message, document)
    | .ok order => do
      let (read, document) ← readRows services (some order) document 0
      match read with
      | .error error => pure (.error (services.describe error), document)
      | .ok snapshot =>
        match convertCache snapshot with
        | .error _ => pure (.error conversionFailed, document)
        | .ok cache =>
          match document.cache.columns.grow cache.columns with
          | none => pure (.error "sorted columns changed shape", document)
          | some columns => do
            let (valid, document) ← validateSource document
            match valid with
            | .error error => pure (.error (services.describe error), document)
            | .ok () => pure (.ok (order, { cache with columns := columns }), document)

/-- `none` where the sort has been superseded or cancelled meanwhile. -/
def prepareSortIfCurrent (document : ActiveDocument W X Q Z) (active : ActiveSort Z) (session : Z) :
    WorkerM W (Except String (Option (SortedOrder W × CacheState)) × ActiveDocument W X Q Z) := do
  let current ← sortCurrent active.serial active.generation
  if current then do
    let (prepared, document) ← prepareOrder services document session
    match prepared with
    | .error message => pure (.error message, document)
    | .ok prepared => do
      let current ← sortCurrent active.serial active.generation
      pure (.ok (if current then some prepared else none), document)
  else pure (.ok none, document)

def commitSort (document : ActiveDocument W X Q Z) (active : ActiveSort Z) :
    Except String (Option (SortedOrder W × CacheState)) → ActiveDocument W X Q Z
  | .ok (some (order, cache)) =>
    { document with revealRank := none }.install (some order) cache (some active.request)
  | .ok none => document.sortFailed sortCancelled
  | .error message => document.sortFailed message

def completeSort (document : ActiveDocument W X Q Z) (active : ActiveSort Z) :
    WorkerM W (ActiveDocument W X Q Z) := do
  let document := { document with sort := none }
  let current ← sortCurrent active.serial active.generation
  if current then
    match active.session with
    | none => pure document
    | some session => do
      let (prepared, document) ← prepareSortIfCurrent services document active session
      endSort services (commitSort document active prepared)
  else endSort services (document.sortFailed sortCancelled)

def sortSourceCheckSteps : Nat := 32

/-- The source is checked on the first step, and then every so often, and at the end. -/
def checkSortStep (document : ActiveDocument W X Q Z) (checked : Nat)
    (outcome : Except String SortStep) :
    WorkerM W (Except String SortStep × ActiveDocument W X Q Z) :=
  match outcome with
  | .error message => pure (.error message, document)
  | .ok step =>
    if checked % sortSourceCheckSteps = 0 ∨ step.phase = .complete then do
      let (valid, document) ← validateSource document
      match valid with
      | .error error => pure (.error (sourceFailed services error), document)
      | .ok () => pure (.ok step, document)
    else pure (.ok step, document)

def ActiveDocument.sortStepped (document : ActiveDocument W X Q Z) (step : SortStep) :
    ActiveDocument W X Q Z :=
  { document with
    sortState := document.sortState.map fun state =>
      { state with phase := step.phase, scannedBytes := step.scannedBytes } }

def stepSort (document : ActiveDocument W X Q Z) (active : ActiveSort Z) (session : Z) :
    WorkerM W (ActiveDocument W X Q Z) := do
  let (outcome, session) ← onWorld fun c w =>
    (((services.sort.advance session c.step w).1, (services.sort.advance session c.step w).2.1),
      (services.sort.advance session c.step w).2.2)
  let counts : Nat := match outcome with
    | .ok _ => 1
    | .error _ => 0
  let next := { active with session := some session, checkedSteps := active.checkedSteps + counts }
  let (outcome, document) ← checkSortStep services { document with sort := some next }
    active.checkedSteps outcome
  match outcome with
  | .error message => endSort services (document.sortFailed message)
  | .ok step => do
    let document := document.sortStepped step
    if step.phase = .complete then completeSort services document next
    else do
      let elapsed ← ask Choice.elapsed
      if elapsed then endSort services document else pure document

/-- The session is there before the first step. -/
def runSort (document : ActiveDocument W X Q Z) (active : ActiveSort Z) :
    WorkerM W (ActiveDocument W X Q Z) :=
  match active.session with
  | some session => stepSort services document active session
  | none => do
    let (session, document) ← openSort services document active.request
    match session with
    | .error message => endSort services (document.sortFailed message)
    | .ok session => stepSort services document active session

/-- The tabs share one permit, and the others may have it. -/
def acquirePermit (active : ActiveSort Z) : WorkerM W Bool :=
  if active.permit then pure true else ask Choice.permit

def advanceSort (document : ActiveDocument W X Q Z) (active : ActiveSort Z) :
    WorkerM W (ActiveDocument W X Q Z) := do
  let current ← sortCurrent active.serial active.generation
  if current then do
    let permit ← acquirePermit active
    if permit then runSort services document { active with permit := true } else pure document
  else endSort services { document with
    sort := none
    sortState := document.sortState.map fun state => { state with phase := .cancelled } }

/-! ## Scanning -/

def scanOnce (document : ActiveDocument W X Q Z) : WorkerM W (Bool × ActiveDocument W X Q Z) := do
  let (step, document) ← onEngine document fun c =>
    DocumentEngine.scanStep services.xlsx c.entry c.step
  match step with
  | .error .cancelled => pure (true, document)
  | .error error =>
    failDocument services { document with scanComplete := true } (services.describe error)
  | .ok step =>
    let unreported := saturatingAdd document.unreportedBytes step.processedBytes
    match step.status with
    | .complete => do
      let document := { document with scanComplete := true, unreportedBytes := 0 }
      let sent ← emitActive services document .complete none
      pure (sent, document)
    | .progress =>
      if ActiveQuery.progressEventBytes ≤ unreported then do
        let document := { document with unreportedBytes := 0 }
        let sent ← emitActive services document .scanning none
        pure (sent, document)
      else pure (true, { document with unreportedBytes := unreported })
    | .cancelled => pure (true, { document with unreportedBytes := unreported })

/-! ## The pass -/

def goOn (r : Bool × ActiveDocument W X Q Z) : Next (Option (ActiveDocument W X Q Z)) :=
  if r.1 then .again (some r.2) else .stop

def ActiveDocument.demanded (document : ActiveDocument W X Q Z) : Bool :=
  document.query.any (·.demandHit.isSome)

def continueSort (document : ActiveDocument W X Q Z) : WorkerM W (ActiveDocument W X Q Z) :=
  match document.sort with
  | some active => advanceSort services document active
  | none => pure document

/-- No command is there: the work of the document. -/
def advance (document : ActiveDocument W X Q Z) :
    WorkerM W (Next (Option (ActiveDocument W X Q Z))) := do
  let document ← continueSort services document
  if document.demanded then goOn <$> advanceQueryOnce services document
  else if document.scanComplete then
    pure (if document.sort.isSome then .again (some document) else .sleep (some document))
  else goOn <$> scanOnce services document

/-- A command for the document that is open, if one is. -/
def serve (active : Option (ActiveDocument W X Q Z))
    (f : ActiveDocument W X Q Z → WorkerM W (Bool × ActiveDocument W X Q Z)) :
    WorkerM W (Next (Option (ActiveDocument W X Q Z))) :=
  match active with
  | none => pure (.again none)
  | some document => goOn <$> f document

def servePass (active : Option (ActiveDocument W X Q Z)) :
    WorkerM W (Next (Option (ActiveDocument W X Q Z))) := do
  takeSignals
  let opened ← takeOpens
  match opened with
  | some command => do
    let (sent, active) ← replaceDocument services command
    pure (if sent then .again active else .stop)
  | none => do
  let viewport ← takeViewports
  match viewport with
  | some request => serve active fun document => applyViewportRequest services document request
  | none => do
  let query ← takeQueries
  match query with
  | some command => serve active fun document => applyQueryCommand services document command
  | none => do
  let sort ← takeSorts
  match sort with
  | some command => serve active fun document => do
      let document ← startSort services document command
      pure (true, document)
  | none =>
    match active with
    | none => pure (.sleep none)
    | some document => advance services document

/-- The worker waits for a signal; where it finds none and no more can come, it leaves. -/
def runWorker : Server (System W) Choice (Option (ActiveDocument W X Q Z)) where
  pass := servePass services
  wake s :=
    match s.shared.signals.pending with
    | some () =>
      some (true, { s with shared := { s.shared with signals := s.shared.signals.tryTake } })
    | none => if s.shared.signals.closed then some (false, s) else none

/-- The thread of the user interface moves at any time. -/
def callers : Others (System W) UiMove where
  move m s := m.run s
  allowed _ _ := True

end Loop

end LeanRows.Worker
