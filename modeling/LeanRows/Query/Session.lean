import LeanRows.Query.Scratch
import LeanRows.Session

/-!
# Sequential literal queries

A session alternates between finding the next record and matching its bytes. One record is
pending at a time; its cursor and the matcher's state are what a call leaves for the next.
Every action keeps the session it has made, also when it ends in an error.
-/

namespace LeanRows

set_option autoImplicit false

open BoundaryScanner

/-- Fixed resource limits of one query session. -/
structure QuerySessionConfig where
  readBufferBytes : Nat
  readBufferBytes_pos : 0 < readBufferBytes
  cancellationCheckBytes : Nat
  cancellationCheckBytes_pos : 0 < cancellationCheckBytes
  pageCapacity : Nat
  pageCapacity_pos : 0 < pageCapacity
  scratchQuotaBytes : Nat
  header_le_quota : queryScratchHeaderBytes ≤ scratchQuotaBytes

def QuerySessionConfig.new (readBufferBytes cancellationCheckBytes pageCapacity
    scratchQuotaBytes : Nat) : Except QueryError QuerySessionConfig :=
  if hbuffer : 0 < readBufferBytes then
    if hcheck : 0 < cancellationCheckBytes then
      if hpage : 0 < pageCapacity then
        if hquota : scratchQuotaBytes < queryScratchHeaderBytes then
          .error (.scratchQuotaTooSmall scratchQuotaBytes queryScratchHeaderBytes)
        else
          .ok ⟨readBufferBytes, hbuffer, cancellationCheckBytes, hcheck, pageCapacity, hpage,
            scratchQuotaBytes, Nat.le_of_not_lt hquota⟩
      else .error .zeroPageCapacity
    else .error .zeroCancellationInterval
  else .error .zeroReadBuffer

structure HitPageBuffer where
  capacity : Nat
  firstHit : Nat
  hits : List QueryHit
deriving DecidableEq, Repr

/-- A hit that does not follow the page, or does not fit it, starts a new one. -/
def HitPageBuffer.append (page : HitPageBuffer) (index : Nat) (hit : QueryHit) :
    HitPageBuffer :=
  let followsPage := checkedAdd page.firstHit page.hits.length == some index
  if page.hits.isEmpty || !followsPage || page.hits.length == page.capacity then
    { page with firstHit := index, hits := [hit] }
  else { page with hits := page.hits ++ [hit] }

structure PendingRecord where
  row : Nat
  span : RecordSpan
  cursor : Nat
  matcherState : Nat
deriving DecidableEq, Repr

/-- Details recorded when the next hit entry would exceed the disk quota. -/
structure QueryQuotaExceeded where
  quotaBytes : Nat
  usedBytes : Nat
  requiredBytes : Nat
  storedHits : Nat
  rejectedHit : QueryHit
deriving DecidableEq, Repr

inductive QueryStepStatus where
  | running
  | cancelled
  | complete
  | quotaExceeded (details : QueryQuotaExceeded)
deriving DecidableEq, Repr

inductive QuerySourceFailure where
  | changed (change : SourceChange) (actualSize : Nat)
  | evidenceUnavailable
  | shortRead
deriving DecidableEq, Repr

inductive PendingStatus where
  | running
  | cancelled
  | complete
  | quotaExceeded (details : QueryQuotaExceeded)
deriving DecidableEq, Repr

structure PendingAdvance where
  processed : Nat
  status : PendingStatus

structure QuerySession (format : ViewportFormat) where
  sourceSnapshot : SourceFingerprint
  sourceFailure : Option QuerySourceFailure
  scanner : Option (FormatScanner format)
  literal : CompiledLiteral
  config : QuerySessionConfig
  pending : Option PendingRecord
  scratch : ScratchHitStore
  page : HitPageBuffer
  nextRow : Nat
  examinedRecords : Nat
  csvDiagnostic : Option CsvDiagnostic
  status : QueryStepStatus

structure QueryProgress where
  sourceBytes : Nat
  scannedBytes : Nat
  discoveredRecords : Nat
  examinedRecords : Nat
  storedHits : Nat
  scratchBytes : Nat
  activeRow : Option Nat
  csvDiagnostic : Option CsvDiagnostic
deriving DecidableEq

abbrev QueryM (format : ViewportFormat) (W : Type) := Exec (QuerySession format × W) QueryError

/-- The callback of `feed_one` and `finish`: it keeps the record and asks to stop. -/
def keepRecord (span : RecordSpan) (_ : Option RecordSpan) : EmitControl × Option RecordSpan :=
  (.stop, some span)

namespace QuerySession

variable {W : Type} {format : ViewportFormat}

/-- A session on a created scratch file with its header. -/
def new (source : PositionedRead W) (format : ViewportFormat) (literal : Literal)
    (config : QuerySessionConfig) (owner : List Byte) :
    Exec W QueryError (QuerySession format) := do
  let snapshot ← source.capture .io
  pure ⟨snapshot, none, some (atOffset format.rules 0), .new literal, config, none,
    .create owner config.scratchQuotaBytes, ⟨config.pageCapacity, 0, []⟩, 0, 0, none, .running⟩

def scannerOffset (session : QuerySession format) : Option Nat :=
  session.scanner.map BoundaryScanner.offset

def progress (session : QuerySession format) : QueryProgress where
  sourceBytes := session.sourceSnapshot.size
  scannedBytes := session.scannerOffset.getD session.sourceSnapshot.size
  discoveredRecords := session.nextRow
  examinedRecords := session.examinedRecords
  storedHits := session.scratch.entries
  scratchBytes := session.scratch.usedBytes
  activeRow := session.pending.map PendingRecord.row
  csvDiagnostic := session.csvDiagnostic

def sourceFailureError (session : QuerySession format) : QuerySourceFailure → QueryError
  | .changed .shrank _ | .shortRead => .sourceShrank
  | .changed .grew actualSize => .sourceGrew session.sourceSnapshot.size actualSize
  | .changed change actualSize =>
    .sourceChanged change session.sourceSnapshot.size actualSize
  | .evidenceUnavailable => .sourceEvidenceUnavailable

section Source
variable (source : PositionedRead W)

/-- A detected change is remembered: every later call fails with it. -/
def ensureSourceUnchanged : QueryM format W Unit := fun (session, w) =>
  match session.sourceFailure with
  | some failure => (.error (session.sourceFailureError failure), session, w)
  | none =>
    match source.fingerprint w with
    | (.error error, w) =>
      (.error (.io error), { session with sourceFailure := some .evidenceUnavailable }, w)
    | (.ok current, w) =>
      let change := session.sourceSnapshot.compare current
      if change.isChanged then
        let failure := .changed change current.size
        (.error (session.sourceFailureError failure),
          { session with sourceFailure := some failure }, w)
      else (.ok (), session, w)

/-- The bytes are handed on only when the source is unchanged before and after the read. -/
def checkedReadAt (offset request : Nat) : QueryM format W (List Byte) := do
  ensureSourceUnchanged source
  let bytes ← Exec.inner (source.read .io offset request)
  if bytes.isEmpty then do
    Exec.modify fun session => { session with sourceFailure := some .shortRead }
    Exec.throw .sourceShrank
  else do
    ensureSourceUnchanged source
    pure bytes

def queueRecord (span : RecordSpan) : QueryM format W Unit := do
  let session ← Exec.get
  match checkedAdd session.nextRow 1 with
  | none => Exec.throw .rowOverflow
  | some nextRow =>
    Exec.modify fun session => { session with
      nextRow := nextRow
      pending := some ⟨session.nextRow, span, span.start, 0⟩ }

def advanceScanner (workBytes : Nat) (polls : Nat → Bool) : QueryM format W ScanProgress := do
  let session ← Exec.get
  match session.scanner with
  | none => Exec.throw .scratchCorrupt
  | some scanner =>
    let request := min (min (session.sourceSnapshot.size - scanner.offset)
      session.config.readBufferBytes) workBytes
    let bytes ← checkedReadAt source scanner.offset request
    let fed := scanner.feedCancellable keepRecord
      ⟨session.config.cancellationCheckBytes, session.config.cancellationCheckBytes_pos, polls⟩
      bytes none
    Exec.modify fun session => { session with scanner := some fed.scanner }
    match fed.result with
    | .error error => Exec.throw (.scan error)
    | .ok progress =>
      match fed.sink with
      | none => pure progress
      | some span => do
        queueRecord span
        pure progress

end Source

section Matching
variable (medium : ScratchMedium W)

def appendHit (hit : QueryHit) : QueryM format W (Option QueryQuotaExceeded) :=
  fun (session, w) =>
    match session.scratch.append medium hit w with
    | (.error error, scratch, w) => (.error error, { session with scratch := scratch }, w)
    | (.ok (.stored index), scratch, w) =>
      (.ok none,
        { session with scratch := scratch, page := session.page.append index hit }, w)
    | (.ok (.quota requiredBytes), scratch, w) =>
      (.ok (some ⟨scratch.quotaBytes, scratch.usedBytes, requiredBytes, scratch.entries, hit⟩),
        { session with scratch := scratch }, w)

def updatePendingCursor (originalCursor processed matcherState : Nat) :
    QueryM format W Unit := do
  match checkedAdd originalCursor processed with
  | none => Exec.throw .addressSpace
  | some cursor =>
    let session ← Exec.get
    match session.pending with
    | none => Exec.throw .scratchCorrupt
    | some pending =>
      Exec.modify fun session => { session with
        pending := some { pending with cursor := cursor, matcherState := matcherState } }

/-- The match of the whole literal that ends at `stop`. -/
def hitEnding (literal : CompiledLiteral) (row stop : Nat) : Except QueryError QueryHit :=
  if stop < literal.bytes.length then .error .addressSpace
  else .ok ⟨row, ⟨stop - literal.bytes.length, stop, Nat.sub_le _ _⟩⟩

/-- The loop of `match_pending_bytes`. An append that fails leaves it at once, and the
cursor where it was when the bytes were read. -/
def matchLoop (pending : PendingRecord) (polls : Nat → Bool) :
    List Byte → Nat → Nat → QueryM format W PendingAdvance
  | [], processed, state => do
    updatePendingCursor pending.cursor processed state
    let session ← Exec.get
    let complete := session.pending.any fun record => record.cursor == record.span.stop
    pure ⟨processed, if complete then .complete else .running⟩
  | byte :: bytes, processed, state => do
    let session ← Exec.get
    if processed % session.config.cancellationCheckBytes == 0 && polls processed then do
      updatePendingCursor pending.cursor processed state
      pure ⟨processed, .cancelled⟩
    else
      let next := session.literal.advance state byte
      if next.2 then
        match checkedAdd pending.cursor (processed + 1) with
        | none => Exec.throw .addressSpace
        | some stop =>
          match hitEnding session.literal pending.row stop with
          | .error error => Exec.throw error
          | .ok hit => do
            match ← appendHit medium hit with
            | some details => do
              updatePendingCursor pending.cursor (processed + 1) next.1
              pure ⟨processed + 1, .quotaExceeded details⟩
            | none => matchLoop pending polls bytes (processed + 1) next.1
      else matchLoop pending polls bytes (processed + 1) next.1

variable (source : PositionedRead W)

def advancePending (workBytes : Nat) (polls : Nat → Bool) :
    QueryM format W PendingAdvance := do
  let session ← Exec.get
  match session.pending with
  | none => Exec.throw .scratchCorrupt
  | some pending =>
    if pending.cursor = pending.span.stop then pure ⟨0, .complete⟩
    else do
      let request := min (min (pending.span.stop - pending.cursor)
        session.config.readBufferBytes) workBytes
      let bytes ← checkedReadAt source pending.cursor request
      matchLoop medium pending polls bytes 0 pending.matcherState

def completePending : QueryM format W Unit := do
  Exec.modify fun session => { session with pending := none }
  let session ← Exec.get
  match checkedAdd session.examinedRecords 1 with
  | none => Exec.throw .rowOverflow
  | some examinedRecords =>
    Exec.modify fun session => { session with examinedRecords := examinedRecords }

/-! ### One call -/

/-- What a turn of the loop decides: to return, or to go on with what is left. -/
inductive Turn where
  | done (status : QueryStepStatus)
  | next (remaining : Nat)

def returnStatus (status : QueryStepStatus) : QueryM format W Turn := do
  Exec.modify fun session => { session with status := status }
  pure (.done status)

def pendingTurn (remaining : Nat) (polls : Nat → Bool) : QueryM format W Turn := do
  let outcome ← advancePending medium source remaining polls
  match outcome.status with
  | .running => pure (.next (remaining - outcome.processed))
  | .cancelled => returnStatus .cancelled
  | .complete => do
    completePending
    pure (.next (remaining - outcome.processed))
  | .quotaExceeded details => returnStatus (.quotaExceeded details)

def scannerTurn (remaining : Nat) (polls : Nat → Bool) : QueryM format W Turn := do
  let outcome ← advanceScanner source remaining polls
  match outcome.status with
  | .cancelled => returnStatus .cancelled
  | .complete | .stopped => pure (.next (remaining - outcome.consumed))

/-- The scanner is taken out of the session and finished. -/
def finishTurn (remaining : Nat) (scanner : FormatScanner format) : QueryM format W Turn := do
  let finished := scanner.finish keepRecord none
  Exec.modify fun session => { session with
    scanner := none
    csvDiagnostic := finished.diagnostic }
  match finished.sink with
  | some span => do
    queueRecord span
    pure (.next remaining)
  | none => returnStatus .complete

/-- The body of the loop of `advance`. -/
def turn (remaining : Nat) (polls : StepPolls) : QueryM format W Turn :=
  if polls.entry then returnStatus .cancelled
  else do
    ensureSourceUnchanged source
    let session ← Exec.get
    if session.pending.isSome then pendingTurn medium source remaining polls.feed
    else
      match session.scanner with
      | some scanner =>
        if scanner.offset < session.sourceSnapshot.size then
          scannerTurn source remaining polls.feed
        else finishTurn remaining scanner
      | none => returnStatus .complete

/-- The loop of `advance`; the tokens of turn `i` are `polls i`. -/
def advanceLoop (polls : Nat → StepPolls) : Nat → Nat → Nat → QueryM format W QueryStepStatus
  | 0, _, _ => do
    let session ← Exec.get
    pure session.status
  | fuel + 1, i, remaining => do
    match ← turn medium source remaining (polls i) with
    | .done status => pure status
    | .next remaining =>
      if remaining = 0 then do
        let session ← Exec.get
        pure session.status
      else advanceLoop polls fuel (i + 1) remaining

/-- Turns enough for a call: each that spends no work moves the record on. -/
def turnBound (maxWorkBytes : Nat) : Nat := 6 * maxWorkBytes + 6

def advance (maxWorkBytes : Nat) (polls : Nat → StepPolls) :
    QueryM format W QueryStepStatus := do
  if maxWorkBytes = 0 then Exec.throw .zeroWorkBudget
  else do
    let session ← Exec.get
    match session.status with
    | .complete | .quotaExceeded _ =>
      if (polls 0).entry then pure session.status
      else do
        ensureSourceUnchanged source
        pure session.status
    | .running | .cancelled => do
      Exec.modify fun session => { session with status := .running }
      advanceLoop medium source polls (turnBound maxWorkBytes) 0 maxWorkBytes

structure AdvanceCall where
  maxWorkBytes : Nat
  polls : Nat → StepPolls

/-- The session after a schedule of calls; a call that fails leaves it as it stands. -/
def advances : List AdvanceCall → QuerySession format × W → QuerySession format × W
  | [], p => p
  | call :: calls, p =>
    advances calls (advance medium source call.maxWorkBytes call.polls p).2

end Matching

/-! ### What the check of the source can do -/

/-- A failure is remembered already, it is found now, or the source is unchanged. -/
inductive Ensured (source : PositionedRead W) (session : QuerySession format) (w : W) :
    Except QueryError Unit × QuerySession format × W → Prop where
  | remembered {failure : QuerySourceFailure} (h : session.sourceFailure = some failure) :
      Ensured source session w (.error (session.sourceFailureError failure), session, w)
  | lost {error : IoError} {w' : W} (hrun : source.fingerprint w = (.error error, w')) :
      Ensured source session w
        (.error (.io error), { session with sourceFailure := some .evidenceUnavailable }, w')
  | changed {current : SourceFingerprint} {w' : W} (failure : QuerySourceFailure)
      (hrun : source.fingerprint w = (.ok current, w'))
      (h : (session.sourceSnapshot.compare current).isChanged) :
      Ensured source session w (.error (session.sourceFailureError failure),
        { session with sourceFailure := some failure }, w')
  | unchanged {current : SourceFingerprint} {w' : W} (hnone : session.sourceFailure = none)
      (hrun : source.fingerprint w = (.ok current, w'))
      (h : session.sourceSnapshot.compare current = .unchanged) :
      Ensured source session w (.ok (), session, w')

theorem ensureSourceUnchanged_ensured (source : PositionedRead W)
    (session : QuerySession format) (w : W) :
    Ensured source session w (ensureSourceUnchanged source (session, w)) := by
  simp only [ensureSourceUnchanged]
  cases hfailure : session.sourceFailure with
  | some failure => exact .remembered hfailure
  | none =>
    rcases hrun : source.fingerprint w with ⟨error | current, w'⟩
    · exact .lost hrun
    · dsimp only
      by_cases hchanged : (session.sourceSnapshot.compare current).isChanged
      · rw [if_pos hchanged]
        exact .changed _ hrun hchanged
      · rw [if_neg hchanged]
        exact .unchanged hfailure hrun (by simpa [SourceChange.isChanged] using hchanged)

end QuerySession

end LeanRows
