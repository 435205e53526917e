import LeanRows.Index
import LeanRows.Records
import LeanRows.Source

/-!
# Incremental scan sessions

A session scans one captured snapshot in steps of bounded work and feeds the row index
from inside the scanner's callback. `Tracks` ties its state to the records delivered so
far; every step keeps it, whether it ends well, is cancelled or fails.
-/

namespace LeanRows

set_option autoImplicit false

open BoundaryScanner

inductive ScanStepStatus where
  | progress
  | complete
  | cancelled
deriving DecidableEq, Repr

structure ScanStep where
  processedBytes : Nat
  discoveredRecords : Nat
  status : ScanStepStatus
deriving DecidableEq, Repr

inductive ScanSourceFailure where
  | changed (change : SourceChange) (actualSize : Nat)
  | evidenceUnavailable
deriving DecidableEq, Repr

inductive ScanSessionError where
  | io (error : IoError)
  | scan (error : ScanError)
  | index (error : CheckpointIndexError)
  | zeroReadBuffer
  | zeroCancellationInterval
  | zeroByteQuantum
  | sourceShrank (expectedSize scannedTo : Nat)
  | sourceGrew (expectedSize actualSize : Nat)
  | sourceChanged (change : SourceChange) (expectedSize actualSize scannedTo : Nat)
  | sourceEvidenceUnavailable (scannedTo : Nat)
  | recordCountOverflow
  | invalidState
deriving DecidableEq, Repr

structure ScanSessionConfig where
  indexCapacity : Nat
  initialRowStride : Nat
  readBufferBytes : Nat
  cancellationCheckBytes : Nat
deriving DecidableEq, Repr

/-- A session over `format`. Only the length of its read buffer matters between calls. -/
structure ScanSession (format : ViewportFormat) where
  snapshot : SourceFingerprint
  scanner : Option (FormatScanner format)
  index : AdaptiveIndex
  recordCount : Nat
  diagnostic : Option CsvDiagnostic
  readBufferLen : Nat
  readBufferLen_pos : 0 < readBufferLen
  cancellationCheckBytes : Nat
  cancellationCheckBytes_pos : 0 < cancellationCheckBytes
  sourceFailure : Option ScanSourceFailure

/-- What the token answers during one step: at its start, and at each poll of the scanner. -/
structure StepPolls where
  entry : Bool
  feed : Nat → Bool

/-- What the scanner's callback may change. -/
structure Observer where
  index : AdaptiveIndex
  recordCount : Nat
  error : Option ScanSessionError

def observeRecord (span : RecordSpan) (observer : Observer) : EmitControl × Observer :=
  match checkedAdd observer.recordCount 1 with
  | none => (.stop, { observer with error := some .recordCountOverflow })
  | some nextCount =>
    match observer.index.observe ⟨observer.recordCount, span.start⟩ with
    | .error error => (.stop, { observer with error := some (.index error) })
    | .ok (index, _) => (.continue, { observer with index := index, recordCount := nextCount })

namespace ScanSession

variable {W : Type} {format : ViewportFormat}

def new (source : PositionedRead W) (format : ViewportFormat) (config : ScanSessionConfig)
    (w : W) : Except ScanSessionError (ScanSession format) × W :=
  if hbuffer : 0 < config.readBufferBytes then
    if hcheck : 0 < config.cancellationCheckBytes then
      match AdaptiveIndex.new config.indexCapacity config.initialRowStride .rows with
      | .error error => (.error (.index error), w)
      | .ok index =>
        match source.fingerprint w with
        | (.error error, w) => (.error (.io error), w)
        | (.ok snapshot, w) =>
          (.ok ⟨snapshot, some (atOffset format.rules 0), index, 0, none,
            config.readBufferBytes, hbuffer, config.cancellationCheckBytes, hcheck, none⟩, w)
    else (.error .zeroCancellationInterval, w)
  else (.error .zeroReadBuffer, w)

def scannerOffset (session : ScanSession format) : Nat :=
  (session.scanner.map BoundaryScanner.offset).getD session.snapshot.size

def isComplete (session : ScanSession format) : Bool := session.scanner.isNone

def sourceFailureError (session : ScanSession format) : ScanSourceFailure → ScanSessionError
  | .changed .shrank _ => .sourceShrank session.snapshot.size session.scannerOffset
  | .changed .grew actualSize => .sourceGrew session.snapshot.size actualSize
  | .changed change actualSize =>
    .sourceChanged change session.snapshot.size actualSize session.scannerOffset
  | .evidenceUnavailable => .sourceEvidenceUnavailable session.scannerOffset

/-- A detected change is remembered: every later step fails with it. -/
def ensureSourceUnchanged (source : PositionedRead W) (session : ScanSession format) (w : W) :
    Except ScanSessionError Unit × ScanSession format × W :=
  match session.sourceFailure with
  | some failure => (.error (session.sourceFailureError failure), session, w)
  | none =>
    match source.fingerprint w with
    | (.error error, w) =>
      (.error (.io error), { session with sourceFailure := some .evidenceUnavailable }, w)
    | (.ok current, w) =>
      let change := session.snapshot.compare current
      if change.isChanged then
        let failure := .changed change current.size
        (.error (session.sourceFailureError failure),
          { session with sourceFailure := some failure }, w)
      else (.ok (), session, w)

def observer (session : ScanSession format) : Observer :=
  ⟨session.index, session.recordCount, none⟩

def finalize (session : ScanSession format) :
    Except ScanSessionError Unit × ScanSession format :=
  match session.scanner with
  | none => (.error .invalidState, session)
  | some scanner =>
    let finished := scanner.finish observeRecord session.observer
    let session := { session with
      scanner := none
      index := finished.sink.index
      recordCount := finished.sink.recordCount }
    match finished.sink.error with
    | some error => (.error error, session)
    | none => (.ok (), { session with diagnostic := finished.diagnostic })

/-- The end of a step that has scanned up to the end of the snapshot. -/
def complete (processedBytes beforeRecords : Nat) (session : ScanSession format) (w : W) :
    Except ScanSessionError ScanStep × ScanSession format × W :=
  match session.finalize with
  | (.error error, session) => (.error error, session, w)
  | (.ok (), session) =>
    (.ok ⟨processedBytes, session.recordCount - beforeRecords, .complete⟩, session, w)

/-- What a step makes of the scanner's answer: a scanner that has come to the end of the
snapshot is finished. -/
def afterFeed (source : PositionedRead W) (beforeRecords : Nat)
    (result : Except ScanError ScanProgress) (observerError : Option ScanSessionError)
    (session : ScanSession format) (w : W) :
    Except ScanSessionError ScanStep × ScanSession format × W :=
  match result with
  | .error error => (.error (.scan error), session, w)
  | .ok progress =>
    match observerError with
    | some error => (.error error, session, w)
    | none =>
      match progress.status with
      | .cancelled =>
        (.ok ⟨progress.consumed, session.recordCount - beforeRecords, .cancelled⟩, session, w)
      | .stopped => (.error .invalidState, session, w)
      | .complete =>
        if session.scannerOffset = session.snapshot.size then
          match session.ensureSourceUnchanged source w with
          | (.error error, session, w) => (.error error, session, w)
          | (.ok (), session, w) => session.complete progress.consumed beforeRecords w
        else
          (.ok ⟨progress.consumed, session.recordCount - beforeRecords, .progress⟩, session, w)

def feedChunk (source : PositionedRead W) (scanner : FormatScanner format)
    (chunk : List Byte) (polls : Nat → Bool) (session : ScanSession format) (w : W) :
    Except ScanSessionError ScanStep × ScanSession format × W :=
  let fed := scanner.feedCancellable observeRecord
    ⟨session.cancellationCheckBytes, session.cancellationCheckBytes_pos, polls⟩ chunk
    session.observer
  afterFeed source session.recordCount fed.result fed.sink.error
    { session with
      scanner := some fed.scanner
      index := fed.sink.index
      recordCount := fed.sink.recordCount } w

/-- Processes no more than `byteQuantum` source bytes. -/
def step (source : PositionedRead W) (byteQuantum : Nat) (polls : StepPolls)
    (session : ScanSession format) (w : W) :
    Except ScanSessionError ScanStep × ScanSession format × W :=
  if byteQuantum = 0 then (.error .zeroByteQuantum, session, w)
  else if polls.entry then (.ok ⟨0, 0, .cancelled⟩, session, w)
  else
    match session.ensureSourceUnchanged source w with
    | (.error error, session, w) => (.error error, session, w)
    | (.ok (), session, w) =>
      match session.scanner with
      | none => (.ok ⟨0, 0, .complete⟩, session, w)
      | some scanner =>
        if scanner.offset = session.snapshot.size then
          session.complete 0 session.recordCount w
        else
          let request := min (min (session.snapshot.size - scanner.offset) byteQuantum)
            session.readBufferLen
          match source.readAt w scanner.offset request with
          | (.error error, w) => (.error (.io error), session, w)
          | (.ok bytes, w) =>
            match validateReadCount bytes request with
            | .error error => (.error (.io error), session, w)
            | .ok chunk =>
              if chunk.isEmpty then
                (.error (.sourceShrank session.snapshot.size scanner.offset), session, w)
              else
                match session.ensureSourceUnchanged source w with
                | (.error error, session, w) => (.error error, session, w)
                | (.ok (), session, w) => session.feedChunk source scanner chunk polls.feed w

end ScanSession

/-! ## The records a session has observed -/

/-- `checkpoint` is where its row starts in the reference segmentation. -/
def StartsRow (format : ViewportFormat) (document : List Byte) (checkpoint : Checkpoint) :
    Prop :=
  ∃ span, (records format document)[checkpoint.row]? = some span ∧
    span.start = checkpoint.offset

/-- The observer has been called on `delivered`, in order. -/
structure Observer.Saw (delivered : List RecordSpan) (observer : Observer) : Prop where
  noError : observer.error = none
  count : observer.recordCount = delivered.length
  entries : ∀ checkpoint ∈ observer.index.entries, checkpoint = .origin ∨
    ∃ span, delivered[checkpoint.row]? = some span ∧ span.start = checkpoint.offset
  last : observer.index.lastObserved = match delivered.getLast? with
    | none => .origin
    | some span => ⟨delivered.length - 1, span.start⟩

section Observe
variable {format : ViewportFormat} {document : List Byte}

/-- The observer is called on each record of the document in turn and refuses none. -/
theorem observeRecord_saw {delivered : List RecordSpan} {span : RecordSpan}
    {observer : Observer} (hsaw : observer.Saw delivered)
    (hpre : delivered ++ [span] <+: records format document)
    (hsize : document.length < u64Bound) :
    (observeRecord span observer).1 = .continue ∧
      (observeRecord span observer).2.Saw (delivered ++ [span]) := by
  have hnext : (records format document)[delivered.length]? = some span := by
    obtain ⟨rest, hrest⟩ := hpre
    simp [← hrest]
  have hcount : checkedAdd observer.recordCount 1 = some (delivered.length + 1) := by
    rw [checkedAdd_eq_some, hsaw.count]
    have hle := hpre.length_le
    have := records_length_le format document
    simp only [List.length_append, List.length_singleton] at hle
    omega
  have hforward : (⟨delivered.length, span.start⟩ : Checkpoint) = observer.index.lastObserved ∨
      observer.index.lastObserved.row < delivered.length ∧
        observer.index.lastObserved.offset < span.start := by
    rw [hsaw.last]
    rcases List.eq_nil_or_concat delivered with rfl | ⟨before, previous, rfl⟩
    · left
      rw [records_zero_start (by simpa using hnext)]
      rfl
    · right
      obtain ⟨rest, hrest⟩ := hpre
      have hpair := records_pairwise format document
      rw [← hrest, List.append_assoc, List.pairwise_append] at hpair
      simpa using (hpair.2.2 previous (by simp) span (by simp)).2
  obtain ⟨index, update, hobserve⟩ := AdaptiveIndex.observe_isOk hforward
  obtain ⟨hlast, hentries⟩ := AdaptiveIndex.observe_cases hobserve
  have heq : observeRecord span observer =
      (.continue, { observer with index := index, recordCount := delivered.length + 1 }) := by
    rw [hsaw.count] at hcount
    simp only [observeRecord, hcount, hsaw.count, hobserve]
  rw [heq]
  refine ⟨rfl, hsaw.noError, by simp, fun checkpoint hmem => ?_, by simp [hlast]⟩
  rcases hentries checkpoint hmem with hold | rfl
  · rcases hsaw.entries checkpoint hold with horigin | ⟨start, hstart, heq⟩
    · exact .inl horigin
    · obtain ⟨hlt, -⟩ := List.getElem?_eq_some_iff.mp hstart
      exact .inr ⟨start, by rw [List.getElem?_append_left hlt, hstart], heq⟩
  · exact .inr ⟨span, by simp, rfl⟩

theorem delivers_saw {delivered spans : List RecordSpan} {observer observer' : Observer}
    {control : EmitControl} (h : Delivers observeRecord observer spans control observer')
    (hsaw : observer.Saw delivered) (hpre : delivered ++ spans <+: records format document)
    (hsize : document.length < u64Bound) :
    control = .continue ∧ observer'.Saw (delivered ++ spans) := by
  induction h generalizing delivered with
  | nil => exact ⟨rfl, by simpa using hsaw⟩
  | stop hstop =>
    have := (observeRecord_saw hsaw hpre hsize).1
    simp [hstop] at this
  | @«continue» observer _ _ span spans _ hcont _ ih =>
    have hfirst : delivered ++ [span] <+: delivered ++ span :: spans := by simp
    have hstep := observeRecord_saw hsaw (hfirst.trans hpre) hsize
    rw [hcont] at hstep
    simpa using ih hstep.2 (by simpa using hpre)

end Observe

namespace ScanSession

variable {W : Type} {format : ViewportFormat} {document : List Byte}

/-- The invariant of a session over `document`: the records observed are those the scanner
has delivered on its way, and once it is finished they are all there are. -/
structure Tracks (document : List Byte) (session : ScanSession format) : Prop where
  size : session.snapshot.size = document.length
  observed : ∃ delivered, session.observer.Saw delivered ∧
    match session.scanner with
    | some scanner => Scans (atOffset format.rules 0) document delivered scanner
        (document.drop scanner.offset)
    | none => delivered = records format document ∧
        session.diagnostic = openQuote format document

theorem new_tracks {source : PositionedRead W} (hsource : source.Reads document)
    {config : ScanSessionConfig} {w : W} {session : ScanSession format}
    (h : (new source format config w).1 = .ok session) : session.Tracks document := by
  unfold new at h
  split at h
  swap
  · cases h
  split at h
  swap
  · cases h
  split at h
  · cases h
  rename_i index hindex
  rcases hcapture : source.fingerprint w with ⟨_ | snapshot, w'⟩
  · simp [hcapture] at h
  · simp only [hcapture, Except.ok.injEq] at h
    subst h
    have hentries : index.entries = [.origin] ∧ index.lastObserved = .origin := by
      unfold AdaptiveIndex.new at hindex
      split at hindex
      · cases hindex
      split at hindex
      · cases hindex
      · cases hindex
        exact ⟨rfl, rfl⟩
    refine ⟨hsource.size w snapshot (by rw [hcapture]), [], ⟨rfl, rfl, ?_, hentries.2⟩, .refl _ _⟩
    intro checkpoint hmem
    left
    simpa [observer, hentries.1] using hmem

/-- Only the memory of a source failure can change. -/
theorem ensureSourceUnchanged_spec (source : PositionedRead W) (session : ScanSession format)
    (w : W) : ∃ failure w', (session.ensureSourceUnchanged source w).2 =
        ({ session with sourceFailure := failure }, w') ∧
      (session.ensureSourceUnchanged source w = (.ok (), session, w') ∨
        ∃ error, (session.ensureSourceUnchanged source w).1 = .error error) := by
  unfold ensureSourceUnchanged
  cases hfailure : session.sourceFailure with
  | some failure => exact ⟨session.sourceFailure, w, rfl, .inr ⟨_, rfl⟩⟩
  | none =>
    rcases source.fingerprint w with ⟨error | current, w'⟩
    · exact ⟨_, w', rfl, .inr ⟨_, rfl⟩⟩
    · dsimp only
      split
      · exact ⟨_, w', rfl, .inr ⟨_, rfl⟩⟩
      · exact ⟨session.sourceFailure, w', rfl, .inl rfl⟩

theorem Tracks.withFailure {session : ScanSession format} (h : session.Tracks document)
    (failure : Option ScanSourceFailure) :
    ({ session with sourceFailure := failure } : ScanSession format).Tracks document :=
  ⟨h.size, h.observed⟩

/-- What one step leaves behind: the invariant, and an answer that keeps its promises. -/
structure Keeps (document : List Byte) (byteQuantum : Nat)
    (r : Except ScanSessionError ScanStep × ScanSession format × W) : Prop where
  tracks : r.2.1.Tracks document
  bounded : ∀ step, r.1 = .ok step → step.processedBytes ≤ byteQuantum
  complete : ∀ step, r.1 = .ok step → step.status = .complete → r.2.1.scanner = none

theorem Keeps.error {session : ScanSession format} (h : session.Tracks document) {quantum : Nat}
    {error : ScanSessionError} {w : W} :
    Keeps document quantum (.error error, session, w) :=
  ⟨h, by simp, by simp⟩

/-- A guard in front of the rest of a step. -/
theorem keeps_ensure {source : PositionedRead W} {session : ScanSession format}
    (h : session.Tracks document) {quantum : Nat} {w : W}
    {next : ScanSession format → W → Except ScanSessionError ScanStep × ScanSession format × W}
    (hnext : ∀ w, Keeps document quantum (next session w)) :
    Keeps document quantum (match session.ensureSourceUnchanged source w with
      | (.error error, session, w) => (.error error, session, w)
      | (.ok (), session, w) => next session w) := by
  obtain ⟨failure, w', hsession, hok | ⟨error, herror⟩⟩ :=
    ensureSourceUnchanged_spec source session w
  · rw [hok]
    exact hnext w'
  · rw [← Prod.mk.eta (p := session.ensureSourceUnchanged source w), herror, hsession]
    exact .error (h.withFailure failure)

theorem complete_keeps {session : ScanSession format} (h : session.Tracks document)
    {scanner : FormatScanner format} (hscanner : session.scanner = some scanner)
    (hend : scanner.offset = session.snapshot.size) (hsize : document.length < u64Bound)
    {processed quantum : Nat} (hprocessed : processed ≤ quantum) (before : Nat) (w : W) :
    Keeps document quantum (session.complete processed before w) := by
  obtain ⟨delivered, hsaw, hscans⟩ := h.observed
  simp only [hscanner] at hscans
  rw [hend, h.size, List.drop_length] at hscans
  have hrecords := hscans.remaining_eq
  have hdiagnostic := hscans.after_eq
  rw [remaining_eq_records, Mealy.remaining_nil] at hrecords
  rw [Mealy.after_nil] at hdiagnostic
  have hfinish : ∃ observer : Observer, observer.Saw (records format document) ∧
      scanner.finish observeRecord session.observer =
        ⟨observer, (scanner.finish observeRecord session.observer).emitted,
          (scanner.finish observeRecord session.observer).stopped,
          openQuote format document⟩ := by
    rw [← diagnostic_eq_openQuote, hdiagnostic]
    unfold finish
    cases hlast : scanner.lastRecord with
    | none => exact ⟨_, by simpa [hrecords, stream, hlast] using hsaw, rfl⟩
    | some span =>
      have hrecords' : records format document = delivered ++ [span] := by
        simp [hrecords, stream, hlast]
      refine ⟨_, ?_, rfl⟩
      have hpre : delivered ++ [span] <+: records format document := by rw [hrecords']
      rw [hrecords']
      exact (observeRecord_saw hsaw hpre hsize).2
  obtain ⟨observer, hobserver, heq⟩ := hfinish
  have hcomplete : session.complete processed before w =
      (.ok ⟨processed, observer.recordCount - before, .complete⟩,
        { session with
          scanner := none
          index := observer.index
          recordCount := observer.recordCount
          diagnostic := openQuote format document }, w) := by
    simp only [complete, finalize, hscanner]
    rw [heq]
    simp only [hobserver.noError]
  rw [hcomplete]
  exact ⟨⟨h.size, _, ⟨rfl, hobserver.count, hobserver.entries, hobserver.last⟩, rfl, rfl⟩,
    fun step hstep => by cases hstep; exact hprocessed, fun _ _ _ => rfl⟩

/-- The scanner's answers that a step can see: it never stops, and it never overflows. -/
theorem afterFeed_keeps {source : PositionedRead W} {session : ScanSession format}
    (h : session.Tracks document) {scanner : FormatScanner format}
    (hscanner : session.scanner = some scanner) (hsize : document.length < u64Bound)
    {progress : ScanProgress} {quantum : Nat} (hstatus : progress.status ≠ .stopped)
    (hquantum : progress.consumed ≤ quantum) (beforeRecords : Nat) (w : W) :
    Keeps document quantum (afterFeed source beforeRecords (.ok progress) none session w) := by
  obtain ⟨consumed, status⟩ := progress
  cases status with
  | stopped => exact absurd rfl hstatus
  | cancelled =>
    exact ⟨h, fun step hstep => by cases hstep; exact hquantum,
      fun step hstep hc => by cases hstep; cases hc⟩
  | complete =>
    simp only [afterFeed]
    split
    · rename_i hend
      rw [scannerOffset, hscanner] at hend
      exact keeps_ensure h fun w => complete_keeps h hscanner hend hsize hquantum _ w
    · exact ⟨h, fun step hstep => by cases hstep; exact hquantum,
        fun step hstep hc => by cases hstep; cases hc⟩

theorem feedChunk_keeps {source : PositionedRead W} {session : ScanSession format}
    (h : session.Tracks document) {scanner : FormatScanner format}
    (hscanner : session.scanner = some scanner) {chunk : List Byte}
    (hchunk : chunk <+: document.drop scanner.offset) (hsize : document.length < u64Bound)
    {quantum : Nat} (hquantum : chunk.length ≤ quantum) (polls : Nat → Bool) (w : W) :
    Keeps document quantum (session.feedChunk source scanner chunk polls w) := by
  obtain ⟨delivered, hsaw, hscans⟩ := h.observed
  simp only [hscanner] at hscans
  obtain ⟨more, hmore⟩ := hchunk
  obtain ⟨spans, rest, control, scanner', hsteps⟩ := feedInner_steps
    (some ⟨session.cancellationCheckBytes, session.cancellationCheckBytes_pos, polls⟩)
    observeRecord chunk 0 scanner session.observer
  have hahead := hsteps.scans.append more
  rw [hmore] at hahead
  have hall := hscans.trans hahead
  have hpre : delivered ++ spans <+: records format document := by
    rw [← remaining_eq_records, hall.remaining_eq]
    exact List.prefix_append _ _
  obtain ⟨rfl, hobserver⟩ := delivers_saw hsteps.delivers hsaw hpre hsize
  rw [feedChunk, feedCancellable]
  generalize feedInner
    (some ⟨session.cancellationCheckBytes, session.cancellationCheckBytes_pos, polls⟩)
    observeRecord chunk 0 scanner session.observer = fed at hsteps hobserver
  have hrest := hall.rest_eq.2
  rw [atOffset_offset, Nat.sub_zero] at hrest
  have hle := hsteps.scans.suffix.length_le
  have hkeep : ∀ progress, fed.result = .ok progress → progress.status ≠ .stopped →
      progress.consumed ≤ chunk.length → Keeps document quantum
        (afterFeed source session.recordCount fed.result fed.sink.error
          { session with
            scanner := some fed.scanner
            index := fed.sink.index
            recordCount := fed.sink.recordCount } w) := by
    intro progress hprogress hstatus hconsumed
    have hnext : ({ session with
        scanner := some fed.scanner
        index := fed.sink.index
        recordCount := fed.sink.recordCount } : ScanSession format).Tracks document := by
      refine ⟨h.size, delivered ++ spans,
        ⟨rfl, hobserver.count, hobserver.entries, hobserver.last⟩, ?_⟩
      rw [hsteps.scanner progress hprogress]
      simpa only [← hrest] using hall
    rw [hprogress, hobserver.noError]
    exact afterFeed_keeps hnext rfl hsize hstatus (by omega) _ w
  have hans := hsteps.answers
  generalize hresult : fed.result = result at hans
  cases hans with
  | complete _ => exact hresult ▸ hkeep _ hresult (by simp) (by dsimp only; omega)
  | cancelled _ _ => exact hresult ▸ hkeep _ hresult (by simp) (by dsimp only; omega)
  | overflow hne hover =>
    -- a scanner inside the document is below its size, which is a `u64`
    exfalso
    have hoffset := hall.offset_eq
    have hpos := List.length_pos_iff.mpr hne
    rw [atOffset_offset, List.length_append] at hoffset
    omega

theorem step_keeps {source : PositionedRead W} (hsource : source.Reads document)
    {session : ScanSession format} (h : session.Tracks document)
    (quantum : Nat) (polls : StepPolls) (w : W) :
    Keeps document quantum (session.step source quantum polls w) := by
  have hsize : document.length < u64Bound := h.size ▸ session.snapshot.size_lt
  unfold step
  split
  · exact .error h
  split
  · exact ⟨h, by simp, fun step hstep hc => by cases hstep; cases hc⟩
  refine keeps_ensure h fun w => ?_
  cases hscanner : session.scanner with
  | none => exact ⟨h, by simp, fun _ _ _ => hscanner⟩
  | some scanner =>
    simp only
    split
    · rename_i hend
      exact complete_keeps h hscanner hend hsize (Nat.zero_le _) _ w
    generalize hrequest : min (min (session.snapshot.size - scanner.offset) quantum)
      session.readBufferLen = request
    rcases hread : source.readAt w scanner.offset request with ⟨error | bytes, after⟩
    · exact .error h
    simp only
    split
    · exact .error h
    · rename_i chunk hchunk
      obtain ⟨rfl, hcount⟩ := validateReadCount_eq_ok hchunk
      split
      · exact .error h
      · exact keeps_ensure h fun _ => feedChunk_keeps h hscanner
          (hsource.read w _ request _ (by rw [hread])) hsize (by omega) _ _

/-! ### Runs of steps -/

structure StepCall where
  byteQuantum : Nat
  polls : StepPolls

/-- The session after a schedule of steps; a step that fails leaves it as it stands. -/
def steps (source : PositionedRead W) : List StepCall → ScanSession format → W →
    ScanSession format × W
  | [], session, w => (session, w)
  | call :: calls, session, w =>
    let after := session.step source call.byteQuantum call.polls w
    steps source calls after.2.1 after.2.2

theorem steps_tracks {source : PositionedRead W} (hsource : source.Reads document)
    (calls : List StepCall) {session : ScanSession format} (h : session.Tracks document)
    (w : W) : (steps source calls session w).1.Tracks document := by
  induction calls generalizing session w with
  | nil => exact h
  | cons call calls ih => exact ih (step_keeps hsource h call.byteQuantum call.polls w).tracks _

/-- Every record observed is one of the document's, in its place. -/
theorem Tracks.observed_prefix {session : ScanSession format} (h : session.Tracks document) :
    ∃ delivered, session.observer.Saw delivered ∧ delivered <+: records format document := by
  obtain ⟨delivered, hsaw, hscanner⟩ := h.observed
  refine ⟨delivered, hsaw, ?_⟩
  cases hs : session.scanner with
  | none =>
    simp only [hs] at hscanner
    rw [hscanner.1]
  | some scanner =>
    simp only [hs] at hscanner
    rw [← remaining_eq_records, hscanner.remaining_eq]
    exact List.prefix_append _ _

theorem Tracks.startsRow {session : ScanSession format} (h : session.Tracks document)
    {checkpoint : Checkpoint} (hmem : checkpoint ∈ session.index.entries) :
    StartsRow format document checkpoint ∨ document = [] ∧ checkpoint = .origin := by
  obtain ⟨delivered, hsaw, hpre⟩ := h.observed_prefix
  rcases hsaw.entries checkpoint hmem with rfl | ⟨span, hspan, hstart⟩
  · cases hfirst : records format document with
    | nil => exact .inr ⟨records_eq_nil.mp hfirst, rfl⟩
    | cons first rest =>
      have hzero : (records format document)[0]? = some first := by simp [hfirst]
      exact .inl ⟨first, hzero, records_zero_start hzero⟩
  · obtain ⟨hlt, -⟩ := List.getElem?_eq_some_iff.mp hspan
    obtain ⟨rest, hrest⟩ := hpre
    exact .inl ⟨span, by rw [← hrest, List.getElem?_append_left hlt, hspan], hstart⟩

theorem Tracks.complete_eq {session : ScanSession format} (h : session.Tracks document)
    (hscanner : session.scanner = none) :
    session.recordCount = (records format document).length ∧
      session.diagnostic = openQuote format document := by
  obtain ⟨delivered, hsaw, hrecords⟩ := h.observed
  simp only [hscanner] at hrecords
  exact ⟨by rw [← hrecords.1]; exact hsaw.count, hrecords.2⟩

/-- Whatever the schedule, every checkpoint held is true (the origin of an empty document
apart), no step exceeds its quantum, and a session that reports `complete` has counted the
records of the document and has its diagnostic. -/
theorem schedule_keeps_truth {source : PositionedRead W} {document : List Byte}
    (hsource : source.Reads document) (config : ScanSessionConfig) (w : W)
    {session : ScanSession format} (hnew : (new source format config w).1 = .ok session)
    (calls : List StepCall) (w' : W) :
    (∀ checkpoint ∈ (steps source calls session w').1.index.entries,
      StartsRow format document checkpoint ∨ document = [] ∧ checkpoint = .origin) ∧
    ((steps source calls session w').1.isComplete →
      (steps source calls session w').1.recordCount = (records format document).length ∧
      (steps source calls session w').1.diagnostic = openQuote format document) ∧
    ∀ (call : StepCall) (step : ScanStep) (next : ScanSession format) (after : W),
      (steps source calls session w').1.step source call.byteQuantum call.polls
          (steps source calls session w').2 = (.ok step, next, after) →
      step.processedBytes ≤ call.byteQuantum ∧
      (step.status = .complete →
        next.recordCount = (records format document).length ∧
        next.diagnostic = openQuote format document) := by
  have h := steps_tracks hsource calls (new_tracks hsource hnew) w'
  refine ⟨fun checkpoint => h.startsRow,
    fun hcomplete => h.complete_eq (Option.isNone_iff_eq_none.mp hcomplete), ?_⟩
  intro call step next after hstep
  have hkeeps := step_keeps hsource h call.byteQuantum call.polls
    (steps source calls session w').2
  rw [hstep] at hkeeps
  exact ⟨hkeeps.bounded step rfl,
    fun hcomplete => hkeeps.tracks.complete_eq (hkeeps.complete step rfl hcomplete)⟩

theorem schedule_keeps_truth_twoLines : ∃ session,
    (new (.ofBytes [97, 10, 98] (by decide)) .lines ⟨4, 1, 2, 1⟩ ()).1 = .ok session ∧
    ∀ checkpoint ∈ (steps (.ofBytes [97, 10, 98] (by decide)) [⟨2, false, fun _ => false⟩]
        session ()).1.index.entries,
      StartsRow .lines [97, 10, 98] checkpoint ∨
        ([97, 10, 98] : List Byte) = [] ∧ checkpoint = .origin :=
  ⟨_, rfl, (schedule_keeps_truth (PositionedRead.ofBytes_steady _ _).toReads ⟨4, 1, 2, 1⟩ () rfl
    [⟨2, false, fun _ => false⟩] ()).1⟩

/-- The index of an empty document holds an origin although there is no row to start. -/
theorem empty_origin_starts_no_row : ∃ session,
    (new (.ofBytes [] (by decide)) .lines ⟨4, 1, 2, 1⟩ ()).1 = .ok session ∧
    ∃ checkpoint ∈ (steps (.ofBytes [] (by decide)) [] session ()).1.index.entries,
      ¬ StartsRow .lines [] checkpoint := by
  refine ⟨_, rfl, .origin, List.mem_singleton.mpr rfl, ?_⟩
  rintro ⟨span, hspan, -⟩
  rw [records_eq_nil.mpr rfl] at hspan
  cases hspan

end ScanSession

end LeanRows
