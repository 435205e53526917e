import LeanRows.Session

/-!
# Viewports

A viewport starts a scanner at the nearest checkpoint, collects the spans of the wanted
rows and reads a bounded prefix of each. `Viewport.reference` says what it should hold.
-/

namespace LeanRows

set_option autoImplicit false

open BoundaryScanner

structure EngineLimits where
  readBufferBytes : Nat
  maxViewportRecords : Nat
  maxRecordPreviewBytes : Nat
  maxViewportPayloadBytes : Nat
  cancellationCheckBytes : Nat
  readBufferBytes_pos : 0 < readBufferBytes
  maxViewportRecords_pos : 0 < maxViewportRecords
  cancellationCheckBytes_pos : 0 < cancellationCheckBytes

inductive ViewportError where
  | io (error : IoError)
  | scan (error : ScanError)
  | cancelled
  | invalidCheckpoint
  | sourceShrank
  | sourceChanged (change : SourceChange) (expectedSize actualSize : Nat)
  | rowOverflow
deriving DecidableEq, Repr

structure RecordPreview where
  row : Nat
  span : RecordSpan
  bytes : List Byte
  truncated : Bool
deriving DecidableEq, Repr

structure Viewport where
  records : List RecordPreview
  reachedEof : Bool
  csvDiagnostic : Option CsvDiagnostic
deriving DecidableEq, Repr

structure SpanCollector where
  nextRow : Nat
  firstRow : Nat
  limit : Nat
  spans : List (Nat × RecordSpan)
  rowOverflow : Bool

def SpanCollector.accept (span : RecordSpan) (collector : SpanCollector) :
    EmitControl × SpanCollector :=
  match checkedAdd collector.nextRow 1 with
  | none => (.stop, { collector with rowOverflow := true })
  | some next =>
    let spans :=
      if collector.firstRow ≤ collector.nextRow then collector.spans ++ [(collector.nextRow, span)]
      else collector.spans
    (if spans.length = collector.limit then .stop else .continue,
      { collector with nextRow := next, spans := spans })

/-- What the token answers during one call: at its start, at the head of each pass of a
loop, and inside the passes. -/
structure ViewportPolls where
  entry : Bool
  scan : Nat → Bool
  feed : Nat → Nat → Bool
  record : Nat → Bool
  fill : Nat → Nat → Bool

/-- A call whose token is never cancelled. -/
def ViewportPolls.never : ViewportPolls :=
  ⟨false, fun _ => false, fun _ _ => false, fun _ => false, fun _ _ => false⟩

section Read
variable {W : Type} (source : PositionedRead W)

def ensureSourceUnchanged (baseline : SourceFingerprint) : Exec W ViewportError Unit := do
  let current ← source.capture .io
  let change := baseline.compare current
  if change.isChanged then .throw (.sourceChanged change baseline.size current.size)
  else pure ()

/-- The `while` loop of `read_viewport`. A pass that does not leave it takes at least one
byte, so the size of the source bounds their number. -/
def scanSpans {format : ViewportFormat} (snapshot : SourceFingerprint) (limits : EngineLimits)
    (polls : ViewportPolls) : Nat → Nat → FormatScanner format → SpanCollector →
    Exec W ViewportError (FormatScanner format × SpanCollector)
  | 0, _, scanner, collector => pure (scanner, collector)
  | fuel + 1, pass, scanner, collector =>
    if scanner.offset < snapshot.size ∧ collector.spans.length < collector.limit then
      if polls.scan pass then .throw .cancelled
      else do
        let request := min (snapshot.size - scanner.offset) limits.readBufferBytes
        ensureSourceUnchanged source snapshot
        let chunk ← source.read .io scanner.offset request
        if chunk.isEmpty then .throw .sourceShrank
        else do
          ensureSourceUnchanged source snapshot
          let fed := scanner.feedCancellable SpanCollector.accept
            ⟨limits.cancellationCheckBytes, limits.cancellationCheckBytes_pos, polls.feed pass⟩
            chunk collector
          let progress ← Exec.ofExcept (fed.result.mapError .scan)
          if fed.sink.rowOverflow then .throw .rowOverflow
          else match progress.status with
            | .cancelled => .throw .cancelled
            | .stopped => pure (fed.scanner, fed.sink)
            | .complete => scanSpans snapshot limits polls fuel (pass + 1) fed.scanner fed.sink
    else pure (scanner, collector)

/-- The loop that fills one preview, a short read at a time. -/
def fillPreview (snapshot : SourceFingerprint) (polls : Nat → Bool) (start copySize : Nat) :
    Nat → Nat → List Byte → Exec W ViewportError (List Byte)
  | 0, _, filled => pure filled
  | fuel + 1, pass, filled =>
    if filled.length < copySize then
      if polls pass then .throw .cancelled
      else do
        ensureSourceUnchanged source snapshot
        let bytes ← source.read .io (start + filled.length) (copySize - filled.length)
        if bytes.isEmpty then .throw .sourceShrank
        else do
          ensureSourceUnchanged source snapshot
          fillPreview snapshot polls start copySize fuel (pass + 1) (filled ++ bytes)
    else pure filled

def materializePreviews (snapshot : SourceFingerprint) (limits : EngineLimits)
    (polls : ViewportPolls) :
    Nat → Nat → List (Nat × RecordSpan) → Exec W ViewportError (List RecordPreview)
  | _, _, [] => pure []
  | i, payloadRemaining, (row, span) :: spans =>
    if polls.record i then .throw .cancelled
    else do
      let copySize := min (min span.len limits.maxRecordPreviewBytes) payloadRemaining
      let bytes ← fillPreview source snapshot (polls.fill i) span.start copySize copySize 0 []
      let records ← materializePreviews snapshot limits polls (i + 1)
        (payloadRemaining - copySize) spans
      pure (⟨row, span, bytes, copySize < span.len⟩ :: records)

/-- The part of `read_viewport` behind the scan. -/
def viewportOf (snapshot : SourceFingerprint) (limits : EngineLimits) (polls : ViewportPolls)
    (spans : List (Nat × RecordSpan)) (reachedEof : Bool) (csvDiagnostic : Option CsvDiagnostic) :
    Exec W ViewportError Viewport := do
  let records ← materializePreviews source snapshot limits polls 0
    limits.maxViewportPayloadBytes spans
  ensureSourceUnchanged source snapshot
  pure ⟨records, reachedEof, csvDiagnostic⟩

/-- `lookup` is the index: it answers `nearest_checkpoint`. -/
def readViewport (format : ViewportFormat) (lookup : Nat → Checkpoint) (firstRow : Nat)
    (limits : EngineLimits) (polls : ViewportPolls) : Exec W ViewportError Viewport :=
  if polls.entry then .throw .cancelled
  else do
    let snapshot ← source.capture .io
    let checkpoint := lookup firstRow
    if firstRow < checkpoint.row ∨ snapshot.size < checkpoint.offset then
      .throw .invalidCheckpoint
    else do
      let scanned ← scanSpans source snapshot limits polls snapshot.size 0
        (atOffset format.rules checkpoint.offset)
        ⟨checkpoint.row, firstRow, limits.maxViewportRecords, [], false⟩
      let scannedToEof := scanned.1.offset == snapshot.size
      if scannedToEof ∧ scanned.2.spans.length < scanned.2.limit then
        let finished := scanned.1.finish SpanCollector.accept scanned.2
        if finished.sink.rowOverflow then .throw .rowOverflow
        else
          viewportOf source snapshot limits polls finished.sink.spans scannedToEof
            finished.diagnostic
      else viewportOf source snapshot limits polls scanned.2.spans scannedToEof none

end Read

/-! ## What a viewport should hold -/

def numbered (spans : List RecordSpan) : List (Nat × RecordSpan) :=
  spans.zipIdx.map Prod.swap

/-- Each preview is a prefix of its record, as long as the record, the cap and the payload
still left allow. -/
def previews (document : List Byte) (cap : Nat) : Nat → List (Nat × RecordSpan) →
    List RecordPreview
  | _, [] => []
  | payload, (row, span) :: spans =>
    let size := min (min span.len cap) payload
    ⟨row, span, (span.bytesOf document).take size, size < span.len⟩ ::
      previews document cap (payload - size) spans

/-- The viewport from `firstRow` on, told from the reference segmentation alone. -/
def Viewport.reference (format : ViewportFormat) (document : List Byte)
    (firstRow limit cap payload : Nat) : Viewport :=
  let wanted := ((numbered (LeanRows.records format document)).drop firstRow).take limit
  { records := previews document cap payload wanted
    reachedEof := (LeanRows.records format document).length ≤ firstRow + wanted.length
    csvDiagnostic :=
      if (LeanRows.records format document).length ≤ firstRow + limit then
        openQuote format document
      else none }

@[simp] theorem numbered_length (spans : List RecordSpan) :
    (numbered spans).length = spans.length := by
  simp [numbered]

theorem numbered_append (spans : List RecordSpan) (span : RecordSpan) :
    numbered (spans ++ [span]) = numbered spans ++ [(spans.length, span)] := by
  simp [numbered, List.zipIdx_append]

theorem numbered_front {spans spans' : List RecordSpan} (h : spans <+: spans') :
    numbered spans <+: numbered spans' := by
  obtain ⟨rest, rfl⟩ := h
  simp [numbered, List.zipIdx_append]

theorem mem_of_mem_numbered {row : Nat} {span : RecordSpan} {spans : List RecordSpan}
    (h : (row, span) ∈ numbered spans) : span ∈ spans := by
  simp only [numbered, List.mem_map, Prod.exists, Prod.swap_prod_mk, Prod.mk.injEq] at h
  obtain ⟨span', row', hmem, -, rfl⟩ := h
  exact List.fst_mem_of_mem_zipIdx hmem

/-! ## Collecting the spans -/

/-- The collector has been called on the records behind the checkpoint; `seen` has those in
front of it as well. -/
structure SpanCollector.Collected (firstRow limit : Nat) (seen : List RecordSpan)
    (collector : SpanCollector) : Prop where
  nextRow_eq : collector.nextRow = seen.length
  firstRow_eq : collector.firstRow = firstRow
  limit_eq : collector.limit = limit
  noOverflow : collector.rowOverflow = false
  spans_eq : collector.spans = (numbered seen).drop firstRow

section Collect
variable {firstRow limit : Nat} {seen spans : List RecordSpan}
    {collector collector' : SpanCollector}

theorem accept_collected (h : collector.Collected firstRow limit seen) (span : RecordSpan)
    (hrow : seen.length + 1 < u64Bound) :
    (collector.accept span).2.Collected firstRow limit (seen ++ [span]) ∧
      (collector.accept span).1 =
        if (collector.accept span).2.spans.length = limit then .stop else .continue := by
  have hnext : checkedAdd collector.nextRow 1 = some (seen.length + 1) := by
    rw [checkedAdd_eq_some, h.nextRow_eq]
    exact ⟨hrow, rfl⟩
  have hspans : (if collector.firstRow ≤ collector.nextRow then
        collector.spans ++ [(collector.nextRow, span)] else collector.spans) =
      (numbered (seen ++ [span])).drop firstRow := by
    rw [h.firstRow_eq, h.nextRow_eq, h.spans_eq, numbered_append]
    split
    · rw [List.drop_append_of_le_length (by simpa)]
    · rw [List.drop_eq_nil_of_le (by simp; omega), List.drop_eq_nil_of_le (by simp; omega)]
  simp only [SpanCollector.accept, hnext, hspans, h.limit_eq, and_true]
  exact ⟨by simp, h.firstRow_eq, rfl, h.noOverflow, rfl⟩

/-- A feed stops the collector exactly when the last wanted span has come. -/
theorem delivers_collected {control : EmitControl}
    (hd : Delivers SpanCollector.accept collector spans control collector')
    (h : collector.Collected firstRow limit seen)
    (hroom : collector.spans.length < limit)
    (hrow : (seen ++ spans).length < u64Bound) :
    collector'.Collected firstRow limit (seen ++ spans) ∧
      (control = .stop ∧ collector'.spans.length = limit ∨
        control = .continue ∧ collector'.spans.length < limit) := by
  induction hd generalizing seen with
  | nil => exact ⟨by simpa using h, .inr ⟨rfl, hroom⟩⟩
  | @stop collector collector' span hstop =>
    obtain ⟨hnext, hcontrol⟩ := accept_collected h span (by simpa using hrow)
    rw [hstop] at hnext hcontrol
    refine ⟨hnext, .inl ⟨rfl, ?_⟩⟩
    by_contra hne
    simp [hne] at hcontrol
  | @«continue» collector collector' _ span spans _ hcont _ ih =>
    have hrow' : seen.length + 1 < u64Bound := by
      simp only [List.length_append, List.length_cons] at hrow
      omega
    obtain ⟨hnext, hcontrol⟩ := accept_collected h span hrow'
    rw [hcont] at hnext hcontrol
    have hle : collector'.spans.length ≤ limit := by
      have hone : collector'.spans.length ≤ collector.spans.length + 1 := by
        rw [hnext.spans_eq, h.spans_eq, numbered_append]
        simp only [List.length_drop, List.length_append, List.length_singleton]
        omega
      omega
    have hne : collector'.spans.length ≠ limit := by
      intro heq
      simp [heq] at hcontrol
    rw [← List.singleton_append, ← List.append_assoc] at hrow ⊢
    exact ih hnext (by omega) hrow

end Collect

/-! ## The scan of an unchanged source -/

section Steady
variable {W : Type} {source : PositionedRead W} {document : List Byte}
  {snapshot : SourceFingerprint} {format : ViewportFormat}

theorem ensureSourceUnchanged_returns (h : source.Steady document snapshot) :
    (ensureSourceUnchanged source snapshot).Returns fun _ => True := by
  apply Exec.Returns.bind (PositionedRead.capture_returns h)
  rintro _ rfl
  simp only [SourceFingerprint.compare_self, SourceChange.isChanged]
  exact .pure trivial

/-- Where the scan loop stands: the records seen so far are the first ones of the document,
and the collector holds the wanted ones among them. -/
structure Scanned (format : ViewportFormat) (document : List Byte) (firstRow limit : Nat)
    (seen : List RecordSpan) (scanner : FormatScanner format) (collector : SpanCollector) :
    Prop where
  scans : Scans (atOffset format.rules 0) document seen scanner (document.drop scanner.offset)
  collected : collector.Collected firstRow limit seen

/-- The loop has come to its end: behind the last wanted span, or at the end of the file. -/
def ScanEnded (size limit : Nat) (scanner : FormatScanner format) (collector : SpanCollector) :
    Prop :=
  collector.spans.length = limit ∧ scanner = atOffset format.rules scanner.offset ∨
    collector.spans.length < limit ∧ scanner.offset = size

theorem Scanned.offset_le {firstRow limit : Nat} {seen : List RecordSpan}
    {scanner : FormatScanner format} {collector : SpanCollector}
    (h : Scanned format document firstRow limit seen scanner collector) :
    scanner.offset ≤ document.length := by
  have := h.scans.offset_eq
  rw [atOffset_offset, List.length_drop] at this
  omega

theorem Scanned.seen_front {firstRow limit : Nat} {seen : List RecordSpan}
    {scanner : FormatScanner format} {collector : SpanCollector}
    (h : Scanned format document firstRow limit seen scanner collector) :
    seen <+: records format document := by
  rw [← remaining_eq_records, h.scans.remaining_eq]
  exact List.prefix_append _ _

/-- One pass: a chunk is fed, and the scan goes on behind it or has found all it wants. -/
theorem feed_scanned {firstRow limit : Nat} {seen : List RecordSpan}
    {scanner : FormatScanner format} {collector : SpanCollector}
    (h : Scanned format document firstRow limit seen scanner collector)
    (hroom : collector.spans.length < limit) (hsize : document.length < u64Bound)
    {chunk : List Byte} (hchunk : chunk <+: document.drop scanner.offset)
    {check : CancelCheck} (hnever : ∀ consumed, check.isCancelled consumed = false) :
    ∃ seen' progress,
      (scanner.feedCancellable SpanCollector.accept check chunk collector).result =
        .ok progress ∧
      Scanned format document firstRow limit seen'
        (scanner.feedCancellable SpanCollector.accept check chunk collector).scanner
        (scanner.feedCancellable SpanCollector.accept check chunk collector).sink ∧
      (progress.status = .stopped ∧ ScanEnded document.length limit
          (scanner.feedCancellable SpanCollector.accept check chunk collector).scanner
          (scanner.feedCancellable SpanCollector.accept check chunk collector).sink ∨
        progress.status = .complete ∧
          (scanner.feedCancellable SpanCollector.accept check chunk collector).scanner.offset =
            scanner.offset + chunk.length ∧
          (scanner.feedCancellable SpanCollector.accept check chunk collector).sink.spans.length <
            limit) := by
  obtain ⟨more, hmore⟩ := hchunk
  obtain ⟨spans, rest, control, scanner', hsteps⟩ := feedInner_steps (some check)
    SpanCollector.accept chunk 0 scanner collector
  rw [feedCancellable]
  generalize feedInner (some check) SpanCollector.accept chunk 0 scanner collector = fed at hsteps
  have hahead := hsteps.scans.append more
  rw [hmore] at hahead
  have hall := h.scans.trans hahead
  have hrest := hall.rest_eq.2
  rw [atOffset_offset, Nat.sub_zero] at hrest
  have hseen : seen ++ spans <+: records format document := by
    rw [← remaining_eq_records, hall.remaining_eq]
    exact List.prefix_append _ _
  have hrow : (seen ++ spans).length < u64Bound := by
    have hle := hseen.length_le
    have := records_length_le format document
    omega
  obtain ⟨hcollected, hcontrol⟩ := delivers_collected hsteps.delivers h.collected hroom hrow
  have hscanned : ∀ progress, fed.result = .ok progress →
      Scanned format document firstRow limit (seen ++ spans) fed.scanner fed.sink := by
    intro progress hprogress
    rw [hsteps.scanner progress hprogress]
    exact ⟨hrest ▸ hall, hcollected⟩
  have hans := hsteps.answers
  generalize hresult : fed.result = result at hans
  cases hans with
  | complete hnil =>
    have hscanner := hsteps.scanner _ hresult
    refine ⟨_, _, rfl, hscanned _ hresult, .inr ⟨rfl, ?_, ?_⟩⟩
    · have := hsteps.scans.offset_eq
      rw [hscanner]
      simpa [hnil] using this.symm
    · rcases hcontrol with ⟨hc, -⟩ | ⟨-, hlt⟩
      · cases hc
      · exact hlt
  | stopped =>
    have hscanner := hsteps.scanner _ hresult
    refine ⟨_, _, rfl, hscanned _ hresult, .inl ⟨rfl, .inl ⟨?_, ?_⟩⟩⟩
    · rcases hcontrol with ⟨-, heq⟩ | ⟨hc, -⟩
      · exact heq
      · cases hc
    · rw [hscanner]
      exact hsteps.fresh rfl
  | cancelled _ hfires => simp [CancelCheck.fires, hnever] at hfires
  | overflow hne hover =>
    exfalso
    have hoffset := hall.offset_eq
    have hpos := List.length_pos_iff.mpr hne
    rw [atOffset_offset, List.length_append] at hoffset
    omega

theorem scanSpans_returns (hsource : source.Steady document snapshot)
    (hsize : snapshot.size = document.length) (limits : EngineLimits) {firstRow : Nat}
    (fuel pass : Nat) {seen : List RecordSpan}
    {scanner : FormatScanner format} {collector : SpanCollector}
    (h : Scanned format document firstRow limits.maxViewportRecords seen scanner collector)
    (hroom : collector.spans.length < limits.maxViewportRecords)
    (hfuel : document.length - scanner.offset ≤ fuel) :
    (scanSpans source snapshot limits .never fuel pass scanner collector).Returns fun scanned =>
      ∃ seen, Scanned format document firstRow limits.maxViewportRecords seen scanned.1
          scanned.2 ∧
        ScanEnded document.length limits.maxViewportRecords scanned.1 scanned.2 := by
  have hle := h.offset_le
  induction fuel generalizing pass seen scanner collector with
  | zero =>
    exact .pure ⟨seen, h, .inr ⟨hroom, by dsimp only; omega⟩⟩
  | succ fuel ih =>
    unfold scanSpans
    split
    swap
    · rename_i hdone
      rw [h.collected.limit_eq, hsize] at hdone
      exact .pure ⟨seen, h, .inr ⟨hroom, by dsimp only; omega⟩⟩
    rename_i hmore
    rw [hsize] at hmore
    apply Exec.Returns.bind (ensureSourceUnchanged_returns hsource)
    intro _ _
    have hrequest : 0 < min (snapshot.size - scanner.offset) limits.readBufferBytes := by
      have := limits.readBufferBytes_pos
      omega
    apply Exec.Returns.bind (PositionedRead.read_returns hsource hrequest hmore.1)
    rintro chunk ⟨hne, -, hchunk⟩
    rw [if_neg (by simpa using hne)]
    apply Exec.Returns.bind (ensureSourceUnchanged_returns hsource)
    intro _ _
    have hnever : ∀ consumed, (⟨limits.cancellationCheckBytes, limits.cancellationCheckBytes_pos,
        ViewportPolls.never.feed pass⟩ : CancelCheck).isCancelled consumed = false := fun _ => rfl
    obtain ⟨seen', progress, hresult, hscanned, hcases⟩ := feed_scanned h hroom
      (hsize ▸ snapshot.size_lt) hchunk hnever
    dsimp only
    generalize scanner.feedCancellable SpanCollector.accept
      ⟨limits.cancellationCheckBytes, limits.cancellationCheckBytes_pos,
        ViewportPolls.never.feed pass⟩ chunk collector = fed at hresult hscanned hcases ⊢
    apply Exec.Returns.bind (Exec.Returns.ofExcept (a := progress) (by rw [hresult]; rfl) rfl)
    rintro _ rfl
    rw [if_neg (by simp [hscanned.collected.noOverflow])]
    rcases hcases with ⟨hstopped, hend⟩ | ⟨hcomplete, hoffset, hroom'⟩
    · simp only [hstopped]
      exact .pure ⟨seen', hscanned, hend⟩
    · simp only [hcomplete]
      have hpos := List.length_pos_iff.mpr hne
      exact ih (pass + 1) hscanned hroom' (by omega) hscanned.offset_le

/-! ## Reading the previews -/

theorem fillPreview_returns (hsource : source.Steady document snapshot) {start copySize : Nat}
    (hspan : start + copySize ≤ document.length) (fuel pass : Nat) {filled : List Byte}
    (hfilled : filled = (document.drop start).take filled.length)
    (hle : filled.length ≤ copySize) (hfuel : copySize - filled.length ≤ fuel) :
    (fillPreview source snapshot (fun _ => false) start copySize fuel pass filled).Returns
      fun bytes => bytes = (document.drop start).take copySize := by
  induction fuel generalizing pass filled with
  | zero =>
    have hlen : filled.length = copySize := by omega
    exact .pure (hlen ▸ hfilled)
  | succ fuel ih =>
    unfold fillPreview
    split
    swap
    · have hlen : filled.length = copySize := by omega
      exact .pure (hlen ▸ hfilled)
    apply Exec.Returns.bind (ensureSourceUnchanged_returns hsource)
    intro _ _
    apply Exec.Returns.bind (PositionedRead.read_returns hsource (by omega) (by omega))
    rintro bytes ⟨hne, hshort, hread⟩
    rw [if_neg (by simpa using hne)]
    apply Exec.Returns.bind (ensureSourceUnchanged_returns hsource)
    intro _ _
    have hpos := List.length_pos_iff.mpr hne
    refine ih (pass + 1) ?_ (by simp; omega) (by simp; omega)
    rw [List.length_append, List.take_add, ← hfilled, List.drop_drop,
      ← List.prefix_iff_eq_take.mp hread]

theorem materializePreviews_returns (hsource : source.Steady document snapshot)
    (limits : EngineLimits) (i payload : Nat) {spans : List (Nat × RecordSpan)}
    (hspans : ∀ row span, (row, span) ∈ spans → span.stop ≤ document.length) :
    (materializePreviews source snapshot limits .never i payload spans).Returns fun records =>
      records = previews document limits.maxRecordPreviewBytes payload spans := by
  induction spans generalizing i payload with
  | nil => exact .pure rfl
  | cons entry spans ih =>
    obtain ⟨row, span⟩ := entry
    unfold materializePreviews previews
    have hstop := hspans row span List.mem_cons_self
    have horder := span.start_le_stop
    have hlen : span.len = span.stop - span.start := rfl
    dsimp only
    generalize hcopy : min (min span.len limits.maxRecordPreviewBytes) payload = copySize
    apply Exec.Returns.bind
      (fillPreview_returns hsource (by omega) copySize 0 rfl (Nat.zero_le _) (Nat.le_refl _))
    rintro _ rfl
    apply Exec.Returns.bind (ih (i + 1) (payload - copySize) fun row span h =>
      hspans row span (List.mem_cons_of_mem _ h))
    rintro _ rfl
    refine .pure ?_
    rw [RecordSpan.bytesOf, List.take_take, Nat.min_eq_left (by omega)]

/-! ## The whole call -/

theorem viewportOf_returns (hsource : source.Steady document snapshot) (limits : EngineLimits)
    {spans : List (Nat × RecordSpan)} (hspans : spans <:+: numbered (records format document))
    (reachedEof : Bool) (diagnostic : Option CsvDiagnostic) :
    (viewportOf source snapshot limits .never spans reachedEof diagnostic).Returns fun viewport =>
      viewport = ⟨previews document limits.maxRecordPreviewBytes limits.maxViewportPayloadBytes
        spans, reachedEof, diagnostic⟩ := by
  have htrue : ∀ row span, (row, span) ∈ spans → span.stop ≤ document.length :=
    fun row span h => record_stop_le (mem_of_mem_numbered (hspans.subset h))
  apply Exec.Returns.bind (materializePreviews_returns hsource limits 0 _ htrue)
  rintro _ rfl
  apply Exec.Returns.bind (ensureSourceUnchanged_returns hsource)
  intro _ _
  exact .pure rfl

/-- A scan that stopped behind the last wanted span: what it collected is what was wanted,
and it stands at the end of the file just when no record follows. -/
theorem stopped_reference {firstRow limit : Nat} {seen : List RecordSpan}
    {scanner : FormatScanner format} {collector : SpanCollector} (hlimit : 0 < limit)
    (h : Scanned format document firstRow limit seen scanner collector)
    (hfull : collector.spans.length = limit)
    (hfresh : scanner = atOffset format.rules scanner.offset) :
    collector.spans = ((numbered (records format document)).drop firstRow).take limit ∧
      (scanner.offset = document.length ↔
        (records format document).length ≤ firstRow + limit) ∧
      (scanner.offset = document.length → openQuote format document = none) := by
  have hseen : seen.length = firstRow + limit := by
    have := congrArg List.length h.collected.spans_eq
    rw [hfull, List.length_drop, numbered_length] at this
    omega
  have hrecords := h.scans.remaining_eq
  rw [remaining_eq_records, hfresh, atOffset_offset] at hrecords
  have hle := h.offset_le
  refine ⟨?_, ?_, ?_⟩
  · have hpre := (numbered_front h.seen_front).drop firstRow
    rw [← h.collected.spans_eq] at hpre
    rw [List.prefix_iff_eq_take.mp hpre, hfull]
  · have hnil : (records format document).length ≤ firstRow + limit ↔
        recordsFrom format.rules scanner.offset (document.drop scanner.offset) = [] := by
      rw [hrecords, List.length_append, hseen, ← List.length_eq_zero_iff]
      simp only [recordsFrom]
      omega
    rw [hnil, recordsFrom_eq_nil, List.drop_eq_nil_iff]
    omega
  · intro hend
    have hafter := h.scans.after_eq
    rw [hend, List.drop_length, Mealy.after_nil, hfresh] at hafter
    rw [← diagnostic_eq_openQuote, hafter]
    cases format <;> rfl

/-- A scan that came to the end of the file: `finish` delivers what is left, and no record
follows. -/
theorem ended_reference {firstRow limit : Nat} {seen : List RecordSpan}
    {scanner : FormatScanner format} {collector : SpanCollector}
    (h : Scanned format document firstRow limit seen scanner collector)
    (hroom : collector.spans.length < limit) (hend : scanner.offset = document.length)
    (hsize : document.length < u64Bound) :
    (scanner.finish SpanCollector.accept collector).sink.rowOverflow = false ∧
      (scanner.finish SpanCollector.accept collector).sink.spans =
        ((numbered (records format document)).drop firstRow).take limit ∧
      (scanner.finish SpanCollector.accept collector).diagnostic = openQuote format document ∧
      (records format document).length ≤ firstRow + limit := by
  have hrecords := h.scans.remaining_eq
  have hafter := h.scans.after_eq
  rw [hend, List.drop_length] at hrecords hafter
  rw [remaining_eq_records, Mealy.remaining_nil] at hrecords
  rw [Mealy.after_nil] at hafter
  have hdiagnostic : scanner.diagnostic = openQuote format document := by
    rw [← diagnostic_eq_openQuote, hafter]
  have hall : (scanner.finish SpanCollector.accept collector).sink.Collected firstRow limit
        (records format document) ∧
      (scanner.finish SpanCollector.accept collector).diagnostic = openQuote format document := by
    rw [hrecords]
    unfold finish
    cases hlast : scanner.lastRecord with
    | none => exact ⟨by simpa [stream, hlast] using h.collected, hdiagnostic⟩
    | some span =>
      have hrow : seen.length + 1 < u64Bound := by
        have hle := records_length_le format document
        rw [hrecords] at hle
        simp only [stream, hlast, Option.toList_some, List.length_append,
          List.length_singleton] at hle
        omega
      exact ⟨by simpa [stream, hlast] using (accept_collected h.collected span hrow).1, hdiagnostic⟩
  have hlast : (records format document).length ≤ seen.length + 1 := by
    rw [hrecords, List.length_append]
    cases hlast : scanner.lastRecord <;> simp [stream, hlast]
  have hseen : seen.length < firstRow + limit := by
    have := congrArg List.length h.collected.spans_eq
    rw [List.length_drop, numbered_length] at this
    omega
  refine ⟨hall.1.noOverflow, ?_, hall.2, by omega⟩
  rw [hall.1.spans_eq, List.take_of_length_le]
  rw [List.length_drop, numbered_length]
  omega

/-- The scanner that a true checkpoint starts stands where the whole-file scanner stands. -/
theorem checkpoint_scanned {checkpoint : Checkpoint}
    (h : StartsRow format document checkpoint ∨ checkpoint = .origin) {firstRow : Nat}
    (hrow : checkpoint.row ≤ firstRow) (limit : Nat) :
    ∃ seen, Scanned format document firstRow limit seen
      (atOffset format.rules checkpoint.offset)
      ⟨checkpoint.row, firstRow, limit, [], false⟩ := by
  have hempty : ∀ seen : List RecordSpan, seen.length = checkpoint.row →
      (⟨checkpoint.row, firstRow, limit, [], false⟩ : SpanCollector).Collected firstRow limit
        seen := by
    intro seen hseen
    refine ⟨hseen.symm, rfl, rfl, rfl, ?_⟩
    rw [List.drop_eq_nil_of_le (by simp; omega)]
  rcases h with ⟨span, hspan, hstart⟩ | rfl
  · obtain ⟨hlt, -⟩ := List.getElem?_eq_some_iff.mp hspan
    have hscans := records_scans hspan
    rw [hstart] at hscans
    exact ⟨_, hscans, hempty _ (by simp; omega)⟩
  · exact ⟨[], .refl _ _, hempty [] rfl⟩

/-- An uncancelled viewport of an unchanged source is the reference viewport, whichever
true checkpoints the index has kept and however the source is read. -/
theorem readViewport_eq_reference (hsource : source.Steady document snapshot)
    {index : AdaptiveIndex} (hindex : ∀ checkpoint ∈ index.entries,
      StartsRow format document checkpoint ∨ checkpoint = .origin)
    (firstRow : Nat) (limits : EngineLimits) (w : W) :
    (readViewport source format index.nearest firstRow limits .never w).1 =
      .ok (.reference format document firstRow limits.maxViewportRecords
        limits.maxRecordPreviewBytes limits.maxViewportPayloadBytes) := by
  have hsize := hsource.size_eq w
  have hbound : document.length < u64Bound := hsize ▸ snapshot.size_lt
  suffices h : (readViewport source format index.nearest firstRow limits .never).Returns
      fun viewport => viewport = .reference format document firstRow limits.maxViewportRecords
        limits.maxRecordPreviewBytes limits.maxViewportPayloadBytes by
    obtain ⟨_, hrun, rfl⟩ := h w
    exact hrun
  apply Exec.Returns.bind (PositionedRead.capture_returns hsource)
  rintro _ rfl
  obtain ⟨hmem, hrow⟩ := index.nearest_spec firstRow
  obtain ⟨seen, hstart⟩ := checkpoint_scanned (hindex _ hmem) hrow limits.maxViewportRecords
  have hoffset := hstart.offset_le
  rw [atOffset_offset] at hoffset
  rw [if_neg (by omega)]
  apply Exec.Returns.bind (scanSpans_returns hsource hsize limits _ 0 hstart
    limits.maxViewportRecords_pos (by omega))
  rintro ⟨scanner, collector⟩ ⟨seen, hscanned, hended⟩
  simp only at hscanned hended ⊢
  rw [hscanned.collected.limit_eq, hsize]
  have hinfix : ((numbered (records format document)).drop firstRow).take
      limits.maxViewportRecords <:+: numbered (records format document) :=
    (List.take_prefix _ _).isInfix.trans (List.drop_suffix _ _).isInfix
  have hwanted := List.length_take (i := limits.maxViewportRecords)
    (l := (numbered (records format document)).drop firstRow)
  rw [List.length_drop, numbered_length] at hwanted
  rcases hended with ⟨hfull, hfresh⟩ | ⟨hroom, hend⟩
  · obtain ⟨hspans, heof, hquote⟩ :=
      stopped_reference limits.maxViewportRecords_pos hscanned hfull hfresh
    rw [if_neg (by omega)]
    apply (viewportOf_returns hsource limits (hspans ▸ hinfix) _ _).mono
    rintro _ rfl
    rw [Viewport.reference, ← hspans, hfull]
    congr 1
    · rw [Bool.beq_eq_decide_eq]
      exact decide_eq_decide.mpr heof
    · split
      · rename_i hlast
        exact (hquote (heof.mpr hlast)).symm
      · rfl
  · obtain ⟨hoverflow, hspans, hdiagnostic, hlast⟩ := ended_reference hscanned hroom hend hbound
    rw [if_pos ⟨by simp [hend], hroom⟩, if_neg (by simp [hoverflow])]
    apply (viewportOf_returns hsource limits (hspans ▸ hinfix) _ _).mono
    rintro _ rfl
    rw [Viewport.reference, hspans, hdiagnostic, if_pos hlast, hend]
    congr 1
    symm
    simp only [beq_self_eq_true, decide_eq_true_eq]
    omega

theorem readViewport_eq_reference_twoLines :
    (readViewport (.ofBytes [97, 10, 98] (by decide)) .lines
      (AdaptiveIndex.nearest ⟨[.origin], 4, 1, .rows, .origin, rfl⟩) 1
      ⟨2, 3, 8, 8, 1, by decide, by decide, by decide⟩ .never ()).1 =
      .ok ⟨[⟨1, ⟨2, 3, by decide⟩, [98], false⟩], true, none⟩ :=
  (readViewport_eq_reference (PositionedRead.ofBytes_steady _ _)
    (fun _ h => .inr (List.mem_singleton.mp h)) 1 _ ()).trans (congrArg _ (by decide))

end Steady

end LeanRows
