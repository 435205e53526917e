import LeanRows.Engine.Sorted

/-!
# Rows that come through

A call for rows reads the file in pieces, asks the token between them and may fail at any of
them. Where it comes back with rows, they are those of the document: nothing of how it was read
and asked is left in them.
-/

namespace LeanRows

set_option autoImplicit false

open BoundaryScanner

/-! ## The scan of a viewport -/

/-- The token only cuts a feed off. -/
theorem feedInner_polled {rules : BoundaryRules} {σ : Type} (check : CancelCheck)
    (emit : RecordSpan → σ → EmitControl × σ) (chunk : List Byte) (consumed : Nat)
    (s : BoundaryScanner rules) (sink : σ) :
    feedInner (some check) emit chunk consumed s sink =
        feedInner (some { check with isCancelled := fun _ => false }) emit chunk consumed s sink ∨
      ∃ count, (feedInner (some check) emit chunk consumed s sink).result =
        .ok ⟨count, .cancelled⟩ := by
  induction chunk generalizing consumed s sink with
  | nil => exact .inl rfl
  | cons byte chunk ih =>
    have hnever : CancelCheck.fires (some { check with isCancelled := fun _ => false }) consumed =
        false := by simp [CancelCheck.fires]
    simp only [feedInner, hnever, Bool.false_eq_true, if_false]
    split
    · exact .inr ⟨consumed, rfl⟩
    split
    · exact .inl rfl
    split
    · split
      · exact .inl rfl
      · exact ih _ _ _
    · exact .inl rfl

section Reads
variable {W : Type} {source : PositionedRead W} {document : List Byte}
  {snapshot : SourceFingerprint} {format : ViewportFormat}

theorem scanSpans_ensures (hsource : source.Reads document)
    (hsize : snapshot.size = document.length) (limits : EngineLimits) (polls : ViewportPolls)
    {firstRow : Nat} (fuel pass : Nat) {seen : List RecordSpan}
    {scanner : FormatScanner format} {collector : SpanCollector}
    (h : Scanned format document firstRow limits.maxViewportRecords seen scanner collector)
    (hroom : collector.spans.length < limits.maxViewportRecords)
    (hfuel : document.length - scanner.offset ≤ fuel) :
    (scanSpans source snapshot limits polls fuel pass scanner collector).Ensures fun scanned =>
      ∃ seen, Scanned format document firstRow limits.maxViewportRecords seen scanned.1
          scanned.2 ∧
        ScanEnded document.length limits.maxViewportRecords scanned.1 scanned.2 := by
  have hle := h.offset_le
  induction fuel generalizing pass seen scanner collector with
  | zero => exact .pure ⟨seen, h, .inr ⟨hroom, by dsimp only; omega⟩⟩
  | succ fuel ih =>
    unfold scanSpans
    split
    swap
    · rename_i hdone
      rw [h.collected.limit_eq, hsize] at hdone
      exact .pure ⟨seen, h, .inr ⟨hroom, by dsimp only; omega⟩⟩
    split
    · exact .throw _
    refine .bind .trivial fun _ _ => .bind (PositionedRead.read_ensures hsource _ _) ?_
    rintro chunk ⟨-, hchunk⟩
    split
    · exact .throw _
    rename_i hne
    have hpos : 0 < chunk.length := List.length_pos_iff.mpr (by simpa using hne)
    refine .bind .trivial fun _ _ => ?_
    dsimp only
    generalize hcheck : (⟨limits.cancellationCheckBytes, limits.cancellationCheckBytes_pos,
      polls.feed pass⟩ : CancelCheck) = check
    have hpolled := feedInner_polled check SpanCollector.accept chunk 0 scanner collector
    rw [← feedCancellable, ← feedCancellable] at hpolled
    rcases hpolled with hsame | ⟨count, hcancelled⟩
    swap
    · refine .bind (.ofExcept fun progress hprogress => ?_) fun progress (hprogress :
        progress.status = .cancelled) => ?_
      · rw [hcancelled] at hprogress
        cases hprogress
        rfl
      · split
        · exact .throw _
        · rw [hprogress]
          exact .throw _
    rw [hsame]
    have hnever : ∀ consumed,
        ({ check with isCancelled := fun _ => false } : CancelCheck).isCancelled consumed =
          false := fun _ => rfl
    obtain ⟨seen', progress, hresult, hscanned, hcases⟩ := feed_scanned h hroom
      (hsize ▸ snapshot.size_lt) hchunk hnever
    generalize scanner.feedCancellable SpanCollector.accept
      { check with isCancelled := fun _ => false } chunk collector = fed
      at hresult hscanned hcases ⊢
    refine .bind (.ofExcept fun progress' (hprogress' : _ = Except.ok progress') => ?_)
      fun progress' (hprogress' : progress' = progress) => ?_
    · rw [hresult] at hprogress'
      exact (Except.ok.inj hprogress').symm
    subst hprogress'
    rw [if_neg (by simp [hscanned.collected.noOverflow])]
    rcases hcases with ⟨hstopped, hend⟩ | ⟨hcomplete, hoffset, hroom'⟩
    · simp only [hstopped]
      exact .pure ⟨seen', hscanned, hend⟩
    · simp only [hcomplete]
      exact ih (pass + 1) hscanned hroom' (by omega) hscanned.offset_le

/-! ## The previews of a viewport -/

theorem fillPreview_ensures (hsource : source.Reads document) (polls : Nat → Bool)
    (start copySize fuel pass : Nat) {filled : List Byte}
    (hfilled : filled = (document.drop start).take filled.length)
    (hle : filled.length ≤ copySize) (hfuel : copySize - filled.length ≤ fuel) :
    (fillPreview source snapshot polls start copySize fuel pass filled).Ensures
      fun bytes => bytes = (document.drop start).take copySize := by
  induction fuel generalizing pass filled with
  | zero =>
    have hlen : filled.length = copySize := by omega
    exact .pure (hlen ▸ hfilled)
  | succ fuel ih =>
    unfold fillPreview
    split
    swap
    · have hlen : filled.length = copySize := by omega
      exact .pure (hlen ▸ hfilled)
    split
    · exact .throw _
    refine .bind .trivial fun _ _ => .bind (PositionedRead.read_ensures hsource _ _) ?_
    rintro bytes ⟨hshort, hread⟩
    split
    · exact .throw _
    rename_i hne
    have hpos : 0 < bytes.length := List.length_pos_iff.mpr (by simpa using hne)
    refine .bind .trivial fun _ _ => ih (pass + 1) ?_ (by simp; omega) (by simp; omega)
    rw [List.length_append, List.take_add, ← hfilled, List.drop_drop,
      ← List.prefix_iff_eq_take.mp hread]

theorem materializePreviews_ensures (hsource : source.Reads document) (limits : EngineLimits)
    (polls : ViewportPolls) (i payload : Nat) (spans : List (Nat × RecordSpan)) :
    (materializePreviews source snapshot limits polls i payload spans).Ensures fun records =>
      records = previews document limits.maxRecordPreviewBytes payload spans := by
  induction spans generalizing i payload with
  | nil => exact .pure rfl
  | cons entry spans ih =>
    obtain ⟨row, span⟩ := entry
    unfold materializePreviews previews
    split
    · exact .throw _
    dsimp only
    have hlen : span.len = span.stop - span.start := rfl
    generalize hcopy : min (min span.len limits.maxRecordPreviewBytes) payload = copySize
    refine .bind (fillPreview_ensures hsource _ _ copySize copySize 0 rfl (Nat.zero_le _)
      (Nat.le_refl _)) ?_
    rintro _ rfl
    refine .bind (ih (i + 1) (payload - copySize)) ?_
    rintro _ rfl
    refine .pure ?_
    rw [RecordSpan.bytesOf, List.take_take, Nat.min_eq_left (by omega)]

/-! ## Viewports -/

theorem viewportOf_ensures (hsource : source.Reads document) (limits : EngineLimits)
    (polls : ViewportPolls) (spans : List (Nat × RecordSpan)) (reachedEof : Bool)
    (diagnostic : Option CsvDiagnostic) :
    (viewportOf source snapshot limits polls spans reachedEof diagnostic).Ensures fun viewport =>
      viewport.records =
        previews document limits.maxRecordPreviewBytes limits.maxViewportPayloadBytes spans := by
  refine .bind (materializePreviews_ensures hsource limits polls 0 _ spans) ?_
  rintro _ rfl
  exact .bind .trivial fun _ _ => .pure rfl

/-- The records of a viewport are the wanted ones, with what each has room for. -/
theorem readViewport_ensures (hsource : source.Reads document)
    {index : AdaptiveIndex} (hindex : ∀ checkpoint ∈ index.entries,
      StartsRow format document checkpoint ∨ checkpoint = .origin)
    (firstRow : Nat) (limits : EngineLimits) (polls : ViewportPolls) :
    (readViewport source format index.nearest firstRow limits polls).Ensures fun viewport =>
      viewport.records = previews document limits.maxRecordPreviewBytes
        limits.maxViewportPayloadBytes
        (((numbered (records format document)).drop firstRow).take limits.maxViewportRecords) := by
  unfold readViewport
  split
  · exact .throw _
  refine .bind (P := fun snapshot => snapshot.size = document.length) ?_ fun snapshot hsize => ?_
  · exact mapError_ensures _ hsource.size
  have hbound : document.length < u64Bound := hsize ▸ snapshot.size_lt
  obtain ⟨hmem, hrow⟩ := index.nearest_spec firstRow
  obtain ⟨seen, hstart⟩ := checkpoint_scanned (hindex _ hmem) hrow limits.maxViewportRecords
  dsimp only
  split
  · exact .throw _
  refine .bind (scanSpans_ensures hsource hsize limits polls _ 0 hstart
    limits.maxViewportRecords_pos (by omega)) ?_
  rintro ⟨scanner, collector⟩ ⟨seen, hscanned, hended⟩
  simp only at hscanned hended ⊢
  rw [hscanned.collected.limit_eq, hsize]
  rcases hended with ⟨hfull, hfresh⟩ | ⟨hroom, hend⟩
  · obtain ⟨hspans, -, -⟩ :=
      stopped_reference limits.maxViewportRecords_pos hscanned hfull hfresh
    rw [if_neg (by omega), ← hspans]
    exact viewportOf_ensures hsource limits polls _ _ _
  · obtain ⟨hoverflow, hspans, -, -⟩ := ended_reference hscanned hroom hend hbound
    rw [if_pos ⟨by simp [hend], hroom⟩, if_neg (by simp [hoverflow]), ← hspans]
    exact viewportOf_ensures hsource limits polls _ _ _

end Reads

namespace DocumentEngine

/-! ## What a call leaves of the engine -/

section Leaves
variable {W X α β : Type} {K : SourceFile W → SourceFingerprint → DocumentContent X → Prop}

/-- The call keeps what holds of the file, of its snapshot and of the content, however it ends. -/
abbrev Leaves (K : SourceFile W → SourceFingerprint → DocumentContent X → Prop)
    (x : EngineM W X α) : Prop :=
  Exec.Preserves (fun p => K p.1.file p.1.sourceSnapshot p.1.content) x

/-- Whatever the flag and the count of bytes become. -/
theorem leaves_of_same {x : EngineM W X α} (hfile : ∀ p, (x p).2.1.file = p.1.file)
    (hsnapshot : ∀ p, (x p).2.1.sourceSnapshot = p.1.sourceSnapshot)
    (hcontent : ∀ p, (x p).2.1.content = p.1.content) : Leaves K x :=
  .self fun p hp => by rwa [hfile, hsnapshot, hcontent]

theorem leaves_inner (x : Exec W DocumentEngineError α) : Leaves K (Exec.inner x) :=
  leaves_of_same (fun _ => rfl) (fun _ => rfl) fun _ => rfl

theorem leaves_ofExcept (r : Except DocumentEngineError α) : Leaves K (Exec.ofExcept r) := by
  cases r <;> exact leaves_of_same (fun _ => rfl) (fun _ => rfl) fun _ => rfl

theorem revalidate_leaves (operation : String) (call : W → Except IoError α × W) :
    Leaves K (revalidate operation call) := by
  refine .self fun ⟨engine, w⟩ hp => ?_
  simp only [revalidate]
  rcases call w with ⟨error | evidence, w'⟩ <;> exact hp

theorem rejectChange_leaves (change : SourceChange) (actualSize : Nat) :
    Leaves K (rejectChange change actualSize) := by
  refine .get_bind fun engine w _ => ?_
  split
  · exact .bind (.modify fun _ _ h => h) fun _ => .throw
  · exact .pure

theorem verifyPlatform_leaves (windows : Option (WindowsFile W)) (strongPathCheck : Bool) :
    Leaves K (verifyPlatform windows strongPathCheck) := by
  cases windows with
  | none => exact .pure
  | some file =>
    refine .get_bind fun engine w _ => .bind (revalidate_leaves _ _) fun handle =>
      .bind (rejectChange_leaves _ _) fun _ => ?_
    split
    · refine .bind (revalidate_leaves _ _) fun _ => .bind (revalidate_leaves _ _) fun metadata => ?_
      split
      · exact rejectChange_leaves _ _
      · exact .bind (revalidate_leaves _ _) fun _ => rejectChange_leaves _ _
    · exact .pure

theorem verifySource_leaves (strongPathCheck : Bool) : Leaves K (verifySource strongPathCheck) := by
  refine .get_bind fun engine w _ => ?_
  split
  · exact .throw
  refine .bind (revalidate_leaves _ _) fun handle => .bind (rejectChange_leaves _ _) fun _ =>
    .bind (revalidate_leaves _ _) fun entry => ?_
  split
  · exact rejectChange_leaves _ _
  · exact .bind (verifyPlatform_leaves _ _) fun _ => .bind (revalidate_leaves _ _) fun _ =>
      rejectChange_leaves _ _

theorem textViewport_leaves (format : DocumentFormat) (scan : ScanSession format.viewportFormat)
    (firstRow : Nat) (polls : ViewportPolls) :
    Leaves K (textViewport format scan firstRow polls) := by
  refine .self fun ⟨engine, w⟩ hp => ?_
  simp only [textViewport]
  rcases readViewport engine.file.handle format.viewportFormat scan.index.nearest firstRow
    viewportLimits polls w with ⟨error | viewport, w'⟩ <;> exact hp

variable {encode : PreviewEncoder} {xlsx : XlsxReader W X}

theorem snapshot_leaves (firstRow : Nat) (polls : SnapshotPolls) :
    Leaves K (snapshot encode xlsx firstRow polls) := by
  unfold snapshot
  split
  · exact .throw
  refine .bind (verifySource_leaves true) fun _ => .get_bind fun engine w _ => ?_
  split
  · refine .bind ?_ fun _ => .bind (verifySource_leaves true) fun _ => .pure
    exact .get_bind fun engine w _ => .bind (leaves_inner _) fun _ =>
      .bind (leaves_ofExcept _) fun _ => .bind (leaves_ofExcept _) fun _ => .pure
  · exact .bind (textViewport_leaves _ _ _ _) fun _ => .bind (verifySource_leaves true) fun _ =>
      .bind (leaves_ofExcept _) fun _ => .bind (leaves_ofExcept _) fun _ => .pure

theorem orderedRows_leaves (order : SortedOrder W) (format : DocumentFormat) (firstRow : Nat)
    (polls : Nat → StepPolls) (count index : Nat) :
    Leaves (X := X) K (orderedRows encode order format firstRow polls count index) := by
  induction count generalizing index with
  | zero => exact .pure
  | succ count ih =>
    refine .bind ?_ fun _ => .bind (ih (index + 1)) fun _ => .pure
    exact .get_bind fun engine w _ => .bind (leaves_inner _) fun _ =>
      .bind (leaves_inner _) fun _ =>
      .bind (leaves_ofExcept _) fun _ => .pure

theorem snapshotOrdered_leaves (order : SortedOrder W) (firstRow : Nat)
    (polls : Nat → StepPolls) :
    Leaves K (snapshotOrdered (X := X) encode order firstRow polls) := by
  refine .get_bind fun engine w _ => ?_
  split
  · exact .throw
  · exact .bind (verifySource_leaves true) fun _ => .bind (orderedRows_leaves _ _ _ _ _ _) fun _ =>
      .bind (verifySource_leaves true) fun _ => .bind (leaves_ofExcept _) fun _ => .pure

theorem queryPlan_leaves : Leaves K (queryPlan : EngineM W X (DocumentQueryPlan W)) := by
  refine .get_bind fun engine w _ => ?_
  split
  · exact .throw
  · exact .bind (verifySource_leaves true) fun _ => .bind (leaves_inner _) fun _ =>
      .bind (verifySource_leaves true) fun _ => .pure

theorem sortPlan_leaves : Leaves K (sortPlan : EngineM W X (DocumentQueryPlan W)) := by
  refine .get_bind fun engine w _ => ?_
  split
  · exact .throw
  · exact queryPlan_leaves

/-- What steps of the scan, and nothing else, do to the content. -/
structure Steps (xlsx : XlsxReader W X)
    (K : SourceFile W → SourceFingerprint → DocumentContent X → Prop) : Prop where
  text : ∀ (file : SourceFile W) (snapshot : SourceFingerprint) (format : DocumentFormat)
    (scan : ScanSession format.viewportFormat) (polls : StepPolls) (w : W),
    K file snapshot (.text format scan) →
      K file snapshot (.text format (scan.step file.handle maxScanStepBytes polls w).2.1)
  xlsx : ∀ (file : SourceFile W) (snapshot : SourceFingerprint) (content : X)
    (polls : StepPolls) (w : W), K file snapshot (.xlsx content) →
      K file snapshot (.xlsx (xlsx.step content file.handle maxScanStepBytes polls w).2.1)

theorem contentStep_leaves (hsteps : Steps xlsx K) {file : SourceFile W}
    {snapshot : SourceFingerprint} {content : DocumentContent X} (h : K file snapshot content)
    (polls : StepPolls) : Exec.Triple
      (fun p => p.1.file = file ∧ p.1.sourceSnapshot = snapshot ∧ p.1.content = content)
      (contentStep xlsx content polls)
      (fun _ p => K p.1.file p.1.sourceSnapshot p.1.content)
      fun _ p => K p.1.file p.1.sourceSnapshot p.1.content := by
  rintro ⟨engine, w⟩ ⟨rfl, rfl, -⟩
  cases content with
  | text format scan =>
    have hnext := hsteps.text engine.file engine.sourceSnapshot format scan polls w h
    simp only [contentStep, textStep]
    rcases hrun : scan.step engine.file.handle maxScanStepBytes polls w with
      ⟨error | step, scan', w'⟩ <;> rwa [hrun] at hnext
  | xlsx content =>
    have hnext := hsteps.xlsx engine.file engine.sourceSnapshot content polls w h
    simp only [contentStep, xlsxStep]
    rcases hrun : xlsx.step content engine.file.handle maxScanStepBytes polls w with
      ⟨error | step, content', w'⟩ <;> rwa [hrun] at hnext

theorem scanStep_leaves (hsteps : Steps xlsx K) (entry : Bool) (polls : StepPolls) :
    Leaves K (scanStep xlsx entry polls) := by
  refine .of_triple ?_
  rintro ⟨engine, w⟩ hp
  simp only [scanStep, Exec.run_get_bind]
  cases entry with
  | true => exact hp
  | false =>
  simp only [Bool.false_eq_true, if_false]
  have hverify : Leaves (fun file snapshot content => file = engine.file ∧
      snapshot = engine.sourceSnapshot ∧ content = engine.content)
      (verifySource false : EngineM W X Unit) := verifySource_leaves false
  have hrest : ∀ r : Nat × Nat × ScanStepStatus, Leaves K
      (do
        Exec.modify fun engine : DocumentEngine W X => { engine with
          bytesSinceStrongPathCheck :=
            saturatingAdd engine.bytesSinceStrongPathCheck r.1 }
        let engine ← Exec.get
        let strongPathCheck := decide (strongPathCheckBytes ≤ engine.bytesSinceStrongPathCheck) ||
          r.2.2 == .complete
        verifySource strongPathCheck
        Exec.modify fun engine : DocumentEngine W X => { engine with
          bytesSinceStrongPathCheck :=
            if strongPathCheck then 0 else engine.bytesSinceStrongPathCheck }
        let engine ← Exec.get
        pure (⟨r.1, r.2.1, r.2.2, engine.progress xlsx⟩ : DocumentScanStep)) := fun r =>
    .bind (.modify fun _ _ h => h) fun _ => .get_bind fun _ _ _ =>
      .bind (verifySource_leaves _) fun _ => .bind (.modify fun _ _ h => h) fun _ =>
      .get_bind fun _ _ _ => .pure
  refine Exec.Triple.bind (hverify.triple.weaken (fun _ h => h) (fun _ _ h => h) ?_) (fun _ =>
    Exec.Triple.bind (contentStep_leaves hsteps hp polls) fun r => (hrest r).triple)
    (engine, w) ⟨rfl, rfl, rfl⟩
  rintro _ ⟨engine', w'⟩ ⟨hfile, hsnapshot, hcontent⟩
  dsimp only at hfile hsnapshot hcontent ⊢
  rwa [hfile, hsnapshot, hcontent]

end Leaves

/-! ## The rows of a snapshot -/

section Rows
variable {W X α : Type} {encode : PreviewEncoder} {xlsx : XlsxReader W X}
  {engine : DocumentEngine W X} {document : List Byte} {format : DocumentFormat}
  {scan : ScanSession format.viewportFormat}

/-- The row is built from what is read of the record. -/
def RowOf (encode : PreviewEncoder) (format : DocumentFormat) (document : List Byte)
    (row : UiCachedRow) (sourceRow : Nat) (span : RecordSpan) (rank : Nat) : Prop :=
  ∃ built, buildCachedRow encode (sourcePreview document sourceRow span) format
    projectionLimits = .ok built ∧ row = { built with displayRank := rank }

theorem buildRows_length {build : α → Except DocumentEngineError UiCachedRow}
    {polls : Nat → Bool} {i : Nat} {records : List α} {rows : List UiCachedRow}
    (h : buildRows build polls i records = .ok rows) : rows.length = records.length := by
  induction records generalizing i rows with
  | nil =>
    cases h
    rfl
  | cons head records ih =>
    unfold buildRows at h
    split at h
    · cases h
    cases hhead : build head with
    | error e =>
      rw [hhead] at h
      cases h
    | ok row =>
      simp only [hhead, bind, Except.bind] at h
      cases hrest : buildRows build polls (i + 1) records with
      | error e =>
        rw [hrest] at h
        cases h
      | ok rest =>
        rw [hrest] at h
        cases h
        rw [List.length_cons, List.length_cons, ih hrest]

/-- The rows from `firstRow` on, as many as there are, up to a screenful. -/
theorem snapshot_shows (hsource : engine.file.handle.Reads document)
    (hcontent : engine.content = .text format scan) (htracks : scan.Tracks document)
    (firstRow : Nat) (polls : SnapshotPolls) :
    Gives engine (snapshot encode xlsx firstRow polls) fun shown =>
      shown.firstRow = firstRow ∧
      shown.rows.length =
        min ((records format.viewportFormat document).length - firstRow) maxViewportRows ∧
      ∀ i row, shown.rows[i]? = some row → ∃ span,
        (records format.viewportFormat document)[firstRow + i]? = some span ∧
          RowOf encode format document row (firstRow + i) span (firstRow + i) := by
  unfold snapshot
  split
  · exact .throw _
  refine .bind (verifySource_gives true) fun _ _ => get_bind_gives ?_
  rw [hcontent]
  have hread : Gives engine (textViewport (X := X) format scan firstRow polls.read) fun viewport =>
      viewport.records = (((numbered (records format.viewportFormat document)).drop firstRow).take
        maxViewportRows).map fun entry => sourcePreview document entry.1 entry.2 := by
    rintro ⟨engine', w⟩ hp
    obtain rfl : engine = engine' := hp.symm
    have hrecords := readViewport_ensures hsource
      (fun _ hmem => (htracks.startsRow hmem).imp_right And.right) firstRow viewportLimits
      polls.read w
    simp only [textViewport]
    rcases hrun : readViewport engine.file.handle format.viewportFormat scan.index.nearest
      firstRow viewportLimits polls.read w with ⟨error | viewport, w'⟩
    · trivial
    · rw [hrun] at hrecords
      refine ⟨rfl, (hrecords viewport rfl).trans (previews_eq_map document ?_)⟩
      exact Nat.mul_le_mul_right _ (List.length_take_le _ _)
  refine .bind hread fun viewport hviewport => .bind (verifySource_gives true) fun _ _ =>
    .bind (.ofExcept fun _ h => h) fun rows hrows =>
    .bind (.ofExcept fun _ _ => trivial) fun columns _ => .pure ⟨rfl, ?_, ?_⟩
  · rw [buildRows_length hrows, hviewport, List.length_map, List.length_take, List.length_drop,
      numbered_length, Nat.min_comm]
  · intro i row hrow
    have hi : i < viewport.records.length := by
      rw [← buildRows_length hrows]
      exact (List.getElem?_eq_some_iff.mp hrow).1
    obtain ⟨built, hbuilt, hshown⟩ := buildRows_ok hrows (List.getElem?_eq_getElem hi)
    obtain rfl : row = built := Option.some.inj (hrow.symm.trans hshown)
    have hlength := congrArg List.length hviewport
    rw [List.length_map, List.length_take, List.length_drop, numbered_length] at hlength
    have hin : firstRow + i < (records format.viewportFormat document).length := by omega
    have hspan := List.getElem?_eq_getElem hin
    have hpreview : viewport.records[i]? = some (sourcePreview document (firstRow + i)
        (records format.viewportFormat document)[firstRow + i]) := by
      rw [hviewport, List.getElem?_map, List.getElem?_take_of_lt (by omega), List.getElem?_drop,
        numbered_getElem? hspan]
      rfl
    rw [List.getElem?_eq_getElem hi] at hpreview
    rw [Option.some.inj hpreview] at hbuilt
    have hrank : row.displayRank = firstRow + i := (buildCachedRow_ok hbuilt).2.1
    exact ⟨_, hspan, row, hbuilt, by rw [← hrank]⟩

/-- The rows of the records that the order answers with. -/
theorem snapshotOrdered_shows (hsource : engine.file.handle.Reads document)
    (hcontent : engine.content = .text format scan) (order : SortedOrder W) (firstRow : Nat)
    (polls : Nat → StepPolls) :
    Gives engine (snapshotOrdered (X := X) encode order firstRow polls) fun shown =>
      shown.firstRow = firstRow ∧
      shown.rows.length = min (order.len - firstRow) maxViewportRows ∧
      ∀ i row, shown.rows[i]? = some row → ∃ w record,
        (order.recordAt (firstRow + i) w).1 = .ok record ∧
          RowOf encode format document row record.sourceRow record.span (firstRow + i) := by
  have hrow : ∀ rank polls, Gives engine (orderedRow (X := X) encode order format rank polls)
      fun row => ∃ w record, (order.recordAt rank w).1 = .ok record ∧
        RowOf encode format document row record.sourceRow record.span rank := by
    intro rank polls
    apply get_bind_gives
    refine .bind (.inner (mapError_ensures (P := fun record => ∃ w,
      (order.recordAt rank w).1 = .ok record) DocumentEngineError.order fun w record h => ⟨w, h⟩))
      fun record hrecord => ?_
    obtain ⟨w, hrecord⟩ := hrecord
    refine .bind (.inner (mapError_ensures mapViewportError (readAt_ensures hsource _ _ polls))) ?_
    rintro _ rfl
    exact .bind (.ofExcept fun _ h => h) fun built hbuilt =>
      .pure ⟨w, record, hrecord, built, hbuilt, rfl⟩
  have hrows : ∀ count index, Gives engine
      (orderedRows (X := X) encode order format firstRow polls count index) fun rows =>
        rows.length = count ∧ ∀ i row, rows[i]? = some row → ∃ w record,
          (order.recordAt (firstRow + index + i) w).1 = .ok record ∧
            RowOf encode format document row record.sourceRow record.span
              (firstRow + index + i) := by
    intro count
    induction count with
    | zero => exact fun index => .pure ⟨rfl, by simp⟩
    | succ count ih =>
      intro index
      refine .bind (hrow _ _) fun head hhead => .bind (ih (index + 1)) fun rows hrows =>
        .pure ⟨by rw [List.length_cons, hrows.1], fun i row hi => ?_⟩
      cases i with
      | zero =>
        cases hi
        exact hhead
      | succ i =>
        have htail := hrows.2 i row hi
        rwa [show firstRow + (index + 1) + i = firstRow + index + (i + 1) by omega] at htail
  apply get_bind_gives
  rw [hcontent]
  exact .bind (verifySource_gives true) fun _ _ => .bind (hrows _ 0) fun rows hshown =>
    .bind (verifySource_gives true) fun _ _ => .bind (.ofExcept fun _ _ => trivial) fun _ _ =>
    .pure ⟨rfl, hshown.1, hshown.2⟩

end Rows

end DocumentEngine

end LeanRows
