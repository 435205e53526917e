import LeanRows.Worker.Shown
import LeanRows.Engine.Reads

/-!
# The document that is shown

While the files of some paths stay as they are, the rows in an event are records of the file,
each built from the bytes that stand in the file, and there are as many of them as the order has
from there on, up to a screenful. Neither the pieces in which the file is read nor what the
tokens answer nor the calls in between show in them.
-/

namespace LeanRows.Worker

set_option autoImplicit false

/-! ## The cache of a snapshot -/

theorem convertRow_ok {columns : UiColumnLayout} {row : UiCachedRow} {cached : CachedRow}
    (h : convertRow columns row = .ok cached) :
    cached = ⟨row.displayRank, row.absoluteRow, row.cells⟩ := by
  unfold convertRow at h
  split at h
  · cases h
  split at h
  · cases h
  split at h
  · cases h
  · cases h
    rfl

theorem convertRows_ok {columns : UiColumnLayout} {rows : List UiCachedRow}
    {cached : List CachedRow} (h : rows.mapM (convertRow columns) = .ok cached) :
    cached = rows.map fun row => ⟨row.displayRank, row.absoluteRow, row.cells⟩ := by
  induction rows generalizing cached with
  | nil =>
    cases h
    rfl
  | cons row rows ih =>
    rw [List.mapM_cons] at h
    cases hrow : convertRow columns row with
    | error error =>
      rw [hrow] at h
      cases h
    | ok head =>
      rw [hrow] at h
      cases hrest : rows.mapM (convertRow columns) with
      | error error =>
        rw [hrest] at h
        cases h
      | ok rest =>
        rw [hrest] at h
        cases h
        rw [List.map_cons, ← ih hrest, convertRow_ok hrow]

/-- Rows whose ranks follow one another stay in their places. -/
theorem new_consecutive {rows : List CachedRow} {first : Nat}
    (h : ∀ i row, rows[i]? = some row → row.displayRank = first + i) :
    ImmutableRowCache.new rows = rows := by
  refine List.mergeSort_of_pairwise (List.pairwise_iff_getElem.mpr fun i j hi hj hij => ?_)
  rw [decide_eq_true_eq, h i _ (List.getElem?_eq_getElem hi), h j _ (List.getElem?_eq_getElem hj)]
  omega

theorem row_consecutive {rows : List CachedRow} {first : Nat}
    (h : ∀ i row, rows[i]? = some row → row.displayRank = first + i) (i : Nat) :
    ImmutableRowCache.row rows (first + i) = rows[i]? := by
  unfold ImmutableRowCache.row
  cases hi : rows[i]? with
  | none =>
    refine List.find?_eq_none.mpr fun row hmem => ?_
    obtain ⟨j, hj⟩ := List.getElem?_of_mem hmem
    have hlt := (List.getElem?_eq_some_iff.mp hj).1
    have hle := List.getElem?_eq_none_iff.mp hi
    rw [h j row hj, beq_iff_eq]
    omega
  | some row =>
    obtain ⟨hlt, hrow⟩ := List.getElem?_eq_some_iff.mp hi
    refine List.find?_eq_some_iff_getElem.mpr ⟨by rw [h i row hi, beq_self_eq_true], i, hlt, hrow,
      fun j hj => ?_⟩
    rw [h j _ (List.getElem?_eq_getElem (by omega))]
    simp only [Bool.not_eq_true', beq_eq_false_iff_ne]
    omega

section Contents
variable {W X Q Z : Type} (services : Services W X Q Z)

/-! ## What is to be shown -/

/-- The text files at some paths, which stay as they are: whenever the file of the path is
opened, its handle reads the document. -/
def Opens (documents : String → Option (DocumentFormat × List Byte)) : Prop :=
  ∀ path w kind file, (services.openFile path w).1 = .ok (kind, file) →
    ∀ format document, documents path = some (format, document) →
      kind = .text format ∧ file.handle.Reads document

/-- The record at a rank: that of the number, or what the order answers. -/
def RecordAt (format : DocumentFormat) (document : List Byte) (rank sourceRow : Nat)
    (span : RecordSpan) : Option (SortedOrder W) → Prop
  | none => sourceRow = rank ∧ (records format.viewportFormat document)[rank]? = some span
  | some order => ∃ w, (order.recordAt rank w).1 = .ok ⟨sourceRow, span⟩

def rowCountOf (format : DocumentFormat) (document : List Byte) : Option (SortedOrder W) → Nat
  | none => (records format.viewportFormat document).length
  | some order => order.len

/-- The row carries the number of the record and the cells that are built from its bytes. -/
def ShowsRecord (format : DocumentFormat) (document : List Byte) (row : CachedRow)
    (sourceRow : Nat) (span : RecordSpan) : Prop :=
  ∃ built, buildCachedRow services.encode (sourcePreview document sourceRow span) format
    projectionLimits = .ok built ∧ row.absoluteRow = sourceRow ∧ row.cells = built.cells

/-- The rows of the cache are those of the order from the first one on, up to a screenful. -/
structure ShowsRows (format : DocumentFormat) (document : List Byte)
    (order : Option (SortedOrder W)) (cache : ImmutableRowCache) (firstRow rowCount : Nat) :
    Prop where
  count : rowCount = min (rowCountOf format document order - firstRow) maxViewportRows
  length : List.length cache = rowCount
  rows : ∀ i < rowCount, ∃ row sourceRow span,
    ImmutableRowCache.row cache (firstRow + i) = some row ∧
      RecordAt format document (firstRow + i) sourceRow span order ∧
      ShowsRecord services format document row sourceRow span

/-- The event says how many rows there are: as many as the order has; in source order as many as
have been found, which are all of them where the scan is complete, or those up to the last one
shown. -/
def CountsRows (format : DocumentFormat) (document : List Byte) (event : WorkerEvent) :
    Option (SortedOrder W) → Prop
  | some order => event.progress.availableRows = order.len
  | none => ∃ found ≤ (records format.viewportFormat document).length,
      event.progress.availableRows =
        max found (saturatingAdd event.cacheFirstRow event.cachedRows) ∧
      (event.progress.complete = true →
        found = (records format.viewportFormat document).length)

/-- The engine reads the document, whose size it has noted, and its scan has got on with it. -/
def OnDocument (documents : String → Option (DocumentFormat × List Byte)) (path : String)
    (file : SourceFile W) (snapshot : SourceFingerprint) (content : DocumentContent X) : Prop :=
  ∀ format document, documents path = some (format, document) →
    file.handle.Reads document ∧ snapshot.size = document.length ∧
      ∃ scan, content = .text format scan ∧ scan.Tracks document

variable {services} {documents : String → Option (DocumentFormat × List Byte)} {path : String}

theorem steps_onDocument : DocumentEngine.Steps services.xlsx (OnDocument documents path) where
  text file snapshot format scan polls w h := by
    intro format' document hdocument
    obtain ⟨hreads, hsize, scan', hcontent, htracks⟩ := h format' document hdocument
    cases hcontent
    exact ⟨hreads, hsize, _, rfl, (ScanSession.step_keeps hreads htracks _ polls w).tracks⟩
  xlsx file snapshot content polls w h := by
    intro format document hdocument
    obtain ⟨-, -, scan, hcontent, -⟩ := h format document hdocument
    cases hcontent

theorem EngineOf.onDocument (hopens : Opens services documents) {engine : DocumentEngine W X}
    (h : EngineOf services path engine) :
    OnDocument documents path engine.file engine.sourceSnapshot engine.content := by
  induction h with
  | @opened kind file sheet polls content w w' hfile hcontent fingerprint w'' hfingerprint =>
    intro format document hdocument
    obtain ⟨rfl, hreads⟩ := hopens path w kind file hfile format document hdocument
    refine ⟨hreads, hreads.size w'' fingerprint hfingerprint, ?_⟩
    simp only [DocumentEngine.openContent] at hcontent
    cases hnew : (ScanSession.new file.handle format.viewportFormat DocumentEngine.scanConfig
      w').1 with
    | error error =>
      rw [hnew] at hcontent
      cases hcontent
    | ok scan =>
      rw [hnew] at hcontent
      cases hcontent
      exact ⟨scan, rfl, ScanSession.new_tracks hreads hnew⟩
  | @scan engine _ entry polls w ih =>
    exact (DocumentEngine.scanStep_leaves steps_onDocument entry polls (engine, w) ih).2
  | @rows engine _ firstRow polls w ih =>
    exact (DocumentEngine.snapshot_leaves firstRow polls (engine, w) ih).2
  | @ordered engine _ order firstRow polls w ih =>
    exact (DocumentEngine.snapshotOrdered_leaves order firstRow polls (engine, w) ih).2
  | @checked engine _ w ih => exact (DocumentEngine.verifySource_leaves true (engine, w) ih).2
  | @query engine _ w ih => exact (DocumentEngine.queryPlan_leaves (engine, w) ih).2
  | @sort engine _ w ih => exact (DocumentEngine.sortPlan_leaves (engine, w) ih).2

/-! ## Rows -/

theorem SnapshotOf.shows (hopens : Opens services documents)
    {order : Option (SortedOrder W)} {snapshot : UiRowSnapshot}
    (h : SnapshotOf services path order snapshot) {format : DocumentFormat}
    {document : List Byte} (hdocument : documents path = some (format, document)) :
    snapshot.rows.length =
        min (rowCountOf format document order - snapshot.firstRow) maxViewportRows ∧
      ∀ i row, snapshot.rows[i]? = some row → ∃ sourceRow span,
        RecordAt format document (snapshot.firstRow + i) sourceRow span order ∧
          DocumentEngine.RowOf services.encode format document row sourceRow span
            (snapshot.firstRow + i) := by
  obtain ⟨engine, w, firstRow, polls, rows, hengine, hread⟩ := h
  obtain ⟨hreads, -, scan, hcontent, htracks⟩ :=
    hengine.onDocument hopens format document hdocument
  cases order with
  | none =>
    obtain ⟨rfl, hlength, hrows⟩ :=
      (DocumentEngine.snapshot_shows hreads hcontent htracks firstRow polls).value hread
    refine ⟨hlength, fun i row hi => ?_⟩
    obtain ⟨span, hspan, hrow⟩ := hrows i row hi
    exact ⟨_, span, ⟨rfl, hspan⟩, hrow⟩
  | some order =>
    obtain ⟨rfl, hlength, hrows⟩ :=
      (DocumentEngine.snapshotOrdered_shows hreads hcontent order firstRow rows).value hread
    refine ⟨hlength, fun i row hi => ?_⟩
    obtain ⟨w, record, hrecord, hrow⟩ := hrows i row hi
    exact ⟨record.sourceRow, record.span, ⟨w, hrecord⟩, hrow⟩

theorem RowsOf.shows (hopens : Opens services documents) {order : Option (SortedOrder W)}
    {cache : CacheState} (h : RowsOf services path order cache) {format : DocumentFormat}
    {document : List Byte} (hdocument : documents path = some (format, document)) :
    ShowsRows services format document order cache.cache cache.firstRow cache.rowCount := by
  obtain ⟨snapshot, columns, hsnapshot, hconvert⟩ := h
  obtain ⟨hlength, hrows⟩ := hsnapshot.shows hopens hdocument
  unfold convertCache at hconvert
  split at hconvert
  · cases hconvert
  cases hmap : snapshot.rows.mapM (convertRow snapshot.columns) with
  | error error =>
    rw [hmap] at hconvert
    cases hconvert
  | ok cached =>
    rw [hmap] at hconvert
    cases hconvert
    have hcached := convertRows_ok hmap
    have hranks : ∀ i row, cached[i]? = some row → row.displayRank = snapshot.firstRow + i := by
      intro i row hi
      rw [hcached, List.getElem?_map, Option.map_eq_some_iff] at hi
      obtain ⟨shown, hshown, rfl⟩ := hi
      obtain ⟨-, -, -, built, -, rfl⟩ := hrows i shown hshown
      rfl
    refine ⟨hlength, ?_, fun i hi => ?_⟩
    · dsimp only
      rw [new_consecutive hranks, hcached, List.length_map]
    have hshown := List.getElem?_eq_getElem hi
    obtain ⟨sourceRow, span, hrecord, built, hbuilt, hrow⟩ := hrows i _ hshown
    refine ⟨⟨snapshot.rows[i].displayRank, snapshot.rows[i].absoluteRow, snapshot.rows[i].cells⟩,
      sourceRow, span, ?_, hrecord, built, hbuilt, ?_⟩
    · dsimp only
      rw [new_consecutive hranks, row_consecutive hranks, hcached, List.getElem?_map, hshown]
      rfl
    · rw [hrow]
      exact ⟨(buildCachedRow_ok hbuilt).1, rfl⟩

theorem ProgressOf.counts (hopens : Opens services documents) {event : WorkerEvent}
    {order : Option (SortedOrder W)} {cache : CacheState}
    (h : ProgressOf services event.path cache event.progress order)
    (hfirst : event.cacheFirstRow = cache.firstRow) (hcount : event.cachedRows = cache.rowCount)
    {format : DocumentFormat} {document : List Byte}
    (hdocument : documents event.path = some (format, document)) :
    CountsRows format document event order := by
  obtain ⟨engine, hengine, hprogress⟩ := h
  obtain ⟨-, -, scan, hcontent, htracks⟩ := hengine.onDocument hopens format document hdocument
  cases order with
  | some order =>
    rw [CountsRows, hprogress]
    rfl
  | none =>
    have hengineProgress : engine.progress services.xlsx = ⟨scan.scannerOffset, scan.snapshot.size,
        scan.recordCount, scan.isComplete, scan.diagnostic⟩ := by
      rw [DocumentEngine.progress, hcontent]
    rw [CountsRows, hprogress, hfirst, hcount, hengineProgress]
    obtain ⟨delivered, hsaw, hprefix⟩ := htracks.observed_prefix
    refine ⟨scan.recordCount, hsaw.count.trans_le hprefix.length_le, rfl, fun hcomplete => ?_⟩
    exact (htracks.complete_eq (Option.isNone_iff_eq_none.mp hcomplete)).1

end Contents

theorem twoLines_opens : Opens twoLines fun _ => some (.log, [97, lf, 98, lf]) := by
  intro path w kind file hfile format document hdocument
  cases hfile
  cases hdocument
  exact ⟨rfl, DocumentEngine.twoLineFile_steady.toReads⟩

end LeanRows.Worker
