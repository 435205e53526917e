import LeanRows.Engine.Integrity

/-!
# Rows under an order

The rows of an order are read by another path than the rows of the source: the span is
stored, and each record is read for itself. Both come to the same preview of a record, so
a sorted view shows the rows of the source view in other places.
-/

namespace LeanRows

set_option autoImplicit false

/-- The preview that every path reads of a record. -/
def sourcePreview (document : List Byte) (row : Nat) (span : RecordSpan) : RecordPreview :=
  let size := min span.len maxRecordPreviewBytes
  ⟨row, span, (span.bytesOf document).take size, size < span.len⟩

/-- With room for every record the payload changes nothing. -/
theorem previews_eq_map (document : List Byte) {payload : Nat} {spans : List (Nat × RecordSpan)}
    (hroom : spans.length * maxRecordPreviewBytes ≤ payload) :
    previews document maxRecordPreviewBytes payload spans =
      spans.map fun entry => sourcePreview document entry.1 entry.2 := by
  induction spans generalizing payload with
  | nil => rfl
  | cons entry spans ih =>
    obtain ⟨row, span⟩ := entry
    rw [List.length_cons, Nat.succ_mul] at hroom
    have hsize : min (min span.len maxRecordPreviewBytes) payload =
        min span.len maxRecordPreviewBytes := by omega
    simp only [previews, List.map_cons, hsize]
    rw [ih (by omega)]
    rfl

theorem mapError_ensures {W ε ε' α : Type} {x : Exec W ε α} {P : α → Prop} (f : ε → ε')
    (h : x.Ensures P) : Exec.Ensures (fun w => ((x w).1.mapError f, (x w).2)) P := by
  intro w a ha
  change (x w).1.mapError f = .ok a at ha
  cases hrun : (x w).1 with
  | error e =>
    rw [hrun] at ha
    cases ha
  | ok b =>
    rw [hrun] at ha
    obtain rfl : b = a := Except.ok.inj ha
    exact h w b hrun

section Read
variable {W : Type} {source : PositionedRead W} {document : List Byte}

theorem readLoop_ensures (hsource : source.Reads document) (polls : Nat → Bool)
    (start count fuel pass : Nat) {filled : List Byte}
    (hfilled : filled = (document.drop start).take filled.length)
    (hle : filled.length ≤ count) (hfuel : count - filled.length ≤ fuel) :
    (readLoop source polls start count fuel pass filled).Ensures fun bytes =>
      bytes = (document.drop start).take count := by
  induction fuel generalizing pass filled with
  | zero =>
    have hlen : filled.length = count := by omega
    exact .pure (hlen ▸ hfilled)
  | succ fuel ih =>
    unfold readLoop
    split
    swap
    · have hlen : filled.length = count := by omega
      exact .pure (hlen ▸ hfilled)
    split
    · exact .throw _
    refine Exec.Ensures.bind (PositionedRead.read_ensures hsource _ _) ?_
    rintro bytes ⟨hshort, hread⟩
    split
    · exact .throw _
    · rename_i hne
      have hpos : 0 < bytes.length := List.length_pos_iff.mpr (by simpa using hne)
      refine ih (pass + 1) ?_ (by simp; omega) (by simp; omega)
      rw [List.length_append, List.take_add, ← hfilled, List.drop_drop,
        ← List.prefix_iff_eq_take.mp hread]

/-- What is read of one record, however often the token is asked. -/
theorem readAt_ensures (hsource : source.Reads document) (row : Nat) (span : RecordSpan)
    (polls : StepPolls) :
    (RecordPreview.readAt source row span maxRecordPreviewBytes polls).Ensures fun preview =>
      preview = sourcePreview document row span := by
  unfold RecordPreview.readAt
  split
  · exact .throw _
  refine Exec.Ensures.bind Exec.Ensures.trivial fun fingerprint _ => ?_
  split
  · exact .throw _
  refine Exec.Ensures.bind
    (readLoop_ensures hsource _ _ _ _ 0 rfl (Nat.zero_le _) (Nat.le_refl _)) ?_
  rintro _ rfl
  refine Exec.Ensures.bind Exec.Ensures.trivial fun _ _ => ?_
  refine .pure ?_
  rw [sourcePreview, RecordSpan.bytesOf, List.take_take, Nat.min_eq_left (Nat.min_le_left _ _)]

end Read

/-- The records of an order, in the order of their ranks. -/
structure SortedOrder.Lists {W : Type} (order : SortedOrder W) (sorted : List SortedRecord) :
    Prop where
  len_eq : order.len = sorted.length
  recordAt : ∀ rank w record, (order.recordAt rank w).1 = .ok record → sorted[rank]? = some record

/-- Every record is a record of the document, under its own number. -/
def SortedRecord.AllOf (spans : List RecordSpan) (sorted : List SortedRecord) : Prop :=
  ∀ record ∈ sorted, spans[record.sourceRow]? = some record.span

namespace DocumentEngine

variable {W X α β : Type} {encode : PreviewEncoder} {xlsx : XlsxReader W X}
  {engine : DocumentEngine W X} {document : List Byte} {fingerprint : SourceFingerprint}

/-- If the call on this engine comes back with a value, the engine is as it was and the value
satisfies `P`. -/
def Gives (engine : DocumentEngine W X) (x : EngineM W X α) (P : α → Prop) : Prop :=
  Exec.Triple (fun p => p.1 = engine) x (fun a p => p.1 = engine ∧ P a) fun _ _ => True

namespace Gives

variable {x : EngineM W X α} {f : α → EngineM W X β} {P : α → Prop} {Q : β → Prop}

theorem bind (hx : Gives engine x P) (hf : ∀ a, P a → Gives engine (f a) Q) :
    Gives engine (x >>= f) Q := by
  apply Exec.Triple.bind hx
  intro a p hp
  exact hf a hp.2 p hp.1

theorem pure {a : α} (h : P a) : Gives engine (pure a : EngineM W X α) P := fun _ hp => ⟨hp, h⟩

theorem throw (error : DocumentEngineError) :
    Gives engine (Exec.throw error : EngineM W X α) P := fun _ _ => trivial

theorem ofExcept {r : Except DocumentEngineError α} (h : ∀ a, r = .ok a → P a) :
    Gives engine (Exec.ofExcept r : EngineM W X α) P := by
  intro p hp
  cases r with
  | error e => trivial
  | ok a => exact ⟨hp, h a rfl⟩

theorem inner {y : Exec W DocumentEngineError α} (h : y.Ensures P) :
    Gives engine (Exec.inner y : EngineM W X α) P := by
  intro p hp
  have hvalue := h p.2
  simp only [Exec.inner]
  rcases hrun : (y p.2).1 with e | a
  · trivial
  · exact ⟨hp, hvalue a hrun⟩

theorem value (hx : Gives engine x P) {w : W} {a : α} (h : (x (engine, w)).1 = .ok a) : P a := by
  have hrun := hx (engine, w) rfl
  rcases hx' : x (engine, w) with ⟨e | b, p⟩
  · rw [hx'] at h
    cases h
  · rw [hx'] at hrun h
    cases h
    exact hrun.2

end Gives

/-! ### Checks that pass leave the engine alone -/

theorem get_bind_gives {f : DocumentEngine W X → EngineM W X β} {Q : β → Prop}
    (h : Gives engine (f engine) Q) : Gives engine (Exec.get >>= f) Q := by
  rintro ⟨engine', w⟩ hp
  obtain rfl : engine = engine' := hp.symm
  exact h (engine, w) rfl

theorem revalidate_gives (operation : String) (call : W → Except IoError α × W) :
    Gives engine (revalidate operation call) fun _ => True := by
  rintro ⟨engine', w⟩ hp
  simp only [revalidate]
  rcases call w with ⟨error | evidence, w'⟩
  · trivial
  · exact ⟨hp, trivial⟩

theorem rejectChange_gives (change : SourceChange) (actualSize : Nat) :
    Gives engine (rejectChange change actualSize) fun _ => True := by
  apply get_bind_gives
  split
  · rintro p -
    trivial
  · exact .pure trivial

theorem verifyPlatform_gives (windows : Option (WindowsFile W)) (strongPathCheck : Bool) :
    Gives engine (verifyPlatform windows strongPathCheck) fun _ => True := by
  cases windows with
  | none => exact .pure trivial
  | some file =>
    apply get_bind_gives
    refine .bind (revalidate_gives _ _) fun handle _ => .bind (rejectChange_gives _ _) fun _ _ => ?_
    split
    · refine .bind (revalidate_gives _ _) fun _ _ =>
        .bind (revalidate_gives _ _) fun metadata _ => ?_
      split
      · exact rejectChange_gives _ _
      · exact .bind (revalidate_gives _ _) fun _ _ => rejectChange_gives _ _
    · exact .pure trivial

theorem verifySource_gives (strongPathCheck : Bool) :
    Gives engine (verifySource strongPathCheck) fun _ => True := by
  apply get_bind_gives
  split
  · exact .throw _
  refine .bind (revalidate_gives _ _) fun handle _ => .bind (rejectChange_gives _ _) fun _ _ =>
    .bind (revalidate_gives _ _) fun entry _ => ?_
  split
  · exact rejectChange_gives _ _
  · exact .bind (verifyPlatform_gives _ _) fun _ _ => .bind (revalidate_gives _ _) fun _ _ =>
      rejectChange_gives _ _

/-! ### The rows of the source -/

theorem buildRows_ok {build : α → Except DocumentEngineError UiCachedRow} {polls : Nat → Bool}
    {i : Nat} {records : List α} {rows : List UiCachedRow}
    (h : buildRows build polls i records = .ok rows) {j : Nat} {record : α}
    (hrecord : records[j]? = some record) :
    ∃ row, build record = .ok row ∧ rows[j]? = some row := by
  induction records generalizing i j rows with
  | nil => cases hrecord
  | cons head records ih =>
    unfold buildRows at h
    split at h
    · cases h
    cases hhead : build head with
    | error e =>
      rw [hhead] at h
      cases h
    | ok row =>
      simp only [hhead, bind, Except.bind] at h
      cases hrest : buildRows build polls (i + 1) records with
      | error e =>
        rw [hrest] at h
        cases h
      | ok rest =>
        rw [hrest] at h
        cases h
        cases j with
        | zero =>
          cases hrecord
          exact ⟨row, hhead, rfl⟩
        | succ j => exact ih hrest hrecord

theorem numbered_getElem? {spans : List RecordSpan} {row : Nat} {span : RecordSpan}
    (h : spans[row]? = some span) : (numbered spans)[row]? = some (row, span) := by
  simp [numbered, h]

section Shown
variable {format : DocumentFormat} {scan : ScanSession format.viewportFormat}

theorem textViewport_gives (hsource : engine.file.handle.Steady document fingerprint)
    (hindex : ∀ checkpoint ∈ scan.index.entries,
      StartsRow format.viewportFormat document checkpoint ∨ checkpoint = .origin)
    (firstRow : Nat) :
    Gives engine (textViewport format scan firstRow .never) fun viewport =>
      viewport = .reference format.viewportFormat document firstRow maxViewportRows
        maxRecordPreviewBytes (maxViewportRows * maxRecordPreviewBytes) := by
  rintro ⟨engine', w⟩ hp
  obtain rfl : engine = engine' := hp.symm
  have href := readViewport_eq_reference hsource hindex firstRow viewportLimits w
  simp only [textViewport]
  rcases hrun : readViewport engine.file.handle format.viewportFormat scan.index.nearest firstRow
    viewportLimits .never w with ⟨error | viewport, w'⟩
  · trivial
  · rw [hrun] at href
    cases href
    exact ⟨rfl, rfl⟩

/-- The row of a record stands where its number says. -/
theorem snapshot_gives (hsource : engine.file.handle.Steady document fingerprint)
    (hcontent : engine.content = .text format scan)
    (hindex : ∀ checkpoint ∈ scan.index.entries,
      StartsRow format.viewportFormat document checkpoint ∨ checkpoint = .origin)
    (firstRow : Nat) :
    Gives engine (snapshot encode xlsx firstRow .never) fun shown =>
      ∀ row span, (records format.viewportFormat document)[row]? = some span → firstRow ≤ row →
        row < firstRow + maxViewportRows →
        ∃ built, buildCachedRow encode (sourcePreview document row span) format projectionLimits =
          .ok built ∧ shown.rows[row - firstRow]? = some built := by
  unfold snapshot
  rw [if_neg (by exact Bool.false_ne_true)]
  refine .bind (verifySource_gives true) fun _ _ => get_bind_gives ?_
  rw [hcontent]
  refine .bind (textViewport_gives hsource hindex firstRow) ?_
  rintro _ rfl
  refine .bind (verifySource_gives true) fun _ _ =>
    .bind (.ofExcept fun _ h => h) fun rows hrows =>
    .bind (.ofExcept fun _ _ => trivial) fun columns _ => .pure ?_
  intro row span hspan hfirst hlast
  have hwanted : (((numbered (records format.viewportFormat document)).drop firstRow).take
      maxViewportRows)[row - firstRow]? = some (row, span) := by
    rw [List.getElem?_take_of_lt (by omega), List.getElem?_drop, Nat.add_sub_cancel' hfirst]
    exact numbered_getElem? hspan
  apply buildRows_ok hrows
  simp only [Viewport.reference]
  rw [previews_eq_map, List.getElem?_map, hwanted]
  · rfl
  · exact Nat.mul_le_mul_right _ (List.length_take_le _ _)

/-! ### The rows of an order -/

theorem orderedRow_gives {order : SortedOrder W} {sorted : List SortedRecord}
    (hsource : engine.file.handle.Reads document) (horder : order.Lists sorted) (rank : Nat)
    (polls : StepPolls) :
    Gives engine (orderedRow encode order format rank polls) fun row =>
      ∃ record built, sorted[rank]? = some record ∧
        buildCachedRow encode (sourcePreview document record.sourceRow record.span) format
          projectionLimits = .ok built ∧ row = { built with displayRank := rank } := by
  apply get_bind_gives
  refine .bind (.inner (mapError_ensures DocumentEngineError.order (horder.recordAt rank)))
    fun record hrecord => ?_
  refine .bind (.inner (mapError_ensures mapViewportError (readAt_ensures hsource _ _ polls))) ?_
  rintro _ rfl
  exact .bind (.ofExcept fun _ h => h) fun built hbuilt =>
    .pure ⟨record, built, hrecord, hbuilt, rfl⟩

theorem orderedRows_gives {order : SortedOrder W} {sorted : List SortedRecord}
    (hsource : engine.file.handle.Reads document) (horder : order.Lists sorted)
    (firstRow : Nat) (polls : Nat → StepPolls) (count index : Nat) :
    Gives engine (orderedRows encode order format firstRow polls count index) fun rows =>
      rows.length = count ∧ ∀ i < count, ∃ record built,
        sorted[firstRow + index + i]? = some record ∧
        buildCachedRow encode (sourcePreview document record.sourceRow record.span) format
          projectionLimits = .ok built ∧
        rows[i]? = some { built with displayRank := firstRow + index + i } := by
  induction count generalizing index with
  | zero => exact .pure ⟨rfl, fun i hi => absurd hi (Nat.not_lt_zero i)⟩
  | succ count ih =>
    refine .bind (orderedRow_gives hsource horder _ _) ?_
    rintro row ⟨record, built, hrecord, hbuilt, hrow⟩
    refine .bind (ih (index + 1)) ?_
    rintro rows ⟨hlen, hrows⟩
    refine .pure ⟨by rw [List.length_cons, hlen], ?_⟩
    intro i hi
    cases i with
    | zero => exact ⟨record, built, hrecord, hbuilt, by rw [hrow]; rfl⟩
    | succ i =>
      obtain ⟨record, built, hrecord, hbuilt, hrow⟩ := hrows i (by omega)
      have hrank : firstRow + (index + 1) + i = firstRow + index + (i + 1) := by omega
      rw [hrank] at hrecord hrow
      exact ⟨record, built, hrecord, hbuilt, hrow⟩

theorem snapshotOrdered_gives {order : SortedOrder W} {sorted : List SortedRecord}
    (hsource : engine.file.handle.Reads document) (hcontent : engine.content = .text format scan)
    (horder : order.Lists sorted) (firstRow : Nat) (polls : Nat → StepPolls) :
    Gives engine (snapshotOrdered encode order firstRow polls) fun shown =>
      shown.rows.length = min (sorted.length - firstRow) maxViewportRows ∧
      ∀ i < shown.rows.length, ∃ record built, sorted[firstRow + i]? = some record ∧
        buildCachedRow encode (sourcePreview document record.sourceRow record.span) format
          projectionLimits = .ok built ∧
        shown.rows[i]? = some { built with displayRank := firstRow + i } := by
  apply get_bind_gives
  rw [hcontent]
  refine .bind (verifySource_gives true) fun _ _ =>
    .bind (orderedRows_gives hsource horder firstRow polls _ 0) ?_
  rintro rows ⟨hlen, hrows⟩
  refine .bind (verifySource_gives true) fun _ _ =>
    .bind (.ofExcept fun _ _ => trivial) fun columns _ => .pure ?_
  refine ⟨by rw [hlen, horder.len_eq], ?_⟩
  intro i hi
  exact hrows i (hlen ▸ hi)

/-- Of a document whose scan has come to any point: the row that an order shows at a rank is
the row that the source view shows of the record of that rank, but for its place. -/
theorem ordered_rows_are_source_rows (encode : PreviewEncoder) (xlsx : XlsxReader W X)
    (hsource : engine.file.handle.Steady document fingerprint)
    {w₀ : W} {session : ScanSession format.viewportFormat}
    (hnew : (ScanSession.new engine.file.handle format.viewportFormat scanConfig w₀).1 =
      .ok session)
    (calls : List ScanSession.StepCall) (w₁ : W)
    (hcontent : engine.content =
      .text format (ScanSession.steps engine.file.handle calls session w₁).1)
    {order : SortedOrder W} {sorted : List SortedRecord} (horder : order.Lists sorted)
    (hall : SortedRecord.AllOf (records format.viewportFormat document) sorted)
    {firstRank firstRow : Nat} {polls : Nat → StepPolls} {w w' : W} {shown shown' : UiRowSnapshot}
    (hordered : (snapshotOrdered encode order firstRank polls (engine, w)).1 = .ok shown)
    (hsnapshot : (snapshot encode xlsx firstRow .never (engine, w')).1 = .ok shown')
    {rank : Nat} (hfirst : firstRank ≤ rank) (hrank : rank < order.len)
    (hlast : rank < firstRank + maxViewportRows) :
    ∃ record, sorted[rank]? = some record ∧
      (firstRow ≤ record.sourceRow → record.sourceRow < firstRow + maxViewportRows →
        ∃ row, shown'.rows[record.sourceRow - firstRow]? = some row ∧
          row.absoluteRow = record.sourceRow ∧
          shown.rows[rank - firstRank]? = some { row with displayRank := rank }) := by
  have hindex : ∀ checkpoint ∈
      (ScanSession.steps engine.file.handle calls session w₁).1.index.entries,
      StartsRow format.viewportFormat document checkpoint ∨ checkpoint = .origin := by
    intro checkpoint hmem
    have htracks := ScanSession.steps_tracks hsource.toReads calls
      (ScanSession.new_tracks hsource.toReads hnew) w₁
    exact (htracks.startsRow hmem).imp_right And.right
  obtain ⟨hlen, hrows⟩ :=
    (snapshotOrdered_gives hsource.toReads hcontent horder firstRank polls).value hordered
  rw [horder.len_eq] at hrank
  obtain ⟨record, built, hrecord, hbuilt, hrow⟩ := hrows (rank - firstRank) (by omega)
  rw [Nat.add_sub_cancel' hfirst] at hrecord hrow
  refine ⟨record, hrecord, ?_⟩
  intro hlow hhigh
  have hspan := hall record (List.mem_of_getElem? hrecord)
  obtain ⟨row, hsame, hshown⟩ := (snapshot_gives hsource hcontent hindex firstRow).value hsnapshot
    record.sourceRow record.span hspan hlow hhigh
  obtain rfl : built = row := Except.ok.inj (hbuilt.symm.trans hsame)
  exact ⟨built, hshown, (buildCachedRow_ok hbuilt).1, hrow⟩

end Shown

/-! ### Two lines, the last first -/

open Call

theorem twoLineFile_steady : (twoLineFile [] []).handle.Steady [97, lf, 98, lf]
    ⟨4, none, none, four_lt⟩ where
  size w fingerprint h := by
    cases h
    rfl
  read w offset len bytes h := by
    cases h
    exact List.take_prefix _ _
  unchanged w := rfl
  progress w offset len hlen hoffset := by
    refine ⟨_, rfl, ?_, List.length_take_le _ _⟩
    change (([97, lf, 98, lf] : List Byte).drop offset).take len ≠ []
    intro hnil
    have := congrArg List.length hnil
    simp only [List.length_take, List.length_drop, List.length_cons,
      List.length_nil] at this hoffset
    omega

def twoLinesReversed : List SortedRecord :=
  [⟨1, 2, 3, by decide⟩, ⟨0, 0, 1, by decide⟩]

def reversedOrder : SortedOrder Nat where
  len := 2
  recordAt rank w := ((twoLinesReversed[rank]?).elim (.error Sort.SortError.invalidScratch) .ok, w)
  rankOf row w := (.ok (1 - row), w)

theorem reversedOrder_lists : reversedOrder.Lists twoLinesReversed where
  len_eq := rfl
  recordAt rank w record h := by
    change (twoLinesReversed[rank]?).elim (.error Sort.SortError.invalidScratch) .ok =
      Except.ok record at h
    cases hrank : twoLinesReversed[rank]? with
    | none =>
      rw [hrank] at h
      cases h
    | some found =>
      rw [hrank] at h
      cases h
      rfl

theorem checkBytes_pos : 0 < 16 * 1024 := by decide

/-- The session that is made of the two lines, before its first step. -/
def twoLineSession : ScanSession DocumentFormat.log.viewportFormat :=
  ⟨⟨4, none, none, four_lt⟩, some (BoundaryScanner.atOffset ViewportFormat.lines.rules 0),
    ⟨[.origin], 4096, 1024, .rows, .origin, Call.origin_first⟩, 0, none, readBufferBytes,
    readBufferBytes_pos, 16 * 1024, checkBytes_pos, none⟩

def openedTwoLines : DocumentEngine Nat Empty :=
  { twoLineEngine [] [] with content := .text .log twoLineSession }

theorem ordered_rows_are_source_rows_reversed : ∃ shown shown',
    (snapshotOrdered plainPreview reversedOrder 0 (fun _ => ⟨false, fun _ => false⟩)
      (openedTwoLines, 0)).1 = .ok shown ∧
    (snapshot plainPreview noWorkbooks 0 .never (openedTwoLines, 0)).1 = .ok shown' ∧
    ∃ row, shown'.rows[1]? = some row ∧ row.absoluteRow = 1 ∧
      shown.rows[0]? = some { row with displayRank := 0 } := by
  have hok : ∀ {r : Except DocumentEngineError UiRowSnapshot}, r.isOk = true → ∃ a, r = .ok a := by
    rintro (_ | a) h
    · cases h
    · exact ⟨a, rfl⟩
  obtain ⟨shown, hordered⟩ := hok (r := (snapshotOrdered plainPreview reversedOrder 0
    (fun _ => ⟨false, fun _ => false⟩) (openedTwoLines, 0)).1) (by decide +kernel)
  obtain ⟨shown', hsnapshot⟩ := hok
    (r := (snapshot plainPreview noWorkbooks 0 .never (openedTwoLines, 0)).1) (by decide +kernel)
  have hnew : (ScanSession.new (twoLineFile [] []).handle DocumentFormat.log.viewportFormat
      scanConfig 0).1 = .ok twoLineSession := rfl
  have hcontent : openedTwoLines.content =
      .text .log (ScanSession.steps (twoLineFile [] []).handle [] twoLineSession 0).1 := rfl
  have hall : SortedRecord.AllOf (records DocumentFormat.log.viewportFormat [97, lf, 98, lf])
      twoLinesReversed := by
    unfold SortedRecord.AllOf
    decide +kernel
  obtain ⟨record, hrecord, hrow⟩ := ordered_rows_are_source_rows plainPreview noWorkbooks
    twoLineFile_steady hnew [] 0 hcontent reversedOrder_lists hall hordered hsnapshot
      (Nat.le_refl 0) (by decide) (by decide)
  cases hrecord
  exact ⟨shown, shown', hordered, hsnapshot, hrow (by decide) (by decide)⟩

end DocumentEngine

end LeanRows
