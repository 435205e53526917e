import LeanRows.Engine.Document

/-!
# What the engine remembers of a changed source

Every check that finds the source changed sets a flag, and a call on an engine with the
flag set fails. The rows of an order are read by a function that reports a change and
leaves the flag alone.
-/

namespace LeanRows

set_option autoImplicit false

/-- The source is reported to have changed, or to be shorter than it was. -/
def DocumentEngineError.NamesChange : DocumentEngineError → Prop
  | .sourceChanged .. | .sourceIntegrityLost => True
  | .scan error => error.isSourceIntegrityFailure
  | .viewport .sourceShrank | .viewport (.sourceChanged ..) => True
  | .xlsx .truncated => True
  | _ => False

/-- The error comes from the workbook reader. -/
def DocumentEngineError.FromSheet : DocumentEngineError → Prop
  | .xlsx _ => True
  | _ => False

/-- The error comes from the reading of records. -/
def DocumentEngineError.FromRecords : DocumentEngineError → Prop
  | .viewport _ => True
  | _ => False

/-- The errors that say that the source changed, but for the workbook reader's. -/
def DocumentEngineError.Told (error : DocumentEngineError) : Prop :=
  error.NamesChange ∧ ¬ error.FromSheet

/-- The same, but for those of the rows of an order too. -/
def DocumentEngineError.ToldOrdered (error : DocumentEngineError) : Prop :=
  error.Told ∧ ¬ error.FromRecords

namespace DocumentEngine

variable {W X α β : Type} {encode : PreviewEncoder} {xlsx : XlsxReader W X}
  {engine : DocumentEngine W X}

/-! ### An engine with the flag set -/

theorem verifySource_failed (h : engine.integrityFailed = true) (strongPathCheck : Bool) (w : W) :
    verifySource strongPathCheck (engine, w) = (.error .sourceIntegrityLost, engine, w) := by
  unfold verifySource
  rw [Exec.run_get_bind, if_pos h]
  rfl

theorem snapshot_failed (h : engine.integrityFailed = true) (firstRow : Nat)
    (polls : SnapshotPolls) (w : W) :
    ∃ error, snapshot encode xlsx firstRow polls (engine, w) = (.error error, engine, w) := by
  unfold snapshot
  split
  · exact ⟨_, rfl⟩
  · exact ⟨_, Exec.run_bind_error (verifySource_failed h true w)⟩

theorem snapshotOrdered_failed (h : engine.integrityFailed = true) (order : SortedOrder W)
    (firstRow : Nat) (polls : Nat → StepPolls) (w : W) :
    ∃ error, snapshotOrdered encode order firstRow polls (engine, w) =
      (.error error, engine, w) := by
  unfold snapshotOrdered
  rw [Exec.run_get_bind]
  rcases hcontent : engine.content with ⟨format, scan⟩ | content
  · exact ⟨_, Exec.run_bind_error (verifySource_failed h true w)⟩
  · exact ⟨_, rfl⟩

theorem scanStep_failed (h : engine.integrityFailed = true) (polls : StepPolls) (w : W) :
    ∃ error, scanStep xlsx false polls (engine, w) = (.error error, engine, w) := by
  unfold scanStep
  rw [Exec.run_get_bind, if_neg Bool.false_ne_true]
  exact ⟨_, Exec.run_bind_error (verifySource_failed h false w)⟩

/-! ### Errors that come with the flag set -/

/-- An error that `Told` speaks of leaves the flag set. -/
def Records (Told : DocumentEngineError → Prop) (x : EngineM W X α) : Prop :=
  Exec.Triple (fun _ => True) x (fun _ _ => True) fun error p =>
    Told error → p.1.integrityFailed = true

section Records
variable {Told : DocumentEngineError → Prop} {x : EngineM W X α} {f : α → EngineM W X β}

theorem Records.pure (a : α) : Records Told (pure a : EngineM W X α) := fun _ _ => trivial

theorem Records.bind (hx : Records Told x) (hf : ∀ a, Records Told (f a)) :
    Records Told (x >>= f) :=
  Exec.Triple.bind hx hf

theorem Records.throw {error : DocumentEngineError} (h : ¬ Told error) :
    Records Told (Exec.throw error : EngineM W X α) :=
  fun _ _ htold => absurd htold h

theorem Records.get : Records Told (Exec.get : EngineM W X (DocumentEngine W X)) :=
  fun _ _ => trivial

theorem Records.modify (g : DocumentEngine W X → DocumentEngine W X) :
    Records Told (Exec.modify g : EngineM W X Unit) :=
  fun _ _ => trivial

/-- A call that fails with other errors only. -/
theorem Records.of_silent (h : ∀ p error, (x p).1 = .error error → ¬ Told error) :
    Records Told x := by
  intro p _
  rcases hrun : x p with ⟨error | a, p'⟩
  · exact fun htold => absurd htold (h p error (by rw [hrun]))
  · trivial

theorem Records.ofExcept {r : Except DocumentEngineError α}
    (h : ∀ error, r = .error error → ¬ Told error) :
    Records Told (Exec.ofExcept r : EngineM W X α) :=
  .of_silent fun _ => h

theorem revalidate_records (operation : String) (call : W → Except IoError α × W) :
    Records Told (revalidate operation call : EngineM W X α) := by
  rintro ⟨engine, w⟩ -
  simp only [revalidate]
  rcases call w with ⟨error | evidence, w'⟩
  · exact fun _ => rfl
  · trivial

theorem rejectChange_records (change : SourceChange) (actualSize : Nat) :
    Records Told (rejectChange change actualSize : EngineM W X Unit) := by
  rintro ⟨engine, w⟩ -
  simp only [rejectChange, Exec.run_get_bind]
  by_cases hchanged : change.isChanged = true
  · rw [if_pos hchanged]
    exact fun _ => rfl
  · rw [if_neg hchanged]
    trivial

theorem verifyWindowsSource_records (file : WindowsFile W) (strongPathCheck : Bool) :
    Records Told (verifyWindowsSource file strongPathCheck : EngineM W X Unit) := by
  refine .bind .get fun engine => .bind (revalidate_records _ _) fun handle =>
    .bind (rejectChange_records _ _) fun _ => ?_
  split
  · refine .bind (revalidate_records _ _) fun _ => .bind (revalidate_records _ _) fun metadata => ?_
    split
    · exact rejectChange_records _ _
    · exact .bind (revalidate_records _ _) fun _ => rejectChange_records _ _
  · exact .pure _

theorem verifyPlatform_records (windows : Option (WindowsFile W)) (strongPathCheck : Bool) :
    Records Told (verifyPlatform windows strongPathCheck : EngineM W X Unit) := by
  cases windows with
  | some file => exact verifyWindowsSource_records _ _
  | none => exact .pure _

theorem verifySource_records (strongPathCheck : Bool) :
    Records Told (verifySource strongPathCheck : EngineM W X Unit) := by
  rintro ⟨engine, w⟩ -
  unfold verifySource
  rw [Exec.run_get_bind]
  by_cases hfailed : engine.integrityFailed = true
  · rw [if_pos hfailed]
    exact fun _ => hfailed
  · rw [if_neg hfailed]
    refine Records.bind (revalidate_records _ _) (fun handle =>
      .bind (rejectChange_records _ _) fun _ => .bind (revalidate_records _ _) fun entry => ?_)
      (engine, w) trivial
    split
    · exact rejectChange_records _ _
    · exact .bind (verifyPlatform_records _ _) fun _ => .bind (revalidate_records _ _) fun _ =>
        rejectChange_records _ _

end Records

theorem buildRows_error {build : α → Except DocumentEngineError UiCachedRow}
    {polls : Nat → Bool} {i : Nat} {records : List α} {error : DocumentEngineError}
    (h : buildRows build polls i records = .error error) :
    error = .cancelled ∨ ∃ record, build record = .error error := by
  induction records generalizing i with
  | nil => cases h
  | cons record records ih =>
    unfold buildRows at h
    split at h
    · cases h
      exact .inl rfl
    · cases hrow : build record with
      | error e =>
        simp only [hrow, bind, Except.bind, Except.error.injEq] at h
        exact .inr ⟨record, by rw [hrow, h]⟩
      | ok row =>
        simp only [hrow, bind, Except.bind] at h
        cases hrows : buildRows build polls (i + 1) records with
        | error e =>
          simp only [hrows, Except.error.injEq] at h
          exact ih (by rw [hrows, h])
        | ok rows =>
          rw [hrows] at h
          cases h

theorem buildCachedRow_error {record : RecordPreview} {format : DocumentFormat}
    {error : DocumentEngineError}
    (h : buildCachedRow encode record format projectionLimits = .error error) :
    ¬ error.NamesChange := by
  unfold buildCachedRow at h
  dsimp only at h
  split at h
  · split at h
    · cases h
      exact id
    · cases h
  · cases h

theorem newColumns_error {kind : UiColumnKind} {dataColumns : Nat} {error : DocumentEngineError}
    (h : UiColumnLayout.new kind dataColumns = .error error) : ¬ error.NamesChange := by
  unfold UiColumnLayout.new at h
  split at h
  · cases h
    exact id
  · cases h

theorem mapXlsxError_told (error : XlsxError) : ¬ (mapXlsxError error).Told := by
  cases error with
  | cancelled => exact fun h => h.1
  | _ => exact fun h => h.2 trivial

/-! ### The calls -/

theorem textStep_records (format : DocumentFormat) (scan : ScanSession format.viewportFormat)
    (polls : StepPolls) :
    Records DocumentEngineError.Told
      (textStep format scan polls : EngineM W X (Nat × Nat × ScanStepStatus)) := by
  rintro ⟨engine, w⟩ -
  simp only [textStep]
  rcases scan.step engine.file.handle maxScanStepBytes polls w with ⟨error | step, next, w'⟩
  · intro htold
    change (engine.integrityFailed || error.isSourceIntegrityFailure) = true
    rw [show error.isSourceIntegrityFailure = true from htold.1, Bool.or_true]
  · trivial

theorem xlsxStep_records (content : X) (polls : StepPolls) :
    Records DocumentEngineError.Told (xlsxStep xlsx content polls) := by
  rintro ⟨engine, w⟩ -
  simp only [xlsxStep]
  rcases xlsx.step content engine.file.handle maxScanStepBytes polls w with ⟨error | step, next, w'⟩
  · exact fun htold => absurd htold (mapXlsxError_told error)
  · trivial

theorem scanStep_records (entry : Bool) (polls : StepPolls) :
    Records DocumentEngineError.Told (scanStep xlsx entry polls) := by
  refine .bind .get fun engine => ?_
  split
  · exact .pure _
  have hcontent : Records DocumentEngineError.Told (contentStep xlsx engine.content polls) := by
    rcases engine.content with ⟨format, scan⟩ | content
    · exact textStep_records format scan polls
    · exact xlsxStep_records content polls
  refine .bind (verifySource_records _) fun _ => .bind hcontent fun step => ?_
  exact .bind (.modify _) fun _ => .bind .get fun _ => .bind (verifySource_records _) fun _ =>
    .bind (.modify _) fun _ => .bind .get fun _ => .pure _

theorem textViewport_records (format : DocumentFormat)
    (scan : ScanSession format.viewportFormat) (firstRow : Nat) (polls : ViewportPolls) :
    Records DocumentEngineError.Told
      (textViewport format scan firstRow polls : EngineM W X Viewport) := by
  rintro ⟨engine, w⟩ -
  simp only [textViewport]
  rcases readViewport engine.file.handle format.viewportFormat scan.index.nearest firstRow
    viewportLimits polls w with ⟨error | viewport, w'⟩
  · intro htold
    have hnames := htold.1
    cases error with
    | sourceShrank => exact Bool.or_true _
    | sourceChanged change expectedSize actualSize => exact Bool.or_true _
    | io error => exact hnames.elim
    | scan error => exact hnames.elim
    | cancelled => exact hnames.elim
    | invalidCheckpoint => exact hnames.elim
    | rowOverflow => exact hnames.elim
  · trivial

theorem xlsxSnapshot_records (content : X) (firstRow : Nat) (polls : SnapshotPolls) :
    Records DocumentEngineError.Told (xlsxSnapshot encode xlsx content firstRow polls) := by
  refine .bind .get fun engine => .bind (.of_silent ?_) fun viewport =>
    .bind (.ofExcept ?_) fun rows => .bind (.ofExcept fun _ h htold =>
      newColumns_error h htold.1) fun _ => .pure _
  · rintro ⟨engine', w⟩ error h
    simp only [Exec.inner] at h
    rcases hread : (xlsx.readRows content engine.file.handle firstRow maxViewportRows polls.sheet
      w).1 with raw | viewport
    · rw [hread] at h
      cases h
      exact mapXlsxError_told raw
    · rw [hread] at h
      cases h
  · intro error h
    rcases buildRows_error h with rfl | ⟨row, hrow⟩
    · exact fun htold => htold.1
    · cases hrow

theorem snapshot_records (firstRow : Nat) (polls : SnapshotPolls) :
    Records DocumentEngineError.Told (snapshot encode xlsx firstRow polls) := by
  unfold snapshot
  split
  · exact .throw fun h => h.1
  refine .bind (verifySource_records _) fun _ => .bind .get fun engine => ?_
  rcases engine.content with ⟨format, scan⟩ | content
  · refine .bind (textViewport_records format scan firstRow polls.read) fun viewport =>
      .bind (verifySource_records _) fun _ => .bind (.ofExcept ?_) fun rows =>
      .bind (.ofExcept fun _ h htold => newColumns_error h htold.1) fun _ => .pure _
    intro error h
    rcases buildRows_error h with rfl | ⟨record, hrow⟩
    · exact fun htold => htold.1
    · exact fun htold => buildCachedRow_error hrow htold.1
  · exact .bind (xlsxSnapshot_records content firstRow polls) fun _ =>
      .bind (verifySource_records _) fun _ => .pure _

theorem orderedRow_records (order : SortedOrder W) (format : DocumentFormat) (rank : Nat)
    (polls : StepPolls) :
    Records DocumentEngineError.ToldOrdered
      (orderedRow encode order format rank polls : EngineM W X UiCachedRow) := by
  refine .bind .get fun engine => .bind (.of_silent ?_) fun descriptor =>
    .bind (.of_silent ?_) fun record =>
    .bind (.ofExcept fun _ h htold => buildCachedRow_error h htold.1.1) fun _ => .pure _
  · rintro ⟨engine', w⟩ error h
    simp only [Exec.inner] at h
    rcases hread : (order.recordAt rank w).1 with raw | record
    · rw [hread] at h
      cases h
      exact fun htold => htold.1.1
    · rw [hread] at h
      cases h
  · rintro ⟨engine', w⟩ error h
    simp only [Exec.inner] at h
    rcases hread : (RecordPreview.readAt engine.file.handle descriptor.sourceRow descriptor.span
      maxRecordPreviewBytes polls w).1 with raw | record
    · rw [hread] at h
      cases h
      cases raw with
      | cancelled => exact fun htold => htold.1.1
      | _ => exact fun htold => htold.2 trivial
    · rw [hread] at h
      cases h

theorem orderedRows_records (order : SortedOrder W) (format : DocumentFormat) (firstRow : Nat)
    (polls : Nat → StepPolls) (count index : Nat) :
    Records DocumentEngineError.ToldOrdered
      (orderedRows encode order format firstRow polls count index :
        EngineM W X (List UiCachedRow)) := by
  induction count generalizing index with
  | zero => exact .pure _
  | succ count ih =>
    exact .bind (orderedRow_records order format _ _) fun _ => .bind (ih _) fun _ => .pure _

theorem snapshotOrdered_records (order : SortedOrder W) (firstRow : Nat)
    (polls : Nat → StepPolls) :
    Records DocumentEngineError.ToldOrdered
      (snapshotOrdered encode order firstRow polls : EngineM W X UiRowSnapshot) := by
  refine .bind .get fun engine => ?_
  rcases engine.content with ⟨format, scan⟩ | content
  · exact .bind (verifySource_records _) fun _ =>
      .bind (orderedRows_records order format firstRow polls _ _) fun rows =>
      .bind (verifySource_records _) fun _ =>
      .bind (.ofExcept fun _ h htold => newColumns_error h htold.1.1) fun _ => .pure _
  · exact .throw fun h => h.1.1

/-! ### Runs of calls -/

inductive Call (W : Type) where
  | snapshot (firstRow : Nat) (polls : SnapshotPolls)
  | snapshotOrdered (order : SortedOrder W) (firstRow : Nat) (polls : Nat → StepPolls)
  | scanStep (cancelled : Bool) (polls : StepPolls)
  | validateQuerySnapshot

namespace Call

/-- A scan step that finds its token cancelled does nothing. -/
def Cancelled : Call W → Prop
  | .scanStep cancelled _ => cancelled = true
  | _ => False

/-- An error that the function called does not translate into the flag. -/
def Untranslated : Call W → DocumentEngineError → Prop
  | .snapshotOrdered .., error => error.FromSheet ∨ error.FromRecords
  | _, error => error.FromSheet

variable (encode xlsx)

def run : Call W → EngineM W X Unit
  | .snapshot firstRow polls => do
    let _ ← DocumentEngine.snapshot encode xlsx firstRow polls
    pure ()
  | .snapshotOrdered order firstRow polls => do
    let _ ← DocumentEngine.snapshotOrdered encode order firstRow polls
    pure ()
  | .scanStep cancelled polls => do
    let _ ← DocumentEngine.scanStep xlsx cancelled polls
    pure ()
  | .validateQuerySnapshot => DocumentEngine.validateQuerySnapshot

/-- What the calls of a run come to, and the engine behind them. -/
def runs : List (Call W) → DocumentEngine W X × W →
    List (Call W × Except DocumentEngineError Unit) × DocumentEngine W X × W
  | [], p => ([], p)
  | call :: calls, p =>
    let r := call.run encode xlsx p
    let rest := runs calls r.2
    ((call, r.1) :: rest.1, rest.2)

variable {encode xlsx}

/-- A call on an engine with the flag set changes nothing, and fails unless it is a scan
step that finds its token cancelled. -/
theorem run_failed (call : Call W) (h : engine.integrityFailed = true) (w : W) :
    (call.run encode xlsx (engine, w)).2 = (engine, w) ∧
      (¬ call.Cancelled → ∃ error, (call.run encode xlsx (engine, w)).1 = .error error) := by
  have hfails : ∀ {α : Type} {x : EngineM W X α},
      (∃ error, x (engine, w) = (.error error, engine, w)) →
      ∃ error, (do let _ ← x; pure () : EngineM W X Unit) (engine, w) =
        (.error error, engine, w) := by
    rintro α x ⟨error, hrun⟩
    exact ⟨error, Exec.run_bind_error hrun⟩
  have hcall : ∀ r, (∃ error, r = (.error error, engine, w)) →
      (r : Except DocumentEngineError Unit × DocumentEngine W X × W).2 = (engine, w) ∧
        (¬ call.Cancelled → ∃ error, r.1 = .error error) := by
    rintro r ⟨error, rfl⟩
    exact ⟨rfl, fun _ => ⟨error, rfl⟩⟩
  cases call with
  | snapshot firstRow polls => exact hcall _ (hfails (snapshot_failed h firstRow polls w))
  | snapshotOrdered order firstRow polls =>
    exact hcall _ (hfails (snapshotOrdered_failed h order firstRow polls w))
  | scanStep cancelled polls =>
    cases cancelled with
    | true => exact ⟨rfl, fun hnot => absurd rfl hnot⟩
    | false => exact hcall _ (hfails (scanStep_failed h polls w))
  | validateQuerySnapshot => exact hcall _ ⟨_, verifySource_failed h true w⟩

theorem runs_failed (calls : List (Call W)) (h : engine.integrityFailed = true) (w : W) :
    (runs encode xlsx calls (engine, w)).2 = (engine, w) := by
  induction calls with
  | nil => rfl
  | cons call calls ih =>
    simp only [runs, (run_failed call h w).1]
    exact ih

theorem run_records (call : Call W) (p : DocumentEngine W X × W) {error : DocumentEngineError}
    (herror : (call.run encode xlsx p).1 = .error error) (hnames : error.NamesChange)
    (htranslated : ¬ call.Untranslated error) :
    (call.run encode xlsx p).2.1.integrityFailed = true := by
  have hrecords : ∀ {Told : DocumentEngineError → Prop} {x : EngineM W X Unit},
      Records Told x → (x p).1 = .error error → Told error →
      (x p).2.1.integrityFailed = true := by
    intro Told x hx hrun htold
    have hfail := hx p trivial
    rw [show x p = (.error error, (x p).2) from Prod.ext hrun rfl] at hfail
    exact hfail htold
  cases call with
  | snapshot firstRow polls =>
    exact hrecords (.bind (snapshot_records firstRow polls) fun _ => .pure _) herror
      ⟨hnames, htranslated⟩
  | snapshotOrdered order firstRow polls =>
    rw [Untranslated, not_or] at htranslated
    exact hrecords (.bind (snapshotOrdered_records order firstRow polls) fun _ => .pure _) herror
      ⟨⟨hnames, htranslated.1⟩, htranslated.2⟩
  | scanStep cancelled polls =>
    exact hrecords (.bind (scanStep_records cancelled polls) fun _ => .pure _) herror
      ⟨hnames, htranslated⟩
  | validateQuerySnapshot =>
    have hverify : Records DocumentEngineError.Told
        (verifySource true : EngineM W X Unit) := verifySource_records true
    exact hrecords hverify herror ⟨hnames, htranslated⟩

/-- A flag that is set stays set, and every error that sets it shows that it is. -/
theorem runs_records (calls : List (Call W)) (p : DocumentEngine W X × W)
    (hdetected : ∃ answer ∈ (runs encode xlsx calls p).1, ∃ error, answer.2 = .error error ∧
      error.NamesChange ∧ ¬ answer.1.Untranslated error) :
    (runs encode xlsx calls p).2.1.integrityFailed = true := by
  induction calls generalizing p with
  | nil =>
    obtain ⟨answer, hmem, -⟩ := hdetected
    cases hmem
  | cons call calls ih =>
    obtain ⟨answer, hmem, error, herror, hnames, htranslated⟩ := hdetected
    simp only [runs, List.mem_cons] at hmem ⊢
    rcases hmem with rfl | hlater
    · have hset := run_records call p herror hnames htranslated
      rw [← Prod.mk.eta (p := (run encode xlsx call p).2), runs_failed calls hset]
      exact hset
    · exact ih _ ⟨answer, hlater, error, herror, hnames, htranslated⟩

/-- Once a call has reported a change, every later call that is not cancelled fails,
whatever the file does, unless the report came from the rows of an order or from the
workbook reader. -/
theorem change_is_sticky (encode : PreviewEncoder) (xlsx : XlsxReader W X)
    (engine : DocumentEngine W X) (w : W) (calls later : List (Call W)) (call : Call W)
    (hdetected : ∃ answer ∈ (runs encode xlsx calls (engine, w)).1, ∃ error,
      answer.2 = .error error ∧ error.NamesChange ∧ ¬ answer.1.Untranslated error)
    (hcall : ¬ call.Cancelled) :
    ∃ error, (call.run encode xlsx
      (runs encode xlsx later (runs encode xlsx calls (engine, w)).2).2).1 = .error error := by
  have hset := runs_records calls (engine, w) hdetected
  rw [← Prod.mk.eta (p := (runs encode xlsx calls (engine, w)).2), runs_failed later hset]
  exact (run_failed call hset _).2 hcall

/-! ### A log of two lines -/

theorem four_lt : 4 < u64Bound := by decide

/-- A file of four bytes that has another size at the calls of `grown` and delivers nothing
at those of `empty`. -/
def twoLineFile (grown empty : List Nat) : SourceFile Nat where
  handle := {
    fingerprint := fun w =>
      (.ok ⟨if w ∈ grown then 5 else 4, none, none, by split <;> decide⟩, w + 1)
    readAt := fun w offset len =>
      (.ok (if w ∈ empty then [] else (([97, lf, 98, lf] : List Byte).drop offset).take len),
        w + 1) }
  entryMetadata w := (.ok ⟨true, false, 4⟩, w)
  pathFingerprint w := (.ok ⟨4, none, none, four_lt⟩, w)
  windows := none
  cloneForQuery w := (.ok (), w)

theorem four_pos : 0 < 4 := Nat.succ_pos 3

theorem origin_first : [Checkpoint.origin].head? = some Checkpoint.origin := rfl

/-- The engine as it stands when the file has been opened. -/
def twoLineEngine (grown empty : List Nat) : DocumentEngine Nat Empty where
  file := twoLineFile grown empty
  sourceSnapshot := ⟨4, none, none, four_lt⟩
  windowsSnapshot := ⟨0, 0, 4, 0, 0, 0, 0⟩
  content := .text .log ⟨⟨4, none, none, four_lt⟩,
    some (BoundaryScanner.atOffset ViewportFormat.lines.rules 0),
    ⟨[.origin], 4, 1, .rows, .origin, origin_first⟩, 0, none, 4, four_pos, 4, four_pos, none⟩
  integrityFailed := false
  bytesSinceStrongPathCheck := 0

def noWorkbooks : XlsxReader Nat Empty where
  openXlsx _ _ _ w := (.error .noWorksheet, w)
  step content := nomatch content
  progress content := nomatch content
  readRows content := nomatch content
  sheets content := nomatch content

/-- Every byte is one unit. -/
def plainPreview : PreviewEncoder := fun bytes _ =>
  ⟨bytes.map UInt8.toUInt16 ++ [0], false, false⟩

/-- The two lines in their own order. -/
def twoLineOrder : SortedOrder Nat where
  len := 2
  recordAt rank w := (.ok ⟨rank, ⟨2 * rank, 2 * rank + 2, Nat.le_add_right _ _⟩⟩, w)
  rankOf row w := (.ok row, w)

theorem change_is_sticky_grown : ∃ error, ((Call.snapshot 0 .never).run plainPreview noWorkbooks
    (runs plainPreview noWorkbooks [] (runs plainPreview noWorkbooks [.validateQuerySnapshot]
      (twoLineEngine [0] [], 0)).2).2).1 = .error error := by
  apply change_is_sticky plainPreview noWorkbooks (twoLineEngine [0] []) 0
    [.validateQuerySnapshot] [] (.snapshot 0 .never)
  · exact ⟨_, List.mem_singleton.mpr rfl, .sourceChanged .grew 4 5, by decide +kernel, trivial, id⟩
  · exact id

/-- The preview of the first row of an order finds the file ended, and says so. The engine
does not remember: the next snapshot is made as if nothing had been. -/
theorem ordered_change_forgotten :
    let answers := runs plainPreview noWorkbooks
      [.snapshotOrdered twoLineOrder 0 fun _ => ⟨false, fun _ => false⟩]
      (twoLineEngine [] [2], 0)
    (∃ answer ∈ answers.1, ∃ error, answer.2 = .error error ∧ error.NamesChange) ∧
      ¬ ∃ error, ((Call.snapshot 0 .never).run plainPreview noWorkbooks answers.2).1 =
        .error error := by
  intro answers
  refine ⟨⟨_, List.mem_singleton.mpr rfl, .viewport .sourceShrank, by decide +kernel, trivial⟩, ?_⟩
  rintro ⟨error, herror⟩
  have hok : ((Call.snapshot 0 .never).run plainPreview noWorkbooks answers.2).1.isOk = true := by
    decide +kernel
  rw [herror] at hok
  cases hok

end Call

end DocumentEngine

end LeanRows
