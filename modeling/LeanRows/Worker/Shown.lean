import LeanRows.Worker.Wakeup

/-!
# The rows that are shown and the sort that describes them

An event carries rows, the description of a sort and the number of rows. All three are of one
order: that of the source, or that of a finished sort of just the request that the description
names. Orders, descriptions and rows are replaced together or not at all, so this holds whatever
sort fails, is cancelled or is overtaken, and whatever is read in between.
-/

namespace LeanRows.Worker

set_option autoImplicit false

section Shown
variable {W X Q Z : Type}

/-! ## What belongs together -/

variable (services : Services W X Q Z)

/-- The engines that calls can come to on a file opened at the path. -/
inductive EngineOf (path : String) : DocumentEngine W X → Prop
  | opened {kind : DocumentEngine.DocumentKind} {file : SourceFile W} {sheet : Option Nat}
      {polls : StepPolls} {content : DocumentContent X} {w w' : W}
      (hfile : (services.openFile path w).1 = .ok (kind, file))
      (hcontent : (DocumentEngine.openContent services.xlsx kind file sheet polls w').1 =
        .ok content)
      {fingerprint : SourceFingerprint} {w'' : W}
      (hfingerprint : (file.handle.fingerprint w'').1 = .ok fingerprint)
      (evidence : FileEvidence) : EngineOf path ⟨file, fingerprint, evidence, content, false, 0⟩
  | scan {engine : DocumentEngine W X} (h : EngineOf path engine) (entry : Bool)
      (polls : StepPolls) (w : W) :
      EngineOf path (DocumentEngine.scanStep services.xlsx entry polls (engine, w)).2.1
  | rows {engine : DocumentEngine W X} (h : EngineOf path engine) (firstRow : Nat)
      (polls : SnapshotPolls) (w : W) : EngineOf path
        (DocumentEngine.snapshot services.encode services.xlsx firstRow polls (engine, w)).2.1
  | ordered {engine : DocumentEngine W X} (h : EngineOf path engine) (order : SortedOrder W)
      (firstRow : Nat) (polls : Nat → StepPolls) (w : W) : EngineOf path
        (DocumentEngine.snapshotOrdered services.encode order firstRow polls (engine, w)).2.1
  | checked {engine : DocumentEngine W X} (h : EngineOf path engine) (w : W) :
      EngineOf path (DocumentEngine.validateQuerySnapshot (engine, w)).2.1
  | query {engine : DocumentEngine W X} (h : EngineOf path engine) (w : W) :
      EngineOf path (DocumentEngine.queryPlan (engine, w)).2.1
  | sort {engine : DocumentEngine W X} (h : EngineOf path engine) (w : W) :
      EngineOf path (DocumentEngine.sortPlan (engine, w)).2.1

/-- The sessions that a sort of the request can come to on a file opened at the path. -/
inductive SessionOf (path : String) (request : Sort.SortRequest) : Z → Prop
  | start {engine : DocumentEngine W X} {plan : DocumentQueryPlan W} {progress : DocumentProgress}
      {w w' : W} {session : Z} (hengine : EngineOf services path engine)
      (hplan : (DocumentEngine.sortPlan (engine, w)).1 = .ok plan)
      (h : (services.sort.start request plan.source plan.format progress w').1 = .ok session) :
      SessionOf path request session
  | advance {session : Z} (h : SessionOf path request session) (polls : StepPolls) (w : W) :
      SessionOf path request (services.sort.advance session polls w).2.1

/-- The sessions of the request whose last step was to complete it. -/
inductive FinishedOf (path : String) (request : Sort.SortRequest) : Z → Prop
  | advance {session : Z} {step : SortStep} {polls : StepPolls} {w : W}
      (h : SessionOf services path request session)
      (hstep : (services.sort.advance session polls w).1 = .ok step)
      (hphase : step.phase = .complete) :
      FinishedOf path request (services.sort.advance session polls w).2.1

/-- The orders that a completed sort of the request gives. -/
def OrderOf (path : String) (request : Sort.SortRequest) (order : SortedOrder W) : Prop :=
  ∃ session w, FinishedOf services path request session ∧
    (services.sort.intoOrder session w).1 = .ok order

/-- A description is of the order that is installed. -/
def Describes (path : String) (committed : Option Sort.SortRequest) :
    Option (SortedOrder W) → Prop
  | none => committed = none
  | some order => ∃ request, committed = some request ∧ OrderOf services path request order

/-- The snapshots that are read in an order. -/
def SnapshotOf (path : String) (order : Option (SortedOrder W)) (snapshot : UiRowSnapshot) :
    Prop :=
  ∃ engine w firstRow polls rows, EngineOf services path engine ∧ ((match order with
    | some order => DocumentEngine.snapshotOrdered services.encode order firstRow rows
    | none => DocumentEngine.snapshot services.encode services.xlsx firstRow polls :
      EngineM W X UiRowSnapshot) (engine, w)).1 = .ok snapshot

/-- The rows of a cache have been read in the order; its columns may be more than theirs. -/
def RowsOf (path : String) (order : Option (SortedOrder W)) (cache : CacheState) : Prop :=
  ∃ snapshot columns, SnapshotOf services path order snapshot ∧
    (convertCache snapshot).map (fun converted => { converted with columns := columns }) =
      .ok cache

/-- The progress is that of an engine on the file. Its number of rows is that of the order; in
source order it is what the engine has found, or where the rows of the cache end. -/
def ProgressOf (path : String) (cache : CacheState) (progress : WorkerProgress)
    (order : Option (SortedOrder W)) : Prop :=
  ∃ engine, EngineOf services path engine ∧ progress =
    { workerProgress (engine.progress services.xlsx) cache with
      availableRows := (order.map SortedOrder.len).getD
        (max (engine.progress services.xlsx).rowCount
          (saturatingAdd cache.firstRow cache.rowCount)) }

/-- What a document shows is of one order. -/
structure Belongs (document : ActiveDocument W X Q Z) : Prop where
  engine : EngineOf services document.path document.engine
  rows : RowsOf services document.path document.order document.cache
  described : Describes services document.path document.committed document.order
  running : ∀ active session, document.sort = some active → active.session = some session →
    SessionOf services document.path active.request session
  asked : document.sort.isSome = true → document.sortState.isSome = true

variable {services}

/-! ## The user interface -/

section Documents
variable {document : ActiveDocument W X Q Z}

theorem Belongs.withEngine (h : Belongs services document) {engine : DocumentEngine W X}
    (hengine : EngineOf services document.path engine) :
    Belongs services { document with engine := engine } :=
  ⟨hengine, h.rows, h.described, h.running, h.asked⟩

theorem mapError_ok {α ε ε' : Type} {r : Except ε α} {f : ε → ε'} {a : α}
    (h : r.mapError f = .ok a) : r = .ok a := by
  cases r with
  | error error => cases h
  | ok b =>
    cases h
    rfl

theorem openSheet_engine {command : OpenCommand} {polls : DocumentEngine.OpenPolls} {w : W}
    {engine : DocumentEngine W X} {first : UiRowSnapshot}
    (h : (openSheet services command polls w).1 = .ok (engine, first)) :
    EngineOf services command.path engine ∧ SnapshotOf services command.path none first := by
  have hall : (openSheet services command polls).Ensures fun r =>
      EngineOf services command.path r.1 ∧ SnapshotOf services command.path none r.2 := by
    refine .bind (P := fun r => ∃ w, (services.openFile command.path w).1 = .ok r)
      (fun w _ hfile => ⟨w, hfile⟩) ?_
    rintro ⟨kind, file⟩ ⟨w₁, hfile⟩
    refine .bind (P := fun _ => True) (fun _ _ _ => trivial) fun evidence _ => ?_
    refine .bind (P := fun fingerprint => ∃ w, (file.handle.fingerprint w).1 = .ok fingerprint)
      (fun w fingerprint hcapture => ⟨w, mapError_ok hcapture⟩) ?_
    rintro fingerprint ⟨w₃, hfingerprint⟩
    refine .bind (P := fun content => ∃ w, (DocumentEngine.openContent services.xlsx kind file
      command.sheet polls.workbook w).1 = .ok content) (fun w _ hcontent => ⟨w, hcontent⟩) ?_
    rintro content ⟨w₂, hcontent⟩ w ⟨engine, first⟩ hopened
    have hengine : EngineOf services command.path
        ⟨file, fingerprint, evidence, content, false, 0⟩ := .opened hfile hcontent hfingerprint _
    dsimp only at hopened
    cases hsnapshot : (DocumentEngine.snapshot services.encode services.xlsx 0 polls.snapshot
      (⟨file, fingerprint, evidence, content, false, 0⟩, w)).1 with
    | error error =>
      rw [hsnapshot] at hopened
      cases hopened
    | ok snapshot =>
      rw [hsnapshot] at hopened
      cases hopened
      exact ⟨.rows hengine 0 polls.snapshot w,
        _, w, 0, polls.snapshot, fun _ => ⟨false, fun _ => false⟩, hengine, hsnapshot⟩
  exact hall w (engine, first) h

theorem Belongs.withQuery (h : Belongs services document) (query : Option (ActiveQuery Q)) :
    Belongs services { document with query := query } :=
    ⟨h.engine, h.rows, h.described, h.running, h.asked⟩

theorem committed_map {f : WorkerSortState → WorkerSortState}
    (hf : ∀ state, (f state).committed = state.committed) :
    (document.sortState.map f).bind WorkerSortState.committed = document.committed := by
  unfold ActiveDocument.committed
  cases document.sortState with
  | none => rfl
  | some state => exact hf state

theorem Belongs.sortFailed (h : Belongs services document) (message : String) :
    Belongs services (document.sortFailed message) where
  engine := h.engine
  rows := h.rows
  described := by
    have hsame : (document.sortFailed message).committed = document.committed :=
      committed_map fun _ => rfl
    rw [hsame]
    exact h.described
  running _ _ hsort := by cases hsort
  asked hsort := by cases hsort

theorem Belongs.sortAsked (h : Belongs services document) (command : SortCommand) :
    Belongs services (document.sortAsked services command) :=
  ⟨h.engine, h.rows, h.described, fun _ _ hsort => (by cases hsort),
    fun hsort => (by cases hsort)⟩

theorem Belongs.sortStepped (h : Belongs services document) (step : SortStep) :
    Belongs services (document.sortStepped step) where
  engine := h.engine
  rows := h.rows
  described := by
    have hsame : (document.sortStepped step).committed = document.committed :=
      committed_map fun _ => rfl
    rw [hsame]
    exact h.described
  running := h.running
  asked hsort := by
    show (document.sortState.map _).isSome = true
    rw [Option.isSome_map]
    exact h.asked hsort

/-- What holds of the document where a pass ends. -/
def Kept (services : Services W X Q Z) : Next (Option (ActiveDocument W X Q Z)) → Prop
  | .again active | .sleep active =>
    ∀ document, active = some document → Belongs services document
  | .stop => True

end Documents

/-! ## Runs -/

end Shown

end LeanRows.Worker
