import LeanRows.Worker.Search
import LeanRows.Worker.Asked

/-!
# The matches that are shown

While the files of some paths stay as they are, what an event tells of a search is true of the
hits of a needle that was searched for under its serial: also where the search has been
cancelled and taken up again, where sorts and viewports come in between, and where a newer search
has been asked for already. Serials are drawn one after the other, so one of them stands for one
search until all have been used.
-/

namespace LeanRows.Worker

set_option autoImplicit false

section Found
variable {W X Q Z : Type}

/-! ## What is searched for -/

/-- The hits of what is searched for in a document. -/
def Search.hits (search : Search) (format : DocumentFormat) (document : List Byte) :
    List QueryHit :=
  hitsOf search.needle search.mode format.viewportFormat document

/-- The user interface, when it asks for no other searches than these. -/
def searchers (asked : Search → Prop) : Others (System W) UiMove :=
  callers.showing UiMove.search asked

variable (services : Services W X Q Z) (documents : String → Option (DocumentFormat × List Byte))
  (asked : Search → Prop) (Has : List QueryHit → List QueryHit → Q → Prop)

/-- The query is on the hits of a search that was asked for under its serial. -/
def QueryFinds (path : String) (query : ActiveQuery Q) : Prop :=
  ∃ search, asked search ∧ search.serial = query.state.querySerial ∧
    ∀ format document, documents path = some (format, document) →
      Finds Has (search.hits format document) query

/-- The engine is on the file of the path, and the query on its hits. -/
structure Searching (document : ActiveDocument W X Q Z) : Prop where
  engine : EngineOf services document.path document.engine
  query : ∀ query, document.query = some query →
    QueryFinds documents asked Has document.path query

def EventFinds (event : WorkerEvent) : Prop :=
  ∀ query, event.query = some query →
    ∃ search, asked search ∧ search.serial = query.querySerial ∧
      ∀ format document, documents event.path = some (format, document) →
        ShowsHits (search.hits format document) query

/-- So it is of every event on its way, and a command is of a search that was asked for. -/
structure Finding (s : System W) : Prop where
  posted : ∀ event, s.shared.events.pending = some event → EventFinds documents asked event
  taken : ∀ event, s.ui.event = some event → EventFinds documents asked event
  command : ∀ documentSerial querySerial needle mode generation, s.shared.queries.pending =
    some (.start documentSerial querySerial needle mode generation) →
      asked ⟨querySerial, needle, mode⟩

variable {services documents asked Has}

/-! ## The user interface -/

theorem Finding.of_same {s s' : System W} (h : Finding documents asked s)
    (hposted : s'.shared.events.pending = s.shared.events.pending ∨
      s'.shared.events.pending = none)
    (htaken : s'.ui.event = s.ui.event ∨ s'.ui.event = none ∨
      s'.ui.event = s.shared.events.pending)
    (hcommand : s'.shared.queries.pending = s.shared.queries.pending ∨
      s'.shared.queries.pending = none) : Finding documents asked s' := by
  refine ⟨fun event hevent => ?_, fun event hevent => ?_, ?_⟩
  · rcases hposted with heq | hnone
    · exact h.posted event (heq ▸ hevent)
    · rw [hnone] at hevent
      cases hevent
  · rcases htaken with heq | hnone | heq
    · exact h.taken event (heq ▸ hevent)
    · rw [hnone] at hevent
      cases hevent
    · exact h.posted event (heq ▸ hevent)
  · intro documentSerial querySerial needle mode generation hpending
    rcases hcommand with heq | hnone
    · exact h.command _ _ _ _ _ (heq ▸ hpending)
    · rw [hnone] at hpending
      cases hpending

theorem UiOp.run_finding {s : System W} (op : UiOp) (h : Finding documents asked s)
    (hop : ∀ search ∈ op.search s.ui, asked search) : Finding documents asked (op.run s) := by
  cases op with
  | guardLatest serial | guardActive serial | guardLatestQuery serial =>
    unfold UiOp.run
    dsimp only
    split
    · exact h
    · exact h.of_same (.inl rfl) (.inl rfl) (.inl rfl)
  | nextSort | nextQuery =>
    unfold UiOp.run
    dsimp only
    split <;> exact h.of_same (.inl rfl) (.inl rfl) (.inl rfl)
  | takeEvents => exact h.of_same (.inr rfl) (.inl rfl) (.inl rfl)
  | takeQueries => exact h.of_same (.inl rfl) (.inl rfl) (.inr rfl)
  | pollTake =>
    unfold UiOp.run
    dsimp only
    split
    · exact h.of_same (.inl rfl) (.inl rfl) (.inl rfl)
    · rename_i event hevent
      exact h.of_same (.inr rfl) (.inr (.inr hevent.symm)) (.inl rfl)
  | pollJudge =>
    unfold UiOp.run
    dsimp only
    split
    · exact h
    · split <;> exact h.of_same (.inl rfl) (.inr (.inl rfl)) (.inl rfl)
  | postStart documentSerial needle mode =>
    refine ⟨h.posted, h.taken, fun documentSerial' querySerial needle' mode' generation hsent => ?_⟩
    rcases CoalescingMailbox.send_pending_cases s.shared.queries
      (.start documentSerial s.ui.querySerial needle mode s.ui.queryGeneration) with heq | heq
    · cases heq.symm.trans hsent
      exact hop _ rfl
    · exact h.command _ _ _ _ _ (heq.symm.trans hsent)
  | postNavigate documentSerial querySerial direction =>
    refine ⟨h.posted, h.taken, fun documentSerial' querySerial' needle mode generation hsent => ?_⟩
    rcases CoalescingMailbox.send_pending_cases s.shared.queries
      (.navigate documentSerial querySerial direction s.ui.queryGeneration) with heq | heq
    · cases heq.symm.trans hsent
    · exact h.command _ _ _ _ _ (heq.symm.trans hsent)
  | _ => exact h.of_same (.inl rfl) (.inl rfl) (.inl rfl)

theorem finding_stable :
    (searchers asked).Stable (Finding documents asked : System W → Prop) := by
  intro m s hallowed h
  cases m with
  | enter call =>
    show Finding documents asked ((UiMove.enter call).run s)
    unfold UiMove.run
    dsimp only
    split
    · split
      · exact h
      · exact h.of_same (.inl rfl) (.inl rfl) (.inl rfl)
    · exact h
  | step =>
    show Finding documents asked (UiMove.step.run s)
    unfold UiMove.run
    dsimp only
    split
    · exact h
    · rename_i op rest hremaining
      refine UiOp.run_finding _ (h.of_same (.inl rfl) (.inl rfl) (.inl rfl)) fun search hop => ?_
      refine hallowed.2 search ?_
      unfold UiMove.search
      rw [hremaining]
      exact hop
  | otherTab => exact h.of_same (.inl rfl) (.inl rfl) (.inl rfl)

/-! ## Accesses of the worker -/

/-- An access that posts neither an event nor a command. -/
theorem onShared_finds {α : Type} {f : Shared W → α × Shared W} {P : α → Prop}
    (hevents : ∀ shared, (f shared).2.events = shared.events)
    (hqueries : ∀ shared, (f shared).2.queries.pending = shared.queries.pending ∨
      (f shared).2.queries.pending = none)
    (hvalue : ∀ s : System W, Finding documents asked s → P (f s.shared).1) :
    Prog.Yields (searchers asked) (Finding documents asked) (onShared f) P :=
  .atomic finding_stable fun s h =>
    ⟨h.of_same (.inl (congrArg CoalescingMailbox.pending (hevents s.shared))) (.inl rfl)
      (hqueries s.shared), hvalue s h⟩

theorem load_finds {α : Type} (f : Shared W → α) :
    Prog.Yields (searchers asked) (Finding documents asked) (load f) fun _ => True :=
  onShared_finds (fun _ => rfl) (fun _ => .inl rfl) fun _ _ => trivial

theorem onWorld_finds {α : Type} {f : Choice → W → α × W} {P : α → Prop}
    (hvalue : ∀ c w, P (f c w).1) :
    Prog.Yields (searchers asked) (Finding documents asked) (onWorld f) P :=
  .choose finding_stable fun c s h =>
    ⟨h.of_same (.inl rfl) (.inl rfl) (.inl rfl), hvalue c s.shared.world⟩

theorem ask_finds {α : Type} (f : Choice → α) :
    Prog.Yields (searchers asked) (Finding documents asked) (ask f : WorkerM W α)
      fun _ => True :=
  .choose finding_stable fun _ _ h => ⟨h, trivial⟩

theorem storeActiveSerial_finds (serial : Nat) : Prog.Yields (searchers asked)
    (Finding documents asked) (storeActiveSerial serial : WorkerM W Unit) fun _ => True := by
  unfold storeActiveSerial store
  exact onShared_finds (fun _ => rfl) (fun _ => .inl rfl) fun _ _ => trivial

theorem withdrawQuery_finds : Prog.Yields (searchers asked) (Finding documents asked)
    (withdrawQuery : WorkerM W Unit) fun _ => True := by
  refine .bind (storeActiveSerial_finds 0) fun _ _ => .bind (Q := fun _ => True) ?_ fun _ _ =>
    .bind (Q := fun _ => True) ?_ fun _ _ => .bind (Q := fun _ => True) ?_ fun _ _ => .pure trivial
  · exact onShared_finds (fun _ => rfl) (fun _ => .inl rfl) fun _ _ => trivial
  · exact onShared_finds (fun _ => rfl) (fun _ => .inl rfl) fun _ _ => trivial
  · exact onShared_finds (fun _ => rfl) (fun _ => .inr rfl) fun _ _ => trivial

theorem sortCurrent_finds (serial : Nat) (generation : CancellationGeneration) :
    Prog.Yields (searchers asked) (Finding documents asked)
      (sortCurrent serial generation : WorkerM W Bool) fun _ => True := by
  refine .bind (load_finds _) fun latest _ => ?_
  split
  · exact .bind (load_finds _) fun token _ => .pure trivial
  · exact .pure trivial

theorem emitEvent_finds {event : WorkerEvent} (h : EventFinds documents asked event) :
    Prog.Yields (searchers asked) (Finding documents asked) (emitEvent event : WorkerM W Bool)
      fun _ => True := by
  refine .bind (load_finds _) fun latest _ => ?_
  split
  · refine .atomic finding_stable fun s hs =>
      ⟨⟨fun posted hposted => ?_, hs.taken, hs.command⟩, trivial⟩
    rcases CoalescingMailbox.send_pending_cases s.shared.events event with heq | heq
    · have hsame := heq.symm.trans hposted
      cases hsame
      exact h
    · exact hs.posted posted (heq.symm.trans hposted)
  · exact .pure trivial

theorem emitFailedOpen_finds (path : String) (serial : Nat) (message : String) :
    Prog.Yields (searchers asked) (Finding documents asked)
      (emitFailedOpen path serial message : WorkerM W Bool) fun _ => True :=
  .bind withdrawQuery_finds fun _ _ => emitEvent_finds fun query h => by cases h

/-! ## Documents -/

section Documents
variable {document document' : ActiveDocument W X Q Z}

/-- Nothing but the path, the engine and the query matters. -/
theorem Searching.of_same (h : Searching services documents asked Has document)
    (hpath : document'.path = document.path) (hengine : document'.engine = document.engine)
    (hquery : document'.query = document.query) :
    Searching services documents asked Has document' := by
  refine ⟨hpath ▸ hengine ▸ h.engine, ?_⟩
  rw [hquery, hpath]
  exact h.query

theorem Searching.withEngine (h : Searching services documents asked Has document)
    {engine : DocumentEngine W X} (hengine : EngineOf services document.path engine) :
    Searching services documents asked Has { document with engine := engine } := ⟨hengine, h.query⟩

theorem Searching.withQuery (h : Searching services documents asked Has document)
    {query : ActiveQuery Q} (hquery : QueryFinds documents asked Has document.path query) :
    Searching services documents asked Has { document with query := some query } := by
  refine ⟨h.engine, fun query' hsome => ?_⟩
  cases hsome
  exact hquery

theorem Searching.withoutQuery (h : Searching services documents asked Has document) :
    Searching services documents asked Has { document with query := none } :=
  ⟨h.engine, fun _ hnone => by cases hnone⟩

theorem activeEvent_finds (h : Searching services documents asked Has document)
    (phase : WorkerPhase) (failure : Option String) (rank : Except String (Option Nat)) :
    EventFinds documents asked (activeEvent services document phase failure rank) := by
  intro state hstate
  obtain ⟨query, hquery, rfl⟩ := Option.map_eq_some_iff.mp hstate
  obtain ⟨search, hasked, hserial, hfinds⟩ := h.query query hquery
  exact ⟨search, hasked, hserial, fun format bytes hdocument =>
    (hfinds format bytes hdocument).shows⟩

theorem rankOf_finds (document : ActiveDocument W X Q Z) (row : Nat) :
    Prog.Yields (searchers asked) (Finding documents asked) (rankOf services document row)
      fun _ => True := by
  unfold rankOf
  split
  · exact .pure trivial
  · exact onWorld_finds fun _ _ => trivial

theorem emitActive_finds (h : Searching services documents asked Has document)
    (phase : WorkerPhase) (failure : Option String) :
    Prog.Yields (searchers asked) (Finding documents asked)
      (emitActive services document phase failure) fun _ => True := by
  refine .bind (Q := fun _ => True) ?_ fun rank _ => emitEvent_finds (activeEvent_finds h _ _ _)
  unfold queryRank
  split
  · exact .pure trivial
  · exact .bind (rankOf_finds document _) fun rank _ => .pure trivial

/-- A call to the engine leaves the rest of the document as it was. -/
theorem onEngine_finds {α : Type} (h : Searching services documents asked Has document)
    {x : Choice → EngineM W X α}
    (hengine : ∀ c engine w, EngineOf services document.path engine →
      EngineOf services document.path (x c (engine, w)).2.1) :
    Prog.Yields (searchers asked) (Finding documents asked) (onEngine document x) fun r =>
      Searching services documents asked Has r.2 ∧ r.2.path = document.path :=
  onWorld_finds fun c w => ⟨h.withEngine (hengine c _ w h.engine), rfl⟩

theorem readRows_finds (order : Option (SortedOrder W))
    (h : Searching services documents asked Has document) (firstRow : Nat) :
    Prog.Yields (searchers asked) (Finding documents asked)
      (readRows services order document firstRow) fun r =>
        Searching services documents asked Has r.2 := by
  refine (onEngine_finds h fun c engine w hengine => ?_).mono fun r hr => hr.1
  cases order with
  | none => exact .rows hengine firstRow c.snapshot w
  | some order => exact .ordered hengine order firstRow c.rows w

theorem validateSource_finds (h : Searching services documents asked Has document) :
    Prog.Yields (searchers asked) (Finding documents asked) (validateSource document) fun r =>
      Searching services documents asked Has r.2 ∧ r.2.path = document.path :=
  onEngine_finds h fun _ _ w hengine => .checked hengine w

theorem failDocument_finds (h : Searching services documents asked Has document)
    (message : String) :
    Prog.Yields (searchers asked) (Finding documents asked)
      (failDocument services document message) fun r =>
        Searching services documents asked Has r.2 := by
  refine .bind (Q := Searching services documents asked Has) ?_ fun document' h' =>
    .bind (emitActive_finds h' _ _) fun sent _ => .pure h'
  exact .bind withdrawQuery_finds fun _ _ => .pure h.withoutQuery

theorem replaceDocument_finds (command : OpenCommand) :
    Prog.Yields (searchers asked) (Finding documents asked) (replaceDocument services command)
      fun r => ∀ document : ActiveDocument W X Q Z, r.2 = some document →
        Searching services documents asked Has document := by
  refine .bind (Q := fun opened => ∀ engine first, opened = .ok (engine, first) →
    EngineOf services command.path engine)
    (onWorld_finds fun c w engine first h => (openSheet_engine h).1) fun opened hopened => ?_
  split
  · exact .pure fun document h => by cases h
  · exact .bind (emitFailedOpen_finds _ _ _) fun sent _ => .pure fun document h => by cases h
  · rename_i engine first
    split
    · exact .bind (emitFailedOpen_finds _ _ _) fun sent _ => .pure fun document h => by cases h
    · rename_i cache hconvert
      have hnew : Searching services documents asked Has
          (newDocument services command engine cache) :=
        ⟨hopened engine first rfl, fun query h => by cases h⟩
      refine .bind (storeActiveSerial_finds _) fun _ _ => ?_
      refine .bind (emitActive_finds hnew _ _) fun sent _ => .pure fun document h => ?_
      cases h
      exact hnew

/-! ### Viewports -/

theorem showRows_finds (h : Searching services documents asked Has document) (firstRow : Nat) :
    Prog.Yields (searchers asked) (Finding documents asked) (showRows services document firstRow)
      fun r => Searching services documents asked Has r.2 := by
  refine .bind (readRows_finds document.order h firstRow) ?_
  rintro ⟨read, document'⟩ h'
  dsimp only
  split
  · exact .pure h'
  · exact failDocument_finds h' _
  · split
    · exact failDocument_finds h' _
    · rename_i cache hcache
      have hnext : ∀ rank, Searching services documents asked Has
          { document' with cache := cache, revealRank := rank } := fun _ => h'.of_same rfl rfl rfl
      exact .bind (emitActive_finds (hnext document'.revealRank) _ _) fun sent _ =>
        .pure (hnext none)

theorem applyViewportRequest_finds (h : Searching services documents asked Has document)
    (request : ViewportCommand) :
    Prog.Yields (searchers asked) (Finding documents asked)
      (applyViewportRequest services document request) fun r =>
        Searching services documents asked Has r.2 := by
  have hreveal : ∀ rank, Searching services documents asked Has
      { document with revealRank := rank } := fun _ => h.of_same rfl rfl rfl
  refine .bind (load_finds _) fun latest _ => ?_
  split
  · split
    · refine .bind (rankOf_finds _ _) fun rank _ => ?_
      split
      · exact .bind (emitActive_finds (hreveal none) _ _) fun sent _ => .pure (hreveal none)
      · exact showRows_finds (hreveal _) _
    · exact showRows_finds (hreveal none) _
  · exact .pure h

/-! ### Sorts -/

theorem endSort_finds (h : Searching services documents asked Has document) :
    Prog.Yields (searchers asked) (Finding documents asked) (endSort services document)
      (Searching services documents asked Has) :=
  .bind (emitActive_finds h _ _) fun _ _ => .pure h

theorem restoreSource_finds (h : Searching services documents asked Has document) :
    Prog.Yields (searchers asked) (Finding documents asked) (restoreSource services document)
      (Searching services documents asked Has) := by
  refine .bind (readRows_finds none h 0) ?_
  rintro ⟨read, document'⟩ h'
  dsimp only
  split
  · exact .pure (h'.of_same rfl rfl rfl)
  · split
    · exact .pure (h'.of_same rfl rfl rfl)
    · exact .pure (h'.of_same rfl rfl rfl)

theorem startSort_finds (h : Searching services documents asked Has document)
    (command : SortCommand) :
    Prog.Yields (searchers asked) (Finding documents asked)
      (startSort services document command) (Searching services documents asked Has) := by
  have hasked : Searching services documents asked Has (document.sortAsked services command) :=
    h.of_same rfl rfl rfl
  refine .bind (load_finds _) fun latest _ => ?_
  split
  · refine .bind (Q := Searching services documents asked Has) ?_ fun document' h' =>
      .bind (emitActive_finds h' _ _) fun _ _ => .pure h'
    unfold beginSort
    split
    · exact .pure (hasked.of_same rfl rfl rfl)
    · exact restoreSource_finds hasked
  · exact .pure h

theorem openSort_finds (h : Searching services documents asked Has document)
    (request : Sort.SortRequest) :
    Prog.Yields (searchers asked) (Finding documents asked) (openSort services document request)
      fun r => Searching services documents asked Has r.2 := by
  refine .bind (Q := fun _ => True) (onWorld_finds fun _ _ => trivial) fun memory _ => ?_
  split
  · exact .pure h
  · refine .bind (onEngine_finds h fun _ _ w hengine => .sort hengine w) ?_
    rintro ⟨plan, document'⟩ ⟨h', -⟩
    dsimp only
    split
    · exact .pure h'
    · exact .bind (Q := fun _ => True) (onWorld_finds fun _ _ => trivial) fun _ _ => .pure h'

theorem prepareOrder_finds (h : Searching services documents asked Has document) (session : Z) :
    Prog.Yields (searchers asked) (Finding documents asked)
      (prepareOrder services document session) fun r =>
        Searching services documents asked Has r.2 := by
  refine .bind (validateSource_finds h) ?_
  rintro ⟨valid, checked⟩ ⟨hchecked, -⟩
  dsimp only
  split
  · exact .pure hchecked
  · refine .bind (Q := fun _ => True) (onWorld_finds fun _ _ => trivial) fun order _ => ?_
    split
    · exact .pure hchecked
    · rename_i order
      refine .bind (readRows_finds (some order) hchecked 0) ?_
      rintro ⟨read, document'⟩ h'
      dsimp only
      split
      · exact .pure h'
      · split
        · exact .pure h'
        · split
          · exact .pure h'
          · refine .bind (validateSource_finds h') ?_
            rintro ⟨valid, last⟩ ⟨hlast, -⟩
            dsimp only
            split
            · exact .pure hlast
            · exact .pure hlast

theorem prepareSortIfCurrent_finds (h : Searching services documents asked Has document)
    (active : ActiveSort Z) (session : Z) :
    Prog.Yields (searchers asked) (Finding documents asked)
      (prepareSortIfCurrent services document active session) fun r =>
        Searching services documents asked Has r.2 := by
  refine .bind (sortCurrent_finds _ _) fun current _ => ?_
  split
  · refine .bind (prepareOrder_finds h session) ?_
    rintro ⟨prepared, document'⟩ h'
    dsimp only
    split
    · exact .pure h'
    · exact .bind (sortCurrent_finds _ _) fun current _ => .pure h'
  · exact .pure h

theorem completeSort_finds (h : Searching services documents asked Has document)
    (active : ActiveSort Z) :
    Prog.Yields (searchers asked) (Finding documents asked)
      (completeSort services document active) (Searching services documents asked Has) := by
  have hnone : Searching services documents asked Has { document with sort := none } :=
    h.of_same rfl rfl rfl
  refine .bind (sortCurrent_finds _ _) fun current _ => ?_
  split
  · split
    · exact .pure hnone
    · rename_i session hsome
      refine .bind (prepareSortIfCurrent_finds hnone active session) ?_
      rintro ⟨prepared, document'⟩ h'
      refine endSort_finds ?_
      cases prepared with
      | error message => exact h'.of_same rfl rfl rfl
      | ok prepared =>
        cases prepared with
        | none => exact h'.of_same rfl rfl rfl
        | some prepared => exact h'.of_same rfl rfl rfl
  · exact endSort_finds (hnone.of_same rfl rfl rfl)

theorem checkSortStep_finds (h : Searching services documents asked Has document)
    (checked : Nat) (outcome : Except String SortStep) :
    Prog.Yields (searchers asked) (Finding documents asked)
      (checkSortStep services document checked outcome) fun r =>
        Searching services documents asked Has r.2 := by
  unfold checkSortStep
  split
  · exact .pure h
  · split
    · refine .bind (validateSource_finds h) ?_
      rintro ⟨valid, document'⟩ ⟨h', -⟩
      dsimp only
      split
      · exact .pure h'
      · exact .pure h'
    · exact .pure h

theorem stepSort_finds (h : Searching services documents asked Has document)
    (active : ActiveSort Z) (session : Z) :
    Prog.Yields (searchers asked) (Finding documents asked)
      (stepSort services document active session) (Searching services documents asked Has) := by
  have hnext : ∀ sort, Searching services documents asked Has { document with sort := sort } :=
    fun _ => h.of_same rfl rfl rfl
  refine .bind (Q := fun _ => True) (onWorld_finds fun _ _ => trivial) ?_
  rintro ⟨outcome, session'⟩ -
  dsimp only
  refine .bind (checkSortStep_finds (hnext _) _ _) ?_
  rintro ⟨outcome', document'⟩ h'
  dsimp only
  split
  · exact endSort_finds (h'.of_same rfl rfl rfl)
  · rename_i step
    have hstepped : Searching services documents asked Has (document'.sortStepped step) :=
      h'.of_same rfl rfl rfl
    split
    · exact completeSort_finds hstepped _
    · refine .bind (ask_finds _) fun elapsed _ => ?_
      split
      · exact endSort_finds hstepped
      · exact .pure hstepped

theorem advanceSort_finds (h : Searching services documents asked Has document)
    (active : ActiveSort Z) :
    Prog.Yields (searchers asked) (Finding documents asked)
      (advanceSort services document active) (Searching services documents asked Has) := by
  refine .bind (sortCurrent_finds _ _) fun current _ => ?_
  split
  · refine .bind (Q := fun _ => True) ?_ fun permit _ => ?_
    · unfold acquirePermit
      split
      · exact .pure trivial
      · exact ask_finds _
    · split
      · unfold runSort
        split
        · exact stepSort_finds h _ _
        · refine .bind (openSort_finds h _) ?_
          rintro ⟨session, document'⟩ h'
          dsimp only
          split
          · exact endSort_finds (h'.of_same rfl rfl rfl)
          · exact stepSort_finds h' _ _
      · exact .pure h
  · exact endSort_finds (h.of_same rfl rfl rfl)

/-! ### Scanning -/

theorem scanOnce_finds (h : Searching services documents asked Has document) :
    Prog.Yields (searchers asked) (Finding documents asked) (scanOnce services document)
      fun r => Searching services documents asked Has r.2 := by
  refine .bind (onEngine_finds h fun c _ w hengine => .scan hengine c.entry c.step w) ?_
  rintro ⟨step, document'⟩ ⟨h', -⟩
  have hnext : ∀ scanComplete unreportedBytes, Searching services documents asked Has
      { document' with scanComplete := scanComplete, unreportedBytes := unreportedBytes } :=
    fun _ _ => h'.of_same rfl rfl rfl
  dsimp only
  split
  · exact .pure h'
  · exact failDocument_finds (hnext true document'.unreportedBytes) _
  · split
    · exact .bind (emitActive_finds (hnext true 0) _ _) fun sent _ => .pure (hnext true 0)
    · split
      · exact .bind (emitActive_finds (hnext document'.scanComplete 0) _ _) fun sent _ =>
          .pure (hnext document'.scanComplete 0)
      · exact .pure (hnext document'.scanComplete _)
    · exact .pure (hnext document'.scanComplete _)

/-! ### Passes -/

theorem takeSignals_finds : Prog.Yields (searchers asked) (Finding documents asked)
    (takeSignals : WorkerM W Unit) fun _ => True := by
  unfold takeSignals store
  exact onShared_finds (fun _ => rfl) (fun _ => .inl rfl) fun _ _ => trivial

/-- What holds of the document where a pass ends. -/
def KeptWith (P : ActiveDocument W X Q Z → Prop) : Next (Option (ActiveDocument W X Q Z)) → Prop
  | .again active | .sleep active => ∀ document, active = some document → P document
  | .stop => True

theorem goOn_finds {r : Bool × ActiveDocument W X Q Z}
    (h : Searching services documents asked Has r.2) :
    KeptWith (Searching services documents asked Has) (goOn r) := by
  unfold goOn
  split
  · intro document heq
    cases heq
    exact h
  · trivial

theorem serve_finds {active : Option (ActiveDocument W X Q Z)}
    (h : ∀ document, active = some document → Searching services documents asked Has document)
    {f : ActiveDocument W X Q Z → WorkerM W (Bool × ActiveDocument W X Q Z)}
    (hf : ∀ document, Searching services documents asked Has document →
      Prog.Yields (searchers asked) (Finding documents asked) (f document) fun r =>
        Searching services documents asked Has r.2) :
    Prog.Yields (searchers asked) (Finding documents asked) (serve active f)
      (KeptWith (Searching services documents asked Has)) := by
  cases active with
  | none => exact .pure h
  | some document => exact .bind (hf document (h document rfl)) fun r hr => .pure (goOn_finds hr)

/-! ### Queries -/

theorem queryCurrent_finds (document : ActiveDocument W X Q Z) (documentSerial querySerial : Nat) :
    Prog.Yields (searchers asked) (Finding documents asked)
      (queryCurrent document documentSerial querySerial) fun _ => True := by
  refine .bind (load_finds _) fun latest _ => ?_
  split
  · exact .bind (load_finds _) fun _ _ => .pure trivial
  · exact .pure trivial

/-- The engine plans a query of just the document, in its format. -/
theorem queryPlan_reads (hopens : Opens services documents) {path : String}
    {engine : DocumentEngine W X} (h : EngineOf services path engine) {w : W}
    {plan : DocumentQueryPlan W} (hplan : (DocumentEngine.queryPlan (engine, w)).1 = .ok plan)
    {format : DocumentFormat} {bytes : List Byte}
    (hdocument : documents path = some (format, bytes)) :
    plan.format = format.viewportFormat ∧ plan.source.source.Reads bytes ∧
      plan.source.sourceSnapshot.size = bytes.length := by
  obtain ⟨hreads, hsize, scan, hcontent, -⟩ := h.onDocument hopens format bytes hdocument
  unfold DocumentEngine.queryPlan at hplan
  rw [Exec.run_get_bind] at hplan
  dsimp only at hplan
  rw [hcontent] at hplan
  dsimp only at hplan
  have hplanned : Exec.Ensures (do
      DocumentEngine.verifySource true
      Exec.inner fun w =>
        ((engine.file.cloneForQuery w).1.mapError fun failure => .io failure.1 failure.2,
          (engine.file.cloneForQuery w).2)
      DocumentEngine.verifySource true
      pure ⟨⟨engine.file.handle, engine.sourceSnapshot, engine.file.windows.isSome⟩,
        format.viewportFormat⟩ : EngineM W X (DocumentQueryPlan W))
      fun plan => plan.format = format.viewportFormat ∧ plan.source.source.Reads bytes ∧
        plan.source.sourceSnapshot.size = bytes.length :=
    .bind .trivial fun _ _ => .bind .trivial fun _ _ => .bind .trivial fun _ _ =>
      .pure ⟨rfl, hreads, hsize⟩
  exact hplanned _ _ hplan

variable (hsearches : Searches services.query Has)
include hsearches

/-- The answer of the session, with the source as it was or not. -/
theorem judgeQuery_finds (path : String) {query : ActiveQuery Q} {search : Search}
    (hasked : asked search) (hserial : search.serial = query.state.querySerial)
    {outcome : Except String QueryStepStatus} {target : Nat}
    (h : ∀ format bytes, documents path = some (format, bytes) →
      ShowsHits (search.hits format bytes) query.state ∧
        (∀ status, outcome = .ok status → Finds Has (search.hits format bytes) query ∧
          ∃ session, query.session = some session ∧ services.query.status session = status) ∧
        target = (query.state.activeHitIndex.map (· + 1)).getD 0) (before : Nat)
    (valid : Except DocumentEngineError Unit) :
    Prog.Yields (searchers asked) (Finding documents asked)
      (judgeQuery services query target before outcome valid) fun r =>
        QueryFinds documents asked Has path r.2 := by
  unfold judgeQuery
  split
  · exact .bind (storeActiveSerial_finds _) fun _ _ =>
      .pure ⟨search, hasked, hserial, fun format bytes hdocument =>
        fail_finds (h format bytes hdocument).1 _⟩
  · refine onWorld_finds fun _ w => ⟨search, hasked, hserial.trans
      (advanced_serial services.query query target before outcome w).symm,
      fun format bytes hdocument => ?_⟩
    obtain ⟨hshows, hok, htarget⟩ := h format bytes hdocument
    exact advanced_finds hsearches hshows hok htarget before w

theorem stepQuery_finds (h : Searching services documents asked Has document)
    {query : ActiveQuery Q} (hquery : document.query = some query) {target : Nat}
    (htarget : query.demandHit = some target) {session : Q}
    (hsession : query.session = some session) :
    Prog.Yields (searchers asked) (Finding documents asked)
      (stepQuery services document query target session) fun r =>
        Searching services documents asked Has r.2 := by
  obtain ⟨search, hasked, hserial, hfinds⟩ := h.query query hquery
  refine .bind (Q := fun r => ∃ polls w,
    r = ((services.query.advance session queryReadBytes polls w).1,
      (services.query.advance session queryReadBytes polls w).2.1))
    (onWorld_finds fun c w => ⟨c.query, w, rfl⟩) ?_
  rintro - ⟨polls, w, rfl⟩
  refine .bind (validateSource_finds h) ?_
  rintro ⟨valid, document'⟩ ⟨h', hpath⟩
  have hsame : search.serial = (query.withSession
      (services.query.advance session queryReadBytes polls w).2.1).state.querySerial := hserial
  refine .bind (judgeQuery_finds hsearches document.path hasked hsame
    (fun format bytes hdocument => ?_) _ valid) ?_
  · have hnow := hfinds format bytes hdocument
    refine ⟨hnow.shows, fun status hok => ?_, hnow.demand target htarget⟩
    obtain ⟨stored, hhas, hle⟩ := hnow.session session hsession
    obtain ⟨hstatus, more, hnext⟩ := hsearches.advance hhas queryReadBytes polls w status hok
    refine ⟨⟨hnow.shows, fun session' hsome => ?_, hnow.demand⟩, _, rfl, hstatus⟩
    cases hsome
    exact ⟨_, hnext, hle.trans (by rw [List.length_append]; exact Nat.le_add_right _ _)⟩
  · rintro ⟨reported, next⟩ hnext
    have hdone := h'.withQuery (hpath ▸ hnext)
    dsimp only
    split
    · exact .bind (emitActive_finds hdone _ _) fun sent _ => .pure hdone
    · exact .pure hdone

theorem advanceQueryOnce_finds (h : Searching services documents asked Has document) :
    Prog.Yields (searchers asked) (Finding documents asked) (advanceQueryOnce services document)
      fun r => Searching services documents asked Has r.2 := by
  unfold advanceQueryOnce
  split
  · exact .pure h
  · rename_i query hquery
    split
    · rename_i target session htarget hsession
      exact stepQuery_finds hsearches h hquery htarget hsession
    · exact .pure h

theorem advance_finds (h : Searching services documents asked Has document) :
    Prog.Yields (searchers asked) (Finding documents asked) (advance services document)
      (KeptWith (Searching services documents asked Has)) := by
  refine Prog.Yields.bind (Q := Searching services documents asked Has) ?_ fun document h => ?_
  · unfold continueSort
    split
    · exact advanceSort_finds h _
    · exact .pure h
  · split
    · exact .bind (advanceQueryOnce_finds hsearches h) fun r hr => .pure (goOn_finds hr)
    · split
      · refine .pure ?_
        split <;>
        · intro document heq
          cases heq
          exact h
      · exact .bind (scanOnce_finds h) fun r hr => .pure (goOn_finds hr)

variable (hopens : Opens services documents)
include hopens

theorem startSession_finds (h : Searching services documents asked Has document)
    (needle : List Byte) (mode : LiteralMatchMode) :
    Prog.Yields (searchers asked) (Finding documents asked)
      (startSession services document needle mode) fun r =>
        Searching services documents asked Has r.2 ∧ ∀ session, r.1 = .ok session →
          ∀ format bytes, documents r.2.path = some (format, bytes) →
            ∃ stored, Has (hitsOf needle mode format.viewportFormat bytes) stored session := by
  refine .bind (Q := fun r => ∃ w, r = ((DocumentEngine.queryPlan (document.engine, w)).1,
    { document with engine := (DocumentEngine.queryPlan (document.engine, w)).2.1 }))
    (onWorld_finds fun c w => ⟨w, rfl⟩) ?_
  rintro - ⟨w, rfl⟩
  have hnext := h.withEngine (.query h.engine w)
  dsimp only
  split
  · exact .pure ⟨hnext, fun session h => by cases h⟩
  · rename_i plan hplan
    refine .bind (Q := fun r => ∀ session, r = .ok session → ∀ format bytes,
      documents document.path = some (format, bytes) →
        ∃ stored, Has (hitsOf needle mode format.viewportFormat bytes) stored session)
      (onWorld_finds fun c w' session hstart format bytes hdocument => ?_)
      fun session hsession => .pure ⟨hnext, hsession⟩
    obtain ⟨hformat, hreads, hsize⟩ := queryPlan_reads hopens h.engine hplan hdocument
    rw [← hformat]
    exact hsearches.start hreads hsize hstart

theorem applyQueryCommand_finds (h : Searching services documents asked Has document)
    {command : QueryCommand} (hcommand : ∀ documentSerial querySerial needle mode generation,
      command = .start documentSerial querySerial needle mode generation →
        asked ⟨querySerial, needle, mode⟩) :
    Prog.Yields (searchers asked) (Finding documents asked)
      (applyQueryCommand services document command) fun r =>
        Searching services documents asked Has r.2 := by
  cases command with
  | start documentSerial querySerial needle mode generation =>
    have hasked := hcommand _ _ _ _ _ rfl
    refine .bind (queryCurrent_finds document _ _) fun current _ => ?_
    split
    · refine .bind (startSession_finds hsearches hopens h.withoutQuery needle mode) ?_
      rintro ⟨session, document'⟩ ⟨h', hsession⟩
      cases session with
      | error error =>
        have hquery : QueryFinds documents asked Has document'.path (ActiveQuery.failed querySerial
            generation (document'.engine.progress services.xlsx).sourceBytes
            ("Search could not start: " ++ error)) :=
          ⟨_, hasked, rfl, fun _ _ _ => failed_finds _ _ _ _⟩
        exact .bind (emitActive_finds (h'.withQuery hquery) _ _) fun sent _ =>
          .pure (h'.withQuery hquery)
      | ok session =>
        have hquery : QueryFinds documents asked Has document'.path
            (ActiveQuery.started services.query querySerial generation session) := by
          refine ⟨_, hasked, rfl, fun format bytes hdocument => ?_⟩
          obtain ⟨stored, hhas⟩ := hsession session rfl format bytes hdocument
          exact started_finds hsearches querySerial generation hhas
        exact .bind (emitActive_finds (h'.withQuery hquery) _ _) fun sent _ =>
          .pure (h'.withQuery hquery)
    · exact .pure h
  | navigate documentSerial querySerial direction generation =>
    refine .bind (queryCurrent_finds document _ _) fun current _ => ?_
    split
    · split
      · exact .pure h
      · rename_i query hquery
        obtain ⟨search, hasked, hserial, hfinds⟩ :=
          h.query query (Option.filter_eq_some_iff.mp hquery).1
        refine .bind (Q := fun query => QueryFinds documents asked Has document.path query)
          (onWorld_finds fun _ w => ?_) fun query hquery =>
            .bind (emitActive_finds (h.withQuery hquery) _ _) fun sent _ =>
              .pure (h.withQuery hquery)
        refine ⟨search, hasked, hserial.trans
          (navigate_serial services.query query direction generation w).symm,
          fun format bytes hdocument => ?_⟩
        exact navigate_finds hsearches (hfinds format bytes hdocument) direction generation w
    · exact .pure h

/-! ### The pass -/

theorem servePass_finds {active : Option (ActiveDocument W X Q Z)}
    (h : ∀ document, active = some document → Searching services documents asked Has document) :
    Prog.Yields (searchers asked) (Finding documents asked) (servePass services active)
      (KeptWith (Searching services documents asked Has)) := by
  refine .bind takeSignals_finds fun _ _ => ?_
  refine .bind (Q := fun _ => True) (onShared_finds (fun _ => rfl) (fun _ => .inl rfl)
    fun _ _ => trivial) fun opened _ => ?_
  cases opened with
  | some command =>
    refine .bind (Q := fun r => ∀ document, r.2 = some document →
      Searching services documents asked Has document) (replaceDocument_finds command)
      fun r hr => .pure ?_
    obtain ⟨sent, active⟩ := r
    cases sent with
    | true => exact hr
    | false => trivial
  | none =>
  refine .bind (Q := fun _ => True) (onShared_finds (fun _ => rfl) (fun _ => .inl rfl)
    fun _ _ => trivial) fun viewport _ => ?_
  cases viewport with
  | some request =>
    exact serve_finds h fun document hd => applyViewportRequest_finds hd request
  | none =>
  refine .bind (Q := fun command => ∀ documentSerial querySerial needle mode generation,
    command = some (.start documentSerial querySerial needle mode generation) →
      asked ⟨querySerial, needle, mode⟩)
    (onShared_finds (fun _ => rfl) (fun _ => .inr rfl) fun _ hs => hs.command) fun query hquery =>
      ?_
  cases query with
  | some command =>
    exact serve_finds h fun document hd => applyQueryCommand_finds hsearches hopens hd
      fun _ _ _ _ _ heq => hquery _ _ _ _ _ (congrArg some heq)
  | none =>
  refine .bind (Q := fun _ => True) (onShared_finds (fun _ => rfl) (fun _ => .inl rfl)
    fun _ _ => trivial) fun sort _ => ?_
  cases sort with
  | some command =>
    exact serve_finds h fun document hd =>
      .bind (startSort_finds hd command) fun document hd => .pure hd
  | none =>
    cases active with
    | none => exact .pure h
    | some document => exact advance_finds hsearches (h document rfl)

end Documents

/-! ## Runs -/

variable (asked) in
/-- What holds of the events, the commands and the document in every state of a run. -/
def foundInvariant (hopens : Opens services documents) (hsearches : Searches services.query Has) :
    Server.Invariant (runWorker services) (searchers asked) (Finding documents asked) where
  asleep active s := Finding documents asked s ∧
    ∀ document, active = some document → Searching services documents asked Has document
  awake active s := Finding documents asked s ∧
    ∀ document, active = some document → Searching services documents asked Has document
  stable := finding_stable
  asleep_stable _ := finding_stable.and (.const _)
  asleep_in _ _ h := h.1
  awake_stable _ := finding_stable.and (.const _)
  awake_in _ _ h := h.1
  wakes active s s' h hwake := by
    unfold runWorker at hwake
    dsimp only at hwake
    split at hwake
    · cases hwake
      exact ⟨h.1.of_same (.inl rfl) (.inl rfl) (.inl rfl), h.2⟩
    · split at hwake <;> cases hwake
  leaves active s s' h hwake := by
    unfold runWorker at hwake
    dsimp only at hwake
    split at hwake
    · cases hwake
    · split at hwake
      · cases hwake
        exact h.1
      · cases hwake
  pass active := by
    have hpass : Prog.Safe (searchers asked) (Finding documents asked) (servePass services active)
        (fun s => (∀ document, active = some document →
          Searching services documents asked Has document) ∧ Finding documents asked s)
        fun next s => Finding documents asked s ∧
          KeptWith (Searching services documents asked Has) next :=
      .of_pre fun h => servePass_finds hsearches hopens h
    refine (hpass.pre_mono fun s h => ⟨h.2, h.1⟩).post_mono fun next s h => ?_
    cases next with
    | again active => exact h
    | sleep active => exact h
    | stop => exact h.1

/-- In every run over files that stay as they are, with sessions that keep to what the worker
relies on: what an event tells of a search is true of the hits of the document at its path, for
what was searched for under the serial of the search. -/
theorem event_shows_hits (hopens : Opens services documents)
    (hsearches : Searches services.query Has) {world : W}
    {config : Config (System W) Choice (Option (ActiveDocument W X Q Z))}
    (h : Server.Reaches (runWorker services) (searchers asked) ⟨.new world, .asleep none⟩ config)
    {event : WorkerEvent} (hevent : config.state.shared.events.pending = some event ∨
      config.state.ui.event = some event) : EventFinds documents asked event := by
  have hstart : (foundInvariant asked hopens hsearches).At
      ⟨.new world, .asleep none⟩ := by
    refine .asleep ⟨⟨fun event hnone => ?_, fun event hnone => ?_, ?_⟩, fun document hnone => ?_⟩
    · cases hnone
    · cases hnone
    · intro documentSerial querySerial needle mode generation hnone
      cases hnone
    · cases hnone
  have hat := hstart.reaches h
  rcases hevent with hposted | htaken
  · exact hat.in.posted event hposted
  · exact hat.in.taken event htaken

end Found

/-- Fewer searches than there are serials have one each. -/
theorem searches_unique {W X Q Z : Type} {services : Services W X Q Z} {world : W}
    {moves : List (Server.Move UiMove Choice)}
    (hfew : (searches services world moves).length < u64Bound) {search search' : Search}
    (h : search ∈ searches services world moves) (h' : search' ∈ searches services world moves)
    (hserial : search.serial = search'.serial) : search = search' := by
  obtain ⟨i, hi, rfl⟩ := List.getElem_of_mem h
  obtain ⟨j, hj, rfl⟩ := List.getElem_of_mem h'
  have hat : ∀ k (hk : k < (searches services world moves).length),
      (searches services world moves)[k].serial = querySerialAt k := by
    intro k hk
    have hsame := congrArg (fun serials => serials[k]?) (searches_serial services world moves)
    simpa [List.getElem?_map, hk] using hsame
  rw [hat i hi, hat j hj] at hserial
  have hij := querySerialAt_inj (by omega) (by omega) hserial
  subst hij
  rfl

/-- In every run over files that stay as they are, whatever the tokens answer, the disks fail and
the user asks for in between: what an event tells of a search is true of the hits of the document
at its path, for a needle that the run has searched for under the serial of the search. The
serials of the searches go round, so that is the only one as long as there are serials left. -/
theorem event_shows_the_matches {W X Z : Type} {services : Services W X (FileQuery W) Z}
    {scratch : QueryScratch W} {describe : QueryError → String}
    (hquery : services.query = queryService scratch describe)
    {documents : String → Option (DocumentFormat × List Byte)}
    (hopens : Opens services documents) {world : W} {moves : List (Server.Move UiMove Choice)}
    {config : Config (System W) Choice (Option (ActiveDocument W X (FileQuery W) Z))}
    (hrun : (runWorker services).run callers moves ⟨.new world, .asleep none⟩ = config)
    {event : WorkerEvent} (hevent : config.state.shared.events.pending = some event ∨
      config.state.ui.event = some event) {query : WorkerQueryState}
    (hstate : event.query = some query) :
    ∃ search ∈ searches services world moves, search.serial = query.querySerial ∧
      (∀ format document, documents event.path = some (format, document) →
        ShowsHits (hitsOf search.needle search.mode format.viewportFormat document) query) ∧
      ((searches services world moves).length < u64Bound →
        ∀ other ∈ searches services world moves, other.serial = query.querySerial →
          other = search) := by
  subst hrun
  have hreaches : Server.Reaches (runWorker services)
      (searchers fun search => search ∈ searches services world moves)
      ⟨.new world, .asleep none⟩
      ((runWorker services).run callers moves ⟨.new world, .asleep none⟩) :=
    Server.reaches_showing moves .refl (callers_allow moves _) fun search h => h
  obtain ⟨search, hasked, hserial, hshows⟩ :=
    event_shows_hits hopens (hquery ▸ queryService_searches scratch describe) hreaches hevent query
      hstate
  exact ⟨search, hasked, hserial, hshows, fun hfew other hother hsame =>
    searches_unique hfew hother hasked (hsame.trans hserial.symm)⟩

section TwoLines

/-- The second line of two is searched for. -/
def searchedService : Services Nat Empty (FileQuery Nat) Unit :=
  { twoLines with
    query := queryService
      ⟨fun w => (none, w), fun _ => List.replicate 16 0, fun _ => List.length_replicate,
        ⟨fun w => (none, w)⟩, ⟨fun w => (none, w), .os 38⟩, 64 * 1024 * 1024⟩
      fun _ => "failed" }

def searchingMoves : List (Server.Move UiMove Choice) :=
  madeAndServed (.submitPathSheet "two.log" none) ++ madeAndServed (.startQuery 1 [98] true)

def searchedTwoLines : Config (System Nat) Choice
    (Option (ActiveDocument Nat Empty (FileQuery Nat) Unit)) :=
  (runWorker searchedService).run callers searchingMoves ⟨.new 0, .asleep none⟩

/-- The event behind the search shows the second line as the first match. -/
theorem event_shows_the_matches_twoLines : ∃ event query,
    searchedTwoLines.state.shared.events.pending = some event ∧ event.query = some query ∧
      query.activeRow = some 1 ∧ query.querySerial = 1 ∧
      ShowsHits (hitsOf [98] .exact DocumentFormat.log.viewportFormat [97, lf, 98, lf]) query := by
  have hsome : (searchedTwoLines.state.shared.events.pending.any fun event =>
      event.query.any fun query => decide (query.activeRow = some 1)) = true := by decide +kernel
  obtain ⟨event, hevent, hquery⟩ := (Option.any_eq_true _ _).mp hsome
  obtain ⟨query, hstate, hrow⟩ := (Option.any_eq_true _ _).mp hquery
  have hopens : Opens searchedService fun _ => some (.log, [97, lf, 98, lf]) := twoLines_opens
  have hasked : searches searchedService 0 searchingMoves = [⟨1, [98], .exact⟩] := by
    decide +kernel
  have hrun : (runWorker searchedService).run callers searchingMoves ⟨.new 0, .asleep none⟩ =
      searchedTwoLines := by
    rw [searchedTwoLines]
  obtain ⟨search, hmem, hserial, hshows, -⟩ :=
    event_shows_the_matches rfl hopens hrun (.inl hevent) hstate
  rw [hasked, List.mem_singleton] at hmem
  subst hmem
  exact ⟨event, query, hevent, hstate, of_decide_eq_true hrow, hserial.symm, hshows _ _ rfl⟩

end TwoLines

end LeanRows.Worker
