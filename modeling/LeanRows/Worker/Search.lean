import LeanRows.Engine.QuerySource
import LeanRows.Lib.ExecState
import LeanRows.Query.Pages
import LeanRows.Worker.Shown
import LeanRows.Worker.Contents

/-!
# Searching a file

The sessions that the worker searches with: each has a source and a scratch file of its own.
`Searches` says what the worker relies on. A session stores the hits of the document from the
first one on, says how many it has, and reads them back as they are.
-/

namespace LeanRows

set_option autoImplicit false

/-! ## Sessions of a file -/

namespace QuerySession

variable {W : Type} {format : ViewportFormat}

/-- The previous valid hit index, or the last hit for `none`. -/
def previousHitIndex (session : QuerySession format) : Option Nat → Option Nat
  | some 0 => none
  | some (index + 1) =>
    if index + 1 ≤ session.scratch.entries then some index
    else if session.scratch.entries = 0 then none else some (session.scratch.entries - 1)
  | none => if session.scratch.entries = 0 then none else some (session.scratch.entries - 1)

end QuerySession

namespace Worker

/-- Where the scratch files of queries are. Creating one may fail, and each gets a token of its
own. -/
structure QueryScratch (W : Type) where
  create : W → Option QueryError × W
  owner : W → List Byte
  owner_length : ∀ w, (owner w).length = 16
  medium : ScratchMedium W
  reader : ScratchReader W
  quotaBytes : Nat

/-- A session with the source that it owns. -/
structure FileQuery (W : Type) where
  source : DocumentQuerySource W
  cells : QuerySourceCells
  format : ViewportFormat
  session : QuerySession format

def queryCancellationCheckBytes : Nat := 16 * 1024

def queryPageHits : Nat := 256

section Service
variable {W : Type} (scratch : QueryScratch W) (describe : QueryError → String)

/-- A new session reads the size of its source, with the cells of the source as they are made. -/
def newSession (source : DocumentQuerySource W) (format : ViewportFormat) (literal : Literal)
    (config : QuerySessionConfig) (owner : List Byte) :
    Exec W QueryError (QuerySession format × QuerySourceCells) := fun w =>
  let r := QuerySession.new source.positionedRead format literal config owner (.new, w)
  (r.1.map fun session => (session, r.2.1), r.2.2)

def startFileQuery (source : DocumentQuerySource W) (format : ViewportFormat)
    (needle : List Byte) (mode : LiteralMatchMode) : Exec W QueryError (FileQuery W) := do
  let config ← Exec.ofExcept (QuerySessionConfig.new queryReadBytes queryCancellationCheckBytes
    queryPageHits scratch.quotaBytes)
  if hneedle : needle = [] then Exec.throw .emptyNeedle
  else do
    let owner ← fun w => (.ok (scratch.owner w), w)
    let (session, cells) ← newSession source format ⟨needle, mode, hneedle⟩ config owner
    let failure ← fun w => (.ok (scratch.create w).1, (scratch.create w).2)
    match failure with
    | some error => Exec.throw error
    | none => pure ⟨source, cells, format, session⟩

/-- The query and the world behind a call of the session. -/
def FileQuery.behind (query : FileQuery W)
    (p : QuerySession query.format × QuerySourceCells × W) : FileQuery W × W :=
  ({ query with session := p.1, cells := p.2.1 }, p.2.2)

/-- A call of the session, with its error as a text. -/
def FileQuery.call {α : Type} (query : FileQuery W)
    (x : QueryM query.format (QuerySourceCells × W) α) (w : W) :
    Except String α × FileQuery W × W :=
  let r := x (query.session, query.cells, w)
  (r.1.mapError describe, query.behind r.2)

def queryService : QueryService W (FileQuery W) where
  start source format needle mode w :=
    ((startFileQuery scratch source format needle mode w).1.mapError describe,
      (startFileQuery scratch source format needle mode w).2)
  advance query maxWorkBytes polls w := query.call describe
    (QuerySession.advance scratch.medium.beside query.source.positionedRead maxWorkBytes polls) w
  progress query := query.session.progress
  status query := query.session.status
  hitCount query := query.session.scratch.entries
  readHit query index w :=
    query.call describe (QuerySession.readHit scratch.reader.beside index) w
  previousHitIndex query current := query.session.previousHitIndex current

end Service

/-! ## What the worker relies on -/

/-- The hits of a needle in a document; an empty needle is not searched for. -/
def hitsOf (needle : List Byte) (mode : LiteralMatchMode) (format : ViewportFormat)
    (document : List Byte) : List QueryHit :=
  if h : needle = [] then [] else (Literal.mk needle mode h).documentHits document format

/-- `Has all stored session` of a service: of all hits that there are, the session has stored
some. -/
structure Searches {W Q : Type} (service : QueryService W Q)
    (Has : List QueryHit → List QueryHit → Q → Prop) : Prop where
  start : ∀ {source : DocumentQuerySource W} {format needle mode w session document},
    source.source.Reads document → source.sourceSnapshot.size = document.length →
      (service.start source format needle mode w).1 = .ok session →
        ∃ stored, Has (hitsOf needle mode format document) stored session
  isPrefix : ∀ {all stored session}, Has all stored session → stored <+: all
  length_lt : ∀ {all stored session}, Has all stored session → stored.length < u64Bound
  progress : ∀ {all stored session}, Has all stored session →
    (service.progress session).storedHits = stored.length
  hitCount : ∀ {all stored session}, Has all stored session →
    service.hitCount session = stored.length
  complete : ∀ {all stored session}, Has all stored session →
    service.status session = .complete → stored = all
  readHit : ∀ {all stored session}, Has all stored session → ∀ index w,
    Has all stored (service.readHit session index w).2.1 ∧
      ∀ hit, (service.readHit session index w).1 = .ok hit → hit = stored[index]?
  advance : ∀ {all stored session}, Has all stored session → ∀ maxWorkBytes polls w status,
    (service.advance session maxWorkBytes polls w).1 = .ok status →
      service.status (service.advance session maxWorkBytes polls w).2.1 = status ∧
        ∃ more, Has all (stored ++ more) (service.advance session maxWorkBytes polls w).2.1

/-! ## The sessions keep to it -/

section Sessions
variable {W : Type} {format : ViewportFormat} {literal : Literal} {document : List Byte}
  {session : QuerySession format}

theorem good_withPage (h : QuerySession.Good literal document session) (page : HitPageBuffer) :
    QuerySession.Good literal document { session with page := page } := by
  have hsound : QuerySession.Sound literal document session →
      QuerySession.Sound literal document { session with page := page } := by
    rintro ⟨found, extra, htracks, hstores⟩
    exact ⟨found, extra, ⟨htracks.size, htracks.literal_eq, htracks.found⟩, hstores⟩
  unfold QuerySession.Good at h ⊢
  dsimp only
  split at h
  · exact hsound h
  · exact hsound h
  · exact h
  · exact h

/-- What is kept beside the disk is none of a read's business. -/
theorem readHit_beside {S : Type} (reader : ScratchReader W) (store : ScratchHitStore)
    (index : Nat) (p : S × W) : (store.readHit reader.beside index p).2.1 = p.1 := by
  unfold ScratchHitStore.readHit
  split
  · rfl
  split
  · rfl
  have hread : (reader.beside.read p).2.1 = p.1 := rfl
  split
  · rename_i hrun
    rwa [hrun] at hread
  · rename_i hrun
    rw [hrun] at hread
    dsimp only
    split
    · exact hread
    · split <;> exact hread

/-- Reading hits back moves the page and nothing else. -/
theorem readHit_page {S : Type} (reader : ScratchReader W) (index : Nat)
    (session : QuerySession format) (beside : S) (w : W) :
    (∃ page, (QuerySession.readHit reader.beside index (session, beside, w)).2.1 =
        { session with page := page }) ∧
      (QuerySession.readHit reader.beside index (session, beside, w)).2.2.1 = beside := by
  let Moved (p : QuerySession format × S × W) : Prop :=
    (∃ page, p.1 = { session with page := page }) ∧ p.2.1 = beside
  have hmodify : ∀ f : HitPageBuffer → HitPageBuffer, Exec.Preserves Moved
      (Exec.modify fun session => { session with page := f session.page } :
        QueryM format (S × W) Unit) := by
    intro f
    refine .modify ?_
    rintro - w ⟨⟨page, rfl⟩, hbeside⟩
    exact ⟨⟨_, rfl⟩, hbeside⟩
  have hstore : ∀ (store : ScratchHitStore) index, Exec.Preserves Moved
      (Exec.inner (store.readHit reader.beside index) :
        QueryM format (S × W) (Option QueryHit)) :=
    fun store index => .self fun p hp => ⟨hp.1, (readHit_beside reader store index p.2).trans hp.2⟩
  have hloop : ∀ firstHit left relative, Exec.Preserves Moved
      (QuerySession.readHits reader.beside firstHit left relative :
        QueryM format (S × W) Unit) := by
    intro firstHit left
    induction left with
    | zero => exact fun relative => .pure
    | succ left ih =>
      intro relative
      unfold QuerySession.readHits
      split
      · exact .throw
      · refine .bind .get fun next => .bind (hstore _ _) fun hit => ?_
        split
        · exact .throw
        · exact .bind (hmodify fun page => { page with hits := page.hits ++ [_] }) fun _ => ih _
  have hread : Exec.Preserves Moved
      (QuerySession.readHit reader.beside index : QueryM format (S × W) (Option QueryHit)) := by
    unfold QuerySession.readHit QuerySession.readPage
    refine .bind .get fun next => ?_
    split
    · exact .pure
    · split
      · exact .pure
      · exact .bind (.bind (hmodify fun page => { page with firstHit := _, hits := [] }) fun _ =>
          .bind .get fun _ => .bind (hloop _ _ _) fun _ => .bind .get fun _ => .pure) fun _ =>
          .bind .get fun _ => .pure
  exact (hread (session, beside, w) ⟨⟨session.page, rfl⟩, rfl⟩).2

theorem holds_unique {store : ScratchHitStore} {hits hits' : List QueryHit}
    (h : store.Holds hits) (h' : store.Holds hits') : hits = hits' := by
  have hsame := h.storedHits_eq.symm.trans h'.storedHits_eq
  exact List.map_injective_iff.mpr (fun a b hab => Except.ok.inj hab) hsame

/-- The session of a file has stored some of the hits of the document, and its source is on the
document. -/
def HasStored (all stored : List QueryHit) (query : FileQuery W) : Prop :=
  ∃ literal document, query.source.source.Reads document ∧
    query.source.sourceSnapshot.size = document.length ∧ query.cells.readCache.Holds document ∧
    all = Literal.documentHits literal document query.format ∧
    QuerySession.Good literal document query.session ∧
    query.session.Paged queryPageHits stored

variable {all stored : List QueryHit} {query : FileQuery W}

theorem HasStored.isPrefix (h : HasStored all stored query) : stored <+: all := by
  obtain ⟨literal, document, -, -, -, rfl, hgood, hpaged⟩ := h
  obtain ⟨hits, hholds, hprefix⟩ := hgood.storedPrefix
  rwa [holds_unique hpaged.store hholds]

theorem HasStored.length_lt (h : HasStored all stored query) : stored.length < u64Bound := by
  obtain ⟨literal, document, -, -, -, -, -, hpaged⟩ := h
  have hused := hpaged.store.used
  have hbound := hpaged.used_lt
  simp only [ScratchHitStore.hitOffset, queryHitEntryBytes, queryScratchHeaderBytes] at hused
  omega

/-- A new session stands in front of the document, and its source has not read yet. -/
theorem newSession_has {source : DocumentQuerySource W} {document : List Byte}
    (hsource : source.source.Reads document) (hsize : source.sourceSnapshot.size = document.length)
    (format : ViewportFormat) (literal : Literal) (config : QuerySessionConfig) {owner : List Byte}
    (howner : owner.length = 16) :
    (newSession source format literal config owner).Ensures fun r =>
      r.2.readCache.Holds document ∧ QuerySession.Good literal document r.1 ∧
        r.1.Paged config.pageCapacity [] := by
  intro w r hok
  have hstart : DocumentQuerySource.Holds document (.new, w) := DocumentQuerySource.new_holds w
  have hsame : QuerySession.new (source.positionedRead.guarded (DocumentQuerySource.Holds document))
      format literal config owner (.new, w) =
        QuerySession.new source.positionedRead format literal config owner (.new, w) := by
    simp only [QuerySession.new, PositionedRead.capture, PositionedRead.guarded, Bind.bind,
      if_pos hstart]
  unfold newSession at hok
  dsimp only at hok
  rcases hrun : QuerySession.new source.positionedRead format literal config owner (.new, w) with
    ⟨error | session, cells, w'⟩
  · rw [hrun] at hok
    cases hok
  · rw [hrun] at hok
    cases hok
    rw [hrun] at hsame
    refine ⟨?_, (QuerySession.new_good (DocumentQuerySource.guarded_reads hsource hsize) howner
      hsame).1, QuerySession.new_paged _ howner hsame⟩
    have hcache := (source.verifyHandle_spec (.new, w)).1
    obtain ⟨snapshot, mid, hcapture, hsession⟩ := Exec.ok_of_bind hrun
    cases hsession
    have hmid : (source.verifyHandle (.new, w)).2 = (cells, w') := congrArg Prod.snd hcapture
    rw [hmid] at hcache
    exact hcache ▸ hstart

theorem startFileQuery_has {scratch : QueryScratch W} {source : DocumentQuerySource W}
    {document : List Byte} (hsource : source.source.Reads document)
    (hsize : source.sourceSnapshot.size = document.length) (format : ViewportFormat)
    (needle : List Byte) (mode : LiteralMatchMode) :
    (startFileQuery scratch source format needle mode).Ensures
      (HasStored (hitsOf needle mode format document) []) := by
  refine .bind (P := fun config => config.pageCapacity = queryPageHits) (.ofExcept ?_) ?_
  · intro config h
    unfold QuerySessionConfig.new at h
    split_ifs at h
    cases h
    rfl
  · intro config hconfig
    split
    · exact .throw _
    · rename_i hneedle
      refine .bind (P := fun owner : List Byte => owner.length = 16) ?_ fun owner howner => ?_
      · intro w owner h
        cases h
        exact scratch.owner_length w
      · refine .bind (newSession_has hsource hsize format ⟨needle, mode, hneedle⟩ config howner) ?_
        rintro ⟨session, cells⟩ ⟨hholds, hgood, hpaged⟩
        refine .bind .trivial fun failure _ => ?_
        split
        · exact .throw _
        · refine .pure ⟨_, document, hsource, hsize, hholds, ?_, hgood, hconfig ▸ hpaged⟩
          unfold hitsOf
          rw [dif_neg hneedle]

/-- As long as a call comes back, the session meets the document only. -/
theorem FileQuery.advance_has {medium : ScratchMedium W} (h : HasStored all stored query)
    (maxWorkBytes : Nat) (polls : Nat → StepPolls) (w : W) {status : QueryStepStatus}
    {p : QuerySession query.format × QuerySourceCells × W}
    (hrun : QuerySession.advance medium.beside query.source.positionedRead maxWorkBytes polls
      (query.session, query.cells, w) = (.ok status, p)) :
    p.1.status = status ∧ ∃ more, HasStored all (stored ++ more) (query.behind p).1 := by
  obtain ⟨literal, document, hsource, hsize, hholds, rfl, hgood, hpaged⟩ := h
  obtain ⟨hsame, hnext⟩ := (DocumentQuerySource.staysIn hsource medium).framed.advance maxWorkBytes
    polls (query.session, query.cells, w) hholds
  rw [hrun] at hsame hnext
  have hreads := DocumentQuerySource.guarded_reads hsource hsize
  have htraced : QuerySession.Traced
      (query.source.positionedRead.guarded (DocumentQuerySource.Holds document)) medium.beside
      (fun _ => False) fun _ => False :=
    ⟨fun _ => id, fun _ _ _ => id, fun _ => id, fun _ _ => id, fun _ _ _ => id⟩
  have hdone := QuerySession.advance_spec hreads htraced hgood maxWorkBytes polls (query.cells, w)
  have hstart : QuerySession.Grown queryPageHits stored (query.session, query.cells, w) :=
    ⟨[], by rwa [List.append_nil]⟩
  have hcapacity : 0 < queryPageHits := by decide
  have hgrown : QuerySession.Grown queryPageHits stored
      (QuerySession.advance medium.beside query.source.positionedRead maxWorkBytes polls
        (query.session, query.cells, w)).2 :=
    (((QuerySession.grown_framed hcapacity).advance maxWorkBytes polls).agreeOn _ hstart).2
  rw [hrun] at hgrown
  rw [hsame] at hdone
  obtain ⟨more, hmore⟩ := hgrown
  exact ⟨hdone.1, more, literal, document, hsource, hsize, hnext, rfl, hdone.2, hmore⟩

theorem FileQuery.readHit_has {reader : ScratchReader W} (h : HasStored all stored query)
    (index : Nat) (w : W) :
    HasStored all stored (query.behind (QuerySession.readHit reader.beside index
        (query.session, query.cells, w)).2).1 ∧
      ∀ hit, (QuerySession.readHit reader.beside index (query.session, query.cells, w)).1 =
        .ok hit → hit = stored[index]? := by
  obtain ⟨literal, document, hsource, hsize, hholds, rfl, hgood, hpaged⟩ := h
  obtain ⟨hnext, hread⟩ :=
    QuerySession.readHit_run reader.beside hpaged (by decide) index (query.cells, w)
  obtain ⟨⟨page, hpage⟩, hcells⟩ := readHit_page reader index query.session query.cells w
  refine ⟨⟨literal, document, hsource, hsize, ?_, rfl, ?_, hnext⟩, fun hit hok => ?_⟩
  · unfold FileQuery.behind
    dsimp only
    rwa [hcells]
  · unfold FileQuery.behind
    dsimp only
    rw [hpage]
    exact good_withPage hgood page
  · rcases hread with hread | ⟨error, w', -, hread⟩
    · rw [hread] at hok
      exact (Except.ok.inj hok).symm
    · rw [hread] at hok
      cases hok

theorem queryService_searches (scratch : QueryScratch W) (describe : QueryError → String) :
    Searches (queryService scratch describe) HasStored where
  start hsource hsize h := ⟨[], startFileQuery_has hsource hsize _ _ _ _ _ (mapError_ok h)⟩
  isPrefix h := h.isPrefix
  length_lt h := h.length_lt
  progress h := by
    obtain ⟨literal, document, -, -, -, -, -, hpaged⟩ := h
    exact hpaged.store.entries
  hitCount h := by
    obtain ⟨literal, document, -, -, -, -, -, hpaged⟩ := h
    exact hpaged.store.entries
  complete h hstatus := by
    obtain ⟨literal, document, -, -, -, rfl, hgood, hpaged⟩ := h
    have hcomplete : _ = QueryStepStatus.complete := hstatus
    dsimp only [queryService] at hcomplete
    rw [QuerySession.Good, hcomplete] at hgood
    exact holds_unique hpaged.store hgood
  readHit h index w :=
    ⟨(FileQuery.readHit_has h index w).1,
      fun hit hok => (FileQuery.readHit_has h index w).2 hit (mapError_ok hok)⟩
  advance h maxWorkBytes polls w status hok :=
    FileQuery.advance_has h maxWorkBytes polls w (Prod.ext (mapError_ok hok) rfl)

end Sessions

/-! ## The query of a document -/

/-- What a query tells is true of the hits: the active one is that of its number, with its row,
and where the search has come to its end, the last one. -/
structure ShowsHits (all : List QueryHit) (state : WorkerQueryState) : Prop where
  stored : state.storedHits ≤ all.length
  active : ∀ index, state.activeHitIndex = some index → index < state.storedHits ∧
    ∃ hit, all[index]? = some hit ∧ state.activeRow = some hit.row
  inactive : state.activeHitIndex = none → state.activeRow = none
  complete : state.phase = .complete →
    state.message = boundedQueryMessage "No previous match is stored." ∨
      state.storedHits = all.length ∧ (state.activeHitIndex.map (· + 1)).getD 0 = all.length

section Queries
variable {W Q : Type} {service : QueryService W Q} {Has : List QueryHit → List QueryHit → Q → Prop}
  {all : List QueryHit} {query : ActiveQuery Q}

/-- The query and its session are at one. -/
structure Finds (Has : List QueryHit → List QueryHit → Q → Prop) (all : List QueryHit)
    (query : ActiveQuery Q) : Prop where
  shows : ShowsHits all query.state
  session : ∀ session, query.session = some session →
    ∃ stored, Has all stored session ∧ query.state.storedHits ≤ stored.length
  demand : ∀ target, query.demandHit = some target →
    target = (query.state.activeHitIndex.map (· + 1)).getD 0

theorem ShowsHits.ended {state : WorkerQueryState} (h : ShowsHits all state)
    (phase : WorkerQueryPhase) (hphase : phase ≠ .complete) (message : String) :
    ShowsHits all { state with phase := phase, message := message } :=
  ⟨h.stored, h.active, h.inactive, fun hcomplete => absurd hcomplete hphase⟩

/-- A query that has failed keeps what it has shown. -/
theorem fail_finds (h : ShowsHits all query.state) (message : String) :
    Finds Has all (query.fail message) where
  shows := h.ended _ (by decide) _
  session _ h := by cases h
  demand _ h := by cases h

theorem failed_finds (querySerial generation sourceBytes : Nat) (message : String) :
    Finds Has all (ActiveQuery.failed querySerial generation sourceBytes message : ActiveQuery Q)
    where
  shows := ⟨Nat.zero_le _, fun _ h => (by cases h), fun _ => rfl, fun h => (by cases h)⟩
  session _ h := by cases h
  demand _ h := by cases h

/-- The search has come to its end, and the hit in demand is not there. -/
theorem setComplete_finds {target : Nat} (h : Finds Has all query)
    (hstored : query.state.storedHits = all.length) (htarget : all.length ≤ target)
    (hdemand : target = (query.state.activeHitIndex.map (· + 1)).getD 0) :
    Finds Has all query.setComplete where
  shows := by
    refine ⟨h.shows.stored, h.shows.active, h.shows.inactive, fun _ => .inr ⟨hstored, ?_⟩⟩
    show (query.state.activeHitIndex.map (· + 1)).getD 0 = all.length
    cases hactive : query.state.activeHitIndex with
    | none =>
      rw [hactive] at hdemand
      simp only [Option.map_none, Option.getD_none] at hdemand ⊢
      omega
    | some index =>
      have hlt := (h.shows.active index hactive).1
      rw [hactive] at hdemand
      simp only [Option.map_some, Option.getD_some] at hdemand ⊢
      omega
  session := h.session
  demand _ h := by cases h

theorem setQuotaExceeded_finds (h : Finds Has all query) (details : QueryQuotaExceeded) :
    Finds Has all (query.setQuotaExceeded details) where
  shows := h.shows.ended _ (by decide) _
  session := h.session
  demand _ h := by cases h

/-! ### The serial stays -/

theorem updateProgress_serial (service : QueryService W Q) (query : ActiveQuery Q) :
    (query.updateProgress service).state.querySerial = query.state.querySerial := by
  unfold ActiveQuery.updateProgress
  split <;> rfl

theorem activateHit_serial (service : QueryService W Q) (query : ActiveQuery Q) (index : Nat)
    (w : W) :
    (query.activateHit service index w).2.1.state.querySerial = query.state.querySerial := by
  unfold ActiveQuery.activateHit
  split
  · rfl
  · split
    · rfl
    · rfl
    · exact updateProgress_serial service _

theorem previous_serial (service : QueryService W Q) (query : ActiveQuery Q) (w : W) :
    (query.navigateToPreviousHit service w).2.1.state.querySerial = query.state.querySerial := by
  unfold ActiveQuery.navigateToPreviousHit
  split
  · rfl
  · dsimp only
    split
    · rw [activateHit_serial, updateProgress_serial]
    · split <;> exact updateProgress_serial service query

theorem next_serial (service : QueryService W Q) (query : ActiveQuery Q) (w : W) :
    (query.navigateToNextHit service w).2.1.state.querySerial = query.state.querySerial := by
  unfold ActiveQuery.navigateToNextHit
  split
  · rfl
  · dsimp only
    split
    · rw [activateHit_serial, updateProgress_serial]
    · split <;> exact updateProgress_serial service query

theorem navigate_serial (service : QueryService W Q) (query : ActiveQuery Q)
    (direction : QueryDirection) (generation : CancellationGeneration) (w : W) :
    (query.navigate service direction generation w).1.state.querySerial =
      query.state.querySerial := by
  have hprevious := previous_serial service
    { query with generation := generation, demandHit := none, unreportedBytes := 0 } w
  have hnext := next_serial service
    { query with generation := generation, demandHit := none, unreportedBytes := 0 } w
  unfold ActiveQuery.navigate
  cases direction with
  | previous =>
    dsimp only
    split
    · rename_i hrun
      rwa [hrun] at hprevious
    · rename_i hrun
      rwa [hrun] at hprevious
  | next =>
    dsimp only
    split
    · rename_i hrun
      rwa [hrun] at hnext
    · rename_i hrun
      rwa [hrun] at hnext

theorem advanced_serial (service : QueryService W Q) (query : ActiveQuery Q) (target before : Nat)
    (outcome : Except String QueryStepStatus) (w : W) :
    (query.advanced service target before outcome w).2.1.state.querySerial =
      query.state.querySerial := by
  have hsame := updateProgress_serial service query
  unfold ActiveQuery.advanced
  split
  · rfl
  · dsimp only
    split
    · have hactive := activateHit_serial service { query.updateProgress service with
        unreportedBytes := saturatingAdd (query.updateProgress service).unreportedBytes
          ((query.updateProgress service).state.scannedBytes - before) } target w
      split
      · rename_i hrun
        rw [hrun] at hactive
        exact hactive.trans hsame
      · rename_i hrun
        rw [hrun] at hactive
        exact hactive.trans hsame
    · split
      · split <;> exact hsame
      · exact hsame
      · exact hsame
      · exact hsame

/-! ### Calls of the session -/

variable (hservice : Searches service Has)
include hservice

theorem started_finds (querySerial generation : Nat) {session : Q} {stored : List QueryHit}
    (h : Has all stored session) :
    Finds Has all (ActiveQuery.started service querySerial generation session) where
  shows := by
    refine ⟨?_, fun _ h => (by cases h), fun _ => rfl, fun h => (by cases h)⟩
    exact (hservice.progress h).le.trans (hservice.isPrefix h).length_le
  session session' hsession := by
    cases hsession
    exact ⟨stored, h, (hservice.progress h).le⟩
  demand target htarget := by
    cases htarget
    rfl

/-- The numbers are brought up to date; hits only come in addition. -/
theorem updateProgress_finds (h : Finds Has all query) :
    Finds Has all (query.updateProgress service) ∧
      ∀ session stored, query.session = some session → Has all stored session →
        (query.updateProgress service).state.storedHits = stored.length := by
  unfold ActiveQuery.updateProgress
  cases hsession : query.session with
  | none => exact ⟨h, fun _ _ hsome => by cases hsome⟩
  | some session =>
    obtain ⟨stored, hhas, hle⟩ := h.session session hsession
    have hcount := hservice.progress hhas
    have hlength := (hservice.isPrefix hhas).length_le
    refine ⟨⟨⟨?_, ?_, h.shows.inactive, ?_⟩, ?_, h.demand⟩, ?_⟩
    · exact hcount.le.trans hlength
    · intro index hindex
      obtain ⟨hlt, hhit⟩ := h.shows.active index hindex
      exact ⟨by dsimp only; omega, hhit⟩
    · intro hphase
      refine (h.shows.complete hphase).imp id fun hend => ⟨?_, hend.2⟩
      dsimp only
      omega
    · intro session' hsome
      cases hsome
      exact ⟨stored, hhas, hcount.le⟩
    · intro session' stored' hsome hhas'
      cases hsome
      exact hservice.progress hhas'

/-- A hit that the session has read becomes the active one. -/
theorem activateHit_finds (h : Finds Has all query) (index : Nat) (w : W) :
    ShowsHits all (query.activateHit service index w).2.1.state ∧
      ((query.activateHit service index w).1 = .ok () →
        Finds Has all (query.activateHit service index w).2.1) := by
  unfold ActiveQuery.activateHit
  cases hsession : query.session with
  | none => exact ⟨h.shows, fun hok => by cases hok⟩
  | some session =>
    obtain ⟨stored, hhas, hle⟩ := h.session session hsession
    obtain ⟨hnext, hread⟩ := hservice.readHit hhas index w
    dsimp only
    split
    · exact ⟨h.shows, fun hok => by cases hok⟩
    · exact ⟨h.shows, fun hok => by cases hok⟩
    · rename_i hit next w' hrun
      rw [hrun] at hnext hread
      have hhit : stored[index]? = some hit := (hread _ rfl).symm
      have hlt := (List.getElem?_eq_some_iff.mp hhit).1
      have hcount := hservice.progress hnext
      have hlength := (hservice.isPrefix hnext).length_le
      obtain ⟨rest, hrest⟩ := hservice.isPrefix hnext
      have hall : all[index]? = some hit := by
        rw [← hrest, List.getElem?_append_left hlt]
        exact hhit
      have hshows : ShowsHits all ((query.withSession next).activate service index hit).state := by
        refine ⟨hcount.le.trans hlength, ?_, fun hnone => (by cases hnone),
          fun hphase => (by cases hphase)⟩
        intro index' hindex
        cases hindex
        exact ⟨hlt.trans_eq hcount.symm, hit, hall, rfl⟩
      refine ⟨hshows, fun _ => ⟨hshows, ?_, fun target htarget => by cases htarget⟩⟩
      intro session' hsome
      cases hsome
      exact ⟨stored, hnext, hcount.le⟩

theorem previous_finds (h : Finds Has all query) (w : W) :
    ShowsHits all (query.navigateToPreviousHit service w).2.1.state ∧
      ((query.navigateToPreviousHit service w).1 = .ok () →
        Finds Has all (query.navigateToPreviousHit service w).2.1) := by
  have hupdated := (updateProgress_finds hservice h).1
  unfold ActiveQuery.navigateToPreviousHit
  split
  · exact ⟨h.shows, fun _ => h⟩
  · dsimp only
    split
    · exact activateHit_finds hservice hupdated _ w
    · split
      · have hshows := hupdated.shows.ended .matchReady (by decide)
          (boundedQueryMessage "Already at the first match.")
        exact ⟨hshows, fun _ => ⟨hshows, hupdated.session, hupdated.demand⟩⟩
      · have hshows : ShowsHits all { (query.updateProgress service).state with
            phase := .complete
            message := boundedQueryMessage "No previous match is stored." } :=
          ⟨hupdated.shows.stored, hupdated.shows.active, hupdated.shows.inactive,
            fun _ => .inl rfl⟩
        exact ⟨hshows, fun _ => ⟨hshows, hupdated.session, hupdated.demand⟩⟩

/-- The hit behind the active one can be numbered. -/
theorem target_eq (h : Finds Has all query) {session : Q}
    (hsession : query.session = some session) :
    (query.state.activeHitIndex.bind fun index => checkedAdd index 1).getD 0 =
      (query.state.activeHitIndex.map (· + 1)).getD 0 := by
  obtain ⟨stored, hhas, hle⟩ := h.session session hsession
  have hbound := hservice.length_lt hhas
  cases hactive : query.state.activeHitIndex with
  | none => rfl
  | some index =>
    have hlt := (h.shows.active index hactive).1
    rw [Option.bind_some, checkedAdd_eq_some.mpr ⟨by omega, rfl⟩]
    rfl

theorem next_finds (h : Finds Has all query) (w : W) :
    ShowsHits all (query.navigateToNextHit service w).2.1.state ∧
      ((query.navigateToNextHit service w).1 = .ok () →
        Finds Has all (query.navigateToNextHit service w).2.1) := by
  obtain ⟨hupdated, hcount⟩ := updateProgress_finds hservice h
  unfold ActiveQuery.navigateToNextHit
  cases hsession : query.session with
  | none => exact ⟨h.shows, fun _ => h⟩
  | some session =>
    obtain ⟨stored, hhas, -⟩ := h.session session hsession
    have hsame : (query.updateProgress service).session = some session := by
      unfold ActiveQuery.updateProgress
      rw [hsession]
    have htarget := target_eq hservice hupdated hsame
    have hstored := hcount session stored hsession hhas
    dsimp only
    split
    · exact activateHit_finds hservice hupdated _ w
    · rename_i hlast
      rw [htarget, hservice.hitCount hhas, Nat.not_lt] at hlast
      have hsearching : Finds Has all { query.updateProgress service with
          demandHit := some (((query.updateProgress service).state.activeHitIndex.bind
            fun index => checkedAdd index 1).getD 0)
          state := { (query.updateProgress service).state with
            phase := .searching
            message := boundedQueryMessage "Searching for the next match..." } } := by
        refine ⟨hupdated.shows.ended _ (by decide) _, hupdated.session, fun target hdemand => ?_⟩
        cases hdemand
        exact htarget
      split
      · exact ⟨hsearching.shows, fun _ => hsearching⟩
      · exact ⟨hsearching.shows, fun _ => hsearching⟩
      · rename_i hstatus
        have hall := hservice.complete hhas hstatus
        rw [hall] at hstored hlast
        have hcomplete := setComplete_finds hupdated hstored hlast rfl
        exact ⟨hcomplete.shows, fun _ => hcomplete⟩
      · have hquota := setQuotaExceeded_finds hupdated ‹_›
        exact ⟨hquota.shows, fun _ => hquota⟩

theorem navigate_finds (h : Finds Has all query) (direction : QueryDirection)
    (generation : CancellationGeneration) (w : W) :
    Finds Has all (query.navigate service direction generation w).1 := by
  have hdropped : Finds Has all
      { query with generation := generation, demandHit := none, unreportedBytes := 0 } :=
    ⟨h.shows, h.session, fun _ hdemand => by cases hdemand⟩
  unfold ActiveQuery.navigate
  dsimp only
  cases direction with
  | previous =>
    obtain ⟨hshows, hfinds⟩ := previous_finds hservice hdropped w
    dsimp only
    split
    · rename_i hrun
      rw [hrun] at hfinds
      exact hfinds rfl
    · rename_i hrun
      rw [hrun] at hshows
      exact fail_finds hshows _
  | next =>
    obtain ⟨hshows, hfinds⟩ := next_finds hservice hdropped w
    dsimp only
    split
    · rename_i hrun
      rw [hrun] at hfinds
      exact hfinds rfl
    · rename_i hrun
      rw [hrun] at hshows
      exact fail_finds hshows _

/-- The answer of the session to the demand. -/
theorem advanced_finds {outcome : Except String QueryStepStatus}
    (hshows : ShowsHits all query.state)
    (h : ∀ status, outcome = .ok status → Finds Has all query ∧
      ∃ session, query.session = some session ∧ service.status session = status) {target : Nat}
    (htarget : target = (query.state.activeHitIndex.map (· + 1)).getD 0) (before : Nat) (w : W) :
    Finds Has all (query.advanced service target before outcome w).2.1 := by
  cases outcome with
  | error error => exact fail_finds hshows _
  | ok status =>
    obtain ⟨hfinds, session, hsession, hstatus⟩ := h status rfl
    obtain ⟨stored, hhas, -⟩ := hfinds.session session hsession
    obtain ⟨hupdated, hcount⟩ := updateProgress_finds hservice hfinds
    have hstored := hcount session stored hsession hhas
    have hsame : (query.updateProgress service).state.activeHitIndex =
        query.state.activeHitIndex := by
      unfold ActiveQuery.updateProgress
      split <;> rfl
    have hnow : ∀ unreportedBytes, Finds Has all { query.updateProgress service with
        unreportedBytes := unreportedBytes } :=
      fun _ => ⟨hupdated.shows, hupdated.session, hupdated.demand⟩
    unfold ActiveQuery.advanced
    dsimp only
    split
    · obtain ⟨hshows, hactive⟩ := activateHit_finds hservice (hnow _) target w
      split
      · rename_i hrun
        rw [hrun] at hactive
        exact hactive rfl
      · rename_i hrun
        rw [hrun] at hshows
        exact fail_finds hshows _
    · rename_i hlast
      split
      · split
        · exact hnow 0
        · exact hnow _
      · exact hnow _
      · have hall := hservice.complete hhas hstatus
        refine setComplete_finds (hnow _) (hstored.trans (by rw [hall])) ?_ (htarget.trans ?_)
        · rw [← hall, ← hstored]
          exact Nat.le_of_not_lt hlast
        · rw [← hsame]
      · exact setQuotaExceeded_finds (hnow _) _

end Queries

end Worker

end LeanRows
