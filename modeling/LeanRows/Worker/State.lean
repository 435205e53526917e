import LeanRows.Engine.Document
import LeanRows.Query.Session

/-!
# What the worker and the user interface share

The mailboxes, tokens and serials that both threads touch, and the values that travel
between them: commands one way, events the other.
-/

namespace LeanRows.Worker

set_option autoImplicit false

/-! ## Mailboxes and tokens -/

structure CoalescingMailbox (T : Type) where
  pending : Option T
  closed : Bool

namespace CoalescingMailbox

variable {T : Type}

def new : CoalescingMailbox T := ⟨none, false⟩

/-- The latest value replaces the pending one; a closed mailbox takes nothing. -/
def send (mailbox : CoalescingMailbox T) (value : T) : CoalescingMailbox T :=
  if mailbox.closed then mailbox else { mailbox with pending := some value }

def tryTake (mailbox : CoalescingMailbox T) : CoalescingMailbox T :=
  { mailbox with pending := none }

def close (mailbox : CoalescingMailbox T) : CoalescingMailbox T :=
  { mailbox with closed := true }

@[simp] theorem send_closed (mailbox : CoalescingMailbox T) (value : T) :
    (mailbox.send value).closed = mailbox.closed := by
  unfold send
  split <;> rfl

theorem send_pending {mailbox : CoalescingMailbox T} (h : mailbox.closed = false) (value : T) :
    (mailbox.send value).pending = some value := by
  rw [send, if_neg (by rw [h]; exact Bool.false_ne_true)]

theorem send_pending_cases (mailbox : CoalescingMailbox T) (value : T) :
    (mailbox.send value).pending = some value ∨
      (mailbox.send value).pending = mailbox.pending := by
  unfold send
  split
  · exact .inr rfl
  · exact .inl rfl

end CoalescingMailbox

/-- A token is its generation: `cancel` moves it on, and work of an older one is cancelled. -/
abbrev CancellationToken := Nat

abbrev CancellationGeneration := Nat

/-- The generation that a cancellation moves the token on to. -/
def cancel (token : CancellationToken) : CancellationGeneration := (token + 1) % u64Bound

/-! ## Commands -/

structure OpenCommand where
  path : String
  sheet : Option Nat
  serial : Nat
  generation : CancellationGeneration
deriving DecidableEq

structure ViewportCommand where
  serial : Nat
  firstRow : Nat
  generation : CancellationGeneration
  sourceRow : Bool
deriving DecidableEq

structure SortCommand where
  documentSerial : Nat
  serial : Nat
  request : Option Sort.SortRequest
  generation : CancellationGeneration
deriving DecidableEq

inductive QueryDirection where
  | next
  | previous
deriving DecidableEq

inductive QueryCommand where
  | start (documentSerial querySerial : Nat) (needle : List Byte) (mode : LiteralMatchMode)
      (generation : CancellationGeneration)
  | navigate (documentSerial querySerial : Nat) (direction : QueryDirection)
      (generation : CancellationGeneration)
deriving DecidableEq

/-! ## Events -/

inductive SortPhase where
  | extracting
  | sortingRuns
  | merging
  | buildingInverse
  | complete
  | cancelled
deriving DecidableEq

structure WorkerSortState where
  serial : Nat
  request : Option Sort.SortRequest
  committed : Option Sort.SortRequest
  phase : SortPhase
  scannedBytes : Nat
  sourceBytes : Nat
  error : Option String
deriving DecidableEq

inductive WorkerQueryPhase where
  | searching
  | matchReady
  | complete
  | quotaExceeded
  | failed
deriving DecidableEq

structure WorkerQueryState where
  querySerial : Nat
  phase : WorkerQueryPhase
  scannedBytes : Nat
  sourceBytes : Nat
  storedHits : Nat
  activeHitIndex : Option Nat
  activeRow : Option Nat
  message : String
deriving DecidableEq

def maxQueryMessageBytes : Nat := 256

def WorkerQueryState.isInternallyConsistent (query : WorkerQueryState) : Bool :=
  let activePairMatches := query.activeHitIndex.isSome == query.activeRow.isSome
  let activeHitExists := query.activeHitIndex.all fun index => decide (index < query.storedHits)
  let phaseMatches := match query.phase with
    | .matchReady => query.activeHitIndex.isSome
    | .searching | .complete | .quotaExceeded | .failed => true
  query.querySerial != 0 && decide (query.scannedBytes ≤ query.sourceBytes) &&
    decide (query.message.utf8ByteSize ≤ maxQueryMessageBytes) && activePairMatches &&
    activeHitExists && phaseMatches

structure WorkerProgress where
  scannedBytes : Nat
  sourceBytes : Nat
  indexedRows : Nat
  availableRows : Nat
  complete : Bool
deriving DecidableEq

inductive WorkerPhase where
  | viewportReady
  | scanning
  | complete
  | failed
deriving DecidableEq

inductive WorkerResult where
  | ready (size : Nat)
  | failed (message : String)
deriving DecidableEq

structure WorkerSheets where
  choices : List SheetChoice
  current : Nat
deriving DecidableEq

structure CachedRow where
  displayRank : Nat
  absoluteRow : Nat
  cells : List Utf16Cell
deriving DecidableEq

/-- The rows in the order of their ranks. -/
abbrev ImmutableRowCache := List CachedRow

namespace ImmutableRowCache

def new (rows : List CachedRow) : ImmutableRowCache :=
  rows.mergeSort fun row row' => decide (row.displayRank ≤ row'.displayRank)

def row (cache : ImmutableRowCache) (displayRank : Nat) : Option CachedRow :=
  cache.find? fun row => row.displayRank == displayRank

def cell (cache : ImmutableRowCache) (displayRank subitem : Nat) : Option Utf16Cell :=
  (row cache displayRank).bind fun row => row.cells[subitem]?

def cellCount (cache : ImmutableRowCache) (displayRank : Nat) : Option Nat :=
  (row cache displayRank).map fun row => row.cells.length

end ImmutableRowCache

structure WorkerEvent where
  path : String
  result : WorkerResult
  serial : Nat
  cache : ImmutableRowCache
  cacheFirstRow : Nat
  cachedRows : Nat
  columns : Option UiColumnLayout
  progress : WorkerProgress
  phase : WorkerPhase
  sourceTruncatedRows : Nat
  displayTruncatedRows : Nat
  escapedNonUtf8Rows : Nat
  query : Option WorkerQueryState
  sheets : Option WorkerSheets
  sort : Option WorkerSortState
  revealRank : Option Nat
  queryRank : Option Nat
deriving DecidableEq

def WorkerResult.isReady : WorkerResult → Bool
  | .ready _ => true
  | .failed _ => false

def WorkerEvent.isInternallyConsistent (event : WorkerEvent) : Bool :=
  let countsFit := decide (event.sourceTruncatedRows ≤ event.cachedRows) &&
    decide (event.displayTruncatedRows ≤ event.cachedRows) &&
    decide (event.escapedNonUtf8Rows ≤ event.cachedRows)
  let cacheAnchorExists := event.cachedRows == 0 ||
    (ImmutableRowCache.cell event.cache event.cacheFirstRow 0).isSome
  let columnsMatch := match event.columns with
    | some columns =>
      let retainedCells :=
        (ImmutableRowCache.cellCount event.cache event.cacheFirstRow).getD 1 - 1
      columns.isValid && decide (retainedCells ≤ columns.dataColumns)
    | none => event.cachedRows == 0
  let progressIsOrdered := decide (event.progress.scannedBytes ≤ event.progress.sourceBytes) &&
    decide (event.progress.indexedRows ≤ event.progress.availableRows)
  let phaseMatches := match event.phase with
    | .complete => event.progress.complete && event.result.isReady
    | .viewportReady | .scanning => event.result.isReady
    | .failed => !event.result.isReady
  let queryIsValid := event.query.all WorkerQueryState.isInternallyConsistent
  countsFit && cacheAnchorExists && columnsMatch && progressIsOrdered && phaseMatches &&
    queryIsValid

/-! ## The shared state -/

structure Shared (W : Type) where
  sorts : CoalescingMailbox SortCommand
  sortCancellation : CancellationToken
  nextSort : Nat
  latestSortSerial : Nat
  opens : CoalescingMailbox OpenCommand
  viewports : CoalescingMailbox ViewportCommand
  queries : CoalescingMailbox QueryCommand
  signals : CoalescingMailbox Unit
  events : CoalescingMailbox WorkerEvent
  cancellation : CancellationToken
  queryCancellation : CancellationToken
  latestSerial : Nat
  activeSerial : Nat
  latestQuerySerial : Nat
  querySequence : Nat
  world : W

namespace Shared

variable {W : Type}

/-- Nothing has been asked for. -/
def new (world : W) : Shared W :=
  ⟨.new, 0, 0, 0, .new, .new, .new, .new, .new, 0, 0, 0, 0, 0, 0, world⟩

end Shared

end LeanRows.Worker
