import LeanRows.Worker.State
import LeanRows.Lib.Threads

/-!
# The calls of the user interface

One thread makes the calls. Each is a list of accesses to the shared state, one at a time;
between two of them the worker may move. A guard that fails drops what is left of the call.
-/

namespace LeanRows.Worker

set_option autoImplicit false

inductive UiOp where
  | guardLatest (serial : Nat)
  | guardActive (serial : Nat)
  | guardLatestQuery (serial : Nat)
  | nextSerial
  | nextSort
  | nextQuery
  | loadLatest
  | cancelSort
  | cancelViewports
  | cancelQuery
  | clearLatestSort
  | clearActive
  | clearLatestQuery
  | storeLatestSort
  | storeLatestQuery
  | takeSorts
  | takeViewports
  | takeQueries
  | takeEvents
  | postOpen (path : String) (sheet : Option Nat)
  | postViewport (serial firstRow : Nat) (sourceRow : Bool)
  | postSort (request : Option Sort.SortRequest)
  | postStart (documentSerial : Nat) (needle : List Byte) (mode : LiteralMatchMode)
  | postNavigate (documentSerial querySerial : Nat) (direction : QueryDirection)
  | signal
  | pollTake
  | pollQuery
  | pollJudge
  | closeSorts
  | closeOpens
  | closeViewports
  | closeQueries
  | closeSignals
  | closeEvents
deriving DecidableEq

inductive UiCall where
  | submitPathSheet (path : String) (sheet : Option Nat)
  | requestViewport (serial firstRow : Nat)
  | requestSort (request : Option Sort.SortRequest)
  | cancelSort
  | requestSourceRow (serial row : Nat)
  | startQuery (documentSerial : Nat) (needle : List Byte) (caseSensitive : Bool)
  | navigateQuery (documentSerial querySerial : Nat) (direction : QueryDirection)
  | poll
  | drop
deriving DecidableEq

namespace UiCall

def submitPathSheetOps (path : String) (sheet : Option Nat) : List UiOp :=
  [.cancelSort, .clearLatestSort, .takeSorts, .nextSerial, .cancelViewports, .clearActive,
    .cancelQuery, .clearLatestQuery, .takeViewports, .takeQueries, .takeEvents,
    .postOpen path sheet, .signal]

def requestViewportOps (serial firstRow : Nat) : List UiOp :=
  [.guardLatest serial, .cancelViewports, .postViewport serial firstRow false, .signal]

def requestSortOps (request : Option Sort.SortRequest) : List UiOp :=
  [.nextSort, .cancelSort, .storeLatestSort, .loadLatest, .postSort request, .signal]

def requestSourceRowOps (serial row : Nat) : List UiOp :=
  [.guardLatest serial, .cancelViewports, .postViewport serial row true, .signal]

def startQueryOps (documentSerial : Nat) (needle : List Byte) (caseSensitive : Bool) :
    List UiOp :=
  [.guardLatest documentSerial, .guardActive documentSerial, .nextQuery, .cancelQuery,
    .storeLatestQuery, .takeEvents,
    .postStart documentSerial needle (if caseSensitive then .exact else .asciiCaseInsensitive),
    .signal]

def navigateQueryOps (documentSerial querySerial : Nat) (direction : QueryDirection) :
    List UiOp :=
  [.guardLatest documentSerial, .guardLatestQuery querySerial, .cancelQuery, .takeEvents,
    .postNavigate documentSerial querySerial direction, .signal]

/-- The body of the loop of `poll`. -/
def pollOps : List UiOp := [.pollTake, .pollQuery, .pollJudge]

def dropOps : List UiOp :=
  [.cancelSort, .closeSorts, .cancelViewports, .cancelQuery, .closeOpens, .closeViewports,
    .closeQueries, .closeSignals, .closeEvents]

def ops : UiCall → List UiOp
  | .submitPathSheet path sheet => submitPathSheetOps path sheet
  | .requestViewport serial firstRow => requestViewportOps serial firstRow
  | .requestSort request => requestSortOps request
  | .cancelSort => [.cancelSort, .signal]
  | .requestSourceRow serial row => requestSourceRowOps serial row
  | .startQuery documentSerial needle caseSensitive =>
    startQueryOps documentSerial needle caseSensitive
  | .navigateQuery documentSerial querySerial direction =>
    navigateQueryOps documentSerial querySerial direction
  | .poll => pollOps
  | .drop => dropOps

end UiCall

/-- The thread in a call: what is left to do, and what it has read so far. Each token gives a
generation of its own. -/
structure Ui where
  call : UiCall
  remaining : List UiOp
  serial : Nat
  generation : CancellationGeneration
  sortGeneration : CancellationGeneration
  queryGeneration : CancellationGeneration
  sortSerial : Nat
  querySerial : Nat
  latestQuery : Nat
  event : Option WorkerEvent
  gone : Bool

structure System (W : Type) where
  shared : Shared W
  ui : Ui

namespace System

variable {W : Type}

def new (world : W) : System W :=
  ⟨.new world, ⟨.poll, [], 0, 0, 0, 0, 0, 0, 0, none, false⟩⟩

/-- An event is handed out when it is of the latest document, query and sort. -/
def accepts (s : System W) (event : WorkerEvent) : Bool :=
  event.serial == s.shared.latestSerial &&
    (match s.ui.latestQuery, event.query with
      | 0, none => true
      | serial, some query => query.querySerial == serial
      | _, none => false) &&
    event.sort.all fun sort => sort.serial == s.shared.latestSortSerial

def abort (s : System W) : System W := { s with ui := { s.ui with remaining := [] } }

end System

namespace UiOp

variable {W : Type}

/-- One access. What is left of the call behind it is in place already. Serials and generations
are of 64 bits; the serial of a sort or a query is drawn again where it would be zero. -/
def run (op : UiOp) (s : System W) : System W :=
  let shared := s.shared
  let ui := s.ui
  match op with
  | .guardLatest serial => if shared.latestSerial = serial then s else s.abort
  | .guardActive serial => if shared.activeSerial = serial then s else s.abort
  | .guardLatestQuery serial => if shared.latestQuerySerial = serial then s else s.abort
  | .nextSerial =>
    let serial := (shared.latestSerial + 1) % u64Bound
    { s with shared := { shared with latestSerial := serial }, ui := { ui with serial := serial } }
  | .nextSort =>
    let serial := (shared.nextSort + 1) % u64Bound
    let shared := { shared with nextSort := serial }
    if serial = 0 then ⟨shared, { ui with remaining := .nextSort :: ui.remaining }⟩
    else ⟨shared, { ui with sortSerial := serial }⟩
  | .nextQuery =>
    let serial := (shared.querySequence + 1) % u64Bound
    let shared := { shared with querySequence := serial }
    if serial = 0 then ⟨shared, { ui with remaining := .nextQuery :: ui.remaining }⟩
    else ⟨shared, { ui with querySerial := serial }⟩
  | .loadLatest => { s with ui := { ui with serial := shared.latestSerial } }
  | .cancelSort => { s with
      shared := { shared with sortCancellation := cancel shared.sortCancellation }
      ui := { ui with sortGeneration := cancel shared.sortCancellation } }
  | .cancelViewports => { s with
      shared := { shared with cancellation := cancel shared.cancellation }
      ui := { ui with generation := cancel shared.cancellation } }
  | .cancelQuery => { s with
      shared := { shared with queryCancellation := cancel shared.queryCancellation }
      ui := { ui with queryGeneration := cancel shared.queryCancellation } }
  | .clearLatestSort => { s with shared := { shared with latestSortSerial := 0 } }
  | .clearActive => { s with shared := { shared with activeSerial := 0 } }
  | .clearLatestQuery => { s with shared := { shared with latestQuerySerial := 0 } }
  | .storeLatestSort => { s with shared := { shared with latestSortSerial := ui.sortSerial } }
  | .storeLatestQuery =>
    { s with shared := { shared with latestQuerySerial := ui.querySerial } }
  | .takeSorts => { s with shared := { shared with sorts := shared.sorts.tryTake } }
  | .takeViewports => { s with shared := { shared with viewports := shared.viewports.tryTake } }
  | .takeQueries => { s with shared := { shared with queries := shared.queries.tryTake } }
  | .takeEvents => { s with shared := { shared with events := shared.events.tryTake } }
  | .postOpen path sheet => { s with
      shared := { shared with
        opens := shared.opens.send ⟨path, sheet, ui.serial, ui.generation⟩ } }
  | .postViewport serial firstRow sourceRow => { s with
      shared := { shared with
        viewports := shared.viewports.send ⟨serial, firstRow, ui.generation, sourceRow⟩ } }
  | .postSort request => { s with
      shared := { shared with
        sorts := shared.sorts.send ⟨ui.serial, ui.sortSerial, request, ui.sortGeneration⟩ } }
  | .postStart documentSerial needle mode => { s with
      shared := { shared with
        queries := shared.queries.send
          (.start documentSerial ui.querySerial needle mode ui.queryGeneration) } }
  | .postNavigate documentSerial querySerial direction => { s with
      shared := { shared with
        queries := shared.queries.send
          (.navigate documentSerial querySerial direction ui.queryGeneration) } }
  | .signal => { s with shared := { shared with signals := shared.signals.send () } }
  | .pollTake =>
    match shared.events.pending with
    | none => s.abort
    | some event => { s with
        shared := { shared with events := shared.events.tryTake }
        ui := { ui with event := some event } }
  | .pollQuery => { s with ui := { ui with latestQuery := shared.latestQuerySerial } }
  | .pollJudge =>
    match ui.event with
    | none => s
    | some event =>
      if s.accepts event then { s with ui := { ui with event := none } }
      else { s with ui := { ui with event := none, remaining := UiCall.pollOps } }
  | .closeSorts => { s with shared := { shared with sorts := shared.sorts.close } }
  | .closeOpens => { s with shared := { shared with opens := shared.opens.close } }
  | .closeViewports => { s with shared := { shared with viewports := shared.viewports.close } }
  | .closeQueries => { s with shared := { shared with queries := shared.queries.close } }
  | .closeSignals => { s with shared := { shared with signals := shared.signals.close } }
  | .closeEvents => { s with
      shared := { shared with events := shared.events.close }, ui := { ui with gone := true } }

end UiOp

/-- A call is begun, an access of it is made, or another tab asks for a sort. -/
inductive UiMove where
  | enter (call : UiCall)
  | step
  | otherTab

/-- Calls are made one after the other, and none after the worker is dropped. -/
def UiMove.run {W : Type} (m : UiMove) (s : System W) : System W :=
  match m with
  | .enter call =>
    match s.ui.remaining with
    | [] =>
      if s.ui.gone then s
      else { s with ui := { s.ui with call := call, remaining := call.ops } }
    | _ :: _ => s
  | .step =>
    match s.ui.remaining with
    | [] => s
    | op :: rest => op.run { s with ui := { s.ui with remaining := rest } }
  | .otherTab =>
    { s with shared := { s.shared with nextSort := (s.shared.nextSort + 1) % u64Bound } }

/-- What is left of a call is a tail of its accesses. -/
def Ui.InCall (ui : Ui) : Prop := ui.remaining <:+ ui.call.ops

namespace UiCall

/-- Only a poll judges an event. -/
theorem eq_poll_of_judges {call : UiCall} (h : UiOp.pollJudge ∈ call.ops) : call = .poll := by
  cases call <;> simp_all [ops, submitPathSheetOps, requestViewportOps, requestSortOps,
    requestSourceRowOps, startQueryOps, navigateQueryOps, dropOps]

end UiCall

section InCall
variable {W : Type} {s : System W}

theorem UiOp.run_inCall {op : UiOp} {rest : List UiOp} (h : op :: rest <:+ s.ui.call.ops)
    (hrest : s.ui.remaining = rest) : (op.run s).ui.InCall := by
  have hself : s.ui.remaining <:+ s.ui.call.ops := by
    rw [hrest]
    exact (List.suffix_cons op rest).trans h
  have hguard : ∀ A : Prop, [Decidable A] → (if A then s else s.abort).ui.InCall := by
    intro A _
    split
    · exact hself
    · exact List.nil_suffix
  cases op with
  | guardLatest serial => exact hguard _
  | guardActive serial => exact hguard _
  | guardLatestQuery serial => exact hguard _
  | nextSort | nextQuery =>
    simp only [run]
    split
    · unfold Ui.InCall
      dsimp only
      rwa [hrest]
    · exact hself
  | pollTake =>
    simp only [run]
    split
    · exact List.nil_suffix
    · exact hself
  | pollJudge =>
    have hpoll : s.ui.call = .poll := UiCall.eq_poll_of_judges (h.subset List.mem_cons_self)
    simp only [run]
    split
    · exact hself
    split
    · exact hself
    · change UiCall.pollOps <:+ s.ui.call.ops
      rw [hpoll]
      exact List.suffix_refl _
  | _ => exact hself

theorem UiMove.run_inCall (m : UiMove) (h : s.ui.InCall) : (m.run s).ui.InCall := by
  cases m with
  | enter call =>
    simp only [UiMove.run]
    split
    · split
      · exact h
      · exact List.suffix_refl _
    · exact h
  | step =>
    simp only [UiMove.run]
    split
    · exact h
    · rename_i op rest hremaining
      apply UiOp.run_inCall _ rfl
      unfold Ui.InCall at h
      rw [hremaining] at h
      exact h
  | otherTab => exact h

end InCall

end LeanRows.Worker
