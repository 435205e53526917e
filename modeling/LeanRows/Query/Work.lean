import LeanRows.Query.Hits

/-!
# The work of a query

Every byte handed to the scanner or to the matcher is put down in a `Work`, call by call,
by running the parts of a call once more. A turn that hands on no byte lowers `stall`, so a
call ends; between two calls the bytes put down are those up to the scanner's offset and
the pending cursor, so a schedule of calls ends as well.
-/

namespace LeanRows

set_option autoImplicit false

open BoundaryScanner

/-- Bytes handed on, by their offset in the source: to the scanner, to the matcher, and to
the matcher in a chunk whose append has failed, where the session keeps its old cursor. -/
@[ext] structure Work where
  scanned : List Nat
  matched : List Nat
  dropped : List Nat
deriving DecidableEq, Repr

namespace Work

def none : Work := ⟨[], [], []⟩

def append (work more : Work) : Work :=
  ⟨work.scanned ++ more.scanned, work.matched ++ more.matched, work.dropped ++ more.dropped⟩

def bytes (work : Work) : Nat :=
  work.scanned.length + work.matched.length + work.dropped.length

/-- The bytes whose progress is kept. -/
def kept (work : Work) : Nat := work.scanned.length + work.matched.length

@[simp] theorem bytes_none : none.bytes = 0 := rfl

@[simp] theorem append_none (work : Work) : work.append none = work := by
  simp [append, none]

theorem append_assoc (work more most : Work) :
    (work.append more).append most = work.append (more.append most) := by
  simp [append, List.append_assoc]

@[simp] theorem bytes_append (work more : Work) :
    (work.append more).bytes = work.bytes + more.bytes := by
  simp only [bytes, append, List.length_append]
  omega

@[simp] theorem kept_append (work more : Work) :
    (work.append more).kept = work.kept + more.kept := by
  simp only [kept, append, List.length_append]
  omega

theorem kept_eq_bytes {work : Work} (h : work.dropped = []) : work.kept = work.bytes := by
  simp [kept, bytes, h]

end Work

namespace QuerySession

variable {W : Type} {format : ViewportFormat}

section Work
variable (medium : ScratchMedium W)

/-- How many bytes the loop of `match_pending_bytes` hands to the matcher: also the one
whose hit is refused or fails to be appended. -/
def handedBytes (pending : PendingRecord) (polls : Nat → Bool) :
    List Byte → Nat → Nat → QuerySession format × W → Nat
  | [], processed, _, _ => processed
  | byte :: bytes, processed, state, p =>
    if processed % p.1.config.cancellationCheckBytes == 0 && polls processed then processed
    else
      let next := p.1.literal.advance state byte
      if next.2 then
        match checkedAdd pending.cursor (processed + 1) with
        | none => processed + 1
        | some stop =>
          match hitEnding p.1.literal pending.row stop with
          | .error _ => processed + 1
          | .ok hit =>
            match appendHit medium hit p with
            | (.ok none, p) => handedBytes pending polls bytes (processed + 1) next.1 p
            | (.ok (some _), _) | (.error _, _) => processed + 1
      else handedBytes pending polls bytes (processed + 1) next.1 p

variable (source : PositionedRead W)

/-- The bytes `advance_pending` hands to the matcher. -/
def pendingWork (workBytes : Nat) (polls : Nat → Bool) (p : QuerySession format × W) : Work :=
  match p.1.pending with
  | none => .none
  | some pending =>
    if pending.cursor = pending.span.stop then .none
    else
      let request := min (min (pending.span.stop - pending.cursor)
        p.1.config.readBufferBytes) workBytes
      match checkedReadAt source pending.cursor request p with
      | (.error _, _) => .none
      | (.ok bytes, p) =>
        let handed := List.range' pending.cursor
          (handedBytes medium pending polls bytes 0 pending.matcherState p)
        match (matchLoop medium pending polls bytes 0 pending.matcherState p).1 with
        | .ok _ => ⟨[], handed, []⟩
        | .error _ => ⟨[], [], handed⟩

/-- The bytes `advance_scanner` hands to the scanner. A feed that fails reports no count,
but leaves the scanner in front of the byte it could not take. -/
def scannerWork (workBytes : Nat) (polls : Nat → Bool) (p : QuerySession format × W) : Work :=
  match p.1.scanner with
  | none => .none
  | some scanner =>
    let request := min (min (p.1.sourceSnapshot.size - scanner.offset)
      p.1.config.readBufferBytes) workBytes
    match checkedReadAt source scanner.offset request p with
    | (.error _, _) => .none
    | (.ok bytes, p) =>
      let fed := scanner.feedCancellable keepRecord
        ⟨p.1.config.cancellationCheckBytes, p.1.config.cancellationCheckBytes_pos, polls⟩
        bytes none
      match fed.result with
      | .ok progress => ⟨List.range' scanner.offset progress.consumed, [], []⟩
      | .error _ => ⟨List.range' scanner.offset (fed.scanner.offset - scanner.offset), [], []⟩

/-- The work of one turn of the loop of `advance`. -/
def turnWork (remaining : Nat) (polls : StepPolls) (p : QuerySession format × W) : Work :=
  if polls.entry then .none
  else
    match ensureSourceUnchanged source p with
    | (.error _, _) => .none
    | (.ok _, p) =>
      if p.1.pending.isSome then pendingWork medium source remaining polls.feed p
      else
        match p.1.scanner with
        | some scanner =>
          if scanner.offset < p.1.sourceSnapshot.size then
            scannerWork source remaining polls.feed p
          else .none
        | none => .none

def loopWork (polls : Nat → StepPolls) : Nat → Nat → Nat → QuerySession format × W → Work
  | 0, _, _, _ => .none
  | fuel + 1, i, remaining, p =>
    (turnWork medium source remaining (polls i) p).append
      (match turn medium source remaining (polls i) p with
        | (.ok (.next left), p) =>
          if left = 0 then .none else loopWork polls fuel (i + 1) left p
        | (.ok (.done _), _) | (.error _, _) => .none)

def advanceWork (call : AdvanceCall) (p : QuerySession format × W) : Work :=
  if call.maxWorkBytes = 0 then .none
  else
    match p.1.status with
    | .complete | .quotaExceeded _ => .none
    | .running | .cancelled =>
      loopWork medium source call.polls (turnBound call.maxWorkBytes) 0 call.maxWorkBytes
        ({ p.1 with status := .running }, p.2)

/-- The work of a schedule of calls, those that fail included. -/
def advancesWork : List AdvanceCall → QuerySession format × W → Work
  | [], _ => .none
  | call :: calls, p => (advanceWork medium source call p).append
      (advancesWork calls (advance medium source call.maxWorkBytes call.polls p).2)

/-- What the loop of `advance` returns, whatever the number of its turns. -/
inductive LoopReturns (polls : Nat → StepPolls) : Nat → Nat → QuerySession format × W →
    Except QueryError QueryStepStatus × QuerySession format × W → Prop where
  | done {i remaining : Nat} {p p' : QuerySession format × W} {status : QueryStepStatus} :
      turn medium source remaining (polls i) p = (.ok (.done status), p') →
      LoopReturns polls i remaining p (.ok status, p')
  | failed {i remaining : Nat} {p p' : QuerySession format × W} {error : QueryError} :
      turn medium source remaining (polls i) p = (.error error, p') →
      LoopReturns polls i remaining p (.error error, p')
  | spent {i remaining : Nat} {p p' : QuerySession format × W} :
      turn medium source remaining (polls i) p = (.ok (.next 0), p') →
      LoopReturns polls i remaining p (.ok p'.1.status, p')
  | next {i remaining left : Nat} {p p' : QuerySession format × W}
      {r : Except QueryError QueryStepStatus × QuerySession format × W} :
      turn medium source remaining (polls i) p = (.ok (.next left), p') → left ≠ 0 →
      LoopReturns polls (i + 1) left p' r → LoopReturns polls i remaining p r

/-- The call comes to an end: its loop, if it is entered, returns what `advance` does. -/
def Terminates (call : AdvanceCall) (p : QuerySession format × W) : Prop :=
  p.1.status = .running ∨ p.1.status = .cancelled →
    LoopReturns medium source call.polls 0 call.maxWorkBytes
      ({ p.1 with status := .running }, p.2)
      (advance medium source call.maxWorkBytes call.polls p)

end Work

/-! ### What a turn does to the session -/

/-- Only the memory of a source failure, the store and the page may differ. -/
structure SameCursor (session next : QuerySession format) : Prop where
  snapshot : next.sourceSnapshot = session.sourceSnapshot
  scanner : next.scanner = session.scanner
  config : next.config = session.config
  pending : next.pending = session.pending
  nextRow : next.nextRow = session.nextRow
  status : next.status = session.status

theorem SameCursor.refl (session : QuerySession format) : SameCursor session session :=
  ⟨rfl, rfl, rfl, rfl, rfl, rfl⟩

theorem SameCursor.trans {session middle next : QuerySession format}
    (h : SameCursor session middle) (h' : SameCursor middle next) : SameCursor session next :=
  ⟨h'.snapshot.trans h.snapshot, h'.scanner.trans h.scanner, h'.config.trans h.config,
    h'.pending.trans h.pending, h'.nextRow.trans h.nextRow, h'.status.trans h.status⟩

section Parts
variable {source : PositionedRead W} {medium : ScratchMedium W}
  {session : QuerySession format}

/-- A check that succeeds changes nothing. -/
theorem ensureSourceUnchanged_keeps (source : PositionedRead W)
    (session : QuerySession format) (w : W) :
    match ensureSourceUnchanged source (session, w) with
    | (.ok _, next, _) => next = session
    | (.error _, next, _) => SameCursor session next := by
  have hcases := ensureSourceUnchanged_ensured source session w
  generalize ensureSourceUnchanged source (session, w) = r at hcases
  cases hcases with
  | remembered _ => exact .refl _
  | lost _ => exact ⟨rfl, rfl, rfl, rfl, rfl, rfl⟩
  | changed _ _ _ => exact ⟨rfl, rfl, rfl, rfl, rfl, rfl⟩
  | unchanged _ _ _ => exact rfl

/-- Bytes are handed on only if there are some, and no more than asked for. -/
theorem checkedReadAt_keeps (source : PositionedRead W) (session : QuerySession format)
    (offset request : Nat) (w : W) :
    match checkedReadAt source offset request (session, w) with
    | (.ok bytes, next, _) => next = session ∧ bytes ≠ [] ∧ bytes.length ≤ request
    | (.error _, next, _) => SameCursor session next := by
  have hensure := ensureSourceUnchanged_keeps source session w
  rw [checkedReadAt]
  rcases hrun : ensureSourceUnchanged source (session, w) with ⟨error | ⟨⟩, next, w'⟩
  · rw [hrun] at hensure
    rw [Exec.run_bind_error hrun]
    exact hensure
  rw [hrun] at hensure
  obtain rfl : next = session := hensure
  rw [Exec.run_bind_ok hrun]
  rcases hread : source.read QueryError.io offset request w' with ⟨error | bytes, w''⟩
  · have hinner : Exec.inner (source.read QueryError.io offset request) (next, w') =
        (.error error, next, w'') := by simp only [Exec.inner, hread]
    rw [Exec.run_bind_error hinner]
    exact .refl _
  have hinner : Exec.inner (source.read QueryError.io offset request) (next, w') =
      (.ok bytes, next, w'') := by simp only [Exec.inner, hread]
  rw [Exec.run_bind_ok hinner]
  have hcount : bytes.length ≤ request := by
    have hfst := congrArg Prod.fst hread
    simp only [PositionedRead.read] at hfst
    cases hraw : (source.readAt w' offset request).1 with
    | error _ => simp [hraw, Except.bind, Except.mapError] at hfst
    | ok got =>
      simp only [hraw, Except.bind, validateReadCount] at hfst
      split at hfst
      · cases hfst
      · cases hfst
        omega
  by_cases hempty : bytes.isEmpty
  · rw [if_pos hempty, Exec.run_modify_bind]
    exact ⟨rfl, rfl, rfl, rfl, rfl, rfl⟩
  rw [if_neg hempty]
  have hagain := ensureSourceUnchanged_keeps source next w''
  rcases hrun' : ensureSourceUnchanged source (next, w'') with ⟨error | ⟨⟩, after, w₃⟩
  · rw [hrun'] at hagain
    rw [Exec.run_bind_error hrun']
    exact hagain
  · rw [hrun'] at hagain
    rw [Exec.run_bind_ok hrun']
    exact ⟨hagain, by simpa using hempty, hcount⟩

theorem appendHit_same (session : QuerySession format) (hit : QueryHit) (w : W) :
    SameCursor session (appendHit medium hit (session, w)).2.1 := by
  simp only [appendHit]
  rcases session.scratch.append medium hit w with ⟨_ | _ | _, store, w'⟩
  · exact ⟨rfl, rfl, rfl, rfl, rfl, rfl⟩
  · exact ⟨rfl, rfl, rfl, rfl, rfl, rfl⟩
  · exact ⟨rfl, rfl, rfl, rfl, rfl, rfl⟩

theorem updatePendingCursor_same {pending : PendingRecord}
    (hpending : session.pending = some pending) (cursor processed state : Nat) (w : W) :
    match updatePendingCursor cursor processed state (session, w) with
    | (.ok _, next, _) => next = { session with
        pending := some { pending with cursor := cursor + processed, matcherState := state } }
    | (.error _, next, _) => next = session := by
  rw [updatePendingCursor]
  cases hadd : checkedAdd cursor processed with
  | none => exact rfl
  | some moved =>
    obtain ⟨_, rfl⟩ := checkedAdd_eq_some.mp hadd
    simp only [Exec.run_get_bind, hpending]
    exact rfl

/-- The session once `processed` bytes of the pending record have been matched. -/
def movedBy (session : QuerySession format) (pending : PendingRecord) (processed state : Nat) :
    QuerySession format :=
  { session with
    pending := some { pending with
      cursor := pending.cursor + processed, matcherState := state } }

/-- What a loop over `total` bytes behind the first `first` leaves. -/
structure Matched (polls : Nat → Bool) (pending : PendingRecord) (session : QuerySession format)
    (first total : Nat) (outcome : PendingAdvance) (next : QuerySession format) : Prop where
  moved : ∃ state, SameCursor (session.movedBy pending outcome.processed state) next
  whole : outcome.status = .running ∨ outcome.status = .complete →
    outcome.processed = first + total
  complete : outcome.status = .complete →
    pending.cursor + outcome.processed = pending.span.stop
  cancelled : outcome.status = .cancelled → ∃ i, polls i = true

theorem SameCursor.movedBy {next : QuerySession format} (h : SameCursor session next)
    (pending : PendingRecord) (processed state : Nat) :
    SameCursor (session.movedBy pending processed state)
      (next.movedBy pending processed state) :=
  ⟨h.snapshot, h.scanner, h.config, rfl, h.nextRow, h.status⟩

/-- The bytes the loop reports are those it has handed to the matcher. -/
theorem matchLoop_handed (medium : ScratchMedium W) {pending : PendingRecord}
    (polls : Nat → Bool) (bytes : List Byte) (processed state : Nat)
    (session : QuerySession format) (w : W)
    (hpending : session.pending = some pending) :
    let handed := handedBytes medium pending polls bytes processed state (session, w)
    (processed ≤ handed ∧ handed ≤ processed + bytes.length) ∧
      match matchLoop medium pending polls bytes processed state (session, w) with
      | (.ok outcome, next, _) => outcome.processed = handed ∧
          Matched polls pending session processed bytes.length outcome next
      | (.error _, next, _) => SameCursor session next := by
  induction bytes generalizing processed state session w with
  | nil =>
    simp only [handedBytes]
    refine ⟨⟨Nat.le_refl _, Nat.le_refl _⟩, ?_⟩
    rw [matchLoop]
    have hupdate := updatePendingCursor_same hpending pending.cursor processed state w
    rcases hrun : updatePendingCursor pending.cursor processed state (session, w) with
      ⟨error | ⟨⟩, next, w'⟩
    · rw [hrun] at hupdate
      rw [Exec.run_bind_error hrun]
      obtain rfl : next = session := hupdate
      exact .refl _
    rw [hrun] at hupdate
    obtain rfl : next = _ := hupdate
    rw [Exec.run_bind_ok hrun]
    simp only [Exec.run_get_bind, Exec.run_pure, Option.any_some]
    refine ⟨trivial, ⟨⟨state, .refl _⟩, fun _ => rfl, ?_, ?_⟩⟩
    · dsimp only
      split
      · rename_i hend
        exact fun _ => beq_iff_eq.mp hend
      · exact fun h => by cases h
    · dsimp only
      split
      · exact fun h => by cases h
      · exact fun h => by cases h
  | cons byte bytes ih =>
    rw [matchLoop, Exec.run_get_bind]
    simp only [handedBytes]
    cases hcancel : processed % session.config.cancellationCheckBytes == 0 && polls processed with
    | true =>
      rw [if_pos rfl, if_pos rfl]
      refine ⟨⟨Nat.le_refl _, Nat.le_add_right _ _⟩, ?_⟩
      have hupdate := updatePendingCursor_same hpending pending.cursor processed state w
      rcases hrun : updatePendingCursor pending.cursor processed state (session, w) with
        ⟨error | ⟨⟩, next, w'⟩
      · rw [hrun] at hupdate
        rw [Exec.run_bind_error hrun]
        obtain rfl : next = session := hupdate
        exact .refl _
      · rw [hrun] at hupdate
        obtain rfl : next = _ := hupdate
        rw [Exec.run_bind_ok hrun]
        refine ⟨rfl, ⟨⟨state, .refl _⟩, ?_, (fun h => by cases h), fun _ => ⟨processed, ?_⟩⟩⟩
        · rintro (h | h) <;> cases h
        · exact (Bool.and_eq_true_iff.mp hcancel).2
    | false =>
    rw [if_neg Bool.false_ne_true, if_neg Bool.false_ne_true]
    have hrest : ∀ (state : Nat) (next : QuerySession format) (w : W), SameCursor session next →
        let handed := handedBytes medium pending polls bytes (processed + 1) state (next, w)
        (processed ≤ handed ∧ handed ≤ processed + (byte :: bytes).length) ∧
          match matchLoop medium pending polls bytes (processed + 1) state (next, w) with
          | (.ok outcome, after, _) => outcome.processed = handed ∧
              Matched polls pending session processed (byte :: bytes).length outcome after
          | (.error _, after, _) => SameCursor session after := by
      intro state next w hsame
      obtain ⟨⟨hlower, hupper⟩, hloop⟩ := ih (processed + 1) state next w
        (hsame.pending.trans hpending)
      rw [List.length_cons]
      refine ⟨⟨by omega, by omega⟩, ?_⟩
      rcases hrun : matchLoop medium pending polls bytes (processed + 1) state (next, w) with
        ⟨error | outcome, after, w'⟩
      · rw [hrun] at hloop
        exact hsame.trans hloop
      · rw [hrun] at hloop
        obtain ⟨hprocessed, ⟨⟨final, hmoved⟩, hwhole, hcomplete, hcancelled⟩⟩ := hloop
        refine ⟨hprocessed, ⟨⟨final, (hsame.movedBy _ _ _).trans hmoved⟩, ?_, hcomplete,
          hcancelled⟩⟩
        intro hstatus
        have hcount := hwhole hstatus
        omega
    have hstop : processed ≤ processed + 1 ∧
        processed + 1 ≤ processed + (byte :: bytes).length := by
      rw [List.length_cons]
      omega
    cases hends : (session.literal.advance state byte).2 with
    | false =>
      rw [if_neg Bool.false_ne_true, if_neg Bool.false_ne_true]
      exact hrest _ session w (.refl _)
    | true =>
    rw [if_pos rfl, if_pos rfl]
    cases hadd : checkedAdd pending.cursor (processed + 1) with
    | none => exact ⟨hstop, .refl _⟩
    | some stop =>
    dsimp only
    cases hending : hitEnding session.literal pending.row stop with
    | error error => exact ⟨hstop, .refl _⟩
    | ok hit =>
    have happend : SameCursor session (appendHit medium hit (session, w)).2.1 :=
      appendHit_same session hit w
    dsimp only
    rcases hrun : appendHit medium hit (session, w) with ⟨error | _ | details, next, w'⟩
    · rw [hrun] at happend
      rw [Exec.run_bind_error hrun]
      exact ⟨hstop, happend⟩
    · rw [hrun] at happend
      rw [Exec.run_bind_ok hrun]
      exact hrest _ next w' happend
    · rw [hrun] at happend
      rw [Exec.run_bind_ok hrun]
      refine ⟨hstop, ?_⟩
      dsimp only
      have hupdate := updatePendingCursor_same (happend.pending.trans hpending) pending.cursor
        (processed + 1) (session.literal.advance state byte).1 w'
      rcases hrun' : updatePendingCursor pending.cursor (processed + 1)
        (session.literal.advance state byte).1 (next, w') with ⟨error | ⟨⟩, after, w''⟩
      · rw [hrun'] at hupdate
        rw [Exec.run_bind_error hrun']
        obtain rfl : after = next := hupdate
        exact happend
      · rw [hrun'] at hupdate
        obtain rfl : after = _ := hupdate
        rw [Exec.run_bind_ok hrun']
        refine ⟨rfl, ⟨⟨_, happend.movedBy _ _ _⟩, ?_, (fun h => by cases h), fun h => by cases h⟩⟩
        rintro (h | h) <;> cases h

/-! ### Feeding a chunk -/

theorem overflowed_offset {rules : BoundaryRules} (s : BoundaryScanner rules) (byte : Byte) :
    (s.overflowed byte).offset = s.offset := by
  unfold overflowed
  split
  · rfl
  split
  · rfl
  split <;> rfl

theorem feedInner_offset_le {rules : BoundaryRules} {σ : Type} (cancel : Option CancelCheck)
    (emit : RecordSpan → σ → EmitControl × σ) (chunk : List Byte) (consumed : Nat)
    (s : BoundaryScanner rules) (sink : σ) :
    (feedInner cancel emit chunk consumed s sink).scanner.offset ≤ s.offset + chunk.length := by
  induction chunk generalizing consumed s sink with
  | nil => simp [feedInner]
  | cons byte chunk ih =>
    have hbefore : (((s.flushCr byte).map Prod.snd).getD s).offset = s.offset :=
      beforeByte_offset s byte
    rw [feedInner, List.length_cons]
    split
    · simp
    dsimp only
    split
    · dsimp only
      omega
    split
    · split
      · rw [takeByte_offset]
        omega
      · rename_i sink' _
        have hrest := ih (consumed + 1)
          ((((s.flushCr byte).map Prod.snd).getD s).takeByte byte).2 sink'
        rw [takeByte_offset] at hrest
        omega
    · rw [overflowed_offset]
      omega

/-- A feed that delivers a record without taking a byte delivers one that was waiting for
its LF. -/
theorem waiting_of_scans {rules : BoundaryRules} {s s' : BoundaryScanner rules}
    {chunk rest : List Byte} {span : RecordSpan} (h : Scans s chunk [span] s' rest)
    (hlen : rest.length = chunk.length) : s.pendingCrEnd.isSome := by
  generalize hspans : [span] = spans at h
  cases h with
  | refl => cases hspans
  | flush hflush _ =>
    cases hp : s.pendingCrEnd with
    | none => simp [flushCr_none hp] at hflush
    | some _ => rfl
  | take _ hscans =>
    have hle := hscans.suffix.length_le
    simp only [List.length_cons] at hlen
    omega

/-- What feeding a chunk to the session's scanner can come to. -/
inductive Fed (polls : Nat → Bool) (chunk : List Byte) (scanner : FormatScanner format)
    (fed : Feed format.rules (Option RecordSpan)) : Prop where
  | complete (hresult : fed.result = .ok ⟨chunk.length, .complete⟩) (hsink : fed.sink = none)
      (hoffset : fed.scanner.offset = scanner.offset + chunk.length)
  | cancelled {consumed : Nat} (hle : consumed ≤ chunk.length)
      (hresult : fed.result = .ok ⟨consumed, .cancelled⟩) (hsink : fed.sink = none)
      (hoffset : fed.scanner.offset = scanner.offset + consumed) (hpoll : ∃ i, polls i = true)
  | stopped {consumed : Nat} {span : RecordSpan} (hle : consumed ≤ chunk.length)
      (hresult : fed.result = .ok ⟨consumed, .stopped⟩) (hsink : fed.sink = some span)
      (hoffset : fed.scanner.offset = scanner.offset + consumed)
      (hfresh : fed.scanner.pendingCrEnd = none)
      (hwaiting : consumed = 0 → scanner.pendingCrEnd.isSome)
  | overflow {error : ScanError} (hresult : fed.result = .error error)
      (hoffset : fed.scanner.offset - scanner.offset ≤ chunk.length)

theorem feed_fed (scanner : FormatScanner format) (check : CancelCheck) (chunk : List Byte) :
    Fed check.isCancelled chunk scanner (scanner.feedCancellable keepRecord check chunk none) := by
  obtain ⟨spans, rest, control, scanner', hsteps⟩ := feedInner_steps (some check) keepRecord
    chunk 0 scanner none
  have hfed : feedInner (some check) keepRecord chunk 0 scanner none =
      scanner.feedCancellable keepRecord check chunk none := rfl
  have hupper := feedInner_offset_le (some check) keepRecord chunk 0 scanner none
  rw [hfed] at hsteps hupper
  generalize scanner.feedCancellable keepRecord check chunk none = fed at hsteps hupper
  have hoffset := hsteps.scans.offset_eq
  have hlen := hsteps.scans.suffix.length_le
  have hscanner := hsteps.scanner
  have hanswers := hsteps.answers
  have hdelivers := hsteps.delivers.of_stop fun _ _ => rfl
  generalize hresult : fed.result = result at hanswers hscanner
  rw [Nat.zero_add] at hanswers
  cases hanswers with
  | complete hrest =>
    obtain ⟨-, -, hsink⟩ | ⟨_, -, hcontrol, -⟩ := hdelivers
    · subst hrest
      refine .complete hresult hsink ?_
      rw [hscanner _ rfl]
      simpa using hoffset.symm
    · cases hcontrol
  | stopped =>
    obtain ⟨-, hcontrol, -⟩ | ⟨span, hspans, -, hsink⟩ := hdelivers
    · cases hcontrol
    · subst hspans
      refine .stopped (Nat.sub_le _ _) hresult hsink ?_ ?_ ?_
      · rw [hscanner _ rfl]
        omega
      · rw [hscanner _ rfl, hsteps.fresh rfl]
        rfl
      · intro hzero
        exact waiting_of_scans hsteps.scans (by omega)
  | cancelled _ hfires =>
    obtain ⟨-, -, hsink⟩ | ⟨_, -, hcontrol, -⟩ := hdelivers
    · refine .cancelled (Nat.sub_le _ _) hresult hsink ?_
        ⟨_, (Bool.and_eq_true_iff.mp hfires).2⟩
      rw [hscanner _ rfl]
      omega
    · cases hcontrol
  | overflow _ _ => exact .overflow hresult (by omega)

/-! ### What a turn can do -/

/-- The session with its scanner behind a chunk. -/
def scannedTo (session : QuerySession format) (scanner : FormatScanner format) :
    QuerySession format :=
  { session with scanner := some scanner }

/-- The record is the pending one, at its first byte. -/
def queued (session : QuerySession format) (span : RecordSpan) : QuerySession format :=
  { session with
    nextRow := session.nextRow + 1
    pending := some ⟨session.nextRow, span, span.start, 0⟩ }

theorem queueRecord_cases (span : RecordSpan) (session : QuerySession format) (w : W) :
    queueRecord span (session, w) = (.ok (), session.queued span, w) ∨
      u64Bound ≤ session.nextRow + 1 ∧
        queueRecord span (session, w) = (.error .rowOverflow, session, w) := by
  simp only [queueRecord, Exec.run_get_bind]
  by_cases hroom : session.nextRow + 1 < u64Bound
  · rw [checkedAdd_eq_some.mpr ⟨hroom, rfl⟩]
    exact .inl rfl
  · right
    refine ⟨Nat.le_of_not_lt hroom, ?_⟩
    rw [checkedAdd, if_neg hroom]
    rfl

/-- A turn that has fed a chunk to the scanner. -/
inductive FedTurn (remaining : Nat) (polls : Nat → Bool) (session : QuerySession format)
    (chunk : List Byte) (scanner : FormatScanner format)
    (fed : Feed format.rules (Option RecordSpan)) :
    Work → Except QueryError Turn → QuerySession format → Prop where
  | quiet {progress : ScanProgress} : fed.result = .ok progress → fed.sink = none →
      fed.scanner.offset = scanner.offset + chunk.length →
      FedTurn remaining polls session chunk scanner fed
        ⟨List.range' scanner.offset chunk.length, [], []⟩
        (.ok (.next (remaining - chunk.length))) (session.scannedTo fed.scanner)
  | cancelled {progress : ScanProgress} {n : Nat} : n ≤ chunk.length →
      fed.result = .ok progress → fed.sink = none →
      fed.scanner.offset = scanner.offset + n → (∃ i, polls i = true) →
      FedTurn remaining polls session chunk scanner fed
        ⟨List.range' scanner.offset n, [], []⟩ (.ok (.done .cancelled))
        { session.scannedTo fed.scanner with status := .cancelled }
  | queued {progress : ScanProgress} {n : Nat} {span : RecordSpan} : n ≤ chunk.length →
      fed.result = .ok progress → fed.sink = some span →
      fed.scanner.offset = scanner.offset + n → fed.scanner.pendingCrEnd = none →
      (n = 0 → scanner.pendingCrEnd.isSome) →
      FedTurn remaining polls session chunk scanner fed
        ⟨List.range' scanner.offset n, [], []⟩ (.ok (.next (remaining - n)))
        ((session.scannedTo fed.scanner).queued span)
  | crowded {progress : ScanProgress} {n : Nat} {span : RecordSpan} : n ≤ chunk.length →
      fed.result = .ok progress → fed.sink = some span →
      u64Bound ≤ session.nextRow + 1 →
      FedTurn remaining polls session chunk scanner fed
        ⟨List.range' scanner.offset n, [], []⟩ (.error .rowOverflow)
        (session.scannedTo fed.scanner)
  | failed {error : ScanError} {n : Nat} : n ≤ chunk.length → fed.result = .error error →
      FedTurn remaining polls session chunk scanner fed
        ⟨List.range' scanner.offset n, [], []⟩ (.error (.scan error))
        (session.scannedTo fed.scanner)

/-- A turn that has finished the scanner. -/
inductive FinishedTurn (remaining : Nat) (session : QuerySession format) :
    Option RecordSpan → Except QueryError Turn → QuerySession format → Prop where
  | complete {next : QuerySession format} :
      SameCursor { session with scanner := none, status := .complete } next →
      FinishedTurn remaining session none (.ok (.done .complete)) next
  | queued {span : RecordSpan} {next : QuerySession format} :
      SameCursor (({ session with scanner := none } : QuerySession format).queued span) next →
      FinishedTurn remaining session (some span) (.ok (.next remaining)) next
  | crowded {span : RecordSpan} {next : QuerySession format} :
      u64Bound ≤ session.nextRow + 1 → SameCursor { session with scanner := none } next →
      FinishedTurn remaining session (some span) (.error .rowOverflow) next

/-- A turn of the loop: its work, what it decides and the session it leaves. `unmoved` is a
check or a read that fails. -/
inductive Turned (document : List Byte) (remaining : Nat) (polls : StepPolls)
    (session : QuerySession format) :
    Work → Except QueryError Turn → QuerySession format → Prop where
  | cancelled : polls.entry = true → Turned document remaining polls session .none
      (.ok (.done .cancelled)) { session with status := .cancelled }
  | unmoved {error : QueryError} {next : QuerySession format} : SameCursor session next →
      Turned document remaining polls session .none (.error error) next
  | matched {pending : PendingRecord} {n state : Nat} {next : QuerySession format} :
      session.pending = some pending → 0 < n → n ≤ remaining →
      pending.cursor + n ≤ pending.span.stop →
      SameCursor (session.movedBy pending n state) next →
      Turned document remaining polls session ⟨[], List.range' pending.cursor n, []⟩
        (.ok (.next (remaining - n))) next
  | completed {pending : PendingRecord} {n : Nat} {result : Except QueryError Turn}
      {next : QuerySession format} :
      session.pending = some pending → n ≤ remaining → pending.cursor + n = pending.span.stop →
      SameCursor { session with pending := none } next →
      (result = .ok (.next (remaining - n)) ∨ ∃ error, result = .error error) →
      Turned document remaining polls session ⟨[], List.range' pending.cursor n, []⟩ result next
  | stopped {pending : PendingRecord} {n state : Nat} {status : QueryStepStatus}
      {next : QuerySession format} :
      session.pending = some pending → n ≤ remaining →
      pending.cursor + n ≤ pending.span.stop →
      (status = .cancelled ∧ ∃ i, polls.feed i = true) ∨
        (∃ details, status = .quotaExceeded details) →
      SameCursor { session.movedBy pending n state with status := status } next →
      Turned document remaining polls session ⟨[], List.range' pending.cursor n, []⟩
        (.ok (.done status)) next
  | dropped {cursor n : Nat} {error : QueryError} {next : QuerySession format} :
      n ≤ remaining → SameCursor session next →
      Turned document remaining polls session ⟨[], [], List.range' cursor n⟩
        (.error error) next
  | fed {scanner : FormatScanner format} {chunk : List Byte} {check : CancelCheck}
      {work : Work} {result : Except QueryError Turn} {next : QuerySession format} :
      session.pending = none → session.scanner = some scanner → chunk ≠ [] →
      chunk.length ≤ remaining → chunk <+: document.drop scanner.offset →
      check.isCancelled = polls.feed →
      FedTurn remaining polls.feed session chunk scanner
        (scanner.feedCancellable keepRecord check chunk none) work result next →
      Turned document remaining polls session work result next
  | finished {scanner : FormatScanner format} {result : Except QueryError Turn}
      {next : QuerySession format} :
      session.pending = none → session.scanner = some scanner →
      session.sourceSnapshot.size ≤ scanner.offset →
      FinishedTurn remaining session scanner.lastRecord result next →
      Turned document remaining polls session .none result next
  | exhausted : session.pending = none → session.scanner = none →
      Turned document remaining polls session .none (.ok (.done .complete))
        { session with status := .complete }

section Inversion
variable {document : List Byte} {remaining : Nat} {polls : StepPolls}

/-- What matching a chunk of the pending record comes to. -/
theorem advancePending_handed (source : PositionedRead W) (medium : ScratchMedium W)
    {pending : PendingRecord} (hpending : session.pending = some pending) (workBytes : Nat)
    (polls : Nat → Bool) (w : W) :
    let work := pendingWork medium source workBytes polls (session, w)
    match advancePending medium source workBytes polls (session, w) with
    | (.ok outcome, next, _) => work = ⟨[], List.range' pending.cursor outcome.processed, []⟩ ∧
        ∃ total, total ≤ workBytes ∧ outcome.processed ≤ total ∧
          pending.cursor + total ≤ pending.span.stop ∧
          (outcome.status = .running → 0 < total) ∧
          Matched polls pending session 0 total outcome next
    | (.error _, next, _) => SameCursor session next ∧
        (work = .none ∨ ∃ n, n ≤ workBytes ∧ work = ⟨[], [], List.range' pending.cursor n⟩) := by
  simp only [advancePending, pendingWork, Exec.run_get_bind, hpending]
  by_cases hend : pending.cursor = pending.span.stop
  · rw [if_pos hend, if_pos hend]
    refine ⟨rfl, 0, Nat.zero_le _, Nat.le_refl _, Nat.le_of_eq hend, (fun h => by cases h), ?_⟩
    exact ⟨⟨pending.matcherState, rfl, rfl, rfl, hpending, rfl, rfl⟩, fun _ => rfl,
      fun _ => hend, fun h => by cases h⟩
  rw [if_neg hend, if_neg hend]
  generalize hrequest : min (min (pending.span.stop - pending.cursor)
    session.config.readBufferBytes) workBytes = request
  have hread := checkedReadAt_keeps source session pending.cursor request w
  rcases hrun : checkedReadAt source pending.cursor request (session, w) with
    ⟨error | bytes, next, w'⟩
  · rw [hrun] at hread
    rw [Exec.run_bind_error hrun]
    exact ⟨hread, .inl rfl⟩
  rw [hrun] at hread
  obtain ⟨rfl, hne, hlen⟩ := hread
  rw [Exec.run_bind_ok hrun]
  have hpos := List.length_pos_iff.mpr hne
  obtain ⟨⟨-, hhanded⟩, hloop⟩ := matchLoop_handed medium polls bytes 0
    pending.matcherState next w' hpending
  rw [Nat.zero_add] at hhanded
  dsimp only
  rcases hmatch : matchLoop medium pending polls bytes 0 pending.matcherState (next, w') with
    ⟨error | outcome, after, w''⟩
  · rw [hmatch] at hloop
    exact ⟨hloop, .inr ⟨_, by omega, rfl⟩⟩
  · rw [hmatch] at hloop
    obtain ⟨hprocessed, hmatched⟩ := hloop
    refine ⟨by rw [hprocessed], bytes.length, by omega, by omega, by omega, fun _ => hpos, ?_⟩
    exact hmatched

theorem completePending_same (session : QuerySession format) (w : W) :
    SameCursor { session with pending := none } (completePending (session, w)).2.1 := by
  simp only [completePending, Exec.run_modify_bind, Exec.run_get_bind]
  cases checkedAdd session.examinedRecords 1 with
  | none => exact .refl _
  | some examined => exact ⟨rfl, rfl, rfl, rfl, rfl, rfl⟩

theorem SameCursor.withPending {next : QuerySession format} (h : SameCursor session next)
    (pending : Option PendingRecord) :
    SameCursor { session with pending := pending } { next with pending := pending } :=
  ⟨h.snapshot, h.scanner, h.config, rfl, h.nextRow, h.status⟩

theorem SameCursor.withStatus {next : QuerySession format} (h : SameCursor session next)
    (status : QueryStepStatus) :
    SameCursor { session with status := status } { next with status := status } :=
  ⟨h.snapshot, h.scanner, h.config, h.pending, h.nextRow, rfl⟩

theorem pendingTurn_turned {pending : PendingRecord} (hpending : session.pending = some pending)
    (w : W) :
    let r := pendingTurn medium source remaining polls.feed (session, w)
    Turned document remaining polls session
      (pendingWork medium source remaining polls.feed (session, w)) r.1 r.2.1 := by
  intro r
  have hadvance := advancePending_handed source medium hpending
    remaining polls.feed w
  simp only [r, pendingTurn]
  rcases hrun : advancePending medium source remaining polls.feed (session, w) with
    ⟨error | ⟨n, status⟩, next, w'⟩
  · rw [hrun] at hadvance
    rw [Exec.run_bind_error hrun]
    obtain ⟨hsame, hnone | ⟨n, hle, hdropped⟩⟩ := hadvance
    · rw [hnone]
      exact .unmoved hsame
    · rw [hdropped]
      exact .dropped hle hsame
  rw [hrun] at hadvance
  obtain ⟨hwork, total, hle, hn, hstop, hpos, ⟨⟨state, hmoved⟩, hwhole, hcomplete, hcancelled⟩⟩ :=
    hadvance
  dsimp only at hwork hn hpos hmoved hwhole hcomplete hcancelled
  rw [Exec.run_bind_ok hrun, hwork]
  cases status with
  | running =>
    have hcount := hwhole (.inl rfl)
    have htotal := hpos rfl
    exact .matched hpending (by omega) (by omega) (by omega) hmoved
  | cancelled =>
    exact .stopped hpending (by omega) (by omega) (.inl ⟨rfl, hcancelled rfl⟩)
      (hmoved.withStatus _)
  | quotaExceeded details =>
    exact .stopped hpending (by omega) (by omega) (.inr ⟨details, rfl⟩) (hmoved.withStatus _)
  | complete =>
    have hdone := completePending_same next w'
    have hcleared : SameCursor { session with pending := none }
        (completePending (next, w')).2.1 := (hmoved.withPending none).trans hdone
    dsimp only
    rcases hrun' : completePending (next, w') with ⟨error | ⟨⟩, after, w''⟩
    · rw [hrun'] at hcleared
      rw [Exec.run_bind_error hrun']
      exact .completed hpending (by omega) (hcomplete rfl) hcleared (.inr ⟨_, rfl⟩)
    · rw [hrun'] at hcleared
      rw [Exec.run_bind_ok hrun']
      exact .completed hpending (by omega) (hcomplete rfl) hcleared (.inl rfl)

/-- The scanner is fed the chunk `bytes` read: what the session makes of the answer. -/
theorem advanceScanner_run {scanner : FormatScanner format} {bytes : List Byte} {w w' : W}
    (hscanner : session.scanner = some scanner) (workBytes : Nat) (polls : Nat → Bool)
    (hread : checkedReadAt source scanner.offset (min (min (session.sourceSnapshot.size -
      scanner.offset) session.config.readBufferBytes) workBytes) (session, w) =
        (.ok bytes, session, w')) :
    let fed := scanner.feedCancellable keepRecord ⟨session.config.cancellationCheckBytes,
      session.config.cancellationCheckBytes_pos, polls⟩ bytes none
    advanceScanner source workBytes polls (session, w) =
      match fed.result with
      | .error error => (.error (.scan error), session.scannedTo fed.scanner, w')
      | .ok progress =>
        match fed.sink with
        | none => (.ok progress, session.scannedTo fed.scanner, w')
        | some span => (queueRecord span >>= fun _ => pure progress :
            QueryM format W ScanProgress) (session.scannedTo fed.scanner, w') := by
  intro fed
  simp only [advanceScanner, Exec.run_get_bind, hscanner]
  rw [Exec.run_bind_ok hread, Exec.run_modify_bind]
  change (match fed.result with
    | .error error => Exec.throw (QueryError.scan error)
    | .ok progress =>
      match fed.sink with
      | none => pure progress
      | some span => (do
        queueRecord span
        pure progress) : QueryM format W ScanProgress) (session.scannedTo fed.scanner, w') = _
  cases fed.result with
  | error error => rfl
  | ok progress => cases fed.sink <;> rfl

theorem scannerTurn_turned (hsource : source.Reads document) {scanner : FormatScanner format}
    (hpending : session.pending = none) (hscanner : session.scanner = some scanner) (w : W) :
    let r := scannerTurn source remaining polls.feed (session, w)
    Turned document remaining polls session
      (scannerWork source remaining polls.feed (session, w)) r.1 r.2.1 := by
  intro r
  simp only [r, scannerTurn, scannerWork, hscanner]
  have hread := checkedReadAt_keeps source session scanner.offset
    (min (min (session.sourceSnapshot.size - scanner.offset) session.config.readBufferBytes)
      remaining) w
  have hanywhere : Stable source fun (_ : QuerySession format) (_ : W) => True :=
    ⟨fun _ _ _ _ => trivial, fun _ _ _ => trivial, fun _ _ _ _ _ => trivial⟩
  have hdocument := checkedReadAt_triple hsource hanywhere scanner.offset
    (min (min (session.sourceSnapshot.size - scanner.offset) session.config.readBufferBytes)
      remaining) (session, w) trivial
  rcases hrun : checkedReadAt source scanner.offset (min (min (session.sourceSnapshot.size -
    scanner.offset) session.config.readBufferBytes) remaining) (session, w) with
    ⟨error | chunk, next, w'⟩
  · rw [hrun] at hread
    have hadvance : advanceScanner source remaining polls.feed (session, w) =
        (.error error, next, w') := by
      simp only [advanceScanner, Exec.run_get_bind, hscanner]
      exact Exec.run_bind_error hrun
    rw [Exec.run_bind_error hadvance]
    exact .unmoved hread
  rw [hrun] at hread hdocument
  obtain ⟨rfl, hne, hlen⟩ := hread
  have hadvance := advanceScanner_run hscanner remaining polls.feed hrun
  have hfed := feed_fed scanner ⟨next.config.cancellationCheckBytes,
    next.config.cancellationCheckBytes_pos, polls.feed⟩ chunk
  refine .fed hpending hscanner hne (by omega) hdocument.1.2.2
    (show CancelCheck.isCancelled ⟨next.config.cancellationCheckBytes,
      next.config.cancellationCheckBytes_pos, polls.feed⟩ = polls.feed from rfl) ?_
  dsimp only at hadvance hfed ⊢
  generalize scanner.feedCancellable keepRecord ⟨next.config.cancellationCheckBytes,
    next.config.cancellationCheckBytes_pos, polls.feed⟩ chunk none = fed at hfed hadvance
  cases hfed with
  | complete hresult hsink hoffset =>
    rw [hresult, hsink] at hadvance
    rw [Exec.run_bind_ok hadvance, hresult]
    exact .quiet hresult hsink hoffset
  | cancelled hle hresult hsink hoffset hpoll =>
    rw [hresult, hsink] at hadvance
    rw [Exec.run_bind_ok hadvance, hresult]
    exact .cancelled hle hresult hsink hoffset hpoll
  | @stopped n span hle hresult hsink hoffset hfresh hwaiting =>
    rw [hresult, hsink] at hadvance
    dsimp only at hadvance
    rw [hresult]
    rcases queueRecord_cases span (next.scannedTo fed.scanner) w' with hqueue | ⟨hfull, hqueue⟩
    · rw [Exec.run_bind_ok hqueue] at hadvance
      rw [Exec.run_bind_ok hadvance]
      exact .queued hle hresult hsink hoffset hfresh hwaiting
    · rw [Exec.run_bind_error hqueue] at hadvance
      rw [Exec.run_bind_error hadvance]
      exact .crowded hle hresult hsink hfull
  | overflow hresult hoffset =>
    rw [hresult] at hadvance
    rw [Exec.run_bind_error hadvance, hresult]
    exact .failed hoffset hresult

theorem finishTurn_turned {scanner : FormatScanner format} (hpending : session.pending = none)
    (hscanner : session.scanner = some scanner)
    (hend : session.sourceSnapshot.size ≤ scanner.offset) (w : W) :
    let r := finishTurn remaining scanner (session, w)
    Turned document remaining polls session .none r.1 r.2.1 := by
  intro r
  refine .finished hpending hscanner hend ?_
  simp only [r, finishTurn, Exec.run_modify_bind, finish]
  cases scanner.lastRecord with
  | none => exact .complete ⟨rfl, rfl, rfl, rfl, rfl, rfl⟩
  | some span =>
    simp only [keepRecord]
    have hclosed : SameCursor ({ session with scanner := none } : QuerySession format)
        { session with scanner := none, csvDiagnostic := scanner.diagnostic } :=
      ⟨rfl, rfl, rfl, rfl, rfl, rfl⟩
    rcases queueRecord_cases span ({ session with
      scanner := none, csvDiagnostic := scanner.diagnostic } : QuerySession format) w with
      hqueue | ⟨hfull, hqueue⟩
    · rw [Exec.run_bind_ok hqueue]
      exact .queued ⟨rfl, rfl, rfl, rfl, rfl, rfl⟩
    · rw [Exec.run_bind_error hqueue]
      exact .crowded hfull hclosed

theorem turn_turned (medium : ScratchMedium W) (hsource : source.Reads document) (remaining : Nat)
    (polls : StepPolls) (session : QuerySession format) (w : W) :
    let r := turn medium source remaining polls (session, w)
    Turned document remaining polls session
      (turnWork medium source remaining polls (session, w)) r.1 r.2.1 := by
  intro r
  simp only [r, turn, turnWork]
  by_cases hentry : polls.entry
  · rw [if_pos hentry, if_pos hentry]
    exact .cancelled hentry
  rw [if_neg hentry, if_neg hentry]
  have hensure := ensureSourceUnchanged_keeps source session w
  rcases hrun : ensureSourceUnchanged source (session, w) with ⟨error | ⟨⟩, next, w'⟩
  · rw [hrun] at hensure
    rw [Exec.run_bind_error hrun]
    exact .unmoved hensure
  rw [hrun] at hensure
  obtain rfl : next = session := hensure
  rw [Exec.run_bind_ok hrun, Exec.run_get_bind]
  dsimp only
  cases hpending : next.pending with
  | some pending => exact pendingTurn_turned hpending w'
  | none =>
    simp only [Option.isSome_none, Bool.false_eq_true, if_false]
    cases hscanner : next.scanner with
    | none => exact .exhausted hpending hscanner
    | some scanner =>
      dsimp only
      by_cases hmore : scanner.offset < next.sourceSnapshot.size
      · rw [if_pos hmore, if_pos hmore]
        exact scannerTurn_turned hsource hpending hscanner w'
      · rw [if_neg hmore, if_neg hmore]
        exact finishTurn_turned hpending hscanner (Nat.le_of_not_lt hmore) w'

end Inversion

end Parts

end QuerySession

end LeanRows
