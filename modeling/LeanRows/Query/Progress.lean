import LeanRows.Query.Work
import LeanRows.Query.Runs

/-!
# Every call of a query ends

A turn either hands on bytes and lowers what is left of the budget, or hands on none and
lowers `stall`; so the loop of a call comes to an end within its budget. Between two calls
the bytes handed on are those of the document up to the scanner and to the pending cursor,
each once, so the calls of a schedule that neither fail nor finish are bounded as well.
-/

namespace LeanRows

set_option autoImplicit false

open BoundaryScanner

namespace QuerySession

variable {W : Type} {format : ViewportFormat} {document : List Byte}
  {source : PositionedRead W} {medium : ScratchMedium W} {session : QuerySession format}

/-! ### One call -/

/-- How many turns can still pass without a byte being handed on: a pending record is
completed, one that waits for its LF is delivered, the scanner is finished. -/
def stall (session : QuerySession format) : Nat :=
  session.pending.toList.length +
    match session.scanner with
    | none => 0
    | some scanner => 2 + 2 * scanner.pendingCrEnd.toList.length

theorem stall_eq {next : QuerySession format} (h : SameCursor session next) :
    next.stall = session.stall := by
  rw [stall, stall, h.pending, h.scanner]

theorem toList_length_le {α : Type} (x : Option α) : x.toList.length ≤ 1 := by
  cases x <;> simp

theorem stall_le (session : QuerySession format) : session.stall ≤ 5 := by
  have hpending := toList_length_le session.pending
  unfold stall
  cases session.scanner with
  | none =>
    dsimp only
    omega
  | some scanner =>
    have hwaiting := toList_length_le scanner.pendingCrEnd
    dsimp only
    omega

/-- What a turn makes of the budget. A turn that lets the loop go on lowers the measure
`6 * remaining + stall`: bytes handed on pay for whatever they make pending. -/
def Pays (polls : StepPolls) (remaining : Nat) (session : QuerySession format) (work : Work)
    (result : Except QueryError Turn) (next : QuerySession format) : Prop :=
  match result with
  | .ok (.next left) => left + work.bytes = remaining ∧ work.dropped = [] ∧
      next.status = session.status ∧ 6 * left + next.stall < 6 * remaining + session.stall
  | .ok (.done status) => work.bytes ≤ remaining ∧ work.dropped = [] ∧
      next.status = status ∧ status ≠ .running ∧
      (status = .cancelled → polls.entry = true ∨ ∃ i, polls.feed i = true)
  | .error _ => work.bytes ≤ remaining ∧ next.status = session.status

theorem bytes_scanned (start n : Nat) : Work.bytes ⟨List.range' start n, [], []⟩ = n := by
  simp [Work.bytes]

theorem bytes_matched (start n : Nat) : Work.bytes ⟨[], List.range' start n, []⟩ = n := by
  simp [Work.bytes]

theorem bytes_dropped (start n : Nat) : Work.bytes ⟨[], [], List.range' start n⟩ = n := by
  simp [Work.bytes]

theorem FedTurn.pays {polls : StepPolls} {remaining : Nat} {chunk : List Byte}
    {scanner : FormatScanner format} {fed : Feed format.rules (Option RecordSpan)} {work : Work}
    {result : Except QueryError Turn} {next : QuerySession format}
    (h : FedTurn remaining polls.feed session chunk scanner fed work result next)
    (hpending : session.pending = none) (hscanner : session.scanner = some scanner)
    (hne : chunk ≠ []) (hlen : chunk.length ≤ remaining) :
    Pays polls remaining session work result next := by
  have hpos := List.length_pos_iff.mpr hne
  have hstall := stall_le next
  have hbefore : session.stall = 2 + 2 * scanner.pendingCrEnd.toList.length := by
    rw [stall, hpending, hscanner]
    simp
  cases h with
  | quiet _ _ _ =>
    rw [Pays, bytes_scanned]
    exact ⟨by omega, rfl, rfl, by omega⟩
  | cancelled hle _ _ _ hpoll =>
    rw [Pays, bytes_scanned]
    exact ⟨by omega, rfl, rfl, by simp, fun _ => .inr hpoll⟩
  | @queued _ n span hle _ _ _ hfresh hwaiting =>
    rw [Pays, bytes_scanned]
    refine ⟨by omega, rfl, rfl, ?_⟩
    by_cases hzero : n = 0
    · -- no byte is taken: a record that waited for its LF is now pending
      have hone : scanner.pendingCrEnd.toList.length = 1 := by
        obtain ⟨stop, hstop⟩ := Option.isSome_iff_exists.mp (hwaiting hzero)
        rw [hstop]
        rfl
      have hafter : ((session.scannedTo fed.scanner).queued span).stall = 3 := by
        change 1 + (2 + 2 * fed.scanner.pendingCrEnd.toList.length) = 3
        rw [hfresh]
        rfl
      omega
    · omega
  | crowded hle _ _ _ =>
    rw [Pays, bytes_scanned]
    exact ⟨by omega, rfl⟩
  | failed hle _ =>
    rw [Pays, bytes_scanned]
    exact ⟨by omega, rfl⟩

theorem Turned.pays {polls : StepPolls} {remaining : Nat} {work : Work}
    {result : Except QueryError Turn} {next : QuerySession format}
    (h : Turned document remaining polls session work result next) :
    Pays polls remaining session work result next := by
  cases h with
  | cancelled hentry => exact ⟨Nat.zero_le _, rfl, rfl, by simp, fun _ => .inl hentry⟩
  | unmoved hsame => exact ⟨Nat.zero_le _, hsame.status⟩
  | @matched pending n state _ hpending hpos hle _ hmoved =>
    have hbefore : (session.movedBy pending n state).stall = session.stall := by
      simp [stall, movedBy, hpending]
    have hafter := stall_eq hmoved
    rw [Pays, bytes_matched]
    exact ⟨by omega, rfl, hmoved.status, by omega⟩
  | @completed pending n _ _ hpending hle _ hsame hresult =>
    have hstatus : next.status = session.status := hsame.status
    obtain rfl | ⟨error, rfl⟩ := hresult
    · have hbefore : session.stall =
          ({ session with pending := none } : QuerySession format).stall + 1 := by
        simp [stall, hpending, Nat.add_comm]
      have hafter := stall_eq hsame
      rw [Pays, bytes_matched]
      exact ⟨by omega, rfl, hstatus, by omega⟩
    · rw [Pays, bytes_matched]
      exact ⟨hle, hstatus⟩
  | stopped hpending hle _ hstatus hmoved =>
    rw [Pays, bytes_matched]
    refine ⟨hle, rfl, hmoved.status, ?_⟩
    obtain ⟨rfl, hpoll⟩ | ⟨details, rfl⟩ := hstatus
    · exact ⟨by simp, fun _ => .inr hpoll⟩
    · exact ⟨by simp, fun h => by cases h⟩
  | dropped hle hsame =>
    rw [Pays, bytes_dropped]
    exact ⟨hle, hsame.status⟩
  | fed hpending hscanner hne hlen _ _ hfed => exact hfed.pays hpending hscanner hne hlen
  | @finished scanner _ _ hpending hscanner _ hfinished =>
    generalize scanner.lastRecord = last at hfinished
    cases hfinished with
    | complete hsame => exact ⟨Nat.zero_le _, rfl, hsame.status, by simp, fun h => by cases h⟩
    | @queued span _ hsame =>
      have hbefore : session.stall ≥ 2 := by
        rw [stall, hpending, hscanner]
        simp
      have hafter : next.stall = 1 := by
        rw [stall_eq hsame]
        simp [stall, queued]
      exact ⟨rfl, rfl, hsame.status, by omega⟩
    | crowded _ hsame => exact ⟨Nat.zero_le _, hsame.status⟩
  | exhausted _ _ => exact ⟨Nat.zero_le _, rfl, rfl, by simp, fun h => by cases h⟩

/-- What a call has done: at most `budget` bytes of work, all of it if it is to go on, and
none of it is lost unless the call fails. -/
structure Worked (polls : Nat → StepPolls) (budget : Nat) (work : Work)
    (result : Except QueryError QueryStepStatus) : Prop where
  le : work.bytes ≤ budget
  kept : ∀ status, result = .ok status → work.dropped = []
  spent : result = .ok .running → work.bytes = budget
  cancelled : result = .ok .cancelled →
    ∃ i, (polls i).entry = true ∨ ∃ n, (polls i).feed n = true

theorem Worked.after {polls : Nat → StepPolls} {remaining left : Nat} {work rest : Work}
    {result : Except QueryError QueryStepStatus} (h : Worked polls left rest result)
    (hbytes : left + work.bytes = remaining) (hkept : work.dropped = []) :
    Worked polls remaining (work.append rest) result where
  le := by
    have hle := h.le
    rw [Work.bytes_append]
    omega
  kept status hstatus := by simp [Work.append, hkept, h.kept status hstatus]
  spent hstatus := by
    have hspent := h.spent hstatus
    rw [Work.bytes_append]
    omega
  cancelled := h.cancelled

/-- The loop comes to an end by itself within as many turns as the measure allows. -/
theorem advanceLoop_works (medium : ScratchMedium W) (hsource : source.Reads document)
    (polls : Nat → StepPolls) (fuel i remaining : Nat) (session : QuerySession format) (w : W)
    (hrunning : session.status = .running) (hfuel : 6 * remaining + session.stall < fuel) :
    let r := advanceLoop medium source polls fuel i remaining (session, w)
    LoopReturns medium source polls i remaining (session, w) r ∧
      Worked polls remaining (loopWork medium source polls fuel i remaining (session, w)) r.1 := by
  induction fuel generalizing i remaining session w with
  | zero => omega
  | succ fuel ih =>
    have hpays := (turn_turned medium hsource remaining (polls i) session w).pays
    dsimp only
    simp only [advanceLoop, loopWork]
    rcases hrun : turn medium source remaining (polls i) (session, w) with
      ⟨error | ⟨status | left⟩, next, w'⟩
    · rw [hrun] at hpays
      rw [Exec.run_bind_error hrun]
      refine ⟨.failed hrun, ?_⟩
      rw [Work.append_none]
      exact ⟨hpays.1, (fun _ h => by cases h), (fun h => by cases h), fun h => by cases h⟩
    · rw [hrun] at hpays
      rw [Exec.run_bind_ok hrun]
      obtain ⟨hle, hkept, -, hdone, hcancelled⟩ := hpays
      refine ⟨.done hrun, ?_⟩
      rw [Work.append_none]
      refine ⟨hle, fun _ _ => hkept, fun h => ?_, fun h => ⟨i, hcancelled ?_⟩⟩
      · cases h
        exact absurd rfl hdone
      · cases h
        rfl
    · rw [hrun] at hpays
      rw [Exec.run_bind_ok hrun]
      obtain ⟨hbytes, hkept, hstatus, hless⟩ := hpays
      have hgoing : next.status = .running := hstatus.trans hrunning
      dsimp only at hless ⊢
      by_cases hzero : left = 0
      · subst hzero
        rw [if_pos rfl, if_pos rfl, Exec.run_get_bind, Exec.run_pure, Work.append_none]
        refine ⟨.spent hrun, by omega, fun _ _ => hkept, fun _ => by omega, ?_⟩
        rw [hgoing]
        exact fun h => by cases h
      · rw [if_neg hzero, if_neg hzero]
        obtain ⟨hreturns, hworked⟩ := ih (i + 1) left next w' hgoing (by omega)
        exact ⟨.next hrun hzero hreturns, hworked.after hbytes hkept⟩

/-- A call with a budget ends, also from a session that no schedule leads to. -/
theorem advance_works (medium : ScratchMedium W) (hsource : source.Reads document)
    (call : AdvanceCall) (p : QuerySession format × W) (hbudget : 0 < call.maxWorkBytes) :
    Terminates medium source call p ∧
      ((p.1.status = .running ∨ p.1.status = .cancelled) →
        Worked call.polls call.maxWorkBytes (advanceWork medium source call p)
          (advance medium source call.maxWorkBytes call.polls p).1) := by
  obtain ⟨session, w⟩ := p
  have hstall := stall_le ({ session with status := .running } : QuerySession format)
  have hloop := advanceLoop_works medium hsource call.polls
    (turnBound call.maxWorkBytes) 0 call.maxWorkBytes
    ({ session with status := .running }) w rfl (by rw [turnBound]; omega)
  have hpositive : call.maxWorkBytes ≠ 0 := by omega
  have hrun : (session.status = .running ∨ session.status = .cancelled) →
      advance medium source call.maxWorkBytes call.polls (session, w) =
        advanceLoop medium source call.polls (turnBound call.maxWorkBytes) 0 call.maxWorkBytes
          ({ session with status := .running }, w) ∧
      advanceWork medium source call (session, w) =
        loopWork medium source call.polls (turnBound call.maxWorkBytes) 0 call.maxWorkBytes
          ({ session with status := .running }, w) := by
    intro hstatus
    rw [advance, if_neg hpositive, Exec.run_get_bind, advanceWork, if_neg hpositive]
    rcases hstatus with hstatus | hstatus
    · simp only [hstatus]
      exact ⟨rfl, trivial⟩
    · simp only [hstatus]
      exact ⟨rfl, trivial⟩
  refine ⟨fun hstatus => ?_, fun hstatus => ?_⟩
  · rw [(hrun hstatus).1]
    exact hloop.1
  · rw [(hrun hstatus).1, (hrun hstatus).2]
    exact hloop.2

theorem advance_bounded (hsource : source.Reads document) (call : AdvanceCall)
    (p : QuerySession format × W) :
    (advanceWork medium source call p).bytes ≤ call.maxWorkBytes ∧
      ∀ status, (advance medium source call.maxWorkBytes call.polls p).1 = .ok status →
        (advanceWork medium source call p).dropped = [] := by
  by_cases hgoing : 0 < call.maxWorkBytes ∧ (p.1.status = .running ∨ p.1.status = .cancelled)
  · have hworked := (advance_works medium hsource call p hgoing.1).2 hgoing.2
    exact ⟨hworked.le, hworked.kept⟩
  · have hnone : advanceWork medium source call p = .none := by
      rw [advanceWork]
      split
      · rfl
      rename_i hbudget
      split
      · rfl
      · rfl
      · rename_i hstatus
        exact absurd ⟨Nat.pos_of_ne_zero hbudget, .inl hstatus⟩ hgoing
      · rename_i hstatus
        exact absurd ⟨Nat.pos_of_ne_zero hbudget, .inr hstatus⟩ hgoing
    rw [hnone]
    exact ⟨Nat.zero_le _, fun _ _ => rfl⟩

/-! ### The bytes handed on between two calls -/

/-- The bytes of the records, record after record. -/
def spanBytes (spans : List RecordSpan) : List Nat :=
  spans.flatMap fun span => List.range' span.start (span.stop - span.start)

theorem spanBytes_append (spans spans' : List RecordSpan) :
    spanBytes (spans ++ spans') = spanBytes spans ++ spanBytes spans' :=
  List.flatMap_append

theorem spanBytes_singleton (span : RecordSpan) :
    spanBytes [span] = List.range' span.start (span.stop - span.start) := by
  simp [spanBytes]

theorem mem_spanBytes {spans : List RecordSpan} {offset : Nat} :
    offset ∈ spanBytes spans ↔ ∃ span ∈ spans, span.start ≤ offset ∧ offset < span.stop := by
  simp only [spanBytes, List.mem_flatMap, List.mem_range'_1]
  refine exists_congr fun span => and_congr_right fun _ => and_congr_right fun hstart => ?_
  have hle := span.start_le_stop
  omega

/-- No byte is in two records. -/
theorem spanBytes_pairwise (format : ViewportFormat) (document : List Byte) :
    (spanBytes (records format document)).Pairwise (· < ·) := by
  have hspans := records_pairwise format document
  generalize records format document = spans at hspans
  induction hspans with
  | nil => exact .nil
  | @cons span spans hfirst _ ih =>
    rw [← List.singleton_append, spanBytes_append, spanBytes_singleton, List.pairwise_append]
    refine ⟨List.pairwise_lt_range', ih, ?_⟩
    intro offset hoffset other hother
    obtain ⟨later, hlater, hstart, _⟩ := mem_spanBytes.mp hother
    have hbehind := (hfirst later hlater).1
    have hinside := (List.mem_range'_1.mp hoffset).2
    have hle := span.start_le_stop
    omega

theorem spanBytes_nodup (format : ViewportFormat) (document : List Byte) :
    (spanBytes (records format document)).Nodup :=
  (spanBytes_pairwise format document).imp Nat.ne_of_lt

theorem spanBytes_length_le (format : ViewportFormat) (document : List Byte) :
    (spanBytes (records format document)).length ≤ document.length := by
  have hinside : spanBytes (records format document) ⊆ List.range document.length := by
    intro offset hoffset
    obtain ⟨span, hspan, _, hstop⟩ := mem_spanBytes.mp hoffset
    have hle := record_stop_le hspan
    rw [List.mem_range]
    omega
  have hcount := ((spanBytes_nodup format document).subperm hinside).length_le
  rwa [List.length_range] at hcount

/-- The matcher has been handed the records delivered, up to the pending cursor. -/
def Consumed (pending : Option PendingRecord) (delivered : List RecordSpan)
    (matched : List Nat) : Prop :=
  match pending with
  | none => matched = spanBytes delivered
  | some pending => ∃ before, delivered = before ++ [pending.span] ∧
      pending.span.start ≤ pending.cursor ∧ pending.cursor ≤ pending.span.stop ∧
      matched = spanBytes before ++
        List.range' pending.span.start (pending.cursor - pending.span.start)

/-- The work so far is what the session's scanner and its pending record say. -/
structure Charged (document : List Byte) (work : Work) (session : QuerySession format) :
    Prop where
  size : session.sourceSnapshot.size = document.length
  scanned : work.scanned = List.range (session.scannerOffset.getD document.length)
  matched : ∃ delivered, Delivered document session.scanner delivered ∧
    delivered.length = session.nextRow ∧ Consumed session.pending delivered work.matched

theorem Charged.same {work : Work} {next : QuerySession format}
    (h : Charged document work session) (hsame : SameCursor session next) :
    Charged document work next where
  size := by rw [hsame.snapshot, h.size]
  scanned := by rw [scannerOffset, hsame.scanner, h.scanned, scannerOffset]
  matched := by
    rw [hsame.scanner, hsame.pending, hsame.nextRow]
    exact h.matched

theorem Charged.withStatus {work : Work} (h : Charged document work session)
    (status : QueryStepStatus) : Charged document work { session with status := status } :=
  ⟨h.size, h.scanned, h.matched⟩

theorem Charged.dropped {work : Work} (h : Charged document work session) (lost : List Nat) :
    Charged document (work.append ⟨[], [], lost⟩) session where
  size := h.size
  scanned := by simpa [Work.append] using h.scanned
  matched := by simpa [Work.append] using h.matched

/-- More bytes of the pending record have been matched. -/
theorem Charged.movedBy {work : Work} {pending : PendingRecord} {n : Nat}
    (h : Charged document work session) (hpending : session.pending = some pending)
    (hstop : pending.cursor + n ≤ pending.span.stop) (state : Nat) :
    Charged document (work.append ⟨[], List.range' pending.cursor n, []⟩)
      (session.movedBy pending n state) where
  size := h.size
  scanned := (List.append_nil _).trans h.scanned
  matched := by
    obtain ⟨delivered, hdelivered, hcount, hconsumed⟩ := h.matched
    rw [hpending] at hconsumed
    obtain ⟨before, rfl, hstart, _, hmatched⟩ := hconsumed
    refine ⟨_, hdelivered, hcount, before, rfl, by dsimp only; omega, hstop, ?_⟩
    have hadvance : List.range' pending.span.start (pending.cursor - pending.span.start) ++
        List.range' pending.cursor n =
          List.range' pending.span.start (pending.cursor + n - pending.span.start) := by
      have hjoin := List.range'_append_1 (s := pending.span.start)
        (m := pending.cursor - pending.span.start) (n := n)
      rw [Nat.add_sub_cancel' hstart] at hjoin
      rw [hjoin]
      congr 1
      omega
    simp only [Work.append, hmatched, List.append_assoc, hadvance]

theorem Charged.completed {work : Work} {pending : PendingRecord}
    (h : Charged document work session) (hpending : session.pending = some pending)
    (hend : pending.cursor = pending.span.stop) :
    Charged document work { session with pending := none } where
  size := h.size
  scanned := h.scanned
  matched := by
    obtain ⟨delivered, hdelivered, hcount, hconsumed⟩ := h.matched
    rw [hpending] at hconsumed
    obtain ⟨before, rfl, _, _, hmatched⟩ := hconsumed
    refine ⟨_, hdelivered, hcount, ?_⟩
    rw [Consumed, spanBytes_append, spanBytes_singleton, hmatched, hend]

/-- The scanner has delivered another record: none of its bytes has been matched. -/
theorem Charged.queued {work : Work} {delivered : List RecordSpan} {span : RecordSpan}
    (hsize : session.sourceSnapshot.size = document.length)
    (hscanned : work.scanned = List.range (session.scannerOffset.getD document.length))
    (hdelivered : Delivered document session.scanner (delivered ++ [span]))
    (hcount : delivered.length = session.nextRow) (hmatched : work.matched = spanBytes delivered) :
    Charged document work (session.queued span) where
  size := hsize
  scanned := hscanned
  matched := by
    refine ⟨_, hdelivered, by simp [QuerySession.queued, hcount], delivered, rfl,
      Nat.le_refl _, span.start_le_stop, ?_⟩
    simp [hmatched]

/-- There is a `u64` for the number of every record. -/
theorem Charged.row_lt {work : Work} (h : Charged document work session)
    {scanner : Option (FormatScanner format)} {delivered : List RecordSpan} {span : RecordSpan}
    (hdelivered : Delivered document scanner (delivered ++ [span]))
    (hcount : delivered.length = session.nextRow) : session.nextRow + 1 < u64Bound := by
  have hle := hdelivered.isPrefix.length_le
  have hrecords := records_length_le format document
  have hsize := session.sourceSnapshot.size_lt
  have hdocument := h.size
  rw [List.length_append, List.length_singleton] at hle
  omega

theorem FedTurn.charged {polls : Nat → Bool} {remaining : Nat} {chunk : List Byte}
    {scanner : FormatScanner format} {check : CancelCheck} {before work : Work}
    {result : Except QueryError Turn} {next : QuerySession format}
    (h : FedTurn remaining polls session chunk scanner
      (scanner.feedCancellable keepRecord check chunk none) work result next)
    (hcharged : Charged document before session) (hpending : session.pending = none)
    (hscanner : session.scanner = some scanner) (hchunk : chunk <+: document.drop scanner.offset) :
    Charged document (before.append work) next := by
  obtain ⟨delivered, hdelivered, hcount, hmatched⟩ := hcharged.matched
  rw [hscanner] at hdelivered
  rw [hpending] at hmatched
  have hsize := hcharged.size
  obtain ⟨progress, hok, hfed⟩ := feed_delivered hdelivered
    (hsize ▸ session.sourceSnapshot.size_lt) hchunk check
  have hscanned := hcharged.scanned
  rw [scannerOffset, hscanner] at hscanned
  generalize scanner.feedCancellable keepRecord check chunk none = fed at h hok hfed
  have hjoin : ∀ n, fed.scanner.offset = scanner.offset + n →
      before.scanned ++ List.range' scanner.offset n =
        List.range ((session.scannedTo fed.scanner).scannerOffset.getD document.length) := by
    intro n hoffset
    have hrange := List.range'_append_1 (s := 0) (m := scanner.offset) (n := n)
    rw [Nat.zero_add] at hrange
    simp only [hscanned, Option.map_some, Option.getD_some, scannerOffset, scannedTo, hoffset,
      List.range_eq_range', hrange]
  have hquiet : ∀ n, fed.scanner.offset = scanner.offset + n → fed.sink = none →
      Charged document (before.append ⟨List.range' scanner.offset n, [], []⟩)
        (session.scannedTo fed.scanner) := by
    intro n hoffset hsink
    rw [hsink, Option.toList_none, List.append_nil] at hfed
    refine ⟨hsize, hjoin n hoffset, delivered, hfed, hcount, ?_⟩
    rw [scannedTo, hpending]
    simpa [Work.append, Consumed] using hmatched
  cases h with
  | quiet _ hsink hoffset => exact hquiet _ hoffset hsink
  | cancelled _ _ hsink hoffset _ => exact (hquiet _ hoffset hsink).withStatus .cancelled
  | @queued _ n span _ _ hsink hoffset _ _ =>
    rw [hsink, Option.toList_some] at hfed
    refine .queued hsize (hjoin n hoffset) hfed hcount ?_
    simpa [Work.append, Consumed] using hmatched
  | crowded _ _ hsink hfull =>
    rw [hsink, Option.toList_some] at hfed
    have hroom := hcharged.row_lt hfed hcount
    omega
  | failed _ herror =>
    rw [herror] at hok
    cases hok

theorem FinishedTurn.charged {remaining : Nat} {scanner : FormatScanner format} {work : Work}
    {result : Except QueryError Turn} {next : QuerySession format}
    (h : FinishedTurn remaining session scanner.lastRecord result next)
    (hcharged : Charged document work session) (hpending : session.pending = none)
    (hscanner : session.scanner = some scanner)
    (hend : session.sourceSnapshot.size ≤ scanner.offset) : Charged document work next := by
  obtain ⟨delivered, hdelivered, hcount, hmatched⟩ := hcharged.matched
  rw [hscanner] at hdelivered
  rw [hpending] at hmatched
  have hsize := hcharged.size
  have hrecords := hdelivered.ended (hsize ▸ hend)
  have hscanned := hcharged.scanned
  rw [scannerOffset, hscanner, Option.map_some, Option.getD_some,
    Nat.le_antisymm hdelivered.offset_le (hsize ▸ hend)] at hscanned
  generalize scanner.lastRecord = last at h hrecords
  cases h with
  | complete hsame =>
    rw [Option.toList_none, List.append_nil] at hrecords
    have hclosed : Charged document work
        ({ session with scanner := none, status := .complete } : QuerySession format) := by
      refine ⟨hsize, hscanned, delivered, hrecords.symm, hcount, ?_⟩
      rw [hpending]
      exact hmatched
    exact hclosed.same hsame
  | @queued span _ hsame =>
    have hall : Delivered document (none : Option (FormatScanner format))
        (delivered ++ [span]) := hrecords.symm
    have hqueued : Charged document work
        (({ session with scanner := none } : QuerySession format).queued span) :=
      .queued hsize hscanned hall hcount hmatched
    exact hqueued.same hsame
  | @crowded span _ hfull _ =>
    have hall : Delivered document (none : Option (FormatScanner format))
        (delivered ++ [span]) := hrecords.symm
    have hroom := hcharged.row_lt hall hcount
    omega

theorem Turned.charged {polls : StepPolls} {remaining : Nat} {before work : Work}
    {result : Except QueryError Turn} {next : QuerySession format}
    (h : Turned document remaining polls session work result next)
    (hcharged : Charged document before session) :
    Charged document (before.append work) next := by
  cases h with
  | cancelled _ =>
    rw [Work.append_none]
    exact hcharged.withStatus .cancelled
  | unmoved hsame =>
    rw [Work.append_none]
    exact hcharged.same hsame
  | matched hpending _ _ hstop hmoved => exact (hcharged.movedBy hpending hstop _).same hmoved
  | @completed pending n _ _ hpending _ hend hsame _ =>
    have hmoved := hcharged.movedBy hpending (Nat.le_of_eq hend) 0
    exact (hmoved.completed rfl hend).same hsame
  | stopped hpending _ hstop _ hmoved =>
    exact ((hcharged.movedBy hpending hstop _).withStatus _).same hmoved
  | dropped _ hsame => exact (hcharged.dropped _).same hsame
  | fed hpending hscanner _ _ hchunk _ hfed =>
    exact hfed.charged hcharged hpending hscanner hchunk
  | finished hpending hscanner hend hfinished =>
    rw [Work.append_none]
    exact hfinished.charged hcharged hpending hscanner hend
  | exhausted _ _ =>
    rw [Work.append_none]
    exact hcharged.withStatus .complete

/-- A query completes with its scanner finished and no record pending. -/
theorem Turned.finished_of_complete {polls : StepPolls} {remaining : Nat} {work : Work}
    {next : QuerySession format}
    (h : Turned document remaining polls session work (.ok (.done .complete)) next) :
    next.scanner = none ∧ next.pending = none := by
  generalize hresult : (.ok (.done .complete) : Except QueryError Turn) = result at h
  cases h with
  | cancelled _ => cases hresult
  | unmoved _ => cases hresult
  | matched _ _ _ _ _ => cases hresult
  | completed _ _ _ _ hend => obtain rfl | ⟨_, rfl⟩ := hend <;> cases hresult
  | stopped _ _ _ hstatus _ =>
    cases hresult
    obtain ⟨h, _⟩ | ⟨_, h⟩ := hstatus <;> cases h
  | dropped _ _ => cases hresult
  | fed _ _ _ _ _ _ hfed => cases hfed <;> cases hresult
  | @finished scanner _ _ hpending _ _ hfinished =>
    generalize scanner.lastRecord = last at hfinished
    cases hfinished with
    | complete hsame => exact ⟨hsame.scanner, hsame.pending.trans hpending⟩
    | queued _ => cases hresult
    | crowded _ _ => cases hresult
  | exhausted hpending hscanner => exact ⟨hscanner, hpending⟩

/-! ### Schedules of calls -/

/-- The invariant of a session and its work between two calls. -/
structure Settled (document : List Byte) (work : Work) (session : QuerySession format) :
    Prop where
  charged : Charged document work session
  complete : session.status = .complete → session.scanner = none ∧ session.pending = none

theorem advanceLoop_settled (hsource : source.Reads document) (polls : Nat → StepPolls)
    (fuel i remaining : Nat) (work : Work) (session : QuerySession format) (w : W)
    (hrunning : session.status = .running) (h : Charged document work session) :
    Settled document
      (work.append (loopWork medium source polls fuel i remaining (session, w)))
      (advanceLoop medium source polls fuel i remaining (session, w)).2.1 := by
  have hgoing : ∀ {work : Work} {session : QuerySession format}, session.status = .running →
      Charged document work session → Settled document work session := by
    intro work session hrunning h
    refine ⟨h, fun hcomplete => ?_⟩
    rw [hrunning] at hcomplete
    cases hcomplete
  induction fuel generalizing i remaining work session w with
  | zero => exact hgoing hrunning (h.dropped [])
  | succ fuel ih =>
    have hturned := turn_turned medium hsource remaining (polls i) session w
    dsimp only at hturned
    simp only [advanceLoop, loopWork, ← Work.append_assoc]
    have hpays := hturned.pays
    have hnext := hturned.charged h
    rcases hrun : turn medium source remaining (polls i) (session, w) with
      ⟨error | ⟨status | left⟩, next, w'⟩
    · rw [hrun] at hpays hnext
      rw [Exec.run_bind_error hrun, Work.append_none]
      exact hgoing (hpays.2.trans hrunning) hnext
    · rw [hrun] at hpays hnext hturned
      rw [Exec.run_bind_ok hrun, Work.append_none]
      refine ⟨hnext, fun hcomplete => ?_⟩
      obtain rfl : status = .complete := hpays.2.2.1.symm.trans hcomplete
      exact hturned.finished_of_complete
    · rw [hrun] at hpays hnext
      rw [Exec.run_bind_ok hrun]
      have hstill : next.status = .running := hpays.2.2.1.trans hrunning
      dsimp only
      by_cases hzero : left = 0
      · rw [if_pos hzero, if_pos hzero, Work.append_none]
        exact hgoing hstill hnext
      · rw [if_neg hzero, if_neg hzero]
        exact ih (i + 1) left _ next w' hstill hnext

theorem Settled.same {work : Work} {next : QuerySession format}
    (h : Settled document work session) (hsame : SameCursor session next) :
    Settled document work next where
  charged := h.charged.same hsame
  complete hcomplete := by
    rw [hsame.status] at hcomplete
    rw [hsame.scanner, hsame.pending]
    exact h.complete hcomplete

/-- A finished session checks its source and nothing else. -/
theorem finished_same (status : QueryStepStatus) (cancelled : Bool) (session : QuerySession format)
    (w : W) :
    SameCursor session
      ((if cancelled then pure status
        else do
          ensureSourceUnchanged source
          pure status : QueryM format W QueryStepStatus) (session, w)).2.1 := by
  cases cancelled with
  | true => exact .refl _
  | false =>
    rw [if_neg Bool.false_ne_true]
    have hensure := ensureSourceUnchanged_keeps source session w
    rcases hrun : ensureSourceUnchanged source (session, w) with ⟨error | ⟨⟩, next, w'⟩
    · rw [hrun] at hensure
      rw [Exec.run_bind_error hrun]
      exact hensure
    · rw [hrun] at hensure
      obtain rfl : next = session := hensure
      rw [Exec.run_bind_ok hrun]
      exact .refl _

theorem advance_settled (hsource : source.Reads document) (call : AdvanceCall) {work : Work}
    (h : Settled document work session) (w : W) :
    Settled document (work.append (advanceWork medium source call (session, w)))
      (advance medium source call.maxWorkBytes call.polls (session, w)).2.1 := by
  rw [advance, advanceWork]
  by_cases hzero : call.maxWorkBytes = 0
  · rw [if_pos hzero, if_pos hzero, Work.append_none]
    exact h
  rw [if_neg hzero, if_neg hzero, Exec.run_get_bind]
  dsimp only
  cases hstatus : session.status with
  | running =>
    exact advanceLoop_settled hsource call.polls _ 0 _ work _ w rfl
      (h.charged.withStatus .running)
  | cancelled =>
    exact advanceLoop_settled hsource call.polls _ 0 _ work _ w rfl
      (h.charged.withStatus .running)
  | complete =>
    rw [Work.append_none]
    exact h.same (finished_same _ _ session w)
  | quotaExceeded details =>
    rw [Work.append_none]
    exact h.same (finished_same _ _ session w)

theorem advances_settled (hsource : source.Reads document) (calls : List AdvanceCall)
    {work : Work} (p : QuerySession format × W) (h : Settled document work p.1) :
    Settled document (work.append (advancesWork medium source calls p))
      (advances medium source calls p).1 := by
  induction calls generalizing p work with
  | nil =>
    rw [advancesWork, Work.append_none]
    exact h
  | cons call calls ih =>
    rw [advancesWork, ← Work.append_assoc]
    exact ih _ (advance_settled hsource call h p.2)

theorem new_settled (hsource : source.Reads document) {literal : Literal}
    {config : QuerySessionConfig} {owner : List Byte} {w w' : W}
    (hnew : new source format literal config owner w = (.ok session, w')) :
    Settled document .none session := by
  rw [new] at hnew
  rcases hrun : source.capture QueryError.io w with ⟨error | snapshot, w₁⟩
  · rw [Exec.run_bind_error hrun] at hnew
    cases hnew
  rw [Exec.run_bind_ok hrun] at hnew
  cases hnew
  refine ⟨⟨?_, rfl, [], .refl _ _, rfl, rfl⟩, fun h => by cases h⟩
  apply hsource.size w
  have hcapture := congrArg Prod.fst hrun
  simp only [PositionedRead.capture] at hcapture
  cases hfingerprint : (source.fingerprint w).1 with
  | error e => simp [hfingerprint, Except.mapError] at hcapture
  | ok current =>
    simp only [hfingerprint, Except.mapError, Except.ok.injEq] at hcapture
    rw [hcapture]

/-- The bytes of work whose progress the session keeps are at most the document's, twice. -/
theorem Charged.bytes_le {work : Work} (h : Charged document work session) :
    work.scanned.length + work.matched.length ≤ 2 * document.length := by
  obtain ⟨delivered, hdelivered, -, hmatched⟩ := h.matched
  have hscanned : work.scanned.length ≤ document.length := by
    rw [h.scanned, List.length_range, scannerOffset]
    cases hscanner : session.scanner with
    | none => exact Nat.le_refl _
    | some scanner =>
      rw [hscanner] at hdelivered
      exact hdelivered.offset_le
  have hfront : work.matched.length ≤ (spanBytes (records format document)).length := by
    obtain ⟨rest, hrest⟩ := hdelivered.isPrefix
    rw [← hrest, spanBytes_append, List.length_append]
    cases hpending : session.pending with
    | none =>
      rw [hpending] at hmatched
      rw [show work.matched = _ from hmatched]
      omega
    | some pending =>
      rw [hpending] at hmatched
      obtain ⟨before, rfl, hstart, hstop, hbytes⟩ := hmatched
      rw [hbytes, spanBytes_append, spanBytes_singleton]
      simp only [List.length_append, List.length_range']
      omega
  have hspans := spanBytes_length_le format document
  omega

/-- No poll of the call finds its token cancelled. -/
def AdvanceCall.Uncancelled (call : AdvanceCall) : Prop :=
  ∀ i, (call.polls i).entry = false ∧ ∀ n, (call.polls i).feed n = false

/-- The query has nothing more to do, or the call has failed. -/
def Ends : Except QueryError QueryStepStatus → Prop
  | .ok .running | .ok .cancelled => False
  | .ok .complete | .ok (.quotaExceeded _) | .error _ => True

/-- An uncancelled call that does not end the query has handed on a byte for good. -/
theorem advance_progress (hsource : source.Reads document) (call : AdvanceCall)
    (p : QuerySession format × W) (hbudget : 0 < call.maxWorkBytes)
    (huncancelled : call.Uncancelled)
    (hgoing : ¬ Ends (advance medium source call.maxWorkBytes call.polls p).1) :
    0 < (advanceWork medium source call p).kept := by
  have hworked := (advance_works medium hsource call p hbudget).2
  have hstatus : p.1.status = .running ∨ p.1.status = .cancelled := by
    by_contra hdone
    apply hgoing
    obtain ⟨session, w⟩ := p
    have hfinished : ∀ status : QueryStepStatus, Ends (.ok status) → Ends
        ((if (call.polls 0).entry then pure status
          else do
            ensureSourceUnchanged source
            pure status : QueryM format W QueryStepStatus) (session, w)).1 := by
      intro status hends
      split
      · exact hends
      rcases hrun : ensureSourceUnchanged source (session, w) with ⟨error | ⟨⟩, next, w'⟩
      · rw [Exec.run_bind_error hrun]
        trivial
      · rw [Exec.run_bind_ok hrun]
        exact hends
    have hpositive : call.maxWorkBytes ≠ 0 := by omega
    rw [advance, if_neg hpositive, Exec.run_get_bind]
    cases hcase : session.status with
    | running => exact absurd (.inl hcase) hdone
    | cancelled => exact absurd (.inr hcase) hdone
    | complete => exact hfinished _ trivial
    | quotaExceeded details => exact hfinished _ trivial
  have hwork := hworked hstatus
  have hresult : (advance medium source call.maxWorkBytes call.polls p).1 = .ok .running := by
    have hcancelled := hwork.cancelled
    generalize (advance medium source call.maxWorkBytes call.polls p).1 = result
      at hgoing hcancelled
    rcases result with error | status
    · exact absurd trivial hgoing
    cases status with
    | running => rfl
    | complete => exact absurd trivial hgoing
    | quotaExceeded details => exact absurd trivial hgoing
    | cancelled =>
      obtain ⟨i, hentry | ⟨n, hfeed⟩⟩ := hcancelled rfl
      · rw [(huncancelled i).1] at hentry
        cases hentry
      · rw [(huncancelled i).2 n] at hfeed
        cases hfeed
  rw [Work.kept_eq_bytes (hwork.kept _ hresult), hwork.spent hresult]
  exact hbudget

/-- Every call asked for that does not end the query keeps at least one byte. -/
theorem advances_progress (medium : ScratchMedium W) (hsource : source.Reads document)
    {calls asked : List AdvanceCall}
    (hasked : asked.Sublist calls) (p : QuerySession format × W)
    (hcalls : ∀ call ∈ asked, 0 < call.maxWorkBytes ∧ call.Uncancelled)
    (hgoing : ∀ before call after, calls = before ++ call :: after → call ∈ asked →
      ¬ Ends (advance medium source call.maxWorkBytes call.polls
        (advances medium source before p)).1) :
    asked.length ≤ (advancesWork medium source calls p).kept := by
  induction hasked generalizing p with
  | slnil => exact Nat.zero_le _
  | @cons asked calls call _ ih =>
    rw [advancesWork, Work.kept_append]
    have hrest := ih (advance medium source call.maxWorkBytes call.polls p).2 hcalls
      (fun before later after heq hmem => hgoing (call :: before) later after
        (congrArg (call :: ·) heq) hmem)
    omega
  | @cons_cons asked calls call _ ih =>
    rw [advancesWork, Work.kept_append, List.length_cons]
    have hhere := hcalls call List.mem_cons_self
    have hfirst := advance_progress hsource call p hhere.1 hhere.2
      (hgoing [] call calls rfl List.mem_cons_self)
    have hrest := ih (advance medium source call.maxWorkBytes call.polls p).2
      (fun later hmem => hcalls later (List.mem_cons_of_mem _ hmem))
      (fun before later after heq hmem => hgoing (call :: before) later after
        (congrArg (call :: ·) heq) (List.mem_cons_of_mem _ hmem))
    omega

/-- The work of calls that all succeed is all kept. -/
theorem advancesWork_dropped (hsource : source.Reads document) (calls : List AdvanceCall)
    (p : QuerySession format × W)
    (hok : ∀ before call after, calls = before ++ call :: after → ∃ status,
      (advance medium source call.maxWorkBytes call.polls
        (advances medium source before p)).1 = .ok status) :
    (advancesWork medium source calls p).dropped = [] := by
  induction calls generalizing p with
  | nil => rfl
  | cons call calls ih =>
    obtain ⟨status, hstatus⟩ := hok [] call calls rfl
    have hhere := (advance_bounded hsource call p).2 status hstatus
    have hrest := ih (advance medium source call.maxWorkBytes call.polls p).2
      fun before later after heq => hok (call :: before) later after
        (congrArg (call :: ·) heq)
    rw [advancesWork, Work.append, hhere, hrest]
    rfl

/-- Every call with a budget ends and hands on no more bytes than it allows. Once a query is
complete, its calls have handed every byte of the document to the scanner once, and every
byte of a record to the matcher once, besides what failed calls have dropped. Uncancelled
calls end the query, or one of them fails, before they are twice as many as the bytes. -/
theorem calls_hand_on_once (medium : ScratchMedium W) (hsource : source.Reads document)
    {literal : Literal}
    {config : QuerySessionConfig} {owner : List Byte} {w w' : W}
    (hnew : new source format literal config owner w = (.ok session, w')) :
    (∀ (call : AdvanceCall) (p : QuerySession format × W), 0 < call.maxWorkBytes →
      Terminates medium source call p ∧
        (advanceWork medium source call p).bytes ≤ call.maxWorkBytes ∧
        ∀ status, (advance medium source call.maxWorkBytes call.polls p).1 = .ok status →
          (advanceWork medium source call p).dropped = []) ∧
    (∀ calls : List AdvanceCall,
      (advances medium source calls (session, w')).1.status = .complete →
      let work := advancesWork medium source calls (session, w')
      work.scanned = List.range document.length ∧
        work.matched = spanBytes (records format document) ∧ work.matched.Nodup ∧
        ((∀ before call after, calls = before ++ call :: after → ∃ status,
          (advance medium source call.maxWorkBytes call.polls
            (advances medium source before (session, w'))).1 = .ok status) →
          work.dropped = [])) ∧
    ∀ calls asked : List AdvanceCall, asked.Sublist calls →
      (∀ call ∈ asked, 0 < call.maxWorkBytes ∧ call.Uncancelled) →
      2 * document.length < asked.length →
      ∃ before call after, calls = before ++ call :: after ∧ call ∈ asked ∧
        Ends (advance medium source call.maxWorkBytes call.polls
          (advances medium source before (session, w'))).1 := by
  have hsettled := new_settled hsource hnew
  have hafter : ∀ calls : List AdvanceCall,
      Settled document (advancesWork medium source calls (session, w'))
        (advances medium source calls (session, w')).1 :=
    fun calls => advances_settled hsource calls (session, w') hsettled
  refine ⟨fun call p hbudget => ⟨(advance_works medium hsource call p hbudget).1,
    advance_bounded hsource call p⟩, ?_, ?_⟩
  · intro calls hcomplete work
    obtain ⟨hcharged, hfinished⟩ := hafter calls
    obtain ⟨hscanner, hpending⟩ := hfinished hcomplete
    obtain ⟨delivered, hdelivered, -, hmatched⟩ := hcharged.matched
    have hscanned := hcharged.scanned
    rw [scannerOffset, hscanner] at hscanned
    rw [hscanner] at hdelivered
    rw [hpending] at hmatched
    have hall : work.matched = spanBytes (records format document) := by
      rw [← show delivered = records format document from hdelivered]
      exact hmatched
    refine ⟨hscanned, hall, ?_, advancesWork_dropped hsource calls (session, w')⟩
    rw [hall]
    exact spanBytes_nodup format document
  · intro calls asked hasked hcalls hmany
    by_contra hnone
    have hkept := advances_progress medium hsource hasked (session, w') hcalls
      fun before call after heq hmem hends => hnone ⟨before, call, after, heq, hmem, hends⟩
    have hbound := (hafter calls).charged.bytes_le
    rw [Work.kept] at hkept
    omega

theorem calls_hand_on_once_three :
    let source := PositionedRead.ofBytesIn Nat [97, lf, 97] (by decide)
    let work := advancesWork (failingDisk []) source [uninterrupted 3, uninterrupted 3]
      (smallSession [97, lf, 97] (by decide) 200 (by decide), 0)
    work.scanned = [0, 1, 2] ∧ work.matched = [0, 2] := by
  intro source work
  have hnew := smallSession_new Nat 0 [97, lf, 97] (by decide) 200 (by decide)
  have hcomplete : (advances (failingDisk []) source [uninterrupted 3, uninterrupted 3]
      (smallSession [97, lf, 97] (by decide) 200 (by decide), 0)).1.status = .complete := by
    decide +kernel
  have honce := (calls_hand_on_once (failingDisk [])
    (PositionedRead.ofBytesIn_reads Nat [97, lf, 97] (by decide)) hnew).2.1 _ hcomplete
  exact ⟨honce.1, honce.2.1.trans (by decide +kernel)⟩

end QuerySession

end LeanRows
