import LeanRows.Segmentation

/-!
# Scanning in pieces

A caller feeds the unread bytes a chunk at a time, takes up again at the `consumed` offset
after a cancellation or a Stop, and finishes at the end of the bytes. However the document
is cut and the calls are stopped, the records and the diagnostic are the reference ones.
-/

namespace LeanRows

set_option autoImplicit false

open BoundaryScanner

/-- One feed call: how many of the unread bytes are its chunk, what the token answers, and
what the sink answers to a record after the records delivered before it. -/
structure FeedCall where
  size : Nat
  cancel : Option CancelCheck
  sink : List RecordSpan → RecordSpan → EmitControl

def FeedCall.emit (call : FeedCall) (span : RecordSpan) (delivered : List RecordSpan) :
    EmitControl × List RecordSpan :=
  (call.sink delivered span, delivered ++ [span])

/-- A scan between two calls. -/
structure ScanRun (format : ViewportFormat) where
  scanner : FormatScanner format
  delivered : List RecordSpan
  unread : List Byte

namespace ScanRun

variable {format : ViewportFormat}

def start (format : ViewportFormat) (document : List Byte) : ScanRun format :=
  ⟨atOffset format.rules 0, [], document⟩

/-- The call, and the caller's resumption at the offset it reports. -/
def feedCall (run : ScanRun format) (call : FeedCall) : Except ScanError (ScanRun format) :=
  let r := feedInner call.cancel call.emit (run.unread.take call.size) 0 run.scanner
    run.delivered
  match r.result with
  | .error e => .error e
  | .ok progress => .ok ⟨r.scanner, r.sink, run.unread.drop progress.consumed⟩

def feedCalls (run : ScanRun format) (calls : List FeedCall) :
    Except ScanError (ScanRun format) :=
  calls.foldlM feedCall run

/-- The call that takes whatever is unread and is stopped by nothing. -/
def lastCall (run : ScanRun format) : FeedCall :=
  ⟨run.unread.length, none, fun _ _ => .continue⟩

/-- Any calls, one that reads to the end of the bytes, and `finish`. -/
def scanAll (format : ViewportFormat) (document : List Byte) (calls : List FeedCall)
    (last : RecordSpan → EmitControl) :
    Except ScanError (List RecordSpan × Option CsvDiagnostic) := do
  let run ← (start format document).feedCalls calls
  let run ← run.feedCall run.lastCall
  let finished := run.scanner.finish (fun span delivered => (last span, delivered ++ [span]))
    run.delivered
  return (finished.sink, finished.diagnostic)

/-- The scanner got where it is by steps over the document that delivered these records. -/
def Sound (document : List Byte) (run : ScanRun format) : Prop :=
  Scans (atOffset format.rules 0) document run.delivered run.scanner run.unread

theorem start_sound (format : ViewportFormat) (document : List Byte) :
    Sound document (start format document) :=
  .refl _ _

theorem delivers_append {call : FeedCall} {delivered delivered' spans : List RecordSpan}
    {control : EmitControl} (h : Delivers call.emit delivered spans control delivered') :
    delivered' = delivered ++ spans := by
  induction h with
  | nil => simp
  | stop hemit => exact (congrArg Prod.snd hemit).symm
  | «continue» hemit _ ih =>
    have hsink := congrArg Prod.snd hemit
    simp only [FeedCall.emit] at hsink
    simp [ih, ← hsink]

/-- One call: the run stays sound, and it can only fail on a document no `u64` spans. -/
theorem feedCall_sound {document : List Byte} {run : ScanRun format} (hrun : Sound document run)
    (call : FeedCall) :
    (∃ next, run.feedCall call = .ok next ∧ Sound document next) ∨
      run.feedCall call = .error .offsetOverflow ∧ u64Bound ≤ document.length := by
  obtain ⟨spans, rest, control, s', h⟩ := feedInner_steps call.cancel call.emit
    (run.unread.take call.size) 0 run.scanner run.delivered
  have hscans := hrun.trans (by
    simpa [List.take_append_drop] using h.scans.append (run.unread.drop call.size))
  have hlen := hscans.offset_eq
  have htake : run.unread.drop ((run.unread.take call.size).length - rest.length) =
      rest ++ run.unread.drop call.size := by
    simpa [-List.length_take] using drop_taken h.scans.suffix (run.unread.drop call.size)
  have hok : ∀ status,
      (feedInner call.cancel call.emit (run.unread.take call.size) 0 run.scanner
        run.delivered).result =
          .ok ⟨0 + ((run.unread.take call.size).length - rest.length), status⟩ →
      ∃ next, run.feedCall call = .ok next ∧ Sound document next := by
    intro status hres
    refine ⟨_, by simp only [feedCall, hres]; rfl, ?_⟩
    rw [Sound, h.scanner _ hres, delivers_append h.delivers, Nat.zero_add, htake]
    exact hscans
  have hans := h.answers
  generalize hres : (feedInner call.cancel call.emit (run.unread.take call.size) 0 run.scanner
    run.delivered).result = result at hans hok
  cases hans with
  | complete _ => exact .inl (hok _ rfl)
  | stopped => exact .inl (hok _ rfl)
  | cancelled _ _ => exact .inl (hok _ rfl)
  | overflow hne hover =>
    refine .inr ⟨by simp only [feedCall, hres], ?_⟩
    have hpos := List.length_pos_iff.mpr hne
    rw [atOffset_offset, List.length_append] at hlen
    omega

theorem feedCalls_sound {document : List Byte} {run : ScanRun format}
    (hrun : Sound document run) (calls : List FeedCall) :
    (∃ next, run.feedCalls calls = .ok next ∧ Sound document next) ∨
      run.feedCalls calls = .error .offsetOverflow ∧ u64Bound ≤ document.length := by
  induction calls generalizing run with
  | nil => exact .inl ⟨run, rfl, hrun⟩
  | cons call calls ih =>
    rcases feedCall_sound hrun call with ⟨next, hnext, hsound⟩ | ⟨herror, hlong⟩
    · rw [feedCalls, List.foldlM_cons, hnext]
      exact ih hsound
    · exact .inr ⟨by rw [feedCalls, List.foldlM_cons, herror]; rfl, hlong⟩

/-- A call that nothing stops leaves no byte unread. -/
theorem lastCall_unread {run next : ScanRun format}
    (h : run.feedCall run.lastCall = .ok next) : next.unread = [] := by
  obtain ⟨spans, rest, control, s', hsteps⟩ := feedInner_steps run.lastCall.cancel
    run.lastCall.emit (run.unread.take run.lastCall.size) 0 run.scanner run.delivered
  have hcontinue := (hsteps.delivers.of_continue fun _ _ => rfl).1
  have hans := hsteps.answers
  rw [feedCall] at h
  generalize (feedInner run.lastCall.cancel run.lastCall.emit
    (run.unread.take run.lastCall.size) 0 run.scanner run.delivered).result = result at h hans
  subst hcontinue
  cases hans with
  | complete hrest =>
    cases h
    simp [hrest, lastCall]
  | cancelled _ hfires => cases hfires
  | overflow _ _ => cases h

/-- At the end of the bytes `finish` delivers what is left. -/
theorem finish_sound {document : List Byte} {run : ScanRun format} (hrun : Sound document run)
    (hunread : run.unread = []) (last : RecordSpan → EmitControl) :
    let finished := run.scanner.finish
      (fun span delivered => (last span, delivered ++ [span])) run.delivered
    finished.sink = records format document ∧
      finished.diagnostic = openQuote format document := by
  have hremaining := hrun.remaining_eq
  have hafter := hrun.after_eq
  rw [hunread, remaining_eq_records] at hremaining
  rw [hunread, Mealy.after_nil] at hafter
  rw [hremaining, ← diagnostic_eq_openQuote, hafter, Mealy.remaining_nil]
  unfold finish
  cases hlast : run.scanner.lastRecord <;> simp [stream, hlast]

/-- The calls come to the end of the bytes with a sound run, or the document is too long. -/
theorem scanAll_finished (format : ViewportFormat) (document : List Byte)
    (calls : List FeedCall) (last : RecordSpan → EmitControl) :
    (∃ run : ScanRun format, Sound document run ∧ run.unread = [] ∧
      let finished := run.scanner.finish
        (fun span delivered => (last span, delivered ++ [span])) run.delivered
      scanAll format document calls last = .ok (finished.sink, finished.diagnostic)) ∨
      scanAll format document calls last = .error .offsetOverflow ∧
        u64Bound ≤ document.length := by
  rcases feedCalls_sound (start_sound format document) calls with
    ⟨run, hrun, hsound⟩ | ⟨herror, hlong⟩
  · rcases feedCall_sound hsound run.lastCall with ⟨final, hfinal, hsound'⟩ | ⟨herror, hlong⟩
    · refine .inl ⟨final, hsound', lastCall_unread hfinal, ?_⟩
      simp only [scanAll, hrun, hfinal, bind, Except.bind, pure, Except.pure]
    · right
      simp [scanAll, hrun, herror, hlong, bind, Except.bind]
  · right
    simp [scanAll, herror, hlong, bind, Except.bind]

theorem scanAll_of_lt (format : ViewportFormat) {document : List Byte}
    (hsize : document.length < u64Bound) (calls : List FeedCall)
    (last : RecordSpan → EmitControl) :
    scanAll format document calls last =
      .ok (records format document, openQuote format document) := by
  rcases scanAll_finished format document calls last with ⟨run, hrun, hunread, hscan⟩ |
    ⟨-, hlong⟩
  · obtain ⟨hsink, hdiagnostic⟩ := finish_sound hrun hunread last
    rw [hscan, hsink, hdiagnostic]
  · omega

/-- Every way of feeding a document delivers its reference segmentation. -/
theorem scanAll_eq_reference (format : ViewportFormat) (document : List Byte)
    (calls : List FeedCall) (last : RecordSpan → EmitControl) :
    scanAll format document calls last =
        .ok (records format document, openQuote format document) ∨
      scanAll format document calls last = .error .offsetOverflow ∧
        u64Bound ≤ document.length := by
  rcases scanAll_finished format document calls last with ⟨run, hrun, hunread, hscan⟩ | hlong
  · obtain ⟨hsink, hdiagnostic⟩ := finish_sound hrun hunread last
    exact .inl (by rw [hscan, hsink, hdiagnostic])
  · exact .inr hlong

end ScanRun

end LeanRows
