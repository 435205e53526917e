import LeanRows.Worker.Loop
import LeanRows.Engine.Integrity

/-!
# No command waits for a sleeping worker

A call puts its command into a mailbox and then sends the signal; the worker takes the signal
first and then looks into the mailboxes one after the other. So in front of its sleep each
mailbox it has found empty is still empty, or a signal is there or about to be sent.
-/

namespace LeanRows.Worker

set_option autoImplicit false

/-! ## Mailboxes of commands -/

inductive CommandBox where
  | opens
  | viewports
  | queries
  | sorts
deriving DecidableEq

variable {W : Type}

def CommandBox.Empty (shared : Shared W) : CommandBox → Prop
  | opens => shared.opens.pending = none
  | viewports => shared.viewports.pending = none
  | queries => shared.queries.pending = none
  | sorts => shared.sorts.pending = none

/-- The accesses that put a command into a mailbox. -/
def UiOp.Posts : UiOp → Prop
  | postOpen .. | postViewport .. | postSort .. | postStart .. | postNavigate .. => True
  | _ => False

/-- The call has posted its command, and its signal is next. -/
def Ui.Signalling (ui : Ui) : Prop := ui.remaining = [.signal] ∧ ∃ op ∈ ui.call.ops, op.Posts

/-- A signal is there, or sent next. -/
def Signalled (s : System W) : Prop := s.shared.signals.pending = some () ∨ s.ui.Signalling

/-- What the worker knows of a mailbox that it has found empty. -/
def Seen (box : CommandBox) (s : System W) : Prop := box.Empty s.shared ∨ Signalled s

/-- Only the last call closes the signals, and no call is made behind it. -/
structure Calling (s : System W) : Prop where
  inCall : s.ui.InCall
  closed : s.shared.signals.closed = true →
    s.ui.call = .drop ∧ (s.ui.remaining = [.closeEvents] ∨ s.ui.gone = true)

structure SeenAll (boxes : List CommandBox) (s : System W) : Prop where
  calling : Calling s
  seen : ∀ box ∈ boxes, Seen box s

/-! ## Moves of the user interface -/

namespace UiOp

variable {s : System W}

/-- A command is put into its mailbox in front of the signal. -/
theorem Posts.rest {call : UiCall} {op : UiOp} {rest : List UiOp} (hop : op.Posts)
    (h : op :: rest <:+ call.ops) : rest = [.signal] := by
  cases op <;> first | exact hop.elim | skip
  all_goals
    cases call <;> simp_all [UiCall.ops, UiCall.submitPathSheetOps, UiCall.requestViewportOps,
      UiCall.requestSortOps, UiCall.requestSourceRowOps, UiCall.startQueryOps,
      UiCall.navigateQueryOps, UiCall.pollOps, UiCall.dropOps, List.suffix_cons_iff]

/-- The signals are closed by the last call alone. -/
theorem closing_rest {call : UiCall} {rest : List UiOp} (h : .closeSignals :: rest <:+ call.ops) :
    call = .drop ∧ rest = [.closeEvents] := by
  cases call <;> simp_all [UiCall.ops, UiCall.submitPathSheetOps, UiCall.requestViewportOps,
    UiCall.requestSortOps, UiCall.requestSourceRowOps, UiCall.startQueryOps,
    UiCall.navigateQueryOps, UiCall.pollOps, UiCall.dropOps, List.suffix_cons_iff]

theorem drop_not_signal {rest : List UiOp} : ¬ .signal :: rest <:+ UiCall.drop.ops := by
  simp [UiCall.ops, UiCall.dropOps, List.suffix_cons_iff]

/-- The other accesses fill no mailbox of commands and take no signal. -/
theorem run_others (op : UiOp) (hpost : ¬ op.Posts) (hsignal : op ≠ .signal) :
    (∀ box : CommandBox, box.Empty s.shared → box.Empty (op.run s).shared) ∧
      (op.run s).shared.signals.pending = s.shared.signals.pending := by
  have hguard : ∀ A : Prop, [Decidable A] → (if A then s else s.abort).shared = s.shared := by
    intro A _
    split <;> rfl
  cases op with
  | guardLatest serial | guardActive serial | guardLatestQuery serial =>
    unfold run
    dsimp only
    rw [hguard]
    exact ⟨fun _ h => h, rfl⟩
  | nextSort | nextQuery =>
    unfold run
    dsimp only
    split <;> exact ⟨fun box h => by cases box <;> exact h, rfl⟩
  | pollTake =>
    unfold run
    dsimp only
    cases s.shared.events.pending with
    | none => exact ⟨fun _ h => h, rfl⟩
    | some event => exact ⟨fun box h => by cases box <;> exact h, rfl⟩
  | pollJudge =>
    unfold run
    dsimp only
    cases s.ui.event with
    | none => exact ⟨fun _ h => h, rfl⟩
    | some event =>
      dsimp only
      split <;> exact ⟨fun box h => by cases box <;> exact h, rfl⟩
  | postOpen | postViewport | postSort | postStart | postNavigate => exact absurd trivial hpost
  | signal => exact absurd rfl hsignal
  | takeSorts | takeViewports | takeQueries =>
    exact ⟨fun box h => by cases box <;> first | rfl | exact h, rfl⟩
  | _ => exact ⟨fun box h => by cases box <;> exact h, rfl⟩

theorem run_remaining {op : UiOp} (hpost : op.Posts) :
    (op.run s).ui.remaining = s.ui.remaining := by
  cases op <;> first | exact hpost.elim | rfl

/-- No access begins a call, brings the worker back or opens the signals again. -/
theorem run_kept (op : UiOp) : (op.run s).ui.call = s.ui.call ∧
    (s.ui.gone = true → (op.run s).ui.gone = true) ∧ (op ≠ .closeSignals →
      (op.run s).shared.signals.closed = s.shared.signals.closed) := by
  cases op with
  | guardLatest serial | guardActive serial | guardLatestQuery serial =>
    unfold run
    dsimp only
    split <;> exact ⟨rfl, fun h => h, fun _ => rfl⟩
  | nextSort | nextQuery =>
    unfold run
    dsimp only
    split <;> exact ⟨rfl, fun h => h, fun _ => rfl⟩
  | pollTake =>
    unfold run
    dsimp only
    split <;> exact ⟨rfl, fun h => h, fun _ => rfl⟩
  | pollJudge =>
    unfold run
    dsimp only
    split
    · exact ⟨rfl, fun h => h, fun _ => rfl⟩
    · split <;> exact ⟨rfl, fun h => h, fun _ => rfl⟩
  | signal => exact ⟨rfl, fun h => h, fun _ => CoalescingMailbox.send_closed _ _⟩
  | closeSignals => exact ⟨rfl, fun h => h, fun h => absurd rfl h⟩
  | closeEvents => exact ⟨rfl, fun _ => rfl, fun _ => rfl⟩
  | _ => exact ⟨rfl, fun h => h, fun _ => rfl⟩

end UiOp

section Calls
variable {s : System W}

/-- An access of a call keeps what is known of a mailbox. -/
theorem UiOp.run_seen {op : UiOp} {rest : List UiOp} (box : CommandBox)
    (h : op :: rest <:+ s.ui.call.ops) (hrest : s.ui.remaining = rest)
    (hclosed : s.shared.signals.closed = true → s.ui.call = .drop)
    (hseen : box.Empty s.shared ∨ s.shared.signals.pending = some () ∨ op :: rest = [.signal]) :
    Seen box (op.run s) := by
  by_cases hpost : op.Posts
  · refine .inr (.inr ⟨?_, op, ?_, hpost⟩)
    · rw [run_remaining hpost, hrest, hpost.rest h]
    · rw [(run_kept op).1]
      exact h.subset List.mem_cons_self
  by_cases hsignal : op = .signal
  · subst hsignal
    have hopen : s.shared.signals.closed = false := by
      rw [Bool.eq_false_iff]
      intro hclose
      rw [hclosed hclose] at h
      exact drop_not_signal h
    exact .inr (.inl (CoalescingMailbox.send_pending hopen ()))
  · obtain ⟨hempty, hsignals⟩ := run_others (s := s) op hpost hsignal
    rcases hseen with hseen | hseen | hseen
    · exact .inl (hempty box hseen)
    · exact .inr (.inl (hsignals.trans hseen))
    · cases hseen
      exact absurd rfl hsignal

theorem UiOp.run_calling {op : UiOp} {rest : List UiOp} (h : op :: rest <:+ s.ui.call.ops)
    (hrest : s.ui.remaining = rest) (hclosed : s.shared.signals.closed = true →
      s.ui.call = .drop ∧ (op :: rest = [.closeEvents] ∨ s.ui.gone = true)) :
    Calling (op.run s) := by
  obtain ⟨hcall, hgone, hkept⟩ := run_kept (s := s) op
  refine ⟨run_inCall h hrest, fun hnow => ?_⟩
  rw [hcall]
  by_cases hclose : op = .closeSignals
  · subst hclose
    obtain ⟨hdrop, hlast⟩ := closing_rest h
    exact ⟨hdrop, .inl (hrest.trans hlast)⟩
  · rw [hkept hclose] at hnow
    obtain ⟨hdrop, hlast | hwent⟩ := hclosed hnow
    · cases hlast
      exact ⟨hdrop, .inr rfl⟩
    · exact ⟨hdrop, .inr (hgone hwent)⟩

/-- Whatever the user interface does, a mailbox found empty stays so or a signal comes. -/
theorem UiMove.run_seenAll {boxes : List CommandBox} (m : UiMove) (h : SeenAll boxes s) :
    SeenAll boxes (m.run s) := by
  cases m with
  | enter call =>
    unfold UiMove.run
    dsimp only
    cases hremaining : s.ui.remaining with
    | cons op rest => exact h
    | nil =>
      dsimp only
      split_ifs with hgone
      · exact h
      · refine ⟨⟨List.suffix_refl _, fun hclosed => ?_⟩, fun box hbox => ?_⟩
        · obtain ⟨-, hlast | hwent⟩ := h.calling.closed hclosed
          · rw [hremaining] at hlast
            cases hlast
          · exact absurd hwent hgone
        · rcases h.seen box hbox with hempty | hsignal | hnext
          · exact .inl hempty
          · exact .inr (.inl hsignal)
          · have hremains := hnext.1
            rw [hremaining] at hremains
            cases hremains
  | step =>
    unfold UiMove.run
    dsimp only
    cases hremaining : s.ui.remaining with
    | nil => exact h
    | cons op rest =>
      have hin := h.calling.inCall
      unfold Ui.InCall at hin
      rw [hremaining] at hin
      refine ⟨UiOp.run_calling hin rfl fun hclosed => ?_, fun box hbox =>
        UiOp.run_seen box hin rfl (fun hclosed => (h.calling.closed hclosed).1) ?_⟩
      · obtain ⟨hdrop, hlast | hwent⟩ := h.calling.closed hclosed
        · exact ⟨hdrop, .inl (hremaining.symm.trans hlast)⟩
        · exact ⟨hdrop, .inr hwent⟩
      · rcases h.seen box hbox with hempty | hsignal | hnext
        · exact .inl hempty
        · exact .inr (.inl hsignal)
        · exact .inr (.inr (hremaining.symm.trans hnext.1))
  | otherTab =>
    refine ⟨⟨h.calling.inCall, h.calling.closed⟩, fun box hbox => ?_⟩
    rcases h.seen box hbox with hempty | hsignal
    · exact .inl (by cases box <;> exact hempty)
    · exact .inr hsignal

theorem seenAll_stable (boxes : List CommandBox) :
    callers.Stable (SeenAll boxes : System W → Prop) := fun m _ _ h => m.run_seenAll h

end Calls

/-! ## Accesses of the worker -/

/-- What the worker does outside of taking its signal: no command is put into a mailbox, and no
serial of a query is drawn. -/
def Quiet (s s' : System W) : Prop :=
  s'.ui = s.ui ∧ s'.shared.signals = s.shared.signals ∧
    s'.shared.querySequence = s.shared.querySequence ∧
      ∀ box : CommandBox, box.Empty s.shared → box.Empty s'.shared

theorem SeenAll.quiet {boxes : List CommandBox} {s s' : System W} (hquiet : Quiet s s')
    (h : SeenAll boxes s) : SeenAll boxes s' := by
  obtain ⟨hui, hsignals, -, hempty⟩ := hquiet
  refine ⟨⟨?_, fun hclosed => ?_⟩, fun box hbox => ?_⟩
  · rw [hui]
    exact h.calling.inCall
  · rw [hui]
    exact h.calling.closed (hsignals ▸ hclosed)
  · rcases h.seen box hbox with hbefore | hsignal | hnext
    · exact .inl (hempty box hbefore)
    · exact .inr (.inl (hsignals ▸ hsignal))
    · exact .inr (.inr (hui ▸ hnext))

section Accesses
variable {α : Type}

/-- An access that leaves the signals and the mailboxes of commands alone, or empties one. -/
theorem onShared_quiet {f : Shared W → α × Shared W}
    (hsignals : ∀ shared, (f shared).2.signals = shared.signals)
    (hsequence : ∀ shared, (f shared).2.querySequence = shared.querySequence)
    (hempty : ∀ shared (box : CommandBox), box.Empty shared → box.Empty (f shared).2) :
    Prog.Keeps Quiet (onShared f) :=
  .atomic fun s => ⟨rfl, hsignals s.shared, hsequence s.shared, hempty s.shared⟩

theorem load_quiet (f : Shared W → α) : Prog.Keeps Quiet (load f) :=
  onShared_quiet (fun _ => rfl) (fun _ => rfl) fun _ _ h => h

theorem onWorld_quiet (f : Choice → W → α × W) : Prog.Keeps Quiet (onWorld f) :=
  .choose fun _ _ => ⟨rfl, rfl, rfl, fun box h => by cases box <;> exact h⟩

theorem ask_quiet (f : Choice → α) : Prog.Keeps Quiet (ask f : WorkerM W α) :=
  .choose fun _ _ => ⟨rfl, rfl, rfl, fun _ h => h⟩

theorem storeActiveSerial_quiet (serial : Nat) :
    Prog.Keeps Quiet (storeActiveSerial serial : WorkerM W Unit) := by
  unfold storeActiveSerial store
  exact onShared_quiet (fun _ => rfl) (fun _ => rfl) fun _ box h => by cases box <;> exact h

theorem takeQueries_quiet : Prog.Keeps Quiet (takeQueries : WorkerM W (Option QueryCommand)) :=
  onShared_quiet (fun _ => rfl) (fun _ => rfl) fun _ box h => by cases box <;> first | rfl | exact h

theorem withdrawQuery_quiet : Prog.Keeps Quiet (withdrawQuery : WorkerM W Unit) := by
  refine .bind (storeActiveSerial_quiet 0) fun _ => .bind ?_ fun _ => .bind ?_ fun _ =>
    .bind takeQueries_quiet fun _ => .pure _
  · exact onShared_quiet (fun _ => rfl) (fun _ => rfl) fun _ box h => by cases box <;> exact h
  · exact onShared_quiet (fun _ => rfl) (fun _ => rfl) fun _ box h => by cases box <;> exact h

theorem sortCurrent_quiet (serial : Nat) (generation : CancellationGeneration) :
    Prog.Keeps Quiet (sortCurrent serial generation : WorkerM W Bool) := by
  refine .bind (load_quiet _) fun latest => ?_
  split
  · exact .bind (load_quiet _) fun token => .pure _
  · exact .pure _

theorem emitEvent_quiet (event : WorkerEvent) :
    Prog.Keeps Quiet (emitEvent event : WorkerM W Bool) := by
  refine .bind (load_quiet _) fun latest => ?_
  split
  · exact onShared_quiet (fun _ => rfl) (fun _ => rfl) fun _ box h => by cases box <;> exact h
  · exact .pure _

theorem emitFailedOpen_quiet (path : String) (serial : Nat) (message : String) :
    Prog.Keeps Quiet (emitFailedOpen path serial message : WorkerM W Bool) :=
  .bind withdrawQuery_quiet fun _ => emitEvent_quiet _

end Accesses

section Parts
variable {X Q Z α : Type} (services : Services W X Q Z) (document : ActiveDocument W X Q Z)

theorem rankOf_quiet (row : Nat) : Prog.Keeps Quiet (rankOf services document row) := by
  unfold rankOf
  split
  · exact .pure _
  · exact onWorld_quiet _

theorem emitActive_quiet (phase : WorkerPhase) (failure : Option String) :
    Prog.Keeps Quiet (emitActive services document phase failure) := by
  refine .bind ?_ fun rank => emitEvent_quiet _
  unfold queryRank
  split
  · exact .pure _
  · exact .bind (rankOf_quiet services document _) fun rank => .pure _

theorem replaceDocument_quiet (command : OpenCommand) :
    Prog.Keeps Quiet (replaceDocument services command) := by
  refine .bind (onWorld_quiet _) fun opened => ?_
  split
  · exact .pure _
  · exact .bind (emitFailedOpen_quiet _ _ _) fun sent => .pure _
  · split
    · exact .bind (emitFailedOpen_quiet _ _ _) fun sent => .pure _
    · exact .bind (storeActiveSerial_quiet _) fun _ =>
        .bind (emitActive_quiet services _ _ _) fun sent => .pure _

theorem onEngine_quiet (x : Choice → EngineM W X α) : Prog.Keeps Quiet (onEngine document x) :=
  onWorld_quiet _

theorem failDocument_quiet (message : String) :
    Prog.Keeps Quiet (failDocument services document message) := by
  refine .bind (.bind withdrawQuery_quiet fun _ => .pure _) fun document => ?_
  exact .bind (emitActive_quiet services _ _ _) fun sent => .pure _

theorem showRows_quiet (firstRow : Nat) :
    Prog.Keeps Quiet (showRows services document firstRow) := by
  refine .bind (onEngine_quiet document _) ?_
  rintro ⟨read, document⟩
  dsimp only
  split
  · exact .pure _
  · exact failDocument_quiet services _ _
  · split
    · exact failDocument_quiet services _ _
    · exact .bind (emitActive_quiet services _ _ _) fun sent => .pure _

theorem applyViewportRequest_quiet (request : ViewportCommand) :
    Prog.Keeps Quiet (applyViewportRequest services document request) := by
  refine .bind (load_quiet _) fun latest => ?_
  split
  · split
    · refine .bind (rankOf_quiet services _ _) fun rank => ?_
      split
      · exact .bind (emitActive_quiet services _ _ _) fun sent => .pure _
      · exact showRows_quiet services _ _
    · exact showRows_quiet services _ _
  · exact .pure _

theorem queryCurrent_quiet (documentSerial querySerial : Nat) :
    Prog.Keeps Quiet (queryCurrent document documentSerial querySerial) := by
  refine .bind (load_quiet _) fun latest => ?_
  split
  · exact .bind (load_quiet _) fun _ => .pure _
  · exact .pure _

theorem startSession_quiet (needle : List Byte) (mode : LiteralMatchMode) :
    Prog.Keeps Quiet (startSession services document needle mode) := by
  refine .bind (onEngine_quiet document _) ?_
  rintro ⟨plan, document⟩
  dsimp only
  split
  · exact .pure _
  · exact .bind (onWorld_quiet _) fun session => .pure _

theorem applyQueryCommand_quiet (command : QueryCommand) :
    Prog.Keeps Quiet (applyQueryCommand services document command) := by
  cases command with
  | start documentSerial querySerial needle mode generation =>
    refine .bind (queryCurrent_quiet document _ _) fun current => ?_
    split
    · exact .bind (startSession_quiet services _ _ _) fun session =>
        .bind (emitActive_quiet services _ _ _) fun sent => .pure _
    · exact .pure _
  | navigate documentSerial querySerial direction generation =>
    refine .bind (queryCurrent_quiet document _ _) fun current => ?_
    split
    · split
      · exact .pure _
      · exact .bind (onWorld_quiet _) fun query =>
          .bind (emitActive_quiet services _ _ _) fun sent => .pure _
    · exact .pure _

theorem advanceQueryOnce_quiet : Prog.Keeps Quiet (advanceQueryOnce services document) := by
  unfold advanceQueryOnce
  split
  · exact .pure _
  · split
    · refine .bind (onWorld_quiet _) ?_
      rintro ⟨outcome, session⟩
      refine .bind (onEngine_quiet document _) ?_
      rintro ⟨valid, document⟩
      refine .bind ?_ ?_
      · unfold judgeQuery
        split
        · exact .bind (storeActiveSerial_quiet _) fun _ => .pure _
        · exact onWorld_quiet _
      · rintro ⟨reported, query⟩
        dsimp only
        split
        · exact .bind (emitActive_quiet services _ _ _) fun sent => .pure _
        · exact .pure _
    · exact .pure _

theorem endSort_quiet : Prog.Keeps Quiet (endSort services document) :=
  .bind (emitActive_quiet services _ _ _) fun _ => .pure _

theorem restoreSource_quiet : Prog.Keeps Quiet (restoreSource services document) := by
  refine .bind (onEngine_quiet document _) ?_
  rintro ⟨read, document⟩
  dsimp only
  split
  · exact .pure _
  · split <;> exact .pure _

theorem startSort_quiet (command : SortCommand) :
    Prog.Keeps Quiet (startSort services document command) := by
  refine .bind (load_quiet _) fun latest => ?_
  split
  · refine .bind ?_ fun document => .bind (emitActive_quiet services _ _ _) fun _ => .pure _
    unfold beginSort
    split
    · exact .pure _
    · exact restoreSource_quiet services _
  · exact .pure _

theorem openSort_quiet (request : Sort.SortRequest) :
    Prog.Keeps Quiet (openSort services document request) := by
  refine .bind (onWorld_quiet _) fun memory => ?_
  split
  · exact .pure _
  · refine .bind (onEngine_quiet document _) ?_
    rintro ⟨plan, document⟩
    dsimp only
    split
    · exact .pure _
    · exact .bind (onWorld_quiet _) fun session => .pure _

theorem prepareOrder_quiet (session : Z) :
    Prog.Keeps Quiet (prepareOrder services document session) := by
  refine .bind (onEngine_quiet document _) ?_
  rintro ⟨valid, document⟩
  dsimp only
  split
  · exact .pure _
  · refine .bind (onWorld_quiet _) fun order => ?_
    split
    · exact .pure _
    · refine .bind (onEngine_quiet _ _) ?_
      rintro ⟨read, document⟩
      dsimp only
      split
      · exact .pure _
      · split
        · exact .pure _
        · split
          · exact .pure _
          · refine .bind (onEngine_quiet _ _) ?_
            rintro ⟨valid, document⟩
            dsimp only
            split <;> exact .pure _

theorem completeSort_quiet (active : ActiveSort Z) :
    Prog.Keeps Quiet (completeSort services document active) := by
  refine .bind (sortCurrent_quiet _ _) fun current => ?_
  split
  · split
    · exact .pure _
    · refine .bind (.bind (sortCurrent_quiet _ _) fun current => ?_) fun prepared =>
        endSort_quiet services _
      split
      · refine .bind (prepareOrder_quiet services _ _) ?_
        rintro ⟨prepared, document⟩
        dsimp only
        split
        · exact .pure _
        · exact .bind (sortCurrent_quiet _ _) fun current => .pure _
      · exact .pure _
  · exact endSort_quiet services _

theorem stepSort_quiet (active : ActiveSort Z) (session : Z) :
    Prog.Keeps Quiet (stepSort services document active session) := by
  refine .bind (onWorld_quiet _) ?_
  rintro ⟨outcome, session⟩
  refine .bind ?_ ?_
  · unfold checkSortStep
    split
    · exact .pure _
    · split
      · refine .bind (onEngine_quiet _ _) ?_
        rintro ⟨valid, document⟩
        dsimp only
        split <;> exact .pure _
      · exact .pure _
  · rintro ⟨outcome, document⟩
    dsimp only
    split
    · exact endSort_quiet services _
    · split
      · exact completeSort_quiet services _ _
      · refine .bind (ask_quiet _) fun elapsed => ?_
        split
        · exact endSort_quiet services _
        · exact .pure _

theorem advanceSort_quiet (active : ActiveSort Z) :
    Prog.Keeps Quiet (advanceSort services document active) := by
  refine .bind (sortCurrent_quiet _ _) fun current => ?_
  split
  · refine .bind ?_ fun permit => ?_
    · unfold acquirePermit
      split
      · exact .pure _
      · exact ask_quiet _
    · split
      · unfold runSort
        split
        · exact stepSort_quiet services _ _ _
        · refine .bind (openSort_quiet services _ _) ?_
          rintro ⟨session, document⟩
          dsimp only
          split
          · exact endSort_quiet services _
          · exact stepSort_quiet services _ _ _
      · exact .pure _
  · exact endSort_quiet services _

theorem scanOnce_quiet : Prog.Keeps Quiet (scanOnce services document) := by
  refine .bind (onEngine_quiet document _) ?_
  rintro ⟨step, document⟩
  dsimp only
  split
  · exact .pure _
  · exact failDocument_quiet services _ _
  · split
    · exact .bind (emitActive_quiet services _ _ _) fun sent => .pure _
    · split
      · exact .bind (emitActive_quiet services _ _ _) fun sent => .pure _
      · exact .pure _
    · exact .pure _

end Parts

/-! ## The sleep of the worker -/

section Sleep
variable {X Q Z α : Type} {services : Services W X Q Z}

/-- Nothing of the document is left to do. -/
structure ActiveDocument.Settled (document : ActiveDocument W X Q Z) : Prop where
  sort : document.sort = none
  demanded : document.demanded = false
  scanned : document.scanComplete = true

def commandBoxes : List CommandBox := [.sorts, .queries, .viewports, .opens]

/-- What holds where a pass ends. -/
def Ended : Next (Option (ActiveDocument W X Q Z)) → System W → Prop
  | .again _, s => Calling s
  | .sleep active, s =>
    SeenAll commandBoxes s ∧ ∀ document, active = some document → document.Settled
  | .stop, s => Calling s

theorem safe_quiet {boxes : List CommandBox} {p : WorkerM W α} (hp : Prog.Keeps Quiet p) :
    Prog.Safe callers Calling p (SeenAll boxes) fun _ => SeenAll boxes :=
  hp.safe (seenAll_stable boxes) (fun _ h => h.calling) fun _ _ => SeenAll.quiet

theorem goOn_ended {boxes : List CommandBox} (r : Bool × ActiveDocument W X Q Z) {s : System W}
    (h : SeenAll boxes s) : Ended (goOn r) s := by
  unfold goOn
  split <;> exact h.calling

theorem safe_goOn {boxes : List CommandBox} {p : WorkerM W (Bool × ActiveDocument W X Q Z)}
    (hp : Prog.Keeps Quiet p) :
    Prog.Safe callers Calling (goOn <$> p) (SeenAll boxes) Ended :=
  .bind (safe_quiet hp) fun r => .pure fun _ h => goOn_ended r h

theorem serve_safe {boxes : List CommandBox} (active : Option (ActiveDocument W X Q Z))
    {f : ActiveDocument W X Q Z → WorkerM W (Bool × ActiveDocument W X Q Z)}
    (hf : ∀ document, Prog.Keeps Quiet (f document)) :
    Prog.Safe callers Calling (serve active f) (SeenAll boxes) Ended := by
  cases active with
  | none => exact .pure fun _ h => h.calling
  | some document => exact safe_goOn (hf document)

theorem advance_safe (document : ActiveDocument W X Q Z) :
    Prog.Safe callers Calling (advance services document) (SeenAll commandBoxes) Ended := by
  refine Prog.Safe.bind (Q := fun _ => SeenAll commandBoxes) ?_ fun document => ?_
  · refine safe_quiet ?_
    unfold continueSort
    split
    · exact advanceSort_quiet services document _
    · exact .pure _
  · cases hdemanded : document.demanded with
    | true => exact safe_goOn (advanceQueryOnce_quiet services document)
    | false =>
      cases hscanned : document.scanComplete with
      | false => exact safe_goOn (scanOnce_quiet services document)
      | true =>
        refine .pure fun s h => ?_
        cases hsort : document.sort with
        | some active => exact h.calling
        | none => exact ⟨h, fun _ heq => by cases heq; exact ⟨hsort, hdemanded, hscanned⟩⟩

/-- A mailbox that has been looked into is empty. -/
theorem take_safe {T : Type} {boxes : List CommandBox} (box : CommandBox)
    {f : Shared W → Option T × Shared W}
    (hsignals : ∀ shared, (f shared).2.signals = shared.signals)
    (hsequence : ∀ shared, (f shared).2.querySequence = shared.querySequence)
    (hempty : ∀ shared (box : CommandBox), box.Empty shared → box.Empty (f shared).2)
    (htake : ∀ shared, box.Empty (f shared).2) :
    Prog.Safe callers Calling (onShared f) (SeenAll boxes) fun _ => SeenAll (box :: boxes) := by
  refine .atomic (seenAll_stable boxes) (fun _ h => h.calling) fun s h => ?_
  have hquiet : Quiet s { s with shared := (f s.shared).2 } :=
    ⟨rfl, hsignals s.shared, hsequence s.shared, hempty s.shared⟩
  have hkept := SeenAll.quiet hquiet h
  refine ⟨hkept.calling, fun other hother => ?_⟩
  rcases List.mem_cons.mp hother with rfl | hother
  · exact .inl (htake s.shared)
  · exact hkept.seen other hother

theorem calling_stable : callers.Stable (Calling : System W → Prop) := by
  intro m s _ h
  have hseen : SeenAll [] s := ⟨h, fun _ hbox => absurd hbox List.not_mem_nil⟩
  exact (m.run_seenAll hseen).calling

theorem takeSignals_calling {s : System W} (h : Calling s) :
    SeenAll [] { s with shared := { s.shared with signals := s.shared.signals.tryTake } } :=
  ⟨⟨h.inCall, h.closed⟩, fun _ hbox => absurd hbox List.not_mem_nil⟩

theorem servePass_safe (active : Option (ActiveDocument W X Q Z)) :
    Prog.Safe callers Calling (servePass services active) Calling Ended := by
  refine .bind (Q := fun _ => SeenAll []) ?_ fun _ => ?_
  · exact .atomic calling_stable (fun _ h => h) fun s h => takeSignals_calling h
  refine .bind (take_safe .opens (fun _ => rfl) (fun _ => rfl)
    (fun _ box h => by cases box <;> first | rfl | exact h) fun _ => rfl) fun opened => ?_
  cases opened with
  | some command =>
    refine .bind (safe_quiet (replaceDocument_quiet services command)) fun r => .pure fun s h => ?_
    obtain ⟨sent, active⟩ := r
    cases sent <;> exact h.calling
  | none =>
  refine .bind (take_safe .viewports (fun _ => rfl) (fun _ => rfl)
    (fun _ box h => by cases box <;> first | rfl | exact h) fun _ => rfl) fun viewport => ?_
  cases viewport with
  | some request =>
    exact serve_safe active fun document => applyViewportRequest_quiet services document request
  | none =>
  refine .bind (take_safe .queries (fun _ => rfl) (fun _ => rfl)
    (fun _ box h => by cases box <;> first | rfl | exact h) fun _ => rfl) fun query => ?_
  cases query with
  | some command =>
    exact serve_safe active fun document => applyQueryCommand_quiet services document command
  | none =>
  refine .bind (take_safe .sorts (fun _ => rfl) (fun _ => rfl)
    (fun _ box h => by cases box <;> first | rfl | exact h) fun _ => rfl) fun sort => ?_
  cases sort with
  | some command =>
    exact serve_safe active fun document =>
      .bind (startSort_quiet services document command) fun document => .pure _
  | none =>
    cases active with
    | none => exact .pure fun s h => ⟨h, fun document heq => by cases heq⟩
    | some document => exact advance_safe document

/-- What holds of a worker asleep and in front of a pass. -/
def wakeupInvariant : Server.Invariant (runWorker services) callers Calling where
  asleep active s := Ended (.sleep active) s
  awake _ s := Calling s
  stable := calling_stable
  asleep_stable active m s hm h := ⟨seenAll_stable commandBoxes m s hm h.1, h.2⟩
  asleep_in _ _ h := h.1.calling
  awake_stable _ := calling_stable
  awake_in _ _ h := h
  wakes active s s' h hwake := by
    unfold runWorker at hwake
    dsimp only at hwake
    split at hwake
    · cases hwake
      exact (takeSignals_calling h.1.calling).calling
    · split at hwake <;> cases hwake
  leaves active s s' h hwake := by
    unfold runWorker at hwake
    dsimp only at hwake
    split at hwake
    · cases hwake
    · split at hwake
      · cases hwake
        exact h.1.calling
      · cases hwake
  pass active := (servePass_safe active).post_mono fun next s h => by
    cases next <;> exact h

/-- In whatever order the calls of the user interface and the accesses of the worker come: where
the worker sleeps, no signal is there, and no call stands between its command and its signal,
there is no command in any mailbox, and the open document has no running sort, no demanded match
and nothing left to scan. -/
theorem sleep_leaves_nothing {world : W} {config : Config (System W) Choice
      (Option (ActiveDocument W X Q Z))} {active : Option (ActiveDocument W X Q Z)}
    (h : Server.Reaches (runWorker services) callers ⟨.new world, .asleep none⟩ config)
    (hasleep : config.thread = .asleep active)
    (hsignal : config.state.shared.signals.pending = none)
    (hcall : ¬ config.state.ui.Signalling) :
    config.state.shared.opens.pending = none ∧ config.state.shared.viewports.pending = none ∧
      config.state.shared.queries.pending = none ∧ config.state.shared.sorts.pending = none ∧
      ∀ document, active = some document →
        document.sort = none ∧ document.demanded = false ∧ document.scanComplete = true := by
  let inv : Server.Invariant (runWorker services) callers Calling := wakeupInvariant
  have hstart : inv.At ⟨.new world, .asleep none⟩ :=
    .asleep ⟨⟨⟨List.nil_suffix, fun hclosed => by cases hclosed⟩,
      fun box _ => .inl (by cases box <;> rfl)⟩, fun document heq => by cases heq⟩
  have hat := hstart.reaches h
  obtain ⟨s, thread⟩ := config
  dsimp only at hasleep hsignal hcall
  subst hasleep
  obtain ⟨hseen, hsettled⟩ := hat.asleep_of
  have hempty : ∀ box ∈ commandBoxes, box.Empty s.shared := by
    intro box hbox
    rcases hseen.seen box hbox with hempty | hpending | hnext
    · exact hempty
    · rw [hsignal] at hpending
      cases hpending
    · exact absurd hnext hcall
  refine ⟨hempty .opens (by simp [commandBoxes]), hempty .viewports (by simp [commandBoxes]),
    hempty .queries (by simp [commandBoxes]), hempty .sorts (by simp [commandBoxes]),
    fun document heq => ?_⟩
  have hdone := hsettled document heq
  exact ⟨hdone.sort, hdone.demanded, hdone.scanned⟩

end Sleep

/-! ### Two lines, opened and sorted -/

section TwoLines

open DocumentEngine.Call

/-- Every path is that of the log of two lines. A sort is done with its first step. -/
def twoLines : Services Nat Empty Empty Unit where
  openFile _ w := (.ok (.text .log, twoLineFile [] []), w)
  encode := plainPreview
  xlsx := noWorkbooks
  query := {
    start := fun _ _ _ _ w => (.error "no query", w)
    advance := fun session => nomatch session
    progress := fun session => nomatch session
    status := fun session => nomatch session
    hitCount := fun session => nomatch session
    readHit := fun session => nomatch session
    previousHitIndex := fun session => nomatch session }
  sort := {
    reserve := fun w => (.ok (), w)
    start := fun _ _ _ _ w => (.ok (), w)
    advance := fun _ _ w => (.ok ⟨.complete, 4⟩, (), w)
    intoOrder := fun _ w => (.ok twoLineOrder, w) }
  describe _ := "failed"
  describeSort _ := "failed"

/-- No token is cancelled, and the permit is free. -/
def calm : Choice :=
  ⟨⟨⟨false, fun _ => false⟩, .never⟩, .never, fun _ => ⟨false, fun _ => false⟩, false,
    ⟨false, fun _ => false⟩, fun _ => ⟨false, fun _ => false⟩, true, false⟩

/-- A call is made and then served. -/
def madeAndServed (call : UiCall) : List (Server.Move UiMove Choice) :=
  .other (.enter call) :: List.replicate call.ops.length (.other .step) ++
    List.replicate 60 (.work calm)

def sortedTwoLines : Config (System Nat) Choice (Option (ActiveDocument Nat Empty Empty Unit)) :=
  (runWorker twoLines).run callers (madeAndServed (.submitPathSheet "two.log" none) ++
    madeAndServed (.requestSort (some ⟨0, .text, .ascending⟩))) ⟨.new 0, .asleep none⟩

theorem callers_allow {C L : Type} {server : Server (System W) C L}
    (moves : List (Server.Move UiMove C)) (config : Config (System W) C L) :
    server.Admits callers moves config := by
  induction moves generalizing config with
  | nil => trivial
  | cons move moves ih =>
    cases move with
    | other m => exact ⟨trivial, ih _⟩
    | work c => exact ih _

theorem sortedTwoLines_reaches : Server.Reaches (runWorker twoLines) callers
    ⟨.new 0, .asleep none⟩ sortedTwoLines :=
  (runWorker twoLines).reaches_run _ .refl (callers_allow _ _)

/-- What a sleeping thread has kept. -/
def kept {S C L : Type} : Thread S C (Option L) → Option L
  | .asleep active => active
  | .awake _ | .stopped => none

theorem sleep_leaves_nothing_twoLines :
    ∃ document, sortedTwoLines.thread = .asleep (some document) ∧ document.sort = none ∧
      document.committed.isSome = true ∧ document.scanComplete = true ∧
      sortedTwoLines.state.shared.sorts.pending = none := by
  have hthread : ((kept sortedTwoLines.thread).any fun document =>
      document.committed.isSome) = true := by decide +kernel
  have hsignal : sortedTwoLines.state.shared.signals.pending = none := by decide +kernel
  have hcall : sortedTwoLines.state.ui.remaining = [] := by decide +kernel
  cases hasleep : sortedTwoLines.thread with
  | asleep active =>
    rw [hasleep] at hthread
    cases active with
    | none => cases hthread
    | some document =>
      obtain ⟨-, -, -, hsorts, hdone⟩ := sleep_leaves_nothing sortedTwoLines_reaches hasleep
        hsignal fun hnext => by
          rw [Ui.Signalling, hcall] at hnext
          cases hnext.1
      obtain ⟨hsort, -, hscanned⟩ := hdone document rfl
      exact ⟨document, rfl, hsort, hthread, hscanned, hsorts⟩
  | awake p =>
    rw [hasleep] at hthread
    cases hthread
  | stopped =>
    rw [hasleep] at hthread
    cases hthread

end TwoLines

end LeanRows.Worker
