import LeanRows.Query.Session

/-!
# What the parts of a query leave alone

The source is called in two places only, the disk in one, and the rest of a call neither
looks at the memory of a source failure nor touches the store. `Alike` collects what the
two places have to keep; every call then keeps it, for one source or for two of them. A call
that fails is over, so what `Framed` asks of one that fails is a condition of its own.
-/

namespace LeanRows

set_option autoImplicit false

namespace QuerySession

variable {W : Type} {format : ViewportFormat}

/-- `I` is about the snapshot, the memory of a failure, the store and the world; the calls
of the two sources and of the disk keep it, and the sources answer alike. -/
structure Alike (source source' : PositionedRead W) (medium : ScratchMedium W)
    (I : QuerySession format × W → Prop) : Prop where
  fields : ∀ (session next : QuerySession format) w,
    next.sourceSnapshot = session.sourceSnapshot → next.sourceFailure = session.sourceFailure →
    next.scratch = session.scratch → I (session, w) → I (next, w)
  ensure : Exec.AgreeOn I (ensureSourceUnchanged source) (ensureSourceUnchanged source')
  readAt : ∀ offset request, Exec.AgreeOn I (checkedReadAt source offset request)
    (checkedReadAt source' offset request)
  append : ∀ hit, Exec.Preserves I (appendHit medium hit)

/-- As `Alike`, where `I` may also speak of the page and of the pending record, whose row is
one of `R`. Only hits of such a row, with an end in range, are appended. Calls of the sources that
fail keep `F` only. -/
structure Framed (source source' : PositionedRead W) (medium : ScratchMedium W)
    (R : Nat → Prop) (I F : QuerySession format × W → Prop) : Prop where
  fields : ∀ (session next : QuerySession format) w,
    next.sourceSnapshot = session.sourceSnapshot → next.sourceFailure = session.sourceFailure →
    next.scratch = session.scratch → next.page = session.page →
    (∀ record ∈ next.pending, R record.row) → I (session, w) → I (next, w)
  rows : ∀ (session : QuerySession format) w, I (session, w) →
    ∀ record ∈ session.pending, R record.row
  queued : ∀ row, row < u64Bound → R row
  fails : ∀ p, I p → F p
  ensure : Exec.AgreeTo I F (ensureSourceUnchanged source) (ensureSourceUnchanged source')
  readAt : ∀ offset request, Exec.AgreeTo I F (checkedReadAt source offset request)
    (checkedReadAt source' offset request)
  append : ∀ hit : QueryHit, R hit.row → hit.span.stop < u64Bound →
    Exec.Preserves I (appendHit medium hit)

theorem Alike.framed {source source' : PositionedRead W} {medium : ScratchMedium W}
    {I : QuerySession format × W → Prop} (h : Alike source source' medium I) :
    Framed source source' medium (fun _ => True) I I where
  fields session next w hsnapshot hfailure hscratch _ _ hI :=
    h.fields session next w hsnapshot hfailure hscratch hI
  rows _ _ _ _ _ := trivial
  queued _ _ := trivial
  fails _ hI := hI
  ensure := .of_agreeOn h.ensure fun _ hI => hI
  readAt offset request := .of_agreeOn (h.readAt offset request) fun _ hI => hI
  append hit _ _ := h.append hit

namespace Framed

variable {source source' : PositionedRead W} {medium : ScratchMedium W} {R : Nat → Prop}
  {I F : QuerySession format × W → Prop} (h : Framed source source' medium R I F)
include h

/-- What keeps `I` does so for both sources. -/
theorem of_keeps {α : Type} {x : QueryM format W α} (hx : Exec.Preserves I x) :
    Exec.AgreeTo I F x x :=
  .of_agreeOn hx h.fails

/-- A change that leaves the pending record alone. -/
theorem modify {g : QuerySession format → QuerySession format}
    (hsnapshot : ∀ session, (g session).sourceSnapshot = session.sourceSnapshot)
    (hfailure : ∀ session, (g session).sourceFailure = session.sourceFailure)
    (hscratch : ∀ session, (g session).scratch = session.scratch)
    (hpage : ∀ session, (g session).page = session.page)
    (hpending : ∀ session, (g session).pending = session.pending) :
    Exec.Preserves I (Exec.modify g : QueryM format W Unit) := by
  refine .modify fun session w hI => ?_
  refine h.fields session _ w (hsnapshot _) (hfailure _) (hscratch _) (hpage _) ?_ hI
  rw [hpending]
  exact h.rows session w hI

theorem queueRecord (span : RecordSpan) : Exec.Preserves I (queueRecord span) := by
  apply Exec.AgreeOn.self
  rintro ⟨session, w⟩ hI
  rw [QuerySession.queueRecord, Exec.run_get_bind]
  cases hnext : checkedAdd session.nextRow 1 with
  | none => exact hI
  | some nextRow =>
    refine h.fields session _ w rfl rfl rfl rfl ?_ hI
    rintro record ⟨⟩
    exact h.queued _ (Nat.lt_of_succ_lt (checkedAdd_eq_some.mp hnext).1)

theorem returnStatus (status : QueryStepStatus) : Exec.Preserves I (returnStatus status) :=
  .bind (h.modify (fun _ => rfl) (fun _ => rfl) (fun _ => rfl) (fun _ => rfl) fun _ => rfl)
    fun _ => .pure

theorem updatePendingCursor (cursor processed state : Nat) :
    Exec.Preserves I (updatePendingCursor cursor processed state) := by
  unfold QuerySession.updatePendingCursor
  split
  · exact .throw
  refine .get_bind fun session w hI => ?_
  split
  · exact .throw
  · rename_i pending hpending
    refine .modify fun session' w' hI' => h.fields session' _ w' rfl rfl rfl rfl ?_ hI'
    rintro record ⟨⟩
    exact h.rows session w hI pending hpending

theorem matchLoop (pending : PendingRecord) (hrow : R pending.row) (polls : Nat → Bool)
    (bytes : List Byte) (processed state : Nat) :
    Exec.Preserves I (matchLoop medium pending polls bytes processed state) := by
  induction bytes generalizing processed state with
  | nil => exact .bind (h.updatePendingCursor _ _ _) fun _ => .bind .get fun _ => .pure
  | cons byte bytes ih =>
    refine .bind .get fun session => ?_
    split
    · exact .bind (h.updatePendingCursor _ _ _) fun _ => .pure
    dsimp only
    split
    swap
    · exact ih _ _
    split
    · exact .throw
    rename_i stop hstop
    cases hending : hitEnding session.literal pending.row stop with
    | error error => exact .throw
    | ok hit =>
      have hhit : hit.row = pending.row ∧ hit.span.stop = stop := by
        unfold hitEnding at hending
        split at hending
        · cases hending
        · cases hending
          exact ⟨rfl, rfl⟩
      have hfits : hit.span.stop < u64Bound := by
        obtain ⟨hlt, hsum⟩ := checkedAdd_eq_some.mp hstop
        rw [hhit.2, ← hsum]
        exact hlt
      refine .bind (h.append hit (by rwa [hhit.1]) hfits) fun details => ?_
      split
      · exact .bind (h.updatePendingCursor _ _ _) fun _ => .pure
      · exact ih _ _

theorem advancePending (workBytes : Nat) (polls : Nat → Bool) :
    Exec.AgreeTo I F (advancePending medium source workBytes polls)
      (QuerySession.advancePending medium source' workBytes polls) := by
  refine .get_bind fun session w hI => ?_
  cases hpending : session.pending with
  | none => exact h.of_keeps .throw
  | some pending =>
    have hrow : R pending.row := h.rows session w hI pending hpending
    dsimp only
    split
    · exact .pure
    · exact .bind (h.readAt _ _) fun bytes => h.of_keeps (h.matchLoop pending hrow _ _ _ _)

theorem completePending : Exec.Preserves I completePending := by
  have hcleared : Exec.Preserves I
      (Exec.modify fun session => { session with pending := none } : QueryM format W Unit) :=
    .modify fun session w hI => h.fields session _ w rfl rfl rfl rfl (by rintro _ ⟨⟩) hI
  refine .bind hcleared fun _ => .bind .get fun session => ?_
  split
  · exact .throw
  · exact h.modify (fun _ => rfl) (fun _ => rfl) (fun _ => rfl) (fun _ => rfl) fun _ => rfl

theorem pendingTurn (remaining : Nat) (polls : Nat → Bool) :
    Exec.AgreeTo I F (pendingTurn medium source remaining polls)
      (QuerySession.pendingTurn medium source' remaining polls) := by
  refine .bind (h.advancePending remaining polls) fun outcome => ?_
  split
  · exact .pure
  · exact h.of_keeps (h.returnStatus _)
  · exact .bind (h.of_keeps h.completePending) fun _ => .pure
  · exact h.of_keeps (h.returnStatus _)

theorem advanceScanner (workBytes : Nat) (polls : Nat → Bool) :
    Exec.AgreeTo I F (advanceScanner source workBytes polls)
      (QuerySession.advanceScanner source' workBytes polls) := by
  refine .get_bind fun session w _ => ?_
  split
  · exact h.of_keeps .throw
  refine .bind (h.readAt _ _) fun bytes => h.of_keeps (.bind ?_ fun _ => ?_)
  · exact h.modify (fun _ => rfl) (fun _ => rfl) (fun _ => rfl) (fun _ => rfl) fun _ => rfl
  · split
    · exact .throw
    split
    · exact .pure
    · exact .bind (h.queueRecord _) fun _ => .pure

theorem scannerTurn (remaining : Nat) (polls : Nat → Bool) :
    Exec.AgreeTo I F (scannerTurn source remaining polls)
      (QuerySession.scannerTurn source' remaining polls) := by
  refine .bind (h.advanceScanner remaining polls) fun outcome => ?_
  split
  · exact h.of_keeps (h.returnStatus _)
  · exact .pure
  · exact .pure

theorem finishTurn (remaining : Nat) (scanner : FormatScanner format) :
    Exec.Preserves I (finishTurn remaining scanner) := by
  refine .bind ?_ fun _ => ?_
  · exact h.modify (fun _ => rfl) (fun _ => rfl) (fun _ => rfl) (fun _ => rfl) fun _ => rfl
  · split
    · exact .bind (h.queueRecord _) fun _ => .pure
    · exact h.returnStatus _

theorem turn (remaining : Nat) (polls : StepPolls) :
    Exec.AgreeTo I F (turn medium source remaining polls)
      (QuerySession.turn medium source' remaining polls) := by
  unfold QuerySession.turn
  split
  · exact h.of_keeps (h.returnStatus _)
  refine .bind h.ensure fun _ => .get_bind fun session w _ => ?_
  split
  · exact h.pendingTurn _ _
  split
  · split
    · exact h.scannerTurn _ _
    · exact h.of_keeps (h.finishTurn _ _)
  · exact h.of_keeps (h.returnStatus _)

theorem advanceLoop (polls : Nat → StepPolls) (fuel i remaining : Nat) :
    Exec.AgreeTo I F (advanceLoop medium source polls fuel i remaining)
      (QuerySession.advanceLoop medium source' polls fuel i remaining) := by
  induction fuel generalizing i remaining with
  | zero => exact .get_bind fun _ _ _ => .pure
  | succ fuel ih =>
    refine .bind (h.turn _ _) fun outcome => ?_
    split
    · exact .pure
    split
    · exact .get_bind fun _ _ _ => .pure
    · exact ih _ _

theorem advance (maxWorkBytes : Nat) (polls : Nat → StepPolls) :
    Exec.AgreeTo I F (advance medium source maxWorkBytes polls)
      (QuerySession.advance medium source' maxWorkBytes polls) := by
  have hfinished : ∀ (cancelled : Bool) (status : QueryStepStatus),
      Exec.AgreeTo I F
        (if cancelled then pure status else do
          ensureSourceUnchanged source
          pure status)
        (if cancelled then pure status else do
          ensureSourceUnchanged source'
          pure status) := by
    intro cancelled status
    split
    · exact .pure
    · exact .bind h.ensure fun _ => .pure
  have hrunning : Exec.AgreeTo I F
      (do
        Exec.modify fun session => { session with status := .running }
        QuerySession.advanceLoop medium source polls (turnBound maxWorkBytes) 0 maxWorkBytes)
      (do
        Exec.modify fun session => { session with status := .running }
        QuerySession.advanceLoop medium source' polls (turnBound maxWorkBytes) 0
          maxWorkBytes) :=
    .bind (h.of_keeps (h.modify (fun _ => rfl) (fun _ => rfl) (fun _ => rfl) (fun _ => rfl)
      fun _ => rfl)) fun _ => h.advanceLoop _ _ _ _
  unfold QuerySession.advance
  split
  · exact h.of_keeps .throw
  refine .get_bind fun session w _ => ?_
  split
  · exact hfinished _ _
  · exact hfinished _ _
  · exact hrunning
  · exact hrunning

end Framed

namespace Alike

variable {source source' : PositionedRead W} {medium : ScratchMedium W}
  {I : QuerySession format × W → Prop} (h : Alike source source' medium I)
include h

theorem advance (maxWorkBytes : Nat) (polls : Nat → StepPolls) :
    Exec.AgreeOn I (advance medium source maxWorkBytes polls)
      (QuerySession.advance medium source' maxWorkBytes polls) :=
  (h.framed.advance maxWorkBytes polls).agreeOn

theorem advances (calls : List AdvanceCall) (p : QuerySession format × W) (hI : I p) :
    QuerySession.advances medium source' calls p = QuerySession.advances medium source calls p ∧
      I (QuerySession.advances medium source calls p) := by
  induction calls generalizing p with
  | nil => exact ⟨rfl, hI⟩
  | cons call calls ih =>
    obtain ⟨hrun, hnext⟩ := h.advance call.maxWorkBytes call.polls p hI
    simp only [QuerySession.advances, hrun]
    exact ih _ hnext

end Alike

/-- What the calls of the source and the appends keep of the store and the world. -/
structure Kept (source : PositionedRead W) (medium : ScratchMedium W)
    (I : ScratchHitStore → W → Prop) : Prop where
  fingerprint : ∀ store w, I store w → I store (source.fingerprint w).2
  read : ∀ store w offset len, I store w → I store (source.readAt w offset len).2
  append : ∀ store w hit, I store w →
    I (store.append medium hit w).2.1 (store.append medium hit w).2.2

theorem Kept.alike {source : PositionedRead W} {medium : ScratchMedium W}
    {I : ScratchHitStore → W → Prop} (h : Kept source medium I) :
    Alike source source medium fun p : QuerySession format × W => I p.1.scratch p.2 := by
  have hensure : Exec.Preserves (fun p : QuerySession format × W => I p.1.scratch p.2)
      (ensureSourceUnchanged source) := by
    apply Exec.AgreeOn.self
    rintro ⟨session, w⟩ hI
    have hnext := h.fingerprint session.scratch w hI
    have hcases := ensureSourceUnchanged_ensured source session w
    generalize ensureSourceUnchanged source (session, w) = r at hcases
    cases hcases with
    | remembered _ => exact hI
    | lost hrun => rwa [hrun] at hnext
    | changed _ hrun _ => rwa [hrun] at hnext
    | unchanged _ hrun _ => rwa [hrun] at hnext
  refine ⟨?_, hensure, ?_, ?_⟩
  · intro session next w _ _ hscratch hI
    dsimp only at hI ⊢
    rwa [hscratch]
  · intro offset request
    have hread : Exec.Preserves (fun p : QuerySession format × W => I p.1.scratch p.2)
        (Exec.inner (source.read QueryError.io offset request)) :=
      .self fun p hI => h.read p.1.scratch p.2 offset request hI
    refine .bind hensure fun _ => .bind hread fun bytes => ?_
    split
    · exact .bind (.modify fun _ _ hI => hI) fun _ => .throw
    · exact .bind hensure fun _ => .pure
  · intro hit
    apply Exec.AgreeOn.self
    rintro ⟨session, w⟩ hI
    have hnext := h.append session.scratch w hit hI
    simp only [appendHit]
    rcases hrun : session.scratch.append medium hit w with ⟨_ | _ | _, store, w'⟩ <;>
      rw [hrun] at hnext <;> exact hnext

/-! ### A source that is right until a call of it fails -/

/-- The source stays in `K` as long as its calls come back, and the disk stays in it anyway. -/
structure StaysIn (source : PositionedRead W) (medium : ScratchMedium W) (K : W → Prop) :
    Prop where
  fingerprint : ∀ w current, K w → (source.fingerprint w).1 = .ok current →
    K (source.fingerprint w).2
  read : ∀ w offset len bytes, K w → (source.readAt w offset len).1 = .ok bytes →
    K (source.readAt w offset len).2
  write : ∀ w, K w → K (medium.write w).2

section Guarded
variable {source : PositionedRead W} {medium : ScratchMedium W} {K : W → Prop} [DecidablePred K]

theorem StaysIn.ensure (h : StaysIn source medium K) :
    Exec.AgreeTo (fun p : QuerySession format × W => K p.2) (fun _ => True)
      (ensureSourceUnchanged source) (ensureSourceUnchanged (source.guarded K)) := by
  rintro ⟨session, w⟩ hK
  have hK' : K w := hK
  have hsame : ensureSourceUnchanged (source.guarded K) (session, w) =
      ensureSourceUnchanged source (session, w) := by
    simp only [ensureSourceUnchanged, PositionedRead.guarded, if_pos hK']
  refine ⟨hsame, ?_⟩
  have hnext := h.fingerprint w
  have hcases := ensureSourceUnchanged_ensured source session w
  generalize ensureSourceUnchanged source (session, w) = r at hcases
  cases hcases with
  | remembered _ => trivial
  | lost _ => trivial
  | changed _ _ _ => trivial
  | unchanged _ hrun _ =>
    rw [hrun] at hnext
    exact hnext _ hK' rfl

theorem StaysIn.checkedReadAt (h : StaysIn source medium K) (offset request : Nat) :
    Exec.AgreeTo (fun p : QuerySession format × W => K p.2) (fun _ => True)
      (checkedReadAt source offset request)
      (QuerySession.checkedReadAt (source.guarded K) offset request) := by
  have hread : Exec.AgreeTo (fun p : QuerySession format × W => K p.2) (fun _ => True)
      (Exec.inner (source.read QueryError.io offset request))
      (Exec.inner ((source.guarded K).read QueryError.io offset request)) := by
    rintro ⟨session, w⟩ hK
    have hK' : K w := hK
    refine ⟨?_, ?_⟩
    · simp only [Exec.inner, PositionedRead.read, PositionedRead.guarded, if_pos hK']
    · have hnext := h.read w offset request
      simp only [Exec.inner, PositionedRead.read]
      rcases hrun : source.readAt w offset request with ⟨error | bytes, w'⟩
      · trivial
      · rw [hrun] at hnext
        simp only [Except.bind]
        cases validateReadCount bytes request with
        | error error => trivial
        | ok bytes => exact hnext _ hK' rfl
  refine .bind h.ensure fun _ => .bind hread fun bytes => ?_
  split
  · exact .of_agreeOn (.bind (.modify fun _ _ hK => hK) fun _ => .throw) fun _ _ => trivial
  · exact .bind h.ensure fun _ => .pure

/-- A call does with the source what it does with the guarded one. -/
theorem StaysIn.framed (h : StaysIn source medium K) :
    Framed source (source.guarded K) medium (fun _ => True)
      (fun p : QuerySession format × W => K p.2) fun _ => True where
  fields _ _ _ _ _ _ _ _ hK := hK
  rows _ _ _ _ _ := trivial
  queued _ _ := trivial
  fails _ _ := trivial
  ensure := h.ensure
  readAt := h.checkedReadAt
  append hit _ _ := by
    apply Exec.AgreeOn.self
    rintro ⟨session, w⟩ hK
    have hnext : K (session.scratch.append medium hit w).2.2 := by
      have hwrite := h.write w hK
      unfold ScratchHitStore.append
      split
      · exact hK
      · split
        · exact hK
        · split
          · rename_i hrun
            rwa [hrun] at hwrite
          · rename_i hrun
            rw [hrun] at hwrite
            dsimp only
            split <;> exact hwrite
    simp only [appendHit]
    rcases hrun : session.scratch.append medium hit w with ⟨_ | _ | _, store, w'⟩ <;>
      rw [hrun] at hnext <;> exact hnext

end Guarded

end QuerySession

end LeanRows
