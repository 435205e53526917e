import LeanRows.Query.Frames
import LeanRows.Query.Hits

/-!
# Schedules of a query

What a query has stored after any schedule of calls, and what it reports at its end.
-/

namespace LeanRows

set_option autoImplicit false

open BoundaryScanner

namespace QuerySession

variable {W : Type} {format : ViewportFormat} {literal : Literal} {document : List Byte}
  {source : PositionedRead W} {medium : ScratchMedium W} {session : QuerySession format}

/-! ### The reference sequence -/

/-! ### The invariant over a schedule -/

theorem new_good (hsource : source.Reads document) {config : QuerySessionConfig}
    {owner : List Byte} (howner : owner.length = 16) {w w' : W}
    (hnew : new source format literal config owner w = (.ok session, w')) :
    Good literal document session ∧
      session.scratch.quotaBytes = config.scratchQuotaBytes := by
  rw [new] at hnew
  rcases hrun : source.capture QueryError.io w with ⟨error | snapshot, w₁⟩
  · rw [Exec.run_bind_error hrun] at hnew
    cases hnew
  rw [Exec.run_bind_ok hrun] at hnew
  cases hnew
  refine ⟨⟨[], [], ⟨?_, rfl, [], .refl _ _, rfl, rfl⟩, ?_, .inl rfl⟩, rfl⟩
  · apply hsource.size w
    have hcapture := congrArg Prod.fst hrun
    simp only [PositionedRead.capture] at hcapture
    cases hfingerprint : (source.fingerprint w).1 with
    | error e => simp [hfingerprint, Except.mapError] at hcapture
    | ok current =>
      simp only [hfingerprint, Except.mapError, Except.ok.injEq] at hcapture
      rw [hcapture]
  · exact ScratchHitStore.create_holds howner config.header_le_quota

theorem advances_good {clean fresh : W → Prop} (hsource : source.Reads document)
    (htraced : Traced source medium clean fresh) (calls : List AdvanceCall)
    (p : QuerySession format × W) (h : clean p.2 → Good literal document p.1) :
    clean (advances medium source calls p).2 →
      Good literal document (advances medium source calls p).1 := by
  have hsoiled : Kept source medium fun _ w => ¬ clean w := by
    refine ⟨fun _ w hw hnext => hw (htraced.fingerprint w hnext),
      fun _ w offset len hw hnext => hw (htraced.read w offset len hnext), ?_⟩
    intro store w hit hw hnext
    apply hw
    revert hnext
    rw [ScratchHitStore.append]
    split
    · exact id
    split
    · exact id
    · have hwrite := htraced.write w
      split
      · rename_i hrun
        rw [hrun] at hwrite
        exact hwrite
      · rename_i hrun
        rw [hrun] at hwrite
        dsimp only
        split <;> exact hwrite
  induction calls generalizing p with
  | nil => exact h
  | cons call calls ih =>
    apply ih
    intro hclean
    have hwas : clean p.2 := by
      by_contra hnot
      exact (hsoiled.alike.advance call.maxWorkBytes call.polls p hnot).2 hclean
    have hdone := advance_spec hsource htraced (h hwas) call.maxWorkBytes call.polls p.2
    rcases hrun : advance medium source call.maxWorkBytes call.polls p with
      ⟨error | status, after⟩
    · rw [Prod.mk.eta, hrun] at hdone
      rw [hrun] at hclean
      exact hdone hclean
    · rw [Prod.mk.eta, hrun] at hdone
      exact hdone.2

theorem quota_kept (quota : Nat) :
    Kept source medium fun store _ => store.quotaBytes = quota where
  fingerprint _ _ h := h
  read _ _ _ _ h := h
  append store w hit h := by
    rw [ScratchHitStore.append]
    split
    · exact h
    split
    · exact h
    split
    · exact h
    · dsimp only
      split <;> exact h

/-! ### A disk that does not fail -/

theorem traced_of_reliable (hmedium : ∀ w, (medium.write w).1 = none) :
    Traced source medium (fun _ => True) (fun _ => False) where
  fingerprint _ _ := trivial
  read _ _ _ _ := trivial
  write _ _ := trivial
  stored _ _ h := h
  failed w error h := by simp [hmedium w] at h

/-- The hits a quota holds are as many as fit behind the header. -/
theorem Refused.hits_eq {rejected : QueryHit} (h : Refused literal document session rejected) :
    let count := (session.scratch.quotaBytes - queryScratchHeaderBytes) / queryHitEntryBytes
    session.scratch.storedHits =
        ((literal.documentHits document format).take count).map .ok ∧
      (literal.documentHits document format)[count]? = some rejected := by
  obtain ⟨hits, hholds, ⟨rest, hrest⟩, hfull⟩ := h
  have hfits := hholds.quota
  rw [hholds.used] at hfits
  have hcount : (session.scratch.quotaBytes - queryScratchHeaderBytes) / queryHitEntryBytes =
      hits.length := by
    simp only [ScratchHitStore.hitOffset, queryScratchHeaderBytes, queryHitEntryBytes] at *
    omega
  rw [hcount, ← hrest, List.append_assoc]
  refine ⟨?_, by simp⟩
  rw [List.take_left, hholds.storedHits_eq]

/-- In any schedule of calls on a disk that does not fail, a query that completes has
stored every occurrence inside a record, in order, and one that exceeds its quota has
stored as many of the first as the quota holds and rejected the next. -/
theorem stores_documentHits (hsource : source.Reads document)
    (hmedium : ∀ w, (medium.write w).1 = none) {config : QuerySessionConfig}
    {owner : List Byte} (howner : owner.length = 16) {w w' : W}
    (hnew : new source format literal config owner w = (.ok session, w'))
    (calls : List AdvanceCall) (call : AdvanceCall) {status : QueryStepStatus}
    {after : QuerySession format × W}
    (hcall : advance medium source call.maxWorkBytes call.polls
      (advances medium source calls (session, w')) = (.ok status, after)) :
    (status = .complete →
      after.1.scratch.storedHits = (literal.documentHits document format).map .ok) ∧
    ∀ details, status = .quotaExceeded details →
      let count := (config.scratchQuotaBytes - queryScratchHeaderBytes) / queryHitEntryBytes
      after.1.scratch.storedHits =
          ((literal.documentHits document format).take count).map .ok ∧
        (literal.documentHits document format)[count]? = some details.rejectedHit := by
  obtain ⟨hgood, hquota⟩ := new_good hsource howner hnew
  have htraced : Traced source medium (fun _ => True) fun _ => False :=
    traced_of_reliable hmedium
  have hbefore := advances_good hsource htraced calls (session, w') (fun _ => hgood) trivial
  have hkept : Kept source medium fun store _ => store.quotaBytes = config.scratchQuotaBytes :=
    quota_kept _
  have hsame := (hkept.alike.advance call.maxWorkBytes call.polls _
    (hkept.alike.advances calls (session, w') hquota).2).2
  have hdone := advance_spec hsource htraced hbefore call.maxWorkBytes call.polls
    (advances medium source calls (session, w')).2
  rw [Prod.mk.eta, hcall] at hdone
  rw [hcall] at hsame
  obtain ⟨hstatus, hafter⟩ := hdone
  unfold Good at hafter
  refine ⟨?_, ?_⟩
  · rintro rfl
    rw [hstatus] at hafter
    exact ScratchHitStore.Holds.storedHits_eq hafter
  · rintro details rfl
    rw [hstatus] at hafter
    have hhits := Refused.hits_eq hafter
    rwa [show after.1.scratch.quotaBytes = config.scratchQuotaBytes from hsame] at hhits

/-! ### A disk that may fail -/

end QuerySession

/-- A call a query makes of its environment. -/
inductive QueryEvent where
  | source (event : SourceEvent)
  | write (failure : Option (IoError × Nat))

def ScratchMedium.logged {W : Type} (medium : ScratchMedium W) :
    ScratchMedium (List QueryEvent × W) where
  write p :=
    let r := medium.write p.2
    (r.1, p.1 ++ [.write r.1], r.2)

/-- Whether a write has stored its hit; nothing for a call of the source. -/
def QueryEvent.stored : QueryEvent → Option Bool
  | .source _ => none
  | .write failure => some failure.isNone

/-- A write fails right behind one that has stored a hit: the source has not been called in
between, so both hits come from one chunk. -/
def FailsBehindStored (log : List QueryEvent) : Prop :=
  [some true, some false] <:+: log.map QueryEvent.stored

instance (log : List QueryEvent) : Decidable (FailsBehindStored log) :=
  inferInstanceAs (Decidable (_ <:+: _))

theorem FailsBehindStored.append {log : List QueryEvent} (h : FailsBehindStored log)
    (more : List QueryEvent) : FailsBehindStored (log ++ more) := by
  rw [FailsBehindStored, List.map_append]
  exact List.IsInfix.trans h (List.infix_append' [] _ _)

namespace QuerySession

variable {W : Type} {format : ViewportFormat} {literal : Literal} {document : List Byte}

theorem traced_logged (source : PositionedRead W) (medium : ScratchMedium W) :
    Traced (source.logged QueryEvent.source) medium.logged
      (fun p => ¬ FailsBehindStored p.1)
      (fun p => (p.1.map QueryEvent.stored).getLast? ≠ some (some true)) where
  fingerprint p h hfails := h (hfails.append _)
  read p offset len h hfails := h (hfails.append _)
  write p h hfails := h (hfails.append _)
  stored p h hfresh := by
    apply hfresh
    simp only [ScratchMedium.logged] at h ⊢
    rw [h, List.map_append, List.getLast?_append]
    rfl
  failed p failure h hclean hlast := by
    apply hclean
    obtain ⟨before, hbefore⟩ := List.getLast?_eq_some_iff.mp hlast
    simp only [ScratchMedium.logged] at h ⊢
    rw [FailsBehindStored, List.map_append, hbefore, h, List.append_assoc]
    exact (List.suffix_append _ _).isInfix

/-- Whatever fails, and however often the caller calls again: as long as no write has
failed right behind one of the same chunk, what is stored are the first occurrences of the
document, each once. -/
theorem stored_isPrefix {source : PositionedRead W} (hsource : source.Reads document)
    (medium : ScratchMedium W) {config : QuerySessionConfig} {owner : List Byte}
    (howner : owner.length = 16) {p p' : List QueryEvent × W} {session : QuerySession format}
    (hnew : new (source.logged .source) format literal config owner p = (.ok session, p'))
    (calls : List AdvanceCall)
    (hclean : ¬ FailsBehindStored
      (advances medium.logged (source.logged .source) calls (session, p')).2.1) :
    ∃ hits, hits <+: literal.documentHits document format ∧
      (advances medium.logged (source.logged .source) calls (session, p')).1.scratch.storedHits =
        hits.map .ok := by
  have hgood := advances_good (hsource.logged _) (traced_logged source medium) calls
    (session, p') (fun _ => (new_good (hsource.logged _) howner hnew).1) hclean
  obtain ⟨hits, hholds, hfront⟩ := hgood.storedPrefix
  exact ⟨hits, hfront, hholds.storedHits_eq⟩

/-! ### Two documents of lines -/

/-- A disk whose writes fail as listed. -/
def failingDisk (fails : List Nat) : ScratchMedium Nat where
  write w := (if w ∈ fails then some (.os 28, 0) else none, w + 1)

def letterA : Literal := ⟨[97], .exact, by decide⟩

section Small
variable (lines : List Byte) (hsize : lines.length < u64Bound)
  (quota : Nat) (hquota : queryScratchHeaderBytes ≤ quota)

def smallConfig : QuerySessionConfig :=
  ⟨4, by decide, 1, by decide, 2, by decide, quota, hquota⟩

/-- What `new` makes of the document and the quota. -/
def smallSession : QuerySession .lines :=
  ⟨⟨lines.length, none, none, hsize⟩, none, some (atOffset ViewportFormat.lines.rules 0),
    .new letterA, smallConfig quota hquota, none, .create (List.replicate 16 7) quota,
    ⟨2, 0, []⟩, 0, 0, none, .running⟩

end Small

def uninterrupted (maxWorkBytes : Nat) : AdvanceCall :=
  ⟨maxWorkBytes, fun _ => ⟨false, fun _ => false⟩⟩

theorem smallSession_new (W : Type) (w : W) (lines : List Byte)
    (hsize : lines.length < u64Bound) (quota : Nat)
    (hquota : queryScratchHeaderBytes ≤ quota) :
    new (.ofBytesIn W lines hsize) .lines letterA (smallConfig quota hquota)
      (List.replicate 16 7) w = (.ok (smallSession lines hsize quota hquota), w) :=
  rfl

theorem stores_documentHits_quota :
    let source := PositionedRead.ofBytesIn Nat [97, 97, lf, 97] (by decide)
    let r := advance (failingDisk []) source (uninterrupted 8).maxWorkBytes
      (uninterrupted 8).polls
      (advances (failingDisk []) source []
        (smallSession [97, 97, lf, 97] (by decide) 96 (by decide), 0))
    r.2.1.scratch.storedHits =
        ((letterA.documentHits [97, 97, lf, 97] .lines).take 2).map .ok ∧
      (letterA.documentHits [97, 97, lf, 97] .lines)[2]? = some (letterA.hitAt 1 3) := by
  intro source r
  have hstatus : r.1 = .ok (.quotaExceeded ⟨96, 96, 120, 2, letterA.hitAt 1 3⟩) := by
    decide +kernel
  have hcall : r = (.ok (.quotaExceeded ⟨96, 96, 120, 2, letterA.hitAt 1 3⟩), r.2) :=
    Prod.ext hstatus rfl
  have hdisk : ∀ w, ((failingDisk []).write w).1 = none := fun w => rfl
  exact (stores_documentHits (PositionedRead.ofBytesIn_reads Nat _ _) hdisk
    List.length_replicate (smallSession_new Nat 0 [97, 97, lf, 97] (by decide) 96 (by decide))
    [] (uninterrupted 8) hcall).2 _ rfl

theorem stored_isPrefix_failing :
    let source := PositionedRead.ofBytesIn Nat [97, lf, 97] (by decide)
    let session := smallSession [97, lf, 97] (by decide) 200 (by decide)
    let opened : List QueryEvent := [.source (.fingerprint (source.fingerprint 0).1)]
    ∃ hits, hits <+: letterA.documentHits [97, lf, 97] .lines ∧
      (advances (failingDisk [0]).logged (source.logged .source)
        [uninterrupted 8, uninterrupted 8] (session, opened, 0)).1.scratch.storedHits =
          hits.map .ok := by
  intro source session opened
  have hnew : new (source.logged QueryEvent.source) .lines letterA (smallConfig 200 (by decide))
      (List.replicate 16 7) ([], 0) = (.ok session, opened, 0) := rfl
  refine stored_isPrefix (PositionedRead.ofBytesIn_reads Nat _ _) (failingDisk [0])
    List.length_replicate hnew _ ?_
  decide +kernel

/-- Both hits of `aa` come from one chunk; the write of the second fails, and the next call
stores the first once more. -/
theorem failed_write_stores_twice :
    let source := PositionedRead.ofBytesIn Nat [97, 97] (by decide)
    ¬ ∃ hits, hits <+: letterA.documentHits [97, 97] .lines ∧
      (advances (failingDisk [1]) source [uninterrupted 2, uninterrupted 2, uninterrupted 4]
        (smallSession [97, 97] (by decide) 200 (by decide), 0)).1.scratch.storedHits =
          hits.map .ok := by
  rintro source ⟨hits, hfront, heq⟩
  have hthree : (advances (failingDisk [1]) source
      [uninterrupted 2, uninterrupted 2, uninterrupted 4]
      (smallSession [97, 97] (by decide) 200 (by decide), 0)).1.scratch.storedHits.length = 3 := by
    decide +kernel
  have htwo : (letterA.documentHits [97, 97] .lines).length = 2 := by decide +kernel
  have hle := hfront.length_le
  rw [heq, List.length_map] at hthree
  omega

end QuerySession

end LeanRows
