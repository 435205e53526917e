import LeanRows.Query.Runs

/-!
# Snapshot integrity

Two facts about the scan and the query sessions. The bytes of a read do not matter unless
the fingerprint is unchanged in front of it and behind it. And what a session has seen go
wrong it remembers, except that a scan forgets a read that came back empty.
-/

namespace LeanRows

set_option autoImplicit false

section Evidence
variable {W : Type}

/-- The source is asked for its fingerprint and still has the one of the snapshot. -/
def Unchanged (snapshot : SourceFingerprint) (source : PositionedRead W) (w w' : W) : Prop :=
  ∃ current, source.fingerprint w = (.ok current, w') ∧ snapshot.compare current = .unchanged

/-- Two sources that differ only in the bytes of reads that are not between two unchanged
fingerprints. -/
structure SameBracketed (snapshot : SourceFingerprint) (source source' : PositionedRead W) :
    Prop where
  fingerprint : source'.fingerprint = source.fingerprint
  world : ∀ w offset len, (source'.readAt w offset len).2 = (source.readAt w offset len).2
  counts : ∀ w offset len, (source'.readAt w offset len).1.map List.length =
    (source.readAt w offset len).1.map List.length
  bytes : ∀ w₀ w w₁ offset len, Unchanged snapshot source w₀ w →
    Unchanged snapshot source (source.readAt w offset len).2 w₁ →
    (source'.readAt w offset len).1 = (source.readAt w offset len).1

/-- A change, a loss of the evidence, or an end of the data in front of the captured one. -/
def SourceEvent.Lost (snapshot : SourceFingerprint) : SourceEvent → Prop
  | .fingerprint (.error _) => True
  | .fingerprint (.ok current) => (snapshot.compare current).isChanged
  | .read _ _ (.error _) => False
  | .read _ _ (.ok bytes) => bytes = []

def SourceEvent.IsEmptyRead : SourceEvent → Prop
  | .read _ _ (.ok bytes) => bytes = []
  | _ => False

/-- What the log of the calls made so far says about the snapshot. -/
def Lost (snapshot : SourceFingerprint) (log : List SourceEvent) : Prop :=
  ∃ event ∈ log, event.Lost snapshot

@[simp] theorem lost_append {snapshot : SourceFingerprint} {log : List SourceEvent}
    {event : SourceEvent} :
    Lost snapshot (log ++ [event]) ↔ Lost snapshot log ∨ event.Lost snapshot := by
  simp only [Lost, List.mem_append, List.mem_singleton, or_and_right, exists_or, exists_eq_left]

end Evidence

/-! ## Scan sessions -/

namespace ScanSession

variable {W : Type} {format : ViewportFormat} {source source' : PositionedRead W}
  {session : ScanSession format}

theorem ensure_ok {w w' : W} {next : ScanSession format}
    (h : session.ensureSourceUnchanged source w = (.ok (), next, w')) :
    next = session ∧ session.sourceFailure = none ∧
      Unchanged session.snapshot source w w' := by
  unfold ensureSourceUnchanged at h
  cases hfailure : session.sourceFailure with
  | some failure => simp [hfailure] at h
  | none =>
    rw [hfailure] at h
    rcases hrun : source.fingerprint w with ⟨error | current, w₁⟩
    · simp [hrun] at h
    · rw [hrun] at h
      dsimp only at h
      split at h
      · cases h
      · rename_i hsame
        cases h
        refine ⟨rfl, rfl, current, hrun, ?_⟩
        simpa [SourceChange.isChanged] using hsame

theorem ensure_same (h : source'.fingerprint = source.fingerprint) (w : W) :
    session.ensureSourceUnchanged source' w = session.ensureSourceUnchanged source w := by
  simp only [ensureSourceUnchanged, h]

/-- What the calls of the source keep of the snapshot, the memory of a failure and the
world; the rest of a step does not touch them. -/
structure StepKept (source : PositionedRead W) (P : ScanSession format → W → Prop) : Prop where
  fields : ∀ (session next : ScanSession format) w, next.snapshot = session.snapshot →
    next.sourceFailure = session.sourceFailure → P session w → P next w
  ensure : ∀ (session : ScanSession format) w, P session w →
    P (session.ensureSourceUnchanged source w).2.1 (session.ensureSourceUnchanged source w).2.2
  read : ∀ (session : ScanSession format) w offset len, P session w →
    P session (source.readAt w offset len).2

section Kept
variable {P : ScanSession format → W → Prop} (h : StepKept source P)
include h

theorem StepKept.complete (processed before : Nat) (w : W) (hP : P session w) :
    P (session.complete processed before w).2.1 (session.complete processed before w).2.2 := by
  have hfinal : ∀ r, session.finalize = r → P r.2 w := by
    rintro r rfl
    unfold finalize
    split
    · exact hP
    · dsimp only
      split
      · exact h.fields session _ w rfl rfl hP
      · exact h.fields session _ w rfl rfl hP
  unfold ScanSession.complete
  split
  · rename_i hrun
    exact hfinal _ hrun
  · rename_i hrun
    exact hfinal _ hrun

theorem StepKept.afterFeed (before : Nat) (result : Except ScanError ScanProgress)
    (observerError : Option ScanSessionError) (w : W) (hP : P session w) :
    P (afterFeed source before result observerError session w).2.1
      (afterFeed source before result observerError session w).2.2 := by
  unfold ScanSession.afterFeed
  split
  · exact hP
  split
  · exact hP
  split
  · exact hP
  · exact hP
  split
  swap
  · exact hP
  have hnext := h.ensure session w hP
  split
  · rename_i hrun
    rw [hrun] at hnext
    exact hnext
  · rename_i hrun
    rw [hrun] at hnext
    exact h.complete _ _ _ hnext

theorem StepKept.step (byteQuantum : Nat) (polls : StepPolls) (w : W) (hP : P session w) :
    P (session.step source byteQuantum polls w).2.1
      (session.step source byteQuantum polls w).2.2 := by
  unfold ScanSession.step
  split
  · exact hP
  split
  · exact hP
  have hfirst := h.ensure session w hP
  split
  · rename_i hrun
    rw [hrun] at hfirst
    exact hfirst
  rename_i next w₁ hrun
  rw [hrun] at hfirst
  split
  · exact hfirst
  rename_i scanner _
  split
  · exact h.complete _ _ _ hfirst
  dsimp only
  generalize hrequest : min (min (next.snapshot.size - scanner.offset) byteQuantum)
    next.readBufferLen = request
  have hread := h.read next w₁ scanner.offset request hfirst
  split
  · rename_i hrun
    rw [hrun] at hread
    exact hread
  rename_i w₂ hrun
  rw [hrun] at hread
  split
  · exact hread
  split
  · exact hread
  have hlast := h.ensure next w₂ hread
  split
  · rename_i hrun
    rw [hrun] at hlast
    exact hlast
  · rename_i last w₃ hrun
    rw [hrun] at hlast
    exact h.afterFeed _ _ _ _ (h.fields last _ w₃ rfl rfl hlast)

theorem StepKept.steps (calls : List StepCall) (w : W) (hP : P session w) :
    P (steps source calls session w).1 (steps source calls session w).2 := by
  induction calls generalizing session w with
  | nil => exact hP
  | cons call calls ih => exact ih _ (h.step call.byteQuantum call.polls w hP)

end Kept

theorem snapshot_kept (snapshot : SourceFingerprint) :
    StepKept source fun (session : ScanSession format) (_ : W) => session.snapshot = snapshot where
  fields session next w hsame _ h := hsame.trans h
  ensure session w h := by
    obtain ⟨failure, w', hnext, -⟩ := ensureSourceUnchanged_spec source session w
    rw [hnext]
    exact h
  read _ _ _ _ h := h

/-- Bytes that are not bracketed do not reach a step. -/
theorem step_same (h : SameBracketed session.snapshot source source') (byteQuantum : Nat)
    (polls : StepPolls) (w : W) :
    session.step source' byteQuantum polls w = session.step source byteQuantum polls w := by
  have hafter : ∀ before result error (next : ScanSession format) w,
      afterFeed source' before result error next w =
        afterFeed source before result error next w := by
    intro before result error next w
    simp only [afterFeed, ensure_same h.fingerprint]
  unfold step
  split
  · rfl
  split
  · rfl
  rw [ensure_same h.fingerprint]
  split
  · rfl
  rename_i next w₁ hrun
  obtain ⟨rfl, -, hfirst⟩ := ensure_ok hrun
  split
  · rfl
  rename_i scanner _
  split
  · rfl
  dsimp only
  generalize hrequest : min (min (next.snapshot.size - scanner.offset) byteQuantum)
    next.readBufferLen = request
  have hworld := h.world w₁ scanner.offset request
  have hcounts := h.counts w₁ scanner.offset request
  have hbytes := fun w₂ => h.bytes w w₁ w₂ scanner.offset request hfirst
  rcases hread : source.readAt w₁ scanner.offset request with ⟨error | bytes, w₂⟩ <;>
    rcases hread' : source'.readAt w₁ scanner.offset request with ⟨error' | bytes', w₂'⟩ <;>
    rw [hread] at hworld hcounts hbytes <;> rw [hread'] at hworld hcounts hbytes <;>
    obtain rfl : w₂' = w₂ := hworld
  · cases hcounts
    rfl
  · cases hcounts
  · cases hcounts
  · have hlen : bytes'.length = bytes.length := by simpa [Except.map] using hcounts
    dsimp only [validateReadCount]
    rw [hlen]
    by_cases hcount : request < bytes.length
    · rw [if_pos hcount, if_pos hcount]
    rw [if_neg hcount, if_neg hcount]
    dsimp only
    have hempty : bytes'.isEmpty = bytes.isEmpty := by
      cases bytes <;> cases bytes' <;> simp_all
    rw [hempty]
    split
    · rfl
    rw [ensure_same h.fingerprint]
    split
    · rfl
    · rename_i hlast
      obtain ⟨rfl, -, hsecond⟩ := ensure_ok hlast
      have hsame := hbytes _ hsecond
      cases hsame
      simp only [feedChunk, hafter]

theorem steps_same {snapshot : SourceFingerprint} (h : SameBracketed snapshot source source')
    (hsnapshot : session.snapshot = snapshot) (calls : List StepCall) (w : W) :
    steps source' calls session w = steps source calls session w := by
  induction calls generalizing session w with
  | nil => rfl
  | cons call calls ih =>
    have hstep : session.step source' call.byteQuantum call.polls w =
        session.step source call.byteQuantum call.polls w := by
      subst hsnapshot
      exact step_same h call.byteQuantum call.polls w
    simp only [steps, hstep]
    exact ih ((snapshot_kept snapshot).step call.byteQuantum call.polls w hsnapshot) _

/-- A loss in the log is remembered, unless it is a read that came back empty. -/
def Remembers (format : ViewportFormat) (snapshot : SourceFingerprint)
    (session : ScanSession format)
    (p : List SourceEvent × W) : Prop :=
  session.snapshot = snapshot ∧
    ((∃ event ∈ p.1, event.Lost snapshot ∧ ¬ event.IsEmptyRead) → session.sourceFailure.isSome)

/-- An event more is the one that is remembered, or one before it is. -/
theorem remembers_append {snapshot : SourceFingerprint} {session : ScanSession format}
    {p : List SourceEvent × W} (h : Remembers format snapshot session p) {event : SourceEvent}
    (hnot : ¬ (event.Lost snapshot ∧ ¬ event.IsEmptyRead)) (w : W) :
    Remembers format snapshot session (p.1 ++ [event], w) := by
  refine ⟨h.1, ?_⟩
  rintro ⟨seen, hmem, hlost⟩
  rcases List.mem_append.mp hmem with hbefore | hnow
  · exact h.2 ⟨seen, hbefore, hlost⟩
  · rw [List.mem_singleton.mp hnow] at hlost
    exact absurd hlost hnot

theorem remembers_kept (source : PositionedRead W) (snapshot : SourceFingerprint) :
    StepKept (source.logged id) (Remembers format snapshot) where
  fields session next p hsame hfailure h := by
    refine ⟨hsame.trans h.1, ?_⟩
    rw [hfailure]
    exact h.2
  ensure session p h := by
    unfold ensureSourceUnchanged
    cases hfailure : session.sourceFailure with
    | some failure => exact h
    | none =>
      simp only [PositionedRead.logged, id]
      rcases source.fingerprint p.2 with ⟨error | current, w'⟩
      · exact ⟨h.1, fun _ => rfl⟩
      · dsimp only
        split
        · exact ⟨h.1, fun _ => rfl⟩
        · rename_i hsame
          apply remembers_append h
          rw [h.1] at hsame
          exact fun hlost => hsame hlost.1
  read session p offset len h := by
    apply remembers_append h
    rcases (source.readAt p.2 offset len).1 with error | bytes
    · exact fun hlost => hlost.1
    · exact fun hlost => hlost.2 hlost.1

theorem new_remembers {source : PositionedRead W} {config : ScanSessionConfig} {w : W}
    {p : List SourceEvent × W}
    (hnew : new (source.logged id) format config ([], w) = (.ok session, p)) :
    Remembers format session.snapshot session p := by
  unfold new at hnew
  split at hnew
  swap
  · cases hnew
  split at hnew
  swap
  · cases hnew
  split at hnew
  · cases hnew
  simp only [PositionedRead.logged, id] at hnew
  rcases hrun : (source.fingerprint w).1 with error | current
  · simp [hrun] at hnew
  · simp only [hrun, Prod.mk.injEq, Except.ok.injEq] at hnew
    obtain ⟨rfl, rfl⟩ := hnew
    refine ⟨rfl, ?_⟩
    rintro ⟨event, hmem, hlost, -⟩
    simp only [List.nil_append, List.mem_singleton] at hmem
    subst hmem
    simp [SourceEvent.Lost, SourceChange.isChanged] at hlost

/-- A session that remembers a failure does nothing more. -/
theorem failed_step (hfailure : session.sourceFailure.isSome) (byteQuantum : Nat)
    (polls : StepPolls) (w : W) :
    (session.step source byteQuantum polls w).2.1 = session ∧
      (polls.entry = false → ∃ error, (session.step source byteQuantum polls w).1 =
        .error error) := by
  obtain ⟨failure, hfailure⟩ := Option.isSome_iff_exists.mp hfailure
  have hensure : session.ensureSourceUnchanged source w =
      (.error (session.sourceFailureError failure), session, w) := by
    simp only [ensureSourceUnchanged, hfailure]
  unfold step
  split
  · exact ⟨rfl, fun _ => ⟨_, rfl⟩⟩
  split
  · rename_i hentry
    refine ⟨rfl, ?_⟩
    intro hnot
    rw [hnot] at hentry
    cases hentry
  · rw [hensure]
    exact ⟨rfl, fun _ => ⟨_, rfl⟩⟩

theorem failed_steps (hfailure : session.sourceFailure.isSome) (calls : List StepCall) (w : W) :
    (steps source calls session w).1 = session := by
  induction calls generalizing w with
  | nil => rfl
  | cons call calls ih =>
    simp only [steps, (failed_step hfailure call.byteQuantum call.polls w).1]
    exact ih _

/-- From a state on, nothing is observed any more and every uncancelled step fails. -/
def Frozen (source : PositionedRead W) (session : ScanSession format) (w : W) : Prop :=
  ∀ (calls : List StepCall), (steps source calls session w).1 = session ∧
    ∀ byteQuantum polls, polls.entry = false → ∃ error,
      (session.step source byteQuantum polls (steps source calls session w).2).1 = .error error

/-- A step that comes to a result shows that nothing is frozen. -/
theorem recovers_not_frozen (call : StepCall) {w : W} (hentry : call.polls.entry = false)
    (hok : (session.step source call.byteQuantum call.polls w).1.isOk) :
    ¬ Frozen source session w := by
  intro hfrozen
  obtain ⟨error, herror⟩ := (hfrozen []).2 call.byteQuantum call.polls hentry
  simp only [steps] at herror
  rw [herror] at hok
  cases hok

theorem failed_frozen (hfailure : session.sourceFailure.isSome) (w : W) :
    Frozen source session w :=
  fun calls => ⟨failed_steps hfailure calls w,
    fun byteQuantum polls => (failed_step hfailure byteQuantum polls _).2⟩

end ScanSession

/-! ## Query sessions -/

namespace QuerySession

variable {W : Type} {format : ViewportFormat} {source source' : PositionedRead W}
  {medium : ScratchMedium W} {session : QuerySession format}

theorem ensure_ok {w : W} {p : QuerySession format × W}
    (h : ensureSourceUnchanged source (session, w) = (.ok (), p)) :
    p.1 = session ∧ Unchanged session.sourceSnapshot source w p.2 := by
  have hcases := ensureSourceUnchanged_ensured source session w
  rw [h] at hcases
  cases hcases with
  | unchanged _ hrun hsame => exact ⟨rfl, _, hrun, hsame⟩

theorem ensure_same (h : source'.fingerprint = source.fingerprint) :
    (ensureSourceUnchanged source' : QueryM format W Unit) = ensureSourceUnchanged source := by
  funext p
  simp only [ensureSourceUnchanged, h]

theorem ensure_snapshot (snapshot : SourceFingerprint) :
    Exec.Preserves (fun p : QuerySession format × W => p.1.sourceSnapshot = snapshot)
      (ensureSourceUnchanged source) := by
  apply Exec.AgreeOn.self
  rintro ⟨session, w⟩ h
  have hcases := ensureSourceUnchanged_ensured source session w
  generalize ensureSourceUnchanged source (session, w) = r at hcases
  cases hcases <;> exact h

/-- A read answers alike, but for the bytes. -/
theorem read_same {snapshot : SourceFingerprint} (h : SameBracketed snapshot source source')
    (w : W) (offset len : Nat) :
    (source'.read QueryError.io offset len w).2 = (source.read QueryError.io offset len w).2 ∧
      ((source'.read QueryError.io offset len w).1 =
          (source.read QueryError.io offset len w).1 ∨
        ∃ bytes bytes', (source.read QueryError.io offset len w).1 = .ok bytes ∧
          (source'.read QueryError.io offset len w).1 = .ok bytes' ∧
          bytes'.length = bytes.length ∧
          (source.readAt w offset len).1 = .ok bytes ∧
          (source'.readAt w offset len).1 = .ok bytes') := by
  have hcounts := h.counts w offset len
  refine ⟨h.world w offset len, ?_⟩
  simp only [PositionedRead.read]
  rcases hread : (source.readAt w offset len).1 with error | bytes <;>
    rcases hread' : (source'.readAt w offset len).1 with error' | bytes' <;>
    rw [hread, hread'] at hcounts
  · cases hcounts
    exact .inl rfl
  · cases hcounts
  · cases hcounts
  · have hlen : bytes'.length = bytes.length := by simpa [Except.map] using hcounts
    simp only [Except.bind, validateReadCount, hlen]
    by_cases hcount : len < bytes.length
    · rw [if_pos hcount, if_pos hcount]
      exact .inl rfl
    · rw [if_neg hcount, if_neg hcount]
      exact .inr ⟨bytes, bytes', rfl, rfl, hlen, rfl, rfl⟩

theorem checkedReadAt_snapshot (snapshot : SourceFingerprint) (offset request : Nat) :
    Exec.Preserves (fun p : QuerySession format × W => p.1.sourceSnapshot = snapshot)
      (checkedReadAt source offset request) := by
  refine .bind (ensure_snapshot snapshot) fun _ => .bind (.self fun _ h => h) fun bytes => ?_
  split
  · exact .bind (.modify fun _ _ h => h) fun _ => .throw
  · exact .bind (ensure_snapshot snapshot) fun _ => .pure

/-- Bytes that are not bracketed do not leave `checked_read_at`. -/
theorem checkedReadAt_same {snapshot : SourceFingerprint}
    (h : SameBracketed snapshot source source') (offset request : Nat) :
    Exec.AgreeOn (fun p : QuerySession format × W => p.1.sourceSnapshot = snapshot)
      (checkedReadAt source offset request) (checkedReadAt source' offset request) := by
  rintro ⟨session, w⟩ hsnapshot
  refine ⟨?_, (checkedReadAt_snapshot snapshot offset request _ hsnapshot).2⟩
  unfold checkedReadAt
  rw [ensure_same h.fingerprint]
  rcases hfirst : ensureSourceUnchanged source (session, w) with ⟨error | ⟨⟩, next, w₁⟩
  · rw [Exec.run_bind_error hfirst, Exec.run_bind_error hfirst]
  rw [Exec.run_bind_ok hfirst, Exec.run_bind_ok hfirst]
  obtain ⟨hnext, hbefore⟩ := ensure_ok hfirst
  obtain rfl : next = session := hnext
  rw [show next.sourceSnapshot = snapshot from hsnapshot] at hbefore
  obtain ⟨hworld, hsame | ⟨bytes, bytes', hrun, hrun', hlen, hread, hread'⟩⟩ :=
    read_same h w₁ offset request
  · have hinner : (Exec.inner (source'.read QueryError.io offset request) :
        QueryM format W (List Byte)) (next, w₁) =
        Exec.inner (source.read QueryError.io offset request) (next, w₁) := by
      simp only [Exec.inner, hworld, hsame]
    simp only [Bind.bind, hinner]
  · have hok : (Exec.inner (source.read QueryError.io offset request) :
        QueryM format W (List Byte)) (next, w₁) =
        (.ok bytes, next, (source.read QueryError.io offset request w₁).2) := by
      simp only [Exec.inner, hrun]
    have hok' : (Exec.inner (source'.read QueryError.io offset request) :
        QueryM format W (List Byte)) (next, w₁) =
        (.ok bytes', next, (source.read QueryError.io offset request w₁).2) := by
      simp only [Exec.inner, hrun', hworld]
    rw [Exec.run_bind_ok hok, Exec.run_bind_ok hok']
    have hempty : bytes'.isEmpty = bytes.isEmpty := by
      cases bytes <;> cases bytes' <;> simp_all
    rw [hempty]
    by_cases hnone : bytes.isEmpty
    · rw [if_pos hnone, if_pos hnone]
    rw [if_neg hnone, if_neg hnone]
    rcases hlast : ensureSourceUnchanged source
        (next, (source.read QueryError.io offset request w₁).2) with ⟨error | ⟨⟩, last, w₃⟩
    · rw [Exec.run_bind_error hlast, Exec.run_bind_error hlast]
    · rw [Exec.run_bind_ok hlast, Exec.run_bind_ok hlast]
      obtain ⟨-, hafter⟩ := ensure_ok hlast
      rw [show next.sourceSnapshot = snapshot from hsnapshot] at hafter
      have hbytes := h.bytes w w₁ w₃ offset request hbefore hafter
      rw [hread, hread'] at hbytes
      cases hbytes
      rfl

theorem same_alike {snapshot : SourceFingerprint} (h : SameBracketed snapshot source source')
    (medium : ScratchMedium W) : Alike source source' medium
      fun p : QuerySession format × W => p.1.sourceSnapshot = snapshot where
  fields session next w hsame _ _ hI := hsame.trans hI
  ensure := by
    rw [ensure_same h.fingerprint]
    exact ensure_snapshot snapshot
  readAt := checkedReadAt_same h
  append hit := by
    apply Exec.AgreeOn.self
    rintro ⟨session, w⟩ hI
    simp only [appendHit]
    rcases session.scratch.append medium hit w with ⟨_ | _ | _, store, w'⟩ <;> exact hI

/-- What the log says is lost the session remembers. -/
def Remembers (format : ViewportFormat) (snapshot : SourceFingerprint)
    (p : QuerySession format × List SourceEvent × W) : Prop :=
  p.1.sourceSnapshot = snapshot ∧ (Lost snapshot p.2.1 → p.1.sourceFailure.isSome)

theorem ensure_remembers (source : PositionedRead W) (snapshot : SourceFingerprint) :
    Exec.Preserves (Remembers format snapshot)
      (ensureSourceUnchanged (source.logged id)) := by
  apply Exec.AgreeOn.self
  rintro ⟨session, log, w⟩ ⟨rfl, hlost⟩
  have hcases := ensureSourceUnchanged_ensured (source.logged id) session (log, w)
  generalize ensureSourceUnchanged (source.logged id) (session, log, w) = r at hcases
  cases hcases with
  | remembered h => exact ⟨rfl, hlost⟩
  | lost hrun => exact ⟨rfl, fun _ => rfl⟩
  | changed failure hrun h => exact ⟨rfl, fun _ => rfl⟩
  | unchanged hnone hrun h =>
    refine ⟨rfl, ?_⟩
    intro hlater
    simp only [PositionedRead.logged, id, Prod.mk.injEq] at hrun
    obtain ⟨hanswer, rfl⟩ := hrun
    rw [lost_append] at hlater
    rcases hlater with hbefore | hnow
    · exact hlost hbefore
    · rw [hanswer] at hnow
      simp [SourceEvent.Lost, h, SourceChange.isChanged] at hnow

theorem checkedReadAt_remembers (source : PositionedRead W) (snapshot : SourceFingerprint)
    (offset request : Nat) :
    Exec.Preserves (Remembers format snapshot)
      (checkedReadAt (source.logged id) offset request) := by
  refine .bind (ensure_remembers source snapshot) fun _ => .self ?_
  rintro ⟨session, log, w⟩ ⟨hsnapshot, hlost⟩
  -- a read is not lost unless it is empty, and then the session is marked right behind it
  have hinner : (Exec.inner ((source.logged id).read QueryError.io offset request) :
      QueryM format (List SourceEvent × W) (List Byte)) (session, log, w) =
      (((source.logged id).read QueryError.io offset request (log, w)).1, session,
        log ++ [.read offset request (source.readAt w offset request).1],
        (source.readAt w offset request).2) := rfl
  have hkeep : (∀ bytes, (source.readAt w offset request).1 = .ok bytes → bytes ≠ []) →
      Remembers format snapshot (session,
        log ++ [.read offset request (source.readAt w offset request).1],
        (source.readAt w offset request).2) := by
    intro hne
    refine ⟨hsnapshot, ?_⟩
    intro hlater
    rcases lost_append.mp hlater with hbefore | hnow
    · exact hlost hbefore
    · exfalso
      revert hnow hne
      rcases (source.readAt w offset request).1 with error | bytes
      · exact fun _ => id
      · exact fun hne => hne bytes rfl
  rcases hread : ((source.logged id).read QueryError.io offset request (log, w)).1 with
    error | bytes
  · rw [hread] at hinner
    rw [Exec.run_bind_error hinner]
    apply hkeep
    rintro bytes hbytes rfl
    simp [PositionedRead.read, PositionedRead.logged, hbytes, Except.bind, validateReadCount,
      Except.mapError] at hread
  · rw [hread] at hinner
    rw [Exec.run_bind_ok hinner]
    cases bytes with
    | nil => exact ⟨hsnapshot, fun _ => rfl⟩
    | cons byte bytes =>
      have hnext := hkeep (by
        rintro raw hraw rfl
        simp [PositionedRead.read, PositionedRead.logged, hraw, Except.bind, validateReadCount,
          Except.mapError] at hread)
      have hrest : Exec.Preserves (Remembers (W := W) format snapshot) (do
          ensureSourceUnchanged (source.logged id)
          pure (byte :: bytes)) := .bind (ensure_remembers source snapshot) fun _ => .pure
      exact (hrest _ hnext).2

theorem remembers_alike (source : PositionedRead W) (medium : ScratchMedium W)
    (snapshot : SourceFingerprint) : Alike (source.logged id) (source.logged id)
      medium.beside (Remembers format snapshot) where
  fields session next p hsame hfailure _ hI := by
    refine ⟨hsame.trans hI.1, ?_⟩
    dsimp only
    rw [hfailure]
    exact hI.2
  ensure := ensure_remembers source snapshot
  readAt := checkedReadAt_remembers source snapshot
  append hit := by
    apply Exec.AgreeOn.self
    rintro ⟨session, log, w⟩ hI
    have hlog : (session.scratch.append medium.beside hit (log, w)).2.2.1 =
        log := by
      have hwrite : (medium.beside.write (log, w)).2.1 = log := rfl
      unfold ScratchHitStore.append
      split
      · rfl
      split
      · rfl
      split
      · rename_i hrun
        rw [hrun] at hwrite
        exact hwrite
      · rename_i hrun
        rw [hrun] at hwrite
        dsimp only
        split
        · exact hwrite
        · exact hwrite
    simp only [appendHit]
    rcases hrun : session.scratch.append medium.beside hit (log, w) with
      ⟨_ | _ | _, store, log', w'⟩ <;>
    · rw [hrun] at hlog
      obtain rfl : log' = log := hlog
      exact hI

theorem new_remembers {source : PositionedRead W} {literal : Literal}
    {config : QuerySessionConfig} {owner : List Byte} {w : W} {p : List SourceEvent × W}
    (hnew : new (source.logged id) format literal config owner ([], w) = (.ok session, p)) :
    Remembers format session.sourceSnapshot (session, p) := by
  rcases hrun : (source.fingerprint w).1 with error | current
  · simp [new, PositionedRead.capture, PositionedRead.logged, bind, hrun, Except.mapError] at hnew
  · simp only [new, PositionedRead.capture, PositionedRead.logged, bind, hrun, Except.mapError,
      Exec.run_pure, Prod.mk.injEq, Except.ok.injEq, id] at hnew
    obtain ⟨rfl, rfl⟩ := hnew
    refine ⟨rfl, ?_⟩
    rintro ⟨event, hmem, hlost⟩
    simp only [List.nil_append, List.mem_singleton] at hmem
    subst hmem
    simp [SourceEvent.Lost, SourceChange.isChanged] at hlost

/-- A session that remembers a failure changes nothing but what it reports of itself. -/
theorem failed_advance (hfailure : session.sourceFailure.isSome) (maxWorkBytes : Nat)
    (polls : Nat → StepPolls) (w : W) :
    (∃ status, (advance medium source maxWorkBytes polls (session, w)).2 =
        ({ session with status := status }, w)) ∧
      ((polls 0).entry = false →
        ∃ error, (advance medium source maxWorkBytes polls (session, w)).1 = .error error) := by
  obtain ⟨failure, hfailure⟩ := Option.isSome_iff_exists.mp hfailure
  have hensure : ∀ status, ensureSourceUnchanged source
      ({ session with status := status }, w) =
        (.error (session.sourceFailureError failure), { session with status := status }, w) := by
    intro status
    simp only [ensureSourceUnchanged, hfailure]
    cases failure <;> rfl
  unfold advance
  split
  · exact ⟨⟨session.status, rfl⟩, fun _ => ⟨_, rfl⟩⟩
  rw [Exec.run_get_bind]
  have hfinished : ∀ (status : QueryStepStatus), ∀ r,
      (if (polls 0).entry then pure status else do
        ensureSourceUnchanged source
        pure status : QueryM format W QueryStepStatus) (session, w) = r →
      (∃ status, r.2 = ({ session with status := status }, w)) ∧
        ((polls 0).entry = false → ∃ error, r.1 = .error error) := by
    rintro status r rfl
    cases hentry : (polls 0).entry with
    | true => exact ⟨⟨session.status, rfl⟩, fun h => by cases h⟩
    | false =>
      rw [if_neg Bool.false_ne_true, Exec.run_bind_error (hensure session.status)]
      exact ⟨⟨session.status, rfl⟩, fun _ => ⟨_, rfl⟩⟩
  have hrunning : ∀ r,
      ((do
        Exec.modify fun session => { session with status := .running }
        advanceLoop medium source polls (turnBound maxWorkBytes) 0 maxWorkBytes) :
          QueryM format W QueryStepStatus) (session, w) = r →
      (∃ status, r.2 = ({ session with status := status }, w)) ∧
        ((polls 0).entry = false → ∃ error, r.1 = .error error) := by
    rintro r rfl
    rw [Exec.run_modify_bind]
    simp only [turnBound, advanceLoop]
    cases hentry : (polls 0).entry with
    | true =>
      have hturn : turn medium source maxWorkBytes (polls 0)
          ({ session with status := .running }, w) =
          (.ok (.done .cancelled), { session with status := .cancelled }, w) := by
        simp only [turn, hentry]
        rfl
      rw [Exec.run_bind_ok hturn]
      exact ⟨⟨.cancelled, rfl⟩, fun h => by cases h⟩
    | false =>
      have hturn : turn medium source maxWorkBytes (polls 0)
          ({ session with status := .running }, w) =
          (.error (session.sourceFailureError failure), { session with status := .running },
            w) := by
        simp only [turn, hentry]
        exact Exec.run_bind_error (hensure .running)
      rw [Exec.run_bind_error hturn]
      exact ⟨⟨.running, rfl⟩, fun _ => ⟨_, rfl⟩⟩
  cases session.status with
  | complete => exact hfinished _ _ rfl
  | quotaExceeded details => exact hfinished _ _ rfl
  | running => exact hrunning _ rfl
  | cancelled => exact hrunning _ rfl

theorem failed_advances (hfailure : session.sourceFailure.isSome) (calls : List AdvanceCall)
    (w : W) : ∃ status, advances medium source calls (session, w) =
      ({ session with status := status }, w) := by
  induction calls generalizing session with
  | nil => exact ⟨session.status, rfl⟩
  | cons call calls ih =>
    have hcall : ∃ status, (advance medium source call.maxWorkBytes call.polls (session, w)).2 =
        ({ session with status := status }, w) :=
      (failed_advance hfailure call.maxWorkBytes call.polls w).1
    obtain ⟨status, hnext⟩ := hcall
    simp only [advances, hnext]
    have hstill : ({ session with status := status } :
        QuerySession format).sourceFailure.isSome := hfailure
    exact ih hstill

/-- From a state on, nothing is observed or stored any more and every uncancelled call
fails. -/
def Frozen (medium : ScratchMedium W) (source : PositionedRead W)
    (session : QuerySession format) (w : W) : Prop :=
  ∀ calls : List AdvanceCall,
    (advances medium source calls (session, w)).1.progress = session.progress ∧
    (advances medium source calls (session, w)).1.scratch = session.scratch ∧
    ∀ maxWorkBytes polls, (polls 0).entry = false → ∃ error,
      (advance medium source maxWorkBytes polls
        (advances medium source calls (session, w))).1 = .error error

theorem failed_frozen (hfailure : session.sourceFailure.isSome) (w : W) :
    Frozen medium source session w := by
  intro calls
  have hcalls : ∃ status, advances medium source calls (session, w) =
      ({ session with status := status }, w) := failed_advances hfailure calls w
  obtain ⟨status, hrun⟩ := hcalls
  rw [hrun]
  refine ⟨rfl, rfl, ?_⟩
  have hstill : ({ session with status := status } :
      QuerySession format).sourceFailure.isSome := hfailure
  exact fun maxWorkBytes polls => (failed_advance hstill maxWorkBytes polls w).2

end QuerySession

/-! ## Both sessions -/

section Integrity
variable {W : Type}

/-- Bytes that are not between two unchanged fingerprints change nothing, whatever the
schedule. What is lost stays lost: for a query always, for a scan unless all that was lost
was a read that came back empty. -/
theorem snapshot_integrity (format : ViewportFormat) (source source' : PositionedRead W)
    (medium : ScratchMedium W) (w : W) :
    (∀ config session, (ScanSession.new source format config w).1 = .ok session →
      SameBracketed session.snapshot source source' →
      ∀ calls w', ScanSession.steps source' calls session w' =
        ScanSession.steps source calls session w') ∧
    (∀ config session p,
      ScanSession.new (source.logged id) format config ([], w) = (.ok session, p) →
      ∀ calls after p', ScanSession.steps (source.logged id) calls session p = (after, p') →
        (∃ event ∈ p'.1, event.Lost session.snapshot ∧ ¬ event.IsEmptyRead) →
        ScanSession.Frozen (source.logged id) after p') ∧
    (∀ literal config owner session,
      (QuerySession.new source format literal config owner w).1 = .ok session →
      SameBracketed session.sourceSnapshot source source' →
      ∀ calls w', QuerySession.advances medium source' calls (session, w') =
        QuerySession.advances medium source calls (session, w')) ∧
    ∀ literal config owner session p,
      QuerySession.new (source.logged id) format literal config owner ([], w) =
        (.ok session, p) →
      ∀ calls after p',
        QuerySession.advances medium.beside (source.logged id)
          calls (session, p) = (after, p') →
        Lost session.sourceSnapshot p'.1 →
        QuerySession.Frozen medium.beside (source.logged id)
          after p' := by
  refine ⟨?_, ?_, ?_, ?_⟩
  · intro config session _ hsame calls w'
    exact ScanSession.steps_same hsame rfl calls w'
  · intro config session p hnew calls after p' hrun hlost
    have hkept := (ScanSession.remembers_kept source session.snapshot).steps calls p
      (ScanSession.new_remembers hnew)
    rw [hrun] at hkept
    exact ScanSession.failed_frozen (hkept.2 hlost) p'
  · intro literal config owner session _ hsame calls w'
    exact ((QuerySession.same_alike hsame medium).advances calls (session, w') rfl).1
  · intro literal config owner session p hnew calls after p' hrun hlost
    have hkept := ((QuerySession.remembers_alike source medium session.sourceSnapshot).advances
      calls (session, p) (QuerySession.new_remembers hnew)).2
    rw [hrun] at hkept
    exact QuerySession.failed_frozen (hkept.2 hlost) p'

def fourBytes : SourceFingerprint := ⟨4, none, none, by decide⟩

def fiveBytes : SourceFingerprint := ⟨5, none, none, by decide⟩

/-- A file of two lines that has another size at the calls of `grown`, delivers nothing at
those of `empty` and zeros at those of `garbled`. -/
def unsteadyFile (grown empty garbled : List Nat) : PositionedRead Nat where
  fingerprint w := (.ok (if w ∈ grown then fiveBytes else fourBytes), w + 1)
  readAt w offset len :=
    let bytes := (([97, lf, 98, lf] : List Byte).drop offset).take len
    (.ok (if w ∈ empty then [] else if w ∈ garbled then bytes.map fun _ => 0 else bytes), w + 1)

/-- What a read delivers in front of a changed fingerprint is never looked at. -/
theorem garbled_sameBracketed :
    SameBracketed fourBytes (unsteadyFile [4] [] []) (unsteadyFile [4] [] [3]) where
  fingerprint := rfl
  world w offset len := rfl
  counts w offset len := by
    simp only [unsteadyFile, Except.map, List.not_mem_nil, if_false]
    split
    · rw [List.length_map]
    · rfl
  bytes w₀ w w₁ offset len _ hafter := by
    obtain ⟨current, hrun, hsame⟩ := hafter
    simp only [unsteadyFile, Prod.mk.injEq, Except.ok.injEq, List.mem_singleton] at hrun
    have hne : w ≠ 3 := by
      rintro rfl
      rw [if_pos rfl] at hrun
      rw [← hrun.1] at hsame
      revert hsame
      decide
    simp only [unsteadyFile, List.mem_singleton, if_neg hne, List.not_mem_nil, if_false]

section Grown
open QuerySession (letterA smallConfig smallSession uninterrupted failingDisk advances)

theorem snapshot_integrity_grown :
    let source := unsteadyFile [4] [] []
    let garbled := unsteadyFile [4] [] [3]
    let call : ScanSession.StepCall := ⟨4, false, fun _ => false⟩
    let config : ScanSessionConfig := ⟨4, 1, 2, 1⟩
    let query := smallSession [97, lf, 98, lf] (by decide) 96 (by decide)
    let opened : List SourceEvent × Nat := ([.fingerprint (.ok fourBytes)], 1)
    ∃ scan, (ScanSession.new source .lines config 0).1 = .ok scan ∧
      ScanSession.steps garbled [call, call] scan 1 = ScanSession.steps source [call, call] scan 1 ∧
      ScanSession.Frozen (source.logged id)
        (ScanSession.steps (source.logged id) [call, call] scan opened).1
        (ScanSession.steps (source.logged id) [call, call] scan opened).2 ∧
      advances (failingDisk []) garbled [uninterrupted 4] (query, 1) =
        advances (failingDisk []) source [uninterrupted 4] (query, 1) ∧
      QuerySession.Frozen (failingDisk []).beside (source.logged id)
        (advances (failingDisk []).beside (source.logged id) [uninterrupted 4]
          (query, opened)).1
        (advances (failingDisk []).beside (source.logged id) [uninterrupted 4]
          (query, opened)).2 := by
  intro source garbled call config query opened
  obtain ⟨hscan, hfrozen, hquery, hstays⟩ :=
    snapshot_integrity .lines source garbled (failingDisk []) 0
  refine ⟨_, rfl, hscan config _ rfl garbled_sameBracketed _ 1,
    hfrozen config _ _ rfl [call, call] _ _ rfl ⟨.fingerprint (.ok fiveBytes), ?_, rfl, id⟩,
    hquery letterA (smallConfig 96 (by decide)) (List.replicate 16 7) query rfl
      garbled_sameBracketed _ 1,
    hstays letterA (smallConfig 96 (by decide)) (List.replicate 16 7) query opened rfl
      [uninterrupted 4] _ _ rfl ⟨.fingerprint (.ok fiveBytes), ?_, rfl⟩⟩
  · decide +kernel
  · decide +kernel

end Grown

/-- The first read delivers nothing, and the step that made it says that the file shrank.
The step after it goes on as if nothing had been. -/
theorem empty_read_forgotten :
    let source := (unsteadyFile [] [2] []).logged id
    let call : ScanSession.StepCall := ⟨4, false, fun _ => false⟩
    let config : ScanSessionConfig := ⟨4, 1, 2, 1⟩
    ∃ session p, ScanSession.new source .lines config ([], 0) = (.ok session, p) ∧
      Lost session.snapshot (ScanSession.steps source [call] session p).2.1 ∧
      ¬ ScanSession.Frozen source (ScanSession.steps source [call] session p).1
        (ScanSession.steps source [call] session p).2 := by
  intro source call config
  refine ⟨_, _, rfl, ⟨.read 0 2 (.ok []), by decide +kernel, rfl⟩, ?_⟩
  apply ScanSession.recovers_not_frozen call rfl
  decide +kernel

end Integrity

end LeanRows
