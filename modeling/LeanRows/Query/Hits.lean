import LeanRows.Query.Session

/-!
# The hits a query has stored

`Tracks` ties a session to its document: the scanner has delivered the first records, and
`found` are the occurrences up to the cursor of the pending one. Between two calls the
stored hits are `found`, unless an append has failed in the middle of a chunk.
-/

namespace LeanRows

set_option autoImplicit false

open BoundaryScanner

namespace QuerySession

variable {W : Type} {format : ViewportFormat}

section Invariant
variable (literal : Literal) (document : List Byte)

/-- The records the scanner has delivered. -/
def Delivered (scanner : Option (FormatScanner format)) (delivered : List RecordSpan) : Prop :=
  match scanner with
  | some scanner => Scans (atOffset format.rules 0) document delivered scanner
      (document.drop scanner.offset)
  | none => delivered = records format document

/-- A pending record behind the records `before`, read up to its cursor. -/
structure Pending (before : List RecordSpan) (pending : PendingRecord) : Prop where
  row : pending.row = before.length
  start_le : pending.span.start ≤ pending.cursor
  le_stop : pending.cursor ≤ pending.span.stop
  reads : (CompiledLiteral.new literal).Reads
    (literal.textRead document pending.span.start pending.cursor) pending.matcherState

/-- The occurrences in the records delivered, up to the cursor of the pending one. -/
def Found (pending : Option PendingRecord) (delivered : List RecordSpan)
    (found : List QueryHit) : Prop :=
  match pending with
  | none => found = literal.hitsFrom document 0 delivered
  | some pending => ∃ before, delivered = before ++ [pending.span] ∧
      Pending literal document before pending ∧
      found = literal.hitsFrom document 0 before ++
        literal.hitsBetween document pending.row pending.span.start pending.cursor

structure Tracks (session : QuerySession format) (found : List QueryHit) : Prop where
  size : session.sourceSnapshot.size = document.length
  literal_eq : session.literal = .new literal
  found : ∃ delivered, Delivered document session.scanner delivered ∧
    delivered.length = session.nextRow ∧ Found literal document session.pending delivered found

/-- The store is full up to the last address: every append to it fails, and changes
nothing. -/
def Full (store : ScratchHitStore) : Prop :=
  checkedAdd store.usedBytes queryHitEntryBytes = none

/-- What is stored are the hits found; a full store may be ahead of them. -/
def Stores (format : ViewportFormat) (store : ScratchHitStore)
    (found extra : List QueryHit) : Prop :=
  store.Holds (found ++ extra) ∧
    (extra = [] ∨ Full store ∧ found ++ extra <+: literal.documentHits document format)

/-- Where a session that can go on stands. -/
def Sound (session : QuerySession format) : Prop :=
  ∃ found extra, Tracks literal document session found ∧
    Stores literal document format session.scratch found extra

/-- The quota has been reached in front of the hit `rejected`. -/
def Refused (session : QuerySession format) (rejected : QueryHit) : Prop :=
  ∃ hits, session.scratch.Holds hits ∧
    hits ++ [rejected] <+: literal.documentHits document format ∧
    session.scratch.quotaBytes < ScratchHitStore.hitOffset (hits.length + 1)

/-- The invariant of a session between two calls. -/
def Good (session : QuerySession format) : Prop :=
  match session.status with
  | .running | .cancelled => Sound literal document session
  | .complete => session.scratch.Holds (literal.documentHits document format)
  | .quotaExceeded details => Refused literal document session details.rejectedHit

end Invariant

variable {literal : Literal} {document : List Byte}

/-! ### Facts about the invariant -/

theorem Delivered.isPrefix {scanner : Option (FormatScanner format)}
    {delivered : List RecordSpan} (h : Delivered document scanner delivered) :
    delivered <+: records format document := by
  cases scanner with
  | none => rw [h]
  | some scanner =>
    rw [← remaining_eq_records, Scans.remaining_eq h]
    exact List.prefix_append _ _

/-- Behind the last byte only the scanner's last record is to come. -/
theorem Delivered.ended {scanner : FormatScanner format} {delivered : List RecordSpan}
    (h : Delivered document (some scanner) delivered) (hend : document.length ≤ scanner.offset) :
    records format document = delivered ++ scanner.lastRecord.toList := by
  have hscans := Scans.remaining_eq h
  rwa [remaining_eq_records, List.drop_eq_nil_of_le hend, Mealy.remaining_nil] at hscans

theorem Delivered.offset_le {scanner : FormatScanner format} {delivered : List RecordSpan}
    (h : Delivered document (some scanner) delivered) : scanner.offset ≤ document.length := by
  have hoffset := Scans.offset_eq h
  rw [atOffset_offset, List.length_drop] at hoffset
  omega

theorem hitsBetween_front (row start : Nat) {stop stop' : Nat} (h : stop ≤ stop') :
    literal.hitsBetween document row start stop <+:
      literal.hitsBetween document row start stop' := by
  induction h with
  | refl => exact List.prefix_rfl
  | step _ ih =>
    apply ih.trans
    rw [Literal.hitsBetween_succ]
    exact List.prefix_append _ _

/-- The hits up to a place in a record delivered are the first of the document's. -/
theorem hitsUpTo_front {before : List RecordSpan} {span : RecordSpan} {stop : Nat}
    (h : before ++ [span] <+: records format document) (hstop : stop ≤ span.stop) :
    literal.hitsFrom document 0 before ++
      literal.hitsBetween document before.length span.start stop <+:
      literal.documentHits document format := by
  have hrecord : literal.hitsFrom document 0 (before ++ [span]) =
      literal.hitsFrom document 0 before ++
        literal.hitsBetween document before.length span.start span.stop := by
    rw [Literal.hitsFrom_append, Nat.zero_add]
    simp [Literal.hitsFrom, Literal.recordHits]
  apply List.IsPrefix.trans _ (Literal.hitsFrom_front 0 h)
  rw [hrecord]
  exact (List.prefix_append_right_inj _).mpr (hitsBetween_front _ _ hstop)

theorem Tracks.isPrefix {session : QuerySession format} {found : List QueryHit}
    (h : Tracks literal document session found) :
    found <+: literal.documentHits document format := by
  obtain ⟨delivered, hdelivered, _, hfound⟩ := h.found
  cases hpending : session.pending with
  | none =>
    rw [hpending] at hfound
    rw [hfound]
    exact Literal.hitsFrom_front 0 hdelivered.isPrefix
  | some pending =>
    rw [hpending] at hfound
    obtain ⟨before, rfl, hrecord, rfl⟩ := hfound
    rw [hrecord.row]
    exact hitsUpTo_front hdelivered.isPrefix hrecord.le_stop

theorem Sound.storedPrefix {session : QuerySession format}
    (h : Sound literal document session) :
    ∃ hits, session.scratch.Holds hits ∧ hits <+: literal.documentHits document format := by
  obtain ⟨found, extra, htracks, hholds, rfl | ⟨_, hahead⟩⟩ := h
  · exact ⟨_, hholds, by simpa using htracks.isPrefix⟩
  · exact ⟨_, hholds, hahead⟩

theorem Good.storedPrefix {session : QuerySession format} (h : Good literal document session) :
    ∃ hits, session.scratch.Holds hits ∧ hits <+: literal.documentHits document format := by
  unfold Good at h
  split at h
  · exact h.storedPrefix
  · exact h.storedPrefix
  · exact ⟨_, h, List.prefix_rfl⟩
  · obtain ⟨hits, hholds, hnext, _⟩ := h
    exact ⟨hits, hholds, (List.prefix_append _ _).trans hnext⟩

/-- A hit of the document is made of `u64`s. -/
theorem hit_fits {before : List RecordSpan} {span : RecordSpan} {stop : Nat}
    (h : before ++ [span] <+: records format document) (hstop : stop ≤ span.stop)
    (hsize : document.length < u64Bound) {start : Nat} (hstart : start ≤ stop) :
    QueryHit.Fits ⟨before.length, ⟨start, stop, hstart⟩⟩ := by
  have hmem : span ∈ records format document := h.subset (by simp)
  have hlast := record_stop_le hmem
  have hle := h.length_le
  have hcount := records_length_le format document
  rw [List.length_append, List.length_singleton] at hle
  refine ⟨?_, ?_⟩
  · change before.length < u64Bound
    omega
  · change stop < u64Bound
    omega

/-! ### What a source read may change -/

/-- Only the memory of a source failure. -/
theorem Tracks.withFailure {session : QuerySession format} {found : List QueryHit}
    (h : Tracks literal document session found) (failure : Option QuerySourceFailure) :
    Tracks literal document { session with sourceFailure := failure } found :=
  ⟨h.size, h.literal_eq, h.found⟩

section Source
variable {source : PositionedRead W} {P : QuerySession format → W → Prop}
  {fail : QueryError → QuerySession format × W → Prop}

/-- An assertion that the calls of the source do not break. -/
structure Stable (source : PositionedRead W) (P : QuerySession format → W → Prop) : Prop where
  failure : ∀ session w failure, P session w →
    P { session with sourceFailure := failure } w
  fingerprint : ∀ session w, P session w → P session (source.fingerprint w).2
  read : ∀ session w offset len, P session w → P session (source.readAt w offset len).2

theorem ensureSourceUnchanged_triple (hstable : Stable source P) :
    Exec.Triple (fun p => P p.1 p.2) (ensureSourceUnchanged source)
      (fun _ p => P p.1 p.2) (fun _ p => P p.1 p.2) := by
  rintro ⟨session, w⟩ hP
  have hnext := hstable.fingerprint session w hP
  have hcases := ensureSourceUnchanged_ensured source session w
  generalize ensureSourceUnchanged source (session, w) = r at hcases
  cases hcases with
  | remembered _ => exact hP
  | lost hrun =>
    rw [hrun] at hnext
    exact hstable.failure session _ _ hnext
  | changed _ hrun _ =>
    rw [hrun] at hnext
    exact hstable.failure session _ _ hnext
  | unchanged _ hrun _ => rwa [hrun] at hnext

theorem checkedReadAt_triple (hsource : source.Reads document) (hstable : Stable source P)
    (offset request : Nat) :
    Exec.Triple (fun p => P p.1 p.2) (checkedReadAt source offset request)
      (fun bytes p => (bytes ≠ [] ∧ bytes.length ≤ request ∧ bytes <+: document.drop offset) ∧
        P p.1 p.2)
      (fun _ p => P p.1 p.2) := by
  refine Exec.Triple.bind (ensureSourceUnchanged_triple hstable) ?_
  rintro ⟨⟩
  have hread : Exec.Triple (fun p : QuerySession format × W => P p.1 p.2)
      (Exec.inner (source.read QueryError.io offset request))
      (fun bytes p => (bytes.length ≤ request ∧ bytes <+: document.drop offset) ∧ P p.1 p.2)
      (fun _ p => P p.1 p.2) := by
    rintro ⟨session, w⟩ hP
    have hnext := hstable.read session w offset request hP
    have hbytes := @PositionedRead.read_ensures _ _ QueryError.io _ _ hsource offset request w
    simp only [Exec.inner]
    cases hrun : (source.read QueryError.io offset request w).1 with
    | error error => exact hnext
    | ok bytes => exact ⟨hbytes bytes hrun, hnext⟩
  refine Exec.Triple.bind hread ?_
  intro bytes
  apply Exec.Triple.of_pre
  rintro ⟨hlen, hpre⟩
  split
  · have hmark : Exec.Triple (fun p : QuerySession format × W => P p.1 p.2)
        (Exec.modify fun session => { session with sourceFailure := some .shortRead })
        (fun _ p => P p.1 p.2) (fun (_ : QueryError) p => P p.1 p.2) :=
      .modify fun session w hP => hstable.failure session w _ hP
    refine Exec.Triple.bind hmark ?_
    intro _
    exact .throw fun _ hP => hP
  · rename_i hne
    refine Exec.Triple.bind (ensureSourceUnchanged_triple hstable) ?_
    rintro ⟨⟩
    apply Exec.Triple.pure
    intro p hP
    exact ⟨⟨by simpa using hne, hlen, hpre⟩, hP⟩

end Source

/-! ### Matching a chunk -/

/-- How the environment is known to have behaved. `clean` fails for good once a write has
failed behind a stored one, `fresh` fails behind a stored write until the source is called
again. -/
structure Traced (source : PositionedRead W) (medium : ScratchMedium W)
    (clean fresh : W → Prop) : Prop where
  fingerprint : ∀ w, clean (source.fingerprint w).2 → clean w
  read : ∀ w offset len, clean (source.readAt w offset len).2 → clean w
  write : ∀ w, clean (medium.write w).2 → clean w
  stored : ∀ w, (medium.write w).1 = none → ¬ fresh (medium.write w).2
  failed : ∀ w error, (medium.write w).1 = some error → clean (medium.write w).2 → fresh w

/-- In the middle of a call that can go on. -/
structure Going (literal : Literal) (document : List Byte) (session : QuerySession format) :
    Prop where
  running : session.status = .running
  sound : Sound literal document session

def hitsUpTo (literal : Literal) (document : List Byte) (before : List RecordSpan)
    (pending : PendingRecord) (stop : Nat) : List QueryHit :=
  literal.hitsFrom document 0 before ++
    literal.hitsBetween document pending.row pending.span.start stop

/-- In the loop over a chunk: `processed` bytes behind the cursor have been matched. -/
structure Matching (literal : Literal) (document : List Byte) (before : List RecordSpan)
    (pending : PendingRecord) (extra : List QueryHit) (processed state : Nat)
    (session : QuerySession format) : Prop where
  running : session.status = .running
  size : session.sourceSnapshot.size = document.length
  literal_eq : session.literal = .new literal
  delivered : Delivered document session.scanner (before ++ [pending.span])
  count : (before ++ [pending.span]).length = session.nextRow
  pending_eq : session.pending = some pending
  record : Pending literal document before pending
  le_stop : pending.cursor + processed ≤ pending.span.stop
  reads : (CompiledLiteral.new literal).Reads
    (literal.textRead document pending.span.start (pending.cursor + processed)) state
  stores : Stores literal document format session.scratch
    (hitsUpTo literal document before pending (pending.cursor + processed)) extra

/-- What a chunk that has been matched leaves. -/
def Advanced (literal : Literal) (document : List Byte) (status : PendingStatus)
    (session : QuerySession format) : Prop :=
  match status with
  | .running | .cancelled => Going literal document session
  | .complete => Going literal document session ∧
      ∃ pending, session.pending = some pending ∧ pending.cursor = pending.span.stop
  | .quotaExceeded details => Refused literal document session details.rejectedHit

section Matching
variable {source : PositionedRead W} {medium : ScratchMedium W} {clean fresh : W → Prop}
  {before : List RecordSpan} {pending : PendingRecord} {extra : List QueryHit}
  {processed state : Nat} {session : QuerySession format}

theorem Matching.size_lt (h : Matching literal document before pending extra processed state
    session) : document.length < u64Bound := by
  rw [← h.size]
  exact session.sourceSnapshot.size_lt

theorem Matching.stop_le (h : Matching literal document before pending extra processed state
    session) : pending.span.stop ≤ document.length :=
  record_stop_le (h.delivered.isPrefix.subset (by simp))

/-- The session once the cursor has been moved behind the bytes matched. -/
theorem Matching.moved (h : Matching literal document before pending extra processed state
    session) : Going literal document { session with
      pending := some { pending with
        cursor := pending.cursor + processed, matcherState := state } } where
  running := h.running
  sound := by
    have hstart := h.record.start_le
    refine ⟨_, extra, ⟨h.size, h.literal_eq, _, h.delivered, h.count, before, rfl, ?_, rfl⟩,
      h.stores⟩
    exact ⟨h.record.row, by dsimp only; omega, h.le_stop, h.reads⟩

/-- The session as it stands, with the cursor where the chunk began. -/
theorem Matching.tracks (h : Matching literal document before pending extra processed state
    session) : Tracks literal document session
      (hitsUpTo literal document before pending pending.cursor) := by
  refine ⟨h.size, h.literal_eq, _, h.delivered, h.count, ?_⟩
  rw [h.pending_eq]
  exact ⟨before, rfl, h.record, rfl⟩

theorem Matching.cursor_lt (h : Matching literal document before pending extra processed state
    session) : pending.span.stop < u64Bound :=
  Nat.lt_of_le_of_lt h.stop_le h.size_lt

theorem updatePendingCursor_run (hpending : session.pending = some pending)
    (hlt : pending.cursor + processed < u64Bound) (w : W) :
    updatePendingCursor pending.cursor processed state (session, w) =
      (.ok (), { session with
        pending := some { pending with
          cursor := pending.cursor + processed, matcherState := state } }, w) := by
  have hadd : checkedAdd pending.cursor processed = some (pending.cursor + processed) :=
    checkedAdd_eq_some.mpr ⟨hlt, rfl⟩
  simp only [updatePendingCursor, hadd, Exec.run_get_bind, hpending, Exec.run_modify]

/-- A byte that ends no occurrence. -/
theorem Matching.skip (h : Matching literal document before pending extra processed state
    session) {byte : Byte} (hbyte : document[pending.cursor + processed]? = some byte)
    (hle : pending.cursor + processed < pending.span.stop)
    (hnot : ((CompiledLiteral.new literal).advance state byte).2 = false) :
    literal.hitsBetween document pending.row pending.span.start
        (pending.cursor + processed + 1) =
      literal.hitsBetween document pending.row pending.span.start
        (pending.cursor + processed) ∧
    Matching literal document before pending extra (processed + 1)
      ((CompiledLiteral.new literal).advance state byte).1 session := by
  have hstart := h.record.start_le
  obtain ⟨hreads, hhits⟩ := CompiledLiteral.advance_hits pending.row (by omega) hbyte h.reads
  rw [hnot] at hhits
  simp only [Bool.false_eq_true, if_false, List.append_nil] at hhits
  refine ⟨hhits, { h with le_stop := by omega, reads := hreads, stores := ?_ }⟩
  have hsame : hitsUpTo literal document before pending (pending.cursor + (processed + 1)) =
      hitsUpTo literal document before pending (pending.cursor + processed) := by
    rw [hitsUpTo, ← Nat.add_assoc, hhits]
    rfl
  rw [hsame]
  exact h.stores

theorem new_literal_length : (CompiledLiteral.new literal).bytes.length = literal.len :=
  List.length_map _

theorem hitAt_eq_span (row : Nat) {stop : Nat} (h : literal.len ≤ stop) :
    literal.hitAt row (stop - literal.len) =
      ⟨row, ⟨stop - literal.len, stop, Nat.sub_le _ _⟩⟩ := by
  rw [Literal.hitAt]
  congr 1
  exact RecordSpan.ext rfl (Nat.sub_add_cancel h)

theorem hitEnding_eq (row : Nat) {stop : Nat} (h : literal.len ≤ stop) :
    hitEnding (.new literal) row stop = .ok (literal.hitAt row (stop - literal.len)) := by
  rw [hitAt_eq_span row h]
  simp only [hitEnding, new_literal_length]
  rw [if_neg (by omega)]

/-- A byte that ends an occurrence: the hits grow by it. -/
theorem Matching.hit (h : Matching literal document before pending extra processed state
    session) {byte : Byte} (hbyte : document[pending.cursor + processed]? = some byte)
    (hends : ((CompiledLiteral.new literal).advance state byte).2 = true) :
    literal.len ≤ pending.cursor + (processed + 1) ∧
    hitsUpTo literal document before pending (pending.cursor + (processed + 1)) =
      hitsUpTo literal document before pending (pending.cursor + processed) ++
        [literal.hitAt pending.row (pending.cursor + (processed + 1) - literal.len)] ∧
    (CompiledLiteral.new literal).Reads
      (literal.textRead document pending.span.start (pending.cursor + (processed + 1)))
      ((CompiledLiteral.new literal).advance state byte).1 := by
  have hstart := h.record.start_le
  obtain ⟨hreads, hhits⟩ := CompiledLiteral.advance_hits pending.row (by omega) hbyte h.reads
  rw [hends] at hhits
  simp only [if_true] at hhits
  rw [Nat.add_assoc] at hreads hhits
  refine ⟨?_, ?_, hreads⟩
  · have hmem : literal.hitAt pending.row (pending.cursor + (processed + 1) - literal.len) ∈
        literal.hitsBetween document pending.row pending.span.start
          (pending.cursor + (processed + 1)) := by
      rw [hhits]
      simp
    obtain ⟨s, _, hroom, _⟩ := Literal.mem_hitsBetween.mp hmem
    omega
  · rw [hitsUpTo, hhits, ← List.append_assoc]
    rfl

theorem Matching.hitsUpTo_front (h : Matching literal document before pending extra processed
    state session) {stop : Nat} (hstop : stop ≤ pending.span.stop) :
    hitsUpTo literal document before pending stop <+: literal.documentHits document format := by
  rw [hitsUpTo, h.record.row]
  exact QuerySession.hitsUpTo_front h.delivered.isPrefix hstop

/-- The hits stored in the chunk so far are the document's, also when they are ahead of the
cursor the session has. -/
theorem Matching.full_sound (h : Matching literal document before pending extra processed
    state session) (hfull : Full session.scratch) : Going literal document session := by
  have hahead : hitsUpTo literal document before pending (pending.cursor + processed) ++ extra
      <+: literal.documentHits document format := by
    rcases h.stores.2 with rfl | ⟨_, hahead⟩
    · rw [List.append_nil]
      exact h.hitsUpTo_front h.le_stop
    · exact hahead
  have hsplit : ∃ more, hitsUpTo literal document before pending
      (pending.cursor + processed) ++ extra =
        hitsUpTo literal document before pending pending.cursor ++ more := by
    obtain ⟨more, hmore⟩ := (List.prefix_append_right_inj
      (literal.hitsFrom document 0 before)).mpr (hitsBetween_front pending.row
        pending.span.start (Nat.le_add_right pending.cursor processed))
    exact ⟨more ++ extra, by rw [← List.append_assoc, hitsUpTo, hitsUpTo, hmore]⟩
  obtain ⟨more, hmore⟩ := hsplit
  refine ⟨h.running, _, more, h.tracks, ?_⟩
  rw [Stores, ← hmore]
  exact ⟨h.stores.1, .inr ⟨hfull, hahead⟩⟩

theorem append_full {store : ScratchHitStore} (hfull : Full store) (hit : QueryHit) (w : W) :
    store.append medium hit w = (.error .addressSpace, store, w) := by
  rw [Full] at hfull
  rw [ScratchHitStore.append, hfull]

/-- What the environment has to have done for a failed call to be harmless. -/
def Harmless (clean : W → Prop) (literal : Literal) (document : List Byte)
    (p : QuerySession format × W) : Prop :=
  clean p.2 → Going literal document p.1

/-- An occurrence is appended: it is stored, refused for the quota, or the append fails. -/
theorem appendHit_cases (htraced : Traced source medium clean fresh)
    (h : Matching literal document before pending extra processed state session)
    (hle : pending.cursor + processed < pending.span.stop) {byte : Byte}
    (hbyte : document[pending.cursor + processed]? = some byte)
    (hends : ((CompiledLiteral.new literal).advance state byte).2 = true) {w : W}
    (hfresh : fresh w → literal.hitsBetween document pending.row pending.span.start
      (pending.cursor + processed) =
        literal.hitsBetween document pending.row pending.span.start pending.cursor) :
    let hit := literal.hitAt pending.row (pending.cursor + (processed + 1) - literal.len)
    match appendHit medium hit (session, w) with
    | (.ok none, p) => ¬ fresh p.2 ∧ Matching literal document before pending extra
        (processed + 1) ((CompiledLiteral.new literal).advance state byte).1 p.1
    | (.ok (some details), p) => details.rejectedHit = hit ∧
        p.1 = { session with scratch := p.1.scratch } ∧
        Refused literal document p.1 hit
    | (.error _, p) => Harmless clean literal document p := by
  intro hit
  obtain ⟨hlen, hgrow, hreads⟩ := h.hit hbyte hends
  have hnext : hitsUpTo literal document before pending (pending.cursor + (processed + 1)) <+:
      literal.documentHits document format := h.hitsUpTo_front (by omega)
  by_cases hfull : Full session.scratch
  · simp only [appendHit, append_full hfull]
    intro _
    exact h.full_sound hfull
  obtain rfl : extra = [] := by
    rcases h.stores.2 with hnil | ⟨hnot, _⟩
    · exact hnil
    · exact absurd hnot hfull
  have hholds := h.stores.1
  rw [List.append_nil] at hholds
  have hfits : hit.Fits := by
    have hspan : hit = ⟨before.length, ⟨pending.cursor + (processed + 1) - literal.len,
        pending.cursor + (processed + 1), Nat.sub_le _ _⟩⟩ := by
      rw [← h.record.row]
      exact hitAt_eq_span pending.row hlen
    rw [hspan]
    exact hit_fits h.delivered.isPrefix (by omega) h.size_lt (Nat.sub_le _ _)
  have happended := ScratchHitStore.append_appended medium hholds hfits w
  rcases hrun : session.scratch.append medium hit w with ⟨result, store, w'⟩
  rw [hrun] at happended
  simp only [appendHit, hrun]
  cases happended with
  | stored index hwrite hstored =>
    refine ⟨?_, { h with le_stop := by omega, reads := hreads, stores := ⟨?_, .inl rfl⟩ }⟩
    · have hnot := htraced.stored w (by rw [hwrite])
      rwa [hwrite] at hnot
    · rw [List.append_nil, hgrow]
      exact hstored
  | refused hsame hquota =>
    refine ⟨rfl, rfl, _, hsame, ?_, hquota⟩
    rw [← hgrow]
    exact hnext
  | unaddressed hnone => exact absurd hnone hfull
  | failed hwrite hsame =>
    intro hclean
    have hwas := htraced.failed w _ (by rw [hwrite]) (by rw [hwrite]; exact hclean)
    refine ⟨h.running, _, [], ⟨h.size, h.literal_eq, h.tracks.found⟩, ?_, .inl rfl⟩
    rw [List.append_nil, hitsUpTo, ← hfresh hwas]
    exact hsame

/-- The loop over a chunk, from any place in it. -/
theorem matchLoop_spec (htraced : Traced source medium clean fresh) (polls : Nat → Bool)
    (bytes : List Byte) {w : W}
    (h : Matching literal document before pending extra processed state session)
    (hbytes : bytes <+: document.drop (pending.cursor + processed))
    (hle : pending.cursor + processed + bytes.length ≤ pending.span.stop)
    (hfresh : fresh w → literal.hitsBetween document pending.row pending.span.start
      (pending.cursor + processed) =
        literal.hitsBetween document pending.row pending.span.start pending.cursor) :
    match matchLoop medium pending polls bytes processed state (session, w) with
    | (.ok outcome, p) => Advanced literal document outcome.status p.1
    | (.error _, p) => Harmless clean literal document p := by
  induction bytes generalizing processed state session w with
  | nil =>
    have hcursor := h.cursor_lt
    have hstop := h.le_stop
    rw [matchLoop, Exec.run_bind_ok (updatePendingCursor_run h.pending_eq (by omega) w)]
    simp only [Exec.run_get_bind, Exec.run_pure, Option.any_some]
    split
    · rename_i hend
      exact ⟨h.moved, _, rfl, beq_iff_eq.mp hend⟩
    · exact h.moved
  | cons byte bytes ih =>
    rw [List.length_cons] at hle
    have hlt : pending.cursor + processed < pending.span.stop := by omega
    have hbyte : document[pending.cursor + processed]? = some byte := by
      obtain ⟨more, hmore⟩ := hbytes
      have hhead := congrArg List.head? hmore
      rw [List.head?_drop] at hhead
      exact hhead.symm
    have hrest : bytes <+: document.drop (pending.cursor + (processed + 1)) := by
      obtain ⟨more, hmore⟩ := hbytes
      refine ⟨more, ?_⟩
      have htail := congrArg List.tail hmore
      rwa [List.tail_drop] at htail
    have hcursor := h.cursor_lt
    rw [matchLoop, Exec.run_get_bind]
    cases processed % session.config.cancellationCheckBytes == 0 && polls processed with
    | true =>
      rw [if_pos rfl, Exec.run_bind_ok (updatePendingCursor_run h.pending_eq (by omega) w)]
      exact h.moved
    | false =>
    rw [if_neg Bool.false_ne_true, h.literal_eq]
    cases hends : ((CompiledLiteral.new literal).advance state byte).2 with
    | false =>
      obtain ⟨hsame, hnext⟩ := h.skip hbyte hlt hends
      rw [if_neg (by simp)]
      refine ih hnext hrest (by omega) ?_
      intro hw
      rw [← Nat.add_assoc, hsame]
      exact hfresh hw
    | true =>
      obtain ⟨hlen, -, hreads⟩ := h.hit hbyte hends
      have hadd : checkedAdd pending.cursor (processed + 1) =
          some (pending.cursor + (processed + 1)) := checkedAdd_eq_some.mpr ⟨by omega, rfl⟩
      rw [if_pos rfl]
      simp only [hadd, hitEnding_eq pending.row hlen]
      have hcases := appendHit_cases htraced h hlt hbyte hends hfresh
      dsimp only at hcases
      rcases hrun : appendHit medium
        (literal.hitAt pending.row (pending.cursor + (processed + 1) - literal.len))
        (session, w) with ⟨error | details, p⟩
      · rw [hrun] at hcases
        rw [Exec.run_bind_error hrun]
        exact hcases
      rw [hrun] at hcases
      rw [Exec.run_bind_ok hrun]
      cases details with
      | none =>
        obtain ⟨hstale, hnext⟩ := hcases
        exact ih hnext hrest (by omega) fun hw => absurd hw hstale
      | some details =>
        obtain ⟨hrejected, hsession, hrefused⟩ := hcases
        have hpending : p.1.pending = some pending := by
          rw [hsession]
          exact h.pending_eq
        rw [← Prod.mk.eta (p := p)]
        dsimp only
        rw [Exec.run_bind_ok (updatePendingCursor_run hpending (by omega) p.2)]
        change Refused literal document _ details.rejectedHit
        rw [hrejected]
        exact hrefused

theorem Going.matching (h : Going literal document session)
    (hpending : session.pending = some pending) :
    ∃ before extra, Matching literal document before pending extra 0 pending.matcherState
      session := by
  obtain ⟨found, extra, htracks, hstores⟩ := h.sound
  obtain ⟨delivered, hdelivered, hcount, hfound⟩ := htracks.found
  rw [hpending] at hfound
  obtain ⟨before, rfl, hrecord, rfl⟩ := hfound
  exact ⟨before, extra, h.running, htracks.size, htracks.literal_eq, hdelivered, hcount,
    hpending, hrecord, hrecord.le_stop, hrecord.reads, hstores⟩

theorem Matching.going (h : Matching literal document before pending extra 0
    pending.matcherState session) : Going literal document session :=
  ⟨h.running, _, extra, h.tracks, h.stores⟩

theorem matching_stable : Stable source fun (session : QuerySession format) (_ : W) =>
    Matching literal document before pending extra processed state session where
  failure _ _ _ h := { h with }
  fingerprint _ _ h := h
  read _ _ _ _ h := h

theorem advancePending_spec (hsource : source.Reads document)
    (htraced : Traced source medium clean fresh) (h : Going literal document session)
    (hpending : session.pending = some pending) (workBytes : Nat) (polls : Nat → Bool)
    (w : W) :
    match advancePending medium source workBytes polls (session, w) with
    | (.ok outcome, p) => Advanced literal document outcome.status p.1
    | (.error _, p) => Harmless clean literal document p := by
  obtain ⟨before, extra, hmatching⟩ := h.matching hpending
  simp only [advancePending, Exec.run_get_bind, hpending]
  by_cases hend : pending.cursor = pending.span.stop
  · rw [if_pos hend]
    exact ⟨h, pending, hpending, hend⟩
  rw [if_neg hend]
  generalize hrequest : min (min (pending.span.stop - pending.cursor)
    session.config.readBufferBytes) workBytes = request
  have hle := hmatching.le_stop
  have hstable : Stable source fun (session : QuerySession format) (_ : W) =>
      Matching literal document before pending extra 0 pending.matcherState session :=
    matching_stable
  have hread := checkedReadAt_triple hsource hstable pending.cursor request (session, w)
    hmatching
  rcases hrun : checkedReadAt source pending.cursor request (session, w) with
    ⟨error | bytes, session', w'⟩
  · rw [hrun] at hread
    rw [Exec.run_bind_error hrun]
    intro _
    exact hread.going
  · rw [hrun] at hread
    obtain ⟨⟨_, hlen, hbytes⟩, hnext⟩ := hread
    rw [Exec.run_bind_ok hrun]
    exact matchLoop_spec htraced polls bytes hnext hbytes (by omega) fun _ => rfl

end Matching

/-! ### The turns of a call -/

section Turns
variable {source : PositionedRead W} {medium : ScratchMedium W} {clean fresh : W → Prop}
  {session : QuerySession format}

theorem Going.withFailure (h : Going literal document session)
    (failure : Option QuerySourceFailure) :
    Going literal document { session with sourceFailure := failure } := by
  obtain ⟨found, extra, htracks, hstores⟩ := h.sound
  exact ⟨h.running, found, extra, htracks.withFailure failure, hstores⟩

/-- Going on with no record pending: the scanner has the next move. -/
structure Scanning (literal : Literal) (document : List Byte)
    (scanner : Option (FormatScanner format)) (session : QuerySession format) : Prop where
  going : Going literal document session
  pending_eq : session.pending = none
  scanner_eq : session.scanner = scanner

theorem scanning_stable {scanner : Option (FormatScanner format)} :
    Stable source fun (session : QuerySession format) (_ : W) =>
      Scanning literal document scanner session where
  failure _ _ failure h := ⟨h.going.withFailure failure, h.pending_eq, h.scanner_eq⟩
  fingerprint _ _ h := h
  read _ _ _ _ h := h

/-- The scanner has delivered one more record: it becomes the pending one. -/
theorem queueRecord_run {found extra : List QueryHit} {delivered : List RecordSpan}
    {span : RecordSpan} (hrunning : session.status = .running)
    (hsize : session.sourceSnapshot.size = document.length)
    (hliteral : session.literal = .new literal)
    (hdelivered : Delivered document session.scanner (delivered ++ [span]))
    (hcount : delivered.length = session.nextRow)
    (hfound : found = literal.hitsFrom document 0 delivered)
    (hstores : Stores literal document format session.scratch found extra) (w : W) :
    ∃ next, queueRecord span (session, w) = (.ok (), next, w) ∧
      Going literal document next := by
  have hle := hdelivered.isPrefix.length_le
  have hrecords := records_length_le format document
  rw [List.length_append, List.length_singleton] at hle
  have hdocument := session.sourceSnapshot.size_lt
  have hadd : checkedAdd session.nextRow 1 = some (session.nextRow + 1) :=
    checkedAdd_eq_some.mpr ⟨by omega, rfl⟩
  have hrun : queueRecord span (session, w) = (.ok (), { session with
      nextRow := session.nextRow + 1
      pending := some ⟨session.nextRow, span, span.start, 0⟩ }, w) := by
    simp only [queueRecord, Exec.run_get_bind, hadd, Exec.run_modify]
  refine ⟨_, hrun, hrunning, found, extra,
    ⟨hsize, hliteral, delivered ++ [span], hdelivered, ?_, ?_⟩, hstores⟩
  · simp [hcount]
  · refine ⟨delivered, rfl, ⟨hcount.symm, Nat.le_refl _, span.start_le_stop, ?_⟩, ?_⟩
    · simp only [Literal.textRead, Nat.sub_self, List.take_zero]
      exact CompiledLiteral.reads_nil _
    · rw [Literal.hitsBetween_self, List.append_nil]
      exact hfound

/-- The record has been matched to its end: its hits are all found. -/
theorem Going.completed {pending : PendingRecord} (h : Going literal document session)
    (hpending : session.pending = some pending) (hend : pending.cursor = pending.span.stop) :
    Going literal document { session with pending := none } := by
  obtain ⟨found, extra, htracks, hstores⟩ := h.sound
  obtain ⟨delivered, hdelivered, hcount, hfound⟩ := htracks.found
  rw [hpending] at hfound
  obtain ⟨before, rfl, hrecord, rfl⟩ := hfound
  refine ⟨h.running, _, extra, ⟨htracks.size, htracks.literal_eq, _, hdelivered, hcount, ?_⟩,
    hstores⟩
  rw [Found, Literal.hitsFrom_append, Nat.zero_add, hrecord.row, hend]
  simp [Literal.hitsFrom, Literal.recordHits]

theorem completePending_spec {pending : PendingRecord} (h : Going literal document session)
    (hpending : session.pending = some pending) (hend : pending.cursor = pending.span.stop)
    (w : W) : Going literal document (completePending (session, w)).2.1 := by
  have hnext := h.completed hpending hend
  simp only [completePending, Exec.run_modify_bind, Exec.run_get_bind]
  cases checkedAdd session.examinedRecords 1 with
  | none => exact hnext
  | some examined =>
    obtain ⟨found, extra, htracks, hstores⟩ := hnext.sound
    exact ⟨hnext.running, found, extra,
      ⟨htracks.size, htracks.literal_eq, htracks.found⟩, hstores⟩

/-- What is known of the scanner of a session with no record pending. -/
theorem Scanning.delivered {scanner : Option (FormatScanner format)}
    (h : Scanning literal document scanner session) :
    ∃ delivered extra, Delivered document scanner delivered ∧
      delivered.length = session.nextRow ∧
      session.sourceSnapshot.size = document.length ∧ session.literal = .new literal ∧
      Stores literal document format session.scratch
        (literal.hitsFrom document 0 delivered) extra := by
  obtain ⟨found, extra, htracks, hstores⟩ := h.going.sound
  obtain ⟨delivered, hdelivered, hcount, hfound⟩ := htracks.found
  rw [h.pending_eq] at hfound
  rw [h.scanner_eq] at hdelivered
  rw [hfound] at hstores
  exact ⟨delivered, extra, hdelivered, hcount, htracks.size, htracks.literal_eq, hstores⟩

/-- A chunk read behind the scanner is fed to it: it delivers one record, or none. -/
theorem feed_delivered {delivered : List RecordSpan} {scanner : FormatScanner format}
    (h : Delivered document (some scanner) delivered) (hsize : document.length < u64Bound)
    {chunk : List Byte} (hchunk : chunk <+: document.drop scanner.offset)
    (check : CancelCheck) :
    let fed := scanner.feedCancellable keepRecord check chunk none
    ∃ progress, fed.result = .ok progress ∧
      Delivered document (some fed.scanner) (delivered ++ fed.sink.toList) := by
  intro fed
  obtain ⟨more, hmore⟩ := hchunk
  obtain ⟨spans, rest, control, scanner', hsteps⟩ := feedInner_steps (some check) keepRecord
    chunk 0 scanner none
  have hahead := hsteps.scans.append more
  rw [hmore] at hahead
  have hall := Scans.trans h hahead
  have hwhole := hall.offset_eq
  rw [atOffset_offset, List.length_append] at hwhole
  have hsink : fed.sink.toList = spans := by
    rcases hsteps.delivers.of_stop fun _ _ => rfl with ⟨hspans, _, hsink⟩ | ⟨span, hspans, _, hsink⟩
    · rw [hspans]
      exact congrArg Option.toList hsink
    · rw [hspans]
      exact congrArg Option.toList hsink
  have hrest := hall.rest_eq.2
  rw [atOffset_offset, Nat.sub_zero] at hrest
  rw [hrest] at hall
  have hanswers := hsteps.answers
  have hfed : feedInner (some check) keepRecord chunk 0 scanner none = fed := rfl
  rw [hfed] at hanswers
  have hok : ∀ progress, fed.result = .ok progress →
      ∃ progress, fed.result = .ok progress ∧
        Delivered document (some fed.scanner) (delivered ++ fed.sink.toList) := by
    intro progress hresult
    refine ⟨progress, hresult, ?_⟩
    rw [hsink, show fed.scanner = scanner' from hsteps.scanner progress hresult]
    exact hall
  generalize hresult : fed.result = result at hanswers
  rw [hresult] at hok
  cases hanswers with
  | complete _ => exact hok _ rfl
  | stopped => exact hok _ rfl
  | cancelled _ _ => exact hok _ rfl
  | overflow hne hover =>
    -- a scanner with bytes ahead is below the size of the document, which is a `u64`
    exfalso
    have hpos := List.length_pos_iff.mpr hne
    omega

theorem advanceScanner_spec (hsource : source.Reads document) {scanner : FormatScanner format}
    (h : Scanning literal document (some scanner) session) (workBytes : Nat)
    (polls : Nat → Bool) (w : W) :
    Going literal document (advanceScanner source workBytes polls (session, w)).2.1 := by
  simp only [advanceScanner, Exec.run_get_bind, h.scanner_eq]
  generalize hrequest : min (min (session.sourceSnapshot.size - scanner.offset)
    session.config.readBufferBytes) workBytes = request
  have hstable : Stable source fun (session : QuerySession format) (_ : W) =>
      Scanning literal document (some scanner) session := scanning_stable
  have hread := checkedReadAt_triple hsource hstable scanner.offset request (session, w) h
  rcases hrun : checkedReadAt source scanner.offset request (session, w) with
    ⟨error | bytes, next, w'⟩
  · rw [hrun] at hread
    rw [Exec.run_bind_error hrun]
    exact hread.going
  rw [hrun] at hread
  obtain ⟨⟨_, _, hbytes⟩, hnext⟩ := hread
  rw [Exec.run_bind_ok hrun, Exec.run_modify_bind]
  obtain ⟨delivered, extra, hdelivered, hcount, hsize, hliteral, hstores⟩ := hnext.delivered
  obtain ⟨progress, hresult, hfed⟩ := feed_delivered hdelivered
    (hsize ▸ next.sourceSnapshot.size_lt) hbytes
    ⟨session.config.cancellationCheckBytes, session.config.cancellationCheckBytes_pos, polls⟩
  generalize scanner.feedCancellable keepRecord ⟨session.config.cancellationCheckBytes,
    session.config.cancellationCheckBytes_pos, polls⟩ bytes none = fed at hresult hfed
  simp only [hresult]
  cases hsink : fed.sink with
  | none =>
    rw [hsink, Option.toList_none, List.append_nil] at hfed
    refine ⟨hnext.going.running, _, extra,
      ⟨hsize, hliteral, delivered, hfed, hcount, ?_⟩, hstores⟩
    rw [hnext.pending_eq]
    rfl
  | some span =>
    rw [hsink, Option.toList_some] at hfed
    have hrunning : ({ next with scanner := some fed.scanner } :
        QuerySession format).status = .running := hnext.going.running
    obtain ⟨after, hqueue, hafter⟩ := queueRecord_run hrunning hsize hliteral hfed hcount rfl
      hstores w'
    dsimp only
    rw [Exec.run_bind_ok hqueue]
    exact hafter

/-- How a turn may end. -/
def TurnDone (clean : W → Prop) (literal : Literal) (document : List Byte)
    (r : Except QueryError Turn × QuerySession format × W) : Prop :=
  match r with
  | (.ok (.done status), p) => p.1.status = status ∧ Good literal document p.1
  | (.ok (.next _), p) => Going literal document p.1
  | (.error _, p) => Harmless clean literal document p

theorem Sound.withStatus (h : Sound literal document session) (status : QueryStepStatus) :
    Sound literal document { session with status := status } := by
  obtain ⟨found, extra, htracks, hstores⟩ := h
  exact ⟨found, extra, ⟨htracks.size, htracks.literal_eq, htracks.found⟩, hstores⟩

theorem Going.cancelled (h : Going literal document session) (w : W) :
    TurnDone clean literal document (returnStatus .cancelled (session, w)) :=
  ⟨rfl, h.sound.withStatus .cancelled⟩

/-- No record is pending and none is to come: every hit of the document is stored. -/
theorem Stores.complete {store : ScratchHitStore} {extra : List QueryHit}
    (h : Stores literal document format store
      (literal.hitsFrom document 0 (records format document)) extra) :
    store.Holds (literal.documentHits document format) := by
  obtain ⟨hholds, rfl | ⟨_, hahead⟩⟩ := h
  · rwa [List.append_nil] at hholds
  · have hlen := hahead.length_le
    rw [Literal.documentHits, List.length_append] at hlen
    obtain rfl : extra = [] := List.length_eq_zero_iff.mp (by omega)
    rwa [List.append_nil] at hholds

theorem pendingTurn_spec (hsource : source.Reads document)
    (htraced : Traced source medium clean fresh) (h : Going literal document session)
    (hpending : session.pending.isSome) (remaining : Nat) (polls : Nat → Bool) (w : W) :
    TurnDone clean literal document
      (pendingTurn medium source remaining polls (session, w)) := by
  obtain ⟨pending, hpending⟩ := Option.isSome_iff_exists.mp hpending
  have hadvance := advancePending_spec hsource htraced h hpending remaining polls w
  rw [pendingTurn]
  rcases hrun : advancePending medium source remaining polls (session, w) with
    ⟨error | ⟨processed, status⟩, next, w'⟩
  · rw [hrun] at hadvance
    rw [Exec.run_bind_error hrun]
    exact hadvance
  rw [hrun] at hadvance
  rw [Exec.run_bind_ok hrun]
  cases status with
  | running => exact hadvance
  | cancelled => exact Going.cancelled hadvance w'
  | complete =>
    obtain ⟨hgoing, done, hdone, hend⟩ := hadvance
    have hnext := completePending_spec hgoing hdone hend w'
    dsimp only
    rcases hcomplete : completePending (next, w') with ⟨error | ⟨⟩, after, w''⟩
    · rw [hcomplete] at hnext
      rw [Exec.run_bind_error hcomplete]
      exact fun _ => hnext
    · rw [hcomplete] at hnext
      rw [Exec.run_bind_ok hcomplete]
      exact hnext
  | quotaExceeded details => exact ⟨rfl, hadvance⟩

theorem scannerTurn_spec (hsource : source.Reads document) {scanner : FormatScanner format}
    (h : Scanning literal document (some scanner) session) (remaining : Nat)
    (polls : Nat → Bool) (w : W) :
    TurnDone clean literal document (scannerTurn source remaining polls (session, w)) := by
  have hadvance := advanceScanner_spec hsource h remaining polls w
  rw [scannerTurn]
  rcases hrun : advanceScanner source remaining polls (session, w) with
    ⟨error | ⟨consumed, status⟩, next, w'⟩
  · rw [hrun] at hadvance
    rw [Exec.run_bind_error hrun]
    exact fun _ => hadvance
  rw [hrun] at hadvance
  rw [Exec.run_bind_ok hrun]
  cases status with
  | complete => exact hadvance
  | stopped => exact hadvance
  | cancelled => exact Going.cancelled hadvance w'

theorem finishTurn_spec {scanner : FormatScanner format}
    (h : Scanning literal document (some scanner) session)
    (hend : session.sourceSnapshot.size ≤ scanner.offset) (remaining : Nat) (w : W) :
    TurnDone clean literal document (finishTurn remaining scanner (session, w)) := by
  obtain ⟨delivered, extra, hdelivered, hcount, hsize, hliteral, hstores⟩ := h.delivered
  have hrecords := hdelivered.ended (hsize ▸ hend)
  simp only [finishTurn, Exec.run_modify_bind, finish]
  cases hlast : scanner.lastRecord with
  | none =>
    rw [hlast, Option.toList_none, List.append_nil] at hrecords
    rw [← hrecords] at hstores
    exact ⟨rfl, hstores.complete⟩
  | some span =>
    rw [hlast, Option.toList_some] at hrecords
    have hrunning : ({ session with
        scanner := none
        csvDiagnostic := scanner.diagnostic } : QuerySession format).status = .running :=
      h.going.running
    have hall : Delivered document (none : Option (FormatScanner format))
        (delivered ++ [span]) := hrecords.symm
    obtain ⟨after, hqueue, hafter⟩ := queueRecord_run hrunning hsize hliteral hall hcount rfl
      hstores w
    simp only [keepRecord]
    rw [Exec.run_bind_ok hqueue]
    exact hafter

theorem going_stable : Stable source fun (session : QuerySession format) (_ : W) =>
    Going literal document session where
  failure _ _ failure h := h.withFailure failure
  fingerprint _ _ h := h
  read _ _ _ _ h := h

theorem turn_spec (hsource : source.Reads document)
    (htraced : Traced source medium clean fresh) (h : Going literal document session)
    (remaining : Nat) (polls : StepPolls) (w : W) :
    TurnDone clean literal document (turn medium source remaining polls (session, w)) := by
  rw [turn]
  by_cases hentry : polls.entry
  · rw [if_pos hentry]
    exact h.cancelled w
  rw [if_neg hentry]
  have hstable : Stable source fun (session : QuerySession format) (_ : W) =>
      Going literal document session := going_stable
  have hensure := ensureSourceUnchanged_triple hstable (session, w) h
  rcases hrun : ensureSourceUnchanged source (session, w) with ⟨error | ⟨⟩, next, w'⟩
  · rw [hrun] at hensure
    rw [Exec.run_bind_error hrun]
    exact fun _ => hensure
  rw [hrun] at hensure
  rw [Exec.run_bind_ok hrun, Exec.run_get_bind]
  by_cases hpending : next.pending.isSome
  · rw [if_pos hpending]
    exact pendingTurn_spec hsource htraced hensure hpending remaining polls.feed w'
  rw [if_neg hpending]
  have hscanning : Scanning literal document next.scanner next :=
    ⟨hensure, by simpa using hpending, rfl⟩
  cases hscanner : next.scanner with
  | some scanner =>
    rw [hscanner] at hscanning
    dsimp only
    by_cases hmore : scanner.offset < next.sourceSnapshot.size
    · rw [if_pos hmore]
      exact scannerTurn_spec hsource hscanning remaining polls.feed w'
    · rw [if_neg hmore]
      exact finishTurn_spec hscanning (Nat.le_of_not_lt hmore) remaining w'
  | none =>
    rw [hscanner] at hscanning
    obtain ⟨delivered, extra, hdelivered, _, _, _, hstores⟩ := hscanning.delivered
    rw [show delivered = records format document from hdelivered] at hstores
    exact ⟨rfl, hstores.complete⟩

/-! ### Calls and runs of calls -/

/-- What a call leaves. -/
def CallDone (clean : W → Prop) (literal : Literal) (document : List Byte)
    (r : Except QueryError QueryStepStatus × QuerySession format × W) : Prop :=
  match r with
  | (.ok status, p) => p.1.status = status ∧ Good literal document p.1
  | (.error _, p) => clean p.2 → Good literal document p.1

theorem Going.good (h : Going literal document session) : Good literal document session := by
  rw [Good, h.running]
  exact h.sound

theorem advanceLoop_spec (hsource : source.Reads document)
    (htraced : Traced source medium clean fresh) (polls : Nat → StepPolls) (fuel i : Nat)
    (remaining : Nat) (h : Going literal document session) (w : W) :
    CallDone clean literal document
      (advanceLoop medium source polls fuel i remaining (session, w)) := by
  induction fuel generalizing i remaining session w with
  | zero => exact ⟨rfl, h.good⟩
  | succ fuel ih =>
    have hturn := turn_spec hsource htraced h remaining (polls i) w
    rw [advanceLoop]
    rcases hrun : turn medium source remaining (polls i) (session, w) with
      ⟨error | ⟨status | left⟩, next, w'⟩
    · rw [hrun] at hturn
      rw [Exec.run_bind_error hrun]
      exact fun hclean => Going.good (hturn hclean)
    · rw [hrun] at hturn
      rw [Exec.run_bind_ok hrun]
      exact hturn
    · rw [hrun] at hturn
      rw [Exec.run_bind_ok hrun]
      dsimp only
      by_cases hzero : left = 0
      · rw [if_pos hzero]
        exact ⟨rfl, Going.good hturn⟩
      · rw [if_neg hzero]
        exact ih (i + 1) left hturn w'

theorem Good.withFailure (h : Good literal document session)
    (failure : Option QuerySourceFailure) :
    Good literal document { session with sourceFailure := failure } := by
  unfold Good at h ⊢
  dsimp only
  split at h
  · obtain ⟨found, extra, htracks, hstores⟩ := h
    exact ⟨found, extra, htracks.withFailure failure, hstores⟩
  · obtain ⟨found, extra, htracks, hstores⟩ := h
    exact ⟨found, extra, htracks.withFailure failure, hstores⟩
  · exact h
  · exact h

theorem finished_stable (status : QueryStepStatus) :
    Stable source fun (session : QuerySession format) (_ : W) =>
      Good literal document session ∧ session.status = status where
  failure _ _ failure h := ⟨h.1.withFailure failure, h.2⟩
  fingerprint _ _ h := h
  read _ _ _ _ h := h

/-- A session that has finished stays as it is. -/
theorem finished_spec (source : PositionedRead W) (clean : W → Prop)
    (h : Good literal document session) (cancelled : Bool) (w : W) :
    CallDone clean literal document
      ((if cancelled then pure session.status
        else do
          ensureSourceUnchanged source
          pure session.status : QueryM format W QueryStepStatus) (session, w)) := by
  cases cancelled with
  | true => exact ⟨rfl, h⟩
  | false =>
    rw [if_neg Bool.false_ne_true]
    have hstable : Stable source fun (next : QuerySession format) (_ : W) =>
        Good literal document next ∧ next.status = session.status := finished_stable _
    have hensure := ensureSourceUnchanged_triple hstable (session, w) ⟨h, rfl⟩
    rcases hrun : ensureSourceUnchanged source (session, w) with ⟨error | ⟨⟩, next, w'⟩
    · rw [hrun] at hensure
      rw [Exec.run_bind_error hrun]
      exact fun _ => hensure.1
    · rw [hrun] at hensure
      rw [Exec.run_bind_ok hrun]
      exact ⟨hensure.2, hensure.1⟩

theorem advance_spec (hsource : source.Reads document)
    (htraced : Traced source medium clean fresh) (h : Good literal document session)
    (maxWorkBytes : Nat) (polls : Nat → StepPolls) (w : W) :
    CallDone clean literal document
      (advance medium source maxWorkBytes polls (session, w)) := by
  have hrun : Sound literal document session → CallDone clean literal document
      ((Exec.modify (fun session => { session with status := .running }) >>= fun _ =>
        advanceLoop medium source polls (turnBound maxWorkBytes) 0 maxWorkBytes :
          QueryM format W QueryStepStatus) (session, w)) := by
    intro hsound
    rw [Exec.run_modify_bind]
    exact advanceLoop_spec hsource htraced polls _ 0 _ ⟨rfl, hsound.withStatus .running⟩ w
  rw [advance]
  by_cases hzero : maxWorkBytes = 0
  · rw [if_pos hzero]
    exact fun _ => h
  rw [if_neg hzero, Exec.run_get_bind]
  cases hstatus : session.status with
  | running =>
    rw [Good, hstatus] at h
    exact hrun h
  | cancelled =>
    rw [Good, hstatus] at h
    exact hrun h
  | complete =>
    have hfinished := finished_spec source clean h (polls 0).entry w
    rw [hstatus] at hfinished
    exact hfinished
  | quotaExceeded details =>
    have hfinished := finished_spec source clean h (polls 0).entry w
    rw [hstatus] at hfinished
    exact hfinished

end Turns

end QuerySession

end LeanRows
