import LeanRows.Sort.Locate
import LeanRows.ScanRuns

/-!
# The key the sort obtains

A column's key, read byte by byte or summarised in a descriptor, is the field that the
projection shows in that column.
-/

namespace LeanRows.Sort

set_option autoImplicit false

/-! ## The builder -/

/-- The summary of a key, pushed byte by byte. -/
def describe (mode : SortMode) (b : Builder) (key : List Byte) : Except SortError Descriptor :=
  (key.foldl (fun b byte => b.pushByte mode byte) b).atEnd mode

@[simp] theorem describe_cons (mode : SortMode) (b : Builder) (byte : Byte) (key : List Byte) :
    describe mode b (byte :: key) = describe mode (b.pushByte mode byte) key := rfl

/-- Where the cursor stands does not matter for the summary. -/
theorem describe_cursor (mode : SortMode) (b : Builder) (cursor : Cursor) (key : List Byte) :
    describe mode { b with cursor := cursor } key = describe mode b key := by
  induction key generalizing b with
  | nil => rfl
  | cons byte key ih => exact ih (b.pushByte mode byte)

namespace Builder

section Source
variable {W : Type} {source : PositionedRead W} {document : List Byte} {mode : SortMode}
  {b : Builder}

/-- The summary the builder comes to. -/
def result (document : List Byte) (mode : SortMode) (b : Builder) : Except SortError Descriptor :=
  describe mode b (b.cursor.rest document)

/-- The work left, in raw bytes. -/
def todo (b : Builder) : Nat := b.cursor.stop - b.cursor.offset

theorem readLoop_ensures (hsource : source.Reads document) {b : Builder}
    (hb : b.cursor.Valid document) {fuel : Nat} (budget : Nat) (hfuel : budget < fuel) :
    (readLoop source mode fuel budget b).Ensures fun r =>
      match r with
      | (some d, _) => b.result document mode = .ok d
      | (none, _, b') => b'.cursor.Valid document ∧
          b'.result document mode = b.result document mode ∧ b'.todo + budget = b.todo := by
  induction fuel generalizing b budget with
  | zero => omega
  | succ fuel ih =>
    unfold readLoop
    refine Exec.Ensures.bind (Cursor.next_ensures hsource budget hb) ?_
    rintro ⟨step, left, cursor⟩ hstep
    have hvalid : cursor.Valid document := hstep.valid
    have hspent : b.todo + left = cursor.stop - cursor.offset + budget := hstep.spent
    cases step with
    | byte byte =>
      have hrest : b.cursor.rest document = byte :: cursor.rest document := hstep.handed.byte_eq
      have hlt : left < budget := hstep.byte_spent byte rfl
      have hresult : b.result document mode =
          (({ b with cursor := cursor } : Builder).pushByte mode byte).result document mode := by
        rw [result, hrest, describe_cons]
        exact (describe_cursor mode (b.pushByte mode byte) cursor _).symm
      refine (ih (b := ({ b with cursor := cursor } : Builder).pushByte mode byte) hvalid
        left (by omega)).mono ?_
      rintro ⟨_ | d, left', b'⟩ hr
      · obtain ⟨hvalid', hresult', htodo⟩ := hr
        refine ⟨hvalid', hresult'.trans hresult.symm, ?_⟩
        change _ = cursor.stop - cursor.offset at htodo
        omega
      · exact hresult.trans hr
    | atEnd =>
      have hrest : b.cursor.rest document = [] := hstep.handed.atEnd_eq.1
      have hresult : b.result document mode = b.atEnd mode := by
        rw [result, hrest]
        rfl
      refine Exec.Ensures.bind (Exec.Ensures.ofExcept fun _ h => h) ?_
      intro d hd
      exact .pure (hresult.trans hd)
    | yield =>
      have hrest : b.cursor.rest document = cursor.rest document := hstep.handed.yield_eq
      have hleft : left = 0 := hstep.drained rfl
      refine .pure ⟨hvalid, ?_, ?_⟩
      · rw [result, result, hrest]
        exact describe_cursor mode b cursor _
      · change cursor.stop - cursor.offset + budget = b.todo
        omega

theorem advance_ensures (hsource : source.Reads document) (hb : b.cursor.Valid document)
    (budget : Nat) :
    (b.advance source mode budget).Ensures fun r =>
      match r with
      | (some d, _) => b.result document mode = .ok d
      | (none, _, b') => b'.cursor.Valid document ∧
          b'.result document mode = b.result document mode ∧ b'.todo + budget = b.todo :=
  readLoop_ensures hsource hb budget (Nat.lt_succ_self budget)

end Source

end Builder

/-! ## From the record to the key -/

section Key
variable {W : Type} (source : PositionedRead W) (format : ViewportFormat)

/-- The calls that find the column's field. -/
def locate (row : Nat) (span : RecordSpan) (column : Nat) (budgets : List Nat) :
    Exec W SortError (Option Descriptor) := do
  let r ← Exec.resume (fun budget (l : Locator) => l.advance source budget) budgets
    (.new row span format column)
  pure r.1

/-- The calls that describe it. -/
def build (mode : SortMode) (d : Descriptor) (budgets : List Nat) :
    Exec W SortError (Option Descriptor) := do
  let r ← Exec.resume (fun budget (b : Builder) => b.advance source mode budget) budgets
    (.new d (quoteByte format))
  pure r.1

/-- The bytes a cursor hands out in calls on a schedule of budgets, and whether it came to
the end. -/
def collect : List Nat → Cursor → Exec W SortError (List Byte × Bool)
  | [], _ => pure ([], false)
  | budget :: budgets, c => do
    let r ← c.next source budget
    match r with
    | (.byte byte, _, c) => do
      let rest ← collect budgets c
      pure (byte :: rest.1, rest.2)
    | (.atEnd, _, _) => pure ([], true)
    | (.yield, _, c) => collect budgets c

/-- The key bytes of a record, if the budgets suffice to find and read them. -/
def readKey (row : Nat) (span : RecordSpan) (column : Nat) (locating reading : List Nat) :
    Exec W SortError (Option (List Byte)) := do
  let d ← locate source format row span column locating
  match d with
  | none => pure none
  | some d => do
    let r ← collect source reading (.new d (quoteByte format))
    pure (if r.2 then some r.1 else none)

/-- The descriptor of a record, if the budgets suffice to find and summarise its key. -/
def extractKey (mode : SortMode) (row : Nat) (span : RecordSpan) (column : Nat)
    (locating building : List Nat) : Exec W SortError (Option Descriptor) := do
  let d ← locate source format row span column locating
  match d with
  | none => pure none
  | some d => build source format mode d building

variable {source format} {document : List Byte} {row column : Nat} {span : RecordSpan}

theorem locate_ensures (hsource : source.Reads document) (hstop : span.stop ≤ document.length)
    (budgets : List Nat) :
    (locate source format row span column budgets).Ensures fun r =>
      ∀ d, r = some d → d.Located format document row span column := by
  refine Exec.Ensures.bind
    (Locator.resume_ensures hsource (Locator.new_valid format row hstop column) budgets) ?_
  intro r hr
  refine .pure fun d hd => ?_
  rw [hr d hd]
  exact Locator.found_new row hstop column

theorem locate_returns {fingerprint : SourceFingerprint}
    (hsource : source.Steady document fingerprint) (hstop : span.stop ≤ document.length)
    {budgets : List Nat} (hpos : ∀ budget ∈ budgets, 0 < budget)
    (henough : span.len < budgets.length) :
    (locate source format row span column budgets).Returns fun r =>
      ∃ d, r = some d ∧ d.Located format document row span column := by
  refine Exec.Returns.bind (Locator.resume_returns hsource
    (Locator.new_valid format row hstop column) hpos henough) ?_
  intro r hr
  exact .pure ⟨_, hr, Locator.found_new row hstop column⟩

theorem build_ensures (hsource : source.Reads document) {d : Descriptor}
    (hd : d.Located format document row span column) (mode : SortMode) (budgets : List Nat) :
    (build source format mode d budgets).Ensures fun r => ∀ d', r = some d' →
      describe mode (.new d (quoteByte format)) (keyOf format column (span.bytesOf document)) =
        .ok d' := by
  rw [← hd.rest]
  refine Exec.Ensures.bind (Exec.resume_ensures (fun b => b.cursor.Valid document ∧
    b.result document mode = (Builder.new d (quoteByte format)).result document mode)
    (fun d' => (Builder.new d (quoteByte format)).result document mode = .ok d') ?_ budgets
    ⟨hd.valid, rfl⟩) ?_
  · rintro budget b ⟨hvalid, hresult⟩
    refine (Builder.advance_ensures hsource hvalid budget).mono ?_
    rintro ⟨_ | d', left, b'⟩ hr
    · exact ⟨hr.1, hr.2.1.trans hresult⟩
    · exact hresult.symm.trans hr
  · intro r hr
    exact .pure hr

/-- With enough calls the build comes to the summary of the key, unless one of them fails. -/
theorem build_settles (hsource : source.Reads document) {d : Descriptor}
    (hd : d.Located format document row span column) (mode : SortMode) {budgets : List Nat}
    (hpos : ∀ budget ∈ budgets, 0 < budget) (henough : span.len < budgets.length) :
    (build source format mode d budgets).Ensures fun r => ∃ d', r = some d' ∧
      describe mode (.new d (quoteByte format)) (keyOf format column (span.bytesOf document)) =
        .ok d' := by
  rw [← hd.rest]
  refine Exec.Ensures.bind (Exec.resume_settles (fun b => b.cursor.Valid document ∧
    b.result document mode = (Builder.new d (quoteByte format)).result document mode)
    (fun d' => (Builder.new d (quoteByte format)).result document mode = .ok d') Builder.todo
    ?_ hpos ⟨hd.valid, rfl⟩ ?_) ?_
  · rintro budget b ⟨hvalid, hresult⟩ hbudget
    refine (Builder.advance_ensures hsource hvalid budget).mono ?_
    rintro ⟨_ | d', left, b'⟩ hr
    · exact ⟨⟨hr.1, hr.2.1.trans hresult⟩, by have := hr.2.2; omega⟩
    · exact hresult.symm.trans hr
  · have := hd.inside
    simp only [Builder.todo, Builder.new, Cursor.new, RecordSpan.len] at henough ⊢
    omega
  · intro r hr
    exact .pure hr

theorem collect_ensures (hsource : source.Reads document) (budgets : List Nat) {c : Cursor}
    (hc : c.Valid document) :
    (collect source budgets c).Ensures fun r => r.2 = true → r.1 = c.rest document := by
  induction budgets generalizing c with
  | nil => exact .pure fun h => nomatch h
  | cons budget budgets ih =>
    refine Exec.Ensures.bind (Cursor.next_ensures hsource budget hc) ?_
    rintro ⟨step, left, c'⟩ hstep
    cases step with
    | byte byte =>
      have hrest : c.rest document = byte :: c'.rest document := hstep.handed.byte_eq
      refine Exec.Ensures.bind (ih hstep.valid) fun rest h => .pure fun hend => ?_
      rw [hrest, h hend]
    | atEnd => exact .pure fun _ => hstep.handed.atEnd_eq.1.symm
    | yield =>
      have hrest : c.rest document = c'.rest document := hstep.handed.yield_eq
      rw [hrest]
      exact ih hstep.valid

theorem collect_returns {fingerprint : SourceFingerprint}
    (hsource : source.Steady document fingerprint) {budgets : List Nat}
    (hpos : ∀ budget ∈ budgets, 0 < budget) {c : Cursor} (hc : c.Valid document)
    (henough : c.stop - c.offset < budgets.length) :
    (collect source budgets c).Returns fun r => r.2 = true := by
  induction budgets generalizing c with
  | nil => exact absurd henough (Nat.not_lt_zero _)
  | cons budget budgets ih =>
    have hbudget := hpos budget List.mem_cons_self
    have hrest := fun b hb => hpos b (List.mem_cons_of_mem _ hb)
    refine Exec.Returns.bind (Cursor.next_returns hsource budget hc) ?_
    rintro ⟨step, left, c'⟩ hstep
    have hspent : c.stop - c.offset + left = c'.stop - c'.offset + budget := hstep.spent
    rw [List.length_cons] at henough
    cases step with
    | byte byte =>
      have hlt : left < budget := hstep.byte_spent byte rfl
      exact Exec.Returns.bind (ih hrest hstep.valid (by omega)) fun rest h => .pure h
    | atEnd => exact .pure rfl
    | yield =>
      have hleft : left = 0 := hstep.drained rfl
      exact ih hrest hstep.valid (by omega)

theorem readKey_ensures (hsource : source.Reads document) (hstop : span.stop ≤ document.length)
    (locating reading : List Nat) :
    (readKey source format row span column locating reading).Ensures fun r =>
      ∀ key, r = some key → key = keyOf format column (span.bytesOf document) := by
  refine Exec.Ensures.bind (locate_ensures hsource hstop locating) ?_
  rintro (_ | d) hd
  · exact .pure fun _ h => nomatch h
  · have hlocated := hd d rfl
    refine Exec.Ensures.bind (collect_ensures hsource reading hlocated.valid) ?_
    intro r hr
    refine .pure fun key hkey => ?_
    split at hkey
    · rename_i hend
      cases hkey
      rw [hr hend, hlocated.rest]
    · cases hkey

theorem readKey_returns {fingerprint : SourceFingerprint}
    (hsource : source.Steady document fingerprint) (hstop : span.stop ≤ document.length)
    {locating reading : List Nat} (hlocating : ∀ budget ∈ locating, 0 < budget)
    (hreading : ∀ budget ∈ reading, 0 < budget) (hlocated : span.len < locating.length)
    (hread : span.len < reading.length) :
    (readKey source format row span column locating reading).Returns fun r =>
      r = some (keyOf format column (span.bytesOf document)) := by
  refine Exec.Returns.bind (locate_returns hsource hstop hlocating hlocated) ?_
  rintro _ ⟨d, rfl, hd⟩
  refine Exec.Returns.bind ((collect_returns hsource hreading hd.valid ?_).and_ensures
    (collect_ensures hsource.toReads reading hd.valid)) ?_
  · have := hd.inside
    simp only [Cursor.new, RecordSpan.len] at hread ⊢
    omega
  · rintro r ⟨hend, hr⟩
    refine .pure ?_
    rw [if_pos hend, hr hend, hd.rest]

theorem extractKey_ensures (hsource : source.Reads document) (hstop : span.stop ≤ document.length)
    (mode : SortMode) (locating building : List Nat) :
    (extractKey source format mode row span column locating building).Ensures fun r =>
      ∀ d', r = some d' → ∃ d, d.Located format document row span column ∧
        describe mode (.new d (quoteByte format)) (keyOf format column (span.bytesOf document)) =
          .ok d' := by
  refine Exec.Ensures.bind (locate_ensures hsource hstop locating) ?_
  rintro (_ | d) hd
  · exact .pure fun _ h => nomatch h
  · have hlocated := hd d rfl
    exact (build_ensures hsource hlocated mode building).mono fun r hr d' hd' =>
      ⟨d, hlocated, hr d' hd'⟩

end Key

/-! ## What can go wrong -/

/-- The errors of reading. -/
def ReadError (error : SortError) : Prop := error = .sourceChanged ∨ ∃ io, error = .io io

section Errors
variable {W : Type} {source : PositionedRead W}

theorem checkedRead_raises (offset len : Nat) :
    (checkedRead source offset len).Raises ReadError := by
  intro w e he
  unfold checkedRead at he
  split at he
  · cases he
    exact .inr ⟨_, rfl⟩
  · split at he
    · cases he
      exact .inl rfl
    · cases he

theorem Locator.readLoop_raises (fuel budget : Nat) (l : Locator) :
    (l.readLoop source fuel budget).Raises ReadError := by
  induction fuel generalizing budget l with
  | zero => exact .pure
  | succ fuel ih =>
    unfold readLoop
    split
    · refine Exec.Raises.bind (checkedRead_raises _ _) .trivial fun bytes _ => ?_
      rcases l.readBytes bytes budget with ⟨_ | d, left, l'⟩
      · exact ih left l'
      · exact .pure
    · exact .pure

theorem Locator.advance_raises (budget : Nat) (l : Locator) :
    (l.advance source budget).Raises ReadError := by
  refine Exec.Raises.bind (readLoop_raises budget budget l) .trivial ?_
  rintro ⟨_ | d, left, l'⟩ -
  · dsimp only
    split <;> exact .pure
  · exact .pure

theorem locate_raises (format : ViewportFormat) (row : Nat) (span : RecordSpan) (column : Nat)
    (budgets : List Nat) : (locate source format row span column budgets).Raises ReadError :=
  Exec.Raises.bind (Exec.resume_raises (fun _ => True)
    (fun budget l _ => Locator.advance_raises budget l) (fun _ _ _ => fun _ _ _ _ => trivial)
    budgets trivial) .trivial fun _ _ => .pure

theorem Cursor.next_raises (budget : Nat) (c : Cursor) :
    (c.next source budget).Raises ReadError := by
  induction budget generalizing c with
  | zero => exact .pure
  | succ budget ih =>
    unfold next
    refine Exec.Raises.bind ?_ .trivial ?_
    · unfold fill
      split
      · split
        · exact .pure
        · exact Exec.Raises.bind (checkedRead_raises _ _) .trivial fun _ _ => .pure
      · exact .pure
    · rintro (_ | filled) -
      · exact .pure
      · dsimp only
        split
        · exact .pure
        · exact ih _

section Build
variable {format : ViewportFormat} {document : List Byte} {mode : SortMode} {row column : Nat}
  {span : RecordSpan} {Q : SortError → Prop}

/-- A build fails as its reads do, or as the key it reads does. -/
theorem Builder.readLoop_raises (hsource : source.Reads document)
    (hnext : ∀ budget (c : Cursor), c.Valid document → (c.next source budget).Raises Q)
    (fuel : Nat) {budget : Nat} {b : Builder} (hb : b.cursor.Valid document) :
    (b.readLoop source mode fuel budget).Raises fun e =>
      Q e ∨ b.result document mode = .error e := by
  induction fuel generalizing b budget with
  | zero => exact .pure
  | succ fuel ih =>
    unfold readLoop
    refine Exec.Raises.bind ((hnext budget b.cursor hb).mono fun _ => .inl)
      (Cursor.next_ensures hsource budget hb) ?_
    rintro ⟨step, left, cursor⟩ hstep
    cases step with
    | byte byte =>
      have hrest : b.cursor.rest document = byte :: cursor.rest document := hstep.handed.byte_eq
      have hresult : b.result document mode =
          (({ b with cursor := cursor } : Builder).pushByte mode byte).result document mode := by
        rw [result, hrest, describe_cons]
        exact (describe_cursor mode (b.pushByte mode byte) cursor _).symm
      rw [hresult]
      exact ih (b := ({ b with cursor := cursor } : Builder).pushByte mode byte) hstep.valid
    | atEnd =>
      have hrest : b.cursor.rest document = [] := hstep.handed.atEnd_eq.1
      have hresult : b.result document mode = b.atEnd mode := by
        rw [result, hrest]
        rfl
      refine Exec.Raises.bind (Exec.Raises.ofExcept fun e he => ?_) .trivial fun _ _ => .pure
      exact .inr (hresult.trans he)
    | yield => exact .pure

theorem build_raises (hsource : source.Reads document)
    (hnext : ∀ budget (c : Cursor), c.Valid document → (c.next source budget).Raises Q)
    {d : Descriptor} (hd : d.Located format document row span column) (mode : SortMode)
    (budgets : List Nat) :
    (build source format mode d budgets).Raises fun e =>
      Q e ∨ describe mode (.new d (quoteByte format))
        (keyOf format column (span.bytesOf document)) = .error e := by
  refine Exec.Raises.bind (Exec.resume_raises (fun b => b.cursor.Valid document ∧
    b.result document mode = (Builder.new d (quoteByte format)).result document mode) ?_ ?_
    budgets ⟨hd.valid, rfl⟩) .trivial fun _ _ => .pure
  · rintro budget b ⟨hvalid, hresult⟩
    refine (Builder.readLoop_raises hsource hnext (budget + 1) hvalid).mono ?_
    rintro e (hread | hkey)
    · exact .inl hread
    · refine .inr ?_
      rw [← hd.rest]
      exact hresult.symm.trans hkey
  · rintro budget b ⟨hvalid, hresult⟩
    refine (Builder.advance_ensures hsource hvalid budget).mono ?_
    rintro ⟨_ | d', left, b'⟩ hr hnone
    · exact ⟨hr.1, hr.2.1.trans hresult⟩
    · cases hnone

/-- So a row's extraction fails with an error of reading, or because its key is refused. -/
theorem extractKey_raises (hsource : source.Reads document) (hstop : span.stop ≤ document.length)
    (locating building : List Nat) :
    (extractKey source format mode row span column locating building).Raises fun e =>
      ReadError e ∨ ∃ d, d.Located format document row span column ∧
        describe mode (.new d (quoteByte format)) (keyOf format column (span.bytesOf document)) =
          .error e := by
  refine Exec.Raises.bind ((locate_raises format row span column locating).mono fun _ => .inl)
    (locate_ensures hsource hstop locating) ?_
  rintro (_ | d) hd
  · exact .pure
  · refine (build_raises hsource (fun budget c _ => Cursor.next_raises budget c) (hd d rfl) mode
      building).mono ?_
    rintro e (hread | hkey)
    · exact .inl hread
    · exact .inr ⟨d, hd d rfl, hkey⟩

/-- While the source stays as it is, enough calls come to what the key is described as,
summary or error. -/
theorem extractKey_answers {fingerprint : SourceFingerprint}
    (hsource : source.Steady document fingerprint) (hstop : span.stop ≤ document.length)
    (format : ViewportFormat) (mode : SortMode) (row column : Nat) {locating building : List Nat}
    (hlocating : ∀ budget ∈ locating, 0 < budget) (hbuilding : ∀ budget ∈ building, 0 < budget)
    (hlocated : span.len < locating.length) (hbuilt : span.len < building.length) (w : W) :
    ∃ d, d.Located format document row span column ∧
      (extractKey source format mode row span column locating building w).1 =
        (describe mode (.new d (quoteByte format))
          (keyOf format column (span.bytesOf document))).map some := by
  have hlocate : (locate source format row span column locating).Returns fun r =>
      ∃ d, r = some d ∧ d.Located format document row span column :=
    locate_returns hsource hstop hlocating hlocated
  obtain ⟨_, hrun, d, rfl, hd⟩ := hlocate w
  refine ⟨d, hd, ?_⟩
  have hsettles := build_settles hsource.toReads hd mode hbuilding hbuilt
    (locate source format row span column locating w).2
  have hraises := build_raises hsource.toReads
    (fun budget c hc => .of_returns (Cursor.next_returns hsource budget hc)) hd mode building
    (locate source format row span column locating w).2
  rw [extractKey, Exec.bind_run]
  rcases hfirst : locate source format row span column locating w with ⟨result, w'⟩
  rw [hfirst] at hrun hsettles hraises
  obtain rfl : result = .ok (some d) := hrun
  dsimp only at hsettles hraises ⊢
  cases hbuild : (build source format mode d building w').1 with
  | error e =>
    rcases hraises e hbuild with hread | hkey
    · exact hread.elim
    · rw [hkey]
      rfl
  | ok r =>
    obtain ⟨d', rfl, hkey⟩ := hsettles r hbuild
    rw [hkey]
    rfl

end Build

end Errors

/-- The value a projection shows in a column, nothing where the field is missing. -/
def shown (projection : DelimitedRecordProjection) (column : Nat) : List Byte :=
  (projection.fields.map FieldProjection.decodedBytes).getD column []

/-- For every record that the scanner delivers, on every schedule of budgets and reads: the
key bytes are those that the projection shows, the descriptor summarises just these bytes,
and both are obtained once there are enough calls. -/
theorem readKey_eq_projection {W : Type} {source : PositionedRead W} {document : List Byte}
    (hsource : source.Reads document) (hsize : document.length < u64Bound)
    {dialect : CsvDialect} {calls : List FeedCall} {last : RecordSpan → EmitControl}
    {spans : List RecordSpan} {quote : Option CsvDiagnostic}
    (hscan : ScanRun.scanAll (.delimited dialect) document calls last = .ok (spans, quote))
    {span : RecordSpan} (hspan : span ∈ spans) {limits : FieldProjectionLimits}
    (hlimits : limits.Unlimited document.length) (row column : Nat) :
    ∃ projection, projectDelimitedRecord ⟨row, span, span.bytesOf document, false⟩ dialect limits =
        .ok projection ∧
      (∀ locating reading, (readKey source (.delimited dialect) row span column locating
        reading).Ensures fun r => ∀ key, r = some key → key = shown projection column) ∧
      (∀ mode locating building, (extractKey source (.delimited dialect) mode row span column
        locating building).Ensures fun r => ∀ d', r = some d' →
          ∃ d, d.Located (.delimited dialect) document row span column ∧
            describe mode (.new d dialect.quote) (shown projection column) = .ok d') ∧
      (∀ fingerprint, source.Steady document fingerprint → ∀ locating reading,
        (∀ budget ∈ locating, 0 < budget) → (∀ budget ∈ reading, 0 < budget) →
        span.len < locating.length → span.len < reading.length →
        (readKey source (.delimited dialect) row span column locating reading).Returns fun r =>
          r = some (shown projection column)) ∧
      (∀ fingerprint, source.Steady document fingerprint → ∀ mode locating building,
        (∀ budget ∈ locating, 0 < budget) → (∀ budget ∈ building, 0 < budget) →
        span.len < locating.length → span.len < building.length → ∀ w,
          ∃ d, d.Located (.delimited dialect) document row span column ∧
            (extractKey source (.delimited dialect) mode row span column locating building w).1 =
              (describe mode (.new d dialect.quote) (shown projection column)).map some) := by
  rw [ScanRun.scanAll_of_lt _ hsize] at hscan
  cases hscan
  have hstop := record_stop_le hspan
  have hlen : (span.bytesOf document).length = span.len := slice_length hstop
  have hle : span.len ≤ document.length := by
    rw [RecordSpan.len]
    omega
  have hroom : limits.Unlimited (span.bytesOf document).length := by
    have hfields := hlimits.fields
    have hperField := hlimits.perField
    have htotal := hlimits.total
    exact ⟨by omega, by omega, by omega⟩
  obtain ⟨projection, hproject, hfields, -⟩ :=
    project_decodeFields row dialect hroom hlen (by omega)
  have hshown : shown projection column =
      keyOf (.delimited dialect) column (span.bytesOf document) := by
    rw [shown, hfields]
    rfl
  refine ⟨projection, hproject, ?_⟩
  rw [hshown]
  refine ⟨readKey_ensures hsource hstop, extractKey_ensures hsource hstop, ?_, ?_⟩
  · intro fingerprint hsteady locating reading hlocating hreading hlocated hread
    exact readKey_returns hsteady hstop hlocating hreading hlocated hread
  · intro fingerprint hsteady mode locating building hlocating hbuilding hlocated hbuilt w
    exact extractKey_answers hsteady hstop _ mode row column hlocating hbuilding hlocated hbuilt w

-- The line "a""b",c, read in calls of one byte each.
theorem readKey_eq_projection_quoted :
    ∃ projection, projectDelimitedRecord
        ⟨0, ⟨0, 8, by decide⟩, [34, 97, 34, 34, 98, 34, 44, 99], false⟩ .csv
        ⟨100, 100, 100, by decide⟩ = .ok projection ∧
      (readKey (.ofBytes [34, 97, 34, 34, 98, 34, 44, 99] (by decide)) (.delimited .csv) 0
        ⟨0, 8, by decide⟩ 0 (List.replicate 9 1) (List.replicate 9 1)).Returns fun r =>
          r = some (shown projection 0) := by
  have hsteady := PositionedRead.ofBytes_steady [34, 97, 34, 34, 98, 34, 44, 99] (by decide)
  have hscan : ScanRun.scanAll (.delimited .csv) [34, 97, 34, 34, 98, 34, 44, 99] []
      (fun _ => .continue) = .ok ([⟨0, 8, by decide⟩], none) := by decide
  have hlimits : FieldProjectionLimits.Unlimited ⟨100, 100, 100, by decide⟩ 8 :=
    ⟨by decide, by decide, by decide⟩
  obtain ⟨projection, hproject, -, -, hread, -⟩ := readKey_eq_projection hsteady.toReads
    (by decide) hscan List.mem_cons_self hlimits 0 0
  exact ⟨projection, hproject, hread _ hsteady _ _ (by decide) (by decide) (by decide)
    (by decide)⟩

end LeanRows.Sort
