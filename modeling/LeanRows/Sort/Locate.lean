import LeanRows.Sort.Field

/-!
# What the locator finds

The descriptor a locator comes to is settled by the raw fields of the record; reading on
only moves along them. `Located` is that descriptor: a cursor opened on it reads the key.
-/

namespace LeanRows.Sort

set_option autoImplicit false

/-! ## The locator -/

def FieldState.toField : FieldState → LeanRows.FieldState
  | .start => .start
  | .unquoted => .unquoted
  | .quoted => .quoted
  | .closed => .quoteClosed

@[simp] theorem FieldState.toField_start : FieldState.start.toField = .start := rfl

namespace Locator

/-- The locator reads fields of this format, and has not passed its column. -/
structure Matches (format : ViewportFormat) (l : Locator) : Prop where
  delimiter : l.delimiter = match format with
    | .delimited dialect => some dialect.delimiter
    | .lines => none
  quote : l.quote = quoteByte format
  column : l.column ≤ l.target

/-- The descriptor that the locator comes to when `ahead` is the rest of the record. -/
def answer (format : ViewportFormat) (l : Locator) (ahead : List Byte) : Descriptor :=
  let fields := rawFrom format l.state.toField l.cursor ahead
  if l.column = l.target then
    { l.descriptor with
      keyStart := l.fieldStart
      keyEnd := l.cursor + fields.1.length
      quoted := l.descriptor.quoted || decide (l.state = .start ∧ startsQuoted format fields.1) }
  else
    match fields.2[l.target - l.column - 1]? with
    | some (o, raw) =>
      { l.descriptor with
        keyStart := o
        keyEnd := o + raw.length
        quoted := l.descriptor.quoted || startsQuoted format raw }
    | none =>
      { l.descriptor with
        keyStart := l.cursor + ahead.length
        keyEnd := l.cursor + ahead.length }

section Steps
variable {format : ViewportFormat} {l : Locator} {byte : Byte}

/-- The locator behind a byte that does not end a field. -/
def within (format : ViewportFormat) (l : Locator) (byte : Byte) (state : FieldState) : Locator :=
  { l with
    cursor := l.cursor + 1
    state := state
    descriptor := { l.descriptor with
      quoted := l.descriptor.quoted ||
        decide (l.column = l.target ∧ l.state = .start ∧ format.isQuote byte) } }

/-- The locator behind the byte that ends a field it does not look for. -/
def behind (l : Locator) : Locator :=
  { l with
    cursor := l.cursor + 1
    column := l.column + 1
    fieldStart := l.cursor + 1
    state := .start }

theorem readByte_within (h : l.Matches format) {next : LeanRows.FieldState}
    (hbyte : fieldByte format l.state.toField byte = .value next ∨
      fieldByte format l.state.toField byte = .quoting next) :
    ∃ state : FieldState, state.toField = next ∧
      l.readByte byte = (none, l.within format byte state) := by
  obtain ⟨descriptor, cursor, fieldStart, column, target, state, delimiter, quote⟩ := l
  obtain ⟨rfl, rfl, -⟩ := h
  cases format with
  | lines =>
    simp only [fieldByte, FieldByte.value.injEq, reduceCtorEq, or_false] at hbyte
    refine ⟨state, hbyte, ?_⟩
    simp [readByte, within, ViewportFormat.isQuote]
  | delimited dialect =>
    have hne := dialect.distinct
    cases state <;> by_cases hquote : byte = dialect.quote <;>
      by_cases hdelim : byte = dialect.delimiter <;>
      simp_all [fieldByte, FieldState.toField, LeanRows.FieldState.read, readByte, within,
        ViewportFormat.isQuote, quoteByte, beq_eq_decide]

theorem readByte_ends (h : l.Matches format)
    (hbyte : fieldByte format l.state.toField byte = .ends) :
    l.readByte byte =
      if l.column = l.target then
        (some { l.descriptor with keyStart := l.fieldStart, keyEnd := l.cursor },
          { l with cursor := l.cursor + 1 })
      else
        (none, l.behind) := by
  obtain ⟨descriptor, cursor, fieldStart, column, target, state, delimiter, quote⟩ := l
  obtain ⟨rfl, rfl, -⟩ := h
  cases format with
  | lines => simp [fieldByte] at hbyte
  | delimited dialect =>
    have hne := dialect.distinct
    cases state <;> by_cases hquote : byte = dialect.quote <;>
      by_cases hdelim : byte = dialect.delimiter <;>
      simp_all [fieldByte, FieldState.toField, LeanRows.FieldState.read, readByte, quoteByte,
        behind]

theorem answer_within {state : FieldState} {ahead : List Byte}
    (hbyte : fieldByte format l.state.toField byte = .value state.toField ∨
      fieldByte format l.state.toField byte = .quoting state.toField) :
    (l.within format byte state).answer format ahead = l.answer format (byte :: ahead) := by
  have hfields := rawFrom_within format l.cursor ahead hbyte
  have hclosed : decide (l.state = .start ∧ format.isQuote byte) =
      (decide (l.state = .start ∧ format.isQuote byte) ||
        decide (state = .start ∧ startsQuoted format
          (rawFrom format state.toField (l.cursor + 1) ahead).1)) := by
    cases format with
    | lines => simp [startsQuoted_lines]
    | delimited dialect =>
      have hstate : state ≠ .start := by
        rintro rfl
        simp only [fieldByte] at hbyte
        revert hbyte
        cases l.state <;> simp only [FieldState.toField, LeanRows.FieldState.read] <;>
          repeat' split <;> simp
      simp [hstate]
  by_cases heq : l.column = l.target
  · simp only [answer, within, heq, hfields, if_true, true_and, startsQuoted_cons,
      List.length_cons]
    rw [Bool.or_assoc, ← hclosed, Nat.add_right_comm, Nat.add_assoc]
  · simp only [answer, within, heq, hfields, if_false, false_and, decide_false, Bool.or_false,
      List.length_cons]
    rw [Nat.add_right_comm, Nat.add_assoc]

theorem answer_behind (hlt : l.column < l.target) {ahead : List Byte}
    (hbyte : fieldByte format l.state.toField byte = .ends) :
    l.behind.answer format ahead = l.answer format (byte :: ahead) := by
  have hfields := rawFrom_ends format l.cursor ahead hbyte
  simp only [answer, behind, hfields, if_neg (Nat.ne_of_lt hlt), FieldState.toField_start]
  by_cases hnext : l.column + 1 = l.target
  · have hindex : l.target - l.column - 1 = 0 := by omega
    simp only [hnext, if_true, hindex, List.getElem?_cons_zero, true_and, Bool.decide_eq_true]
  · have hindex : l.target - l.column - 1 = l.target - (l.column + 1) - 1 + 1 := by omega
    simp only [hnext, if_false, hindex, List.getElem?_cons_succ, List.length_cons,
      Nat.add_right_comm l.cursor 1, Nat.add_assoc]

theorem answer_ends {ahead : List Byte} (heq : l.column = l.target)
    (hbyte : fieldByte format l.state.toField byte = .ends) :
    l.answer format (byte :: ahead) =
      { l.descriptor with keyStart := l.fieldStart, keyEnd := l.cursor } := by
  simp [answer, heq, rawFrom_ends format l.cursor ahead hbyte]

theorem readByte_answer (h : l.Matches format) (byte : Byte) :
    match l.readByte byte with
    | (some d, _) => ∀ ahead, l.answer format (byte :: ahead) = d
    | (none, l') => l'.Matches format ∧ l'.cursor = l.cursor + 1 ∧
        l'.descriptor.stop = l.descriptor.stop ∧
        ∀ ahead, l'.answer format ahead = l.answer format (byte :: ahead) := by
  have hwithin : ∀ next, fieldByte format l.state.toField byte = .value next ∨
      fieldByte format l.state.toField byte = .quoting next → ∃ state,
        l.readByte byte = (none, l.within format byte state) ∧
        ∀ ahead, (l.within format byte state).answer format ahead =
          l.answer format (byte :: ahead) := by
    intro next hnext
    obtain ⟨state, rfl, hread⟩ := readByte_within h hnext
    exact ⟨state, hread, fun _ => answer_within hnext⟩
  cases hbyte : fieldByte format l.state.toField byte with
  | ends =>
    rw [readByte_ends h hbyte]
    split
    · rename_i heq
      split at heq
      · rename_i hcolumn
        cases heq
        exact fun _ => answer_ends hcolumn hbyte
      · cases heq
    · rename_i heq
      split at heq
      · cases heq
      · rename_i hcolumn
        cases heq
        have hlt := Nat.lt_of_le_of_ne h.column hcolumn
        exact ⟨⟨h.delimiter, h.quote, hlt⟩, rfl, rfl, fun _ => answer_behind hlt hbyte⟩
  | value next =>
    obtain ⟨state, hread, hanswer⟩ := hwithin next (.inl hbyte)
    rw [hread]
    exact ⟨⟨h.delimiter, h.quote, h.column⟩, rfl, rfl, hanswer⟩
  | quoting next =>
    obtain ⟨state, hread, hanswer⟩ := hwithin next (.inr hbyte)
    rw [hread]
    exact ⟨⟨h.delimiter, h.quote, h.column⟩, rfl, rfl, hanswer⟩

theorem readBytes_answer (h : l.Matches format) (bytes : List Byte) (budget : Nat) :
    match readBytes bytes budget l with
    | (some d, _) => ∀ ahead, l.answer format (bytes ++ ahead) = d
    | (none, left, l') => l'.Matches format ∧ l'.cursor = l.cursor + bytes.length ∧
        l'.descriptor.stop = l.descriptor.stop ∧ left = budget - bytes.length ∧
        ∀ ahead, l'.answer format ahead = l.answer format (bytes ++ ahead) := by
  induction bytes generalizing l budget with
  | nil => exact ⟨h, rfl, rfl, rfl, fun _ => rfl⟩
  | cons byte bytes ih =>
    have hbyte := readByte_answer h byte
    rw [readBytes]
    rcases hread : l.readByte byte with ⟨_ | d, l'⟩
    · rw [hread] at hbyte
      obtain ⟨hmatches, hcursor, hstop, hanswer⟩ := hbyte
      have hrest := ih hmatches (budget - 1)
      dsimp only
      rcases hreads : readBytes bytes (budget - 1) l' with ⟨_ | d, left, l''⟩
      · rw [hreads] at hrest
        obtain ⟨hmatches', hcursor', hstop', hleft, hanswer'⟩ := hrest
        refine ⟨hmatches', ?_, hstop'.trans hstop, ?_, fun ahead => ?_⟩
        · rw [hcursor', hcursor, List.length_cons]
          omega
        · rw [hleft, List.length_cons]
          omega
        · rw [hanswer', hanswer, List.cons_append]
      · rw [hreads] at hrest
        intro ahead
        rw [List.cons_append, ← hanswer]
        exact hrest ahead
    · rw [hread] at hbyte
      exact fun ahead => hbyte _

end Steps

/-- The locator stands inside its record, and the record inside the document. -/
structure Valid (format : ViewportFormat) (document : List Byte) (l : Locator) : Prop
    extends l.Matches format where
  cursor_le : l.cursor ≤ l.descriptor.stop
  stop_le : l.descriptor.stop ≤ document.length

/-- The descriptor the locator comes to. -/
def found (format : ViewportFormat) (document : List Byte) (l : Locator) : Descriptor :=
  l.answer format (slice document l.cursor l.descriptor.stop)

theorem found_atEnd {format : ViewportFormat} {document : List Byte} {l : Locator}
    (hend : l.cursor = l.descriptor.stop) : l.found format document = l.atEnd := by
  have hnil : slice document l.cursor l.descriptor.stop = [] := by
    rw [slice, hend, Nat.sub_self, List.take_zero]
  simp [found, hnil, answer, rawFrom, atEnd]

section Source
variable {W : Type} {source : PositionedRead W} {document : List Byte} {format : ViewportFormat}
  {l : Locator}

theorem readLoop_ensures (hsource : source.Reads document) (hl : l.Valid format document)
    {fuel : Nat} (budget : Nat) (hfuel : budget ≤ fuel) :
    (readLoop source fuel budget l).Ensures fun r =>
      match r with
      | (some d, _) => d = l.found format document
      | (none, left, l') => l'.Valid format document ∧
          l'.found format document = l.found format document ∧
          l'.descriptor.stop = l.descriptor.stop ∧ l'.cursor + left = l.cursor + budget ∧
          (l'.cursor < l'.descriptor.stop → left = 0) := by
  induction fuel generalizing l budget with
  | zero => exact .pure ⟨hl, rfl, rfl, rfl, fun _ => by omega⟩
  | succ fuel ih =>
    unfold readLoop
    split
    · rename_i hmore
      refine Exec.Ensures.bind (checkedRead_ensures hsource _ _) ?_
      rintro bytes ⟨hne, hlen, hread⟩
      have hpos := List.length_pos_of_ne_nil hne
      have hslice := slice_eq_append l.descriptor.stop hread (by omega)
      have hbytes := readBytes_answer hl.toMatches bytes budget
      rcases hreads : l.readBytes bytes budget with ⟨_ | d, left, l'⟩
      · rw [hreads] at hbytes
        obtain ⟨hmatches, hcursor, hstop, hleft, hanswer⟩ := hbytes
        have hfound : l'.found format document = l.found format document := by
          rw [found, found, hslice, hanswer, hcursor, hstop]
        have hstop_le := hl.stop_le
        have hvalid : l'.Valid format document := ⟨hmatches, by omega, by omega⟩
        refine (ih hvalid left (by omega)).mono ?_
        rintro ⟨_ | d, left', l''⟩ hr
        · obtain ⟨hvalid', hfound', hstop', hspent, hdone⟩ := hr
          exact ⟨hvalid', hfound'.trans hfound, hstop'.trans hstop, by omega, hdone⟩
        · exact hr.trans hfound
      · rw [hreads] at hbytes
        refine .pure ?_
        rw [found, hslice]
        exact (hbytes _).symm
    · rename_i hmore
      refine .pure ⟨hl, rfl, rfl, rfl, fun h => ?_⟩
      omega

theorem advance_ensures (hsource : source.Reads document) (hl : l.Valid format document)
    (budget : Nat) :
    (l.advance source budget).Ensures fun r =>
      match r with
      | (some d, _) => d = l.found format document
      | (none, _, l') => l'.Valid format document ∧
          l'.found format document = l.found format document ∧
          l'.descriptor.stop - l'.cursor + budget = l.descriptor.stop - l.cursor := by
  refine Exec.Ensures.bind (readLoop_ensures hsource hl budget (Nat.le_refl budget)) ?_
  rintro ⟨_ | d, left, l'⟩ hr
  · obtain ⟨hvalid, hfound, hstop, hspent, hdone⟩ := hr
    dsimp only
    split
    · rename_i hend
      refine .pure ?_
      rw [← hfound, found_atEnd hend]
    · rename_i hend
      have hcursor := hvalid.cursor_le
      have hleft := hdone (by omega)
      exact .pure ⟨hvalid, hfound, by omega⟩
  · exact .pure hr

theorem readLoop_returns {fingerprint : SourceFingerprint}
    (hsource : source.Steady document fingerprint) (hl : l.Valid format document)
    (fuel budget : Nat) : (readLoop source fuel budget l).Returns fun _ => True := by
  induction fuel generalizing l budget with
  | zero => exact .pure trivial
  | succ fuel ih =>
    unfold readLoop
    split
    · rename_i hmore
      have hstop_le := hl.stop_le
      refine Exec.Returns.bind ((checkedRead_returns hsource ?_ ?_).and_ensures
        (checkedRead_ensures hsource.toReads _ _)) ?_
      · simp only [readerBytes, lt_min_iff]
        omega
      · omega
      rintro bytes ⟨-, hne, hlen, hread⟩
      have hbytes := readBytes_answer hl.toMatches bytes budget
      rcases hreads : l.readBytes bytes budget with ⟨_ | d, left, l'⟩
      · rw [hreads] at hbytes
        obtain ⟨hmatches, hcursor, hstop, -⟩ := hbytes
        exact ih ⟨hmatches, by omega, by omega⟩ left
      · exact .pure trivial
    · exact .pure trivial

theorem advance_returns {fingerprint : SourceFingerprint}
    (hsource : source.Steady document fingerprint) (hl : l.Valid format document)
    (budget : Nat) : (l.advance source budget).Returns fun _ => True := by
  refine Exec.Returns.bind (readLoop_returns hsource hl budget budget) ?_
  rintro ⟨_ | d, left, l'⟩ -
  · dsimp only
    split <;> exact .pure trivial
  · exact .pure trivial

/-- The locator, taken up as often as it takes. -/
theorem resume_ensures (hsource : source.Reads document) (hl : l.Valid format document)
    (budgets : List Nat) :
    (Exec.resume (fun budget l => advance source budget l) budgets l).Ensures fun r =>
      ∀ d, r.1 = some d → d = l.found format document := by
  refine Exec.resume_ensures (fun l' => l'.Valid format document ∧
    l'.found format document = l.found format document) _ ?_ budgets ⟨hl, rfl⟩
  rintro budget l' ⟨hvalid, hfound⟩
  refine (advance_ensures hsource hvalid budget).mono ?_
  rintro ⟨_ | d, left, l''⟩ hr
  · exact ⟨hr.1, hr.2.1.trans hfound⟩
  · exact hr.trans hfound

theorem resume_returns {fingerprint : SourceFingerprint}
    (hsource : source.Steady document fingerprint) (hl : l.Valid format document)
    {budgets : List Nat} (hpos : ∀ budget ∈ budgets, 0 < budget)
    (henough : l.descriptor.stop - l.cursor < budgets.length) :
    (Exec.resume (fun budget l => advance source budget l) budgets l).Returns fun r =>
      r.1 = some (l.found format document) := by
  refine (Exec.resume_returns (fun l' => l'.Valid format document ∧
      l'.found format document = l.found format document)
    (fun d => d = l.found format document)
    (fun l' => l'.descriptor.stop - l'.cursor) ?_ hpos ⟨hl, rfl⟩ henough).mono ?_
  · rintro budget l' ⟨hvalid, hfound⟩ hbudget
    refine ((advance_returns hsource hvalid budget).and_ensures
      (advance_ensures hsource.toReads hvalid budget)).mono ?_
    rintro ⟨_ | d, left, l''⟩ ⟨-, hr⟩
    · exact ⟨⟨hr.1, hr.2.1.trans hfound⟩, by have := hr.2.2; omega⟩
    · exact hr.trans hfound
  · rintro r ⟨d, hd, rfl⟩
    exact hd

end Source

end Locator

/-! ## The key of a record -/

/-- A descriptor with its key found and nothing said about it yet. -/
structure Descriptor.Located (format : ViewportFormat) (document : List Byte) (row : Nat)
    (span : RecordSpan) (column : Nat) (d : Descriptor) : Prop where
  blank : d = { (default : Descriptor) with
    row := row
    start := span.start
    stop := span.stop
    keyStart := d.keyStart
    keyEnd := d.keyEnd
    quoted := d.quoted }
  inside : span.start ≤ d.keyStart ∧ d.keyStart ≤ d.keyEnd ∧ d.keyEnd ≤ span.stop
  valid : (Cursor.new d (quoteByte format)).Valid document
  rest : (Cursor.new d (quoteByte format)).rest document =
    keyOf format column (span.bytesOf document)

section Key
variable {document : List Byte} {format : ViewportFormat} {span : RecordSpan}

theorem Locator.new_valid (format : ViewportFormat) (row : Nat)
    (hstop : span.stop ≤ document.length) (column : Nat) :
    (Locator.new row span format column).Valid format document := by
  refine ⟨⟨?_, rfl, Nat.zero_le _⟩, span.start_le_stop, hstop⟩
  cases format <;> rfl

/-- A descriptor that points at a raw field. -/
theorem Descriptor.Located.of_raw (row column : Nat) {o : Nat} {raw : List Byte}
    (hstop : span.stop ≤ document.length) (hraw : raw <+: document.drop o)
    (hstart : span.start ≤ o) (hend : o + raw.length ≤ span.stop)
    (hvalue : rawValue format raw = keyOf format column (span.bytesOf document)) :
    Descriptor.Located format document row span column { (default : Descriptor) with
      row := row
      start := span.start
      stop := span.stop
      keyStart := o
      keyEnd := o + raw.length
      quoted := startsQuoted format raw } := by
  refine ⟨rfl, ⟨hstart, Nat.le_add_right _ _, hend⟩,
    ⟨List.nil_prefix, Nat.le_add_right _ _, Nat.le_trans hend hstop⟩, ?_⟩
  have hslice : slice document o (o + raw.length) = raw := by
    rw [slice, Nat.add_sub_cancel_left]
    exact (List.prefix_iff_eq_take.mp hraw).symm
  rw [← hvalue]
  simp only [Cursor.rest, Cursor.new, hslice, rawValue]

theorem Locator.found_new (row : Nat) (hstop : span.stop ≤ document.length) (column : Nat) :
    ((Locator.new row span format column).found format document).Located format document row span
      column := by
  have hspan := span.start_le_stop
  have hquoted : (default : Descriptor).quoted = false := rfl
  have hpre : span.bytesOf document <+: document.drop span.start := List.take_prefix _ _
  have hlen : (span.bytesOf document).length = span.stop - span.start := slice_length hstop
  have hvalues := fieldValues_eq_raw format span.start (span.bytesOf document)
  have hsound := rawFrom_sound format _ .start hpre
  generalize hraw : rawFrom format .start span.start (span.bytesOf document) = raw at hvalues hsound
  obtain ⟨⟨hfirst, hfirstLen⟩, hothers⟩ := hsound
  change ((new row span format column).answer format (span.bytesOf document)).Located _ _ _ _ _
  cases column with
  | zero =>
    have hanswer := Descriptor.Located.of_raw row 0 hstop hfirst
      (Nat.le_refl _) (by omega) (by rw [keyOf, hvalues]; rfl)
    simpa [answer, new, hraw, hquoted] using hanswer
  | succ column =>
    have hkey : keyOf format (column + 1) (span.bytesOf document) =
        (raw.2[column]?.map fun field => rawValue format field.2).getD [] := by
      rw [keyOf, hvalues, List.getD_cons_succ, List.getD_eq_getElem?_getD, List.getElem?_map]
    cases hfield : raw.2[column]? with
    | none =>
      have hanswer := Descriptor.Located.of_raw row (column + 1)
        (o := span.start + (span.bytesOf document).length) hstop List.nil_prefix
        (Nat.le_add_right _ _) (by simp only [List.length_nil]; omega) (by rw [hkey, hfield]; rfl)
      simpa [answer, new, hraw, hfield, hquoted] using hanswer
    | some field =>
      obtain ⟨hpre', hstart', hend'⟩ := hothers field (List.mem_of_getElem? hfield)
      have hanswer := Descriptor.Located.of_raw row (column + 1) hstop hpre'
        hstart' (by omega) (by rw [hkey, hfield]; rfl)
      simpa [answer, new, hraw, hfield, hquoted] using hanswer

end Key

end LeanRows.Sort
