import LeanRows.Sort.Key

/-!
# What the locator finds and the cursor reads

`rawFrom` cuts a record into raw fields in one pass. The locator finds the raw field of its
column and the cursor decodes it, whatever budgets they run on and however short the reads
are; the bytes they obtain are those of `keyOf`, the field the projection shows.
-/

namespace LeanRows.Sort

set_option autoImplicit false

/-- The bytes of a document between two offsets. -/
def slice (document : List Byte) (start stop : Nat) : List Byte :=
  (document.drop start).take (stop - start)

section Slice
variable {document bytes : List Byte} {start stop : Nat}

theorem slice_length (h : stop ≤ document.length) :
    (slice document start stop).length = stop - start := by
  simp only [slice, List.length_take, List.length_drop]
  omega

/-- A read of part of a slice is the front of it. -/
theorem slice_eq_append (stop : Nat) (h : bytes <+: document.drop start)
    (hlen : bytes.length ≤ stop - start) :
    slice document start stop = bytes ++ slice document (start + bytes.length) stop := by
  obtain ⟨more, hmore⟩ := h
  have hrest : document.drop (start + bytes.length) = more := by
    rw [← List.drop_drop, ← hmore, List.drop_left]
  rw [slice, slice, hrest, ← hmore, List.take_append, List.take_of_length_le hlen]
  congr 2
  omega

end Slice

/-! ## Raw fields -/

/-- What a byte is to the field it is read in. A line has one field and no quotes. -/
def fieldByte (format : ViewportFormat) (state : LeanRows.FieldState) (byte : Byte) : FieldByte :=
  match format with
  | .delimited dialect => state.read dialect byte
  | .lines => .value state

/-- The raw bytes of the field a record is read in, and the offset and bytes of each field
behind it. -/
def rawFrom (format : ViewportFormat) :
    LeanRows.FieldState → Nat → List Byte → List Byte × List (Nat × List Byte)
  | _, _, [] => ([], [])
  | state, o, byte :: bytes =>
    match fieldByte format state byte with
    | .ends =>
      ([], (o + 1, (rawFrom format .start (o + 1) bytes).1) ::
        (rawFrom format .start (o + 1) bytes).2)
    | .quoting state | .value state =>
      (byte :: (rawFrom format state (o + 1) bytes).1, (rawFrom format state (o + 1) bytes).2)

section RawFrom
variable (format : ViewportFormat) {state next : LeanRows.FieldState} {byte : Byte} (o : Nat)
  (bytes : List Byte)

theorem rawFrom_ends (h : fieldByte format state byte = .ends) :
    rawFrom format state o (byte :: bytes) =
      ([], (o + 1, (rawFrom format .start (o + 1) bytes).1) ::
        (rawFrom format .start (o + 1) bytes).2) := by
  rw [rawFrom, h]

theorem rawFrom_within
    (h : fieldByte format state byte = .value next ∨ fieldByte format state byte = .quoting next) :
    rawFrom format state o (byte :: bytes) =
      (byte :: (rawFrom format next (o + 1) bytes).1, (rawFrom format next (o + 1) bytes).2) := by
  rcases h with h | h <;> simp only [rawFrom, h]

end RawFrom

/-- The values of the fields of a record. -/
def fieldValues (format : ViewportFormat) (bytes : List Byte) : List (List Byte) :=
  match format with
  | .delimited dialect => decodeFields dialect bytes
  | .lines => [bytes]

/-- The bytes of the key a record has in a column; a missing field is empty. -/
def keyOf (format : ViewportFormat) (column : Nat) (bytes : List Byte) : List Byte :=
  (fieldValues format bytes).getD column []

/-! ## The cursor -/

/-- The value that raw bytes decode to, from the flags of a cursor on. -/
def decodeRaw (quote : Byte) : Bool → Bool → Bool → List Byte → List Byte
  | _, _, _, [] => []
  | quoted, closed, first, byte :: bytes =>
    if first && quoted then decodeRaw quote quoted closed false bytes
    else if quoted then
      if closed then
        if byte = quote then byte :: decodeRaw quote true false false bytes
        else byte :: decodeRaw quote false false false bytes
      else if byte = quote then decodeRaw quote true true false bytes
      else byte :: decodeRaw quote true false false bytes
    else byte :: decodeRaw quote quoted closed false bytes

@[simp] theorem decodeRaw_nil (quote : Byte) (quoted closed first : Bool) :
    decodeRaw quote quoted closed first [] = [] := rfl

theorem decodeRaw_unquoted (quote : Byte) (closed first : Bool) (bytes : List Byte) :
    decodeRaw quote false closed first bytes = bytes := by
  induction bytes generalizing closed first with
  | nil => rfl
  | cons byte bytes ih => simp [decodeRaw, ih]

/-- Whether a raw field opens with a quote. -/
def startsQuoted (format : ViewportFormat) : List Byte → Bool
  | [] => false
  | byte :: _ => format.isQuote byte

@[simp] theorem startsQuoted_nil (format : ViewportFormat) : startsQuoted format [] = false := rfl

@[simp] theorem startsQuoted_cons (format : ViewportFormat) (byte : Byte) (bytes : List Byte) :
    startsQuoted format (byte :: bytes) = format.isQuote byte := rfl

theorem startsQuoted_lines (bytes : List Byte) : startsQuoted .lines bytes = false := by
  cases bytes <;> rfl

/-- The value of a whole raw field. -/
def rawValue (format : ViewportFormat) (raw : List Byte) : List Byte :=
  decodeRaw (quoteByte format) (startsQuoted format raw) false true raw

/-- The value of the rest of a raw field that has been read up to some state. -/
def rawRest (dialect : CsvDialect) (raw : List Byte) : LeanRows.FieldState → List Byte
  | .start => rawValue (.delimited dialect) raw
  | .unquoted => raw
  | .quoted => decodeRaw dialect.quote true false false raw
  | .quoteClosed => decodeRaw dialect.quote true true false raw

@[simp] theorem rawRest_nil (dialect : CsvDialect) (state : LeanRows.FieldState) :
    rawRest dialect [] state = [] := by
  cases state <;> rfl

section RawRest
variable {dialect : CsvDialect} {state next : LeanRows.FieldState} {byte : Byte} (raw : List Byte)

theorem rawRest_quoting (h : state.read dialect byte = .quoting next) :
    rawRest dialect (byte :: raw) state = rawRest dialect raw next := by
  cases state with
  | start =>
    rw [LeanRows.FieldState.read] at h
    split at h
    · rename_i hquote
      cases h
      simp [rawRest, rawValue, decodeRaw, ViewportFormat.isQuote, quoteByte, hquote]
    · split at h <;> cases h
  | unquoted =>
    rw [LeanRows.FieldState.read] at h
    split at h <;> cases h
  | quoted =>
    rw [LeanRows.FieldState.read] at h
    split at h
    · rename_i hquote
      cases h
      simp [rawRest, decodeRaw, hquote]
    · cases h
  | quoteClosed =>
    rw [LeanRows.FieldState.read] at h
    split at h
    · cases h
    · split at h <;> cases h

theorem rawRest_value (h : state.read dialect byte = .value next) :
    rawRest dialect (byte :: raw) state = byte :: rawRest dialect raw next := by
  cases state with
  | start =>
    rw [LeanRows.FieldState.read] at h
    split at h
    · cases h
    · rename_i hquote
      split at h
      · cases h
      · cases h
        have hopen : (byte == dialect.quote) = false := by simpa using hquote
        simp only [rawRest, rawValue, startsQuoted_cons, ViewportFormat.isQuote, hopen,
          decodeRaw_unquoted]
  | unquoted =>
    rw [LeanRows.FieldState.read] at h
    split at h <;> cases h
    rfl
  | quoted =>
    rw [LeanRows.FieldState.read] at h
    split at h
    · cases h
    · rename_i hquote
      cases h
      simp [rawRest, decodeRaw, hquote]
  | quoteClosed =>
    rw [LeanRows.FieldState.read] at h
    split at h
    · rename_i hquote
      cases h
      simp [rawRest, decodeRaw, hquote]
    · rename_i hquote
      split at h <;> cases h
      simp [rawRest, decodeRaw, decodeRaw_unquoted, hquote]

end RawRest

/-- The projection decodes each raw field as the cursor does. -/
theorem fieldsFrom_eq_raw (dialect : CsvDialect) (state : LeanRows.FieldState) (o : Nat)
    (bytes : List Byte) :
    fieldsFrom dialect state bytes =
      (rawRest dialect (rawFrom (.delimited dialect) state o bytes).1 state,
        (rawFrom (.delimited dialect) state o bytes).2.map fun field =>
          rawValue (.delimited dialect) field.2) := by
  induction bytes generalizing state o with
  | nil => simp [fieldsFrom, rawFrom]
  | cons byte bytes ih =>
    cases hread : state.read dialect byte with
    | ends =>
      have hraw := rawFrom_ends (.delimited dialect) o bytes hread
      rw [fieldsFrom_ends bytes hread, hraw, ih .start (o + 1), rawRest_nil]
      rfl
    | quoting next =>
      have hraw := rawFrom_within (.delimited dialect) o bytes (.inr hread)
      rw [fieldsFrom_quoting bytes hread, hraw, ih next (o + 1), rawRest_quoting _ hread]
    | value next =>
      have hraw := rawFrom_within (.delimited dialect) o bytes (.inl hread)
      rw [fieldsFrom_value bytes hread, hraw, ih next (o + 1), rawRest_value _ hread]

theorem fieldValues_eq_raw (format : ViewportFormat) (o : Nat) (bytes : List Byte) :
    fieldValues format bytes = rawValue format (rawFrom format .start o bytes).1 ::
      (rawFrom format .start o bytes).2.map fun field => rawValue format field.2 := by
  cases format with
  | delimited dialect =>
    rw [fieldValues, decodeFields, fieldsFrom_eq_raw dialect .start o bytes]
    rfl
  | lines =>
    have hraw : rawFrom .lines .start o bytes = (bytes, []) := by
      induction bytes generalizing o with
      | nil => rfl
      | cons byte bytes ih => rw [rawFrom_within .lines o bytes (.inl rfl), ih]
    rw [hraw, rawValue, startsQuoted_lines, decodeRaw_unquoted]
    rfl

/-- Raw fields are where they are said to be. -/
theorem rawFrom_sound {document : List Byte} (format : ViewportFormat) (bytes : List Byte)
    (state : LeanRows.FieldState) {o : Nat} (h : bytes <+: document.drop o) :
    ((rawFrom format state o bytes).1 <+: document.drop o ∧
      (rawFrom format state o bytes).1.length ≤ bytes.length) ∧
    ∀ field ∈ (rawFrom format state o bytes).2,
      field.2 <+: document.drop field.1 ∧ o ≤ field.1 ∧
        field.1 + field.2.length ≤ o + bytes.length := by
  induction bytes generalizing state o with
  | nil => simp [rawFrom]
  | cons byte bytes ih =>
    have hdrop : bytes <+: document.drop (o + 1) := by
      obtain ⟨more, hmore⟩ := h
      refine ⟨more, ?_⟩
      rw [← List.drop_drop, ← hmore]
      rfl
    by_cases hends : fieldByte format state byte = .ends
    · obtain ⟨⟨hraw, hlen⟩, hfields⟩ := ih .start hdrop
      rw [rawFrom_ends format o bytes hends, List.length_cons]
      refine ⟨⟨List.nil_prefix, Nat.zero_le _⟩, ?_⟩
      intro field hfield
      rcases List.mem_cons.mp hfield with rfl | hfield
      · exact ⟨hraw, by dsimp only; omega⟩
      · obtain ⟨hpre, hle⟩ := hfields field hfield
        exact ⟨hpre, by omega⟩
    · obtain ⟨next, hnext⟩ : ∃ next, fieldByte format state byte = .value next ∨
          fieldByte format state byte = .quoting next := by
        cases hread : fieldByte format state byte with
        | ends => exact absurd hread hends
        | quoting next => exact ⟨next, .inr rfl⟩
        | value next => exact ⟨next, .inl rfl⟩
      obtain ⟨⟨hraw, hlen⟩, hfields⟩ := ih next hdrop
      rw [rawFrom_within format o bytes hnext, List.length_cons]
      refine ⟨⟨?_, Nat.succ_le_succ hlen⟩, ?_⟩
      · rw [← List.drop_drop] at hraw
        obtain ⟨more, hmore⟩ := h
        obtain ⟨rest, hrest⟩ := hraw
        refine ⟨rest, ?_⟩
        rw [← hmore] at hrest ⊢
        simpa using hrest
      · intro field hfield
        obtain ⟨hpre, hstart, hend⟩ := hfields field hfield
        rw [List.length_cons]
        exact ⟨hpre, by omega, by omega⟩

/-- A byte handed out, and what is left to hand out behind it. -/
inductive ByteStep.Of : List Byte → ByteStep → List Byte → Prop where
  | byte (byte : Byte) (rest : List Byte) : Of (byte :: rest) (.byte byte) rest
  | atEnd : Of [] .atEnd []
  | yield (rest : List Byte) : Of rest .yield rest

namespace ByteStep.Of

variable {before after : List Byte}

theorem byte_eq {byte : Byte} (h : Of before (.byte byte) after) : before = byte :: after := by
  cases h
  rfl

theorem atEnd_eq (h : Of before .atEnd after) : before = [] ∧ after = [] := by
  cases h
  exact ⟨rfl, rfl⟩

theorem yield_eq (h : Of before .yield after) : before = after := by
  cases h
  rfl

end ByteStep.Of

/-- Readers that hand out bytes one by one: the bytes still to come, and how many raw bytes
are left to read for them. -/
structure ByteStream (S : Type) where
  Valid : S → Prop
  rest : S → List Byte
  todo : S → Nat

/-- A call of a reader: it hands out the next byte, and every raw byte it read is one off
the budget. -/
structure ByteStream.Step {S : Type} (stream : ByteStream S) (budget : Nat) (s : S)
    (r : ByteStep × Nat × S) : Prop where
  valid : stream.Valid r.2.2
  handed : ByteStep.Of (stream.rest s) r.1 (stream.rest r.2.2)
  spent : stream.todo s + r.2.1 = stream.todo r.2.2 + budget
  left_le : r.2.1 ≤ budget
  drained : r.1 = .yield → r.2.1 = 0
  byte_spent : ∀ byte, r.1 = .byte byte → r.2.1 < budget

section CheckedRead
variable {W : Type} {source : PositionedRead W} {document : List Byte}

theorem checkedRead_ensures (hsource : source.Reads document) (offset len : Nat) :
    (checkedRead source offset len).Ensures fun bytes =>
      bytes ≠ [] ∧ bytes.length ≤ len ∧ bytes <+: document.drop offset := by
  intro w bytes hbytes
  have hread := hsource.read w offset len
  unfold checkedRead at hbytes
  split at hbytes
  · cases hbytes
  · rename_i got w' hrun
    split at hbytes
    · cases hbytes
    · rename_i hlen
      cases hbytes
      exact ⟨fun h => hlen (.inl (by simp [h])), by omega, hread _ (by rw [hrun])⟩

theorem checkedRead_returns {fingerprint : SourceFingerprint}
    (hsource : source.Steady document fingerprint) {offset len : Nat} (hlen : 0 < len)
    (hoffset : offset < document.length) :
    (checkedRead source offset len).Returns fun _ => True := by
  intro w
  obtain ⟨bytes, hread, hne, hle⟩ := hsource.progress w offset len hlen hoffset
  have hpos := List.length_pos_of_ne_nil hne
  refine ⟨bytes, ?_, trivial⟩
  unfold checkedRead
  rw [← Prod.mk.eta (p := source.readAt w offset len), hread]
  dsimp only
  rw [if_neg (by omega)]

end CheckedRead

namespace Cursor

/-- The buffer holds bytes of the document, and none behind the field. -/
structure Valid (document : List Byte) (c : Cursor) : Prop where
  pending : c.pending <+: document.drop c.offset
  pending_le : c.offset + c.pending.length ≤ c.stop
  stop_le : c.stop ≤ document.length

/-- The bytes of the value still to come. -/
def rest (document : List Byte) (c : Cursor) : List Byte :=
  decodeRaw c.quote c.quoted c.closed c.first (slice document c.offset c.stop)

def stream (document : List Byte) : ByteStream Cursor :=
  ⟨Valid document, rest document, fun c => c.stop - c.offset⟩

theorem decode_offset (c : Cursor) (byte : Byte) :
    (c.decode byte).2.offset = c.offset ∧ (c.decode byte).2.stop = c.stop ∧
      (c.decode byte).2.pending = c.pending := by
  obtain ⟨offset, stop, pending, quoted, closed, first, quote⟩ := c
  cases first <;> cases quoted <;> cases closed <;> by_cases h : byte = quote <;>
    simp [decode, h]

/-- One raw byte decoded. -/
theorem decodeRaw_cons (c : Cursor) (byte : Byte) (bytes : List Byte) :
    decodeRaw c.quote c.quoted c.closed c.first (byte :: bytes) =
      (c.decode byte).1.toList ++ decodeRaw (c.decode byte).2.quote (c.decode byte).2.quoted
        (c.decode byte).2.closed (c.decode byte).2.first bytes := by
  obtain ⟨offset, stop, pending, quoted, closed, first, quote⟩ := c
  cases first <;> cases quoted <;> cases closed <;> by_cases h : byte = quote <;>
    simp [decodeRaw, decode, h]

section Source
variable {W : Type} {source : PositionedRead W} {document : List Byte} {c : Cursor}

theorem fill_ensures (hsource : source.Reads document) (hc : c.Valid document) :
    (c.fill source).Ensures fun filled =>
      match filled with
      | none => c.offset = c.stop ∧ c.pending = []
      | some c' => c'.Valid document ∧ c'.pending ≠ [] ∧ c'.offset = c.offset ∧
          c'.stop = c.stop ∧ c'.rest document = c.rest document := by
  unfold fill
  split
  · rename_i hempty
    split
    · rename_i hend
      exact .pure ⟨hend, List.isEmpty_iff.mp hempty⟩
    · refine Exec.Ensures.bind (checkedRead_ensures hsource _ _) ?_
      rintro bytes ⟨hne, hlen, hread⟩
      have hle := hc.pending_le
      refine .pure ⟨⟨hread, ?_, hc.stop_le⟩, hne, rfl, rfl, rfl⟩
      dsimp only
      omega
  · rename_i hne
    exact .pure ⟨hc, by simpa using hne, rfl, rfl, rfl⟩

theorem fill_returns {fingerprint : SourceFingerprint}
    (hsource : source.Steady document fingerprint) (hc : c.Valid document) :
    (c.fill source).Returns fun _ => True := by
  have hle := hc.pending_le
  have hstop := hc.stop_le
  unfold fill
  split
  · split
    · exact .pure trivial
    · rename_i hend
      refine Exec.Returns.bind (checkedRead_returns hsource ?_ ?_) fun _ _ => .pure trivial
      · simp only [readerBytes, lt_min_iff]
        omega
      · omega
  · exact .pure trivial

/-- The first byte of the buffer, taken and decoded. -/
theorem take_ensures (hc : c.Valid document) (hne : c.pending ≠ []) :
    ∃ value taken, ({ c with pending := c.pending.tail, offset := c.offset + 1 } : Cursor).decode
        (c.pending.headD 0) = (value, taken) ∧
      taken.Valid document ∧ taken.offset = c.offset + 1 ∧ taken.stop = c.stop ∧
      c.offset < c.stop ∧ c.rest document = value.toList ++ taken.rest document := by
  obtain ⟨byte, pending, hpending⟩ := List.exists_cons_of_ne_nil hne
  have hread := hc.pending
  have hle := hc.pending_le
  rw [hpending, List.length_cons] at hle
  rw [hpending] at hread
  have hone : [byte] <+: document.drop c.offset := by
    obtain ⟨more, hmore⟩ := hread
    exact ⟨pending ++ more, by simpa using hmore⟩
  have hslice := slice_eq_append c.stop hone (by simp; omega)
  have hdrop : pending <+: document.drop (c.offset + 1) := by
    obtain ⟨more, hmore⟩ := hread
    refine ⟨more, ?_⟩
    rw [← List.drop_drop, ← hmore]
    rfl
  simp only [hpending, List.headD_cons, List.tail_cons]
  generalize hnext : ({ c with pending := pending, offset := c.offset + 1 } : Cursor) = next
  obtain ⟨hoffset, hstop, hbuffer⟩ := decode_offset next byte
  refine ⟨(next.decode byte).1, (next.decode byte).2, rfl, ⟨?_, ?_, ?_⟩, ?_, ?_, ?_, ?_⟩
  · rw [hbuffer, hoffset, ← hnext]
    exact hdrop
  · rw [hbuffer, hoffset, hstop, ← hnext]
    dsimp only
    omega
  · rw [hstop, ← hnext]
    exact hc.stop_le
  · rw [hoffset, ← hnext]
  · rw [hstop, ← hnext]
  · omega
  · have hflags : c.rest document = decodeRaw next.quote next.quoted next.closed next.first
        (byte :: slice document next.offset next.stop) := by
      rw [rest, hslice, ← hnext]
      rfl
    rw [hflags, decodeRaw_cons, rest, hoffset, hstop]

theorem next_ensures (hsource : source.Reads document) (budget : Nat) (hc : c.Valid document) :
    (c.next source budget).Ensures ((stream document).Step budget c) := by
  induction budget generalizing c with
  | zero =>
    exact .pure ⟨hc, .yield _, rfl, Nat.le_refl _, fun _ => rfl, by simp⟩
  | succ budget ih =>
    unfold next
    refine Exec.Ensures.bind (fill_ensures hsource hc) ?_
    rintro (_ | filled) h
    · have hnil : c.rest document = [] := by
        simp only [rest, slice, h.1, Nat.sub_self, List.take_zero, decodeRaw]
      refine .pure ⟨hc, ?_, rfl, Nat.le_refl _, by simp, by simp⟩
      change ByteStep.Of (c.rest document) _ (c.rest document)
      rw [hnil]
      exact .atEnd
    · obtain ⟨hvalid, hne, hoffset, hstop, hrest⟩ := h
      obtain ⟨value, taken, hdecode, hvalid', hoffset', hstop', hlt, hrest'⟩ :=
        take_ensures hvalid hne
      have htodo : taken.stop - taken.offset + 1 = c.stop - c.offset := by omega
      simp only [hdecode]
      rw [hrest] at hrest'
      cases value with
      | none =>
        refine (ih hvalid').mono fun r hr => ⟨hr.valid, ?_, ?_, ?_, hr.drained, ?_⟩
        · change ByteStep.Of (c.rest document) _ _
          rw [hrest']
          exact hr.handed
        · have := hr.spent
          change taken.stop - taken.offset + _ = r.2.2.stop - r.2.2.offset + _ at this
          change c.stop - c.offset + _ = r.2.2.stop - r.2.2.offset + _
          omega
        · have := hr.left_le
          omega
        · intro byte hbyte
          have := hr.byte_spent byte hbyte
          omega
      | some byte =>
        refine .pure ⟨hvalid', ?_, ?_, ?_, by simp, by simp⟩
        · change ByteStep.Of (c.rest document) _ _
          rw [hrest']
          exact .byte _ _
        · change c.stop - c.offset + budget = taken.stop - taken.offset + (budget + 1)
          omega
        · exact Nat.le_succ _

theorem next_returns {fingerprint : SourceFingerprint}
    (hsource : source.Steady document fingerprint) (budget : Nat) (hc : c.Valid document) :
    (c.next source budget).Returns ((stream document).Step budget c) := by
  suffices h : (c.next source budget).Returns fun _ => True from
    (h.and_ensures (next_ensures hsource.toReads budget hc)).mono fun _ h => h.2
  induction budget generalizing c with
  | zero => exact .pure trivial
  | succ budget ih =>
    unfold next
    refine Exec.Returns.bind ((fill_returns hsource hc).and_ensures
      (fill_ensures hsource.toReads hc)) ?_
    rintro (_ | filled) ⟨-, h⟩
    · exact .pure trivial
    · obtain ⟨value, taken, hdecode, hvalid, -⟩ := take_ensures h.1 h.2.1
      simp only [hdecode]
      cases value with
      | none => exact ih hvalid
      | some byte => exact .pure trivial

end Source

end Cursor

end LeanRows.Sort
