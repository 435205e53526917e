import LeanRows.Projection

/-!
# Projecting part of a record

A preview may end anywhere in a record, also between the two quotes of a doubled one. What
the projection has read of it is then a state on the way through the whole record: the
fields that have ended stay, and the last one goes on.
-/

namespace LeanRows

set_option autoImplicit false

namespace Projecting

/-- What finishing the current field can do: leave it out at the field cap, or keep it. -/
inductive Finished (limits : FieldProjectionLimits) (p : Projecting) (rawTruncated : Bool) :
    Projecting → Prop where
  | omitted (h : p.fields.length = limits.fields) :
      Finished limits p rawTruncated { p with omittedFields := true }
  | kept (field : FieldProjection) (hroom : p.fields.length ≠ limits.fields)
      (hdecoded : field.decodedBytes = p.field.decoded)
      (hraw : field.flags.rawTruncated = rawTruncated)
      (htruncated : field.flags.decodedTruncated = p.field.decodedTruncated) :
      Finished limits p rawTruncated { p with
        totalRemaining := p.totalRemaining - field.decodedBytes.length
        fields := p.fields ++ [field] }

/-- What reading one byte can do. -/
inductive Moved (dialect : CsvDialect) (limits : FieldProjectionLimits) (p : Projecting)
    (byte : Byte) : Projecting → Prop where
  | ended (ended : Projecting) (hread : p.state.read dialect byte = .ends)
      (hended : Finished limits p false ended) :
      Moved dialect limits p byte { ended with
        cursor := ended.cursor + 1
        field := newField (ended.cursor + 1) ended.fields.length ended.totalRemaining limits
        state := .start }
  | quoting (state : FieldState) (quoted : Bool)
      (hread : p.state.read dialect byte = .quoting state) :
      Moved dialect limits p byte { p with
        field := { p.field with quoted := quoted }, state := state, cursor := p.cursor + 1 }
  | value (state : FieldState) (escaped : Bool) (hread : p.state.read dialect byte = .value state) :
      Moved dialect limits p byte { p with
        field := { p.field with hadEscapedQuotes := escaped }.pushDecoded byte
        state := state
        cursor := p.cursor + 1 }

section Step
variable {recordStart : Nat} {dialect : CsvDialect} {limits : FieldProjectionLimits}
  {p next : Projecting} {byte : Byte}

theorem finishField_finished (limits : FieldProjectionLimits) (hraw : p.field.rawStart ≤ p.cursor)
    (hoffset : recordStart + p.cursor < u64Bound) (rawTruncated : Bool) :
    ∃ next, p.finishField recordStart p.cursor rawTruncated limits = .ok next ∧
      Finished limits p rawTruncated next := by
  unfold finishField
  by_cases hcap : p.fields.length = limits.fields
  · rw [if_pos hcap]
    exact ⟨_, rfl, .omitted hcap⟩
  have hstart : checkedAdd recordStart p.field.rawStart = some (recordStart + p.field.rawStart) :=
    checkedAdd_eq_some.mpr ⟨by omega, rfl⟩
  have hend : checkedAdd recordStart p.cursor = some (recordStart + p.cursor) :=
    checkedAdd_eq_some.mpr ⟨hoffset, rfl⟩
  have hspan : recordStart + p.field.rawStart ≤ recordStart + p.cursor := by omega
  simp only [if_neg hcap, FieldAccumulator.finish, hstart, hend, RecordSpan.new, dif_pos hspan]
  refine ⟨_, rfl, ?_⟩
  exact .kept ⟨⟨_, _, hspan⟩, p.field.decoded, ⟨_, _, rawTruncated, _⟩, _⟩ hcap rfl rfl rfl

theorem Finished.cursor {rawTruncated : Bool} (h : Finished limits p rawTruncated next) :
    next.cursor = p.cursor := by
  cases h <;> rfl

variable (dialect limits byte) in
theorem step_moved (hraw : p.field.rawStart ≤ p.cursor)
    (hoffset : recordStart + p.cursor < u64Bound) :
    ∃ next, p.step recordStart dialect limits byte = .ok next ∧
      Moved dialect limits p byte next := by
  obtain ⟨ended, hfinish, hended⟩ := finishField_finished limits hraw hoffset false
  have hends : p.state.read dialect byte = .ends →
      ∃ next, p.endField recordStart limits = .ok next ∧ Moved dialect limits p byte next := by
    intro hread
    refine ⟨_, ?_, .ended ended hread hended⟩
    simp only [endField, hfinish]
    rfl
  have hkeeps : ∀ state, p.state.read dialect byte = .value state →
      Moved dialect limits p byte (p.keep byte state) :=
    fun state hread => .value state p.field.hadEscapedQuotes hread
  have hne := dialect.distinct
  unfold step
  cases hstate : p.state with
  | start =>
    rw [hstate] at hends hkeeps
    simp only [FieldState.read] at hends hkeeps
    dsimp only
    by_cases hquote : byte = dialect.quote
    · rw [if_pos hquote]
      exact ⟨_, rfl, .quoting .quoted true (by simp [hstate, FieldState.read, hquote])⟩
    simp only [if_neg hquote] at hends hkeeps ⊢
    by_cases hdelim : byte = dialect.delimiter
    · rw [if_pos hdelim]
      exact hends (if_pos hdelim)
    · rw [if_neg hdelim]
      exact ⟨_, rfl, hkeeps _ (if_neg hdelim)⟩
  | unquoted =>
    rw [hstate] at hends hkeeps
    simp only [FieldState.read] at hends hkeeps
    dsimp only
    by_cases hdelim : byte = dialect.delimiter
    · rw [if_pos hdelim]
      exact hends (if_pos hdelim)
    · rw [if_neg hdelim]
      exact ⟨_, rfl, hkeeps _ (if_neg hdelim)⟩
  | quoted =>
    rw [hstate] at hkeeps
    simp only [FieldState.read] at hkeeps
    dsimp only
    by_cases hquote : byte = dialect.quote
    · rw [if_pos hquote]
      exact ⟨_, rfl, .quoting .quoteClosed p.field.quoted
        (by simp [hstate, FieldState.read, hquote])⟩
    · rw [if_neg hquote]
      exact ⟨_, rfl, hkeeps _ (if_neg hquote)⟩
  | quoteClosed =>
    rw [hstate] at hends hkeeps
    simp only [FieldState.read] at hends hkeeps
    dsimp only
    by_cases hdelim : byte = dialect.delimiter
    · have hquote : byte ≠ dialect.quote := by
        rintro rfl
        exact hne hdelim.symm
      simp only [if_neg hquote] at hends
      rw [if_pos hdelim]
      exact hends (if_pos hdelim)
    rw [if_neg hdelim]
    by_cases hquote : byte = dialect.quote
    · rw [if_pos hquote]
      subst hquote
      exact ⟨_, rfl, .value .quoted true (by simp [hstate, FieldState.read])⟩
    · simp only [if_neg hquote] at hkeeps
      rw [if_neg hquote]
      exact ⟨_, rfl, hkeeps _ (if_neg hdelim)⟩

end Step

/-! ### The caps -/

/-- The fields kept so far and the current one respect the caps. -/
structure Capped (limits : FieldProjectionLimits) (p : Projecting) : Prop where
  total : (p.fields.map fun field => field.decodedBytes.length).sum + p.totalRemaining =
    limits.totalDecodedBytes
  fields : p.fields.length ≤ limits.fields
  perField : ∀ field ∈ p.fields, field.decodedBytes.length ≤ limits.decodedBytesPerField
  field : p.fields.length ≠ limits.fields →
    p.field.decoded.length ≤ min limits.decodedBytesPerField p.totalRemaining
  limit : p.fields.length ≠ limits.fields →
    p.field.decodedLimit ≤ min limits.decodedBytesPerField p.totalRemaining
  rawStart : p.field.rawStart ≤ p.cursor

section Capped
variable {dialect : CsvDialect} {limits : FieldProjectionLimits} {p next : Projecting}
  {byte : Byte}

theorem Finished.capped {rawTruncated : Bool} (hp : p.Capped limits)
    (h : Finished limits p rawTruncated next) :
    (next.fields.map fun field => field.decodedBytes.length).sum + next.totalRemaining =
        limits.totalDecodedBytes ∧
      next.fields.length ≤ limits.fields ∧
      ∀ field ∈ next.fields, field.decodedBytes.length ≤ limits.decodedBytesPerField := by
  cases h with
  | omitted _ => exact ⟨hp.total, hp.fields, hp.perField⟩
  | kept field hroom hdecoded _ _ =>
    have hlength := hp.field hroom
    rw [← hdecoded] at hlength
    have htotal := hp.total
    have hfields := hp.fields
    refine ⟨?_, ?_, ?_⟩
    · simp only [List.map_append, List.sum_append, List.map_singleton, List.sum_singleton]
      omega
    · simp only [List.length_append, List.length_singleton]
      omega
    · intro other hother
      rcases List.mem_append.mp hother with hother | hother
      · exact hp.perField other hother
      · rw [List.mem_singleton.mp hother]
        omega

theorem Moved.capped (hp : p.Capped limits) (h : Moved dialect limits p byte next) :
    next.Capped limits := by
  cases h with
  | ended ended _ hended =>
    obtain ⟨htotal, hfields, hperField⟩ := hended.capped hp
    refine ⟨htotal, hfields, hperField, fun _ => Nat.zero_le _, fun hroom => ?_, Nat.le_refl _⟩
    have hlt : ended.fields.length < limits.fields := lt_of_le_of_ne hfields hroom
    simp only [newField, FieldAccumulator.new, if_pos hlt]
    exact Nat.le_refl _
  | quoting state quoted _ =>
    exact ⟨hp.total, hp.fields, hp.perField, hp.field, hp.limit, Nat.le_succ_of_le hp.rawStart⟩
  | value state escaped _ =>
    refine ⟨hp.total, hp.fields, hp.perField, fun hroom => ?_, fun hroom => ?_, ?_⟩
    · have hlimit := hp.limit hroom
      have hfield := hp.field hroom
      simp only [FieldAccumulator.pushDecoded]
      split
      · simp only [List.length_append, List.length_singleton]
        omega
      · exact hfield
    · have hlimit := hp.limit hroom
      simp only [FieldAccumulator.pushDecoded]
      split <;> exact hlimit
    · have hraw := hp.rawStart
      simp only [FieldAccumulator.pushDecoded]
      split <;> exact Nat.le_succ_of_le hraw

end Capped

/-! ### The values -/

/-- `values` are the fields of the whole record that have ended, and `current` is what has been
read of the next one. A field that lost no byte shows its value. -/
structure Reads (dialect : CsvDialect) (limits : FieldProjectionLimits) (whole ahead : List Byte)
    (values : List (List Byte)) (current : List Byte) (p : Projecting) : Prop where
  whole : decodeFields dialect whole = values ++
    (current ++ (fieldsFrom dialect p.state ahead).1) :: (fieldsFrom dialect p.state ahead).2
  length : p.fields.length = min values.length limits.fields
  shown : ∀ (i : Nat) (field : FieldProjection), p.fields[i]? = some field →
    field.flags.decodedTruncated = false →
    values[i]? = some field.decodedBytes
  current : p.field.decodedTruncated = false → p.field.decoded = current

section Reads
variable {dialect : CsvDialect} {limits : FieldProjectionLimits} {whole ahead : List Byte}
  {values : List (List Byte)} {current : List Byte} {p next : Projecting} {byte : Byte}

/-- The field that ends shows its value unless it lost a byte or is left out. -/
theorem Finished.reads {rawTruncated : Bool}
    (hp : p.Reads dialect limits whole ahead values current)
    (h : Finished limits p rawTruncated next) :
    next.fields.length = min (values.length + 1) limits.fields ∧
      ∀ (i : Nat) (field : FieldProjection), next.fields[i]? = some field →
        field.flags.decodedTruncated = false →
        (values ++ [current])[i]? = some field.decodedBytes := by
  have hlength := hp.length
  have hold : ∀ (i : Nat) (field : FieldProjection), p.fields[i]? = some field →
    field.flags.decodedTruncated = false →
      (values ++ [current])[i]? = some field.decodedBytes := by
    intro i field hget hwhole
    have hshown := hp.shown i field hget hwhole
    obtain ⟨hlt, -⟩ := List.getElem?_eq_some_iff.mp hshown
    rwa [List.getElem?_append_left hlt]
  cases h with
  | omitted hcap => exact ⟨by dsimp only; omega, hold⟩
  | kept field hroom hdecoded _ htruncated =>
    have hcount : p.fields.length = values.length := by omega
    refine ⟨?_, ?_⟩
    · simp only [List.length_append, List.length_singleton]
      omega
    · intro i other hget hwhole
      rcases Nat.lt_or_ge i p.fields.length with hlt | hge
      · rw [List.getElem?_append_left hlt] at hget
        exact hold i other hget hwhole
      · obtain ⟨hlt, -⟩ := List.getElem?_eq_some_iff.mp hget
        rw [List.length_append, List.length_singleton] at hlt
        obtain rfl : i = p.fields.length := by omega
        rw [List.getElem?_append_right (Nat.le_refl _), Nat.sub_self] at hget
        cases hget
        rw [htruncated] at hwhole
        rw [hcount, List.getElem?_append_right (Nat.le_refl _), Nat.sub_self, hdecoded,
          hp.current hwhole]
        rfl

theorem Moved.reads (hp : p.Reads dialect limits whole (byte :: ahead) values current)
    (h : Moved dialect limits p byte next) :
    ∃ values current, next.Reads dialect limits whole ahead values current := by
  have hwhole := hp.whole
  cases h with
  | ended ended hread hended =>
    obtain ⟨hlength, hshown⟩ := hended.reads hp
    refine ⟨values ++ [current], [], ?_, ?_, hshown, fun _ => rfl⟩
    · rw [hwhole, fieldsFrom_ends ahead hread, List.append_nil, List.append_assoc]
      rfl
    · rw [List.length_append, List.length_singleton]
      exact hlength
  | quoting state quoted hread =>
    refine ⟨values, current, ?_, hp.length, hp.shown, hp.current⟩
    rw [hwhole, fieldsFrom_quoting ahead hread]
  | value state escaped hread =>
    refine ⟨values, current ++ [byte], ?_, hp.length, hp.shown, ?_⟩
    · rw [hwhole, fieldsFrom_value ahead hread, List.append_assoc]
      rfl
    · intro hfull
      simp only [FieldAccumulator.pushDecoded] at hfull ⊢
      split
      · rename_i hroom
        rw [if_pos hroom] at hfull
        rw [← hp.current hfull]
      · rename_i hroom
        rw [if_neg hroom] at hfull
        cases hfull

end Reads

/-! ### Going on -/

/-- `p` is a state on the way to `q`: its fields stay, and its current field is continued or
has ended as the next of the fields, unless the field cap leaves it out. -/
structure Continues (limits : FieldProjectionLimits) (p q : Projecting) : Prop where
  fields : p.fields <+: q.fields
  current : p.fields.length = limits.fields ∨
    (q.fields.length = p.fields.length ∧ p.field.decoded <+: q.field.decoded) ∨
    ∃ field, q.fields[p.fields.length]? = some field ∧ p.field.decoded <+: field.decodedBytes

section Continues
variable {dialect : CsvDialect} {limits : FieldProjectionLimits} {p q next : Projecting}
  {byte : Byte}

theorem Continues.refl (p : Projecting) : Continues limits p p :=
  ⟨List.prefix_refl _, .inr (.inl ⟨rfl, List.prefix_refl _⟩)⟩

theorem Finished.continues {rawTruncated : Bool} (hpq : Continues limits p q)
    (h : Finished limits q rawTruncated next) :
    p.fields <+: next.fields ∧ (p.fields.length = limits.fields ∨
      ∃ field, next.fields[p.fields.length]? = some field ∧
        p.field.decoded <+: field.decodedBytes) := by
  cases h with
  | omitted hcap =>
    refine ⟨hpq.fields, ?_⟩
    rcases hpq.current with hfull | ⟨hsame, -⟩ | hended
    · exact .inl hfull
    · exact .inl (hsame.symm.trans hcap)
    · exact .inr hended
  | kept field hroom hdecoded _ _ =>
    refine ⟨hpq.fields.trans (List.prefix_append _ _), ?_⟩
    rcases hpq.current with hfull | ⟨hsame, hcurrent⟩ | ⟨other, hget, hother⟩
    · exact .inl hfull
    · refine .inr ⟨field, ?_, by rwa [hdecoded]⟩
      rw [← hsame, List.getElem?_append_right (Nat.le_refl _), Nat.sub_self]
      rfl
    · obtain ⟨hlt, -⟩ := List.getElem?_eq_some_iff.mp hget
      exact .inr ⟨other, by rwa [List.getElem?_append_left hlt], hother⟩

theorem Moved.continues (hpq : Continues limits p q) (h : Moved dialect limits q byte next) :
    Continues limits p next := by
  cases h with
  | ended ended _ hended =>
    obtain ⟨hfields, hcurrent⟩ := hended.continues hpq
    exact ⟨hfields, hcurrent.imp_right .inr⟩
  | quoting state quoted _ => exact ⟨hpq.fields, hpq.current⟩
  | value state escaped _ =>
    refine ⟨hpq.fields, hpq.current.imp_right fun h => h.imp_left fun ⟨hsame, hcurrent⟩ =>
      ⟨hsame, hcurrent.trans ?_⟩⟩
    simp only [FieldAccumulator.pushDecoded]
    split
    · exact List.prefix_append _ _
    · exact List.prefix_refl _

end Continues

/-! ### Runs -/

section Runs
variable {recordStart : Nat} {dialect : CsvDialect} {limits : FieldProjectionLimits}
  {whole : List Byte}

/-- The loop over some of the bytes that are ahead. -/
theorem foldlM_moved {bytes ahead : List Byte} {values : List (List Byte)} {current : List Byte}
    {start p : Projecting} (hcontinues : Continues limits start p) (hcapped : p.Capped limits)
    (hreads : p.Reads dialect limits whole (bytes ++ ahead) values current)
    (hoffset : recordStart + p.cursor + bytes.length < u64Bound) :
    ∃ last, bytes.foldlM (step recordStart dialect limits) p = .ok last ∧
      Continues limits start last ∧ last.Capped limits ∧
      (∃ values current, last.Reads dialect limits whole ahead values current) ∧
      last.cursor = p.cursor + bytes.length := by
  induction bytes generalizing p values current with
  | nil => exact ⟨p, rfl, hcontinues, hcapped, ⟨values, current, hreads⟩, rfl⟩
  | cons byte bytes ih =>
    rw [List.length_cons] at hoffset
    have hnext : recordStart + p.cursor < u64Bound := by omega
    obtain ⟨next, hnext, hmoved⟩ := step_moved dialect limits byte hcapped.rawStart hnext
    have hcursor : next.cursor = p.cursor + 1 := by
      cases hmoved with
      | ended ended _ hended => exact congrArg (· + 1) hended.cursor
      | quoting _ _ _ => rfl
      | value _ _ _ => rfl
    obtain ⟨values', current', hreads'⟩ := hmoved.reads hreads
    obtain ⟨last, hlast, hcontinues', hcapped', hvalues, hcursor'⟩ :=
      ih (hmoved.continues hcontinues) (hmoved.capped hcapped) hreads' (by omega)
    refine ⟨last, ?_, hcontinues', hcapped', hvalues, ?_⟩
    · rw [List.foldlM_cons, hnext]
      exact hlast
    · rw [hcursor', hcursor, List.length_cons]
      omega

end Runs

/-- The variables in front of the first byte. -/
def opened (limits : FieldProjectionLimits) : Projecting :=
  ⟨[], false, limits.totalDecodedBytes, .start,
    .new 0 (min limits.decodedBytesPerField limits.totalDecodedBytes), 0⟩

theorem opened_capped (limits : FieldProjectionLimits) : (opened limits).Capped limits where
  total := Nat.zero_add _
  fields := Nat.zero_le _
  perField _ h := by cases h
  field _ := Nat.zero_le _
  limit _ := Nat.le_refl _
  rawStart := Nat.le_refl _

theorem opened_reads (dialect : CsvDialect) (limits : FieldProjectionLimits) (whole : List Byte) :
    (opened limits).Reads dialect limits whole whole [] [] where
  whole := rfl
  length := (Nat.zero_min _).symm
  shown _ _ h _ := by cases h
  current _ := rfl

end Projecting

/-- The projection of a preview is the loop over its bytes and the end of its last field. -/
theorem projectDelimitedRecord_eq {row : Nat} {span : RecordSpan} {bytes : List Byte}
    {truncated : Bool} {dialect : CsvDialect} {limits : FieldProjectionLimits}
    {last finished : Projecting} (hlen : bytes.length ≤ span.len) (hstop : span.stop < u64Bound)
    (hlast : bytes.foldlM (Projecting.step span.start dialect limits) (.opened limits) = .ok last)
    (hfinished : last.finishField span.start bytes.length
      (decide (bytes.length < span.len) || truncated) limits = .ok finished) :
    projectDelimitedRecord ⟨row, span, bytes, truncated⟩ dialect limits =
      .ok ⟨span, finished.fields,
        finished.omittedFields || (decide (bytes.length < span.len) || truncated)⟩ := by
  have hspan := span.start_le_stop
  rw [RecordSpan.len] at hlen
  have hend : checkedAdd span.start bytes.length = some (span.start + bytes.length) :=
    checkedAdd_eq_some.mpr ⟨by omega, rfl⟩
  have hshort : decide (span.start + bytes.length < span.stop) =
      decide (bytes.length < span.len) := by
    rw [RecordSpan.len]
    apply decide_eq_decide.mpr
    omega
  have hwithin : ¬ span.stop < span.start + bytes.length := by omega
  rw [Projecting.opened] at hlast
  simp only [projectDelimitedRecord, hend, if_neg hwithin, hshort, hlast, bind, Except.bind,
    hfinished]
  rfl

/-- A field that has ended, or the last one of a record that has been read to its end, shows
its value unless it lost a byte. -/
theorem Projecting.Finished.exact {dialect : CsvDialect} {limits : FieldProjectionLimits}
    {whole ahead : List Byte} {values : List (List Byte)} {current : List Byte}
    {p finished : Projecting} {rawTruncated : Bool}
    (hp : p.Reads dialect limits whole ahead values current)
    (h : Finished limits p rawTruncated finished) (hahead : rawTruncated = false → ahead = [])
    {i : Nat} {field : FieldProjection} (hget : finished.fields[i]? = some field)
    (hraw : field.flags.rawTruncated = false) (hwhole : field.flags.decodedTruncated = false) :
    (decodeFields dialect whole)[i]? = some field.decodedBytes := by
  have hshown := (h.reads hp).2 i field hget hwhole
  rw [hp.whole]
  rcases Nat.lt_or_ge i values.length with hlt | hge
  · rwa [List.getElem?_append_left hlt] at hshown ⊢
  obtain ⟨hlt, -⟩ := List.getElem?_eq_some_iff.mp hshown
  rw [List.length_append, List.length_singleton] at hlt
  obtain rfl : i = values.length := by omega
  rw [List.getElem?_append_right (Nat.le_refl _), Nat.sub_self] at hshown ⊢
  have hlength := hp.length
  cases h with
  | omitted hcap =>
    obtain ⟨hlt, -⟩ := List.getElem?_eq_some_iff.mp hget
    dsimp only at hlt
    omega
  | kept last hroom _ hlast _ =>
    have hcount : p.fields.length = values.length := by omega
    rw [← hcount, List.getElem?_append_right (Nat.le_refl _), Nat.sub_self] at hget
    cases hget
    obtain rfl := hahead (hlast.symm.trans hraw)
    have hrest : fieldsFrom dialect p.state [] = ([], []) := by
      cases p.state <;> rfl
    rw [hrest, List.append_nil]
    exact hshown

/-- A preview of a record shows the record's fields as the whole record does, but for the last
of them, which shows a part. -/
theorem projection_stable {span : RecordSpan} {whole bytes : List Byte}
    (hlen : whole.length = span.len) (hstop : span.stop < u64Bound) (hfront : bytes <+: whole)
    (row : Nat) (truncated : Bool) (dialect : CsvDialect) (limits : FieldProjectionLimits)
    {unlimited : FieldProjectionLimits} (hunlimited : unlimited.Unlimited whole.length) :
    ∃ part all exact,
      projectDelimitedRecord ⟨row, span, bytes, truncated⟩ dialect limits = .ok part ∧
      projectDelimitedRecord ⟨row, span, whole, false⟩ dialect limits = .ok all ∧
      projectDelimitedRecord ⟨row, span, whole, false⟩ dialect unlimited = .ok exact ∧
      (∀ i, i + 1 < part.fields.length → part.fields[i]? = all.fields[i]?) ∧
      (∃ last field, part.fields.getLast? = some last ∧
        all.fields[part.fields.length - 1]? = some field ∧
        last.decodedBytes <+: field.decodedBytes) ∧
      (∀ field ∈ part.fields, field.decodedBytes.length ≤ limits.decodedBytesPerField) ∧
      part.fields.length ≤ limits.fields ∧
      (part.fields.map fun field => field.decodedBytes.length).sum ≤ limits.totalDecodedBytes ∧
      ∀ (i : Nat) (field : FieldProjection), part.fields[i]? = some field →
        field.flags.rawTruncated = false → field.flags.decodedTruncated = false →
        (exact.fields.map FieldProjection.decodedBytes)[i]? = some field.decodedBytes := by
  obtain ⟨ahead, rfl⟩ := hfront
  have hbytes : bytes.length ≤ span.len := by
    rw [← hlen, List.length_append]
    omega
  have hsize : span.start + (bytes ++ ahead).length < u64Bound := by
    have := span.start_le_stop
    rw [hlen, RecordSpan.len]
    omega
  have hstart : span.start + (Projecting.opened limits).cursor + bytes.length < u64Bound := by
    rw [List.length_append] at hsize
    change span.start + 0 + bytes.length < u64Bound
    omega
  -- the loop over the preview, and from there over the rest of the record
  obtain ⟨p, hp, -, hcapped, ⟨values, current, hreads⟩, hcursor⟩ :=
    Projecting.foldlM_moved (.refl _) (Projecting.opened_capped limits)
      (Projecting.opened_reads dialect limits (bytes ++ ahead)) hstart
  replace hcursor : p.cursor = bytes.length := hcursor.trans (Nat.zero_add _)
  have hrest : span.start + p.cursor + ahead.length < u64Bound := by
    rw [List.length_append] at hsize
    omega
  have hreads' : p.Reads dialect limits (bytes ++ ahead) (ahead ++ []) values current := by
    rwa [List.append_nil]
  obtain ⟨q, hq, hcontinues, hcapped', -, hcursor'⟩ :=
    Projecting.foldlM_moved (.refl p) hcapped hreads' hrest
  replace hcursor' : q.cursor = (bytes ++ ahead).length := by
    rw [hcursor', hcursor, List.length_append]
  have hend : span.start + p.cursor < u64Bound := by omega
  have hend' : span.start + q.cursor < u64Bound := by
    rw [hcursor']
    exact hsize
  obtain ⟨part, hpart, hfinished⟩ := Projecting.finishField_finished limits hcapped.rawStart
    hend (decide (bytes.length < span.len) || truncated)
  obtain ⟨all, hall, hfinished'⟩ := Projecting.finishField_finished limits hcapped'.rawStart
    hend' (decide ((bytes ++ ahead).length < span.len) || false)
  rw [hcursor] at hpart
  rw [hcursor'] at hall
  have hwhole : (bytes ++ ahead).foldlM (Projecting.step span.start dialect limits)
      (.opened limits) = .ok q := by
    rw [List.foldlM_append, hp]
    exact hq
  obtain ⟨exact, hexact, hdecoded, -⟩ := project_decodeFields row dialect hunlimited hlen hstop
  refine ⟨_, _, exact, projectDelimitedRecord_eq hbytes hstop hp hpart,
    projectDelimitedRecord_eq hlen.le hstop hwhole hall, hexact, ?_⟩
  obtain ⟨htotal, hfields, hperField⟩ := hfinished.capped hcapped
  obtain ⟨hkept, hcurrent⟩ := hfinished'.continues hcontinues
  refine ⟨?_, ?_, hperField, hfields, by dsimp only; omega, ?_⟩
  · intro i hi
    dsimp only at hi ⊢
    have hold : p.fields[i]? = all.fields[i]? → part.fields[i]? = all.fields[i]? := by
      intro hsame
      rw [← hsame]
      cases hfinished with
      | omitted _ => rfl
      | kept field _ _ _ _ =>
        simp only [List.length_append, List.length_singleton] at hi
        rw [List.getElem?_append_left (by omega)]
    apply hold
    have hlt : i < p.fields.length := by
      cases hfinished with
      | omitted _ => exact Nat.lt_of_succ_lt hi
      | kept field _ _ _ _ =>
        simp only [List.length_append, List.length_singleton] at hi
        omega
    obtain ⟨more, hmore⟩ := hkept
    rw [← hmore, List.getElem?_append_left hlt]
  · cases hfinished with
    | omitted hcap =>
      have hpos : 0 < p.fields.length := by
        rw [hcap]
        exact limits.fields_pos
      obtain ⟨more, hmore⟩ := hkept
      have hlast : p.fields.length - 1 < p.fields.length := by omega
      refine ⟨p.fields[p.fields.length - 1], _, ?_, ?_, List.prefix_refl _⟩
      · rw [List.getLast?_eq_getElem?, List.getElem?_eq_getElem hlast]
      · rw [← hmore, List.getElem?_append_left hlast, List.getElem?_eq_getElem hlast]
    | kept field hroom hvalue _ _ =>
      obtain ⟨other, hother, hpart⟩ := hcurrent.resolve_left hroom
      refine ⟨field, other, List.getLast?_concat .., ?_, by rwa [hvalue]⟩
      change all.fields[(p.fields ++ [field]).length - 1]? = some other
      rw [List.length_append, List.length_singleton, Nat.add_sub_cancel]
      exact hother
  · intro i field hget hraw hfull
    rw [hdecoded]
    refine hfinished.exact hreads (fun hnone => ?_) hget hraw hfull
    rw [Bool.or_eq_false_iff, decide_eq_false_iff_not, Nat.not_lt] at hnone
    have hshort := hnone.1
    rw [← hlen, List.length_append] at hshort
    exact List.eq_nil_of_length_eq_zero (by omega)

/-- A preview that ends between the two quotes of a doubled one. -/
theorem projection_stable_doubled :
    ∃ part all, projectDelimitedRecord ⟨0, ⟨0, 8, by decide⟩, [97, 44, 34, 98, 34], true⟩ .csv
        ⟨2, 4, 6, by decide⟩ = .ok part ∧
      projectDelimitedRecord ⟨0, ⟨0, 8, by decide⟩, [97, 44, 34, 98, 34, 34, 99, 34], false⟩ .csv
        ⟨2, 4, 6, by decide⟩ = .ok all ∧
      part.fields[1]?.map FieldProjection.decodedBytes = some [98] ∧
      all.fields[1]?.map FieldProjection.decodedBytes = some [98, 34, 99] ∧
      ∃ last field, part.fields.getLast? = some last ∧
        all.fields[part.fields.length - 1]? = some field ∧
        last.decodedBytes <+: field.decodedBytes := by
  have hlen : ([97, 44, 34, 98, 34, 34, 99, 34] : List Byte).length =
      (⟨0, 8, by decide⟩ : RecordSpan).len := rfl
  have hfront : ([97, 44, 34, 98, 34] : List Byte) <+: [97, 44, 34, 98, 34, 34, 99, 34] :=
    ⟨[34, 99, 34], rfl⟩
  have hunlimited : (⟨9, 8, 8, by decide⟩ : FieldProjectionLimits).Unlimited
      ([97, 44, 34, 98, 34, 34, 99, 34] : List Byte).length :=
    ⟨by decide, by decide, by decide⟩
  obtain ⟨part, all, exact, hpart, hall, -, -, hlast, -⟩ :=
    projection_stable hlen (by decide) hfront 0 true .csv ⟨2, 4, 6, by decide⟩ hunlimited
  have hread : ∀ {r : Except FieldProjectionError DelimitedRecordProjection} {projection},
      r = .ok projection → ∀ value,
      r.map (fun p => p.fields[1]?.map FieldProjection.decodedBytes) = .ok value →
      projection.fields[1]?.map FieldProjection.decodedBytes = value := by
    rintro _ projection rfl value hvalue
    exact Except.ok.inj hvalue
  exact ⟨part, all, hpart, hall, hread hpart _ (by decide), hread hall _ (by decide), hlast⟩

end LeanRows
