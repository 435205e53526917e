import LeanRows.Xlsx.Sheet
import LeanRows.Xlsx.Text

/-!
# Bounds while a row is collected

The tokenizer limits what it collects of one element. The text of an inline string is that of
several elements, and only the bytes kept of a row are limited again.
-/

namespace LeanRows.Xlsx

set_option autoImplicit false

namespace XmlTokenizer

/-! ## The tokenizer keeps its limit -/

structure Within (limit : Nat) (xml : XmlTokenizer) : Prop where
  limited : xml.textLimit = limit
  text : xml.text.length ≤ limit

section Within
variable {limit : Nat} {xml : XmlTokenizer}

theorem Within.pushText (h : Within limit xml) (byte : Byte) :
    Within limit (XmlTokenizer.pushText byte xml) := by
  unfold XmlTokenizer.pushText
  split_ifs with hcollect hroom
  · exact h
  · refine ⟨h.limited, ?_⟩
    show (xml.text ++ [byte]).length ≤ limit
    rw [List.length_append, List.length_singleton, ← h.limited]
    omega
  · exact ⟨h.limited, h.text⟩

theorem Within.flushCr (h : Within limit xml) : Within limit xml.flushCr := by
  unfold XmlTokenizer.flushCr
  split_ifs
  · have hfree : Within limit { xml with pendingCr := false } := ⟨h.limited, h.text⟩
    exact hfree.pushText lf
  · exact h

theorem Within.pushRawText (h : Within limit xml) (byte : Byte) :
    Within limit (XmlTokenizer.pushRawText byte xml) := by
  unfold XmlTokenizer.pushRawText
  split_ifs
  · exact h.flushCr
  · exact ⟨h.flushCr.limited, h.flushCr.text⟩
  · exact h.flushCr.pushText byte

theorem Within.foldl_pushText (h : Within limit xml) (bytes : List Byte) :
    Within limit (bytes.foldl (fun xml byte => XmlTokenizer.pushText byte xml) xml) := by
  induction bytes generalizing xml with
  | nil => exact h
  | cons byte bytes ih => exact ih (h.pushText byte)

theorem Within.repeat_pushRawText (h : Within limit xml) (count : Nat) (byte : Byte) :
    Within limit (Nat.repeat (XmlTokenizer.pushRawText byte) count xml) := by
  induction count with
  | zero => exact h
  | succ count ih => exact ih.pushRawText byte

theorem Within.pushInstruction (h : Within limit xml) (byte : Byte) :
    Within limit (XmlTokenizer.pushInstruction byte xml) := by
  unfold XmlTokenizer.pushInstruction
  split_ifs
  · exact ⟨h.limited, h.text⟩
  · exact h

theorem Within.collectText (h : Within limit xml) (collect : Bool) :
    Within limit (xml.collectText collect) :=
  ⟨h.limited, Nat.zero_le _⟩

theorem pushTag_within (byte : Byte) : Exec.Preserves (Within limit) (pushTag byte) := by
  refine .self fun xml h => ?_
  unfold pushTag
  split_ifs
  · exact h
  · exact ⟨h.limited, h.text⟩

theorem textByte_within (byte : Byte) : Exec.Preserves (Within limit) (textByte byte) := by
  refine .self fun xml h => ?_
  unfold textByte
  split_ifs
  · exact ⟨h.flushCr.limited, h.flushCr.text⟩
  · exact ⟨h.flushCr.limited, h.flushCr.text⟩
  · exact h.pushRawText byte

theorem startByte_within (byte : Byte) : Exec.Preserves (Within limit) (startByte byte) := by
  refine .self fun xml h => ?_
  unfold startByte
  dsimp only
  split_ifs
  · exact ⟨h.limited, h.text⟩
  · exact ⟨h.limited, h.text⟩
  · exact ⟨h.limited, h.text⟩
  · exact h
  · have htext : Within limit { xml with state := .text } := ⟨h.limited, h.text⟩
    exact (textByte_within byte _ htext).2

theorem entityByte_within (byte : Byte) : Exec.Preserves (Within limit) (entityByte byte) := by
  refine .self fun xml h => ?_
  unfold entityByte
  split_ifs
  · rcases decodeEntity xml.entity with reason | decoded
    · exact h
    · exact ⟨(h.foldl_pushText decoded).limited, (h.foldl_pushText decoded).text⟩
  · exact h
  · exact ⟨h.limited, h.text⟩

theorem update_within {f : XmlTokenizer → XmlTokenizer} (hf : ∀ xml, Within limit xml →
    Within limit (f xml)) : Exec.Preserves (Within limit) (update f) :=
  .self hf

theorem tagOpenByte_within (byte : Byte) : Exec.Preserves (Within limit) (tagOpenByte byte) := by
  unfold tagOpenByte
  split_ifs
  · exact update_within fun xml h => ⟨h.limited, h.text⟩
  · exact update_within fun xml h => ⟨h.limited, h.text⟩
  · exact update_within fun xml h => ⟨h.limited, h.text⟩
  · exact .self fun xml h => h
  · exact .bind (pushTag_within byte) fun _ => update_within fun xml h => ⟨h.limited, h.text⟩

theorem tagByte_within (ends : Bool) (quote byte : Byte) :
    Exec.Preserves (Within limit) (tagByte ends quote byte) := by
  refine .ite (fun _ => .bind (update_within fun xml h => ?_) fun _ => pushTag_within byte)
    fun _ => .ite (fun _ => .self fun xml h => ⟨h.limited, h.text⟩)
    fun _ => .ite (fun _ => .bind (update_within fun xml h => ⟨h.limited, h.text⟩)
      fun _ => pushTag_within byte)
    fun _ => .ite (fun _ => .self fun xml h => h) fun _ => pushTag_within byte
  split_ifs
  · exact ⟨h.limited, h.text⟩
  · exact h

theorem bangByte_within (byte : Byte) : Exec.Preserves (Within limit) (bangByte byte) := by
  refine .self fun xml h => ?_
  unfold bangByte
  dsimp only
  split_ifs <;> exact ⟨h.limited, h.text⟩

theorem cdataByte_within (brackets : Nat) (byte : Byte) :
    Exec.Preserves (Within limit) (cdataByte brackets byte) := by
  refine update_within fun xml h => ?_
  split_ifs
  · exact ⟨h.limited, h.text⟩
  · exact h.pushRawText (byteOf ']')
  · exact ⟨h.limited, h.text⟩
  · have hpushed := (h.repeat_pushRawText brackets (byteOf ']')).pushRawText byte
    exact ⟨hpushed.limited, hpushed.text⟩

theorem instructionByte_within (question : Bool) (byte : Byte) :
    Exec.Preserves (Within limit) (instructionByte question byte) := by
  refine .self fun xml h => ?_
  have hasked : Within limit (if question then XmlTokenizer.pushInstruction (byteOf '?') xml
      else xml) := by
    split_ifs
    · exact h.pushInstruction _
    · exact h
  unfold instructionByte
  dsimp only
  by_cases hclosed : question = true ∧ byte = byteOf '>'
  · rw [if_pos hclosed]
    rcases xml.checkDeclaration with error | u
    · exact h
    · exact ⟨h.limited, h.text⟩
  rw [if_neg hclosed]
  by_cases hquestion : byte = byteOf '?'
  · rw [if_pos hquestion]
    exact ⟨hasked.limited, hasked.text⟩
  · rw [if_neg hquestion]
    exact ⟨(hasked.pushInstruction byte).limited, (hasked.pushInstruction byte).text⟩

theorem feedByte_within (byte : Byte) : Exec.Preserves (Within limit) (feedByte byte) := by
  refine .self fun xml h => ?_
  unfold feedByte
  cases xml.state with
  | start => exact (startByte_within byte xml h).2
  | text => exact (textByte_within byte xml h).2
  | textEntity => exact (entityByte_within byte xml h).2
  | tagOpen => exact (tagOpenByte_within byte xml h).2
  | tag ends quote => exact (tagByte_within ends quote byte xml h).2
  | bang => exact (bangByte_within byte xml h).2
  | comment dashes => exact ⟨h.limited, h.text⟩
  | cdata brackets => exact (cdataByte_within brackets byte xml h).2
  | instruction question => exact (instructionByte_within question byte xml h).2

theorem feed_within (input : List Byte) : Exec.Preserves (Within limit) (feed input) := by
  induction input with
  | nil => exact .pure
  | cons byte input ih =>
    refine .self fun xml h => ?_
    have hbyte := (feedByte_within byte xml h).2
    rcases hfed : feedByte byte xml with ⟨error | event | event, xml'⟩
    · rw [hfed] at hbyte
      simpa only [feed, hfed] using hbyte
    · rw [hfed] at hbyte
      have hrest := (ih xml' hbyte).2
      rcases hmore : feed input xml' with ⟨error | ⟨used, event⟩, xml''⟩
      · rw [hmore] at hrest
        simpa only [feed, hfed, hmore] using hrest
      · rw [hmore] at hrest
        simpa only [feed, hfed, hmore] using hrest
    · rw [hfed] at hbyte
      simpa only [feed, hfed] using hbyte

end Within

end XmlTokenizer

/-- The state behind a pass, unless the rows have ended. -/
def RowPass.state : RowPass → Option RowState
  | .more state | .found _ state => some state
  | .ended => none

namespace SheetCursor

variable {S W K : Type}

/-- The tokenizer of the cursor keeps a limit. -/
def Within (limit : Nat) (p : SheetCursor S × W) : Prop := p.1.xml.Within limit

section Within
variable {limit : Nat} (io : ByteStream S W) (token : W → Bool × W)

theorem onXml_within {α : Type} {x : XmlTokenizer.XmlM α}
    (hx : Exec.Preserves (XmlTokenizer.Within limit) x) :
    Exec.Preserves (Within limit) (onXml x : SheetM S W α) := .self fun p h => (hx p.1.xml h).2

/-- Between two events only the stream, the tokenizer and the count of events change. -/
theorem readEvent_preserves {I : SheetCursor S × W → Prop}
    (hstream : ∀ p s w, I p → I ({ p.1 with stream := s }, w))
    (hxml : ∀ input, Exec.Preserves I (onXml (XmlTokenizer.feed input))) :
    Exec.Preserves I (readEvent io) := by
  have hfeed : Exec.Preserves I (feedAvailable io) := by
    refine .get_bind fun cursor w _ => .bind (hxml _) fun fed => ?_
    exact .bind (.modify fun _ _ h => hstream _ _ _ h) fun _ => .pure
  have hmore : Exec.Preserves I (moreBytes io) := by
    refine .get_bind fun cursor w _ => ?_
    split_ifs
    · exact .self fun p h => hstream p _ _ h
    · exact .pure
  refine .get_bind fun cursor w _ => ?_
  suffices h : ∀ fuel, Exec.Preserves I (eventLoop io fuel) from h _
  intro fuel
  induction fuel with
  | zero => exact .throw
  | succ fuel ih =>
    refine .bind hmore fun more => ?_
    cases more with
    | true =>
      refine .bind hfeed fun event => ?_
      cases event with
      | some event => exact .pure
      | none => exact ih
    | false => exact .get_bind fun cursor w _ => .bind (.self fun _ h => h) fun _ => .pure

theorem nextEvent_preserves {I : SheetCursor S × W → Prop}
    (hstream : ∀ p s w, I p → I ({ p.1 with stream := s }, w))
    (hevents : ∀ p events, I p → I ({ p.1 with events := events }, p.2))
    (hxml : ∀ input, Exec.Preserves I (onXml (XmlTokenizer.feed input))) :
    Exec.Preserves I (nextEvent io token) := by
  refine .bind (.modify fun _ _ h => hevents _ _ h) fun _ => .get_bind fun cursor w _ => ?_
  split_ifs
  · refine .bind (.self fun p h => ?_) fun _ => readEvent_preserves io hstream hxml
    unfold checkCancelled
    split_ifs <;> exact hstream p p.1.stream _ h
  · exact readEvent_preserves io hstream hxml

theorem nextEvent_within : Exec.Preserves (Within limit) (nextEvent io token) :=
  nextEvent_preserves io token (fun _ _ _ h => h) (fun _ _ h => h)
    fun input => onXml_within (XmlTokenizer.feed_within input)

variable (context : CellContext K) (limits : XlsxRowLimits)

theorem ofExcept_preserves {α : Type} {I : SheetCursor S × W → Prop} (r : Except XlsxError α) :
    Exec.Preserves I (Exec.ofExcept r : SheetM S W α) := .self fun _ h => h

/-- Inside a row only the next column and what is collected change. -/
theorem rowEvent_preserves {I : SheetCursor S × W → Prop}
    (hcollect : ∀ p collect, I p → I (p.1.collectText collect, p.2))
    (hcolumn : ∀ p column, I p → I ({ p.1 with nextColumn := column }, p.2))
    (event : XmlEvent) (state : RowState) :
    Exec.Preserves I (rowEvent context limits event state : SheetM S W _) := by
  refine .get_bind fun cursor w _ => ?_
  have hcollect' : ∀ collect, Exec.Preserves I
      (Exec.modify (SheetCursor.collectText collect) : SheetM S W Unit) :=
    fun collect => .modify fun _ _ h => hcollect _ collect h
  cases event with
  | startTag empty =>
    dsimp only
    split_ifs
    · refine .bind (.get_bind fun cursor w _ => .bind (ofExcept_preserves _) fun column =>
        .bind (.modify fun _ _ h => hcolumn _ _ h) fun _ => ?_) fun _ => .pure
      split_ifs
      · exact .pure
      · exact .bind (ofExcept_preserves _) fun cell => .bind (ofExcept_preserves _) fun _ => .pure
      · exact .bind (ofExcept_preserves _) fun cell => .pure
    · refine .bind ?_ fun _ => .pure
      unfold startTagEvent
      dsimp only
      split_ifs
      · exact .bind (hcollect' true) fun _ => .pure
      · exact .pure
      · exact .pure
      · exact .pure
      · exact .bind (hcollect' true) fun _ => .pure
      · exact .pure
  | endTag =>
    dsimp only
    split_ifs
    · exact .pure
    · refine .bind ?_ fun _ => .pure
      unfold endTagEvent
      dsimp only
      split_ifs
      · exact .bind (hcollect' false) fun _ => .pure
      · exact .bind (hcollect' false) fun _ => .pure
      · exact .pure
      · exact .pure
      · exact .bind (ofExcept_preserves _) fun _ => .pure
      · exact .pure
      · exact .pure
  | text => exact .pure

theorem rowEvent_within (event : XmlEvent) (state : RowState) :
    Exec.Preserves (Within limit) (rowEvent context limits event state : SheetM S W _) :=
  rowEvent_preserves context limits
    (fun p collect (h : p.1.xml.Within limit) => h.collectText collect) (fun _ _ h => h) event state

theorem rowPass_within (collectAfter : Option Nat) (event : Option XmlEvent) (state : RowState) :
    Exec.Preserves (Within limit)
      (rowPass context limits collectAfter event state : SheetM S W RowPass) := by
  refine .get_bind fun cursor w _ => ?_
  rcases event with _ | event
  · dsimp only
    split_ifs
    · exact .bind (.modify fun _ _ h => h) fun _ => .pure
    · exact .throw
  dsimp only
  cases cursor.phase with
  | beforeData =>
    refine .get_bind fun cursor w _ => ?_
    cases event with
    | startTag empty =>
      dsimp only
      split_ifs
      · exact .bind (.modify fun _ _ h => h) fun _ => .pure
      · exact .bind (.modify fun _ _ h => h) fun _ => .pure
      · exact .pure
    | endTag => exact .pure
    | text => exact .pure
  | inData =>
    refine .get_bind fun cursor w _ => ?_
    cases event with
    | startTag empty =>
      dsimp only
      split_ifs
      · refine .get_bind fun cursor w _ => .bind (ofExcept_preserves _) fun number => ?_
        dsimp only
        split_ifs <;> exact .bind (.modify fun _ _ h => h) fun _ => .pure
      · exact .pure
    | endTag =>
      dsimp only
      split_ifs
      · exact .bind (.modify fun _ _ h => h) fun _ => .pure
      · exact .pure
    | text => exact .pure
  | inRow =>
    refine .bind (rowEvent_within context limits event state) fun r => ?_
    obtain ⟨ended, state⟩ := r
    dsimp only
    split_ifs
    · exact .bind (.modify fun _ _ h => h) fun _ => .get_bind fun cursor w _ => .pure
    · exact .pure
  | after => exact .pure

end Within

/-! ## What one event does to a row -/

/-- An element of inline text ends, and its text goes behind that of the elements before. -/
def TextEnds (event : Option XmlEvent) (cursor : SheetCursor S) (state : RowState) : Prop :=
  event = some .endTag ∧ cursor.phase = .inRow ∧ cursor.named ['t'] = true ∧
    state.cell.inText = true

/-- All that an event can do to the buffers of the cell and to the row. -/
structure Stepped (limits : XlsxRowLimits) (event : Option XmlEvent) (cursor : SheetCursor S)
    (state state' : RowState) : Prop where
  value : state'.cell.value = state.cell.value ∨ state'.cell.value = [] ∨
    state'.cell.value = cursor.xml.text
  inline : TextEnds event cursor state →
    state'.cell.inlineText = state.cell.inlineText ++ cursor.xml.text
  inlineElse : ¬ TextEnds event cursor state →
    state'.cell.inlineText = state.cell.inlineText ∨ state'.cell.inlineText = []
  row : state'.collecting = false ∨ (∃ index, state'.builder = .reset index) ∨
    state'.collecting = state.collecting ∧ (state'.builder = state.builder ∨
      ∃ column text truncated, state'.builder = state.builder.place limits column text truncated)

section Step
variable {context : CellContext K} {limits : XlsxRowLimits} {event : Option XmlEvent}
  {cursor : SheetCursor S} {state state' : RowState} {p' : SheetCursor S × W} {w : W}

/-- The buffers stay. -/
theorem Stepped.same (h : ¬ TextEnds event cursor state)
    (hvalue : state'.cell.value = state.cell.value)
    (hinline : state'.cell.inlineText = state.cell.inlineText)
    (hcollecting : state'.collecting = state.collecting)
    (hbuilder : state'.builder = state.builder) :
    Stepped limits event cursor state state' :=
  ⟨.inl hvalue, fun hends => absurd hends h, fun _ => .inl hinline,
    .inr (.inr ⟨hcollecting, .inl hbuilder⟩)⟩

theorem finishCell_place {row : Nat} {cell : CellState} {builder builder' : RowBuilder}
    (h : finishCell context limits row cell builder = .ok builder') :
    ∃ text truncated, builder' = builder.place limits cell.column text truncated := by
  unfold finishCell at h
  split at h
  · split_ifs at h
    · cases h
      exact ⟨_, _, rfl⟩
    · split at h
      · cases h
      · cases h
        exact ⟨_, _, rfl⟩
  · cases h
    exact ⟨_, _, rfl⟩
  · cases h
    exact ⟨_, _, rfl⟩
  · split at h
    · cases h
    · split at h
      · cases h
        exact ⟨_, _, rfl⟩
      · cases h
        exact ⟨_, _, rfl⟩
  all_goals
    cases h
    exact ⟨_, _, rfl⟩

theorem run_ofExcept {α : Type} {r : Except XlsxError α} {p p' : SheetCursor S × W} {a : α}
    (h : (Exec.ofExcept r : SheetM S W α) p = (.ok a, p')) : r = .ok a ∧ p' = p := by
  cases h
  exact ⟨rfl, rfl⟩

theorem cellEvent_stepped {empty : Bool}
    (h : (cellEvent context limits empty state : SheetM S W RowState) (cursor, w) =
    (.ok state', p'))
    (hends : ¬ TextEnds event cursor state) : Stepped limits event cursor state state' := by
  unfold cellEvent at h
  rw [Exec.run_get_bind] at h
  obtain ⟨column, mid, hcolumn, h⟩ := Exec.ok_of_bind h
  obtain ⟨-, rfl⟩ := run_ofExcept hcolumn
  rw [Exec.run_modify_bind] at h
  by_cases hcollecting : state.collecting = true
  swap
  · rw [if_pos (by simpa using hcollecting)] at h
    cases h
    exact .same hends rfl rfl rfl rfl
  rw [if_neg (by simpa using hcollecting)] at h
  obtain ⟨cell, mid, hrun, h⟩ := Exec.ok_of_bind h
  obtain ⟨hcell, rfl⟩ := run_ofExcept hrun
  have hfresh : cell.value = [] ∧ cell.inlineText = [] := by
    unfold startCell at hcell
    rcases hkind : cursor.attributeOf ['t'] with error | kind
    · rw [hkind] at hcell
      cases hcell
    rw [hkind] at hcell
    rcases hstyle : cursor.attributeOf ['s'] with error | _ | value
    · rw [hstyle] at hcell
      cases hcell
    · rw [hstyle] at hcell
      cases hcell
      exact ⟨rfl, rfl⟩
    · rw [hstyle] at hcell
      simp only [Bind.bind, Except.bind, pure, Except.pure] at hcell
      rcases hnumber : parseNumber value with _ | style
      · rw [hnumber] at hcell
        cases hcell
      · rw [hnumber] at hcell
        cases hcell
        exact ⟨rfl, rfl⟩
  cases empty with
  | false =>
    rw [if_neg (by decide)] at h
    cases h
    exact ⟨.inr (.inl hfresh.1), fun h => absurd h hends, fun _ => .inr hfresh.2,
      .inr (.inr ⟨rfl, .inl rfl⟩)⟩
  | true =>
    rw [if_pos rfl] at h
    obtain ⟨builder, mid, hfinish, h⟩ := Exec.ok_of_bind h
    obtain ⟨hbuilder, rfl⟩ := run_ofExcept hfinish
    cases h
    obtain ⟨text, truncated, rfl⟩ := finishCell_place hbuilder
    exact ⟨.inr (.inl hfresh.1), fun h => absurd h hends, fun _ => .inr hfresh.2,
      .inr (.inr ⟨rfl, .inr ⟨_, _, _, rfl⟩⟩)⟩

theorem startTagEvent_stepped {empty : Bool}
    (h : (startTagEvent cursor empty state : SheetM S W RowState) (cursor, w) = (.ok state', p'))
    (hends : ¬ TextEnds event cursor state) : Stepped limits event cursor state state' := by
  unfold startTagEvent at h
  split_ifs at h
  · rw [Exec.run_modify_bind] at h
    cases h
    exact .same hends rfl rfl rfl rfl
  · cases h
    exact .same hends rfl rfl rfl rfl
  · cases h
    exact .same hends rfl rfl rfl rfl
  · cases h
    exact .same hends rfl rfl rfl rfl
  · rw [Exec.run_modify_bind] at h
    cases h
    exact .same hends rfl rfl rfl rfl
  · cases h
    exact .same hends rfl rfl rfl rfl

theorem not_named {name name' : List Char} (h : cursor.named name = true)
    (hne : bytesOf name ≠ bytesOf name') : cursor.named name' = false := by
  unfold named at h ⊢
  rw [beq_iff_eq] at h
  rw [h]
  simpa using hne

theorem endTagEvent_stepped (hphase : cursor.phase = .inRow)
    (h : (endTagEvent context limits cursor state : SheetM S W RowState) (cursor, w) =
      (.ok state', p')) : Stepped limits (some .endTag) cursor state state' := by
  unfold endTagEvent at h
  by_cases hvalue : (cursor.named ['v'] && state.cell.inValue) = true
  · have hends : ¬ TextEnds (some .endTag) cursor state := by
      rintro ⟨-, -, hnamed, -⟩
      rw [not_named hnamed (by decide)] at hvalue
      cases hvalue
    rw [if_pos hvalue, Exec.run_modify_bind] at h
    cases h
    exact ⟨.inr (.inr rfl), fun h => absurd h hends, fun _ => .inl rfl,
      .inr (.inr ⟨rfl, .inl rfl⟩)⟩
  rw [if_neg hvalue] at h
  by_cases htext : (cursor.named ['t'] && state.cell.inText) = true
  · rw [if_pos htext, Exec.run_modify_bind] at h
    cases h
    rw [Bool.and_eq_true] at htext
    exact ⟨.inl rfl, fun _ => rfl, fun h => absurd ⟨rfl, hphase, htext.1, htext.2⟩ h,
      .inr (.inr ⟨rfl, .inl rfl⟩)⟩
  have hends : ¬ TextEnds (some .endTag) cursor state := by
    rintro ⟨-, -, hnamed, hin⟩
    exact htext (by rw [hnamed, hin]; rfl)
  rw [if_neg htext] at h
  split_ifs at h
  · cases h
    exact .same hends rfl rfl rfl rfl
  · cases h
    exact .same hends rfl rfl rfl rfl
  · obtain ⟨builder, mid, hfinish, h⟩ := Exec.ok_of_bind h
    obtain ⟨hbuilder, rfl⟩ := run_ofExcept hfinish
    cases h
    obtain ⟨text, truncated, rfl⟩ := finishCell_place hbuilder
    exact ⟨.inl rfl, fun h => absurd h hends, fun _ => .inl rfl,
      .inr (.inr ⟨rfl, .inr ⟨_, _, _, rfl⟩⟩)⟩
  · cases h
    exact .same hends rfl rfl rfl rfl
  · cases h
    exact .same hends rfl rfl rfl rfl

theorem rowEvent_stepped {event : XmlEvent} {ended : Bool} (hphase : cursor.phase = .inRow)
    (h : (rowEvent context limits event state : SheetM S W (Bool × RowState)) (cursor, w) =
      (.ok (ended, state'), p')) : Stepped limits (some event) cursor state state' := by
  unfold rowEvent at h
  rw [Exec.run_get_bind] at h
  cases event with
  | startTag empty =>
    have hends : ¬ TextEnds (some (.startTag empty)) cursor state := by
      rintro ⟨h, -⟩
      cases h
    dsimp only at h
    split_ifs at h
    · obtain ⟨next, mid, hcell, h⟩ := Exec.ok_of_bind h
      cases h
      exact cellEvent_stepped hcell hends
    · obtain ⟨next, mid, hstart, h⟩ := Exec.ok_of_bind h
      cases h
      exact startTagEvent_stepped hstart hends
  | endTag =>
    dsimp only at h
    by_cases hrow : cursor.named ['r', 'o', 'w'] = true
    · rw [if_pos hrow] at h
      cases h
      refine .same ?_ rfl rfl rfl rfl
      rintro ⟨-, -, hnamed, -⟩
      rw [not_named hnamed (by decide)] at hrow
      cases hrow
    · rw [if_neg hrow] at h
      obtain ⟨next, mid, hend, h⟩ := Exec.ok_of_bind h
      cases h
      exact endTagEvent_stepped hphase hend
  | text =>
    cases h
    refine .same ?_ rfl rfl rfl rfl
    rintro ⟨h, -⟩
    cases h

theorem rowPass_stepped {collectAfter : Option Nat} {pass : RowPass}
    (h : (rowPass context limits collectAfter event state : SheetM S W RowPass) (cursor, w) =
      (.ok pass, p')) (hstate : pass.state = some state') :
    Stepped limits event cursor state state' := by
  unfold rowPass at h
  rw [Exec.run_get_bind] at h
  rcases event with _ | event
  · dsimp only at h
    split_ifs at h
    · cases h
      cases hstate
    · cases h
  have helse : cursor.phase ≠ .inRow → ¬ TextEnds (some event) cursor state :=
    fun hphase hends => hphase hends.2.1
  dsimp only at h
  rcases hphase : cursor.phase with _ | _ | _ | _
  · have hends := helse (by rw [hphase]; decide)
    rw [hphase] at h
    dsimp only [beforeDataPass] at h
    rw [Exec.run_get_bind] at h
    cases event with
    | startTag empty =>
      dsimp only at h
      split_ifs at h
      all_goals
        cases h
        cases hstate
        try exact .same hends rfl rfl rfl rfl
    | endTag =>
      cases h
      cases hstate
      exact .same hends rfl rfl rfl rfl
    | text =>
      cases h
      cases hstate
      exact .same hends rfl rfl rfl rfl
  · have hends := helse (by rw [hphase]; decide)
    rw [hphase] at h
    dsimp only [inDataPass] at h
    rw [Exec.run_get_bind] at h
    cases event with
    | startTag empty =>
      dsimp only at h
      by_cases hrow : cursor.named ['r', 'o', 'w'] = true
      swap
      · rw [if_neg hrow] at h
        cases h
        cases hstate
        exact .same hends rfl rfl rfl rfl
      rw [if_pos hrow] at h
      unfold rowStarts at h
      rw [Exec.run_get_bind] at h
      obtain ⟨number, mid, hnumber, h⟩ := Exec.ok_of_bind h
      obtain ⟨-, rfl⟩ := run_ofExcept hnumber
      dsimp only at h
      have hrow' : ∀ next : RowState, next = { state with
          collecting := collectAfter.any fun after => decide (after < number)
          builder := if collectAfter.any fun after => decide (after < number) then
            .reset (number - 1) else state.builder } →
          Stepped limits (some (.startTag empty)) cursor state next := by
        rintro next rfl
        refine ⟨.inl rfl, fun h => absurd h hends, fun _ => .inl rfl, ?_⟩
        by_cases hcollecting : (collectAfter.any fun after => decide (after < number)) = true
        · exact .inr (.inl ⟨number - 1, if_pos hcollecting⟩)
        · exact .inl (by simpa using hcollecting)
      split_ifs at h
      all_goals
        rw [Exec.run_modify_bind] at h
        cases h
        cases hstate
        exact hrow' _ (by simp [*])
    | endTag =>
      dsimp only at h
      split_ifs at h
      · cases h
        cases hstate
      · cases h
        cases hstate
        exact .same hends rfl rfl rfl rfl
    | text =>
      cases h
      cases hstate
      exact .same hends rfl rfl rfl rfl
  · rw [hphase] at h
    dsimp only [inRowPass] at h
    obtain ⟨⟨ended, next⟩, mid, hevent, h⟩ := Exec.ok_of_bind h
    have hstepped := rowEvent_stepped hphase hevent
    cases ended with
    | true =>
      obtain ⟨mid, w⟩ := mid
      rw [if_pos rfl, Exec.run_modify_bind, Exec.run_get_bind] at h
      cases h
      cases hstate
      exact hstepped
    | false =>
      rw [if_neg (by simp)] at h
      cases h
      cases hstate
      exact hstepped
  · rw [hphase] at h
    cases h
    cases hstate

end Step

end SheetCursor

/-! ## Rows -/

theorem utf8Prefix_length_le (bytes : List Byte) (limit : Nat) :
    (utf8Prefix bytes limit).length ≤ limit := by
  have hboundary : ∀ stop, utf8Prefix.boundary bytes stop ≤ stop := by
    intro stop
    induction stop with
    | zero => exact Nat.le_refl _
    | succ stop ih =>
      unfold utf8Prefix.boundary
      split_ifs
      · exact Nat.le_succ_of_le ih
      · exact Nat.le_refl _
  unfold utf8Prefix
  split_ifs with h
  · exact h
  · rw [List.length_take]
    exact (Nat.min_le_left ..).trans (hboundary limit)

/-- The row keeps count of its bytes, and they fit. -/
def RowBuilder.Fitting (limits : XlsxRowLimits) (builder : RowBuilder) : Prop :=
  builder.rowBytes ≤ limits.maxRowBytes ∧
    (builder.row.cells.map fun cell => cell.bytes.length).sum = builder.rowBytes

namespace RowBuilder

variable {limits : XlsxRowLimits} {builder : RowBuilder}

theorem Fitting.reset (index : Nat) : (RowBuilder.reset index).Fitting limits :=
  ⟨Nat.zero_le _, rfl⟩

theorem Fitting.place (h : builder.Fitting limits) (column : Nat) (text : List Byte)
    (truncated : Bool) : (builder.place limits column text truncated).Fitting limits := by
  unfold RowBuilder.place
  split_ifs
  · exact h
  · have hkept := utf8Prefix_length_le text
      (min limits.maxCellBytes (limits.maxRowBytes - builder.rowBytes))
    obtain ⟨hbytes, hsum⟩ := h
    refine ⟨?_, ?_⟩
    · show builder.rowBytes + _ ≤ limits.maxRowBytes
      omega
    · simp [hsum]

end RowBuilder

namespace SheetCursor

variable {S W K : Type}

/-! ## Runs -/

/-- What one call of `next_row` is given. -/
structure RowCall (K : Type) where
  context : CellContext K
  limits : XlsxRowLimits
  collectAfter : Option Nat

section Run
variable (io : ByteStream S W) (token : W → Bool × W)

/-- Where the reading of a sheet can come: between two calls, or within a call to the front
of a pass of its loop. Every step satisfies the guard. -/
inductive Reached (guard : Option XmlEvent → RowState → SheetCursor S × W → Prop) (limit : Nat) :
    Option (RowCall K × RowState) → SheetCursor S × W → Prop where
  | opened (stream : S) (part : PartName) (maxTagBytes : Nat) (w : W) :
    Reached guard limit none (.new stream part maxTagBytes limit, w)
  | copied {p : SheetCursor S × W} (w : W) : Reached guard limit none p →
    Reached guard limit none (p.1.checkpoint io, w)
  | streamed {p : SheetCursor S × W} (stream : S) (w : W) : Reached guard limit none p →
    Reached guard limit none ({ p.1 with stream := stream }, w)
  | called {p : SheetCursor S × W} (call : RowCall K) (builder : RowBuilder) :
    Reached guard limit none p → Reached guard limit (some (call, ⟨.default, false, builder⟩)) p
  | passed {call : RowCall K} {state state' : RowState} {p q p' : SheetCursor S × W}
    {event : Option XmlEvent} {pass : RowPass} : Reached guard limit (some (call, state)) p →
    nextEvent io token p = (.ok event, q) → guard event state q →
    rowPass call.context call.limits call.collectAfter event state q = (.ok pass, p') →
    pass.state = some state' → Reached guard limit (some (call, state')) p'
  | stopped {call : RowCall K} {state : RowState} {p q : SheetCursor S × W} {error : XlsxError} :
    Reached guard limit (some (call, state)) p → nextEvent io token p = (.error error, q) →
    Reached guard limit none q
  | returned {call : RowCall K} {state : RowState} {p q p' : SheetCursor S × W}
    {event : Option XmlEvent} {result : Except XlsxError RowPass} :
    Reached guard limit (some (call, state)) p → nextEvent io token p = (.ok event, q) →
    guard event state q →
    rowPass call.context call.limits call.collectAfter event state q = (result, p') →
    Reached guard limit none p'

section Invariant
variable {io : ByteStream S W} {token : W → Bool × W}
  {guard : Option XmlEvent → RowState → SheetCursor S × W → Prop} {limit : Nat}

/-- The loop of `next_row` goes through these states only. -/
theorem rowLoop_reached {call : RowCall K} {fuel : Nat} {state : RowState}
    {p p' : SheetCursor S × W} {r : Option Nat × RowBuilder}
    (hp : Reached io token (fun _ _ _ => True) limit (some (call, state)) p)
    (hrun : rowLoop call.context call.limits io token call.collectAfter fuel state p =
    (.ok r, p')) :
    Reached (K := K) io token (fun _ _ _ => True) limit none p' := by
  induction fuel generalizing state p with
  | zero => cases hrun
  | succ fuel ih =>
    unfold rowLoop at hrun
    obtain ⟨event, q, hevent, hrun⟩ := Exec.ok_of_bind hrun
    obtain ⟨pass, q', hpass, hrun⟩ := Exec.ok_of_bind hrun
    cases pass with
    | more state' => exact ih (.passed hp hevent trivial hpass rfl) hrun
    | found number state' =>
      cases hrun
      exact .returned hp hevent trivial hpass
    | ended =>
      cases hrun
      exact .returned hp hevent trivial hpass

structure Bounded (limit : Nat) (call : RowCall K) (state : RowState) : Prop where
  value : state.cell.value.length ≤ limit
  row : state.collecting = true → state.builder.Fitting call.limits

theorem Bounded.step {call : RowCall K} {event : Option XmlEvent} {cursor : SheetCursor S}
    {state state' : RowState} (h : Bounded limit call state) (hxml : cursor.xml.Within limit)
    (hstep : Stepped call.limits event cursor state state') : Bounded limit call state' := by
  refine ⟨?_, fun hcollecting => ?_⟩
  · rcases hstep.value with hvalue | hvalue | hvalue
    · rw [hvalue]
      exact h.value
    · rw [hvalue]
      exact Nat.zero_le _
    · rw [hvalue]
      exact hxml.text
  · rcases hstep.row with hnone | ⟨index, hreset⟩ | ⟨hsame,
      hbuilder | ⟨column, text, truncated, hplace⟩⟩
    · rw [hnone] at hcollecting
      cases hcollecting
    · rw [hreset]
      exact .reset index
    · rw [hbuilder]
      exact h.row (hsame ▸ hcollecting)
    · rw [hplace]
      exact (h.row (hsame ▸ hcollecting)).place column text truncated

theorem Reached.bounded {place : Option (RowCall K × RowState)} {p : SheetCursor S × W}
    (h : Reached io token guard limit place p) :
    p.1.xml.Within limit ∧ ∀ call state, place = some (call, state) → Bounded limit call state := by
  have hpass : ∀ {event : Option XmlEvent} {p q : SheetCursor S × W}, p.1.xml.Within limit →
      nextEvent io token p = (.ok event, q) → q.1.xml.Within limit := by
    intro event p q hp hevent
    have hq := (nextEvent_within io token p hp).2
    rw [hevent] at hq
    exact hq
  induction h with
  | opened stream part maxTagBytes w => exact ⟨⟨rfl, Nat.zero_le _⟩, fun _ _ h => by cases h⟩
  | copied w _ ih => exact ⟨⟨ih.1.limited, Nat.zero_le _⟩, fun _ _ h => by cases h⟩
  | streamed stream w _ ih => exact ⟨ih.1, fun _ _ h => by cases h⟩
  | called call builder _ ih =>
    refine ⟨ih.1, fun call state h => ?_⟩
    cases h
    exact ⟨Nat.zero_le _, fun h => by cases h⟩
  | @passed call state state' p q p' event pass _ hevent _ hrun hstate ih =>
    have hq := hpass ih.1 hevent
    have hp' := (rowPass_within call.context call.limits call.collectAfter event state q hq).2
    rw [hrun] at hp'
    refine ⟨hp', fun call' state'' h => ?_⟩
    cases h
    exact (ih.2 call state rfl).step hq (rowPass_stepped hrun hstate)
  | @stopped call state p q error _ hevent ih =>
    have hq := (nextEvent_within io token p ih.1).2
    rw [hevent] at hq
    exact ⟨hq, fun _ _ h => by cases h⟩
  | @returned call state p q p' event result _ hevent _ hrun ih =>
    have hp' := (rowPass_within call.context call.limits call.collectAfter event state q
      (hpass ih.1 hevent)).2
    rw [hrun] at hp'
    exact ⟨hp', fun _ _ h => by cases h⟩

/-- Where the text of an element goes behind inline text, there is room for it. -/
def Fits (limit : Nat) (event : Option XmlEvent) (state : RowState) (q : SheetCursor S × W) :
    Prop :=
  TextEnds event q.1 state → state.cell.inlineText.length + q.1.xml.text.length ≤ limit

theorem Stepped.inline_le_iff {limits : XlsxRowLimits} {event : Option XmlEvent}
    {q : SheetCursor S × W} {state state' : RowState}
    (hstep : Stepped limits event q.1 state state')
    (h : state.cell.inlineText.length ≤ limit) :
    state'.cell.inlineText.length ≤ limit ↔ Fits limit event state q := by
  by_cases hends : TextEnds event q.1 state
  · rw [hstep.inline hends, List.length_append]
    exact ⟨fun h _ => h, fun h => h hends⟩
  · refine ⟨fun _ h => absurd h hends, fun _ => ?_⟩
    rcases hstep.inlineElse hends with hsame | hempty
    · rw [hsame]
      exact h
    · rw [hempty]
      exact Nat.zero_le _

theorem Reached.inline_le {place : Option (RowCall K × RowState)} {p : SheetCursor S × W}
    (h : Reached io token (Fits limit) limit place p) : ∀ call state, place = some (call, state) →
      state.cell.inlineText.length ≤ limit := by
  induction h with
  | called call builder _ _ =>
    intro call state h
    cases h
    exact Nat.zero_le _
  | passed _ _ hguard hrun hstate ih =>
    intro call' state'' h
    cases h
    exact ((rowPass_stepped hrun hstate).inline_le_iff (ih _ _ rfl)).mpr hguard
  | opened => exact fun _ _ h => by cases h
  | copied => exact fun _ _ h => by cases h
  | streamed => exact fun _ _ h => by cases h
  | stopped => exact fun _ _ h => by cases h
  | returned => exact fun _ _ h => by cases h

/-- While every text of a run fits behind the inline text in front of it, all buffers keep
their limits, and the first text that does not fit breaks that of the inline text. -/
theorem row_buffers_bounded {call : RowCall K} {state : RowState} {p : SheetCursor S × W}
    (h : Reached io token (Fits limit) limit (some (call, state)) p) :
    state.cell.value.length ≤ limit ∧ state.cell.inlineText.length ≤ limit ∧
    (state.collecting = true → state.builder.rowBytes ≤ call.limits.maxRowBytes ∧
      (state.builder.row.cells.map fun cell => cell.bytes.length).sum = state.builder.rowBytes) ∧
    ∀ event q pass p' state', nextEvent io token p = (.ok event, q) →
      rowPass call.context call.limits call.collectAfter event state q = (.ok pass, p') →
      pass.state = some state' →
      (state'.cell.inlineText.length ≤ limit ↔ Fits limit event state q) := by
  have hbounded := h.bounded.2 call state rfl
  have hinline := h.inline_le call state rfl
  refine ⟨hbounded.value, hinline, hbounded.row, ?_⟩
  intro event q pass p' state' _ hrun hstate
  exact (rowPass_stepped hrun hstate).inline_le_iff hinline

end Invariant

end Run

/-! ### Two runs -/

/-- A stream that has delivered the whole part. -/
def wholePart : ByteStream (List Byte) Unit where
  available := id
  consume := List.drop
  fill := pure false
  consumed _ := 0
  produced _ := 0
  checkpoint := id
  todo := List.length

def neverCancelled (w : Unit) : Bool × Unit := (false, w)

def viewport : RowCall Unit where
  context := ⟨fun _ => none, [], (), fun _ _ => none, fun _ => none⟩
  limits := ⟨8, 3, 64⟩
  collectAfter := some 0

instance (limit : Nat) (event : Option XmlEvent) (state : RowState)
    (q : SheetCursor (List Byte) × Unit) : Decidable (Fits limit event state q) :=
  inferInstanceAs (Decidable (_ ∧ _ ∧ _ ∧ _ → _))

/-- Some passes over a part, all of which fit if that is asked. -/
def follow (fitting : Bool) : Nat → RowState → SheetCursor (List Byte) × Unit →
    Option (RowState × (SheetCursor (List Byte) × Unit))
  | 0, state, p => some (state, p)
  | fuel + 1, state, p =>
    match nextEvent wholePart neverCancelled p with
    | (.error _, _) => none
    | (.ok event, q) =>
      if fitting = true ∧ ¬ Fits 3 event state q then none
      else
        match rowPass viewport.context viewport.limits viewport.collectAfter event state q with
        | (.ok pass, p') => pass.state.bind fun state => follow fitting fuel state p'
        | (.error _, _) => none

theorem follow_reached {fitting : Bool} {fuel : Nat} {state state' : RowState}
    {p p' : SheetCursor (List Byte) × Unit}
    (hp : Reached wholePart neverCancelled (fun event state q => fitting = true →
    Fits 3 event state q)
      3 (some (viewport, state)) p) (h : follow fitting fuel state p = some (state', p')) :
    Reached wholePart neverCancelled (fun event state q => fitting = true → Fits 3 event state q) 3
      (some (viewport, state')) p' := by
  induction fuel generalizing state p with
  | zero =>
    cases h
    exact hp
  | succ fuel ih =>
    unfold follow at h
    rcases hevent : nextEvent wholePart neverCancelled p with ⟨error | event, q⟩
    · rw [hevent] at h
      cases h
    rw [hevent] at h
    dsimp only at h
    by_cases hfits : fitting = true ∧ ¬ Fits 3 event state q
    · rw [if_pos hfits] at h
      cases h
    rw [if_neg hfits] at h
    rcases hpass : rowPass viewport.context viewport.limits viewport.collectAfter event state q with
      ⟨error | pass, p''⟩
    · rw [hpass] at h
      cases h
    rw [hpass] at h
    dsimp only at h
    rcases hstate : pass.state with _ | next
    · rw [hstate] at h
      cases h
    rw [hstate] at h
    exact ih (.passed hp hevent (fun hfitting => by_contra fun hnot => hfits ⟨hfitting, hnot⟩) hpass
      hstate) h

def richText (first second : List Char) : List Byte :=
  bytesOf ("<sheetData><row><c t='inlineStr'><is><t>".toList ++ first ++ "</t><t>".toList ++
    second ++ "</t></is></c></row></sheetData>".toList)

def opening (first second : List Char) : SheetCursor (List Byte) × Unit :=
  (.new (richText first second) [] 64 3, ())

theorem row_buffers_bounded_short : ∃ state p,
    Reached wholePart neverCancelled (Fits 3) 3 (some (viewport, state)) p ∧
    state.cell.inlineText = bytesOf ['a', 'b', 'c'] ∧ state.cell.inlineText.length ≤ 3 := by
  have hrun : ((follow true 10 ⟨.default, false, .empty⟩ (opening ['a', 'b'] ['c'])).map
      fun r => r.1.cell.inlineText) = some (bytesOf ['a', 'b', 'c']) := by decide +kernel
  rcases h : follow true 10 ⟨.default, false, .empty⟩ (opening ['a', 'b'] ['c']) with _ | ⟨state, p⟩
  · rw [h] at hrun
    cases hrun
  rw [h] at hrun
  have hreached := follow_reached (.called viewport .empty (.opened _ [] 64 ())) h
  have hguard : (fun event state (q : SheetCursor (List Byte) × Unit) =>
      true = true → Fits 3 event state q) = Fits 3 := by
    funext event state q
    simp
  rw [hguard] at hreached
  exact ⟨state, p, hreached, Option.some.inj hrun, (row_buffers_bounded hreached).2.1⟩

/-- Two runs of two bytes in a cell of at most three. -/
theorem inline_text_exceeds : ∃ state p,
    Reached wholePart neverCancelled (fun _ _ _ => True) 3 (some (viewport, state)) p ∧
    state.collecting = true ∧ state.cell.inlineText = bytesOf ['a', 'b', 'c', 'd'] ∧
    ¬ state.cell.inlineText.length ≤ 3 := by
  have hrun : ((follow false 10 ⟨.default, false, .empty⟩ (opening ['a', 'b'] ['c', 'd'])).map
      fun r => (r.1.collecting, r.1.cell.inlineText)) =
        some (true, bytesOf ['a', 'b', 'c', 'd']) := by decide +kernel
  rcases h : follow false 10 ⟨.default, false, .empty⟩ (opening ['a', 'b'] ['c', 'd']) with
    _ | ⟨state, p⟩
  · rw [h] at hrun
    cases hrun
  rw [h] at hrun
  have hreached := follow_reached (.called viewport .empty (.opened _ [] 64 ())) h
  have hguard : (fun event state (q : SheetCursor (List Byte) × Unit) =>
      false = true → Fits 3 event state q) = fun _ _ _ => True := by
    funext event state q
    simp
  rw [hguard] at hreached
  obtain ⟨hcollecting, htext⟩ := Prod.mk.inj (Option.some.inj hrun)
  refine ⟨state, p, hreached, hcollecting, htext, ?_⟩
  have hlength : state.cell.inlineText.length = 4 := by
    rw [htext]
    rfl
  omega

end SheetCursor

end LeanRows.Xlsx
