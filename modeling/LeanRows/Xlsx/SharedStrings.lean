import LeanRows.Lib.ExecView
import LeanRows.Xlsx.RowBounds

/-!
# Shared strings

The texts that cells name by their number. An item may be cut into runs, each with a text of
its own. Of the whole item so many bytes are kept, and each run is cut to the room that is left.
-/

namespace LeanRows.Xlsx

set_option autoImplicit false

/-! ## The table -/

/-- `ends` has the end of each string in `arena`. Its top bit marks truncation. -/
structure SharedStrings where
  arena : List Byte
  ends : List Nat
deriving DecidableEq, Repr

def truncatedBit : Nat := 2 ^ 31

namespace SharedStrings

def startOf (strings : SharedStrings) : Nat → Option Nat
  | 0 => some 0
  | previous + 1 => strings.ends[previous]?.map (· % truncatedBit)

def get (strings : SharedStrings) (index : Nat) : Option (List Byte × Bool) := do
  let stop ← strings.ends[index]?
  let start ← strings.startOf index
  if start ≤ stop % truncatedBit ∧ stop % truncatedBit ≤ strings.arena.length then
    some ((strings.arena.drop start).take (stop % truncatedBit - start),
      decide (truncatedBit ≤ stop))
  else none

def pushString (limits : XlsxLimits) (truncated : Bool) (strings : SharedStrings) :
    Except XlsxError SharedStrings :=
  if limits.maxSharedStrings ≤ strings.ends.length then
    .error (.tooManySharedStrings limits.maxSharedStrings)
  else if truncatedBit ≤ strings.arena.length then
    .error (.sharedStringsTooLarge limits.maxSharedStringBytes)
  else .ok { strings with
    ends := strings.ends ++ [strings.arena.length + if truncated then truncatedBit else 0] }

end SharedStrings

/-! ## Reading a part -/

/-- One streamed part: decompression and tokenizer. -/
structure PartCursor (S : Type) where
  stream : S
  xml : XmlTokenizer

abbrev PartM (S W : Type) := Exec (PartCursor S × W) XlsxError

namespace PartCursor

variable {S W A α : Type}

def onStream (x : Exec (S × W) XlsxError α) : PartM S W α := fun p =>
  let r := x (p.1.stream, p.2)
  (r.1, { p.1 with stream := r.2.1 }, r.2.2)

def onXml (x : XmlTokenizer.XmlM α) : PartM S W α := fun p =>
  let r := x p.1.xml
  (r.1, { p.1 with xml := r.2 }, p.2)

section Read
variable (io : ByteStream S W) (token : W → Bool × W)

def moreBytes : PartM S W Bool := do
  let cursor ← Exec.get
  if (io.available cursor.stream).isEmpty then onStream io.fill else pure true

def nextLoop : Nat → PartM S W (Option XmlEvent)
  | 0 => .throw .truncated
  | fuel + 1 => do
    let more ← moreBytes io
    let cursor ← Exec.get
    if more then do
      let fed ← onXml (XmlTokenizer.feed (io.available cursor.stream))
      Exec.modify fun cursor => { cursor with stream := io.consume fed.1 cursor.stream }
      match fed.2 with
      | some event => pure (some event)
      | none => nextLoop fuel
    else do
      Exec.ofExcept cursor.xml.finish
      pure none

/-- Each pass of the loop uses up a byte of the part, or is the last. -/
def next : PartM S W (Option XmlEvent) := do
  let cursor ← Exec.get
  nextLoop io (io.todo cursor.stream + 1)

def checkCancelled : PartM S W Unit := fun p =>
  if (token p.2).1 then (.error .cancelled, p.1, (token p.2).2)
  else (.ok (), p.1, (token p.2).2)

/-- The token is asked now and then. -/
def poll (events : Nat) : PartM S W Unit :=
  if events % cancellationEvents = 0 then checkCancelled token else pure ()

/-- What an event does, and the call of `collect_text` it asks for. -/
abbrev Body (A : Type) := XmlEvent → XmlTokenizer → A → Except XlsxError (A × Option Bool)

def answer (collect : Option Bool) (cursor : PartCursor S) : PartCursor S :=
  { cursor with xml := collect.elim cursor.xml fun collect => cursor.xml.collectText collect }

/-- `while let Some(event) = cursor.next(source)?` -/
def eachEvent (body : Body A) : Nat → Nat → A → PartM S W A
  | 0, _, _ => .throw .truncated
  | fuel + 1, events, a => do
    match ← next io with
    | none => pure a
    | some event => do
      poll token ((events + 1) % 2 ^ 32)
      let cursor ← Exec.get
      let r ← Exec.ofExcept (body event cursor.xml a)
      Exec.modify (answer r.2)
      eachEvent body fuel ((events + 1) % 2 ^ 32) r.1

end Read

end PartCursor

/-- Reads a part from its first event to its last. `opened` finds the part,
  and gives its stream and name. -/
def readPart {S W A : Type} (io : ByteStream S W) (token : W → Bool × W)
    (opened : Exec W XlsxError (Option (S × PartName))) (part : PartName)
    (maxTagBytes textLimit : Nat) (body : PartCursor.Body A) (start : A) :
    Exec W XlsxError A := fun w =>
  match opened w with
  | (.error error, w) => (.error error, w)
  | (.ok none, w) => (.error (.missingPart part), w)
  | (.ok (some (stream, name)), w) =>
    let r := PartCursor.eachEvent io token body (io.todo stream + 2) 0 start
      (⟨stream, .new name maxTagBytes textLimit⟩, w)
    (r.1, r.2.2)

/-! ## Reading the table -/

def itemName : List Byte := bytesOf ['s', 'i']

def phoneticName : List Byte := bytesOf ['r', 'P', 'h']

def textName : List Byte := bytesOf ['t']

structure SharedReader where
  strings : SharedStrings
  inItem : Bool
  phoneticDepth : Nat
  collecting : Bool
  itemStart : Nat
  itemTruncated : Bool
  totalText : Nat

namespace SharedReader

def start : SharedReader := ⟨⟨[], []⟩, false, 0, false, 0, false, 0⟩

/-- The text of a run is cut to what is left of the item's bytes. -/
def keepText (limits : XlsxLimits) (xml : XmlTokenizer) (reader : SharedReader) : SharedReader :=
  let used := reader.strings.arena.length - reader.itemStart
  let kept := utf8Prefix xml.text (limits.maxCellBytes - used)
  { reader with
    itemTruncated := reader.itemTruncated || decide (kept.length < xml.text.length) ||
      xml.textTruncated
    strings := { reader.strings with arena := reader.strings.arena ++ kept }
    collecting := false }

def startTag (limits : XlsxLimits) (empty : Bool) (xml : XmlTokenizer) (reader : SharedReader) :
    Except XlsxError (SharedReader × Option Bool) :=
  if xml.name = itemName then
    let reader := { reader with
      inItem := true
      phoneticDepth := 0
      itemStart := reader.strings.arena.length
      itemTruncated := false }
    if empty then do
      let strings ← reader.strings.pushString limits false
      pure ({ reader with inItem := false, strings := strings }, none)
    else pure (reader, none)
  else if xml.name = phoneticName ∧ empty = false then
    pure ({ reader with phoneticDepth := reader.phoneticDepth + 1 }, none)
  else if xml.name = textName ∧ reader.inItem = true ∧ reader.phoneticDepth = 0 ∧ empty = false then
    pure ({ reader with collecting := true }, some true)
  else pure (reader, none)

def endTag (limits : XlsxLimits) (xml : XmlTokenizer) (reader : SharedReader) :
    Except XlsxError (SharedReader × Option Bool) :=
  if xml.name = textName ∧ reader.collecting = true then
    let reader := { reader with totalText := reader.totalText + xml.textTotal }
    if limits.maxSharedStringBytes < reader.totalText then
      .error (.sharedStringsTooLarge limits.maxSharedStringBytes)
    else pure (reader.keepText limits xml, some false)
  else if xml.name = phoneticName then
    pure ({ reader with phoneticDepth := reader.phoneticDepth - 1 }, none)
  else if xml.name = itemName ∧ reader.inItem = true then do
    let strings ← reader.strings.pushString limits reader.itemTruncated
    pure ({ reader with inItem := false, strings := strings }, none)
  else pure (reader, none)

def event (limits : XlsxLimits) : PartCursor.Body SharedReader
  | .startTag empty, xml, reader => reader.startTag limits empty xml
  | .endTag, xml, reader => reader.endTag limits xml
  | .text, _, reader => pure (reader, none)

end SharedReader

def readSharedStrings {S W : Type} (io : ByteStream S W) (token : W → Bool × W)
    (opened : Exec W XlsxError (Option (S × PartName))) (part : PartName) (limits : XlsxLimits) :
    Exec W XlsxError SharedStrings := do
  let reader ← readPart io token opened part limits.maxTagBytes limits.maxCellBytes
    (SharedReader.event limits) .start
  pure reader.strings

/-! ## The items of a part -/

/-- An item is the texts of its runs in full. Phonetic runs are left out. -/
structure ItemReader where
  items : List (List (List Byte))
  runs : List (List Byte)
  inItem : Bool
  phoneticDepth : Nat
  collecting : Bool
deriving DecidableEq, Repr

namespace ItemReader

def start : ItemReader := ⟨[], [], false, 0, false⟩

/-- There are no items in items, and no texts in texts. -/
def nested (xml : XmlTokenizer) : XlsxError := xml.malformed "items and texts do not nest"

def startTag (empty : Bool) (xml : XmlTokenizer) (reader : ItemReader) :
    Except XlsxError (ItemReader × Option Bool) :=
  if xml.name = itemName then
    if reader.inItem = true ∨ reader.collecting = true then .error (nested xml)
    else if empty then
      pure ({ reader with items := reader.items ++ [[]], runs := [], phoneticDepth := 0 }, none)
    else pure ({ reader with runs := [], inItem := true, phoneticDepth := 0 }, none)
  else if xml.name = phoneticName ∧ empty = false then
    pure ({ reader with phoneticDepth := reader.phoneticDepth + 1 }, none)
  else if xml.name = textName ∧ reader.inItem = true ∧ reader.phoneticDepth = 0 ∧ empty = false then
    if reader.collecting = true then .error (nested xml)
    else pure ({ reader with collecting := true }, some true)
  else pure (reader, none)

def endTag (xml : XmlTokenizer) (reader : ItemReader) :
    Except XlsxError (ItemReader × Option Bool) :=
  if xml.name = textName ∧ reader.collecting = true then
    pure ({ reader with runs := reader.runs ++ [xml.text], collecting := false }, some false)
  else if xml.name = phoneticName then
    pure ({ reader with phoneticDepth := reader.phoneticDepth - 1 }, none)
  else if xml.name = itemName ∧ reader.inItem = true then
    if reader.collecting = true then .error (nested xml)
    else pure ({ reader with items := reader.items ++ [reader.runs], runs := [], inItem := false },
      none)
  else pure (reader, none)

def event : PartCursor.Body ItemReader
  | .startTag empty, xml, reader => reader.startTag empty xml
  | .endTag, xml, reader => reader.endTag xml
  | .text, _, reader => pure (reader, none)

end ItemReader

/-- The items of a part, under a limit that the text of no run reaches. -/
def readItems {S W : Type} (io : ByteStream S W) (token : W → Bool × W)
    (opened : Exec W XlsxError (Option (S × PartName))) (part : PartName) (limits : XlsxLimits) :
    Exec W XlsxError (List (List (List Byte))) := do
  let reader ← readPart io token opened part limits.maxTagBytes
    (max limits.maxCellBytes limits.maxSharedStringBytes) ItemReader.event .start
  pure reader.items

/-! ## A lower limit for the text -/

namespace XmlTokenizer

/-- The tokenizer as it would be under a lower limit. -/
def limited (limit : Nat) (xml : XmlTokenizer) : XmlTokenizer :=
  { xml with
    textLimit := limit
    text := xml.text.take limit
    textTruncated := decide (limit < xml.textTotal) }

/-- The text is what the limit leaves of all that was pushed. -/
structure Counted (limit bound : Nat) (xml : XmlTokenizer) : Prop where
  lower : limit ≤ bound
  bounded : xml.textLimit = bound
  length : xml.text.length = min bound xml.textTotal

section Limited
variable {limit bound : Nat} {xml : XmlTokenizer}

theorem pushText_limited (h : Counted limit bound xml) (byte : Byte) :
    pushText byte (xml.limited limit) = (pushText byte xml).limited limit ∧
      Counted limit bound (pushText byte xml) := by
  have hlower := h.lower
  have hbounded := h.bounded
  have hlength := h.length
  by_cases hcollect : xml.collect = true
  swap
  · have hoff : (!xml.collect) = true := by simpa using hcollect
    have hoff' : (!(xml.limited limit).collect) = true := hoff
    rw [pushText, pushText, if_pos hoff, if_pos hoff']
    exact ⟨rfl, h⟩
  have hon : ¬ (!xml.collect) = true := by simp [hcollect]
  have hon' : ¬ (!(xml.limited limit).collect) = true := hon
  have hfront : (xml.limited limit).text.length = min limit xml.textTotal := by
    show (xml.text.take limit).length = _
    rw [List.length_take, hlength]
    omega
  have hroom' : (xml.limited limit).text.length < (xml.limited limit).textLimit ↔
      xml.textTotal < limit := by
    rw [hfront, show (xml.limited limit).textLimit = limit from rfl]
    omega
  rw [pushText, pushText, if_neg hon, if_neg hon']
  by_cases hroom : xml.text.length < xml.textLimit
  · rw [if_pos hroom]
    refine ⟨?_, hlower, hbounded, ?_⟩
    · by_cases hless : xml.textTotal < limit
      · have htake : (xml.text ++ [byte]).take limit = xml.text.take limit ++ [byte] := by
          have hshort : (xml.text ++ [byte]).length ≤ limit := by
            rw [List.length_append, List.length_singleton]
            omega
          rw [List.take_of_length_le hshort, List.take_of_length_le (by omega)]
        rw [if_pos (hroom'.mpr hless)]
        simp only [limited, htake, decide_eq_false (show ¬ limit < xml.textTotal by omega),
          decide_eq_false (show ¬ limit < xml.textTotal + 1 by omega)]
      · have htake : (xml.text ++ [byte]).take limit = xml.text.take limit :=
          List.take_append_of_le_length (by omega)
        rw [if_neg (mt hroom'.mp hless)]
        simp only [limited, htake, decide_eq_true (show limit < xml.textTotal + 1 by omega)]
    · show (xml.text ++ [byte]).length = min bound (xml.textTotal + 1)
      rw [List.length_append, List.length_singleton]
      omega
  · rw [if_neg hroom]
    refine ⟨?_, hlower, hbounded, ?_⟩
    · rw [if_neg (mt hroom'.mp (by omega))]
      simp only [limited, decide_eq_true (show limit < xml.textTotal + 1 by omega)]
    · show xml.text.length = min bound (xml.textTotal + 1)
      omega

theorem foldl_pushText_limited (h : Counted limit bound xml) (bytes : List Byte) :
    bytes.foldl (fun xml byte => pushText byte xml) (xml.limited limit) =
      (bytes.foldl (fun xml byte => pushText byte xml) xml).limited limit ∧
    Counted limit bound (bytes.foldl (fun xml byte => pushText byte xml) xml) := by
  induction bytes generalizing xml with
  | nil => exact ⟨rfl, h⟩
  | cons byte bytes ih =>
    obtain ⟨hpush, hcounted⟩ := pushText_limited h byte
    rw [List.foldl_cons, List.foldl_cons, hpush]
    exact ih hcounted

theorem flushCr_limited (h : Counted limit bound xml) :
    (xml.limited limit).flushCr = xml.flushCr.limited limit ∧ Counted limit bound xml.flushCr := by
  by_cases hpending : xml.pendingCr = true
  · have hpending' : (xml.limited limit).pendingCr = true := hpending
    rw [flushCr, flushCr, if_pos hpending, if_pos hpending']
    have hfree : Counted limit bound { xml with pendingCr := false } :=
      ⟨h.lower, h.bounded, h.length⟩
    exact pushText_limited hfree lf
  · have hpending' : ¬ (xml.limited limit).pendingCr = true := hpending
    rw [flushCr, flushCr, if_neg hpending, if_neg hpending']
    exact ⟨rfl, h⟩

theorem pushRawText_limited (h : Counted limit bound xml) (byte : Byte) :
    pushRawText byte (xml.limited limit) = (pushRawText byte xml).limited limit ∧
      Counted limit bound (pushRawText byte xml) := by
  obtain ⟨hflush, hcounted⟩ := flushCr_limited h
  have hpending : (xml.limited limit).pendingCr = xml.pendingCr := rfl
  rw [pushRawText, pushRawText, hpending, hflush]
  split_ifs
  · exact ⟨rfl, hcounted⟩
  · exact ⟨rfl, hcounted.lower, hcounted.bounded, hcounted.length⟩
  · exact pushText_limited hcounted byte

theorem repeat_pushRawText_limited (h : Counted limit bound xml) (count : Nat) (byte : Byte) :
    Nat.repeat (pushRawText byte) count (xml.limited limit) =
      (Nat.repeat (pushRawText byte) count xml).limited limit ∧
    Counted limit bound (Nat.repeat (pushRawText byte) count xml) := by
  induction count with
  | zero => exact ⟨rfl, h⟩
  | succ count ih =>
    rw [Nat.repeat, Nat.repeat, ih.1]
    exact pushRawText_limited ih.2 byte

/-- What the tokenizer does is the same under the lower limit. -/
def Unlimited (limit bound : Nat) {α : Type} (x : XmlM α) : Prop :=
  ∀ xml, Counted limit bound xml →
    x (xml.limited limit) = ((x xml).1, (x xml).2.limited limit) ∧ Counted limit bound (x xml).2

theorem Unlimited.bind {α β : Type} {x : XmlM α} {f : α → XmlM β} (hx : Unlimited limit bound x)
    (hf : ∀ a, Unlimited limit bound (f a)) : Unlimited limit bound (x >>= f) := by
  intro xml h
  obtain ⟨hrun, hkeep⟩ := hx xml h
  rcases hr : x xml with ⟨e | a, mid⟩
  · rw [hr] at hrun hkeep
    rw [Exec.run_bind_error hr, Exec.run_bind_error hrun]
    exact ⟨rfl, hkeep⟩
  · rw [hr] at hrun hkeep
    rw [Exec.run_bind_ok hr, Exec.run_bind_ok hrun]
    exact hf a mid hkeep

theorem Unlimited.update {f : XmlTokenizer → XmlTokenizer}
    (h : ∀ xml, Counted limit bound xml → f (xml.limited limit) = (f xml).limited limit ∧
      Counted limit bound (f xml)) : Unlimited limit bound (update f) :=
  fun xml hxml => ⟨by rw [XmlTokenizer.update, (h xml hxml).1]; rfl, (h xml hxml).2⟩

theorem Unlimited.ite {α : Type} {c : Prop} [Decidable c] {x y : XmlM α}
    (hx : c → Unlimited limit bound x) (hy : ¬ c → Unlimited limit bound y) :
    Unlimited limit bound (if c then x else y) := by
  by_cases hc : c
  · rw [if_pos hc]
    exact hx hc
  · rw [if_neg hc]
    exact hy hc

theorem fail_unlimited {α : Type} (reason : String) :
    Unlimited limit bound (fail reason : XmlM α) :=
  fun _ h => ⟨rfl, h⟩

theorem pushTag_unlimited (byte : Byte) : Unlimited limit bound (pushTag byte) := by
  intro xml h
  have htag : (xml.limited limit).tag = xml.tag := rfl
  have hmax : (xml.limited limit).maxTagBytes = xml.maxTagBytes := rfl
  rw [pushTag, pushTag, htag, hmax]
  split_ifs
  · exact ⟨rfl, h⟩
  · exact ⟨rfl, h.lower, h.bounded, h.length⟩

theorem textByte_unlimited (byte : Byte) : Unlimited limit bound (textByte byte) := by
  intro xml h
  obtain ⟨hflush, hcounted⟩ := flushCr_limited h
  obtain ⟨hpush, hpushed⟩ := pushRawText_limited h byte
  rw [textByte, textByte, hflush, hpush]
  split_ifs
  · exact ⟨rfl, hcounted.lower, hcounted.bounded, hcounted.length⟩
  · exact ⟨rfl, hcounted.lower, hcounted.bounded, hcounted.length⟩
  · exact ⟨rfl, hpushed⟩

theorem startByte_unlimited (byte : Byte) : Unlimited limit bound (startByte byte) := by
  intro xml h
  have hseen : (xml.limited limit).instruction = xml.instruction := rfl
  have htext := textByte_unlimited byte { xml with state := .text } ⟨h.lower, h.bounded, h.length⟩
  unfold startByte
  rw [hseen]
  dsimp only
  split_ifs
  · exact ⟨rfl, h.lower, h.bounded, h.length⟩
  · exact ⟨rfl, h.lower, h.bounded, h.length⟩
  · exact ⟨rfl, h.lower, h.bounded, h.length⟩
  · exact ⟨rfl, h⟩
  · exact htext

theorem entityByte_unlimited (byte : Byte) : Unlimited limit bound (entityByte byte) := by
  intro xml h
  have hentity : (xml.limited limit).entity = xml.entity := rfl
  unfold entityByte
  rw [hentity]
  split_ifs
  · cases decodeEntity xml.entity with
    | error reason => exact ⟨rfl, h⟩
    | ok decoded =>
      obtain ⟨hpush, hcounted⟩ := foldl_pushText_limited h decoded
      dsimp only
      rw [hpush]
      exact ⟨rfl, hcounted.lower, hcounted.bounded, hcounted.length⟩
  · exact ⟨rfl, h⟩
  · exact ⟨rfl, h.lower, h.bounded, h.length⟩

theorem tagOpenByte_unlimited (byte : Byte) : Unlimited limit bound (tagOpenByte byte) := by
  refine .ite (fun _ => .update fun _ h => ⟨rfl, h.lower, h.bounded, h.length⟩) fun _ =>
    .ite (fun _ => .update fun _ h => ⟨rfl, h.lower, h.bounded, h.length⟩) fun _ =>
    .ite (fun _ => .update fun _ h => ⟨rfl, h.lower, h.bounded, h.length⟩) fun _ =>
    .ite (fun _ => fail_unlimited _) fun _ => ?_
  exact (pushTag_unlimited byte).bind fun _ => .update fun _ h =>
    ⟨rfl, h.lower, h.bounded, h.length⟩

theorem tagByte_unlimited (ends : Bool) (quote byte : Byte) :
    Unlimited limit bound (tagByte ends quote byte) := by
  refine .ite (fun _ => ?_) fun _ => .ite (fun _ xml h =>
    ⟨rfl, h.lower, h.bounded, h.length⟩) fun _ =>
    .ite (fun _ => ?_) fun _ => .ite (fun _ => fail_unlimited _) fun _ => pushTag_unlimited byte
  · refine Unlimited.bind (.update fun xml h => ?_) fun _ => pushTag_unlimited byte
    split_ifs
    · exact ⟨rfl, h.lower, h.bounded, h.length⟩
    · exact ⟨rfl, h⟩
  · exact Unlimited.bind (.update fun xml h => ⟨rfl, h.lower, h.bounded, h.length⟩) fun _ =>
      pushTag_unlimited byte

theorem bangByte_unlimited (byte : Byte) : Unlimited limit bound (bangByte byte) := by
  intro xml h
  have hseen : (xml.limited limit).instruction = xml.instruction := rfl
  unfold bangByte
  rw [hseen]
  dsimp only
  split_ifs
  all_goals exact ⟨rfl, h.lower, h.bounded, h.length⟩

theorem commentByte_unlimited (dashes : Nat) (byte : Byte) :
    Unlimited limit bound (commentByte dashes byte) :=
  .update fun _ h => ⟨rfl, h.lower, h.bounded, h.length⟩

theorem cdataByte_unlimited (brackets : Nat) (byte : Byte) :
    Unlimited limit bound (cdataByte brackets byte) := by
  refine .update fun xml h => ?_
  obtain ⟨hrepeat, hrepeated⟩ := repeat_pushRawText_limited h brackets (byteOf ']')
  obtain ⟨hpush, hpushed⟩ := pushRawText_limited hrepeated byte
  rw [hrepeat, hpush]
  split_ifs
  · exact ⟨rfl, h.lower, h.bounded, h.length⟩
  · exact pushRawText_limited h (byteOf ']')
  · exact ⟨rfl, h.lower, h.bounded, h.length⟩
  · exact ⟨rfl, hpushed.lower, hpushed.bounded, hpushed.length⟩

theorem instructionByte_unlimited (question : Bool) (byte : Byte) :
    Unlimited limit bound (instructionByte question byte) := by
  have hpush : ∀ (byte : Byte) (xml : XmlTokenizer), Counted limit bound xml →
      pushInstruction byte (xml.limited limit) = (pushInstruction byte xml).limited limit ∧
        Counted limit bound (pushInstruction byte xml) := by
    intro byte xml h
    have hseen : (xml.limited limit).instruction = xml.instruction := rfl
    rw [pushInstruction, pushInstruction, hseen]
    split_ifs
    · exact ⟨rfl, h.lower, h.bounded, h.length⟩
    · exact ⟨rfl, h⟩
  intro xml h
  have hcheck : (xml.limited limit).checkDeclaration = xml.checkDeclaration := rfl
  unfold instructionByte
  rw [hcheck]
  by_cases hends : question ∧ byte = byteOf '>'
  · rw [if_pos hends, if_pos hends]
    cases xml.checkDeclaration with
    | error error => exact ⟨rfl, h⟩
    | ok _ => exact ⟨rfl, h.lower, h.bounded, h.length⟩
  rw [if_neg hends, if_neg hends]
  have hmark : (if question then pushInstruction (byteOf '?') (xml.limited limit)
        else xml.limited limit) =
      (if question then pushInstruction (byteOf '?') xml else xml).limited limit ∧
      Counted limit bound (if question then pushInstruction (byteOf '?') xml else xml) := by
    split_ifs
    · exact hpush _ xml h
    · exact ⟨rfl, h⟩
  obtain ⟨hmarked, hcounted⟩ := hmark
  obtain ⟨hlast, hkept⟩ := hpush byte _ hcounted
  dsimp only
  rw [hmarked, hlast]
  generalize (if question then pushInstruction (byteOf '?') xml else xml) = mid at hcounted hkept
  by_cases hmark : byte = byteOf '?'
  · rw [if_pos hmark, if_pos hmark]
    exact ⟨rfl, hcounted.lower, hcounted.bounded, hcounted.length⟩
  · rw [if_neg hmark, if_neg hmark]
    exact ⟨rfl, hkept.lower, hkept.bounded, hkept.length⟩

theorem feedByte_unlimited (byte : Byte) : Unlimited limit bound (feedByte byte) := by
  intro xml h
  have hstate : (xml.limited limit).state = xml.state := rfl
  unfold feedByte
  rw [hstate]
  cases xml.state with
  | start => exact startByte_unlimited byte xml h
  | text => exact textByte_unlimited byte xml h
  | textEntity => exact entityByte_unlimited byte xml h
  | tagOpen => exact tagOpenByte_unlimited byte xml h
  | tag ends quote => exact tagByte_unlimited ends quote byte xml h
  | bang => exact bangByte_unlimited byte xml h
  | comment dashes => exact commentByte_unlimited dashes byte xml h
  | cdata brackets => exact cdataByte_unlimited brackets byte xml h
  | instruction question => exact instructionByte_unlimited question byte xml h

theorem feed_unlimited (input : List Byte) : Unlimited limit bound (feed input) := by
  induction input with
  | nil => exact fun xml h => ⟨rfl, h⟩
  | cons byte input ih =>
    intro xml h
    obtain ⟨hbyte, hcounted⟩ := feedByte_unlimited byte xml h
    unfold feed
    rw [hbyte]
    rcases hrun : feedByte byte xml with ⟨error | _ | event, mid⟩
    · rw [hrun] at hcounted
      exact ⟨rfl, hcounted⟩
    · rw [hrun] at hcounted
      obtain ⟨hrest, hkept⟩ := ih mid hcounted
      dsimp only
      rw [hrest]
      rcases hmore : feed input mid with ⟨error | result, last⟩
      · rw [hmore] at hkept
        exact ⟨rfl, hkept⟩
      · rw [hmore] at hkept
        exact ⟨rfl, hkept⟩
    · rw [hrun] at hcounted
      exact ⟨rfl, hcounted⟩

theorem collectText_limited (h : Counted limit bound xml) (collect : Bool) :
    (xml.limited limit).collectText collect = (xml.collectText collect).limited limit ∧
      Counted limit bound (xml.collectText collect) := by
  refine ⟨?_, h.lower, h.bounded, ?_⟩
  · simp [collectText, limited]
  · simp [collectText]

end Limited

end XmlTokenizer

end LeanRows.Xlsx
