import LeanRows.Engine.Rows
import LeanRows.Index
import LeanRows.Xlsx.Zip

/-!
# Worksheet rows

A cursor feeds the bytes of a stream to the tokenizer and reads rows of its events. The scan
counts rows and keeps copies of the cursor at row boundaries; a viewport resumes from one of
them. Every loop takes at least one byte of the stream a pass, which bounds the passes.
-/

namespace LeanRows.Xlsx

set_option autoImplicit false

def xlsxMaxRows : Nat := 1048576

def xlsxMaxColumns : Nat := 16384

def checkpointCapacity : Nat := 32

def initialCheckpointStride : Nat := 4096

def cancellationEvents : Nat := 4096

def outputBudgetFactor : Nat := 16

/-- What the reader needs of an entry stream. `todo` bounds the bytes that may still come. -/
structure ByteStream (S W : Type) where
  available : S → List Byte
  consume : Nat → S → S
  fill : Exec (S × W) XlsxError Bool
  consumed : S → Nat
  produced : S → Nat
  checkpoint : S → S
  todo : S → Nat

def entryStream {D W : Type} (tools : Decompressor D) (source : PositionedRead W) :
    ByteStream (EntryStream D) W where
  available := EntryStream.available
  consume := EntryStream.consume
  fill := EntryStream.fill tools source
  consumed := EntryStream.consumed
  produced := EntryStream.produced
  checkpoint := EntryStream.checkpoint
  todo stream := (stream.declared - stream.produced) + (stream.writeEnd - stream.readPosition)

structure XlsxRowLimits where
  maxColumns : Nat
  maxCellBytes : Nat
  maxRowBytes : Nat

/-! ## Text -/

/-- The longest front of at most `limit` bytes that does not end inside a character. -/
def utf8Prefix (bytes : List Byte) (limit : Nat) : List Byte :=
  if bytes.length ≤ limit then bytes else bytes.take (boundary limit)
where
  boundary : Nat → Nat
    | 0 => 0
    | stop + 1 =>
      if (bytes[stop + 1]?.any fun byte => byte &&& 0xc0 == 0x80) then boundary stop
      else stop + 1

def isAsciiDigit (byte : Byte) : Bool := byteOf '0' ≤ byte && byte ≤ byteOf '9'

def isAsciiAlphabetic (byte : Byte) : Bool :=
  byteOf 'a' ≤ byte && byte ≤ byteOf 'z' || byteOf 'A' ≤ byte && byte ≤ byteOf 'Z'

def parseNumber (bytes : List Byte) : Option Nat :=
  if bytes.isEmpty || decide (19 < bytes.length) || !bytes.all isAsciiDigit then none
  else some (bytes.foldl (fun value digit => value * 10 + (digit.toNat - 48)) 0)

def toAsciiUpper (byte : Byte) : Byte :=
  if byteOf 'a' ≤ byte ∧ byte ≤ byteOf 'z' then byte - 32 else byte

/-- The column of an A1 reference. Row digits must be those of the row. -/
def parseReference (reference : List Byte) (row : Nat) : Except XlsxError Nat :=
  let letters := reference.takeWhile isAsciiAlphabetic
  if letters.isEmpty ∨ 3 < letters.length then .error (.badCellReference row)
  else
    let column := letters.foldl
      (fun column letter => column * 26 + ((toAsciiUpper letter).toNat - 65 + 1)) 0
    if xlsxMaxColumns < column then .error (.badCellReference row)
    else
      let digits := reference.drop letters.length
      if !digits.isEmpty && parseNumber digits != some row then .error (.badCellReference row)
      else .ok (column - 1)

/-! ## Cells -/

inductive CellType where
  | number
  | shared
  | inline
  | formula
  | boolean
  | error
  | date
  | other
deriving DecidableEq

def cellType (value : List Byte) : CellType :=
  if value = bytesOf ['n'] then .number
  else if value = bytesOf ['s'] then .shared
  else if value = bytesOf ['i', 'n', 'l', 'i', 'n', 'e', 'S', 't', 'r'] then .inline
  else if value = bytesOf ['s', 't', 'r'] then .formula
  else if value = bytesOf ['b'] then .boolean
  else if value = bytesOf ['e'] then .error
  else if value = bytesOf ['d'] then .date
  else .other

structure CellState where
  column : Nat
  kind : Option CellType
  style : Nat
  value : List Byte
  valueTruncated : Bool
  hasValue : Bool
  inlineText : List Byte
  inlineTruncated : Bool
  inValue : Bool
  inInline : Bool
  inText : Bool
  phoneticDepth : Nat
deriving DecidableEq

def CellState.default : CellState :=
  ⟨0, none, 0, [], false, false, [], false, false, false, false, 0⟩

/-- What turns a stored cell into text. How a number of some kind is written is left open. -/
structure CellContext (K : Type) where
  strings : Nat → Option (List Byte × Bool)
  numberKinds : List K
  plain : K
  serialText : List Byte → K → Option (List Byte)
  booleanText : List Byte → Option (List Byte)

structure RowBuilder where
  row : XlsxRow
  rowBytes : Nat

namespace RowBuilder

def empty : RowBuilder := ⟨⟨0, [], false⟩, 0⟩

def reset (index : Nat) : RowBuilder := ⟨⟨index, [], false⟩, 0⟩

def place (limits : XlsxRowLimits) (builder : RowBuilder) (column : Nat) (text : List Byte)
    (sourceTruncated : Bool) : RowBuilder :=
  if limits.maxColumns ≤ column then { builder with row := { builder.row with truncated := true } }
  else
    let cells := builder.row.cells ++
      List.replicate (column - builder.row.cells.length) ⟨[], false⟩
    let room := min limits.maxCellBytes (limits.maxRowBytes - builder.rowBytes)
    let kept := utf8Prefix text room
    let cut := decide (kept.length < text.length)
    { row := { builder.row with
        cells := cells ++ [⟨kept, sourceTruncated || cut⟩]
        truncated := builder.row.truncated || cut && decide (room < limits.maxCellBytes) }
      rowBytes := builder.rowBytes + kept.length }

end RowBuilder

/-! ## The cursor -/

inductive Phase where
  | beforeData
  | inData
  | inRow
  | after
deriving DecidableEq

structure SheetCursor (S : Type) where
  stream : S
  xml : XmlTokenizer
  phase : Phase
  lastRow : Nat
  row : Nat
  nextColumn : Nat
  events : Nat

abbrev SheetM (S W : Type) := Exec (SheetCursor S × W) XlsxError

/-- What is local to the reading of one row: its cell, and the row that is built of it if the
row is wanted. -/
structure RowState where
  cell : CellState
  collecting : Bool
  builder : RowBuilder

inductive RowPass where
  | more (state : RowState)
  | found (number : Nat) (state : RowState)
  | ended

namespace SheetCursor

variable {S W α K : Type}

def new (stream : S) (part : PartName) (maxTagBytes textLimit : Nat) : SheetCursor S :=
  ⟨stream, .new part maxTagBytes textLimit, .beforeData, 0, 0, 0, 0⟩

def checkpoint (io : ByteStream S W) (cursor : SheetCursor S) : SheetCursor S :=
  { cursor with
    stream := io.checkpoint cursor.stream
    xml := cursor.xml.checkpoint
    events := 0 }

def onStream (x : Exec (S × W) XlsxError α) : SheetM S W α := fun p =>
  let r := x (p.1.stream, p.2)
  (r.1, { p.1 with stream := r.2.1 }, r.2.2)

def onXml (x : XmlTokenizer.XmlM α) : SheetM S W α := fun p =>
  let r := x p.1.xml
  (r.1, { p.1 with xml := r.2 }, p.2)

/-- The token is asked; the world answers. -/
def checkCancelled (token : W → Bool × W) : SheetM S W Unit := fun p =>
  if (token p.2).1 then (.error .cancelled, p.1, (token p.2).2)
  else (.ok (), p.1, (token p.2).2)

section Read
variable (io : ByteStream S W) (token : W → Bool × W)

/-- Bytes to feed, unless the entry has ended. -/
def moreBytes : SheetM S W Bool := do
  let cursor ← Exec.get
  if (io.available cursor.stream).isEmpty then onStream io.fill else pure true

/-- One call of the tokenizer on the bytes there are. -/
def feedAvailable : SheetM S W (Option XmlEvent) := do
  let cursor ← Exec.get
  let fed ← onXml (XmlTokenizer.feed (io.available cursor.stream))
  Exec.modify fun cursor => { cursor with stream := io.consume fed.1 cursor.stream }
  pure fed.2

def eventLoop : Nat → SheetM S W (Option XmlEvent)
  | 0 => .throw .truncated
  | fuel + 1 => do
    let more ← moreBytes io
    if more then do
      match ← feedAvailable io with
      | some event => pure (some event)
      | none => eventLoop fuel
    else do
      let cursor ← Exec.get
      Exec.ofExcept cursor.xml.finish
      pure none

/-- The next event, without the question whether the generation is cancelled. -/
def readEvent : SheetM S W (Option XmlEvent) := do
  let cursor ← Exec.get
  eventLoop io (io.todo cursor.stream + 1)

def nextEvent : SheetM S W (Option XmlEvent) := do
  Exec.modify fun cursor => { cursor with events := (cursor.events + 1) % 2 ^ 32 }
  let cursor ← Exec.get
  if cursor.events % cancellationEvents = 0 then do
    checkCancelled token
    readEvent io
  else readEvent io

def drainLoop : Nat → Nat → SheetM S W Unit
  | 0, _ => .throw .truncated
  | fuel + 1, chunks => do
    Exec.modify fun cursor => { cursor with
      stream := io.consume (io.available cursor.stream).length cursor.stream }
    let more ← onStream io.fill
    if more then do
      if (chunks + 1) % 64 = 0 then do
        checkCancelled token
        drainLoop fuel (chunks + 1)
      else drainLoop fuel (chunks + 1)
    else pure ()

/-- The rest of the part without the tokenizer, so that size and checksum are checked. -/
def drain : SheetM S W Unit := do
  let cursor ← Exec.get
  drainLoop io token (io.todo cursor.stream + 1) 0

end Read

/-! ### Rows -/

def named (cursor : SheetCursor S) (name : List Char) : Bool := cursor.xml.name == bytesOf name

def attributeOf (cursor : SheetCursor S) (name : List Char) :
    Except XlsxError (Option (List Byte)) :=
  cursor.xml.attributeValue (bytesOf name) false

def startRow (cursor : SheetCursor S) : Except XlsxError Nat := do
  let number ← match ← cursor.attributeOf ['r'] with
    | some value =>
      match parseNumber value with
      | some number => pure number
      | none => .error (.badRowNumber 0)
    | none => pure (cursor.lastRow + 1)
  if number = 0 ∨ xlsxMaxRows < number ∨ number ≤ cursor.lastRow then
    .error (.badRowNumber number)
  else pure number

section Row
variable (context : CellContext K) (limits : XlsxRowLimits)

/-- The kind of a number of this style, when it has one. -/
def numberKind (style : Nat) : Option K :=
  if style = 0 ∧ context.numberKinds.isEmpty then some context.plain
  else context.numberKinds[style]?

def finishCell (row : Nat) (cell : CellState) (builder : RowBuilder) :
    Except XlsxError RowBuilder :=
  match cell.kind.getD .number with
  | .shared =>
    if !cell.hasValue then .ok (builder.place limits cell.column [] false)
    else
      match (parseNumber cell.value).bind context.strings with
      | none => .error (.sharedStringIndex row)
      | some (text, truncated) => .ok (builder.place limits cell.column text truncated)
  | .inline => .ok (builder.place limits cell.column cell.inlineText cell.inlineTruncated)
  | .boolean =>
    .ok (builder.place limits cell.column ((context.booleanText cell.value).getD cell.value)
      cell.valueTruncated)
  | .number =>
    match numberKind context cell.style with
    | none => .error (.styleIndex row)
    | some kind =>
      match context.serialText cell.value kind with
      | some text => .ok (builder.place limits cell.column text false)
      | none => .ok (builder.place limits cell.column cell.value cell.valueTruncated)
  | .formula | .error | .date | .other =>
    .ok (builder.place limits cell.column cell.value cell.valueTruncated)

/-- The column of a cell that starts, by its reference or by its place. -/
def startColumn (cursor : SheetCursor S) : Except XlsxError Nat := do
  let column ← match ← cursor.attributeOf ['r'] with
    | some value => parseReference value cursor.row
    | none => pure cursor.nextColumn
  if column < cursor.nextColumn ∨ xlsxMaxColumns ≤ column then
    .error (.badCellReference cursor.row)
  else pure column

/-- The cell that starts in a column, by its attributes. -/
def startCell (cursor : SheetCursor S) (column : Nat) : Except XlsxError CellState := do
  let kind := ((← cursor.attributeOf ['t']).map cellType).getD .number
  let style ← match ← cursor.attributeOf ['s'] with
    | some value =>
      match parseNumber value with
      | some style => pure style
      | none => .error (.styleIndex cursor.row)
    | none => pure 0
  return { CellState.default with column := column, kind := some kind, style := style }

def collectText (collect : Bool) (cursor : SheetCursor S) : SheetCursor S :=
  { cursor with xml := cursor.xml.collectText collect }

/-- A cell starts. Where no row is built only its column counts. -/
def cellEvent (empty : Bool) (state : RowState) : SheetM S W RowState := do
  let cursor ← Exec.get
  let column ← Exec.ofExcept cursor.startColumn
  Exec.modify fun cursor => { cursor with nextColumn := column + 1 }
  if !state.collecting then pure state
  else do
    let cell ← Exec.ofExcept (cursor.startCell column)
    if empty then do
      let builder ← Exec.ofExcept (finishCell context limits cursor.row cell state.builder)
      pure { state with cell := cell, builder := builder }
    else pure { state with cell := cell }

/-- A start tag other than that of a cell. -/
def startTagEvent (cursor : SheetCursor S) (empty : Bool) (state : RowState) :
    SheetM S W RowState :=
  let cell := state.cell
  if cursor.named ['v'] && cell.kind.isSome && !empty then do
    Exec.modify (collectText true)
    pure { state with cell := { cell with inValue := true, hasValue := true } }
  else if cursor.named ['v'] && cell.kind.isSome then
    pure { state with cell := { cell with hasValue := true } }
  else if cursor.named ['i', 's'] && cell.kind.isSome && !empty then
    pure { state with cell := { cell with inInline := true } }
  else if cursor.named ['r', 'P', 'h'] && cell.inInline && !empty then
    pure { state with cell := { cell with phoneticDepth := cell.phoneticDepth + 1 } }
  else if cursor.named ['t'] && cell.inInline && cell.phoneticDepth == 0 && !empty then do
    Exec.modify (collectText true)
    pure { state with cell := { cell with inText := true } }
  else pure state

/-- An end tag other than that of the row. -/
def endTagEvent (cursor : SheetCursor S) (state : RowState) : SheetM S W RowState :=
  let cell := state.cell
  if cursor.named ['v'] && cell.inValue then do
    Exec.modify (collectText false)
    pure { state with cell := { cell with
      inValue := false
      value := cursor.xml.text
      valueTruncated := cursor.xml.textTruncated } }
  else if cursor.named ['t'] && cell.inText then do
    Exec.modify (collectText false)
    pure { state with cell := { cell with
      inText := false
      inlineText := cell.inlineText ++ cursor.xml.text
      inlineTruncated := cell.inlineTruncated || cursor.xml.textTruncated } }
  else if cursor.named ['r', 'P', 'h'] && cell.inInline then
    pure { state with cell := { cell with phoneticDepth := cell.phoneticDepth - 1 } }
  else if cursor.named ['i', 's'] then pure { state with cell := { cell with inInline := false } }
  else if cursor.named ['c'] && cell.kind.isSome then
    if state.collecting then do
      let builder ← Exec.ofExcept (finishCell context limits cursor.row cell state.builder)
      pure { state with cell := { cell with kind := none }, builder := builder }
    else pure { state with cell := { cell with kind := none } }
  else pure state

/-- One event inside a row. True at the end of the row. -/
def rowEvent (event : XmlEvent) (state : RowState) : SheetM S W (Bool × RowState) := do
  let cursor ← Exec.get
  match event with
  | .startTag empty =>
    if cursor.named ['c'] then do
      let state ← cellEvent context limits empty state
      pure (false, state)
    else do
      let state ← startTagEvent cursor empty state
      pure (false, state)
  | .endTag =>
    if cursor.named ['r', 'o', 'w'] then pure (true, state)
    else do
      let state ← endTagEvent context limits cursor state
      pure (false, state)
  | .text => pure (false, state)

def sheetData : List Char := ['s', 'h', 'e', 'e', 't', 'D', 'a', 't', 'a']

/-- A row starts. It is collected when it lies behind the rows to skip. -/
def rowStarts (collectAfter : Option Nat) (empty : Bool) (state : RowState) :
    SheetM S W RowPass := do
  let cursor ← Exec.get
  let number ← Exec.ofExcept cursor.startRow
  let collecting := collectAfter.any fun after => decide (after < number)
  let state := { state with
    collecting := collecting
    builder := if collecting then .reset (number - 1) else state.builder }
  if empty then do
    Exec.modify fun cursor => { cursor with lastRow := number }
    pure (.found number state)
  else do
    Exec.modify fun cursor => { cursor with row := number, nextColumn := 0, phase := .inRow }
    pure (.more state)

/-- An event in front of the sheet data. -/
def beforeDataPass (event : XmlEvent) (state : RowState) : SheetM S W RowPass := do
  let cursor ← Exec.get
  match event with
  | .startTag empty =>
    if cursor.named sheetData then
      if empty then do
        Exec.modify fun cursor => { cursor with phase := .after }
        pure .ended
      else do
        Exec.modify fun cursor => { cursor with phase := .inData }
        pure (.more state)
    else pure (.more state)
  | _ => pure (.more state)

def inDataPass (collectAfter : Option Nat) (event : XmlEvent) (state : RowState) :
    SheetM S W RowPass := do
  let cursor ← Exec.get
  match event with
  | .startTag empty =>
    if cursor.named ['r', 'o', 'w'] then rowStarts collectAfter empty state
    else pure (.more state)
  | .endTag =>
    if cursor.named sheetData then do
      Exec.modify fun cursor => { cursor with phase := .after }
      pure .ended
    else pure (.more state)
  | .text => pure (.more state)

def inRowPass (event : XmlEvent) (state : RowState) : SheetM S W RowPass := do
  let (ended, state) ← rowEvent context limits event state
  if ended then do
    Exec.modify fun cursor => { cursor with lastRow := cursor.row, phase := .inData }
    let cursor ← Exec.get
    pure (.found cursor.row state)
  else pure (.more state)

/-- What one event, or the end of the part, means to the reader of rows. -/
def rowPass (collectAfter : Option Nat) (event : Option XmlEvent) (state : RowState) :
    SheetM S W RowPass := do
  let cursor ← Exec.get
  match event with
  | none =>
    if cursor.phase = .beforeData ∨ cursor.phase = .after then do
      Exec.modify fun cursor => { cursor with phase := .after }
      pure .ended
    else .throw (cursor.xml.malformed "the sheet data is not closed")
  | some event =>
    match cursor.phase with
    | .beforeData => beforeDataPass event state
    | .inData => inDataPass collectAfter event state
    | .inRow => inRowPass context limits event state
    | .after => pure .ended

variable (io : ByteStream S W) (token : W → Bool × W)

def rowLoop (collectAfter : Option Nat) :
    Nat → RowState → SheetM S W (Option Nat × RowBuilder)
  | 0, _ => .throw .truncated
  | fuel + 1, state => do
    let event ← nextEvent io token
    match ← rowPass context limits collectAfter event state with
    | .more state => rowLoop collectAfter fuel state
    | .found number state => pure (some number, state.builder)
    | .ended => pure (none, state.builder)

/-- Reads up to the end of the next stored row; `none` at the end of the sheet data. -/
def nextRow (collectAfter : Option Nat) (builder : RowBuilder) :
    SheetM S W (Option Nat × RowBuilder) := do
  let cursor ← Exec.get
  rowLoop context limits io token collectAfter (io.todo cursor.stream + 2)
    ⟨.default, false, builder⟩

end Row

end SheetCursor

/-! ## The scan -/

inductive XlsxScanStatus where
  | progress
  | complete
  | cancelled
deriving DecidableEq

structure XlsxScanStep where
  status : XlsxScanStatus
  consumedBytes : Nat
  discoveredRows : Nat
deriving DecidableEq

structure XlsxSheetScan (S : Type) where
  cursor : SheetCursor S
  checkpoints : List (SheetCursor S)
  stride : Nat
  nextCheckpoint : Nat
  complete : Bool

structure XlsxRows where
  firstRow : Nat
  rows : List XlsxRow
  reachedEnd : Bool

namespace XlsxSheetScan

variable {S W α K : Type}

def new (stream : S) (part : PartName) (limits : XlsxLimits) : XlsxSheetScan S :=
  ⟨.new stream part limits.maxTagBytes limits.maxCellBytes, [], initialCheckpointStride,
    initialCheckpointStride, false⟩

abbrev ScanM (S W : Type) := Exec (XlsxSheetScan S × W) XlsxError

section Scan
variable (context : CellContext K) (io : ByteStream S W) (token : W → Bool × W)

/-- Of a cancelled reader no result comes, and no error. -/
def onCursor (x : SheetM S W α) : ScanM S W (Option α) := fun p =>
  match x (p.1.cursor, p.2) with
  | (.ok a, cursor, w) => (.ok (some a), { p.1 with cursor := cursor }, w)
  | (.error .cancelled, cursor, w) => (.ok none, { p.1 with cursor := cursor }, w)
  | (.error error, cursor, w) => (.error error, { p.1 with cursor := cursor }, w)

def askToken : ScanM S W Bool := fun p => (.ok (token p.2).1, p.1, (token p.2).2)

def addCheckpoint (scan : XlsxSheetScan S) : XlsxSheetScan S :=
  let full := decide (scan.checkpoints.length = checkpointCapacity)
  let checkpoints := if full then everyOther scan.checkpoints.tail else scan.checkpoints
  let stride := if full then min (scan.stride * 2) (u64Bound - 1) else scan.stride
  { scan with
    checkpoints := checkpoints ++ [scan.cursor.checkpoint io]
    stride := stride
    nextCheckpoint := saturatingAdd scan.cursor.lastRow stride }

def noLimits : XlsxRowLimits := ⟨0, 0, 0⟩

/-- The loop of `step`: rows until the budget is used. The status says why it returned. -/
def stepLoop (budget startConsumed startProduced : Nat) : Nat → ScanM S W XlsxScanStatus
  | 0 => .throw .truncated
  | fuel + 1 => do
    let cancelled ← askToken token
    if cancelled then pure .cancelled
    else do
      match ← onCursor (SheetCursor.nextRow context noLimits io token none .empty) with
      | none => pure .cancelled
      | some (none, _) => do
        match ← onCursor (SheetCursor.drain io token) with
        | none => pure .cancelled
        | some () => do
          Exec.modify fun scan => { scan with complete := true }
          pure .complete
      | some (some row, _) => do
        Exec.modify fun scan => if scan.nextCheckpoint ≤ row then addCheckpoint io scan else scan
        let scan ← Exec.get
        if budget ≤ io.consumed scan.cursor.stream - startConsumed ∨
            min (budget * outputBudgetFactor) (u64Bound - 1) ≤
              io.produced scan.cursor.stream - startProduced then pure .progress
        else stepLoop budget startConsumed startProduced fuel

def step (maxCompressedBytes : Nat) : ScanM S W XlsxScanStep := do
  let start ← Exec.get
  if start.complete then pure ⟨.complete, 0, 0⟩
  else do
    let status ← stepLoop context io token maxCompressedBytes
      (io.consumed start.cursor.stream) (io.produced start.cursor.stream)
      (io.todo start.cursor.stream + 2)
    let scan ← Exec.get
    pure ⟨status, io.consumed scan.cursor.stream - io.consumed start.cursor.stream,
      scan.cursor.lastRow - start.cursor.lastRow⟩

end Scan

/-! ## Viewports -/

section ReadRows
variable (context : CellContext K) (limits : XlsxRowLimits) (io : ByteStream S W)
  (token : W → Bool × W)

/-- The empty rows of a gap, as many as there is room for. -/
def gapRows (nextIndex index maxRows : Nat) (rows : List XlsxRow) : List XlsxRow :=
  (List.range' nextIndex (min (index - nextIndex) (maxRows - rows.length))).map
    fun index => ⟨index, [], false⟩

/-- The loop of `read_rows`: stored rows with the gaps in front of them. -/
def readLoop (firstRow maxRows : Nat) :
    Nat → Nat → RowBuilder → List XlsxRow → SheetM S W (List XlsxRow × Bool)
  | 0, _, _, _ => .throw .truncated
  | fuel + 1, nextIndex, builder, rows =>
    if rows.length < maxRows then do
      match ← SheetCursor.nextRow context limits io token (some firstRow) builder with
      | (none, _) => pure (rows, true)
      | (some number, builder) =>
        let index := number - 1
        if index < firstRow then readLoop firstRow maxRows fuel nextIndex builder rows
        else
          let rows := rows ++ gapRows nextIndex index maxRows rows
          if rows.length = maxRows then pure (rows, false)
          else
            readLoop firstRow maxRows fuel (index + 1) ⟨⟨0, [], false⟩, builder.rowBytes⟩
              (rows ++ [builder.row])
    else pure (rows, false)

/-- The last checkpoint at or in front of a row. -/
def resumeFrom (scan : XlsxSheetScan S) (firstRow : Nat) : Option (SheetCursor S) :=
  scan.checkpoints.reverse.find? fun checkpoint => decide (checkpoint.lastRow ≤ firstRow)

/-- `opened` is a cursor on the sheet opened anew. -/
def readRows (scan : XlsxSheetScan S) (opened : Exec W XlsxError (SheetCursor S))
    (firstRow maxRows : Nat) : Exec W XlsxError XlsxRows := fun w =>
  if (token w).1 then (.error .cancelled, (token w).2)
  else
    let start : Except XlsxError (SheetCursor S) × W :=
      match scan.resumeFrom firstRow with
      | some checkpoint => (.ok (checkpoint.checkpoint io), (token w).2)
      | none => opened (token w).2
    match start with
    | (.error error, w) => (.error error, w)
    | (.ok cursor, w) =>
      let r := readLoop context limits io token firstRow maxRows (io.todo cursor.stream + 2)
        firstRow .empty [] (cursor, w)
      (r.1.map fun read => ⟨firstRow, read.1, read.2⟩, r.2.2)

end ReadRows

end XlsxSheetScan

end LeanRows.Xlsx
