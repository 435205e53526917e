import LeanRows.Lib.Exec
import LeanRows.Source

/-!
# The XML tokenizer of a workbook part

One byte at a time, with everything that is held between two bytes in the tokenizer itself.
An action keeps what it has done when it fails, as the source does. The events a caller sees
do not depend on how the bytes come in chunks.
-/

namespace LeanRows.Xlsx

set_option autoImplicit false

def byteOf (c : Char) : Byte := UInt8.ofNat c.toNat

def bytesOf (text : List Char) : List Byte := text.map byteOf

/-- The bytes of a name in the archive. -/
abbrev PartName := List Byte

/-- Why a workbook was refused or could not be read. -/
inductive XlsxError where
  | notZip
  | legacyOrEncrypted
  | truncated
  | zip64Unsupported
  | encryptedEntry (name : PartName)
  | unsupportedCompression (name : PartName) (method : Nat)
  | tooManyEntries (limit : Nat)
  | duplicateEntry (name : PartName)
  | malformedZip (reason : String)
  | entryTooLarge (name : PartName) (limit : Nat)
  | compressionRatio (name : PartName) (limit : Nat)
  | sizeMismatch (name : PartName)
  | checksumMismatch (name : PartName)
  | corruptData (name : PartName)
  | missingPart (name : PartName)
  | doctype (part : PartName)
  | unsupportedEncoding (part : PartName)
  | malformedXml (part : PartName) (reason : String)
  | badRowNumber (row : Nat)
  | badCellReference (row : Nat)
  | sharedStringIndex (row : Nat)
  | styleIndex (row : Nat)
  | tooManySharedStrings (limit : Nat)
  | sharedStringsTooLarge (limit : Nat)
  | io (error : IoError)
  | cancelled
deriving DecidableEq, Repr

inductive XmlEvent where
  | startTag (empty : Bool)
  | endTag
  | text
deriving DecidableEq, Repr

inductive State where
  | start
  | text
  | textEntity
  | tagOpen
  | tag (endTag : Bool) (quote : Byte)
  | bang
  | comment (dashes : Nat)
  | cdata (brackets : Nat)
  | instruction (question : Bool)
deriving DecidableEq, Repr

def maxEntityBytes : Nat := 12

def maxBangBytes : Nat := 8

def maxInstructionBytes : Nat := 256

structure XmlTokenizer where
  part : PartName
  state : State
  tag : List Byte
  maxTagBytes : Nat
  entity : List Byte
  instruction : List Byte
  collect : Bool
  text : List Byte
  textLimit : Nat
  textTotal : Nat
  textTruncated : Bool
  pendingCr : Bool
  haveText : Bool
deriving DecidableEq, Repr

/-! ## Bytes -/

def isSpace (byte : Byte) : Bool :=
  byte == byteOf ' ' || byte == 9 || byte == cr || byte == lf

/-- The part of a qualified name behind its last colon. -/
def localName (qualified : List Byte) : List Byte :=
  (qualified.reverse.takeWhile fun byte => byte != byteOf ':').reverse

def toAsciiLower (byte : Byte) : Byte :=
  if byteOf 'A' ≤ byte ∧ byte ≤ byteOf 'Z' then byte + 32 else byte

def eqIgnoreAsciiCase (bytes bytes' : List Byte) : Bool :=
  bytes.map toAsciiLower == bytes'.map toAsciiLower

/-- What stands behind the first occurrence of the needle. -/
def afterFirst (needle : List Byte) : List Byte → Option (List Byte)
  | [] => none
  | byte :: bytes =>
    if needle.isPrefixOf (byte :: bytes) then some ((byte :: bytes).drop needle.length)
    else afterFirst needle bytes

def toDigit (radix : Nat) (byte : Byte) : Option Nat :=
  let digit :=
    if byteOf '0' ≤ byte ∧ byte ≤ byteOf '9' then byte.toNat - 48
    else if byteOf 'a' ≤ byte ∧ byte ≤ byteOf 'z' then byte.toNat - 87
    else if byteOf 'A' ≤ byte ∧ byte ≤ byteOf 'Z' then byte.toNat - 55
    else radix
  if digit < radix then some digit else none

def decodeReference (radix : Nat) : Nat → List Byte → Except String Nat
  | value, [] => .ok value
  | value, digit :: digits =>
    match toDigit radix digit with
    | none => .error "bad character reference"
    | some digit =>
      if value * radix + digit < 2 ^ 32 then decodeReference radix (value * radix + digit) digits
      else .error "bad character reference"

/-- The character of a number, but for zero and the surrogates. -/
def characterOf (value : Nat) : Except String Char :=
  if value ≠ 0 ∧ value.isValidChar then .ok (Char.ofNat value)
  else .error "bad character reference"

/-- One entity body, between `&` and `;`, as UTF-8. -/
def decodeEntity (body : List Byte) : Except String (List Byte) :=
  if body = bytesOf ['l', 't'] then .ok [byteOf '<']
  else if body = bytesOf ['g', 't'] then .ok [byteOf '>']
  else if body = bytesOf ['a', 'm', 'p'] then .ok [byteOf '&']
  else if body = bytesOf ['q', 'u', 'o', 't'] then .ok [byteOf '"']
  else if body = bytesOf ['a', 'p', 'o', 's'] then .ok [byteOf '\'']
  else match body with
    | [] => .error "undeclared entity reference"
    | first :: digits =>
      if first ≠ byteOf '#' then .error "undeclared entity reference"
      else
        let (digits, radix) := match digits with
          | [] => ([], 10)
          | x :: hex => if x = byteOf 'x' then (hex, 16) else (x :: hex, 10)
        if digits.isEmpty then .error "empty character reference"
        else do
          let value ← decodeReference radix 0 digits
          let character ← characterOf value
          return String.utf8EncodeChar character

/-- The entities of an attribute value decoded. -/
def decodeEntities : Nat → List Byte → Except String (List Byte)
  | 0, _ => .ok []
  | _, [] => .ok []
  | fuel + 1, byte :: bytes =>
    if byte = byteOf '&' then
      let body := bytes.takeWhile fun byte => byte != byteOf ';'
      match bytes.drop body.length with
      | [] => .error "unterminated entity reference"
      | _ :: rest => do
        let decoded ← decodeEntity body
        let rest ← decodeEntities fuel rest
        return decoded ++ rest
    else do
      let rest ← decodeEntities fuel bytes
      return byte :: rest

namespace XmlTokenizer

def new (part : PartName) (maxTagBytes textLimit : Nat) : XmlTokenizer :=
  ⟨part, .start, [], maxTagBytes, [], [], false, [], textLimit, 0, false, false, false⟩

/-- A copy for a checkpoint between two tokens. -/
def checkpoint (xml : XmlTokenizer) : XmlTokenizer :=
  ⟨xml.part, xml.state, [], xml.maxTagBytes, xml.entity, [], false, [], xml.textLimit, 0, false,
    false, false⟩

/-- Text is collected from now on, or no more. -/
def collectText (collect : Bool) (xml : XmlTokenizer) : XmlTokenizer :=
  { xml with
    collect := collect
    text := []
    textTotal := 0
    textTruncated := false
    haveText := false
    pendingCr := false }

def malformed (xml : XmlTokenizer) (reason : String) : XlsxError := .malformedXml xml.part reason

/-! ### The current tag -/

def tagBody (xml : XmlTokenizer) : List Byte :=
  let body := if xml.tag.head? = some (byteOf '/') then xml.tag.tail else xml.tag
  if body.getLast? = some (byteOf '/') then body.dropLast else body

def name (xml : XmlTokenizer) : List Byte :=
  localName (xml.tagBody.takeWhile fun byte => !(isSpace byte || byte == byteOf '/'))

/-- The attributes from a place of the tag on. Each takes at least one byte. -/
def attributeFrom (xml : XmlTokenizer) (name : List Byte) (prefixed : Bool) :
    Nat → List Byte → Except XlsxError (Option (List Byte))
  | 0, _ => .ok none
  | fuel + 1, body =>
    let body := body.dropWhile isSpace
    if body.isEmpty then .ok none
    else
      let qualified := body.takeWhile fun byte => byte != byteOf '=' && !isSpace byte
      match (body.drop qualified.length).dropWhile isSpace with
      | [] => .error (xml.malformed "attribute without a value")
      | equals :: body =>
        if equals ≠ byteOf '=' then .error (xml.malformed "attribute without a value")
        else
          match body.dropWhile isSpace with
          | [] => .error (xml.malformed "attribute without a value")
          | quote :: body =>
            if quote ≠ byteOf '"' ∧ quote ≠ byteOf '\'' then
              .error (xml.malformed "attribute value is not quoted")
            else
              let value := body.takeWhile fun byte => byte != quote
              match body.drop value.length with
              | [] => .error (xml.malformed "attribute value is not closed")
              | _ :: body =>
                if localName qualified = name ∧ qualified.contains (byteOf ':') = prefixed then
                  ((decodeEntities value.length value).mapError xml.malformed).map some
                else attributeFrom xml name prefixed fuel body

/-- The decoded attribute of this local name, with a prefix in front of it or with none. -/
def attributeValue (xml : XmlTokenizer) (name : List Byte) (prefixed : Bool) :
    Except XlsxError (Option (List Byte)) :=
  let body := xml.tagBody.dropWhile fun byte => !isSpace byte
  xml.attributeFrom name prefixed (body.length + 1) body

/-! ### Text -/

def pushText (byte : Byte) (xml : XmlTokenizer) : XmlTokenizer :=
  if !xml.collect then xml
  else if xml.text.length < xml.textLimit then
    { xml with haveText := true, textTotal := xml.textTotal + 1, text := xml.text ++ [byte] }
  else { xml with haveText := true, textTotal := xml.textTotal + 1, textTruncated := true }

def flushCr (xml : XmlTokenizer) : XmlTokenizer :=
  if xml.pendingCr then pushText lf { xml with pendingCr := false } else xml

/-- A line break of any kind becomes one line feed. -/
def pushRawText (byte : Byte) (xml : XmlTokenizer) : XmlTokenizer :=
  if xml.pendingCr && byte == lf then xml.flushCr
  else if byte = cr then { xml.flushCr with pendingCr := true }
  else pushText byte xml.flushCr

def pushInstruction (byte : Byte) (xml : XmlTokenizer) : XmlTokenizer :=
  if xml.instruction.length < maxInstructionBytes then
    { xml with instruction := xml.instruction ++ [byte] }
  else xml

/-! ### One byte -/

/-- An action of the tokenizer. What it has done stays done when it fails. -/
abbrev XmlM := Exec XmlTokenizer XlsxError

def fail {α : Type} (reason : String) : XmlM α := fun xml => (.error (xml.malformed reason), xml)

def update (f : XmlTokenizer → XmlTokenizer) :
    XmlM (Option XmlEvent) := fun xml => (.ok none, f xml)

def pushTag (byte : Byte) : XmlM (Option XmlEvent) := fun xml =>
  if xml.maxTagBytes ≤ xml.tag.length then
    (.error (xml.malformed "a tag is longer than the limit"), xml)
  else (.ok none, { xml with tag := xml.tag ++ [byte] })

def textByte (byte : Byte) : XmlM (Option XmlEvent) := fun xml =>
  if byte = byteOf '<' then
    let xml := xml.flushCr
    let xml := { xml with state := .tagOpen, tag := [] }
    (.ok (if xml.collect && xml.haveText then some .text else none), xml)
  else if byte = byteOf '&' then
    (.ok none, { xml.flushCr with entity := [], state := .textEntity })
  else (.ok none, pushRawText byte xml)

/-- A byte order mark may stand in front. A byte that is none of it is read again as text. -/
def startByte (byte : Byte) : XmlM (Option XmlEvent) := fun xml =>
  if xml.instruction.length < 3 ∧ (byte = 0xef ∨ xml.instruction ≠ []) then
    let xml := { xml with instruction := xml.instruction ++ [byte] }
    if xml.instruction.length = 3 then
      if xml.instruction ≠ [0xef, 0xbb, 0xbf] then
        (.error (xml.malformed "bad byte order mark"), xml)
      else (.ok none, { xml with instruction := [], state := .text })
    else (.ok none, xml)
  else if byte = 0xfe ∨ byte = 0xff ∨ byte = 0 then (.error (.unsupportedEncoding xml.part), xml)
  else textByte byte { xml with state := .text }

def entityByte (byte : Byte) : XmlM (Option XmlEvent) := fun xml =>
  if byte = byteOf ';' then
    match decodeEntity xml.entity with
    | .error reason => (.error (xml.malformed reason), xml)
    | .ok decoded =>
      (.ok none, { decoded.foldl (fun xml value => pushText value xml) xml with state := .text })
  else if maxEntityBytes ≤ xml.entity.length then
    (.error (xml.malformed "an entity reference is too long"), xml)
  else (.ok none, { xml with entity := xml.entity ++ [byte] })

def tagOpenByte (byte : Byte) : XmlM (Option XmlEvent) :=
  if byte = byteOf '/' then
    update fun xml => { xml with tag := xml.tag ++ [byteOf '/'], state := .tag true 0 }
  else if byte = byteOf '!' then
    update fun xml => { xml with instruction := [], state := .bang }
  else if byte = byteOf '?' then
    update fun xml => { xml with instruction := [], state := .instruction false }
  else if isSpace byte || byte == byteOf '>' then fail "a tag has no name"
  else do
    let _ ← pushTag byte
    update fun xml => { xml with state := .tag false 0 }

def tagByte (endTag : Bool) (quote : Byte) (byte : Byte) : XmlM (Option XmlEvent) :=
  if quote ≠ 0 then do
    let _ ← update fun xml => if byte = quote then { xml with state := .tag endTag 0 } else xml
    pushTag byte
  else if byte = byteOf '>' then fun xml =>
    (.ok (some (if endTag then .endTag else .startTag (xml.tag.getLast? == some (byteOf '/')))),
      { xml with state := .text })
  else if byte = byteOf '"' ∨ byte = byteOf '\'' then do
    let _ ← update fun xml => { xml with state := .tag endTag byte }
    pushTag byte
  else if byte = byteOf '<' then fail "'<' inside a tag"
  else pushTag byte

def dashes : List Byte := bytesOf ['-', '-']

def cdataOpen : List Byte := bytesOf ['[', 'C', 'D', 'A', 'T', 'A', '[']

def doctypeOpen : List Byte := bytesOf ['D', 'O', 'C', 'T', 'Y', 'P', 'E']

def bangByte (byte : Byte) : XmlM (Option XmlEvent) := fun xml =>
  let xml := { xml with instruction := xml.instruction ++ [byte] }
  let seen := xml.instruction
  if seen = dashes then (.ok none, { xml with state := .comment 0 })
  else if seen = cdataOpen then (.ok none, { xml with state := .cdata 0 })
  else if eqIgnoreAsciiCase seen doctypeOpen then (.error (.doctype xml.part), xml)
  else if !(seen.isPrefixOf dashes || seen.isPrefixOf cdataOpen ||
      decide (seen.length ≤ doctypeOpen.length) &&
        eqIgnoreAsciiCase (doctypeOpen.take seen.length) seen) ||
      decide (maxBangBytes < seen.length) then
    (.error (xml.malformed "unsupported markup declaration"), xml)
  else (.ok none, xml)

def commentByte (dashes : Nat) (byte : Byte) : XmlM (Option XmlEvent) :=
  update fun xml => { xml with
    state :=
      if byte = byteOf '>' ∧ 2 ≤ dashes then .text
      else if byte = byteOf '-' then .comment (min (dashes + 1) 255)
      else .comment 0 }

def cdataByte (brackets : Nat) (byte : Byte) : XmlM (Option XmlEvent) :=
  update fun xml =>
    if byte = byteOf '>' ∧ 2 ≤ brackets then { xml with state := .text }
    else if byte = byteOf ']' then
      if 2 ≤ brackets then pushRawText (byteOf ']') xml
      else { xml with state := .cdata (brackets + 1) }
    else
      { pushRawText byte (Nat.repeat (pushRawText (byteOf ']')) brackets xml) with
        state := .cdata 0 }

/-- A declaration that names another encoding than UTF-8 is refused. -/
def checkDeclaration (xml : XmlTokenizer) : Except XlsxError Unit :=
  if !(bytesOf ['x', 'm', 'l']).isPrefixOf xml.instruction then .ok ()
  else
    let rest := xml.instruction.drop 3
    if !rest.head?.any isSpace then .ok ()
    else
      match afterFirst (bytesOf ['e', 'n', 'c', 'o', 'd', 'i', 'n', 'g']) rest with
      | none => .ok ()
      | some after =>
        let value := ((after.dropWhile fun byte => isSpace byte || byte == byteOf '=').drop
          1).takeWhile fun byte => byte != byteOf '"' && byte != byteOf '\''
        if eqIgnoreAsciiCase value (bytesOf ['u', 't', 'f', '-', '8']) ||
            eqIgnoreAsciiCase value (bytesOf ['u', 't', 'f', '8']) then .ok ()
        else .error (.unsupportedEncoding xml.part)

def instructionByte (question : Bool) (byte : Byte) : XmlM (Option XmlEvent) := fun xml =>
  if question ∧ byte = byteOf '>' then
    match xml.checkDeclaration with
    | .error error => (.error error, xml)
    | .ok () => (.ok none, { xml with state := .text })
  else
    let xml := if question then pushInstruction (byteOf '?') xml else xml
    if byte = byteOf '?' then (.ok none, { xml with state := .instruction true })
    else (.ok none, { pushInstruction byte xml with state := .instruction false })

/-- One pass of the loop of `feed`. -/
def feedByte (byte : Byte) : XmlM (Option XmlEvent) := fun xml =>
  match xml.state with
  | .start => startByte byte xml
  | .text => textByte byte xml
  | .textEntity => entityByte byte xml
  | .tagOpen => tagOpenByte byte xml
  | .tag endTag quote => tagByte endTag quote byte xml
  | .bang => bangByte byte xml
  | .comment dashes => commentByte dashes byte xml
  | .cdata brackets => cdataByte brackets byte xml
  | .instruction question => instructionByte question byte xml

/-- Input is consumed until a token completes. The number is that of the bytes used. -/
def feed : List Byte → XmlM (Nat × Option XmlEvent)
  | [] => pure (0, none)
  | byte :: input => fun xml =>
    match feedByte byte xml with
    | (.error error, xml) => (.error error, xml)
    | (.ok (some event), xml) => (.ok (1, some event), xml)
    | (.ok none, xml) =>
      match feed input xml with
      | (.error error, xml) => (.error error, xml)
      | (.ok (used, event), xml) => (.ok (used + 1, event), xml)

/-- The input must not end inside a token. -/
def finish (xml : XmlTokenizer) : Except XlsxError Unit :=
  match xml.state with
  | .start | .text => .ok ()
  | _ => .error (xml.malformed "the part ends inside markup")

/-! ## Callers -/

/-- All that a caller can read of an event. -/
structure Seen where
  event : XmlEvent
  name : List Byte
  attributeValue : List Byte → Bool → Except XlsxError (Option (List Byte))
  text : List Byte
  textTotal : Nat
  textTruncated : Bool

def seen (xml : XmlTokenizer) (event : XmlEvent) : Seen :=
  ⟨event, xml.name, xml.attributeValue, xml.text, xml.textTotal, xml.textTruncated⟩

/-- A caller answers what it has seen so far with calls of `collect_text`. -/
abbrev Caller := List Seen → List Bool

/-- The tokenizer, and what its caller has seen. -/
structure Reading where
  xml : XmlTokenizer
  seen : List Seen

def Reading.answer (caller : Caller) (reading : Reading) : Reading :=
  { reading with
    xml := (caller reading.seen).foldl (fun xml collect => xml.collectText collect) reading.xml }

def Reading.meet (caller : Caller) (event : XmlEvent) (reading : Reading) : Reading :=
  Reading.answer caller { reading with seen := reading.seen ++ [reading.xml.seen event] }

/-- Feeds what is left of a chunk until nothing is. A call uses at least one byte. -/
def feedChunk (caller : Caller) : Nat → List Byte → Exec Reading XlsxError Unit
  | 0, _ => pure ()
  | fuel + 1, rest => fun reading =>
    if rest.isEmpty then (.ok (), reading)
    else
      match feed rest reading.xml with
      | (.error error, xml) => (.error error, { reading with xml := xml })
      | (.ok (used, event), xml) =>
        let reading := { reading with xml := xml }
        feedChunk caller fuel (rest.drop used) (event.elim reading (reading.meet caller))

def feedChunks (caller : Caller) : List (List Byte) → Exec Reading XlsxError Unit
  | [] => fun reading => (reading.xml.finish, reading)
  | chunk :: chunks => do
    feedChunk caller chunk.length chunk
    feedChunks caller chunks

/-! ### Chunks do not matter -/

/-- One byte, and what the caller makes of the event it completes. -/
def readByte (caller : Caller) (byte : Byte) : Exec Reading XlsxError Unit := fun reading =>
  match feedByte byte reading.xml with
  | (.error error, xml) => (.error error, { reading with xml := xml })
  | (.ok event, xml) =>
    let reading := { reading with xml := xml }
    (.ok (), event.elim reading (reading.meet caller))

def readBytes (caller : Caller) : List Byte → Exec Reading XlsxError Unit
  | [] => pure ()
  | byte :: bytes => do
    readByte caller byte
    readBytes caller bytes

section Chunks
variable {caller : Caller}

theorem readBytes_append (bytes bytes' : List Byte) (reading : Reading) :
    readBytes caller (bytes ++ bytes') reading =
      (do readBytes caller bytes; readBytes caller bytes') reading := by
  induction bytes generalizing reading with
  | nil => rfl
  | cons byte bytes ih =>
    simp only [List.cons_append, readBytes, Bind.bind]
    rcases readByte caller byte reading with ⟨_ | _, reading'⟩
    · rfl
    · exact ih reading'

/-- The bytes of a call that completes no event are read by the call behind it. -/
theorem feedChunk_none {byte : Byte} {rest : List Byte} {reading : Reading} {xml : XmlTokenizer}
    (h : feedByte byte reading.xml = (.ok none, xml)) (fuel : Nat) :
    feedChunk caller (fuel + 1) (byte :: rest) reading =
      feedChunk caller (fuel + 1) rest { reading with xml := xml } := by
  cases rest with
  | nil =>
    cases fuel <;> simp [feedChunk, feed, h, pure]
  | cons next rest =>
    conv_lhs => unfold feedChunk
    conv_rhs => unfold feedChunk
    simp only [List.isEmpty_cons, Bool.false_eq_true, if_false]
    rw [feed]
    simp only [h]
    rcases feed (next :: rest) xml with ⟨error | ⟨used, event⟩, xml'⟩
    · rfl
    · rfl

theorem feedChunk_eq (rest : List Byte) {fuel : Nat} (hfuel : rest.length ≤ fuel)
    (reading : Reading) : feedChunk caller fuel rest reading = readBytes caller rest reading := by
  induction rest generalizing fuel reading with
  | nil => cases fuel <;> rfl
  | cons byte rest ih =>
    obtain ⟨fuel, rfl⟩ : ∃ f, fuel = f + 1 := ⟨fuel - 1, by rw [List.length_cons] at hfuel; omega⟩
    have hrest : rest.length ≤ fuel := by
      rw [List.length_cons] at hfuel
      omega
    rcases hbyte : feedByte byte reading.xml with ⟨error | event | event, xml⟩
    · simp [feedChunk, feed, readBytes, readByte, hbyte, Bind.bind]
    · rw [feedChunk_none hbyte, ih (by omega)]
      simp [readBytes, readByte, hbyte, Bind.bind]
    · simp only [feedChunk, feed, hbyte, List.isEmpty_cons, Bool.false_eq_true, if_false,
        List.drop_one, List.tail_cons]
      rw [ih hrest]
      simp [readBytes, readByte, hbyte, Bind.bind]

/-- Feeding chunks is reading their bytes one by one. -/
theorem feedChunks_eq (chunks : List (List Byte)) (reading : Reading) :
    feedChunks caller chunks reading =
      (do readBytes caller chunks.flatten; fun reading => (reading.xml.finish, reading))
        reading := by
  induction chunks generalizing reading with
  | nil => rfl
  | cons chunk chunks ih =>
    simp only [feedChunks, List.flatten_cons, Bind.bind, feedChunk_eq chunk (Nat.le_refl _),
      readBytes_append]
    rcases readBytes caller chunk reading with ⟨_ | _, reading'⟩
    · rfl
    · exact ih reading'

end Chunks

/-- Two divisions of one string show a caller the same events, whatever it answers, and come
to the same end. -/
theorem feedChunks_flatten (caller : Caller) (part : PartName) (maxTagBytes textLimit : Nat)
    {chunks chunks' : List (List Byte)} (h : chunks.flatten = chunks'.flatten) :
    feedChunks caller chunks (Reading.answer caller ⟨new part maxTagBytes textLimit, []⟩) =
      feedChunks caller chunks' (Reading.answer caller ⟨new part maxTagBytes textLimit, []⟩) := by
  rw [feedChunks_eq, feedChunks_eq, h]

theorem feedChunks_flatten_entity :
    feedChunks (fun _ => [true]) [bytesOf ['<', 'a', '>', '&', 'l'], bytesOf ['t', ';', '<'], [47],
        bytesOf ['a', '>']] (Reading.answer (fun _ => [true]) ⟨new [] 64 8, []⟩) =
      feedChunks (fun _ => [true]) [bytesOf ['<', 'a', '>', '&', 'l', 't', ';', '<', '/', 'a', '>']]
        (Reading.answer (fun _ => [true]) ⟨new [] 64 8, []⟩) :=
  feedChunks_flatten _ [] 64 8 (by decide)

end XmlTokenizer

end LeanRows.Xlsx
