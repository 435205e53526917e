import LeanRows.Lib.ByteFile
import LeanRows.Projection
import LeanRows.Xlsx.Xml

/-!
# The archive of a workbook

The central directory is read once; an entry is then streamed through a window that is also
the memory of the decompressor. The decompressor is code of another package and comes as a
parameter that keeps the bounds of its contract. An action keeps what it has done when it
fails, as the source does.
-/

namespace LeanRows.Xlsx

set_option autoImplicit false

def localHeaderSignature : Nat := 0x04034b50

def centralHeaderSignature : Nat := 0x02014b50

def endSignature : Nat := 0x06054b50

def zip64LocatorSignature : Nat := 0x07064b50

def oleSignature : List Byte := [0xd0, 0xcf, 0x11, 0xe0, 0xa1, 0xb1, 0x1a, 0xe1]

def endRecordBytes : Nat := 22

def maxCommentBytes : Nat := 0xffff

def localHeaderBytes : Nat := 30

def centralHeaderBytes : Nat := 46

def maxNameBytes : Nat := 1024

def windowBytes : Nat := 32 * 1024

def inputBytes : Nat := 16 * 1024

def methodStored : Nat := 0

def methodDeflate : Nat := 8

def u32Max : Nat := 2 ^ 32 - 1

structure XlsxLimits where
  maxZipEntries : Nat
  maxCentralDirectoryBytes : Nat
  maxEntryBytes : Nat
  maxCompressionRatio : Nat
  ratioCheckAfterBytes : Nat
  maxSharedStringBytes : Nat
  maxSharedStrings : Nat
  maxTagBytes : Nat
  maxCellBytes : Nat

def mib : Nat := 1024 * 1024

def XlsxLimits.standard : XlsxLimits :=
  ⟨10000, 4 * 1024 * 1024, 1024 * mib, 200, mib, 256 * mib, 16777216, 64 * 1024, 1024⟩

structure ZipEntry where
  name : PartName
  method : Nat
  crc32 : Nat
  compressed : Nat
  uncompressed : Nat
  localHeader : Nat
deriving DecidableEq, Repr

structure ZipDirectory where
  entries : List ZipEntry
  centralDirectory : Nat
deriving DecidableEq, Repr

/-- A little-endian number of this width; zero where the bytes end too early. -/
def numberAt (width : Nat) (bytes : List Byte) (offset : Nat) : Nat :=
  let field := ByteFile.readAt bytes offset width
  if field.length = width then ByteFile.leNat field else 0

def u16At : List Byte → Nat → Nat := numberAt 2

def u32At : List Byte → Nat → Nat := numberAt 4

section Read
variable {W : Type} (source : PositionedRead W)

/-- The loop of `read_exact`. Every pass that goes on takes at least one byte. -/
def readExactLoop (offset count : Nat) : Nat → List Byte → Exec W XlsxError (List Byte)
  | 0, filled => pure filled
  | fuel + 1, filled =>
    if filled.length < count then
      match checkedAdd offset filled.length with
      | none => .throw (.malformedZip "offset overflow")
      | some position => fun w =>
        match source.readAt w position (count - filled.length) with
        | (.error error, w) => (.error (.io error), w)
        | (.ok bytes, w) =>
          if bytes.isEmpty then (.error .truncated, w)
          else if count - filled.length < bytes.length then
            (.error (.malformedZip "source returned too many bytes"), w)
          else readExactLoop offset count fuel (filled ++ bytes) w
    else pure filled

def readExact (offset count : Nat) : Exec W XlsxError (List Byte) :=
  readExactLoop source offset count count []

/-! ## The central directory -/

def isEndAt (tail : List Byte) (position : Nat) : Bool :=
  u32At tail position == endSignature &&
    position + endRecordBytes + u16At tail (position + 20) == tail.length

/-- The last place where an end record fits its comment. -/
def findEnd (tail : List Byte) : Nat → Option Nat
  | 0 => if isEndAt tail 0 then some 0 else none
  | position + 1 =>
    if isEndAt tail (position + 1) then some (position + 1) else findEnd tail position

/-- The records of the directory. What follows a record starts behind its comment. -/
def readEntries : Nat → List Byte → List ZipEntry → Except XlsxError (List ZipEntry)
  | 0, _, entries => .ok entries
  | count + 1, directory, entries =>
    let header := directory.take centralHeaderBytes
    if header.length < centralHeaderBytes then
      .error (.malformedZip "central directory record is cut short")
    else if u32At header 0 ≠ centralHeaderSignature then
      .error (.malformedZip "bad central directory signature")
    else
      let flags := u16At header 8
      let method := u16At header 10
      let crc32 := u32At header 16
      let compressed := u32At header 20
      let uncompressed := u32At header 24
      let nameLength := u16At header 28
      let extraLength := u16At header 30
      let commentLength := u16At header 32
      let localHeader := u32At header 42
      let name := (directory.drop centralHeaderBytes).take nameLength
      if name.length < nameLength then .error (.malformedZip "entry name is cut short")
      else if maxNameBytes < nameLength then .error (.malformedZip "entry name is too long")
      else if !(fromUtf8 [] name).isOk then .error (.malformedZip "entry name is not UTF-8")
      else if compressed = u32Max ∨ uncompressed = u32Max ∨ localHeader = u32Max then
        .error .zip64Unsupported
      else if flags % 2 ≠ 0 then .error (.encryptedEntry name)
      else if entries.any fun entry => eqIgnoreAsciiCase entry.name name then
        .error (.duplicateEntry name)
      else
        readEntries count
          (directory.drop (centralHeaderBytes + nameLength + extraLength + commentLength))
          (entries ++ [⟨name, method, crc32, compressed, uncompressed, localHeader⟩])

def ZipDirectory.read (limits : XlsxLimits) : Exec W XlsxError ZipDirectory := do
  let fingerprint ← source.capture XlsxError.io
  let size := fingerprint.size
  let magic ← readExact source 0 (min size 8)
  if magic = oleSignature then .throw .legacyOrEncrypted
  else if u32At (magic ++ List.replicate (8 - magic.length) 0) 0 ≠ localHeaderSignature then
    .throw .notZip
  else if size < endRecordBytes then .throw .truncated
  else do
    let tailLength := min size (endRecordBytes + maxCommentBytes)
    let tailStart := size - tailLength
    let tail ← readExact source tailStart tailLength
    match findEnd tail (tail.length - endRecordBytes) with
    | none => .throw .truncated
    | some position =>
      if 20 ≤ position ∧ u32At tail (position - 20) = zip64LocatorSignature then
        .throw .zip64Unsupported
      else
        let disk := u16At tail (position + 4)
        let directoryDisk := u16At tail (position + 6)
        let diskEntries := u16At tail (position + 8)
        let totalEntries := u16At tail (position + 10)
        let directorySize := u32At tail (position + 12)
        let directoryOffset := u32At tail (position + 16)
        if totalEntries = 0xffff ∨ directorySize = u32Max ∨ directoryOffset = u32Max then
          .throw .zip64Unsupported
        else if disk ≠ 0 ∨ directoryDisk ≠ 0 ∨ diskEntries ≠ totalEntries then
          .throw (.malformedZip "multi-disk archives are not supported")
        else if limits.maxZipEntries < totalEntries then
          .throw (.tooManyEntries limits.maxZipEntries)
        else if tailStart + position < directoryOffset + directorySize then .throw .truncated
        else if limits.maxCentralDirectoryBytes < directorySize then
          .throw (.malformedZip "central directory exceeds its limit")
        else do
          let directory ← readExact source directoryOffset directorySize
          let entries ← Exec.ofExcept (readEntries totalEntries directory [])
          pure ⟨entries, directoryOffset⟩

/-- Part names are compared without regard to case. -/
def ZipDirectory.find (directory : ZipDirectory) (name : PartName) : Option ZipEntry :=
  directory.entries.find? fun entry => eqIgnoreAsciiCase entry.name name

def ratioExceeded (produced consumed maxRatio after : Nat) : Bool :=
  decide (after < produced) && decide (min (consumed * maxRatio) (u64Bound - 1) < produced)

end Read

/-! ## Checksums -/

/-- One entry of `CRC_TABLE`: eight rounds. -/
def crcRound (value : UInt32) : UInt32 :=
  if value &&& 1 == 1 then (0xedb88320 : UInt32) ^^^ (value >>> 1) else value >>> 1

def crcTable (index : UInt32) : UInt32 := Nat.repeat crcRound 8 index

structure Crc32 where
  value : UInt32
deriving DecidableEq, Repr

namespace Crc32

def new : Crc32 := ⟨0xffffffff⟩

def update (crc : Crc32) (bytes : List Byte) : Crc32 :=
  ⟨bytes.foldl (fun value byte =>
    crcTable ((value ^^^ byte.toUInt32) &&& 0xff) ^^^ (value >>> 8)) crc.value⟩

def finish (crc : Crc32) : Nat := (~~~crc.value).toNat

end Crc32

/-! ## Streams -/

inductive TinflStatus where
  | done
  | hasMoreOutput
  | needsMoreInput
  | failed
deriving DecidableEq, Repr

/-- The decompressor: what it makes of the input, with the window and the place in it where
output goes, and whether more input follows. It reads what it is given and writes where there
is room. -/
structure Decompressor (D : Type) where
  init : D
  decompress : D → List Byte → List Byte → Nat → Bool → TinflStatus × Nat × List Byte × D
  read_le : ∀ d input window position more,
    (decompress d input window position more).2.1 ≤ input.length
  written_le : ∀ d input window position more, position ≤ window.length →
    position + (decompress d input window position more).2.2.1.length ≤ window.length

/-- `input` is the part of the input buffer that is filled. -/
structure EntryStream (D : Type) where
  name : PartName
  method : Nat
  dataOffset : Nat
  compressed : Nat
  declared : Nat
  expectedCrc : Nat
  maxEntryBytes : Nat
  maxRatio : Nat
  ratioAfter : Nat
  inflater : D
  window : List Byte
  readPosition : Nat
  writeEnd : Nat
  input : List Byte
  inputPosition : Nat
  consumed : Nat
  produced : Nat
  crc : Crc32
  done : Bool

namespace EntryStream

variable {D W : Type}

def new (tools : Decompressor D) (entry : ZipEntry) (dataOffset : Nat) (limits : XlsxLimits) :
    EntryStream D :=
  ⟨entry.name, entry.method, dataOffset, entry.compressed, entry.uncompressed, entry.crc32,
    limits.maxEntryBytes, limits.maxCompressionRatio, limits.ratioCheckAfterBytes, tools.init,
    List.replicate windowBytes 0, 0, 0, [], 0, 0, 0, .new, false⟩

/-- The bytes that are decompressed and not yet consumed. -/
def available (stream : EntryStream D) : List Byte :=
  ByteFile.readAt stream.window stream.readPosition (stream.writeEnd - stream.readPosition)

def consume (count : Nat) (stream : EntryStream D) : EntryStream D :=
  { stream with readPosition := min (stream.readPosition + count) stream.writeEnd }

/-- A copy without the input buffer, which is filled again when the copy resumes. -/
def checkpoint (stream : EntryStream D) : EntryStream D :=
  { stream with input := [], inputPosition := 0 }

/-- An action of a stream on its source. -/
abbrev StreamM (D W : Type) := Exec (EntryStream D × W) XlsxError

def finish : StreamM D W Unit := do
  Exec.modify fun stream => { stream with done := true }
  let stream ← Exec.get
  if stream.produced ≠ stream.declared then .throw (.sizeMismatch stream.name)
  else if stream.crc.finish ≠ stream.expectedCrc then .throw (.checksumMismatch stream.name)
  else pure ()

/-- Output that has been written into the window. -/
def acceptOutput (start count : Nat) : StreamM D W Unit := do
  Exec.modify fun stream => { stream with
    crc := stream.crc.update (ByteFile.readAt stream.window start count)
    readPosition := start
    writeEnd := start + count
    produced := stream.produced + count }
  let stream ← Exec.get
  if stream.declared < stream.produced ∨ stream.maxEntryBytes < stream.produced then
    .throw (.sizeMismatch stream.name)
  else if ratioExceeded stream.produced stream.consumed stream.maxRatio stream.ratioAfter then
    .throw (.compressionRatio stream.name stream.maxRatio)
  else pure ()

section Fill
variable (tools : Decompressor D) (source : PositionedRead W)

def fillStored (outPosition : Nat) : StreamM D W Bool := do
  let stream ← Exec.get
  let count := min (stream.compressed - stream.consumed) (windowBytes - outPosition)
  if count = 0 then do
    finish
    pure false
  else do
    let bytes ← Exec.inner (readExact source (stream.dataOffset + stream.consumed) count)
    Exec.modify fun stream => { stream with
      window := ByteFile.writeAt stream.window outPosition bytes
      consumed := stream.consumed + count }
    acceptOutput outPosition count
    let stream ← Exec.get
    if stream.consumed = stream.compressed then do
      finish
      pure true
    else pure true

def refillInput : StreamM D W Unit := do
  let stream ← Exec.get
  let count := min (stream.compressed - stream.consumed) inputBytes
  let bytes ← Exec.inner (readExact source (stream.dataOffset + stream.consumed) count)
  Exec.modify fun stream => { stream with input := bytes, inputPosition := 0 }

def refillIfEmpty : StreamM D W Unit := do
  let stream ← Exec.get
  if stream.inputPosition = stream.input.length then refillInput source else pure ()

/-- What an answer of the decompressor means once its output is accepted. `none` goes on. -/
def judge (status : TinflStatus) (read written : Nat) (moreInput : Bool) :
    StreamM D W (Option Bool) := do
  let stream ← Exec.get
  match status with
  | .done => do
    finish
    pure (some (decide (0 < written)))
  | .hasMoreOutput =>
    if 0 < written then pure (some true) else .throw (.corruptData stream.name)
  | .needsMoreInput =>
    if 0 < written then pure (some true)
    else if stream.inputPosition < stream.input.length ∧ read = 0 then
      .throw (.corruptData stream.name)
    else if !moreInput ∧ stream.inputPosition = stream.input.length then .throw .truncated
    else pure none
  | .failed => .throw (.corruptData stream.name)

/-- One call of the decompressor on the input there is. -/
def inflate (outPosition : Nat) : StreamM D W (Option Bool) := do
  let stream ← Exec.get
  let moreInput := decide
    (stream.consumed + (stream.input.length - stream.inputPosition) < stream.compressed)
  let answer := tools.decompress stream.inflater (stream.input.drop stream.inputPosition)
    stream.window outPosition moreInput
  let written := answer.2.2.1
  Exec.modify fun stream => { stream with
    inflater := answer.2.2.2
    inputPosition := stream.inputPosition + answer.2.1
    consumed := stream.consumed + answer.2.1
    window := ByteFile.writeAt stream.window outPosition written }
  if 0 < written.length then acceptOutput outPosition written.length else pure ()
  judge answer.1 answer.2.1 written.length moreInput

/-- The loop of `fill`, for at most so many passes. -/
def inflatePasses (outPosition : Nat) : Nat → StreamM D W (Option Bool)
  | 0 => pure none
  | passes + 1 => do
    refillIfEmpty source
    match ← inflate tools outPosition with
    | some more => pure (some more)
    | none => inflatePasses outPosition passes

/-- As many passes as there is input left are enough; see `inflatePasses_ends`. -/
def fillDeflated (outPosition : Nat) : StreamM D W Bool := do
  let stream ← Exec.get
  match ← inflatePasses tools source outPosition (stream.compressed - stream.consumed + 1) with
  | some more => pure more
  | none => .throw (.corruptData stream.name)

/-- More bytes once the available ones are consumed; `false` at the end of the entry. -/
def fill : StreamM D W Bool := do
  let stream ← Exec.get
  if stream.readPosition < stream.writeEnd then pure true
  else if stream.done then pure false
  else if stream.method = methodStored then fillStored source (stream.writeEnd % windowBytes)
  else fillDeflated tools source (stream.writeEnd % windowBytes)

end Fill

end EntryStream

/-- Opens one entry for streaming; the declared sizes are checked first. -/
def ZipDirectory.openEntry {D W : Type} (tools : Decompressor D) (source : PositionedRead W)
    (directory : ZipDirectory) (entry : ZipEntry) (limits : XlsxLimits) :
    Exec W XlsxError (EntryStream D) :=
  if entry.method ≠ methodStored ∧ entry.method ≠ methodDeflate then
    .throw (.unsupportedCompression entry.name entry.method)
  else if limits.maxEntryBytes < entry.uncompressed then
    .throw (.entryTooLarge entry.name limits.maxEntryBytes)
  else if ratioExceeded entry.uncompressed entry.compressed limits.maxCompressionRatio
      limits.ratioCheckAfterBytes then
    .throw (.compressionRatio entry.name limits.maxCompressionRatio)
  else if entry.method = methodStored ∧ entry.compressed ≠ entry.uncompressed then
    .throw (.malformedZip "stored entry sizes differ")
  else do
    let header ← readExact source entry.localHeader localHeaderBytes
    if u32At header 0 ≠ localHeaderSignature then
      .throw (.malformedZip "bad local header signature")
    else
      let nameLength := u16At header 26
      let extraLength := u16At header 28
      if nameLength ≠ entry.name.length then
        .throw (.malformedZip "local and central entry names differ")
      else do
        let name ← readExact source (entry.localHeader + localHeaderBytes) nameLength
        if !eqIgnoreAsciiCase name entry.name then
          .throw (.malformedZip "local and central entry names differ")
        else
          let data := entry.localHeader + localHeaderBytes + nameLength + extraLength
          if directory.centralDirectory < data + entry.compressed then .throw .truncated
          else pure (.new tools entry data limits)

end LeanRows.Xlsx
