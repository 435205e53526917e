import LeanRows.Projection

/-!
# Sort keys

The machines that find a column's field in a record, decode its bytes, summarise them in a
fixed-size descriptor and compare two keys. Each of them takes its work from a budget and
can be left and taken up again between any two bytes.
-/

namespace LeanRows.Sort

set_option autoImplicit false

inductive SortMode where
  | text
  | numeric
deriving DecidableEq, Repr

inductive SortDirection where
  | ascending
  | descending
deriving DecidableEq, Repr

structure SortRequest where
  column : Nat
  mode : SortMode
  direction : SortDirection
deriving DecidableEq, Repr

inductive SortError where
  | io (error : IoError)
  | sourceChanged
  | allocation
  | quota
  | cancelled
  | numericRange
  | invalidScratch
  | invalidConfig
  | scan (error : ScanError)
deriving DecidableEq, Repr

/-- Bytes of a key kept in its descriptor (`PREFIX`). -/
def prefixLen : Nat := 32

/-- Bytes a reader asks the source for at a time. -/
def readerBytes : Nat := 4096

structure Descriptor where
  row : Nat
  start : Nat
  stop : Nat
  keyStart : Nat
  keyEnd : Nat
  quoted : Bool
  prefixBytes : Vector Byte prefixLen
  len : Nat
  group : Nat
  sign : Int
  magnitude : Int
  leading : Nat
  digits : Nat
deriving DecidableEq, Repr

instance : Inhabited Descriptor :=
  ⟨⟨0, 0, 0, 0, 0, false, Vector.replicate prefixLen 0, 0, 0, 0, 0, 0, 0⟩⟩

/-- The part of the prefix that holds key bytes. -/
def Descriptor.head (d : Descriptor) : List Byte :=
  d.prefixBytes.toList.take (min d.len prefixLen)

def isAsciiDigit (byte : Byte) : Bool := 48 ≤ byte && byte ≤ 57

def isAsciiWhitespace (byte : Byte) : Bool :=
  byte == 32 || byte == 9 || byte == 10 || byte == 12 || byte == 13

def isExponentMark (byte : Byte) : Bool := byte == 101 || byte == 69

section Source
variable {W : Type} (source : PositionedRead W)

def checkedRead (offset len : Nat) : Exec W SortError (List Byte) := fun w =>
  match source.readAt w offset len with
  | (.error error, w) => (.error (.io error), w)
  | (.ok bytes, w) =>
    if bytes.length = 0 ∨ len < bytes.length then (.error .sourceChanged, w) else (.ok bytes, w)

end Source

/-! ## Finding the field -/

inductive FieldState where
  | start
  | unquoted
  | quoted
  | closed
deriving DecidableEq, Repr

structure Locator where
  descriptor : Descriptor
  cursor : Nat
  fieldStart : Nat
  column : Nat
  target : Nat
  state : FieldState
  delimiter : Option Byte
  quote : Byte

def quoteByte : ViewportFormat → Byte
  | .delimited dialect => dialect.quote
  | .lines => 34

namespace Locator

def new (row : Nat) (span : RecordSpan) (format : ViewportFormat) (target : Nat) : Locator where
  descriptor := { (default : Descriptor) with row := row, start := span.start, stop := span.stop }
  cursor := span.start
  fieldStart := span.start
  column := 0
  target := target
  state := .start
  delimiter := match format with
    | .delimited dialect => some dialect.delimiter
    | .lines => none
  quote := quoteByte format

/-- The loop body: the byte at the cursor. A descriptor comes out when it ends the wanted
field. -/
def readByte (l : Locator) (byte : Byte) : Option Descriptor × Locator :=
  let l' := { l with cursor := l.cursor + 1 }
  match l.delimiter with
  | none => (none, l')
  | some delimiter =>
    if l.state = .start ∧ byte = l.quote then
      (none, { l' with
        state := .quoted
        descriptor := { l.descriptor with
          quoted := l.descriptor.quoted || l.column == l.target } })
    else if l.state = .quoted then
      (none, { l' with state := if byte = l.quote then .closed else .quoted })
    else if l.state = .closed ∧ byte = l.quote then (none, { l' with state := .quoted })
    else if byte = delimiter then
      if l.column = l.target then
        (some { l.descriptor with keyStart := l.fieldStart, keyEnd := l.cursor }, l')
      else
        (none, { l' with
          column := l.column + 1, fieldStart := l.cursor + 1, state := .start })
    else (none, { l' with state := .unquoted })

/-- The inner loop over one read. -/
def readBytes : List Byte → Nat → Locator → Option Descriptor × Nat × Locator
  | [], budget, l => (none, budget, l)
  | byte :: bytes, budget, l =>
    match l.readByte byte with
    | (some d, l) => (some d, budget - 1, l)
    | (none, l) => readBytes bytes (budget - 1) l

/-- A record that ends without a delimiter behind the wanted field, or without the field. -/
def atEnd (l : Locator) : Descriptor :=
  if l.column = l.target then
    { l.descriptor with keyStart := l.fieldStart, keyEnd := l.cursor }
  else { l.descriptor with keyStart := l.cursor, keyEnd := l.cursor }

section Source
variable {W : Type} (source : PositionedRead W)

/-- The outer loop. Each pass takes at least one byte off the budget. -/
def readLoop : Nat → Nat → Locator → Exec W SortError (Option Descriptor × Nat × Locator)
  | 0, budget, l => pure (none, budget, l)
  | fuel + 1, budget, l =>
    if l.cursor < l.descriptor.stop ∧ 0 < budget then do
      let request := min (min budget readerBytes) (l.descriptor.stop - l.cursor)
      let bytes ← checkedRead source l.cursor request
      match l.readBytes bytes budget with
      | (some d, budget, l) => pure (some d, budget, l)
      | (none, budget, l) => readLoop fuel budget l
    else pure (none, budget, l)

def advance (budget : Nat) (l : Locator) :
    Exec W SortError (Option Descriptor × Nat × Locator) := do
  let r ← readLoop source budget budget l
  match r with
  | (some d, budget, l) => pure (some d, budget, l)
  | (none, budget, l) =>
    if l.cursor = l.descriptor.stop then pure (some l.atEnd, budget, l)
    else pure (none, budget, l)

end Source

end Locator

/-! ## Reading its value -/

inductive ByteStep where
  | byte (byte : Byte)
  | atEnd
  | yield
deriving DecidableEq, Repr

/-- `pending` is the part of the read buffer between `pos` and `count`. -/
structure Cursor where
  offset : Nat
  stop : Nat
  pending : List Byte
  quoted : Bool
  closed : Bool
  first : Bool
  quote : Byte

namespace Cursor

def new (d : Descriptor) (quote : Byte) : Cursor :=
  ⟨d.keyStart, d.keyEnd, [], d.quoted, false, true, quote⟩

/-- What a raw byte is: a byte of the value, or a quote around or inside it. -/
def decode (c : Cursor) (byte : Byte) : Option Byte × Cursor :=
  if c.first ∧ c.quoted then (none, { c with first := false })
  else
    let c := { c with first := false }
    if c.quoted then
      if c.closed then
        if byte = c.quote then (some byte, { c with closed := false })
        else (some byte, { c with closed := false, quoted := false })
      else if byte = c.quote then (none, { c with closed := true })
      else (some byte, c)
    else (some byte, c)

section Source
variable {W : Type} (source : PositionedRead W)

/-- The buffer with at least one byte in it, or `none` at the end of the field. -/
def fill (c : Cursor) : Exec W SortError (Option Cursor) :=
  if c.pending.isEmpty then
    if c.offset = c.stop then pure none
    else do
      let bytes ← checkedRead source c.offset (min readerBytes (c.stop - c.offset))
      pure (some { c with pending := bytes })
  else pure (some c)

def next : Nat → Cursor → Exec W SortError (ByteStep × Nat × Cursor)
  | 0, c => pure (.yield, 0, c)
  | budget + 1, c => do
    let filled ← c.fill source
    match filled with
    | none => pure (.atEnd, budget + 1, c)
    | some c =>
      let byte := c.pending.headD 0
      let c := { c with pending := c.pending.tail, offset := c.offset + 1 }
      match c.decode byte with
      | (some value, c) => pure (.byte value, budget, c)
      | (none, c) => next budget c

end Source

end Cursor

/-! ## Recognising numbers -/

/-- The states 0 to 7 of the recogniser. -/
inductive NumberState where
  | blank
  | signed
  | whole
  | fraction
  | marked
  | exponentSigned
  | exponent
  | trailing
deriving DecidableEq, Repr

def i64Max : Nat := 2 ^ 63 - 1

structure Number where
  state : NumberState
  negative : Bool
  expNegative : Bool
  exp : Nat
  expDigits : Nat
  beforeDot : Nat
  digits : Nat
  leading : Nat
  significant : Bool
  invalid : Bool
  expOverflow : Bool
deriving DecidableEq, Repr

namespace Number

def new : Number := ⟨.blank, false, false, 0, 0, 0, 0, 0, false, false, false⟩

def digit (n : Number) (b : Byte) (integer : Bool) : Number :=
  { n with
    digits := n.digits + 1
    beforeDot := if integer then n.beforeDot + 1 else n.beforeDot
    leading := if !n.significant && b == 48 then n.leading + 1 else n.leading
    significant := n.significant || b != 48 }

/-- A value past `i64::MAX`, or past the `u64` it is computed in, is an overflow. -/
def exponent (n : Number) (b : Byte) : Number :=
  let value := n.exp * 10 + (b - 48).toNat
  { n with
    exp := if value ≤ i64Max then value else n.exp
    expOverflow := n.expOverflow || !(value ≤ i64Max)
    expDigits := n.expDigits + 1 }

def push (n : Number) (b : Byte) : Number :=
  if n.invalid then n
  else if isAsciiWhitespace b then
    { n with
      invalid := n.state == .signed || n.state == .marked || n.state == .exponentSigned
      state := if n.state = .blank then .blank else .trailing }
  else
    match n.state with
    | .blank =>
      if b = 43 ∨ b = 45 then { n with negative := b == 45, state := .signed }
      else if b = 46 then { n with state := .fraction }
      else if isAsciiDigit b then ({ n with state := .whole } : Number).digit b true
      else { n with invalid := true }
    | .signed | .whole =>
      if isAsciiDigit b then ({ n with state := .whole } : Number).digit b true
      else if b = 46 then { n with state := .fraction }
      else if isExponentMark b ∧ 0 < n.digits then { n with state := .marked }
      else { n with invalid := true }
    | .fraction =>
      if isAsciiDigit b then n.digit b false
      else if isExponentMark b ∧ 0 < n.digits then { n with state := .marked }
      else { n with invalid := true }
    | .marked =>
      if b = 43 ∨ b = 45 then { n with expNegative := b == 45, state := .exponentSigned }
      else if isAsciiDigit b then ({ n with state := .exponent } : Number).exponent b
      else { n with invalid := true }
    | .exponentSigned | .exponent =>
      if isAsciiDigit b then ({ n with state := .exponent } : Number).exponent b
      else { n with invalid := true }
    | .trailing => { n with invalid := true }

/-- The field is no number, whatever its exponent. -/
def rejected (n : Number) : Bool :=
  n.invalid || n.digits == 0 || n.state == .signed || n.state == .marked ||
    n.state == .exponentSigned || (n.expDigits == 0 && n.state == .exponent)

def finish (n : Number) (d : Descriptor) : Except SortError Descriptor :=
  let d := { d with group := if d.len = 0 ∨ (n.state = .blank ∧ ¬ n.invalid) then 2 else 1 }
  if n.rejected then .ok d
  else if n.expOverflow then .error .numericRange
  else
    let exp : Int := if n.expNegative then -n.exp else n.exp
    .ok { d with
      group := 0
      leading := n.leading
      digits := n.digits
      sign := if !n.significant then 0 else if n.negative then -1 else 1
      magnitude := n.beforeDot - n.leading + exp }

end Number

/-! ## Describing the key -/

structure Builder where
  descriptor : Descriptor
  cursor : Cursor
  number : Number

namespace Builder

def new (d : Descriptor) (quote : Byte) : Builder := ⟨d, .new d quote, .new⟩

def pushByte (b : Builder) (mode : SortMode) (byte : Byte) : Builder :=
  { b with
    descriptor := { b.descriptor with
      prefixBytes :=
        if h : b.descriptor.len < prefixLen then b.descriptor.prefixBytes.set b.descriptor.len byte
        else b.descriptor.prefixBytes
      len := b.descriptor.len + 1 }
    number := if mode = .numeric then b.number.push byte else b.number }

def atEnd (b : Builder) (mode : SortMode) : Except SortError Descriptor :=
  if mode = .numeric then b.number.finish b.descriptor else .ok b.descriptor

section Source
variable {W : Type} (source : PositionedRead W)

/-- The loop. A byte takes at least one off the budget, so one more pass than the budget has
bytes is enough. -/
def readLoop (mode : SortMode) :
    Nat → Nat → Builder → Exec W SortError (Option Descriptor × Nat × Builder)
  | 0, budget, b => pure (none, budget, b)
  | fuel + 1, budget, b => do
    let r ← b.cursor.next source budget
    match r with
    | (.byte byte, budget, cursor) =>
      readLoop mode fuel budget (({ b with cursor := cursor } : Builder).pushByte mode byte)
    | (.atEnd, budget, cursor) => do
      let d ← Exec.ofExcept (b.atEnd mode)
      pure (some d, budget, { b with cursor := cursor })
    | (.yield, budget, cursor) => pure (none, budget, { b with cursor := cursor })

def advance (mode : SortMode) (budget : Nat) (b : Builder) :
    Exec W SortError (Option Descriptor × Nat × Builder) :=
  readLoop source mode (budget + 1) budget b

end Source

end Builder

/-! ## Comparing two keys -/

/-- The significant digits of a number, read again from the source. -/
structure Digits where
  cursor : Cursor
  skip : Nat
  ended : Bool

namespace Digits

def new (d : Descriptor) (quote : Byte) : Digits := ⟨.new d quote, d.leading, false⟩

section Source
variable {W : Type} (source : PositionedRead W)

def readLoop : Nat → Nat → Digits → Exec W SortError (ByteStep × Nat × Digits)
  | 0, budget, d => pure (.yield, budget, d)
  | fuel + 1, budget, d => do
    let r ← d.cursor.next source budget
    match r with
    | (.byte byte, budget, cursor) =>
      if isExponentMark byte then pure (.atEnd, budget, { d with cursor := cursor, ended := true })
      else if isAsciiDigit byte then
        if 0 < d.skip then
          readLoop fuel budget { d with cursor := cursor, skip := d.skip - 1 }
        else pure (.byte byte, budget, { d with cursor := cursor })
      else readLoop fuel budget { d with cursor := cursor }
    | (.atEnd, budget, cursor) =>
      pure (.atEnd, budget, { d with cursor := cursor, ended := true })
    | (.yield, budget, cursor) => pure (.yield, budget, { d with cursor := cursor })

def next (budget : Nat) (d : Digits) : Exec W SortError (ByteStep × Nat × Digits) :=
  if d.ended then pure (.atEnd, budget, d) else readLoop source (budget + 1) budget d

end Source

end Digits

/-- Digits compared one by one, the shorter string continued with zeros. -/
def compareDigits : List Byte → List Byte → Ordering
  | [], bs => (bs.map (compare 48)).foldr Ordering.then .eq
  | a :: as, [] => (compare a 48).then (compareDigits as [])
  | a :: as, b :: bs => (compare a b).then (compareDigits as bs)

/-- The digits in front of an exponent, without the first `leading` of them. -/
def significantDigits (leading : Nat) (bytes : List Byte) : List Byte :=
  ((bytes.takeWhile fun byte => !isExponentMark byte).filter isAsciiDigit).drop leading

def shortNumberOrder (a b : Descriptor) : Ordering :=
  compareDigits (significantDigits a.leading (a.prefixBytes.toList.take a.len))
    (significantDigits b.leading (b.prefixBytes.toList.take b.len))

/-- Applies the direction; equal keys keep source order in both directions (`finish`). -/
def finishOrder (request : SortRequest) (a b : Descriptor) (value : Ordering) : Ordering :=
  (if request.direction = .descending then value.swap else value).then (compare a.row b.row)

/-- `decide`: orders two keys from their descriptors alone, if these are enough. -/
def decideOrder (a b : Descriptor) (request : SortRequest) : Option Ordering :=
  if request.mode = .numeric ∧ compare a.group b.group ≠ .eq then some (compare a.group b.group)
  else if request.mode = .numeric ∧ a.group = 2 then some (compare a.row b.row)
  else if request.mode = .numeric ∧ a.group = 0 then
    if compare a.sign b.sign ≠ .eq then some (finishOrder request a b (compare a.sign b.sign))
    else if a.sign = 0 then some (compare a.row b.row)
    else if compare a.magnitude b.magnitude ≠ .eq then
      some (finishOrder request a b (if a.sign < 0 then (compare a.magnitude b.magnitude).swap
        else compare a.magnitude b.magnitude))
    else if a.len ≤ prefixLen ∧ b.len ≤ prefixLen then
      some (finishOrder request a b
        (if a.sign < 0 then (shortNumberOrder a b).swap else shortNumberOrder a b))
    else none
  else if compare a.head b.head ≠ .eq then
    some (finishOrder request a b (compare a.head b.head))
  else if a.len ≤ prefixLen ∧ b.len ≤ prefixLen then some (compare a.row b.row)
  else none

/-- A comparison that can be left between any two bytes. `left` is the left key's next byte
once it has been read: `some none` is the end of the key. -/
structure Comparison where
  a : Descriptor
  b : Descriptor
  request : SortRequest
  ca : Cursor
  cb : Cursor
  da : Digits
  db : Digits
  numeric : Bool
  first : Bool
  left : Option (Option Byte)

namespace Comparison

def new (a b : Descriptor) (request : SortRequest) (quote : Byte) : Comparison :=
  ⟨a, b, request, .new a quote, .new b quote, .new a quote, .new b quote,
    request.mode = .numeric ∧ a.group = 0 ∧ b.group = 0, true, none⟩

/-- The order two bytes decide, if they differ. -/
def orderOf (c : Comparison) (left right : Option Byte) : Option Ordering :=
  if left.isNone ∧ right.isNone then some (compare c.a.row c.b.row)
  else
    let value := if c.numeric then compare (left.getD 48) (right.getD 48) else compare left right
    if value ≠ .eq then
      some (finishOrder c.request c.a c.b
        (if c.numeric ∧ c.a.sign < 0 then value.swap else value))
    else none

section Source
variable {W : Type} (source : PositionedRead W)

def nextLeft (budget : Nat) (c : Comparison) : Exec W SortError (ByteStep × Nat × Comparison) :=
  if c.numeric then do
    let r ← c.da.next source budget
    pure (r.1, r.2.1, { c with da := r.2.2 })
  else do
    let r ← c.ca.next source budget
    pure (r.1, r.2.1, { c with ca := r.2.2 })

def nextRight (budget : Nat) (c : Comparison) : Exec W SortError (ByteStep × Nat × Comparison) :=
  if c.numeric then do
    let r ← c.db.next source budget
    pure (r.1, r.2.1, { c with db := r.2.2 })
  else do
    let r ← c.cb.next source budget
    pure (r.1, r.2.1, { c with cb := r.2.2 })

/-- The left byte: the one kept from before a yield, or the next one. `none` is a yield. -/
def takeLeft (budget : Nat) (c : Comparison) :
    Exec W SortError (Option (Option Byte) × Nat × Comparison) :=
  match c.left with
  | some left => pure (some left, budget, c)
  | none => do
    let r ← nextLeft source budget c
    match r with
    | (.yield, budget, c) => pure (none, budget, c)
    | (.byte byte, budget, c) => pure (some (some byte), budget,
        { c with left := some (some byte) })
    | (.atEnd, budget, c) => pure (some none, budget, { c with left := some none })

/-- The loop over byte pairs. A pair that decides nothing takes at least one byte off the
budget, unless its left byte was read before a yield. -/
def readLoop : Nat → Nat → Comparison → Exec W SortError (Option Ordering × Nat × Comparison)
  | 0, budget, c => pure (none, budget, c)
  | fuel + 1, budget, c => do
    let l ← takeLeft source budget c
    match l with
    | (none, budget, c) => pure (none, budget, c)
    | (some left, budget, c) => do
      let r ← nextRight source budget c
      match r with
      | (.yield, budget, c) => pure (none, budget, c)
      | (.byte byte, budget, c) =>
        match c.orderOf left (some byte) with
        | some order => pure (some order, budget, { c with left := none })
        | none => readLoop fuel budget { c with left := none }
      | (.atEnd, budget, c) =>
        match c.orderOf left none with
        | some order => pure (some order, budget, { c with left := none })
        | none => readLoop fuel budget { c with left := none }

def advance (budget : Nat) (c : Comparison) :
    Exec W SortError (Option Ordering × Nat × Comparison) :=
  match if c.first then decideOrder c.a c.b c.request else none with
  | some order => pure (some order, budget, { c with first := false })
  | none => readLoop source (budget + 2) budget { c with first := false }

end Source

end Comparison

end LeanRows.Sort
