import LeanRows.Query.Scratch

/-!
# The cache directory of queries

Each worker keeps an active marker open in the directory of the query cache while it may have
files of hits there. A worker that starts and finds no marker open removes the files of hits
that are left. A process can end between any two actions on the directory.
-/

namespace LeanRows.QueryCache

set_option autoImplicit false

/-! ## Names -/

abbrev FileName := List Char

def isHexDigit (c : Char) : Bool := ('0' ≤ c && c ≤ '9') || ('a' ≤ c && c ≤ 'f')

/-- What stands between `front` and `back`. -/
def inside (front back name : FileName) : Option FileName :=
  if front.isPrefixOf name ∧ back.isSuffixOf (name.drop front.length) then
    some ((name.drop front.length).take (name.length - front.length - back.length))
  else none

def encodedOwner (front back name : FileName) : Option FileName :=
  (inside front back name).filter fun encoded => encoded.length == 32 && encoded.all isHexDigit

def activeMarkerPrefix : FileName := ['.', 'a', 'c', 't', 'i', 'v', 'e', '-', 'v', '1', '-']

def activeMarkerSuffix : FileName := ['.', 'l', 'o', 'c', 'k']

def scratchNamePrefix : FileName :=
  ['l', 'e', 'a', 'n', 'r', 'o', 'w', 's', '-', 'q', 'u', 'e', 'r', 'y', '-', 'v', '1', '-']

def scratchNameSuffix : FileName := ['.', 'h', 'i', 't', 's']

def isQueryActiveMarkerName (name : FileName) : Bool :=
  (encodedOwner activeMarkerPrefix activeMarkerSuffix name).isSome

def hexValue (c : Char) : Nat := if c ≤ '9' then c.toNat - '0'.toNat else c.toNat - 'a'.toNat + 10

def decodeHex : List Char → List Byte
  | high :: low :: rest => UInt8.ofNat (hexValue high * 16 + hexValue low) :: decodeHex rest
  | _ => []

def parseOwnerFromName (name : FileName) : Option (List Byte) :=
  (encodedOwner scratchNamePrefix scratchNameSuffix name).map decodeHex

def hexDigits : List Char :=
  ['0', '1', '2', '3', '4', '5', '6', '7', '8', '9', 'a', 'b', 'c', 'd', 'e', 'f']

def hexDigit (value : Nat) : Char := hexDigits.getD value '0'

def encodeOwner (owner : List Byte) : List Char :=
  owner.flatMap fun byte => [hexDigit (byte.toNat / 16), hexDigit (byte.toNat % 16)]

def scratchFileName (owner : List Byte) : FileName :=
  scratchNamePrefix ++ encodeOwner owner ++ scratchNameSuffix

/-! ## The directory -/

abbrev WorkerId := Nat

/-- A file of the directory. `plain` is false of a directory or a link. `handle` is the handle
that shares the file with no other; files of hits are open to all. -/
structure File where
  plain : Bool
  creator : Option WorkerId
  handle : Option WorkerId
  bytes : List Byte
deriving DecidableEq, Repr

def File.isRecoverable (owner : List Byte) (file : File) : Bool :=
  file.plain && file.bytes.take queryScratchHeaderBytes == scratchHeader owner &&
    decide (queryScratchHeaderBytes ≤ file.bytes.length) &&
    (file.bytes.length - queryScratchHeaderBytes) % queryHitEntryBytes == 0

/-- `lock` has the startup lock open. -/
structure Directory where
  files : FileName → Option File
  lock : Option WorkerId

namespace Directory

def put (name : FileName) (file : File) (directory : Directory) : Directory :=
  { directory with files := Function.update directory.files name (some file) }

def remove (name : FileName) (directory : Directory) : Directory :=
  { directory with files := Function.update directory.files name none }

/-- A file is changed, if it is there. -/
def modify (name : FileName) (f : File → File) (directory : Directory) : Directory where
  files := Function.update directory.files name ((directory.files name).map f)
  lock := directory.lock

/-- The worker closes the handle it has of a file. -/
def close (worker : WorkerId) (name : FileName) (directory : Directory) : Directory :=
  directory.modify name fun file =>
    if file.handle = some worker then { file with handle := none } else file

/-- `fs::remove_file` of a marker. A file that is open without sharing is not removed. -/
def unlink (name : FileName) (directory : Directory) : Option Directory :=
  match directory.files name with
  | none => some directory
  | some file => if file.handle = none then some (directory.remove name) else none

end Directory

/-! ## Workers -/

/-- Where a worker stands. `due` is what an enumeration of the directory has still to come to,
`live` that another marker is open. -/
inductive Phase where
  | new
  | retiring (due : List FileName) (live : Bool)
  | opening (name : FileName) (due : List FileName) (live : Bool)
  | holding (name : FileName) (due : List FileName) (live : Bool)
  | removing (name : FileName) (due : List FileName) (live : Bool)
  | unlinking (name : FileName) (due : List FileName) (live : Bool)
  | creating (live : Bool)
  | checking (own : FileName) (live : Bool)
  | recovering (own : FileName) (due : List FileName)
  | deleting (own name : FileName) (due : List FileName)
  | unlocking (own : FileName)
  | running (own : FileName) (sessions : List FileName)
  | dropping (own name : FileName) (sessions : List FileName)
  | withdrawing (own : FileName)
  | withdrawn (own : FileName)
  | leaving
  | gone
  | crashed

/-- What a running worker does in the directory. -/
inductive Call where
  | create (owner : List Byte)
  | write (name : FileName) (bytes : List Byte)
  | drop (name : FileName)
  | stop

/-- What is not for the worker to decide: the name an enumeration comes to or a marker gets, the
names a new enumeration will come to, what the worker is used for, and whether a file is removed. -/
structure Choice where
  name : Option FileName
  listing : List FileName
  call : Call
  removes : Bool

section Act
variable (worker : WorkerId) (choice : Choice) (directory : Directory)

/-- An entry is looked at: one that is no marker is left alone. -/
def visitMarker (name : FileName) (due : List FileName) (live : Bool) : Phase :=
  if isQueryActiveMarkerName name then
    match directory.files name with
    | none => .retiring due live
    | some file => if file.plain then .opening name due live else .retiring due true
  else .retiring due live

def openMarker (name : FileName) (due : List FileName) (live : Bool) : Phase × Directory :=
  match directory.files name with
  | none => (.retiring due live, directory)
  | some file =>
    match file.handle with
    | none => (.holding name due live, directory.put name { file with handle := some worker })
    | some _ => (.retiring due true, directory)

/-- `remove_owned_active_marker` up to the removal. -/
def statMarker (name : FileName) (absent found refused : Phase) : Phase :=
  match directory.files name with
  | none => absent
  | some file => if file.plain then found else refused

def createMarker (live : Bool) : Phase × Directory :=
  match choice.name with
  | none => (.leaving, directory)
  | some name =>
    if isQueryActiveMarkerName name ∧ directory.files name = none then
      (.checking name live, directory.put name ⟨true, some worker, some worker, []⟩)
    else (.creating live, directory)

/-- An entry of a recovery. One that is gone meanwhile ends it. -/
def examine (own name : FileName) (due : List FileName) : Phase × Directory :=
  match parseOwnerFromName name with
  | none => (.recovering own due, directory)
  | some owner =>
    match directory.files name with
    | none => (.withdrawing own, directory.close worker own)
    | some file =>
      if file.isRecoverable owner then (.deleting own name due, directory)
      else (.recovering own due, directory)

def serve (own : FileName) (sessions : List FileName) : Call → Phase × Directory
  | .create owner =>
    if owner.length = 16 ∧ directory.files (scratchFileName owner) = none then
      (.running own (scratchFileName owner :: sessions),
        directory.put (scratchFileName owner) ⟨true, some worker, none, []⟩)
    else (.running own sessions, directory)
  | .write name bytes =>
    if name ∈ sessions then
      (.running own sessions, directory.modify name fun file => { file with bytes := bytes })
    else (.running own sessions, directory)
  | .drop name =>
    if name ∈ sessions then (.dropping own name (sessions.filter (· ≠ name)), directory)
    else (.running own sessions, directory)
  | .stop =>
    if sessions = [] then (.withdrawing own, directory.close worker own)
    else (.running own sessions, directory)

def unlock : Directory :=
  if directory.lock = some worker then { directory with lock := none } else directory

/-- One action of a worker on the directory, from its start to its end. -/
def act : Phase → Phase × Directory
  | .new =>
    if directory.lock = none then
      (.retiring choice.listing false, { directory with lock := some worker })
    else (.gone, directory)
  | .retiring due live =>
    match choice.name with
    | none => (.creating live, directory)
    | some name => (visitMarker directory name (due.filter (· ≠ name)) live, directory)
  | .opening name due live => openMarker worker directory name due live
  | .holding name due live => (.removing name due live, directory.close worker name)
  | .removing name due live =>
    (statMarker directory name (.retiring due live) (.unlinking name due live) .leaving, directory)
  | .unlinking name due live =>
    match directory.unlink name with
    | some directory => (.retiring due live, directory)
    | none => (.leaving, directory)
  | .creating live => createMarker worker choice directory live
  | .checking own live =>
    match (directory.files own).any (·.plain) with
    | true => (if live then .unlocking own else .recovering own choice.listing, directory)
    | false => (.leaving, directory.close worker own)
  | .recovering own due =>
    match choice.name with
    | none => (.unlocking own, directory)
    | some name => examine worker directory own name (due.filter (· ≠ name))
  | .deleting own name due =>
    match directory.files name with
    | none => (.withdrawing own, directory.close worker own)
    | some _ => (.recovering own due, directory.remove name)
  | .unlocking own => (.running own [], unlock worker directory)
  | .running own sessions => serve worker directory own sessions choice.call
  | .dropping own name sessions =>
    (.running own sessions, if choice.removes then directory.remove name else directory)
  | .withdrawing own => (statMarker directory own .leaving (.withdrawn own) .leaving, directory)
  | .withdrawn own => (.leaving, (directory.unlink own).getD directory)
  | .leaving => (.gone, unlock worker directory)
  | .gone => (.gone, directory)
  | .crashed => (.crashed, directory)

/-- An action fails: what the worker has open is dropped. -/
def fail : Phase → Phase × Directory
  | .retiring .. | .opening .. | .removing .. | .unlinking .. | .creating .. =>
      (.leaving, directory)
  | .holding name .. => (.leaving, directory.close worker name)
  | .checking own _ => (.leaving, directory.close worker own)
  | .recovering own _ | .deleting own .. => (.withdrawing own, directory.close worker own)
  | phase => (phase, directory)

end Act

/-- What the operating system promises of an enumeration: it comes to every entry that is there
from its start on, and to none that never is. -/
def Admits (choice : Choice) (directory : Directory) : Phase → Prop
  | .new | .checking .. => ∀ name, name ∈ choice.listing ↔ directory.files name ≠ none
  | .retiring due _ | .recovering _ due =>
    match choice.name with
    | none => ∀ name ∈ due, directory.files name = none
    | some name => name ∈ due ∨ directory.files name ≠ none
  | _ => True

/-! ## The system -/

structure System where
  directory : Directory
  phase : WorkerId → Phase

namespace System

def move (worker : WorkerId) (result : Phase × Directory) (system : System) : System :=
  ⟨result.2, Function.update system.phase worker result.1⟩

/-- A worker of the process has ended with it. -/
def endPhase (ended : Bool) (phase : Phase) : Phase :=
  match ended, phase with
  | true, .gone => .gone
  | true, _ => .crashed
  | false, phase => phase

/-- A process ends, and with it all its handles. -/
def crash (process : WorkerId → Nat) (which : Nat) (system : System) : System where
  directory :=
    { files := fun name => (system.directory.files name).map fun file =>
        if file.handle.any (process · == which) then { file with handle := none } else file
      lock := system.directory.lock.filter (process · != which) }
  phase worker := endPhase (process worker == which) (system.phase worker)

/-- One action of one worker, or the end of a process. -/
inductive Step (process : WorkerId → Nat) (system : System) : System → Prop
  | act (worker : WorkerId) (choice : Choice)
      (admits : Admits choice system.directory (system.phase worker)) :
      Step process system (system.move worker
        (act worker choice system.directory (system.phase worker)))
  | fail (worker : WorkerId) : Step process system (system.move worker
      (fail worker system.directory (system.phase worker)))
  | crash (which : Nat) : Step process system (system.crash process which)

/-- The interleavings of any number of workers, in any number of processes, from any directory
that nobody has open. -/
inductive Reachable (process : WorkerId → Nat) : System → Prop
  | start {system : System} (lock : system.directory.lock = none)
      (phase : ∀ worker, system.phase worker = .new)
      (files : ∀ name file, system.directory.files name = some file →
        file.handle = none ∧ file.creator = none) : Reachable process system
  | step {system system' : System} (h : Reachable process system)
      (hstep : Step process system system') : Reachable process system'

/-- The worker has its marker open. -/
def HoldsMarker (system : System) (worker : WorkerId) : Prop :=
  ∃ name file, isQueryActiveMarkerName name = true ∧ system.directory.files name = some file ∧
    file.creator = some worker ∧ file.handle = some worker

end System

/-! ## Names of the two kinds -/

/-- No name is that of a marker and of a file of hits. -/
theorem parseOwner_marker {name : FileName} (h : isQueryActiveMarkerName name = true) :
    parseOwnerFromName name = none := by
  unfold isQueryActiveMarkerName encodedOwner inside at h
  unfold parseOwnerFromName encodedOwner inside
  cases name with
  | nil =>
    rw [if_neg (by decide)]
    rfl
  | cons c name =>
    by_cases hdot : c = '.'
    · have hfront : scratchNamePrefix.isPrefixOf (c :: name) = false := by
        show ('l' == c && _) = false
        rw [hdot]
        rfl
      rw [if_neg (by rw [hfront]; simp)]
      rfl
    · have hfront : activeMarkerPrefix.isPrefixOf (c :: name) = false := by
        show ('.' == c && _) = false
        rw [beq_eq_false_iff_ne.mpr (Ne.symm hdot), Bool.false_and]
      rw [if_neg (by rw [hfront]; simp)] at h
      cases h

theorem hexDigit_value : ∀ value < 16, isHexDigit (hexDigit value) = true ∧
    hexValue (hexDigit value) = value := by decide

theorem encodeOwner_length (owner : List Byte) : (encodeOwner owner).length = 2 * owner.length := by
  induction owner with
  | nil => rfl
  | cons byte owner ih =>
    simp only [encodeOwner, List.flatMap_cons, List.length_append, List.length_cons,
      List.length_nil] at ih ⊢
    omega

theorem encodeOwner_hex (owner : List Byte) : (encodeOwner owner).all isHexDigit = true := by
  induction owner with
  | nil => rfl
  | cons byte owner ih =>
    have hbyte := UInt8.toNat_lt byte
    rw [encodeOwner, List.flatMap_cons, List.all_append, ← encodeOwner, ih, Bool.and_true]
    simp [(hexDigit_value (byte.toNat / 16) (by omega)).1,
      (hexDigit_value (byte.toNat % 16) (by omega)).1]

theorem decodeHex_encodeOwner (owner : List Byte) : decodeHex (encodeOwner owner) = owner := by
  induction owner with
  | nil => rfl
  | cons byte owner ih =>
    have hbyte := UInt8.toNat_lt byte
    have hhigh := (hexDigit_value (byte.toNat / 16) (by omega)).2
    have hlow := (hexDigit_value (byte.toNat % 16) (by omega)).2
    rw [encodeOwner, List.flatMap_cons]
    show UInt8.ofNat (_ * 16 + _) :: decodeHex (encodeOwner owner) = byte :: owner
    rw [ih, hhigh, hlow, Nat.div_add_mod', UInt8.ofNat_toNat]

/-- The name of a file of hits says who its owner is. -/
theorem parseOwner_scratchFileName {owner : List Byte} (h : owner.length = 16) :
    parseOwnerFromName (scratchFileName owner) = some owner := by
  have hlength := encodeOwner_length owner
  have hrest : (scratchFileName owner).drop scratchNamePrefix.length =
      encodeOwner owner ++ scratchNameSuffix := by
    rw [scratchFileName, List.append_assoc, List.drop_left]
  have hinside : inside scratchNamePrefix scratchNameSuffix (scratchFileName owner) =
      some (encodeOwner owner) := by
    unfold inside
    rw [hrest, if_pos ⟨by simp [scratchFileName], by simp⟩]
    have hcount : (scratchFileName owner).length - scratchNamePrefix.length -
        scratchNameSuffix.length = (encodeOwner owner).length := by
      rw [scratchFileName, List.length_append, List.length_append]
      omega
    rw [hcount, List.take_left]
  unfold parseOwnerFromName encodedOwner
  rw [hinside, Option.filter_some, if_pos, Option.map_some, decodeHex_encodeOwner]
  rw [encodeOwner_hex, hlength, h]
  rfl

end LeanRows.QueryCache
