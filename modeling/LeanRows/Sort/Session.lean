import LeanRows.Sort.Storage

/-!
# The sort session

The steps of a sort from the first record to the finished maps. What is read from the source
and from the scratch files, and how two records compare, is an argument of the step: here a
record is known by its place. All that is written is written to files of the ledger.
-/

set_option autoImplicit false

namespace LeanRows.Sort

/-- The length of an encoded descriptor. -/
def descriptorBytes : Nat := 128

def orderBytes : Nat := 24

def pairBytes : Nat := 16

def bucketRows : Nat := 512 * 1024

def bucketBufferBytes : Nat := 16 * 1024

def chunkBytes : Nat := 64 * 1024

def fixedBytes : Nat := 512 * 1024

def pageBytes : Nat := 64 * 1024

def treeBytesPerRun : Nat := 256

/-- `size_of::<Descriptor>()`. -/
def descriptorSize : Nat := 128

/-! ## Files that go -/

namespace DiskFile

/-- The file is deleted and its reservations go with it. -/
def drop (file : DiskFile) (r : SortResources) : SortResources :=
  let r := file.reservation.drop r
  match file.bufferMemory with
  | some memory => memory.drop r
  | none => r

/-- An action of a file that is given back, or goes with the error. -/
def keep (action : DiskFileM Unit) (file : DiskFile) : Exec SortResources SortError DiskFile :=
  fun r =>
    match action (file, r) with
    | (.error e, file, r) => (.error e, file.drop r)
    | (.ok _, file, r) => (.ok file, r)

/-- The file goes with an error of what follows. -/
def during {α : Type} (file : DiskFile) (x : Exec SortResources SortError α) :
    Exec SortResources SortError α := fun r =>
  match x r with
  | (.error e, r) => (.error e, file.drop r)
  | (.ok a, r) => (.ok a, r)

end DiskFile

/-! ## The inverse map -/

structure InverseBuilder where
  records : Nat
  bucketRows : Nat
  buckets : Nat
  bufferBytes : Nat
  pairs : DiskFile
  filled : List Nat
  written : List Nat
  bucket : Nat
  read : Nat
  memory : Reservation
deriving DecidableEq, Repr

/-- The answers of the operating system, by the call. -/
abbrev Answers := Nat → Answer

def divCeil (a b : Nat) : Nat := (a + b - 1) / b

namespace InverseBuilder

def new (owner records bucketRows bufferBytes : Nat) (os : Answers) :
    Exec SortResources SortError InverseBuilder :=
  if bucketRows = 0 ∨ bufferBytes < pairBytes ∨ bufferBytes % pairBytes ≠ 0 then
    Exec.throw .invalidConfig
  else do
    let buckets := divCeil records bucketRows
    let heldRows := min bucketRows records
    let memory ← SortResources.reserve
      (buckets * (bufferBytes + 2 * 8) + heldRows * 8 + chunkBytes) true
    let allocated : Exec SortResources SortError DiskFile := do
      let pairs ← DiskFile.create owner (os 0) (os 1)
      DiskFile.keep (DiskFile.allocate (records * pairBytes) (os 2) (os 3)) pairs
    fun r =>
      match allocated r with
      | (.error e, r) => (.error e, memory.drop r)
      | (.ok pairs, r) =>
        (.ok ⟨records, bucketRows, buckets, bufferBytes, pairs, List.replicate buckets 0,
          List.replicate buckets 0, 0, 0, memory⟩, r)

def bucketStart (builder : InverseBuilder) (bucket : Nat) : Nat := bucket * builder.bucketRows

def bucketLen (builder : InverseBuilder) (bucket : Nat) : Nat :=
  min builder.bucketRows (builder.records - builder.bucketStart bucket)

/-- What is written lies in `pairs.bin`, which has its full length from the start. -/
def flush (bucket : Nat) (written : Answer) (builder : InverseBuilder) :
    Except SortError InverseBuilder :=
  let count := builder.filled.getD bucket 0
  if count = 0 then .ok builder
  else if builder.bucketLen bucket * pairBytes < builder.written.getD bucket 0 + count then
    .error .invalidScratch
  else
    match written with
    | .error e => .error (.io e)
    | .ok _ => .ok { builder with
        written := builder.written.set bucket (builder.written.getD bucket 0 + count)
        filled := builder.filled.set bucket 0 }

def push (row rank : Nat) (written : Answer) (builder : InverseBuilder) :
    Except SortError InverseBuilder :=
  if builder.records ≤ row ∨ builder.records ≤ rank then .error .invalidScratch
  else
    let bucket := row / builder.bucketRows
    let builder := { builder with
      filled := builder.filled.set bucket (builder.filled.getD bucket 0 + pairBytes) }
    if builder.filled.getD bucket 0 = builder.bufferBytes then flush bucket written builder
    else .ok builder

/-- Flushes the buckets from `bucket` on. -/
def finishFrom (os : Answers) : Nat → Nat → InverseBuilder → Except SortError InverseBuilder
  | 0, _, builder => .ok builder
  | count + 1, bucket, builder =>
    match flush bucket (os bucket) builder with
    | .error e => .error e
    | .ok builder =>
      if builder.written.getD bucket 0 ≠ builder.bucketLen bucket * pairBytes then
        .error .invalidScratch
      else finishFrom os count (bucket + 1) builder

def finishCollecting (os : Answers) (builder : InverseBuilder) : Except SortError InverseBuilder :=
  finishFrom os builder.buckets 0 builder

/-- Places a chunk of pairs. Whether its pairs are in order is for `placed` to say. -/
def place (placed : Except SortError Unit) (builder : InverseBuilder) :
    Except SortError (Bool × InverseBuilder) :=
  if builder.bucket = builder.buckets then .ok (true, builder)
  else
    let total := builder.bucketLen builder.bucket * pairBytes
    let count := min (total - builder.read) chunkBytes
    match placed with
    | .error e => .error e
    | .ok _ =>
      let builder := { builder with read := builder.read + count }
      let builder := if builder.read = total then
          { builder with bucket := builder.bucket + 1, read := 0 }
        else builder
      .ok (decide (builder.bucket = builder.buckets), builder)

def drop (builder : InverseBuilder) (r : SortResources) : SortResources :=
  builder.memory.drop (builder.pairs.drop r)

end InverseBuilder

/-! ## The session -/

inductive SortPhase where
  | extracting
  | sortingRuns
  | merging
  | buildingInverse
  | complete
  | cancelled
deriving DecidableEq, Repr

structure Merge where
  width : Nat
  start : Nat
  left : Nat
  right : Nat
  middle : Nat
  stop : Nat
  out : Nat
deriving DecidableEq, Repr

inductive Stage where
  | idle
  | build (node : Nat)
  | emit
  | replay (node : Nat)
deriving DecidableEq, Repr

/-- One run of a merge group: its head, if it is loaded, and what is left of it. -/
structure Run where
  head : Option Nat
  next : Nat
  stop : Nat
deriving DecidableEq, Repr

/-- `none` is the `EMPTY` node. -/
structure Tree where
  leaves : Nat
  nodes : List (Option Nat)
  runs : List Run
  groupEnd : Nat
  stage : Stage
deriving DecidableEq, Repr

def nextPowerOfTwo (n : Nat) : Nat := if n ≤ 1 then 1 else 2 ^ (Nat.log2 (n - 1) + 1)

def Tree.new (fanIn : Nat) : Tree :=
  let leaves := nextPowerOfTwo fanIn
  ⟨leaves, List.replicate (leaves * 2) none, List.replicate fanIn ⟨none, 0, 0⟩, 0, .idle⟩

/-- `unread` bounds the records that the scanner has still to find; of the batch and of the
read pages only the number counts. -/
structure SortSession where
  batchCapacity : Nat
  mergeFanIn : Nat
  owner : Nat
  fixedMemory : Reservation
  mergeMemory : Option Reservation
  phase : SortPhase
  unread : Nat
  scanner : Bool
  pending : Bool
  batch : Nat
  merge : Merge
  writeAt : Nat
  records : Nat
  runFile : Option DiskFile
  passFile : Option DiskFile
  runWidth : Nat
  pass : Nat
  groupStart : Nat
  tree : Tree
  order : Option DiskFile
  inverse : Option DiskFile
  inverseAt : Nat
  inverseBuilder : Option InverseBuilder
  pages : Nat
deriving DecidableEq, Repr

/-- What the scan of the source comes to in a step. -/
inductive ScanEvent where
  | reading
  | found
  | record
  | finished (last : Bool)
deriving DecidableEq, Repr

/-- Errors of the source and of its keys. -/
inductive Fault where
  | io (error : IoError)
  | sourceChanged
  | numericRange
  | scan (error : ScanError)
deriving DecidableEq, Repr

def Fault.error : Fault → SortError
  | .io e => .io e
  | .sourceChanged => .sourceChanged
  | .numericRange => .numericRange
  | .scan e => .scan e

/-- What a step meets outside. A comparison that is out of budget has no `order`; `greater`
is its answer otherwise. -/
structure Choice where
  cancelled : Bool
  fault : Option Fault
  event : ScanEvent
  greater : Option Bool
  row : Nat
  placed : Except Fault Unit
  os : Answers

abbrev SortM := Exec (SortSession × SortResources) SortError

namespace SortSession

/-- The rows of the source are `rows`. -/
def new (rows batchCapacity mergeFanIn stepBytes owner : Nat) (os : Answers) :
    Exec SortResources SortError SortSession :=
  if batchCapacity = 0 ∨ mergeFanIn < 2 ∨ stepBytes = 0 then Exec.throw .invalidConfig
  else do
    let fixedMemory ← SortResources.reserve fixedBytes true
    let opened : Exec SortResources SortError (Reservation × DiskFile) := fun r =>
      let bytes := batchCapacity * descriptorSize * 2 + mergeFanIn * (pageBytes + treeBytesPerRun)
      match SortResources.reserve bytes true r with
      | (.error e, r) => (.error e, r)
      | (.ok mergeMemory, r) =>
        match DiskFile.create owner (os 0) (os 1) r with
        | (.error e, r) => (.error e, mergeMemory.drop r)
        | (.ok runFile, r) => (.ok (mergeMemory, runFile), r)
    fun r =>
      match opened r with
      | (.error e, r) => (.error e, fixedMemory.drop r)
      | (.ok (mergeMemory, runFile), r) =>
        (.ok ⟨batchCapacity, mergeFanIn, owner, fixedMemory, some mergeMemory, .extracting, rows,
          true, false, 0, ⟨0, 0, 0, 0, 0, 0, 0⟩, 0, 0, some runFile, none, batchCapacity, 0, 0,
          Tree.new mergeFanIn, none, none, 0, none, 1⟩, r)

/-- An action of one of the files, which must be there. -/
def onFile (file : SortSession → Option DiskFile) (put : DiskFile → SortSession → SortSession)
    (action : DiskFileM Unit) : SortM Unit := fun p =>
  match file p.1 with
  | none => (.error .invalidScratch, p)
  | some f =>
    let result := action (f, p.2)
    (result.1, put result.2.1 p.1, result.2.2)

def onRunFile : DiskFileM Unit → SortM Unit :=
  onFile runFile fun file s => { s with runFile := some file }

def onPassFile : DiskFileM Unit → SortM Unit :=
  onFile passFile fun file s => { s with passFile := some file }

def onOrder : DiskFileM Unit → SortM Unit :=
  onFile order fun file s => { s with order := some file }

/-- What is dropped, if it is there. -/
def release {α : Type} (drop : α → SortResources → SortResources) (held : Option α)
    (r : SortResources) : SortResources :=
  held.elim r fun a => drop a r

/-! ### The maps -/

def makeMaps (owner records : Nat) (os : Answers) :
    Exec SortResources SortError (DiskFile × DiskFile × InverseBuilder) := do
  let order ← DiskFile.create owner (os 0) (os 1)
  let order ← DiskFile.keep (DiskFile.append mapHeaderBytes (os 2)) order
  DiskFile.during order do
    let inverse ← DiskFile.create owner (os 3) (os 4)
    let inverse ← DiskFile.keep (do
      DiskFile.append mapHeaderBytes (os 5)
      DiskFile.allocate (records * 8) (os 6) (os 7)) inverse
    DiskFile.during inverse do
      let builder ← InverseBuilder.new owner records bucketRows bucketBufferBytes
        fun call => os (8 + call)
      pure (order, inverse, builder)

def beginMaps (os : Answers) : SortM Unit := do
  fun p => (.ok (), { p.1 with
    batch := 0
    pages := min p.1.pages 1
    tree := Tree.new 1
    mergeMemory := none }, release Reservation.drop p.1.mergeMemory p.2)
  let s ← Exec.get
  let maps ← Exec.inner (makeMaps s.owner s.records os)
  Exec.modify fun s => { s with
    order := some maps.1
    inverse := some maps.2.1
    inverseBuilder := some maps.2.2
    phase := .buildingInverse }

def beginDiskMerge (os : Answers) : SortM Unit := do
  onRunFile (DiskFile.finishWriting (os 0))
  let s ← Exec.get
  if s.records ≤ s.runWidth then beginMaps fun call => os (1 + call)
  else do
    Exec.modify fun s => { s with
      pages := max s.pages (min (divCeil s.records s.runWidth) s.mergeFanIn)
      pass := s.pass + 1 }
    let file ← Exec.inner (DiskFile.create s.owner (os 1) (os 2))
    fun p => (.ok (), { p.1 with
      passFile := some file
      groupStart := 0
      tree := { p.1.tree with stage := .idle }
      phase := .merging }, release DiskFile.drop p.1.passFile p.2)

/-! ### Runs in memory -/

def extract (c : Choice) : SortM Unit := do
  match c.fault with
  | some fault => Exec.throw fault.error
  | none =>
    let s ← Exec.get
    if s.pending then
      Exec.modify fun s => if c.event = .record then
          { s with batch := s.batch + 1, records := s.records + 1, pending := false }
        else s
    else if s.batch = s.batchCapacity ∨ s.scanner = false then
      if s.batch = 0 then beginDiskMerge c.os
      else Exec.modify fun s => { s with
        merge := ⟨1, 0, 0, 0, 0, 0, 0⟩
        writeAt := 0
        phase := .sortingRuns }
    else
      Exec.modify fun s =>
        match c.event with
        | .found =>
          if 0 < s.unread then { s with unread := s.unread - 1, pending := true } else s
        | .finished last =>
          if last = true ∧ 0 < s.unread then
            { s with scanner := false, unread := s.unread - 1, pending := true }
          else { s with scanner := false }
        | _ => s

/-- The next pair of runs of the batch, when the last one is merged. -/
def nextPair (n : Nat) (merge : Merge) : Merge :=
  if merge.out = merge.stop then
    let middle := min (merge.start + merge.width) n
    let stop := min (middle + merge.width) n
    { merge with left := merge.start, right := middle, middle := middle, stop := stop,
                 out := merge.start }
  else merge

def takeOne (left : Bool) (merge : Merge) : Merge :=
  let merge := if left then { merge with left := merge.left + 1 }
    else { merge with right := merge.right + 1 }
  let merge := { merge with out := merge.out + 1 }
  if merge.out = merge.stop then { merge with start := merge.stop } else merge

def sortBatch (c : Choice) : SortM Unit := do
  let s ← Exec.get
  let n := s.batch
  if n ≤ s.merge.width then
    if s.writeAt < n then do
      onRunFile (DiskFile.append descriptorBytes (c.os 0))
      Exec.modify fun s => { s with writeAt := s.writeAt + 1 }
    else Exec.modify fun s => { s with batch := 0, phase := .extracting }
  else if n ≤ s.merge.start then
    Exec.modify fun s => { s with merge := { s.merge with
      width := s.merge.width * 2
      start := 0
      stop := 0
      out := 0 } }
  else
    let merge := nextPair n s.merge
    let takeLeft := if merge.left = merge.middle then some false
      else if merge.right = merge.stop then some true
      else c.greater.map fun greater => !greater
    match c.fault, takeLeft with
    | some fault, _ => Exec.throw fault.error
    | none, none => Exec.modify fun s => { s with merge := merge }
    | none, some left => Exec.modify fun s => { s with merge := takeOne left merge }

/-! ### Passes over the runs on disk -/

/-- Reads the head of a run that is not at its end. -/
def loadHead (read : Answer) (run : Run) : Except SortError Run :=
  if run.next < run.stop then
    match read with
    | .error e => .error (.io e)
    | .ok _ => .ok { run with head := some run.next }
  else .ok { run with head := none }

/-- The runs of a group, one behind the other, and where the group ends. -/
def startRuns (width records : Nat) (os : Answers) :
    Nat → Nat → List Run → Except SortError (List Run × Nat)
  | 0, start, runs => .ok (runs, start)
  | _ + 1, start, [] => .ok ([], start)
  | pages + 1, start, _ :: runs =>
    let stop := min (start + width) records
    match loadHead (os pages) ⟨none, start, stop⟩ with
    | .error e => .error e
    | .ok run =>
      match startRuns width records os pages stop runs with
      | .error e => .error e
      | .ok (runs, groupEnd) => .ok (run :: runs, groupEnd)

def startGroup (c : Choice) : SortM Unit := do
  let s ← Exec.get
  let started ← Exec.ofExcept
    (startRuns s.runWidth s.records c.os s.pages s.groupStart s.tree.runs)
  Exec.modify fun s => { s with tree := { s.tree with
    nodes := List.replicate s.tree.leaves none ++
      ((List.range s.tree.leaves).map fun run =>
        if run < s.pages then (started.1[run]?).bind fun r => r.head.map fun _ => run else none)
    runs := started.1
    groupEnd := started.2
    stage := if 1 < s.tree.leaves then .build (s.tree.leaves - 1) else .emit } }

/-- The winner below a node: `none` when the comparison is out of budget. -/
def play (node : Nat) (c : Choice) (tree : Tree) : Except SortError (Option (Option Nat)) :=
  match tree.nodes.getD (node * 2) none, tree.nodes.getD (node * 2 + 1) none with
  | none, right => .ok (some right)
  | some left, none => .ok (some (some left))
  | some left, some right =>
    match (tree.runs[left]?).bind Run.head, (tree.runs[right]?).bind Run.head with
    | some _, some _ =>
      match c.fault with
      | some fault => .error fault.error
      | none => .ok (c.greater.map fun greater => some (if greater then right else left))
    | _, _ => .error .invalidScratch

def setWinner (node : Nat) (winner : Option Nat) (stage : Stage) (s : SortSession) :
    SortSession :=
  { s with tree := { s.tree with nodes := s.tree.nodes.set node winner, stage := stage } }

/-- The head of the winning run is written and its next one read. -/
def emit (index : Nat) (c : Choice) : SortM Unit := do
  let s ← Exec.get
  match s.tree.runs[index]? with
  | some ⟨some _, next, stop⟩ =>
    Exec.modify fun s => { s with tree := { s.tree with
      runs := s.tree.runs.set index ⟨none, next, stop⟩ } }
    onPassFile (DiskFile.append descriptorBytes (c.os 0))
    let run ← Exec.ofExcept (loadHead (c.os 1) ⟨none, next + 1, stop⟩)
    Exec.modify fun s =>
      let leaf := s.tree.leaves + index
      { s with tree := { s.tree with
        runs := s.tree.runs.set index run
        nodes := s.tree.nodes.set leaf (run.head.map fun _ => index)
        stage := .replay (leaf / 2) } }
  | _ => Exec.throw .invalidScratch

def mergeStage (c : Choice) : SortM Unit := do
  let s ← Exec.get
  match s.tree.stage with
  | .build node =>
    match ← Exec.ofExcept (play node c s.tree) with
    | none => pure ()
    | some winner =>
      Exec.modify (setWinner node winner (if 1 < node then .build (node - 1) else .emit))
  | .emit =>
    match s.tree.nodes.getD 1 none with
    | none => Exec.modify fun s => { s with
        groupStart := s.tree.groupEnd
        tree := { s.tree with stage := .idle } }
    | some index => emit index c
  | .replay node =>
    match ← Exec.ofExcept (play node c s.tree) with
    | none => pure ()
    | some winner =>
      Exec.modify (setWinner node winner (if 1 < node then .replay (node / 2) else .emit))
  | .idle => pure ()

def mergeDisk (c : Choice) : SortM Unit := do
  let s ← Exec.get
  if s.tree.stage = .idle then
    if s.groupStart = s.records then do
      fun p => (.ok (), { p.1 with
        runFile := p.1.passFile
        passFile := none
        runWidth := min (p.1.runWidth * p.1.mergeFanIn) (u64Bound - 1) },
        release DiskFile.drop p.1.runFile p.2)
      beginDiskMerge c.os
    else do
      startGroup c
      mergeStage c
  else mergeStage c

/-! ### The order and its inverse -/

def onBuilder (action : InverseBuilder → Except SortError InverseBuilder) : SortM Unit := do
  let s ← Exec.get
  match s.inverseBuilder with
  | none => Exec.throw .invalidScratch
  | some builder =>
    let builder ← Exec.ofExcept (action builder)
    Exec.modify fun s => { s with inverseBuilder := some builder }

def buildMaps (c : Choice) : SortM Unit := do
  let s ← Exec.get
  if s.inverseAt = s.records then
    if s.runFile.isSome then do
      onBuilder (InverseBuilder.finishCollecting fun bucket => c.os (bucket + 1))
      onOrder (DiskFile.finishWriting (c.os 0))
      fun p => (.ok (), { p.1 with runFile := none }, release DiskFile.drop p.1.runFile p.2)
    else
      match s.inverseBuilder with
      | none => Exec.throw .invalidScratch
      | some builder => do
        let placed ← Exec.ofExcept (builder.place (c.placed.mapError Fault.error))
        if placed.1 then
          fun p => (.ok (), { p.1 with inverseBuilder := none, phase := .complete },
            placed.2.drop p.2)
        else Exec.modify fun s => { s with inverseBuilder := some placed.2 }
  else do
    Answer.check (c.os 0)
    onOrder (DiskFile.append orderBytes (c.os 1))
    onBuilder (InverseBuilder.push c.row s.inverseAt (c.os 2))
    Exec.modify fun s => { s with inverseAt := s.inverseAt + 1 }

/-- One round of the loop of `advance`. -/
def step (c : Choice) : SortM Unit := do
  let s ← Exec.get
  if c.cancelled then Exec.modify fun s => { s with phase := .cancelled }
  else
    match s.phase with
    | .extracting => extract c
    | .sortingRuns => sortBatch c
    | .merging => mergeDisk c
    | .buildingInverse => buildMaps c
    | .complete => pure ()
    | .cancelled => pure ()

end SortSession

/-! ## Admission -/

/-- Sizes in binary units, as the file manager shows them. -/
def sizeText (bytes : Nat) : String :=
  if 2 ^ 30 ≤ bytes then
    let tenths := divCeil (bytes * 10) (2 ^ 30)
    toString (tenths / 10) ++ "." ++ toString (tenths % 10) ++ " GB"
  else toString (divCeil bytes (2 ^ 20)) ++ " MB"

def sortScratchBytesPerRow : Nat := 256

def sortFreeSpaceMargin : Nat := 64 * 1024 * 1024

/-- The indexed rows, scaled up to the whole file while indexing is still running. -/
def expectedRows (rows : Nat) (complete : Bool) (scanned source : Nat) : Nat :=
  if complete = true ∨ scanned = 0 ∨ source ≤ scanned then rows
  else min (rows * source / scanned) (u64Bound - 1)

def checkSortSpace (rows quotaLeft quota free : Nat) : Except String Unit :=
  let needed := min (rows * sortScratchBytesPerRow) (u64Bound - 1)
  if quota < needed then
    .error ("This file is too large to sort: it needs about " ++ sizeText needed ++
      " of temporary disk space, more than the " ++ sizeText quota ++ " sort limit")
  else if quotaLeft < needed then
    .error ("Other sorted views are using the sort space; restore source order in one of them" ++
      " and try again")
  else
    let wanted := min (needed + sortFreeSpaceMargin) (u64Bound - 1)
    if free < wanted then
      .error ("Not enough free disk space to sort: it needs about " ++ sizeText wanted ++
        " and the drive has " ++ sizeText free ++ " free")
    else .ok ()

end LeanRows.Sort
