import LeanRows.Sort.Session

/-!
# What a sort needs on disk

A session never charges more than the admission check sets aside for its rows: two copies of
the run records while runs are merged, and less while the maps are made.
-/

set_option autoImplicit false

namespace LeanRows.Sort

/-! ## The disk counter -/

/-- The disk counter, its limit, and a bound of its peak. -/
structure Disk (limit peak d : Nat) (r : SortResources) : Prop where
  limit_eq : r.diskLimit = limit
  disk_eq : r.disk = d
  peak_le : r.diskPeak ≤ peak

/-- Some other error, and the peak is still in its bound. -/
def NoQuota (peak : Nat) (e : SortError) (r : SortResources) : Prop :=
  e ≠ .quota ∧ r.diskPeak ≤ peak

theorem Fault.error_ne_quota (fault : Fault) : fault.error ≠ .quota := by
  cases fault <;> exact nofun

theorem Disk.noQuota {limit peak d : Nat} {r : SortResources} {fault : Fault}
    (h : Disk limit peak d r) : NoQuota peak fault.error r :=
  ⟨fault.error_ne_quota, h.peak_le⟩

theorem Reservation.drop_diskPeak (reservation : Reservation) (r : SortResources) :
    (reservation.drop r).diskPeak = r.diskPeak := by
  unfold Reservation.drop
  split <;> rfl

namespace DiskFile

theorem drop_diskPeak (file : DiskFile) (r : SortResources) :
    (file.drop r).diskPeak = r.diskPeak := by
  unfold drop
  cases file.bufferMemory with
  | none => exact Reservation.drop_diskPeak _ _
  | some memory => exact (Reservation.drop_diskPeak _ _).trans (Reservation.drop_diskPeak _ _)

/-- The file charges its bytes to the disk and its buffer to the memory. -/
structure Plain (file : DiskFile) : Prop where
  disk : file.reservation.memory = false
  buffer : ∀ memory, file.bufferMemory = some memory → memory.memory = true

/-- A file of so many bytes, and the ledger beside it. -/
def Filed (limit peak d bytes : Nat) (p : DiskFile × SortResources) : Prop :=
  p.1.Plain ∧ p.1.reservation.bytes = bytes ∧ Disk limit peak d p.2

end DiskFile

section Ledger
variable {limit top peak d : Nat} (htop : top ≤ limit) (hlimit : limit < u64Bound)
  (hpeak : top ≤ peak)

theorem reserve_memory (bytes : Nat) : Exec.Triple (Disk limit peak d)
    (SortResources.reserve bytes true)
    (fun reservation r => reservation = ⟨bytes, true⟩ ∧ Disk limit peak d r) (NoQuota peak) := by
  intro r h
  simp only [SortResources.reserve, if_true]
  cases (checkedAdd r.memory bytes).filter fun next => decide (next ≤ r.memoryLimit) with
  | none => exact ⟨(fun he => by cases he), h.peak_le⟩
  | some next => exact ⟨rfl, h.limit_eq, h.disk_eq, h.peak_le⟩

include htop hlimit hpeak

/-- There is room for what stays below `top`. -/
theorem reserve_disk (bytes : Nat) (hroom : d + bytes ≤ top) : Exec.Triple (Disk limit peak d)
    (SortResources.reserve bytes false)
    (fun reservation r => reservation = ⟨bytes, false⟩ ∧ Disk limit peak (d + bytes) r)
    (NoQuota peak) := by
  intro r h
  have hdisk := h.disk_eq
  have hpeak' := h.peak_le
  have hadd : checkedAdd r.disk bytes = some (r.disk + bytes) :=
    checkedAdd_eq_some.mpr ⟨by omega, rfl⟩
  have hle : decide (r.disk + bytes ≤ r.diskLimit) = true :=
    decide_eq_true (by have := h.limit_eq; omega)
  simp only [SortResources.reserve, Bool.false_eq_true, if_false, hadd, Option.filter_some, hle,
    if_true]
  refine ⟨trivial, h.limit_eq, ?_, ?_⟩
  · simp only [hdisk]
  · simp only
    omega

omit htop hlimit hpeak

theorem drop_disk {reservation : Reservation} {r : SortResources}
    (h : Disk limit peak (d + reservation.diskPart) r) :
    Disk limit peak d (reservation.drop r) := by
  refine ⟨?_, ?_, (Reservation.drop_diskPeak _ _).trans_le h.peak_le⟩
  · unfold Reservation.drop
    split
    · exact h.limit_eq
    · exact h.limit_eq
  · have hdisk := h.disk_eq
    obtain ⟨bytes, memory⟩ := reservation
    cases memory with
    | true => exact hdisk
    | false =>
      simp only [Reservation.diskPart, Bool.false_eq_true, if_false] at hdisk
      change fetchSub r.disk bytes = d
      rw [fetchSub_eq (by omega)]
      omega

namespace DiskFile
variable {bytes : Nat}

theorem check_filed (answer : Answer) : Exec.Triple (Filed limit peak d bytes)
    (answer.check : DiskFileM Unit) (fun _ => Filed limit peak d bytes)
    fun e p => NoQuota peak e p.2 := by
  cases answer with
  | ok u => exact fun p h => h
  | error e => exact fun p h => ⟨nofun, h.2.2.peak_le⟩

theorem finishWriting_filed (flushed : Answer) : Exec.Triple (Filed limit peak d bytes)
    (finishWriting flushed) (fun _ => Filed limit peak d bytes)
    fun e p => NoQuota peak e p.2 := by
  have hdrop : ∀ drop : DiskFileM Unit, (∀ file r, drop (file, r) = (.ok (),
        { file with writer := false, bufferMemory := none },
        file.bufferMemory.elim r fun memory => memory.drop r)) →
      Exec.Triple (Filed limit peak d bytes) drop (fun _ => Filed limit peak d bytes)
        fun e p => NoQuota peak e p.2 := by
    rintro drop heq ⟨s, r⟩ ⟨hplain, hbytes, hdisk⟩
    rw [heq]
    refine ⟨⟨hplain.disk, fun _ h => by cases h⟩, hbytes, ?_⟩
    show Disk limit peak _ (s.bufferMemory.elim r fun memory => memory.drop r)
    cases hbuffer : s.bufferMemory with
    | none => exact hdisk
    | some memory =>
      refine drop_disk ?_
      rwa [Reservation.diskPart, hplain.buffer memory hbuffer]
  refine .get_bind fun file => .ite (fun _ => ?_) fun _ => ?_
  · refine .bind ((check_filed flushed).pre_mono fun p hp => hp.2) fun _ => hdrop _ fun file r => ?_
    rcases file with ⟨bytes, reservation, owner, writer, _ | memory⟩ <;> rfl
  · refine (hdrop _ fun file r => ?_).pre_mono fun p hp => hp.2
    rcases file with ⟨bytes, reservation, owner, writer, _ | memory⟩ <;> rfl

/-- A file that is deleted takes its bytes with it. -/
theorem drop_filed {p : DiskFile × SortResources} (h : Filed limit peak (d + bytes) bytes p) :
    Disk limit peak d (p.1.drop p.2) := by
  obtain ⟨hplain, hbytes, hdisk⟩ := h
  have hreservation : Disk limit peak d (p.1.reservation.drop p.2) := by
    refine drop_disk ?_
    rwa [Reservation.diskPart, hplain.disk, hbytes]
  unfold drop
  cases hbuffer : p.1.bufferMemory with
  | none => exact hreservation
  | some memory =>
    refine drop_disk ?_
    rwa [Reservation.diskPart, hplain.buffer memory hbuffer]

theorem keep_filed {d' bytes' : Nat} {action : DiskFileM Unit} {file : DiskFile}
    (haction : Exec.Triple (Filed limit peak d bytes) action
      (fun _ => Filed limit peak d' bytes') fun e p => NoQuota peak e p.2) :
    Exec.Triple (fun r => Filed limit peak d bytes (file, r)) (keep action file)
      (fun file r => Filed limit peak d' bytes' (file, r)) (NoQuota peak) := by
  intro r h
  have hrun := haction (file, r) h
  simp only [keep]
  rcases hresult : action (file, r) with ⟨e | u, file', r'⟩
  · rw [hresult] at hrun
    exact ⟨hrun.1, (drop_diskPeak _ _).trans_le hrun.2⟩
  · rw [hresult] at hrun
    exact hrun

theorem during_noQuota {α : Type} {file : DiskFile} {x : Exec SortResources SortError α}
    {pre : SortResources → Prop} {post : α → SortResources → Prop}
    (hx : Exec.Triple pre x post (NoQuota peak)) :
    Exec.Triple pre (during file x) post (NoQuota peak) := by
  intro r h
  have hrun := hx r h
  simp only [during]
  rcases hresult : x r with ⟨e | a, r'⟩
  · rw [hresult] at hrun
    exact ⟨hrun.1, (drop_diskPeak _ _).trans_le hrun.2⟩
  · rw [hresult] at hrun
    exact hrun

include htop hlimit hpeak

theorem grow_filed {count : Nat} (hroom : d + count ≤ top) :
    Exec.Triple (Filed limit peak d bytes) (grow count)
      (fun _ => Filed limit peak (d + count) (bytes + count))
      fun e p => NoQuota peak e p.2 := by
  refine .get_bind fun file => ?_
  rintro ⟨s, r⟩ ⟨hs, hplain, hbytes, hdisk⟩
  obtain rfl : s = file := hs
  have hrun := reserve_disk htop hlimit hpeak _ hroom r hdisk
  have hmemory : s.reservation.memory = false := hplain.disk
  simp only [Bind.bind, Exec.inner, Reservation.grow, Exec.modify, hmemory]
  rcases hreserve : SortResources.reserve count false r with ⟨e | addition, r'⟩
  · rw [hreserve] at hrun
    exact hrun
  · rw [hreserve] at hrun
    obtain ⟨rfl, hdisk'⟩ := hrun
    exact ⟨⟨rfl, hplain.buffer⟩, congrArg (· + count) hbytes, hdisk'⟩

theorem append_filed {count : Nat} (hroom : d + count ≤ top) (written : Answer) :
    Exec.Triple (Filed limit peak d bytes) (append count written)
      (fun _ => Filed limit peak (d + count) (bytes + count))
      fun e p => NoQuota peak e p.2 :=
  .bind (grow_filed htop hlimit hpeak hroom) fun _ => check_filed written

theorem allocate_filed {count : Nat} (hroom : d + count ≤ top) (flushed resized : Answer) :
    Exec.Triple (Filed limit peak d bytes) (allocate count flushed resized)
      (fun _ => Filed limit peak (d + count) (bytes + count))
      fun e p => NoQuota peak e p.2 :=
  .bind (finishWriting_filed flushed) fun _ => .bind (grow_filed htop hlimit hpeak hroom) fun _ =>
    check_filed resized

theorem create_filed (hroom : d ≤ top) (owner : Nat) (opened cloned : Answer) :
    Exec.Triple (Disk limit peak d) (create owner opened cloned)
      (fun file r => Filed limit peak d 0 (file, r)) (NoQuota peak) := by
  have hopened : Exec.Triple (Disk limit peak d)
      (opened.check : Exec SortResources SortError Unit) (fun _ => Disk limit peak d)
      (NoQuota peak) := by
    cases opened with
    | ok u => exact fun p h => h
    | error e => exact fun p h => ⟨nofun, h.peak_le⟩
  unfold create
  generalize writerBytes = buffer
  refine .bind hopened fun _ => .bind (reserve_memory buffer) fun memory => ?_
  rintro r ⟨rfl, hdisk⟩
  cases cloned with
  | error e => exact ⟨nofun, (Reservation.drop_diskPeak _ _).trans_le hdisk.peak_le⟩
  | ok u =>
    have hrun := reserve_disk htop hlimit hpeak 0 hroom r hdisk
    simp only
    rcases hreserve : SortResources.reserve 0 false r with ⟨e | reservation, r'⟩
    · rw [hreserve] at hrun
      exact ⟨hrun.1, (Reservation.drop_diskPeak _ _).trans_le hrun.2⟩
    · rw [hreserve] at hrun
      obtain ⟨rfl, hdisk'⟩ := hrun
      refine ⟨⟨rfl, ?_⟩, rfl, hdisk'⟩
      rintro _ ⟨⟩
      rfl

end DiskFile

/-! ## The maps -/

/-- A builder whose pairs have so many bytes. -/
structure InverseBuilder.Plain (bytes : Nat) (builder : InverseBuilder) : Prop where
  pairs : builder.pairs.Plain
  bytes_eq : builder.pairs.reservation.bytes = bytes
  memory : builder.memory.memory = true

theorem InverseBuilder.drop_disk {bytes : Nat} {builder : InverseBuilder} {r : SortResources}
    (hplain : builder.Plain bytes) (hdisk : Disk limit peak (d + bytes) r) :
    Disk limit peak d (builder.drop r) := by
  refine LeanRows.Sort.drop_disk ?_
  rw [Reservation.diskPart, hplain.memory]
  exact DiskFile.drop_filed (p := (builder.pairs, r)) ⟨hplain.pairs, hplain.bytes_eq, hdisk⟩

section Maps
include htop hlimit hpeak

theorem InverseBuilder.new_disk {records : Nat} (hroom : d + records * pairBytes ≤ top)
    (owner bucketRows bufferBytes : Nat) (os : Answers) :
    Exec.Triple (Disk limit peak d) (InverseBuilder.new owner records bucketRows bufferBytes os)
      (fun builder r => builder.Plain (records * pairBytes) ∧
        Disk limit peak (d + records * pairBytes) r) (NoQuota peak) := by
  unfold InverseBuilder.new
  generalize chunkBytes = chunk
  split
  · exact .throw fun r h => ⟨nofun, h.peak_le⟩
  refine .bind (reserve_memory _) fun memory => ?_
  rintro r ⟨rfl, hdisk⟩
  have hallocated : Exec.Triple (Disk limit peak d) (do
      let pairs ← DiskFile.create owner (os 0) (os 1)
      DiskFile.keep (DiskFile.allocate (records * pairBytes) (os 2) (os 3)) pairs)
      (fun pairs r => DiskFile.Filed limit peak (d + records * pairBytes) (records * pairBytes)
        (pairs, r)) (NoQuota peak) := by
    refine .bind (DiskFile.create_filed htop hlimit hpeak (by omega) owner _ _) fun pairs => ?_
    have hkeep : Exec.Triple (fun r => DiskFile.Filed limit peak d 0 (pairs, r))
        (DiskFile.keep (DiskFile.allocate (records * pairBytes) (os 2) (os 3)) pairs)
        (fun file r => DiskFile.Filed limit peak (d + records * pairBytes)
          (0 + records * pairBytes) (file, r)) (NoQuota peak) :=
      DiskFile.keep_filed (DiskFile.allocate_filed htop hlimit hpeak hroom _ _)
    rwa [Nat.zero_add] at hkeep
  have hrun := hallocated r hdisk
  simp only
  generalize (do
      let pairs ← DiskFile.create owner (os 0) (os 1)
      DiskFile.keep (DiskFile.allocate (records * pairBytes) (os 2) (os 3)) pairs :
        Exec SortResources SortError DiskFile) r = result at hrun ⊢
  obtain ⟨e | pairs, r'⟩ := result
  · exact ⟨hrun.1, (Reservation.drop_diskPeak _ _).trans_le hrun.2⟩
  · exact ⟨⟨hrun.1, hrun.2.1, rfl⟩, hrun.2.2⟩

/-- Two headers, and for each record its place in both maps and its pair. -/
theorem SortSession.makeMaps_disk (records : Nat)
    (hroom : d + (2 * mapHeaderBytes + records * 8 + records * pairBytes) ≤ top) (owner : Nat)
    (os : Answers) : Exec.Triple (Disk limit peak d) (makeMaps owner records os)
      (fun maps r => (maps.1.Plain ∧ maps.1.reservation.bytes = mapHeaderBytes) ∧
        (maps.2.1.Plain ∧ maps.2.1.reservation.bytes = mapHeaderBytes + records * 8) ∧
        maps.2.2.Plain (records * pairBytes) ∧
        Disk limit peak (d + (2 * mapHeaderBytes + records * 8 + records * pairBytes)) r)
      (NoQuota peak) := by
  unfold makeMaps
  generalize bucketRows = rows, bucketBufferBytes = buffer
  refine .bind (DiskFile.create_filed htop hlimit hpeak (by omega) owner _ _) fun order =>
    .bind (DiskFile.keep_filed (DiskFile.append_filed htop hlimit hpeak (by omega) _)) fun order =>
    DiskFile.during_noQuota (Exec.Triple.pre_mono (show Exec.Triple
      (fun r => (order.Plain ∧ order.reservation.bytes = mapHeaderBytes) ∧
        Disk limit peak (d + mapHeaderBytes) r) _ _ _ from .of_pre fun horder => ?_)
      fun r h => ⟨⟨h.1, h.2.1.trans (Nat.zero_add _)⟩, h.2.2⟩)
  refine .bind (DiskFile.create_filed htop hlimit hpeak (by omega) owner _ _) fun inverse =>
    .bind (DiskFile.keep_filed (.bind (DiskFile.append_filed htop hlimit hpeak (by omega) _)
      fun _ =>
      DiskFile.allocate_filed htop hlimit hpeak (by omega) _ _)) fun inverse =>
    DiskFile.during_noQuota (Exec.Triple.pre_mono (show Exec.Triple
      (fun r => (inverse.Plain ∧ inverse.reservation.bytes = mapHeaderBytes + records * 8) ∧
        Disk limit peak (d + (2 * mapHeaderBytes + records * 8)) r) _ _ _ from
      .of_pre fun hinverse => ?_)
      fun r h => ⟨⟨h.1, h.2.1.trans (by omega)⟩, ?_⟩)
  · exact .bind (InverseBuilder.new_disk htop hlimit hpeak (by omega) _ _ _ _) fun builder =>
      .pure fun r h => ⟨horder, hinverse, h.1, by rw [← Nat.add_assoc d]; exact h.2⟩
  · rw [show d + (2 * mapHeaderBytes + records * 8) = d + mapHeaderBytes + mapHeaderBytes +
      records * 8 by omega]
    exact h.2.2

end Maps

end Ledger

/-! ## The files of a session -/

namespace SortSession

def size (file : Option DiskFile) : Nat := file.elim 0 fun file => file.reservation.bytes

def pairsSize (builder : Option InverseBuilder) : Nat :=
  builder.elim 0 fun builder => builder.pairs.reservation.bytes

/-- The disk bytes that are charged for the session. -/
def charge (s : SortSession) : Nat :=
  size s.runFile + size s.passFile + size s.order + size s.inverse + pairsSize s.inverseBuilder

structure PlainFiles (runFile passFile order inverse : Option DiskFile)
    (builder : Option InverseBuilder) (mergeMemory : Option Reservation) : Prop where
  runFile : ∀ file, runFile = some file → file.Plain
  passFile : ∀ file, passFile = some file → file.Plain
  order : ∀ file, order = some file → file.Plain
  inverse : ∀ file, inverse = some file → file.Plain
  builder : ∀ b, builder = some b → b.Plain (pairsSize builder)
  mergeMemory : ∀ memory, mergeMemory = some memory → memory.memory = true

def Plain (s : SortSession) : Prop :=
  PlainFiles s.runFile s.passFile s.order s.inverse s.inverseBuilder s.mergeMemory

/-- A run with a head is not at its end, and runs beyond the pages have nothing left. -/
structure Runs (pages : Nat) (runs : List Run) : Prop where
  heads : ∀ run ∈ runs, run.head.isSome → run.next < run.stop
  tail : ∀ run ∈ runs.drop pages, run.stop ≤ run.next

/-- The records of the runs that are still to be written. -/
def remaining (runs : List Run) : Nat := (runs.map fun run => run.stop - run.next).sum

structure Unmapped (s : SortSession) : Prop where
  order : s.order = none
  inverse : s.inverse = none
  builder : s.inverseBuilder = none
  inverseAt : s.inverseAt = 0

/-- What is written of a pass, and what the runs of the group will still add. -/
def PassSize (s : SortSession) : Prop :=
  if s.tree.stage = .idle then
    size s.passFile ≤ descriptorBytes * s.groupStart ∧ s.groupStart ≤ s.records
  else
    size s.passFile + descriptorBytes * remaining s.tree.runs ≤
      descriptorBytes * s.tree.groupEnd ∧ s.tree.groupEnd ≤ s.records

/-- How much there is on disk in each phase. -/
def PhaseSize (n : Nat) (s : SortSession) : Prop :=
  match s.phase with
  | .extracting => s.Unmapped ∧ s.passFile = none ∧
    size s.runFile + descriptorBytes * s.batch ≤ descriptorBytes * s.records
  | .sortingRuns => s.Unmapped ∧ s.passFile = none ∧ s.writeAt ≤ s.batch ∧
    size s.runFile + descriptorBytes * s.batch ≤
      descriptorBytes * s.records + descriptorBytes * s.writeAt
  | .merging => s.Unmapped ∧ size s.runFile ≤ descriptorBytes * s.records ∧ s.PassSize
  | .buildingInverse => s.passFile = none ∧ s.inverseAt ≤ s.records ∧
    size s.runFile ≤ descriptorBytes * s.records ∧
    size s.order ≤ mapHeaderBytes + orderBytes * s.inverseAt ∧
    size s.inverse ≤ mapHeaderBytes + s.records * 8 ∧
    pairsSize s.inverseBuilder ≤ s.records * pairBytes
  | .complete => s.charge ≤ sortScratchBytesPerRow * n
  | .cancelled => s.charge ≤ sortScratchBytesPerRow * n

structure Inv (n : Nat) (s : SortSession) : Prop where
  plain : s.Plain
  rows : s.records + s.unread + (if s.pending then 1 else 0) ≤ n
  runs : Runs s.pages s.tree.runs
  phase : s.PhaseSize n

section Bounds
variable {n : Nat} {s : SortSession}

theorem size_none {file : Option DiskFile} (h : file = none) : size file = 0 := by
  rw [h]
  rfl

theorem Unmapped.charge_eq (h : s.Unmapped) : s.charge = size s.runFile + size s.passFile := by
  rw [charge, size_none h.order, size_none h.inverse, h.builder]
  rfl

theorem PassSize.le (h : s.PassSize) : size s.passFile ≤ descriptorBytes * s.records := by
  unfold PassSize at h
  have hmul := fun a => Nat.mul_le_mul_left descriptorBytes (n := a) (m := s.records)
  split at h
  · exact h.1.trans (Nat.mul_le_mul_left _ h.2)
  · exact (Nat.le_of_add_right_le h.1).trans (Nat.mul_le_mul_left _ h.2)

/-- In each phase the files fit what was set aside. A single row leaves room for the headers. -/
theorem Inv.charge_le (h : s.Inv n) (hn : 1 ≤ n) : s.charge ≤ sortScratchBytesPerRow * n := by
  have hrows := h.rows
  have hphase := h.phase
  unfold PhaseSize at hphase
  cases hs : s.phase with
  | extracting =>
    rw [hs] at hphase
    obtain ⟨hmaps, hpass, hrun⟩ := hphase
    rw [hmaps.charge_eq, size_none hpass]
    simp only [descriptorBytes, sortScratchBytesPerRow] at *
    omega
  | sortingRuns =>
    rw [hs] at hphase
    obtain ⟨hmaps, hpass, hwrite, hrun⟩ := hphase
    rw [hmaps.charge_eq, size_none hpass]
    simp only [descriptorBytes, sortScratchBytesPerRow] at *
    omega
  | merging =>
    rw [hs] at hphase
    obtain ⟨hmaps, hrun, hpass⟩ := hphase
    have hle := hpass.le
    rw [hmaps.charge_eq]
    simp only [descriptorBytes, sortScratchBytesPerRow] at *
    omega
  | buildingInverse =>
    rw [hs] at hphase
    obtain ⟨hpass, hat, hrun, horder, hinverse, hpairs⟩ := hphase
    rw [charge, size_none hpass]
    simp only [descriptorBytes, sortScratchBytesPerRow, mapHeaderBytes, orderBytes, pairBytes] at *
    omega
  | complete =>
    rw [hs] at hphase
    exact hphase
  | cancelled =>
    rw [hs] at hphase
    exact hphase

end Bounds

/-! ## Every step keeps to it -/

/-- The session is in order, and the disk counter is what it charges beside what others do. -/
def Holds (n limit peak others : Nat) (p : SortSession × SortResources) : Prop :=
  p.1.Inv n ∧ Disk limit peak (others + p.1.charge) p.2

section Steps
variable {n limit top peak others d : Nat} {s : SortSession}

theorem check_holds {P : SortSession × SortResources → Prop} (answer : Answer)
    (hpeak : ∀ p, P p → p.2.diskPeak ≤ peak) :
    Exec.Triple P (answer.check : SortM Unit) (fun _ => P) fun e p => NoQuota peak e p.2 := by
  cases answer with
  | ok u => exact fun p h => h
  | error e => exact fun p h => ⟨nofun, hpeak p h⟩

/-- What an action of a file adds to the file it adds to the disk. -/
theorem onFile_spends {file : SortSession → Option DiskFile}
    {put : DiskFile → SortSession → SortSession} {action : DiskFileM Unit} (count : Nat)
    (haction : ∀ bytes, Exec.Triple (DiskFile.Filed limit peak d bytes) action
      (fun _ => DiskFile.Filed limit peak (d + count) (bytes + count))
      fun e p => NoQuota peak e p.2)
    (hplain : ∀ f, file s = some f → f.Plain) :
    Exec.Triple (fun p => p.1 = s ∧ Disk limit peak d p.2) (onFile file put action)
      (fun _ p => ∃ f f' : DiskFile, file s = some f ∧ f'.Plain ∧
        f'.reservation.bytes = f.reservation.bytes + count ∧ p.1 = put f' s ∧
        Disk limit peak (d + count) p.2)
      fun e p => NoQuota peak e p.2 := by
  rintro ⟨s', r⟩ ⟨hs, hdisk⟩
  obtain rfl : s' = s := hs
  unfold onFile
  cases hfile : file s' with
  | none => exact ⟨nofun, hdisk.peak_le⟩
  | some f =>
    have hrun := haction f.reservation.bytes (f, r) ⟨hplain f hfile, rfl, hdisk⟩
    simp only
    rcases hresult : action (f, r) with ⟨e | u, f', r'⟩
    · rw [hresult] at hrun
      exact hrun
    · rw [hresult] at hrun
      exact ⟨f, f', rfl, hrun.1, hrun.2.1, rfl, hrun.2.2⟩

theorem release_file {file : Option DiskFile} {r : SortResources}
    (hplain : ∀ f, file = some f → f.Plain) (h : Disk limit peak (d + size file) r) :
    Disk limit peak d (release DiskFile.drop file r) := by
  cases file with
  | none => exact h
  | some f => exact DiskFile.drop_filed (p := (f, r)) ⟨hplain f rfl, rfl, h⟩

theorem release_memory {memory : Option Reservation} {r : SortResources}
    (hmemory : ∀ m, memory = some m → m.memory = true) (h : Disk limit peak d r) :
    Disk limit peak d (release Reservation.drop memory r) := by
  cases memory with
  | none => exact h
  | some m =>
    refine drop_disk ?_
    rwa [Reservation.diskPart, hmemory m rfl]

theorem runs_new (pages fanIn : Nat) : Runs pages (Tree.new fanIn).runs := by
  refine ⟨fun run hmem => ?_, fun run hmem => ?_⟩
  · rw [(List.mem_replicate.mp hmem).2]
    exact nofun
  · rw [(List.mem_replicate.mp (List.mem_of_mem_drop hmem)).2]

theorem Unmapped.congr {s' : SortSession} (h : s.Unmapped) (horder : s'.order = s.order)
    (hinverse : s'.inverse = s.inverse) (hbuilder : s'.inverseBuilder = s.inverseBuilder)
    (hat : s'.inverseAt = s.inverseAt) : s'.Unmapped :=
  ⟨horder.trans h.order, hinverse.trans h.inverse, hbuilder.trans h.builder,
    hat.trans h.inverseAt⟩

theorem Unmapped.disk {r : SortResources} (h : s.Unmapped)
    (hdisk : Disk limit peak (others + (size s.runFile + size s.passFile)) r) :
    Disk limit peak (others + s.charge) r := by
  rwa [h.charge_eq]

/-- All records so far are in the run file, and there is no other file. -/
structure Gathered (n : Nat) (s : SortSession) : Prop where
  plain : s.Plain
  rows : s.records + s.unread + (if s.pending then 1 else 0) ≤ n
  runs : Runs s.pages s.tree.runs
  maps : s.Unmapped
  pass : s.passFile = none
  run : size s.runFile ≤ descriptorBytes * s.records

def Gathers (n limit peak others : Nat) (p : SortSession × SortResources) : Prop :=
  p.1.Gathered n ∧ Disk limit peak (others + size p.1.runFile) p.2

theorem remaining_eq_zero {runs : List Run} (h : ∀ run ∈ runs, run.stop ≤ run.next) :
    remaining runs = 0 := by
  induction runs with
  | nil => rfl
  | cons run runs ih =>
    have hrest := ih fun r hmem => h r (List.mem_cons_of_mem _ hmem)
    have hrun := h run List.mem_cons_self
    simp only [remaining, List.map_cons, List.sum_cons] at hrest ⊢
    omega

theorem remaining_set {runs : List Run} {index : Nat} {run : Run} (h : runs[index]? = some run)
    (next : Run) : remaining (runs.set index next) + (run.stop - run.next) =
      remaining runs + (next.stop - next.next) := by
  induction runs generalizing index with
  | nil => cases h
  | cons first runs ih =>
    cases index with
    | zero =>
      obtain rfl : first = run := Option.some.inj h
      simp only [remaining, List.set_cons_zero, List.map_cons, List.sum_cons]
      omega
    | succ index =>
      have hrest := ih (show runs[index]? = some run from h)
      simp only [remaining, List.set_cons_succ, List.map_cons, List.sum_cons] at hrest ⊢
      omega

/-- Only a run before the pages' end can change while it has a head. -/
theorem Runs.set {pages index head next : Nat} {runs : List Run} {stop : Nat} {run : Run}
    (h : Runs pages runs) (hrun : runs[index]? = some ⟨some head, next, stop⟩)
    (hhead : run.head.isSome → run.next < run.stop) : Runs pages (runs.set index run) := by
  have hlt : next < stop := h.heads _ (List.mem_of_getElem? hrun) rfl
  have hindex : index < pages := by
    by_contra hge
    have hmem : (⟨some head, next, stop⟩ : Run) ∈ runs.drop pages := by
      refine List.mem_of_getElem? (i := index - pages) ?_
      rw [List.getElem?_drop, Nat.add_sub_cancel' (Nat.le_of_not_lt hge)]
      exact hrun
    exact absurd (h.tail _ hmem) (Nat.not_le_of_lt hlt)
  refine ⟨fun r hmem => ?_, fun r hmem => h.tail r ?_⟩
  · rcases List.mem_or_eq_of_mem_set hmem with hmem | rfl
    · exact h.heads r hmem
    · exact hhead
  · rwa [List.drop_set_of_lt hindex] at hmem

theorem loadHead_eq_ok {read : Answer} {run run' : Run} (h : loadHead read run = .ok run') :
    run'.next = run.next ∧ run'.stop = run.stop ∧ (run'.head.isSome → run'.next < run'.stop) := by
  unfold loadHead at h
  split at h
  · rename_i hlt
    split at h
    · cases h
    · cases h
      exact ⟨rfl, rfl, fun _ => hlt⟩
  · cases h
    exact ⟨rfl, rfl, nofun⟩

theorem loadHead_error {read : Answer} {run : Run} {e : SortError}
    (h : loadHead read run = .error e) : e ≠ .quota := by
  unfold loadHead at h
  split at h
  · split at h
    · cases h
      exact nofun
    · cases h
  · cases h

theorem startRuns_error {width records : Nat} {os : Answers} {pages start : Nat} {runs : List Run}
    {e : SortError} (h : startRuns width records os pages start runs = .error e) :
    e ≠ .quota := by
  induction pages generalizing start runs with
  | zero => cases h
  | succ pages ih =>
    cases runs with
    | nil => cases h
    | cons run runs =>
      simp only [startRuns] at h
      split at h
      · cases h
        exact loadHead_error (by assumption)
      · split at h
        · cases h
          exact ih (by assumption)
        · cases h

/-- The runs of a group lie one behind the other. -/
theorem startRuns_eq_ok {width records : Nat} {os : Answers} {pages start : Nat} {runs : List Run}
    {started : List Run × Nat} (hruns : Runs pages runs) (hstart : start ≤ records)
    (h : startRuns width records os pages start runs = .ok started) :
    Runs pages started.1 ∧ start + remaining started.1 = started.2 ∧ started.2 ≤ records := by
  induction pages generalizing start runs started with
  | zero =>
    cases h
    have hzero : remaining runs = 0 := remaining_eq_zero hruns.tail
    exact ⟨hruns, congrArg (start + ·) hzero, hstart⟩
  | succ pages ih =>
    cases runs with
    | nil =>
      cases h
      exact ⟨hruns, rfl, hstart⟩
    | cons run runs =>
      simp only [startRuns] at h
      split at h
      · cases h
      · rename_i loaded hload
        obtain ⟨hnext, hstop, hhead⟩ := loadHead_eq_ok hload
        split at h
        · cases h
        · rename_i rest groupEnd hrest
          cases h
          obtain ⟨hrestRuns, hsum, hle⟩ := ih ⟨fun r hmem =>
            hruns.heads r (List.mem_cons_of_mem _ hmem), hruns.tail⟩ (Nat.min_le_right _ _) hrest
          refine ⟨⟨?_, hrestRuns.tail⟩, ?_, hle⟩
          · rintro r hmem
            rcases List.mem_cons.mp hmem with rfl | hmem
            · exact hhead
            · exact hrestRuns.heads r hmem
          · simp only [remaining, List.map_cons, List.sum_cons] at hsum ⊢
            simp only at hnext hstop
            omega

theorem play_error {node : Nat} {c : Choice} {tree : Tree} {e : SortError}
    (h : play node c tree = .error e) : e ≠ .quota := by
  unfold play at h
  split at h
  · cases h
  · cases h
  · split at h
    · split at h
      · cases h
        exact Fault.error_ne_quota _
      · cases h
    · cases h
      exact nofun

/-- What a builder does in its buffers leaves its file and its memory as they are. -/
def KeepsFiles (builder : InverseBuilder) : Except SortError InverseBuilder → Prop
  | .ok next => next.pairs = builder.pairs ∧ next.memory = builder.memory
  | .error e => e ≠ .quota

theorem flush_keepsFiles (bucket : Nat) (written : Answer) (builder : InverseBuilder) :
    KeepsFiles builder (builder.flush bucket written) := by
  unfold InverseBuilder.flush
  dsimp only
  split
  · exact ⟨rfl, rfl⟩
  split
  · exact nofun
  · cases written with
    | error e => exact nofun
    | ok u => exact ⟨rfl, rfl⟩

theorem push_keepsFiles (row rank : Nat) (written : Answer) (builder : InverseBuilder) :
    KeepsFiles builder (builder.push row rank written) := by
  unfold InverseBuilder.push
  split
  · exact nofun
  dsimp only
  split
  · exact flush_keepsFiles _ written { builder with
      filled := builder.filled.set (row / builder.bucketRows)
        (builder.filled.getD (row / builder.bucketRows) 0 + pairBytes) }
  · exact ⟨rfl, rfl⟩

theorem finishFrom_keepsFiles (os : Answers) (count bucket : Nat) (builder : InverseBuilder) :
    KeepsFiles builder (InverseBuilder.finishFrom os count bucket builder) := by
  induction count generalizing bucket builder with
  | zero => exact ⟨rfl, rfl⟩
  | succ count ih =>
    unfold InverseBuilder.finishFrom
    have hflush := flush_keepsFiles bucket (os bucket) builder
    cases hresult : builder.flush bucket (os bucket) with
    | error e =>
      rw [hresult] at hflush
      exact hflush
    | ok next =>
      rw [hresult] at hflush
      simp only
      split
      · exact nofun
      · have hrest := ih (bucket + 1) next
        cases hlast : InverseBuilder.finishFrom os count (bucket + 1) next with
        | error e =>
          rw [hlast] at hrest
          exact hrest
        | ok last =>
          rw [hlast] at hrest
          exact ⟨hrest.1.trans hflush.1, hrest.2.trans hflush.2⟩

theorem place_eq_ok {placed : Except Fault Unit} {builder : InverseBuilder}
    {next : Bool × InverseBuilder}
    (h : builder.place (placed.mapError Fault.error) = .ok next) :
    next.2.pairs = builder.pairs ∧ next.2.memory = builder.memory := by
  unfold InverseBuilder.place at h
  split at h
  · cases h
    exact ⟨rfl, rfl⟩
  cases placed with
  | error fault => cases h
  | ok u =>
    cases h
    dsimp only
    split <;> exact ⟨rfl, rfl⟩

theorem place_error {placed : Except Fault Unit} {builder : InverseBuilder} {e : SortError}
    (h : builder.place (placed.mapError Fault.error) = .error e) : e ≠ .quota := by
  unfold InverseBuilder.place at h
  split at h
  · cases h
  cases placed with
  | error fault =>
    cases h
    exact fault.error_ne_quota
  | ok u => cases h

theorem onBuilder_keeps {action : InverseBuilder → Except SortError InverseBuilder}
    (haction : ∀ builder, KeepsFiles builder (action builder)) :
    Exec.Triple (fun p => p.1 = s ∧ Disk limit peak d p.2) (onBuilder action)
      (fun _ p => ∃ b b' : InverseBuilder, s.inverseBuilder = some b ∧ b'.pairs = b.pairs ∧
        b'.memory = b.memory ∧ p.1 = { s with inverseBuilder := some b' } ∧ Disk limit peak d p.2)
      fun e p => NoQuota peak e p.2 := by
  refine .get_bind fun s' => ?_
  rintro ⟨s'', r⟩ ⟨hs', hs, hdisk⟩
  obtain rfl : s'' = s' := hs'
  obtain rfl : s'' = s := hs
  cases hbuilder : s''.inverseBuilder with
  | none => exact ⟨nofun, hdisk.peak_le⟩
  | some b =>
    have hkeeps := haction b
    simp only
    cases hresult : action b with
    | error e =>
      rw [hresult] at hkeeps
      exact ⟨hkeeps, hdisk.peak_le⟩
    | ok b' =>
      rw [hresult] at hkeeps
      exact ⟨b, b', rfl, hkeeps.1, hkeeps.2, rfl, hdisk⟩

theorem Runs.mono {pages pages' : Nat} {runs : List Run} (h : Runs pages runs)
    (hle : pages ≤ pages') : Runs pages' runs := by
  refine ⟨h.heads, fun run hmem => h.tail run ?_⟩
  rw [← Nat.add_sub_cancel' hle, ← List.drop_drop] at hmem
  exact List.mem_of_mem_drop hmem

/-- A change of the tree alone. -/
theorem Inv.set_tree {tree : Tree} {groupStart : Nat} (h : s.Inv n) (hphase : s.phase = .merging)
    (hruns : Runs s.pages tree.runs)
    (hpass : PassSize { s with groupStart := groupStart, tree := tree }) :
    ({ s with groupStart := groupStart, tree := tree } : SortSession).Inv n := by
  have hsize := h.phase
  rw [PhaseSize, hphase] at hsize
  refine ⟨h.plain, h.rows, hruns, ?_⟩
  simp only [PhaseSize, hphase]
  exact ⟨hsize.1.congr rfl rfl rfl rfl, hsize.2.1, hpass⟩

theorem Inv.passSize (h : s.Inv n) (hphase : s.phase = .merging) : s.PassSize := by
  have hsize := h.phase
  rw [PhaseSize, hphase] at hsize
  exact hsize.2.2

variable (hn : 1 ≤ n) (htop : others + sortScratchBytesPerRow * n ≤ limit)
  (hlimit : limit < u64Bound) (hpeak : others + sortScratchBytesPerRow * n ≤ peak)

include htop hlimit hpeak hn

theorem beginMaps_holds (os : Answers) :
    Exec.Triple (Gathers n limit peak others) (beginMaps os)
      (fun _ => Holds n limit peak others) fun e p => NoQuota peak e p.2 := by
  refine .seq (fun _ => Gathers n limit peak others) ?_ fun _ => ?_
  · rintro ⟨s, r⟩ ⟨h, hdisk⟩
    exact ⟨⟨⟨h.plain.runFile, h.plain.passFile, h.plain.order, h.plain.inverse, h.plain.builder,
      nofun⟩, h.rows, runs_new _ _, h.maps.congr rfl rfl rfl rfl, h.pass, h.run⟩,
      release_memory h.plain.mergeMemory hdisk⟩
  refine .get_bind fun s => .seq (fun maps p => (p.1 = s ∧ s.Gathered n) ∧
    (maps.1.Plain ∧ maps.1.reservation.bytes = mapHeaderBytes) ∧
    (maps.2.1.Plain ∧ maps.2.1.reservation.bytes = mapHeaderBytes + s.records * 8) ∧
    maps.2.2.Plain (s.records * pairBytes) ∧
    Disk limit peak (others + size s.runFile +
      (2 * mapHeaderBytes + s.records * 8 + s.records * pairBytes)) p.2)
    (.inner fun s' => ?_) fun maps => .modify ?_
  · rintro r ⟨hs, h, hdisk⟩
    obtain rfl : s' = s := hs
    have hrun := h.run
    have hrows := h.rows
    have hmade := makeMaps_disk htop hlimit hpeak s'.records
      (d := others + size s'.runFile)
      (by
        simp only [descriptorBytes, sortScratchBytesPerRow, mapHeaderBytes, pairBytes] at *
        omega) s'.owner os r hdisk
    generalize makeMaps s'.owner s'.records os r = result at hmade ⊢
    obtain ⟨e | maps, r'⟩ := result
    · exact hmade
    · exact ⟨⟨rfl, h⟩, hmade⟩
  · rintro s' r ⟨⟨hs, h⟩, horder, hinverse, hpairs, hdisk⟩
    obtain rfl : s' = s := hs
    have hbuilder : pairsSize (some maps.2.2) = s'.records * pairBytes := hpairs.bytes_eq
    refine ⟨⟨⟨h.plain.runFile, h.plain.passFile, ?_, ?_, ?_, h.plain.mergeMemory⟩, h.rows, h.runs,
      ?_⟩, ?_⟩
    · rintro _ ⟨⟩
      exact horder.1
    · rintro _ ⟨⟩
      exact hinverse.1
    · rintro _ ⟨⟩
      rw [hbuilder]
      exact hpairs
    · exact ⟨h.pass, h.maps.inverseAt.trans_le (Nat.zero_le _), h.run,
        horder.2.trans_le (Nat.le_add_right _ _), hinverse.2.le, hbuilder.le⟩
    · have horder' : size (some maps.1) = mapHeaderBytes := horder.2
      have hinverse' : size (some maps.2.1) = mapHeaderBytes + s'.records * 8 := hinverse.2
      convert hdisk using 1
      simp only [charge, size_none h.pass, horder', hinverse', hbuilder]
      omega

theorem beginDiskMerge_holds (os : Answers) :
    Exec.Triple (Gathers n limit peak others) (beginDiskMerge os)
      (fun _ => Holds n limit peak others) fun e p => NoQuota peak e p.2 := by
  refine .seq (fun _ => Gathers n limit peak others) ?_ fun _ => ?_
  · rintro ⟨s, r⟩ ⟨h, hdisk⟩
    refine (onFile_spends 0 (fun _ => DiskFile.finishWriting_filed (os 0))
      h.plain.runFile).post_mono ?_ (s, r) ⟨rfl, hdisk⟩
    rintro _ ⟨_, r'⟩ ⟨f, f', hf, hf', hbytes, rfl, hdisk'⟩
    have hsize : size (some f') = size s.runFile := by
      rw [hf]
      exact hbytes
    refine ⟨⟨⟨?_, h.plain.passFile, h.plain.order, h.plain.inverse, h.plain.builder,
      h.plain.mergeMemory⟩, h.rows, h.runs, h.maps.congr rfl rfl rfl rfl, h.pass,
      hsize.trans_le h.run⟩, ?_⟩
    · rintro _ ⟨⟩
      exact hf'
    · change Disk limit peak (others + size (some f')) r'
      rw [hsize]
      exact hdisk'
  refine .get_bind fun s => .ite (fun _ => ?_) fun _ => ?_
  · exact (beginMaps_holds hn htop hlimit hpeak _).pre_mono fun p hp => hp.2
  refine .modify_bind (Gathers n limit peak others) ?_ ?_
  · rintro s' r ⟨hs, h, hdisk⟩
    obtain rfl : s' = s := hs
    exact ⟨⟨h.plain, h.rows, h.runs.mono (Nat.le_max_left _ _), h.maps.congr rfl rfl rfl rfl,
      h.pass,
      h.run⟩, hdisk⟩
  refine .seq (fun file p => p.1.Gathered n ∧
    DiskFile.Filed limit peak (others + size p.1.runFile) 0 (file, p.2)) (.inner fun s' => ?_)
    fun file => ?_
  · rintro r ⟨h, hdisk⟩
    have hrun := h.run
    have hrows := h.rows
    have hmade := DiskFile.create_filed htop hlimit hpeak (d := others + size s'.runFile)
      (by
        simp only [descriptorBytes, sortScratchBytesPerRow] at *
        omega) s.owner (os 1) (os 2) r hdisk
    generalize DiskFile.create s.owner (os 1) (os 2) r = result at hmade ⊢
    obtain ⟨e | file, r'⟩ := result
    · exact hmade
    · exact ⟨h, hmade⟩
  · rintro ⟨s', r⟩ ⟨h, hfile, hbytes, hdisk⟩
    have hsize : size (some file) = 0 := hbytes
    refine ⟨⟨⟨h.plain.runFile, ?_, h.plain.order, h.plain.inverse, h.plain.builder,
      h.plain.mergeMemory⟩, h.rows, h.runs, h.maps.congr rfl rfl rfl rfl, h.run, ?_⟩, ?_⟩
    · rintro _ ⟨⟩
      exact hfile
    · exact ⟨hsize.trans_le (Nat.zero_le _), Nat.zero_le _⟩
    · refine Unmapped.disk (h.maps.congr rfl rfl rfl rfl) ?_
      change Disk limit peak (others + (size s'.runFile + size (some file)))
        (release DiskFile.drop s'.passFile r)
      refine release_file h.plain.passFile ?_
      rwa [hsize, size_none h.pass]

theorem extract_holds (c : Choice) (hphase : s.phase = .extracting) :
    Exec.Triple (fun p => p.1 = s ∧ Holds n limit peak others p) (extract c)
      (fun _ => Holds n limit peak others) fun e p => NoQuota peak e p.2 := by
  unfold extract
  cases c.fault with
  | some fault => exact .throw fun p hp => hp.2.2.noQuota
  | none =>
    refine .get_bind fun s' => ?_
    rintro ⟨s'', r⟩ ⟨hs', hs, hinv, hdisk⟩
    obtain rfl : s'' = s' := hs'
    obtain rfl : s'' = s := hs
    replace hinv : s''.Inv n := hinv
    have hsize := hinv.phase
    rw [PhaseSize, hphase] at hsize
    obtain ⟨hmaps, hpass, hrun⟩ := hsize
    have hrows := hinv.rows
    have hgathers : s''.batch = 0 → Gathers n limit peak others (s'', r) := fun hbatch => by
      rw [hbatch] at hrun
      refine ⟨⟨hinv.plain, hinv.rows, hinv.runs, hmaps, hpass, hrun⟩, ?_⟩
      rwa [hmaps.charge_eq, size_none hpass] at hdisk
    by_cases hpending : s''.pending = true
    · rw [if_pos hpending]
      by_cases hrecord : c.event = .record
      · simp only [hrecord, if_true]
        refine ⟨⟨hinv.plain, ?_, hinv.runs, ?_⟩, hdisk⟩
        · rw [if_pos hpending] at hrows
          simp only [Bool.false_eq_true, if_false]
          omega
        · simp only [PhaseSize, hphase]
          refine ⟨hmaps.congr rfl rfl rfl rfl, hpass, ?_⟩
          rw [Nat.mul_succ, Nat.mul_succ]
          omega
      · simp only [hrecord, if_false]
        exact ⟨hinv, hdisk⟩
    rw [if_neg hpending]
    rw [if_neg hpending] at hrows
    by_cases hfull : s''.batch = s''.batchCapacity ∨ s''.scanner = false
    · rw [if_pos hfull]
      by_cases hbatch : s''.batch = 0
      · rw [if_pos hbatch]
        exact beginDiskMerge_holds hn htop hlimit hpeak _ (s'', r) (hgathers hbatch)
      · rw [if_neg hbatch]
        exact ⟨⟨hinv.plain, hinv.rows, hinv.runs, hmaps.congr rfl rfl rfl rfl, hpass,
          Nat.zero_le _, hrun⟩, hdisk⟩
    · rw [if_neg hfull]
      have hnext : ∀ scanner : Bool, 0 < s''.unread → Holds n limit peak others
          ({ s'' with scanner := scanner, unread := s''.unread - 1, pending := true }, r) := by
        intro scanner hpos
        refine ⟨⟨hinv.plain, ?_, hinv.runs, ?_⟩, hdisk⟩
        · simp only [if_true]
          omega
        · simp only [PhaseSize, hphase]
          exact ⟨hmaps.congr rfl rfl rfl rfl, hpass, hrun⟩
      cases c.event with
      | reading => exact ⟨hinv, hdisk⟩
      | record => exact ⟨hinv, hdisk⟩
      | found =>
        by_cases hpos : 0 < s''.unread
        · simp only [Exec.modify, hpos, if_true]
          exact hnext s''.scanner hpos
        · simp only [Exec.modify, hpos, if_false]
          exact ⟨hinv, hdisk⟩
      | finished last =>
        by_cases hlast : last = true ∧ 0 < s''.unread
        · simp only [Exec.modify, hlast, and_self, if_true]
          exact hnext false hlast.2
        · simp only [Exec.modify, hlast, if_false]
          refine ⟨⟨hinv.plain, hinv.rows, hinv.runs, ?_⟩, hdisk⟩
          simp only [PhaseSize, hphase]
          exact ⟨hmaps.congr rfl rfl rfl rfl, hpass, hrun⟩

theorem sortBatch_holds (c : Choice) (hphase : s.phase = .sortingRuns) :
    Exec.Triple (fun p => p.1 = s ∧ Holds n limit peak others p) (sortBatch c)
      (fun _ => Holds n limit peak others) fun e p => NoQuota peak e p.2 := by
  refine .get_bind fun s' => ?_
  rintro ⟨s'', r⟩ ⟨hs', hs, hinv, hdisk⟩
  obtain rfl : s'' = s' := hs'
  obtain rfl : s'' = s := hs
  replace hinv : s''.Inv n := hinv
  have hsize := hinv.phase
  rw [PhaseSize, hphase] at hsize
  obtain ⟨hmaps, hpass, hwrite, hrun⟩ := hsize
  have hrows := hinv.rows
  -- Apart from the records that are written, a step only moves within the batch.
  have hmerge : ∀ merge : Merge, Holds n limit peak others ({ s'' with merge := merge }, r) := by
    refine fun merge => ⟨⟨hinv.plain, hinv.rows, hinv.runs, ?_⟩, hdisk⟩
    simp only [PhaseSize, hphase]
    exact ⟨hmaps.congr rfl rfl rfl rfl, hpass, hwrite, hrun⟩
  by_cases hwidth : s''.batch ≤ s''.merge.width
  · rw [if_pos hwidth]
    by_cases hmore : s''.writeAt < s''.batch
    · rw [if_pos hmore]
      have hcharge : s''.charge = size s''.runFile := by rw [hmaps.charge_eq, size_none hpass]; rfl
      have hroom : others + s''.charge + descriptorBytes ≤ others + sortScratchBytesPerRow * n := by
        rw [hcharge]
        simp only [descriptorBytes, sortScratchBytesPerRow] at *
        omega
      refine Exec.Triple.bind (onFile_spends _ (fun _ =>
        DiskFile.append_filed htop hlimit hpeak hroom
        (c.os 0)) hinv.plain.runFile) (fun _ => .modify ?_) (s'', r) ⟨rfl, hdisk⟩
      rintro _ r' ⟨f, f', hf, hf', hbytes, rfl, hdisk'⟩
      have hsize : size (some f') = size s''.runFile + descriptorBytes := by
        rw [hf]
        exact hbytes
      refine ⟨⟨⟨?_, hinv.plain.passFile, hinv.plain.order, hinv.plain.inverse,
        hinv.plain.builder, hinv.plain.mergeMemory⟩, hinv.rows, hinv.runs, ?_⟩, ?_⟩
      · rintro _ ⟨⟩
        exact hf'
      · simp only [PhaseSize, hphase]
        refine ⟨hmaps.congr rfl rfl rfl rfl, hpass, hmore, ?_⟩
        rw [hsize, Nat.mul_succ]
        omega
      · refine Unmapped.disk (hmaps.congr rfl rfl rfl rfl) ?_
        change Disk limit peak (others + (size (some f') + size s''.passFile)) r'
        convert hdisk' using 1
        rw [hsize, size_none hpass, hcharge]
        omega
    · rw [if_neg hmore]
      refine ⟨⟨hinv.plain, hinv.rows, hinv.runs, hmaps.congr rfl rfl rfl rfl, hpass, ?_⟩, hdisk⟩
      obtain heq : s''.writeAt = s''.batch := by omega
      rw [heq] at hrun
      change size s''.runFile + descriptorBytes * 0 ≤ descriptorBytes * s''.records
      omega
  rw [if_neg hwidth]
  by_cases hstart : s''.batch ≤ s''.merge.start
  · rw [if_pos hstart]
    exact hmerge _
  rw [if_neg hstart]
  generalize nextPair s''.batch s''.merge = merge
  dsimp only
  generalize (if merge.left = merge.middle then some false
    else if merge.right = merge.stop then some true
    else c.greater.map fun greater => !greater) = takeLeft
  cases c.fault with
  | some fault => exact hdisk.noQuota
  | none =>
    cases takeLeft with
    | none => exact hmerge _
    | some left => exact hmerge _

omit hn htop hlimit hpeak in
theorem startGroup_holds (c : Choice) (hidle : s.tree.stage = .idle) :
    Exec.Triple (fun p => p.1 = s ∧ s.phase = .merging ∧ Holds n limit peak others p)
      (startGroup c) (fun _ p => p.1.phase = .merging ∧ Holds n limit peak others p)
      fun e p => NoQuota peak e p.2 := by
  refine .get_bind fun s' => .ofExcept_bind (fun started hstarted => .modify ?_)
    fun e he p hp => ⟨startRuns_error he, hp.2.2.2.2.peak_le⟩
  rintro s'' r ⟨hs', hs, hphase, hinv, hdisk⟩
  obtain rfl : s'' = s' := hs'
  obtain rfl : s'' = s := hs
  have hpass := hinv.passSize hphase
  rw [PassSize, if_pos hidle] at hpass
  obtain ⟨hruns, hsum, hle⟩ := startRuns_eq_ok hinv.runs hpass.2 hstarted
  have hstage : (if 1 < s''.tree.leaves then Stage.build (s''.tree.leaves - 1) else .emit) ≠
      .idle := by
    split <;> exact nofun
  refine ⟨hphase, Inv.set_tree (s := s'') hinv hphase hruns ?_, hdisk⟩
  rw [PassSize, if_neg hstage]
  refine ⟨?_, hle⟩
  change size s''.passFile + descriptorBytes * remaining started.1 ≤ descriptorBytes * started.2
  rw [← hsum, Nat.mul_add]
  exact Nat.add_le_add_right hpass.1 _

omit hn in
theorem emit_holds (index : Nat) (c : Choice) (hstage : s.tree.stage ≠ .idle)
    (hphase : s.phase = .merging) :
    Exec.Triple (fun p => p.1 = s ∧ Holds n limit peak others p) (emit index c)
      (fun _ => Holds n limit peak others) fun e p => NoQuota peak e p.2 := by
  refine .get_bind fun s' => ?_
  rintro ⟨s'', r⟩ ⟨hs', hs, hinv, hdisk⟩
  obtain rfl : s'' = s' := hs'
  obtain rfl : s'' = s := hs
  replace hinv : s''.Inv n := hinv
  have hsize := hinv.phase
  rw [PhaseSize, hphase] at hsize
  obtain ⟨hmaps, hrun, hpass⟩ := hsize
  rw [PassSize, if_neg hstage] at hpass
  obtain ⟨hpass, hgroup⟩ := hpass
  have hrows := hinv.rows
  rcases hslot : s''.tree.runs[index]? with _ | ⟨_ | head, next, stop⟩
  · exact ⟨nofun, hdisk.peak_le⟩
  · exact ⟨nofun, hdisk.peak_le⟩
  have hlt : next < stop := hinv.runs.heads _ (List.mem_of_getElem? hslot) rfl
  have hleft : remaining (s''.tree.runs.set index ⟨none, next + 1, stop⟩) + 1 =
      remaining s''.tree.runs := by
    have hset := remaining_set hslot ⟨none, next + 1, stop⟩
    simp only at hset
    omega
  have hroom : others + s''.charge + descriptorBytes ≤ others + sortScratchBytesPerRow * n := by
    rw [hmaps.charge_eq]
    simp only [descriptorBytes, sortScratchBytesPerRow] at *
    omega
  obtain ⟨taken, htaken⟩ : ∃ taken : SortSession, taken = { s'' with
    tree := { s''.tree with runs := s''.tree.runs.set index ⟨none, next, stop⟩ } } := ⟨_, rfl⟩
  have hplain : ∀ f, taken.passFile = some f → f.Plain := by
    rw [htaken]
    exact hinv.plain.passFile
  refine (Exec.Triple.modify_bind (fun p => p.1 = taken ∧
    Disk limit peak (others + s''.charge) p.2) ?_ (.bind (onFile_spends _
      (fun _ => DiskFile.append_filed htop hlimit hpeak hroom (c.os 0)) hplain)
      fun _ => .ofExcept_bind (fun run hload => .modify ?_) ?_) :
    Exec.Triple (fun p => p.1 = s'' ∧ Disk limit peak (others + s''.charge) p.2) _ _ _) (s'', r)
    ⟨rfl, hdisk⟩
  · rintro _ r' ⟨rfl, hdisk'⟩
    exact ⟨htaken.symm, hdisk'⟩
  · rintro _ r' ⟨f, f', hf, hf', hbytes, rfl, hdisk'⟩
    subst htaken
    obtain ⟨hnext, hstop, hhead⟩ := loadHead_eq_ok hload
    have hsize : size (some f') = size s''.passFile + descriptorBytes := by
      rw [show s''.passFile = some f from hf]
      exact hbytes
    have hset : (s''.tree.runs.set index ⟨none, next, stop⟩).set index run =
        s''.tree.runs.set index run := List.set_set ..
    have hsum : remaining (s''.tree.runs.set index run) + 1 = remaining s''.tree.runs := by
      have htotal := remaining_set hslot run
      simp only at htotal hnext hstop
      omega
    refine ⟨⟨⟨hinv.plain.runFile, ?_, hinv.plain.order, hinv.plain.inverse, hinv.plain.builder,
      hinv.plain.mergeMemory⟩, hinv.rows, ?_, ?_⟩, ?_⟩
    · rintro _ ⟨⟩
      exact hf'
    · dsimp only
      rw [hset]
      exact hinv.runs.set hslot hhead
    · simp only [PhaseSize, hphase]
      refine ⟨hmaps.congr rfl rfl rfl rfl, hrun, ?_⟩
      rw [PassSize, if_neg nofun]
      dsimp only
      rw [hset, hsize]
      refine ⟨?_, hgroup⟩
      rw [← hsum, Nat.mul_succ] at hpass
      omega
    · refine Unmapped.disk (hmaps.congr rfl rfl rfl rfl) ?_
      change Disk limit peak (others + (size s''.runFile + size (some f'))) r'
      convert hdisk' using 1
      rw [hsize, hmaps.charge_eq]
      omega
  · rintro e he p ⟨f, f', -, -, -, -, hdisk'⟩
    exact ⟨loadHead_error he, hdisk'.peak_le⟩

omit hn in
theorem mergeStage_holds (c : Choice) :
    Exec.Triple (fun p => p.1.phase = .merging ∧ Holds n limit peak others p) (mergeStage c)
      (fun _ => Holds n limit peak others) fun e p => NoQuota peak e p.2 := by
  refine .get_bind fun s => ?_
  rintro ⟨s', r⟩ ⟨hs, hphase, hinv, hdisk⟩
  obtain rfl : s' = s := hs
  replace hinv : s'.Inv n := hinv
  have hpass := hinv.passSize hphase
  -- The nodes play no part: a change of stage within the group keeps what is written.
  have hwinner : ∀ node winner stage, s'.tree.stage ≠ .idle → stage ≠ .idle →
      Holds n limit peak others (setWinner node winner stage s', r) := by
    intro node winner stage hold hnew
    rw [PassSize, if_neg hold] at hpass
    refine ⟨Inv.set_tree (s := s') hinv hphase hinv.runs ?_, hdisk⟩
    rw [PassSize, if_neg hnew]
    exact hpass
  have hplayed : ∀ node stage (goesOn : Option (Option Nat) → SortM Unit),
      goesOn none = Pure.pure () →
      (∀ winner, goesOn (some winner) = Exec.modify (setWinner node winner stage)) →
      s'.tree.stage ≠ .idle → stage ≠ .idle →
      Exec.Triple (fun p => p = (s', r)) (Exec.ofExcept (play node c s'.tree) >>= goesOn)
        (fun _ => Holds n limit peak others) fun e p => NoQuota peak e p.2 := by
    intro node stage goesOn hnone hsome hold hnew
    refine .ofExcept_bind (fun winner hplay => ?_) ?_
    · cases winner with
      | none =>
        rw [hnone]
        refine .pure ?_
        rintro _ rfl
        exact ⟨hinv, hdisk⟩
      | some winner =>
        rw [hsome]
        refine .modify ?_
        rintro _ _ ⟨⟩
        exact hwinner node winner stage hold hnew
    · rintro e he _ rfl
      exact ⟨play_error he, hdisk.peak_le⟩
  cases hstage : s'.tree.stage with
  | idle => exact ⟨hinv, hdisk⟩
  | build node =>
    refine hplayed node _ _ rfl (fun _ => rfl) (by rw [hstage]; intro h; cases h) ?_ (s', r) rfl
    split <;> (intro h; cases h)
  | replay node =>
    refine hplayed node _ _ rfl (fun _ => rfl) (by rw [hstage]; intro h; cases h) ?_ (s', r) rfl
    split <;> (intro h; cases h)
  | emit =>
    have hbusy : s'.tree.stage ≠ .idle := by
      rw [hstage]
      intro h
      cases h
    simp only
    cases s'.tree.nodes.getD 1 none with
    | none =>
      rw [PassSize, if_neg hbusy] at hpass
      refine ⟨Inv.set_tree (s := s') hinv hphase hinv.runs ?_, hdisk⟩
      rw [PassSize, if_pos rfl]
      exact ⟨(Nat.le_of_add_right_le hpass.1), hpass.2⟩
    | some index =>
      exact emit_holds htop hlimit hpeak index c hbusy hphase (s', r) ⟨rfl, hinv, hdisk⟩

theorem mergeDisk_holds (c : Choice) (hphase : s.phase = .merging) :
    Exec.Triple (fun p => p.1 = s ∧ Holds n limit peak others p) (mergeDisk c)
      (fun _ => Holds n limit peak others) fun e p => NoQuota peak e p.2 := by
  refine .get_bind fun s' => .ite (fun hidle => .ite (fun hend => ?_) fun _ => ?_) fun _ => ?_
  · refine .seq (fun _ => Gathers n limit peak others) ?_ fun _ =>
      beginDiskMerge_holds hn htop hlimit hpeak _
    rintro ⟨s'', r⟩ ⟨hs', hs, hinv, hdisk⟩
    obtain rfl : s'' = s' := hs'
    obtain rfl : s'' = s := hs
    replace hinv : s''.Inv n := hinv
    have hsize := hinv.phase
    rw [PhaseSize, hphase] at hsize
    obtain ⟨hmaps, hrun, hpass⟩ := hsize
    refine ⟨⟨⟨hinv.plain.passFile, nofun, hinv.plain.order, hinv.plain.inverse,
      hinv.plain.builder, hinv.plain.mergeMemory⟩, hinv.rows, hinv.runs,
      hmaps.congr rfl rfl rfl rfl, rfl, hpass.le⟩, release_file hinv.plain.runFile ?_⟩
    change Disk limit peak (others + s''.charge) r at hdisk
    rw [hmaps.charge_eq] at hdisk
    convert hdisk using 1
    dsimp only
    omega
  · refine .seq (fun _ p => p.1.phase = .merging ∧ Holds n limit peak others p) ?_
      fun _ => mergeStage_holds htop hlimit hpeak c
    rintro p ⟨hs', hs, hholds⟩
    exact startGroup_holds c hidle p ⟨hs', hs' ▸ hs ▸ hphase, hholds⟩
  · refine (mergeStage_holds htop hlimit hpeak c).pre_mono ?_
    rintro p ⟨-, hs, hholds⟩
    exact ⟨hs ▸ hphase, hholds⟩

theorem buildMaps_holds (c : Choice) (hphase : s.phase = .buildingInverse) :
    Exec.Triple (fun p => p.1 = s ∧ Holds n limit peak others p) (buildMaps c)
      (fun _ => Holds n limit peak others) fun e p => NoQuota peak e p.2 := by
  refine .get_bind fun s' => ?_
  rintro ⟨s'', r⟩ ⟨hs', hs, hinv, hdisk⟩
  obtain rfl : s'' = s' := hs'
  obtain rfl : s'' = s := hs
  replace hinv : s''.Inv n := hinv
  replace hdisk : Disk limit peak (others + s''.charge) r := hdisk
  have hsize := hinv.phase
  rw [PhaseSize, hphase] at hsize
  obtain ⟨hpass, hat, hrun, horder, hinverse, hpairs⟩ := hsize
  have hrows := hinv.rows
  by_cases hend : s''.inverseAt = s''.records
  · rw [if_pos hend]
    by_cases hruns : s''.runFile.isSome = true
    · rw [if_pos hruns]
      refine Exec.Triple.bind (onBuilder_keeps fun b => finishFrom_keepsFiles _ _ _ b)
        (fun _ => ?_) (s'', r) ⟨rfl, hdisk⟩
      rintro ⟨_, r₁⟩ ⟨b, b', hb, hfiles, hmemory, rfl, hdisk₁⟩
      refine Exec.Triple.bind (onFile_spends 0 (s := { s'' with
        inverseBuilder := some b' }) (fun _ => DiskFile.finishWriting_filed (c.os 0))
        hinv.plain.order) (fun _ => ?_) _ ⟨rfl, hdisk₁⟩
      rintro ⟨_, r₂⟩ ⟨f, f', hf, hf', hbytes, rfl, hdisk₂⟩
      have hsize : size (some f') = size s''.order := by
        rw [show s''.order = some f from hf]
        exact hbytes
      have hplain : s''.Plain := hinv.plain
      have hpairs' : pairsSize (some b') = pairsSize s''.inverseBuilder := by
        rw [hb]
        exact congrArg (fun file : DiskFile => file.reservation.bytes) hfiles
      have hb' := hplain.builder b hb
      refine ⟨⟨⟨nofun, hplain.passFile, ?_, hplain.inverse, ?_, hplain.mergeMemory⟩, hinv.rows,
        hinv.runs, ?_⟩, release_file hplain.runFile ?_⟩
      · rintro _ ⟨⟩
        exact hf'
      · rintro _ ⟨⟩
        dsimp only
        rw [hpairs']
        exact ⟨hfiles ▸ hb'.pairs, hfiles ▸ hb'.bytes_eq, hmemory ▸ hb'.memory⟩
      · simp only [PhaseSize, hphase]
        exact ⟨hpass, hat, Nat.zero_le _, hsize.trans_le horder, hinverse, hpairs'.trans_le hpairs⟩
      · convert hdisk₂ using 1
        simp only [charge, hsize, hpairs', size_none]
        omega
    · rw [if_neg hruns]
      have hnone : s''.runFile = none := by simpa using hruns
      cases hb : s''.inverseBuilder with
      | none => exact ⟨nofun, hdisk.peak_le⟩
      | some b =>
        have hb' := hinv.plain.builder b hb
        refine (Exec.Triple.ofExcept_bind (fun placed hplaced => ?_) fun e he p hp =>
          ⟨place_error he, hp.2.peak_le⟩ : Exec.Triple (fun p => p.1 = s'' ∧
            Disk limit peak (others + s''.charge) p.2) _ _ _) (s'', r) ⟨rfl, hdisk⟩
        obtain ⟨hfiles, hmemory⟩ := place_eq_ok hplaced
        have hpairs' : pairsSize (some placed.2) = pairsSize s''.inverseBuilder := by
          rw [hb]
          exact congrArg (fun file : DiskFile => file.reservation.bytes) hfiles
        have hplaced' : placed.2.Plain (pairsSize s''.inverseBuilder) :=
          ⟨hfiles ▸ hb'.pairs, hfiles ▸ hb'.bytes_eq, hmemory ▸ hb'.memory⟩
        refine .ite (fun _ => ?_) fun _ => .modify ?_
        · rintro ⟨s₁, r'⟩ ⟨hs₁, hdisk'⟩
          obtain rfl : s₁ = s'' := hs₁
          have hrest := hinv.charge_le hn
          refine ⟨⟨⟨hinv.plain.runFile, hinv.plain.passFile, hinv.plain.order, hinv.plain.inverse,
            nofun, hinv.plain.mergeMemory⟩, hinv.rows, hinv.runs, ?_⟩,
            InverseBuilder.drop_disk hplaced' ?_⟩
          · refine le_trans ?_ hrest
            unfold charge
            exact Nat.add_le_add_left (Nat.zero_le _) _
          · convert hdisk' using 1
            have hempty : pairsSize none = 0 := rfl
            simp only [charge, hempty]
            omega
        · rintro s₁ r' ⟨hs₁, hdisk'⟩
          obtain rfl : s₁ = s'' := hs₁
          refine ⟨⟨⟨hinv.plain.runFile, hinv.plain.passFile, hinv.plain.order, hinv.plain.inverse,
            ?_, hinv.plain.mergeMemory⟩, hinv.rows, hinv.runs, ?_⟩, ?_⟩
          · rintro _ ⟨⟩
            dsimp only
            rw [hpairs']
            exact hplaced'
          · simp only [PhaseSize, hphase]
            exact ⟨hpass, hat, hrun, horder, hinverse, hpairs'.trans_le hpairs⟩
          · convert hdisk' using 1
            simp only [charge, hpairs']
  · rw [if_neg hend]
    have hroom : others + s''.charge + orderBytes ≤ others + sortScratchBytesPerRow * n := by
      rw [charge, size_none hpass]
      simp only [descriptorBytes, sortScratchBytesPerRow, mapHeaderBytes, orderBytes,
        pairBytes] at *
      omega
    refine (Exec.Triple.bind (check_holds (c.os 0) fun p hp => hp.2.peak_le) fun _ => .bind
      (onFile_spends _ (fun _ => DiskFile.append_filed htop hlimit hpeak hroom (c.os 1))
        hinv.plain.order) fun _ => ?_ : Exec.Triple (fun p => p.1 = s'' ∧
            Disk limit peak (others + s''.charge) p.2) _ _ _) (s'', r) ⟨rfl, hdisk⟩
    rintro ⟨_, r₁⟩ ⟨f, f', hf, hf', hbytes, rfl, hdisk₁⟩
    refine Exec.Triple.bind (onBuilder_keeps (s := { s'' with order := some f' })
      fun b => push_keepsFiles _ _ _ b) (fun _ => .modify ?_) _ ⟨rfl, hdisk₁⟩
    rintro _ r₂ ⟨b, b', hb, hfiles, hmemory, rfl, hdisk₂⟩
    have hsize : size (some f') = size s''.order + orderBytes := by
      rw [show s''.order = some f from hf]
      exact hbytes
    have hpairs' : pairsSize (some b') = pairsSize s''.inverseBuilder := by
      rw [show s''.inverseBuilder = some b from hb]
      exact congrArg (fun file : DiskFile => file.reservation.bytes) hfiles
    have hb' := hinv.plain.builder b hb
    refine ⟨⟨⟨hinv.plain.runFile, hinv.plain.passFile, ?_, hinv.plain.inverse, ?_,
      hinv.plain.mergeMemory⟩, hinv.rows, hinv.runs, ?_⟩, ?_⟩
    · rintro _ ⟨⟩
      exact hf'
    · rintro _ ⟨⟩
      dsimp only
      rw [hpairs']
      exact ⟨hfiles ▸ hb'.pairs, hfiles ▸ hb'.bytes_eq, hmemory ▸ hb'.memory⟩
    · simp only [PhaseSize, hphase]
      refine ⟨hpass, by omega, hrun, ?_, hinverse, hpairs'.trans_le hpairs⟩
      rw [hsize, Nat.mul_succ]
      omega
    · convert hdisk₂ using 1
      simp only [charge, hsize, hpairs']
      omega

theorem step_holds (c : Choice) : Exec.Triple (Holds n limit peak others) (step c)
    (fun _ => Holds n limit peak others) fun e p => NoQuota peak e p.2 := by
  refine .get_bind fun s => .ite (fun _ => .modify ?_) fun _ => ?_
  · rintro s' r ⟨hs, hinv, hdisk⟩
    refine ⟨⟨hinv.plain, hinv.rows, hinv.runs, ?_⟩, hdisk⟩
    exact hinv.charge_le hn
  cases hphase : s.phase with
  | extracting => exact extract_holds hn htop hlimit hpeak c hphase
  | sortingRuns => exact sortBatch_holds hn htop hlimit hpeak c hphase
  | merging => exact mergeDisk_holds hn htop hlimit hpeak c hphase
  | buildingInverse => exact buildMaps_holds hn htop hlimit hpeak c hphase
  | complete => exact .pure fun p hp => hp.2
  | cancelled => exact .pure fun p hp => hp.2

end Steps

/-! ## Whole sorts -/

/-- Between the steps of a sort the other users of the ledger may give bytes back. -/
inductive Move where
  | step (choice : Choice)
  | release (bytes : Nat)

def othersRelease (bytes : Nat) : SortM Unit := fun p =>
  (.ok (), p.1, p.2.subtractDisk (min bytes (p.2.disk - p.1.charge)))

def move : Move → SortM Unit
  | .step c => step c
  | .release bytes => othersRelease bytes

/-- The session is given up at the first error. -/
def moves : List Move → SortM Unit
  | [] => pure ()
  | m :: ms => do
    move m
    moves ms

/-- A sort of so many rows, from its beginning on. -/
def sort (rows batchCapacity mergeFanIn stepBytes owner : Nat) (os : Answers) (ms : List Move) :
    Exec SortResources SortError SortSession := fun r =>
  match new rows batchCapacity mergeFanIn stepBytes owner os r with
  | (.error e, r) => (.error e, r)
  | (.ok s, r) =>
    match moves ms (s, r) with
    | (.error e, _, r) => (.error e, r)
    | (.ok _, s, r) => (.ok s, r)

section Sorts
variable {n limit peak others : Nat} (hn : 1 ≤ n)
  (htop : others + sortScratchBytesPerRow * n ≤ limit) (hlimit : limit < u64Bound)
  (hpeak : others + sortScratchBytesPerRow * n ≤ peak)

/-- The others charge no more than they did at first. -/
def Sorting (n limit peak others : Nat) (p : SortSession × SortResources) : Prop :=
  ∃ o, o ≤ others ∧ Holds n limit peak o p

include hn htop hlimit hpeak

theorem move_sorting (m : Move) : Exec.Triple (Sorting n limit peak others) (move m)
    (fun _ => Sorting n limit peak others) fun e p => NoQuota peak e p.2 := by
  rintro p ⟨o, hle, hholds⟩
  cases m with
  | step c =>
    refine Exec.Triple.post_mono (step_holds hn (by omega) hlimit (by omega) c) ?_ p hholds
    exact fun _ p hp => ⟨o, hle, hp⟩
  | release bytes =>
    obtain ⟨hinv, hdisk⟩ := hholds
    have heq := hdisk.disk_eq
    refine ⟨o - min bytes (p.2.disk - p.1.charge), by omega, hinv, hdisk.limit_eq, ?_,
      hdisk.peak_le⟩
    change fetchSub p.2.disk (min bytes (p.2.disk - p.1.charge)) = _
    rw [fetchSub_eq (by omega)]
    dsimp only
    omega

theorem moves_sorting (ms : List Move) : Exec.Triple (Sorting n limit peak others) (moves ms)
    (fun _ => Sorting n limit peak others) fun e p => NoQuota peak e p.2 := by
  induction ms with
  | nil => exact .pure fun p hp => hp
  | cons m ms ih => exact .bind (move_sorting hn htop hlimit hpeak m) fun _ => ih

omit hn in
theorem new_holds (batchCapacity mergeFanIn stepBytes owner : Nat) (os : Answers) :
    Exec.Triple (Disk limit peak others) (new n batchCapacity mergeFanIn stepBytes owner os)
      (fun s r => Holds n limit peak others (s, r)) (NoQuota peak) := by
  unfold new
  generalize fixedBytes = fixed, pageBytes = page
  split
  · exact .throw fun r h => ⟨nofun, h.peak_le⟩
  refine .bind (reserve_memory fixed) fun fixedMemory => ?_
  rintro r ⟨-, hdisk⟩
  dsimp only
  generalize batchCapacity * descriptorSize * 2 + mergeFanIn * (page + treeBytesPerRun) = bytes
  have hmerge := reserve_memory bytes r hdisk
  generalize SortResources.reserve bytes true r = reserved at hmerge ⊢
  obtain ⟨e | mergeMemory, r₁⟩ := reserved
  · exact ⟨hmerge.1, (Reservation.drop_diskPeak _ _).trans_le hmerge.2⟩
  obtain ⟨hmemory, hdisk₁⟩ := hmerge
  have hfile := DiskFile.create_filed htop hlimit hpeak (Nat.le_add_right _ _) owner (os 0) (os 1)
    r₁ hdisk₁
  dsimp only
  generalize DiskFile.create owner (os 0) (os 1) r₁ = created at hfile ⊢
  obtain ⟨e | file, r₂⟩ := created
  · exact ⟨hfile.1, (Reservation.drop_diskPeak _ _).trans_le
      ((Reservation.drop_diskPeak _ _).trans_le hfile.2)⟩
  obtain ⟨hplain, hbytes, hdisk₂⟩ := hfile
  have hsize : size (some file) = 0 := hbytes
  refine ⟨⟨⟨?_, nofun, nofun, nofun, nofun, ?_⟩, ?_, runs_new _ _,
    ⟨rfl, rfl, rfl, rfl⟩, rfl, hsize.trans_le (Nat.zero_le _)⟩, ?_⟩
  · rintro _ ⟨⟩
    exact hplain
  · rintro _ ⟨⟩
    rw [hmemory]
  · simp only [Bool.false_eq_true, if_false, Nat.zero_add, Nat.add_zero]
    exact Nat.le_refl n
  · refine Unmapped.disk ⟨rfl, rfl, rfl, rfl⟩ ?_
    change Disk limit peak (others + (size (some file) + 0)) r₂
    rwa [hsize]

end Sorts

/-- What the admission check grants is there. -/
theorem checkSortSpace_ok {rows quotaLeft quota free : Nat} (hrows : 1 ≤ rows)
    (hquota : quota < u64Bound - 1)
    (h : checkSortSpace rows quotaLeft quota free = .ok ()) :
    sortScratchBytesPerRow * rows ≤ quotaLeft ∧ 0 < quotaLeft := by
  unfold checkSortSpace at h
  dsimp only at h
  split at h
  · cases h
  rename_i hfits
  split at h
  · cases h
  rename_i hleft
  have hscratch : 1 ≤ rows * sortScratchBytesPerRow := Nat.mul_pos hrows (by decide)
  rw [Nat.mul_comm]
  omega

/-- The session charges no more than is set aside for its rows and was not refused disk space;
the disk counter never was above `peak`. -/
inductive Fits (rows peak : Nat) : Except SortError SortSession × SortResources → Prop where
  | running {s : SortSession} {r : SortResources}
    (charge_le : s.charge ≤ sortScratchBytesPerRow * rows) (peak_le : r.diskPeak ≤ peak) :
    Fits rows peak (.ok s, r)
  | failed {e : SortError} {r : SortResources} (noQuota : e ≠ .quota)
    (peak_le : r.diskPeak ≤ peak) : Fits rows peak (.error e, r)

/-- A sort that is admitted with its exact number of rows fits what was set aside for it, in
all its phases and at every reservation, and is never refused disk space. The limit of the
ledger, 8 GiB in the program, is below the number at which the estimate saturates. -/
theorem admitted_sort_fits {n batchCapacity mergeFanIn stepBytes owner scanned source free : Nat}
    (os : Answers) (ms : List Move) {r : SortResources} (hn : 1 ≤ n)
    (hlimit : r.diskLimit < u64Bound - 1)
    (hadmitted : checkSortSpace (expectedRows n true scanned source) (r.diskLimit - r.disk)
      r.diskLimit free = .ok ()) :
    Fits n (max r.diskPeak (r.disk + sortScratchBytesPerRow * n))
      (sort n batchCapacity mergeFanIn stepBytes owner os ms r) := by
  have hrows : expectedRows n true scanned source = n := by simp [expectedRows]
  rw [hrows] at hadmitted
  obtain ⟨hfits, hleft⟩ := checkSortSpace_ok hn hlimit hadmitted
  have htop : r.disk + sortScratchBytesPerRow * n ≤ r.diskLimit := by omega
  have hbound : r.diskLimit < u64Bound := by omega
  have hpeak := Nat.le_max_right r.diskPeak (r.disk + sortScratchBytesPerRow * n)
  have hnew := new_holds htop hbound hpeak batchCapacity mergeFanIn stepBytes owner os r
    ⟨rfl, rfl, Nat.le_max_left _ _⟩
  unfold sort
  generalize new n batchCapacity mergeFanIn stepBytes owner os r = opened at hnew ⊢
  obtain ⟨e | s, r₁⟩ := opened
  · exact .failed hnew.1 hnew.2
  have hmoves := moves_sorting hn htop hbound hpeak ms (s, r₁) ⟨r.disk, Nat.le_refl _, hnew⟩
  dsimp only
  generalize moves ms (s, r₁) = moved at hmoves ⊢
  obtain ⟨e | u, s', r₂⟩ := moved
  · exact .failed hmoves.1 hmoves.2
  · obtain ⟨o, -, hinv, hdisk⟩ := hmoves
    exact .running (hinv.charge_le hn) hdisk.peak_le

def smoothStep (event : ScanEvent) (row : Nat) : Move :=
  .step ⟨false, none, event, some false, row, .ok (), fun _ => .ok ()⟩

/-- Two rows in runs of one, a merge pass and the maps. -/
def twoRowMoves : List Move :=
  [.found, .record, .reading, .reading, .reading, .found, .record, .reading, .reading, .reading,
    .finished false].map (smoothStep · 0) ++ List.replicate 9 (smoothStep .reading 0) ++
    [smoothStep .reading 1, smoothStep .reading 0, smoothStep .reading 0]

def freshLedger : SortResources := .new (2 ^ 24) (2 ^ 33)

theorem admitted_sort_fits_two :
    ((sort 2 1 2 65536 0 (fun _ => .ok ()) twoRowMoves freshLedger).1.toOption.map
      SortSession.phase) = some .complete ∧
    Fits 2 (max freshLedger.diskPeak (freshLedger.disk + sortScratchBytesPerRow * 2))
      (sort 2 1 2 65536 0 (fun _ => .ok ()) twoRowMoves freshLedger) := by
  have hlimit : freshLedger.diskLimit < u64Bound - 1 := by decide +kernel
  have hadmitted : checkSortSpace (expectedRows 2 true 9 9)
      (freshLedger.diskLimit - freshLedger.disk) freshLedger.diskLimit (2 ^ 40) = .ok () := by
    decide +kernel
  exact ⟨by decide +kernel,
    admitted_sort_fits (fun _ => .ok ()) twoRowMoves (by decide) hlimit hadmitted⟩

end SortSession

end LeanRows.Sort
