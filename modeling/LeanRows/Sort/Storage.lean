import LeanRows.Lib.ExecState
import LeanRows.Lib.Slots
import LeanRows.Sort.Key

/-!
# The ledger of the sorts

All sorts share one account of memory and one of disk. A reservation is charged to them
until it is dropped; a scratch file holds one that grows with the file. What the operating
system answers is an argument of the operation that asks it.
-/

set_option autoImplicit false

namespace LeanRows.Sort

/-- `HEADER`, the bytes before the first record of a map. -/
def mapHeaderBytes : Nat := 32

/-- The write buffer of a scratch file. -/
def writerBytes : Nat := 64 * 1024

/-- `size_of::<PendingCleanup>()`: a path of three words and the two charges. -/
def pendingCleanupBytes : Nat := 40

def pendingSlots : Nat := 64

/-- The folder itself is known by its slot; of its path only the capacity counts. -/
structure PendingCleanup where
  pathCapacity : Nat
  diskBytes : Nat
  memoryBytes : Nat
deriving DecidableEq, Repr

/-- `underflowed` records whether a counter was ever brought below zero. -/
structure SortResources where
  memoryLimit : Nat
  diskLimit : Nat
  memory : Nat
  disk : Nat
  peak : Nat
  diskPeak : Nat
  pending : List (Option PendingCleanup)
  underflowed : Bool
deriving DecidableEq, Repr

structure Reservation where
  bytes : Nat
  memory : Bool
deriving DecidableEq, Repr

/-- `AtomicU64::fetch_sub`, which wraps. -/
def fetchSub (counter bytes : Nat) : Nat :=
  if bytes ≤ counter then counter - bytes else u64Bound + counter - bytes

namespace SortResources

def new (memoryLimit diskLimit : Nat) : SortResources :=
  ⟨memoryLimit, diskLimit, 0, 0, 0, 0, List.replicate pendingSlots none, false⟩

def reserve (bytes : Nat) (memory : Bool) : Exec SortResources SortError Reservation := fun r =>
  let counter := if memory then r.memory else r.disk
  let limit := if memory then r.memoryLimit else r.diskLimit
  match (checkedAdd counter bytes).filter fun next => decide (next ≤ limit) with
  | none => (.error (if memory then .allocation else .quota), r)
  | some next =>
    let r := if memory then { r with memory := next, peak := max r.peak next }
      else { r with disk := next, diskPeak := max r.diskPeak next }
    (.ok ⟨bytes, memory⟩, r)

def subtractMemory (bytes : Nat) (r : SortResources) : SortResources :=
  { r with
    memory := fetchSub r.memory bytes
    underflowed := r.underflowed || decide (r.memory < bytes) }

def subtractDisk (bytes : Nat) (r : SortResources) : SortResources :=
  { r with
    disk := fetchSub r.disk bytes
    underflowed := r.underflowed || decide (r.disk < bytes) }

end SortResources

namespace Reservation

def grow (count : Nat) (reservation : Reservation) : Exec SortResources SortError Reservation := do
  let addition ← SortResources.reserve count reservation.memory
  pure { reservation with bytes := reservation.bytes + addition.bytes }

def drop (reservation : Reservation) (r : SortResources) : SortResources :=
  if reservation.memory then r.subtractMemory reservation.bytes
  else r.subtractDisk reservation.bytes

end Reservation

/-! ## Scratch files -/

/-- `owner` says which owner folder the file is in. -/
structure DiskFile where
  bytes : Nat
  reservation : Reservation
  owner : Nat
  writer : Bool
  bufferMemory : Option Reservation
deriving DecidableEq, Repr

/-- An action of a file on the ledger. -/
abbrev DiskFileM := Exec (DiskFile × SortResources) SortError

/-- A call of the operating system. -/
abbrev Answer := Except IoError Unit

def Answer.check {W : Type} (answer : Answer) : Exec W SortError Unit :=
  Exec.ofExcept (answer.mapError SortError.io)

namespace DiskFile

/-- What is reserved before an error is dropped with it. -/
def create (owner : Nat) (opened cloned : Answer) : Exec SortResources SortError DiskFile := do
  opened.check
  let memory ← SortResources.reserve writerBytes true
  fun r =>
    match cloned with
    | .error e => (.error (.io e), memory.drop r)
    | .ok () =>
      match SortResources.reserve 0 false r with
      | (.error e, r) => (.error e, memory.drop r)
      | (.ok reservation, r) => (.ok ⟨0, reservation, owner, true, some memory⟩, r)

def grow (count : Nat) : DiskFileM Unit := do
  let file ← Exec.get
  let reservation ← Exec.inner (file.reservation.grow count)
  Exec.modify fun file => { file with
    reservation := reservation
    bytes := file.bytes + count }

def append (count : Nat) (written : Answer) : DiskFileM Unit := do
  grow count
  written.check

def finishWriting (flushed : Answer) : DiskFileM Unit := do
  let file ← Exec.get
  if file.writer then flushed.check else pure ()
  fun p =>
    let r := match p.1.bufferMemory with
      | some memory => memory.drop p.2
      | none => p.2
    (.ok (), { p.1 with writer := false, bufferMemory := none }, r)

def allocate (count : Nat) (flushed resized : Answer) : DiskFileM Unit := do
  finishWriting flushed
  grow count
  resized.check

end DiskFile

/-! ## What is charged -/

namespace Reservation

def memoryPart (reservation : Reservation) : Nat :=
  if reservation.memory then reservation.bytes else 0

def diskPart (reservation : Reservation) : Nat :=
  if reservation.memory then 0 else reservation.bytes

end Reservation

namespace DiskFile

def memoryPart (file : DiskFile) : Nat :=
  file.reservation.memoryPart + file.bufferMemory.elim 0 Reservation.memoryPart

def diskPart (file : DiskFile) : Nat :=
  file.reservation.diskPart + file.bufferMemory.elim 0 Reservation.diskPart

end DiskFile

/-- The counters are as given and within the limits, and never were below zero. -/
structure SortResources.Holds (limits : Nat × Nat) (pending : List (Option PendingCleanup))
    (memory disk : Nat) (r : SortResources) : Prop where
  limits_eq : (r.memoryLimit, r.diskLimit) = limits
  pending_eq : r.pending = pending
  memory_eq : r.memory = memory
  disk_eq : r.disk = disk
  memory_le : r.memory ≤ r.memoryLimit
  disk_le : r.disk ≤ r.diskLimit
  memory_lt : r.memory < u64Bound
  disk_lt : r.disk < u64Bound
  sound : r.underflowed = false

section Charges
variable {limits : Nat × Nat} {pending : List (Option PendingCleanup)} {m d : Nat}
  {r : SortResources}

theorem fetchSub_eq {counter bytes : Nat} (hle : bytes ≤ counter) :
    fetchSub counter bytes = counter - bytes :=
  if_pos hle

open SortResources

theorem SortResources.Holds.of_eq {m' d' : Nat} (h : r.Holds limits pending m d) (hm : m = m')
    (hd : d = d') : r.Holds limits pending m' d' :=
  hm ▸ hd ▸ h

theorem SortResources.Holds.subtractMemory {bytes : Nat}
    (h : r.Holds limits pending (m + bytes) d) :
    (r.subtractMemory bytes).Holds limits pending m d := by
  have hmemory := h.memory_eq
  have hle := h.memory_le
  have hlt := h.memory_lt
  have heq : fetchSub r.memory bytes = m := by
    rw [fetchSub_eq (by omega)]
    omega
  have hsound : decide (r.memory < bytes) = false := decide_eq_false (by omega)
  have hresult : r.subtractMemory bytes = { r with memory := m, underflowed := false } := by
    rw [SortResources.subtractMemory, heq, hsound, h.sound, Bool.or_false]
  rw [hresult]
  exact ⟨h.limits_eq, h.pending_eq, rfl, h.disk_eq, by dsimp only; omega, h.disk_le,
    by dsimp only; omega, h.disk_lt, rfl⟩

theorem SortResources.Holds.subtractDisk {bytes : Nat}
    (h : r.Holds limits pending m (d + bytes)) :
    (r.subtractDisk bytes).Holds limits pending m d := by
  have hdisk := h.disk_eq
  have hle := h.disk_le
  have hlt := h.disk_lt
  have heq : fetchSub r.disk bytes = d := by
    rw [fetchSub_eq (by omega)]
    omega
  have hsound : decide (r.disk < bytes) = false := decide_eq_false (by omega)
  have hresult : r.subtractDisk bytes = { r with disk := d, underflowed := false } := by
    rw [SortResources.subtractDisk, heq, hsound, h.sound, Bool.or_false]
  rw [hresult]
  exact ⟨h.limits_eq, h.pending_eq, h.memory_eq, rfl, h.memory_le, by dsimp only; omega,
    h.memory_lt, by dsimp only; omega, rfl⟩

theorem Reservation.drop_holds {reservation : Reservation}
    (h : r.Holds limits pending (m + reservation.memoryPart) (d + reservation.diskPart)) :
    (reservation.drop r).Holds limits pending m d := by
  obtain ⟨bytes, memory⟩ := reservation
  cases memory with
  | true => exact h.subtractMemory
  | false => exact h.subtractDisk

/-- What is reserved is charged; a refused reservation changes nothing. -/
theorem SortResources.reserve_holds (bytes : Nat) (memory : Bool) :
    Exec.Triple (Holds limits pending m d) (reserve bytes memory)
      (fun reservation r => reservation = ⟨bytes, memory⟩ ∧
        r.Holds limits pending (m + reservation.memoryPart) (d + reservation.diskPart))
      fun _ => Holds limits pending m d := by
  intro r h
  simp only [reserve]
  cases hnext : (checkedAdd (if memory then r.memory else r.disk) bytes).filter
      fun next => decide (next ≤ if memory then r.memoryLimit else r.diskLimit) with
  | none => exact h
  | some next =>
    obtain ⟨hadd, hlimit⟩ := Option.filter_eq_some_iff.mp hnext
    obtain ⟨hlt, rfl⟩ := checkedAdd_eq_some.mp hadd
    have hle := of_decide_eq_true hlimit
    cases memory with
    | true =>
      exact ⟨rfl, h.limits_eq, h.pending_eq, congrArg (· + bytes) h.memory_eq, h.disk_eq, hle,
        h.disk_le, hlt, h.disk_lt, h.sound⟩
    | false =>
      exact ⟨rfl, h.limits_eq, h.pending_eq, h.memory_eq, congrArg (· + bytes) h.disk_eq,
        h.memory_le, hle, h.memory_lt, hlt, h.sound⟩

theorem Reservation.grow_holds (count : Nat) (reservation : Reservation) :
    Exec.Triple (Holds limits pending (m + reservation.memoryPart) (d + reservation.diskPart))
      (reservation.grow count)
      (fun grown r => grown.memory = reservation.memory ∧
        r.Holds limits pending (m + grown.memoryPart) (d + grown.diskPart))
      fun _ => Holds limits pending (m + reservation.memoryPart) (d + reservation.diskPart) := by
  refine .bind (SortResources.reserve_holds count reservation.memory) fun addition => .pure ?_
  rintro r ⟨rfl, h⟩
  obtain ⟨bytes, memory⟩ := reservation
  cases memory with
  | true => exact ⟨rfl, h.of_eq (Nat.add_assoc _ _ _) rfl⟩
  | false => exact ⟨rfl, h.of_eq rfl (Nat.add_assoc _ _ _)⟩

/-! ## What files charge -/

namespace DiskFile

/-- What the ledger holds beside the charges of the file. -/
def Accounts (limits : Nat × Nat) (pending : List (Option PendingCleanup)) (m d owner : Nat)
    (p : DiskFile × SortResources) : Prop :=
  p.2.Holds limits pending (m + p.1.memoryPart) (d + p.1.diskPart) ∧
    p.1.reservation.memory = false ∧ p.1.owner = owner

variable {owner : Nat}

theorem check_accounts (answer : Answer) :
    Exec.Triple (Accounts limits pending m d owner) (answer.check : DiskFileM Unit)
      (fun _ => Accounts limits pending m d owner) fun _ => Accounts limits pending m d owner := by
  cases answer with
  | ok u => exact fun p h => h
  | error e => exact fun p h => h

theorem grow_accounts (count : Nat) :
    Exec.Triple (Accounts limits pending m d owner) (grow count)
      (fun _ => Accounts limits pending m d owner) fun _ => Accounts limits pending m d owner := by
  refine .get_bind fun file => ?_
  rintro ⟨s, r⟩ ⟨hs, hholds, hdisk, howner⟩
  obtain rfl : s = file := hs
  have hheld : r.Holds limits pending
      (m + s.bufferMemory.elim 0 Reservation.memoryPart + s.reservation.memoryPart)
      (d + s.bufferMemory.elim 0 Reservation.diskPart + s.reservation.diskPart) :=
    hholds.of_eq (by simp only [memoryPart]; omega) (by simp only [diskPart]; omega)
  have hrun := Reservation.grow_holds count s.reservation r hheld
  simp only [Bind.bind, Exec.inner, Exec.modify]
  rcases hgrown : s.reservation.grow count r with ⟨e | grown, r'⟩
  · rw [hgrown] at hrun
    exact ⟨hrun.of_eq (by simp only [memoryPart]; omega) (by simp only [diskPart]; omega), hdisk,
      howner⟩
  · rw [hgrown] at hrun
    obtain ⟨hmemory, hheld⟩ := hrun
    refine ⟨hheld.of_eq ?_ ?_, hmemory.trans hdisk, howner⟩
    · simp only [memoryPart]
      omega
    · simp only [diskPart]
      omega

theorem append_accounts (count : Nat) (written : Answer) :
    Exec.Triple (Accounts limits pending m d owner) (append count written)
      (fun _ => Accounts limits pending m d owner) fun _ => Accounts limits pending m d owner :=
  .bind (grow_accounts count) fun _ => check_accounts written

theorem finishWriting_accounts (flushed : Answer) :
    Exec.Triple (Accounts limits pending m d owner) (finishWriting flushed)
      (fun _ => Accounts limits pending m d owner) fun _ => Accounts limits pending m d owner := by
  have hdrop : Exec.Triple (Accounts limits pending m d owner)
      (fun p => (.ok (), { p.1 with writer := false, bufferMemory := none },
        match p.1.bufferMemory with
        | some memory => memory.drop p.2
        | none => p.2) : DiskFileM Unit)
      (fun _ => Accounts limits pending m d owner) fun _ => Accounts limits pending m d owner := by
    rintro ⟨s, r⟩ ⟨hholds, hdisk, howner⟩
    refine ⟨?_, hdisk, howner⟩
    cases hbuffer : s.bufferMemory with
    | none =>
      refine hholds.of_eq ?_ ?_
      · simp only [memoryPart, hbuffer]
      · simp only [diskPart, hbuffer]
    | some memory =>
      refine Reservation.drop_holds (hholds.of_eq ?_ ?_)
      · simp only [memoryPart, hbuffer, Option.elim_some, Option.elim_none]
        omega
      · simp only [diskPart, hbuffer, Option.elim_some, Option.elim_none]
        omega
  refine .get_bind fun file => .ite (fun _ => ?_) fun _ => hdrop.pre_mono fun p hp => hp.2
  exact .bind ((check_accounts flushed).pre_mono fun p hp => hp.2) fun _ => hdrop

theorem allocate_accounts (count : Nat) (flushed resized : Answer) :
    Exec.Triple (Accounts limits pending m d owner) (allocate count flushed resized)
      (fun _ => Accounts limits pending m d owner) fun _ => Accounts limits pending m d owner :=
  .bind (finishWriting_accounts flushed) fun _ => .bind (grow_accounts count) fun _ =>
    check_accounts resized

/-- A file that is not created leaves no charge. -/
theorem create_accounts (owner : Nat) (opened cloned : Answer) :
    Exec.Triple (Holds limits pending m d) (create owner opened cloned)
      (fun file r => Accounts limits pending m d owner (file, r)) fun _ =>
        Holds limits pending m d := by
  have hopened : Exec.Triple (Holds limits pending m d)
      (opened.check : Exec SortResources SortError Unit) (fun _ => Holds limits pending m d)
      fun _ => Holds limits pending m d := by
    cases opened with
    | ok u => exact fun p h => h
    | error e => exact fun p h => h
  unfold create
  generalize writerBytes = bytes
  refine .bind hopened fun _ => .bind (SortResources.reserve_holds bytes true) fun memory => ?_
  rintro r ⟨rfl, hmemory⟩
  cases cloned with
  | error e => exact Reservation.drop_holds hmemory
  | ok u =>
    have hrun := SortResources.reserve_holds 0 false r hmemory
    simp only
    rcases hreserve : SortResources.reserve 0 false r with ⟨e | reservation, r'⟩
    · rw [hreserve] at hrun
      exact Reservation.drop_holds hrun
    · rw [hreserve] at hrun
      obtain ⟨rfl, hheld⟩ := hrun
      refine ⟨hheld.of_eq ?_ ?_, rfl, rfl⟩
      · simp only [memoryPart, Option.elim_some]
        omega
      · simp only [diskPart, Option.elim_some]
        omega

end DiskFile

end Charges

end LeanRows.Sort
