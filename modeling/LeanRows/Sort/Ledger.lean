import LeanRows.Sort.Storage

/-!
# What the sorts of a process hold

Reservations, scratch files, owner folders and the handles on them, as they come and go in
any order, and the counters of the ledger beside them. A folder that cannot be deleted when
its last handle goes leaves its charge to a deferred cleanup.
-/

set_option autoImplicit false

namespace LeanRows.Sort

/-- How a deletion ends. -/
inductive Deletion where
  | done
  | notFound
  | failed
deriving DecidableEq, Repr

namespace SortResources

/-- Whether the cleanup is recorded. The reservation of its record is kept with it. -/
def deferCleanup (pathCapacity diskBytes : Nat) (r : SortResources) : Bool × SortResources :=
  match r.pending.findIdx? fun slot => slot.isNone with
  | none => (false, r)
  | some index =>
    let bytes := pathCapacity + pendingCleanupBytes
    match reserve bytes true r with
    | (.error _, r) => (false, r)
    | (.ok _, r) =>
      (true, { r with pending := r.pending.set index (some ⟨pathCapacity, diskBytes, bytes⟩) })

def retrySlot (deleted : Nat → Deletion) (r : SortResources) (index : Nat) : SortResources :=
  match r.pending[index]? with
  | some (some entry) =>
    if deleted index = .done ∨ deleted index = .notFound then
      let r := (r.subtractDisk entry.diskBytes).subtractMemory entry.memoryBytes
      { r with pending := r.pending.set index none }
    else r
  | _ => r

def retryCleanup (deleted : Nat → Deletion) (r : SortResources) : SortResources :=
  (List.range r.pending.length).foldl (retrySlot deleted) r

end SortResources

/-- `strong` counts the references to the owner, as its `Arc` does. -/
structure Owner where
  pathCapacity : Nat
  retainedBytes : Nat
  strong : Nat
deriving DecidableEq, Repr

/-- Handles and files name their owner by its place. `kept` is what stays charged because a
cleanup could not be recorded. -/
structure Sorts where
  resources : SortResources
  reservations : List (Option Reservation)
  handles : List (Option Nat)
  files : List (Option DiskFile)
  owners : List (Option Owner)
  kept : Nat
deriving DecidableEq, Repr

namespace Sorts

def new (memoryLimit diskLimit : Nat) : Sorts := ⟨.new memoryLimit diskLimit, [], [], [], [], 0⟩

/-- `Owner::drop`; `removed` says whether the folder could be deleted. -/
def dropOwner (index : Nat) (owner : Owner) (removed : Bool) (s : Sorts) : Sorts :=
  let s := { s with owners := s.owners.set index none }
  if removed then { s with resources := s.resources.subtractDisk owner.retainedBytes }
  else if owner.retainedBytes ≠ 0 then
    let deferred := s.resources.deferCleanup owner.pathCapacity owner.retainedBytes
    { s with
      resources := deferred.2
      kept := if deferred.1 then s.kept else s.kept + owner.retainedBytes }
  else s

/-- One reference to the owner goes. -/
def releaseOwner (index : Nat) (removed : Bool) (s : Sorts) : Sorts :=
  match s.owners[index]? with
  | some (some owner) =>
    if owner.strong = 1 then s.dropOwner index owner removed
    else { s with owners := s.owners.set index (some { owner with strong := owner.strong - 1 }) }
  | _ => s

/-- One more reference to the owner. -/
def shareOwner (index : Nat) (s : Sorts) : Sorts :=
  match s.owners[index]? with
  | some (some owner) =>
    { s with owners := s.owners.set index (some { owner with strong := owner.strong + 1 }) }
  | _ => s

/-- `retained_bytes.fetch_add`. -/
def retain (index bytes : Nat) (s : Sorts) : Sorts :=
  match s.owners[index]? with
  | some (some owner) =>
    { s with owners :=
        s.owners.set index (some { owner with retainedBytes := owner.retainedBytes + bytes }) }
  | _ => s

/-- What of a file is left when its deletion failed is for its owner to answer for; then the
fields go in their order. -/
def dropFile (file : DiskFile) (removed ownerRemoved : Bool) (s : Sorts) : Sorts :=
  let s := if removed then s else s.retain file.owner file.reservation.bytes
  let reservation :=
    if removed then file.reservation else { file.reservation with bytes := 0 }
  let s := { s with resources := reservation.drop s.resources }
  let s := s.releaseOwner file.owner ownerRemoved
  match file.bufferMemory with
  | some memory => { s with resources := memory.drop s.resources }
  | none => s

/-- Something that is held and goes. -/
inductive Drop where
  | reservation (index : Nat)
  | handle (index : Nat) (removed : Bool)
  | file (index : Nat) (removed ownerRemoved : Bool)
deriving DecidableEq, Repr

def drop : Drop → Sorts → Sorts
  | .reservation index, s =>
    match s.reservations[index]? with
    | some (some reservation) =>
      { s with
        reservations := s.reservations.set index none
        resources := reservation.drop s.resources }
    | _ => s
  | .handle index removed, s =>
    match s.handles[index]? with
    | some (some owner) =>
      { s with handles := s.handles.set index none }.releaseOwner owner removed
    | _ => s
  | .file index removed ownerRemoved, s =>
    match s.files[index]? with
    | some (some file) =>
      { s with files := s.files.set index none }.dropFile file removed ownerRemoved
    | _ => s

/-- An action of one of the files. -/
def onFile (index : Nat) (action : DiskFileM Unit) : Exec Sorts SortError Unit := fun s =>
  match s.files[index]? with
  | some (some file) =>
    let result := action (file, s.resources)
    (result.1, { s with
      files := s.files.set index (some result.2.1)
      resources := result.2.2 })
  | _ => (.error .invalidScratch, s)

/-- A sort that is cancelled or given up, in whatever phase, drops what it holds by then
(`abandon`). -/
inductive Op where
  | reserve (bytes : Nat) (memory : Bool)
  | grow (reservation count : Nat)
  | createOwner (created : Answer) (pathCapacity : Nat)
  | cloneOwner (handle : Nat)
  | createFile (handle : Nat) (opened cloned : Answer)
  | append (file count : Nat) (written : Answer)
  | allocate (file count : Nat) (flushed resized : Answer)
  | finishWriting (file : Nat) (flushed : Answer)
  | retryCleanup (deleted : Nat → Deletion)
  | drop (what : Drop)
  | abandon (held : List Drop)

def apply : Op → Exec Sorts SortError Unit
  | .reserve bytes memory => fun s =>
    match SortResources.reserve bytes memory s.resources with
    | (.error e, r) => (.error e, { s with resources := r })
    | (.ok reservation, r) =>
      (.ok (), { s with resources := r, reservations := s.reservations ++ [some reservation] })
  | .grow index count => fun s =>
    match s.reservations[index]? with
    | some (some reservation) =>
      match reservation.grow count s.resources with
      | (.error e, r) => (.error e, { s with resources := r })
      | (.ok grown, r) =>
        (.ok (), { s with
          resources := r
          reservations := s.reservations.set index (some grown) })
    | _ => (.error .invalidScratch, s)
  | .createOwner created pathCapacity => fun s =>
    match created with
    | .error e => (.error (.io e), s)
    | .ok () =>
      (.ok (), { s with
        owners := s.owners ++ [some ⟨pathCapacity, 0, 1⟩]
        handles := s.handles ++ [some s.owners.length] })
  | .cloneOwner handle => fun s =>
    match s.handles[handle]? with
    | some (some owner) =>
      let s := s.shareOwner owner
      (.ok (), { s with handles := s.handles ++ [some owner] })
    | _ => (.error .invalidScratch, s)
  | .createFile handle opened cloned => fun s =>
    match s.handles[handle]? with
    | some (some owner) =>
      match DiskFile.create owner opened cloned s.resources with
      | (.error e, r) => (.error e, { s with resources := r })
      | (.ok file, r) =>
        let s := { s with resources := r }.shareOwner owner
        (.ok (), { s with files := s.files ++ [some file] })
    | _ => (.error .invalidScratch, s)
  | .append file count written => onFile file (DiskFile.append count written)
  | .allocate file count flushed resized => onFile file (DiskFile.allocate count flushed resized)
  | .finishWriting file flushed => onFile file (DiskFile.finishWriting flushed)
  | .retryCleanup deleted => fun s =>
    (.ok (), { s with resources := s.resources.retryCleanup deleted })
  | .drop what => fun s => (.ok (), s.drop what)
  | .abandon held => fun s => (.ok (), held.foldl (fun s what => s.drop what) s)

def run (ops : List Op) (s : Sorts) : Sorts := ops.foldl (fun s op => (apply op s).2) s

/-! ## The charges -/

def heldMemory (s : Sorts) : Nat :=
  Slots.total Reservation.memoryPart s.reservations + Slots.total DiskFile.memoryPart s.files

def heldDisk (s : Sorts) : Nat :=
  Slots.total Reservation.diskPart s.reservations + Slots.total DiskFile.diskPart s.files +
    Slots.total Owner.retainedBytes s.owners + s.kept

/-- Live reservations, those of files among them, and the records of deferred cleanups. -/
def memoryCharges (s : Sorts) : Nat :=
  s.heldMemory + Slots.total PendingCleanup.memoryBytes s.resources.pending

/-- Live reservations, bytes owners answer for, deferred cleanups and what is kept. -/
def diskCharges (s : Sorts) : Nat :=
  s.heldDisk + Slots.total PendingCleanup.diskBytes s.resources.pending

/-- The handles and files that refer to an owner. -/
def references (index : Nat) (s : Sorts) : Nat :=
  Slots.total (fun owner => if owner = index then 1 else 0) s.handles +
    Slots.total (fun file : DiskFile => if file.owner = index then 1 else 0) s.files

def strongAt (index : Nat) (s : Sorts) : Nat := (s.owners[index]?).join.elim 0 Owner.strong

/-- Owners live as long as something refers to them; one reference may be in hand. -/
structure Linked (inHand : Option Nat) (s : Sorts) : Prop where
  files_disk : ∀ file, some file ∈ s.files → file.reservation.memory = false
  strong_eq : ∀ index, s.strongAt index =
    s.references index + if inHand = some index then 1 else 0
  strong_pos : ∀ (index : Nat) (owner : Owner), s.owners[index]? = some (some owner) →
    0 < owner.strong

end Sorts

/-! ## Deferred cleanups -/

namespace SortResources

variable {limits : Nat × Nat} {m d : Nat}

/-- The ledger holds the records of the deferred cleanups beside `m` and `d`. -/
def Records (limits : Nat × Nat) (m d : Nat) (r : SortResources) : Prop :=
  r.Holds limits r.pending (m + Slots.total PendingCleanup.memoryBytes r.pending)
    (d + Slots.total PendingCleanup.diskBytes r.pending) ∧ r.pending.length = pendingSlots

theorem Records.of_eq {m' d' : Nat} {r : SortResources} (h : r.Records limits m d) (hm : m = m')
    (hd : d = d') : r.Records limits m' d' :=
  hm ▸ hd ▸ h

theorem Holds.records {pending : List (Option PendingCleanup)} {r : SortResources}
    (h : r.Holds limits pending (m + Slots.total PendingCleanup.memoryBytes pending)
      (d + Slots.total PendingCleanup.diskBytes pending)) (hlength :
        pending.length = pendingSlots) :
    r.Records limits m d := by
  obtain rfl := h.pending_eq
  exact ⟨h, hlength⟩

theorem Records.subtractDisk {bytes : Nat} {r : SortResources}
    (h : r.Records limits m (d + bytes)) : (r.subtractDisk bytes).Records limits m d :=
  (Holds.subtractDisk (h.1.of_eq rfl (Nat.add_right_comm _ _ _))).records h.2

theorem Records.drop {reservation : Reservation} {r : SortResources}
    (h : r.Records limits (m + reservation.memoryPart) (d + reservation.diskPart)) :
    (reservation.drop r).Records limits m d :=
  (Reservation.drop_holds (h.1.of_eq (Nat.add_right_comm _ _ _) (Nat.add_right_comm _ _ _))).records
    h.2

/-- The charge of the folder goes into its record, or stays in hand. -/
theorem deferCleanup_records {pathCapacity diskBytes : Nat} {r r' : SortResources}
    {recorded : Bool} (hrun : r.deferCleanup pathCapacity diskBytes = (recorded, r'))
    (h : r.Records limits m (d + diskBytes)) :
    r'.Records limits m (if recorded then d else d + diskBytes) := by
  unfold deferCleanup at hrun
  cases hfree : r.pending.findIdx? fun slot => slot.isNone with
  | none =>
    rw [hfree] at hrun
    cases hrun
    exact h
  | some index =>
    have hslot : r.pending[index]? = some none := by
      obtain ⟨hlt, hnone, -⟩ := List.findIdx?_eq_some_iff_getElem.mp hfree
      rw [List.getElem?_eq_getElem hlt, Option.isNone_iff_eq_none.mp hnone]
    rw [hfree] at hrun
    simp only at hrun
    generalize pathCapacity + pendingCleanupBytes = bytes at hrun
    have hreserved := reserve_holds bytes true r h.1
    rcases hreserve : reserve bytes true r with ⟨e | reservation, held⟩
    · rw [hreserve] at hreserved hrun
      cases hrun
      have hsame : r'.pending = r.pending := hreserved.pending_eq
      refine ⟨?_, hsame ▸ h.2⟩
      rw [hsame]
      exact hreserved
    · rw [hreserve] at hreserved hrun
      obtain ⟨rfl, hheld⟩ := hreserved
      cases hrun
      have hsame : held.pending = r.pending := hheld.pending_eq
      have hmemory := Slots.total_set PendingCleanup.memoryBytes hslot
        (some ⟨pathCapacity, diskBytes, bytes⟩)
      have hdisk := Slots.total_set PendingCleanup.diskBytes hslot
        (some ⟨pathCapacity, diskBytes, bytes⟩)
      simp only [Option.elim_some, Option.elim_none] at hmemory hdisk
      have hmem := hheld.memory_eq
      have hdsk := hheld.disk_eq
      simp only [Reservation.memoryPart, Reservation.diskPart, if_true] at hmem hdsk
      refine ⟨⟨hheld.limits_eq, rfl, ?_, ?_, hheld.memory_le, hheld.disk_le, hheld.memory_lt,
        hheld.disk_lt, hheld.sound⟩, ?_⟩
      · simp only [hsame]
        omega
      · simp only [hsame, if_true]
        omega
      · simp only [hsame, List.length_set]
        exact h.2

theorem retrySlot_records (deleted : Nat → Deletion) {r : SortResources} (index : Nat)
    (h : r.Records limits m d) : (r.retrySlot deleted index).Records limits m d := by
  unfold retrySlot
  rcases hslot : r.pending[index]? with _ | _ | entry
  · exact h
  · exact h
  · simp only
    by_cases hgone : deleted index = .done ∨ deleted index = .notFound
    swap
    · rw [if_neg hgone]
      exact h
    rw [if_pos hgone]
    have hmemory := Slots.total_set PendingCleanup.memoryBytes hslot none
    have hdisk := Slots.total_set PendingCleanup.diskBytes hslot none
    simp only [Option.elim_some, Option.elim_none] at hmemory hdisk
    have hheld : ((r.subtractDisk entry.diskBytes).subtractMemory entry.memoryBytes).Holds limits
        r.pending (m + Slots.total PendingCleanup.memoryBytes (r.pending.set index none))
        (d + Slots.total PendingCleanup.diskBytes (r.pending.set index none)) := by
      refine Holds.subtractMemory (Holds.subtractDisk (h.1.of_eq ?_ ?_))
      · omega
      · omega
    generalize (r.subtractDisk entry.diskBytes).subtractMemory entry.memoryBytes = rest at hheld
    have hsame : rest.pending = r.pending := hheld.pending_eq
    simp only [hsame]
    refine ⟨⟨hheld.limits_eq, rfl, hheld.memory_eq, hheld.disk_eq, hheld.memory_le,
      hheld.disk_le, hheld.memory_lt, hheld.disk_lt, hheld.sound⟩, ?_⟩
    simp only [List.length_set]
    exact h.2

theorem retryCleanup_records (deleted : Nat → Deletion) {r : SortResources}
    (h : r.Records limits m d) : (r.retryCleanup deleted).Records limits m d := by
  unfold retryCleanup
  generalize List.range r.pending.length = slots
  induction slots generalizing r with
  | nil => exact h
  | cons index slots ih => exact ih (retrySlot_records deleted index h)

end SortResources

/-! ## What comes and goes -/

namespace Sorts

variable {limits : Nat × Nat} {m d : Nat} {inHand : Option Nat} {s : Sorts} {index : Nat}

/-- The ledger is what is held, with `m` and `d` in hand, and the records of the cleanups. -/
structure Balanced (limits : Nat × Nat) (m d : Nat) (inHand : Option Nat) (s : Sorts) : Prop where
  records : s.resources.Records limits (s.heldMemory + m) (s.heldDisk + d)
  linked : s.Linked inHand

/-! ### Owners -/

theorem strongAt_eq_of_getElem? {slot : Option Owner} (h : s.owners[index]? = some slot) :
    s.strongAt index = slot.elim 0 Owner.strong := by
  rw [strongAt, h]
  rfl

theorem strongAt_set {slot : Option Owner} (h : s.owners[index]? = some slot)
    (next : Option Owner) (other : Nat) :
    ({ s with owners := s.owners.set index next } : Sorts).strongAt other =
      if other = index then next.elim 0 Owner.strong else s.strongAt other := by
  obtain ⟨hlt, -⟩ := List.getElem?_eq_some_iff.mp h
  by_cases hother : other = index
  · subst hother
    rw [if_pos rfl]
    exact strongAt_eq_of_getElem? (List.getElem?_set_self hlt)
  · rw [if_neg hother, strongAt, strongAt, List.getElem?_set_ne (Ne.symm hother)]

theorem Linked.congr {s' : Sorts} (h : s.Linked inHand) (hhandles : s'.handles = s.handles)
    (hfiles : s'.files = s.files) (howners : s'.owners = s.owners) : s'.Linked inHand := by
  refine ⟨hfiles ▸ h.files_disk, fun index => ?_, howners ▸ h.strong_pos⟩
  rw [strongAt, references, howners, hhandles, hfiles]
  exact h.strong_eq index

/-- What is referred to is there. -/
theorem Linked.owner (h : s.Linked inHand) (index : Nat)
    (href : 0 < s.references index + if inHand = some index then 1 else 0) :
    ∃ owner, s.owners[index]? = some (some owner) := by
  rw [← h.strong_eq] at href
  rcases hslot : s.owners[index]? with _ | _ | owner
  · rw [strongAt, hslot] at href
    cases href
  · rw [strongAt, hslot] at href
    cases href
  · exact ⟨owner, rfl⟩

theorem Balanced.of_resources {r : SortResources}
    (hrecords : r.Records limits (s.heldMemory + m) (s.heldDisk + d)) (hlinked : s.Linked inHand) :
    ({ s with resources := r } : Sorts).Balanced limits m d inHand :=
  ⟨hrecords, hlinked.congr rfl rfl rfl⟩

/-- The references of one owner change together with what refers to it. -/
theorem Linked.set_owner {inHand' : Option Nat} {owner : Owner} {next : Option Owner}
    (h : s.Linked inHand) (hslot : s.owners[index]? = some (some owner))
    (hnext : next.elim 0 Owner.strong =
      s.references index + if inHand' = some index then 1 else 0)
    (hpos : ∀ owner, next = some owner → 0 < owner.strong)
    (hothers : ∀ other, other ≠ index → (inHand = some other ↔ inHand' = some other)) :
    ({ s with owners := s.owners.set index next } : Sorts).Linked inHand' := by
  refine ⟨h.files_disk, fun other => ?_, fun other owner' hother => ?_⟩
  · rw [strongAt_set hslot]
    by_cases heq : other = index
    · subst heq
      rw [if_pos rfl]
      exact hnext
    · rw [if_neg heq, h.strong_eq, if_congr (hothers other heq) rfl rfl]
      rfl
  · by_cases heq : other = index
    · subst heq
      obtain ⟨hlt, -⟩ := List.getElem?_eq_some_iff.mp hslot
      change (s.owners.set other next)[other]? = some (some owner') at hother
      rw [List.getElem?_set_self hlt] at hother
      exact hpos owner' (Option.some.inj hother)
    · change (s.owners.set index next)[other]? = some (some owner') at hother
      rw [List.getElem?_set_ne (Ne.symm heq)] at hother
      exact h.strong_pos other owner' hother

theorem releaseOwner_balanced (removed : Bool) (h : s.Balanced limits m d (some index)) :
    (s.releaseOwner index removed).Balanced limits m d none := by
  obtain ⟨owner, hslot⟩ := h.linked.owner index (by simp)
  have hstrong := h.linked.strong_eq index
  rw [strongAt_eq_of_getElem? hslot, if_pos rfl, Option.elim_some] at hstrong
  have hothers : ∀ other, other ≠ index → (some index = some other ↔ none = some other) :=
    fun other hne => by simp [Ne.symm hne]
  unfold releaseOwner
  rw [hslot]
  simp only
  have htotal := Slots.total_set Owner.retainedBytes hslot
  by_cases hlast : owner.strong = 1
  swap
  · rw [if_neg hlast]
    have hretained := htotal (some { owner with strong := owner.strong - 1 })
    refine ⟨?_, h.linked.set_owner hslot ?_ ?_ hothers⟩
    · have hrecords := h.records
      unfold heldMemory heldDisk at hrecords ⊢
      simp only [Option.elim_some] at hretained
      rwa [Nat.add_right_cancel hretained]
    · simp only [Option.elim_some, reduceCtorEq, if_false]
      omega
    · rintro _ ⟨⟩
      exact Nat.sub_pos_of_lt (by have := h.linked.strong_pos index owner hslot; omega)
  · rw [if_pos hlast]
    have hlinked : ({ s with owners := s.owners.set index none } : Sorts).Linked none := by
      refine h.linked.set_owner hslot ?_ nofun hothers
      simp only [Option.elim_none, reduceCtorEq, if_false]
      omega
    have hretained := htotal none
    simp only [Option.elim_none, Option.elim_some] at hretained
    have hrecords : s.resources.Records limits (s.heldMemory + m)
        (({ s with owners := s.owners.set index none } : Sorts).heldDisk + d +
          owner.retainedBytes) := by
      refine h.records.of_eq rfl ?_
      simp only [heldDisk]
      omega
    unfold dropOwner
    by_cases hremoved : removed = true
    · rw [if_pos hremoved]
      exact Balanced.of_resources (s := { s with owners := s.owners.set index none })
        hrecords.subtractDisk hlinked
    rw [if_neg hremoved]
    by_cases hbytes : owner.retainedBytes ≠ 0
    swap
    · rw [if_neg hbytes]
      refine ⟨hrecords.of_eq rfl ?_, hlinked.congr rfl rfl rfl⟩
      omega
    rw [if_pos hbytes]
    rcases hdeferred : s.resources.deferCleanup owner.pathCapacity owner.retainedBytes with
      ⟨recorded, r'⟩
    have hafter := SortResources.deferCleanup_records hdeferred hrecords
    refine ⟨hafter.of_eq rfl ?_, hlinked.congr rfl rfl rfl⟩
    cases recorded with
    | true => rfl
    | false =>
      simp only [heldDisk, Bool.false_eq_true, if_false]
      omega

theorem retain_balanced {bytes : Nat} (h : s.Balanced limits m (d + bytes) (some index)) :
    (s.retain index bytes).Balanced limits m d (some index) := by
  obtain ⟨owner, hslot⟩ := h.linked.owner index (by simp)
  have hstrong := h.linked.strong_eq index
  rw [strongAt_eq_of_getElem? hslot] at hstrong
  have hretained := Slots.total_set Owner.retainedBytes hslot
    (some { owner with retainedBytes := owner.retainedBytes + bytes })
  simp only [Option.elim_some] at hretained
  unfold retain
  rw [hslot]
  refine ⟨h.records.of_eq rfl ?_, h.linked.set_owner hslot hstrong ?_ fun _ _ => Iff.rfl⟩
  · simp only [heldDisk]
    omega
  · rintro _ ⟨⟩
    exact h.linked.strong_pos index owner hslot

theorem shareOwner_balanced (h : s.Balanced limits m d none) (href : 0 < s.references index) :
    (s.shareOwner index).Balanced limits m d (some index) := by
  obtain ⟨owner, hslot⟩ := h.linked.owner index (Nat.lt_of_lt_of_le href (by simp))
  have hstrong := h.linked.strong_eq index
  rw [strongAt_eq_of_getElem? hslot] at hstrong
  simp only [Option.elim_some, reduceCtorEq, if_false] at hstrong
  have hretained := Slots.total_set Owner.retainedBytes hslot
    (some { owner with strong := owner.strong + 1 })
  simp only [Option.elim_some] at hretained
  unfold shareOwner
  rw [hslot]
  refine ⟨h.records.of_eq rfl ?_, h.linked.set_owner hslot ?_ ?_ fun other hne => ?_⟩
  · simp only [heldDisk]
    omega
  · simp only [Option.elim_some, if_true]
    omega
  · rintro _ ⟨⟩
    exact Nat.succ_pos _
  · simp [Ne.symm hne]

/-! ### Handles and files -/

theorem Linked.push_owner (h : s.Linked none) (pathCapacity : Nat) :
    ({ s with owners := s.owners ++ [some ⟨pathCapacity, 0, 1⟩] } : Sorts).Linked
      (some s.owners.length) := by
  have hslots : ∀ index, index ≠ s.owners.length →
      (s.owners ++ [some (⟨pathCapacity, 0, 1⟩ : Owner)])[index]?.join = s.owners[index]?.join := by
    intro index hne
    rcases Nat.lt_or_gt_of_ne hne with hlt | hgt
    · rw [List.getElem?_append_left hlt]
    · rw [List.getElem?_eq_none (by simp only [List.length_append, List.length_singleton]; omega),
        List.getElem?_eq_none (by omega)]
  refine ⟨h.files_disk, fun index => ?_, fun index owner hslot => ?_⟩
  · have hstrong := h.strong_eq index
    change ((s.owners ++ [some (⟨pathCapacity, 0, 1⟩ : Owner)])[index]?).join.elim 0 Owner.strong =
      s.references index + _
    by_cases hindex : index = s.owners.length
    · subst hindex
      rw [strongAt, List.getElem?_eq_none (Nat.le_refl _)] at hstrong
      simp only [Option.join_none, Option.elim_none, reduceCtorEq, if_false] at hstrong
      simp only [List.getElem?_concat_length, Option.join_some, Option.elim_some, if_true]
      omega
    · rw [hslots index hindex, if_neg (by simpa using Ne.symm hindex)]
      exact hstrong
  · change (s.owners ++ [some (⟨pathCapacity, 0, 1⟩ : Owner)])[index]? = some (some owner) at hslot
    by_cases hindex : index = s.owners.length
    · subst hindex
      rw [List.getElem?_concat_length] at hslot
      cases hslot
      exact Nat.one_pos
    · have hjoin := hslots index hindex
      rw [hslot] at hjoin
      rcases hold : s.owners[index]? with _ | _ | old
      · rw [hold] at hjoin
        cases hjoin
      · rw [hold] at hjoin
        cases hjoin
      · rw [hold] at hjoin
        cases hjoin
        exact h.strong_pos index owner hold

theorem Linked.push_handle (h : s.Linked (some index)) :
    ({ s with handles := s.handles ++ [some index] } : Sorts).Linked none := by
  refine ⟨h.files_disk, fun other => (h.strong_eq other).trans ?_, h.strong_pos⟩
  simp only [references, Slots.total_append, Slots.total_cons, Slots.total_nil, Option.elim_some,
    Option.some.injEq, reduceCtorEq, if_false]
  omega

theorem Linked.take_handle {handle : Nat} (h : s.Linked none)
    (hslot : s.handles[handle]? = some (some index)) :
    ({ s with handles := s.handles.set handle none } : Sorts).Linked (some index) := by
  refine ⟨h.files_disk, fun other => (h.strong_eq other).trans ?_, h.strong_pos⟩
  have htotal := Slots.total_set (fun owner => if owner = other then 1 else 0) hslot none
  simp only [Option.elim_some, Option.elim_none] at htotal
  simp only [references, Option.some.injEq, reduceCtorEq, if_false]
  omega

theorem Linked.push_file {file : DiskFile} (h : s.Linked (some file.owner))
    (hdisk : file.reservation.memory = false) :
    ({ s with files := s.files ++ [some file] } : Sorts).Linked none := by
  refine ⟨fun other hmem => ?_, fun other => (h.strong_eq other).trans ?_, h.strong_pos⟩
  · rcases List.mem_append.mp hmem with hmem | hmem
    · exact h.files_disk other hmem
    · obtain rfl : other = file := Option.some.inj (List.mem_singleton.mp hmem)
      exact hdisk
  · simp only [references, Slots.total_append, Slots.total_cons, Slots.total_nil,
      Option.elim_some, Option.some.injEq, reduceCtorEq, if_false]
    omega

theorem Linked.take_file {file : DiskFile} (h : s.Linked none)
    (hslot : s.files[index]? = some (some file)) :
    ({ s with files := s.files.set index none } : Sorts).Linked (some file.owner) := by
  refine ⟨fun other hmem => ?_, fun other => (h.strong_eq other).trans ?_, h.strong_pos⟩
  · rcases List.mem_or_eq_of_mem_set hmem with hmem | hmem
    · exact h.files_disk other hmem
    · cases hmem
  · have htotal := Slots.total_set
      (fun file : DiskFile => if file.owner = other then 1 else 0) hslot none
    simp only [Option.elim_some, Option.elim_none] at htotal
    simp only [references, Option.some.injEq, reduceCtorEq, if_false]
    omega

theorem Linked.set_file {file next : DiskFile} (h : s.Linked inHand)
    (hslot : s.files[index]? = some (some file)) (howner : next.owner = file.owner)
    (hdisk : next.reservation.memory = false) :
    ({ s with files := s.files.set index (some next) } : Sorts).Linked inHand := by
  refine ⟨fun other hmem => ?_, fun other => (h.strong_eq other).trans ?_, h.strong_pos⟩
  · rcases List.mem_or_eq_of_mem_set hmem with hmem | hmem
    · exact h.files_disk other hmem
    · obtain rfl : other = next := Option.some.inj hmem
      exact hdisk
  · have htotal := Slots.total_set
      (fun file : DiskFile => if file.owner = other then 1 else 0) hslot (some next)
    simp only [Option.elim_some, howner] at htotal
    simp only [references]
    omega

theorem Balanced.of_eq {m' d' : Nat} (h : s.Balanced limits m d inHand) (hm : m = m')
    (hd : d = d') : s.Balanced limits m' d' inHand :=
  hm ▸ hd ▸ h

theorem Balanced.drop_reservation {reservation : Reservation}
    (h : s.Balanced limits (m + reservation.memoryPart) (d + reservation.diskPart) inHand) :
    ({ s with resources := reservation.drop s.resources } : Sorts).Balanced limits m d inHand :=
  .of_resources (h.records.of_eq (Nat.add_assoc _ _ _).symm (Nat.add_assoc _ _ _).symm).drop
    h.linked

theorem dropFile_balanced {file : DiskFile} (removed ownerRemoved : Bool)
    (h : s.Balanced limits (m + file.memoryPart) (d + file.diskPart) (some file.owner))
    (hdisk : file.reservation.memory = false) :
    (s.dropFile file removed ownerRemoved).Balanced limits m d none := by
  have hmemory : file.reservation.memoryPart = 0 := by
    rw [Reservation.memoryPart, hdisk]
    rfl
  have hbytes : file.reservation.diskPart = file.reservation.bytes := by
    rw [Reservation.diskPart, hdisk]
    rfl
  generalize hm : m + file.bufferMemory.elim 0 Reservation.memoryPart = m'
  generalize hd : d + file.bufferMemory.elim 0 Reservation.diskPart = d'
  have hbuffer : ∀ {s : Sorts}, s.Balanced limits m' d' none →
      (match file.bufferMemory with
        | some memory => { s with resources := memory.drop s.resources }
        | none => s).Balanced limits m d none := by
    intro s hs
    subst hm hd
    cases hsome : file.bufferMemory with
    | none =>
      rw [hsome] at hs
      exact hs
    | some memory =>
      rw [hsome] at hs
      exact hs.drop_reservation
  unfold dropFile
  refine hbuffer (releaseOwner_balanced ownerRemoved ?_)
  cases removed with
  | true =>
    refine Balanced.drop_reservation ?_
    simp only [if_true]
    refine h.of_eq ?_ ?_
    · simp only [DiskFile.memoryPart]
      omega
    · simp only [DiskFile.diskPart]
      omega
  | false =>
    refine Balanced.drop_reservation ?_
    simp only [Bool.false_eq_true, if_false]
    refine (retain_balanced (m := m') (d := d') (h.of_eq ?_ ?_)).of_eq ?_ ?_
    · simp only [DiskFile.memoryPart]
      omega
    · simp only [DiskFile.diskPart]
      omega
    · simp only [Reservation.memoryPart, hdisk, Bool.false_eq_true, if_false, Nat.add_zero]
    · simp only [Reservation.diskPart, hdisk, Bool.false_eq_true, if_false, Nat.add_zero]

/-! ## Every operation keeps the balance -/

theorem drop_balanced (what : Drop) (h : s.Balanced limits 0 0 none) :
    (s.drop what).Balanced limits 0 0 none := by
  cases what with
  | reservation index =>
    simp only [drop]
    rcases hslot : s.reservations[index]? with _ | _ | reservation
    · exact h
    · exact h
    · have hmemory := Slots.total_set Reservation.memoryPart hslot none
      have hdisk := Slots.total_set Reservation.diskPart hslot none
      simp only [Option.elim_some, Option.elim_none] at hmemory hdisk
      refine Balanced.drop_reservation (s := { s with
        reservations := s.reservations.set index none }) ⟨h.records.of_eq ?_ ?_,
          h.linked.congr rfl rfl rfl⟩
      · simp only [heldMemory]
        omega
      · simp only [heldDisk]
        omega
  | handle index removed =>
    simp only [drop]
    rcases hslot : s.handles[index]? with _ | _ | owner
    · exact h
    · exact h
    · exact releaseOwner_balanced removed ⟨h.records, h.linked.take_handle hslot⟩
  | file index removed ownerRemoved =>
    simp only [drop]
    rcases hslot : s.files[index]? with _ | _ | file
    · exact h
    · exact h
    · have hmemory := Slots.total_set DiskFile.memoryPart hslot none
      have hdisk := Slots.total_set DiskFile.diskPart hslot none
      simp only [Option.elim_some, Option.elim_none] at hmemory hdisk
      refine dropFile_balanced removed ownerRemoved ⟨h.records.of_eq ?_ ?_,
        h.linked.take_file hslot⟩ (h.linked.files_disk file (List.mem_of_getElem? hslot))
      · simp only [heldMemory]
        omega
      · simp only [heldDisk]
        omega

/-- What a file does to the ledger shows in its own charge. -/
theorem onFile_balanced {action : DiskFileM Unit}
    (haction : ∀ pending m d owner, Exec.Triple (DiskFile.Accounts limits pending m d owner) action
      (fun _ => DiskFile.Accounts limits pending m d owner) fun _ =>
        DiskFile.Accounts limits pending m d owner)
    (h : s.Balanced limits 0 0 none) : (onFile index action s).2.Balanced limits 0 0 none := by
  unfold onFile
  rcases hslot : s.files[index]? with _ | _ | file
  · exact h
  · exact h
  · simp only
    have hmemory := fun next => Slots.total_set DiskFile.memoryPart hslot (some next)
    have hdisk := fun next => Slots.total_set DiskFile.diskPart hslot (some next)
    simp only [Option.elim_some] at hmemory hdisk
    obtain ⟨hholds, hlength⟩ := h.records
    have hbefore := Slots.total_set DiskFile.memoryPart hslot none
    have hbefore' := Slots.total_set DiskFile.diskPart hslot none
    simp only [Option.elim_some, Option.elim_none] at hbefore hbefore'
    have hrun := haction s.resources.pending
      (Slots.total Reservation.memoryPart s.reservations +
        Slots.total DiskFile.memoryPart (s.files.set index none) +
        Slots.total PendingCleanup.memoryBytes s.resources.pending)
      (Slots.total Reservation.diskPart s.reservations +
        Slots.total DiskFile.diskPart (s.files.set index none) +
        Slots.total Owner.retainedBytes s.owners + s.kept +
        Slots.total PendingCleanup.diskBytes s.resources.pending) file.owner (file, s.resources)
      ⟨hholds.of_eq (by simp only [heldMemory]; omega) (by simp only [heldDisk]; omega),
        h.linked.files_disk file (List.mem_of_getElem? hslot), rfl⟩
    have hafter : DiskFile.Accounts limits s.resources.pending
      (Slots.total Reservation.memoryPart s.reservations +
        Slots.total DiskFile.memoryPart (s.files.set index none) +
        Slots.total PendingCleanup.memoryBytes s.resources.pending)
      (Slots.total Reservation.diskPart s.reservations +
        Slots.total DiskFile.diskPart (s.files.set index none) +
        Slots.total Owner.retainedBytes s.owners + s.kept +
        Slots.total PendingCleanup.diskBytes s.resources.pending) file.owner
      (action (file, s.resources)).2 := by
      rcases hresult : action (file, s.resources) with ⟨e | u, p⟩
      · rw [hresult] at hrun
        exact hrun
      · rw [hresult] at hrun
        exact hrun
    generalize (action (file, s.resources)).2 = p at hafter ⊢
    obtain ⟨next, r⟩ := p
    obtain ⟨hheld, hnext, howner⟩ := hafter
    have hnew := hmemory next
    have hnew' := hdisk next
    refine Balanced.of_resources (s := { s with files := s.files.set index (some next) })
      ((hheld.of_eq ?_ ?_).records hlength) (h.linked.set_file hslot howner hnext)
    · simp only [heldMemory]
      omega
    · simp only [heldDisk]
      omega

theorem references_pos {handle : Nat} (hslot : s.handles[handle]? = some (some index)) :
    0 < s.references index := by
  have htotal := Slots.total_set (fun owner => if owner = index then 1 else 0) hslot none
  simp only [Option.elim_some, Option.elim_none, if_true] at htotal
  unfold references
  omega

theorem apply_balanced (op : Op) (h : s.Balanced limits 0 0 none) :
    (apply op s).2.Balanced limits 0 0 none := by
  cases op with
  | reserve bytes memory =>
    have hrun := SortResources.reserve_holds bytes memory s.resources h.records.1
    simp only [apply]
    rcases hreserve : SortResources.reserve bytes memory s.resources with ⟨e | reservation, r⟩
    · rw [hreserve] at hrun
      exact .of_resources (hrun.records h.records.2) h.linked
    · rw [hreserve] at hrun
      obtain ⟨-, hheld⟩ := hrun
      refine Balanced.of_resources (s := { s with
        reservations := s.reservations ++ [some reservation] })
        ((hheld.of_eq ?_ ?_).records h.records.2) (h.linked.congr rfl rfl rfl)
      · simp only [heldMemory, Slots.total_append, Slots.total_cons, Slots.total_nil,
          Option.elim_some]
        omega
      · simp only [heldDisk, Slots.total_append, Slots.total_cons, Slots.total_nil,
          Option.elim_some]
        omega
  | grow index count =>
    simp only [apply]
    rcases hslot : s.reservations[index]? with _ | _ | reservation
    · exact h
    · exact h
    · have hmemory := fun next => Slots.total_set Reservation.memoryPart hslot next
      have hdisk := fun next => Slots.total_set Reservation.diskPart hslot next
      have hbefore := hmemory none
      have hbefore' := hdisk none
      simp only [Option.elim_some, Option.elim_none] at hbefore hbefore'
      obtain ⟨hholds, hlength⟩ := h.records
      have hheld : s.resources.Holds limits s.resources.pending
          (Slots.total Reservation.memoryPart (s.reservations.set index none) +
            Slots.total DiskFile.memoryPart s.files +
            Slots.total PendingCleanup.memoryBytes s.resources.pending + reservation.memoryPart)
          (Slots.total Reservation.diskPart (s.reservations.set index none) +
            Slots.total DiskFile.diskPart s.files + Slots.total Owner.retainedBytes s.owners +
            s.kept + Slots.total PendingCleanup.diskBytes s.resources.pending +
            reservation.diskPart) :=
        hholds.of_eq (by simp only [heldMemory]; omega) (by simp only [heldDisk]; omega)
      have hrun := Reservation.grow_holds count reservation s.resources hheld
      simp only
      rcases hgrow : reservation.grow count s.resources with ⟨e | grown, r⟩
      · rw [hgrow] at hrun
        refine .of_resources ((hrun.of_eq ?_ ?_).records hlength) h.linked
        · simp only [heldMemory]
          omega
        · simp only [heldDisk]
          omega
      · rw [hgrow] at hrun
        obtain ⟨-, hheld⟩ := hrun
        have hafter := hmemory (some grown)
        have hafter' := hdisk (some grown)
        simp only [Option.elim_some] at hafter hafter'
        refine Balanced.of_resources (s := { s with
          reservations := s.reservations.set index (some grown) })
          ((hheld.of_eq ?_ ?_).records hlength) (h.linked.congr rfl rfl rfl)
        · simp only [heldMemory]
          omega
        · simp only [heldDisk]
          omega
  | createOwner created pathCapacity =>
    cases created with
    | error e => exact h
    | ok u =>
      have hpush := h.linked.push_owner pathCapacity
      refine ⟨h.records.of_eq rfl ?_, hpush.push_handle⟩
      simp only [apply, heldDisk, Slots.total_append, Slots.total_cons, Slots.total_nil,
        Option.elim_some, Nat.add_zero]
  | cloneOwner handle =>
    simp only [apply]
    rcases hslot : s.handles[handle]? with _ | _ | owner
    · exact h
    · exact h
    · obtain ⟨hrecords, hlinked⟩ := shareOwner_balanced h (references_pos hslot)
      exact ⟨hrecords, hlinked.push_handle⟩
  | createFile handle opened cloned =>
    simp only [apply]
    rcases hslot : s.handles[handle]? with _ | _ | owner
    · exact h
    · exact h
    · have hrun := DiskFile.create_accounts owner opened cloned s.resources h.records.1
      simp only
      rcases hcreate : DiskFile.create owner opened cloned s.resources with ⟨e | file, r⟩
      · rw [hcreate] at hrun
        exact .of_resources (hrun.records h.records.2) h.linked
      · rw [hcreate] at hrun
        obtain ⟨hheld, hdisk, rfl⟩ := hrun
        have hcharged : ({ s with resources := r } : Sorts).Balanced limits file.memoryPart
            file.diskPart none := by
          refine .of_resources ((hheld.of_eq ?_ ?_).records h.records.2) h.linked
          · dsimp only
            omega
          · dsimp only
            omega
        obtain ⟨hrecords, hlinked⟩ := shareOwner_balanced hcharged
          (show 0 < ({ s with resources := r } : Sorts).references file.owner from
            references_pos hslot)
        refine ⟨hrecords.of_eq ?_ ?_, hlinked.push_file hdisk⟩
        · simp only [heldMemory, Slots.total_append, Slots.total_cons, Slots.total_nil,
            Option.elim_some]
          omega
        · simp only [heldDisk, Slots.total_append, Slots.total_cons, Slots.total_nil,
            Option.elim_some]
          omega
  | append file count written =>
    exact onFile_balanced (fun _ _ _ _ => DiskFile.append_accounts count written) h
  | allocate file count flushed resized =>
    exact onFile_balanced (fun _ _ _ _ => DiskFile.allocate_accounts count flushed resized) h
  | finishWriting file flushed =>
    exact onFile_balanced (fun _ _ _ _ => DiskFile.finishWriting_accounts flushed) h
  | retryCleanup deleted =>
    exact .of_resources (SortResources.retryCleanup_records deleted h.records) h.linked
  | drop what => exact drop_balanced what h
  | abandon held =>
    simp only [apply]
    induction held generalizing s with
    | nil => exact h
    | cons what held ih => exact ih (drop_balanced what h)

theorem new_balanced (memoryLimit diskLimit : Nat) :
    (Sorts.new memoryLimit diskLimit).Balanced (memoryLimit, diskLimit) 0 0 none := by
  refine ⟨⟨⟨rfl, rfl, ?_, ?_, Nat.zero_le _, Nat.zero_le _, Nat.two_pow_pos 64,
    Nat.two_pow_pos 64, rfl⟩, ?_⟩,
    nofun, fun index => ?_, nofun⟩
  · exact (Slots.total_replicate_none pendingSlots).symm
  · exact (Slots.total_replicate_none pendingSlots).symm
  · exact List.length_replicate
  · rfl

theorem run_balanced (ops : List Op) (h : s.Balanced limits 0 0 none) :
    (run ops s).Balanced limits 0 0 none := by
  induction ops generalizing s with
  | nil => exact h
  | cons op ops ih => exact ih (apply_balanced op h)

/-- Nothing is held any more: no reservation, no file and no handle. -/
def Dropped (s : Sorts) : Prop :=
  (∀ slot ∈ s.reservations, slot = none) ∧ (∀ slot ∈ s.files, slot = none) ∧
    ∀ slot ∈ s.handles, slot = none

/-- Owners go with the last that refers to them. -/
theorem Linked.owners_dropped (h : s.Linked none) (hdropped : s.Dropped) :
    ∀ slot ∈ s.owners, slot = none := by
  obtain ⟨-, hfiles, hhandles⟩ := hdropped
  intro slot hmem
  obtain ⟨index, hslot⟩ := List.mem_iff_getElem?.mp hmem
  cases slot with
  | none => rfl
  | some owner =>
    have hstrong := h.strong_eq index
    have hpos := h.strong_pos index owner hslot
    rw [strongAt_eq_of_getElem? hslot, references, Slots.total_eq_zero hhandles,
      Slots.total_eq_zero hfiles] at hstrong
    simp only [Option.elim_some, reduceCtorEq, if_false] at hstrong
    omega

/-- The ledger is exact over all that can happen to sorts, it stays within its limits and
never goes below zero; and it comes back to zero when everything is dropped and every folder
is deleted at last. -/
theorem ledger_exact (memoryLimit diskLimit : Nat) (ops : List Op) :
    let s := run ops (Sorts.new memoryLimit diskLimit)
    s.resources.memory = s.memoryCharges ∧ s.resources.disk = s.diskCharges ∧
      s.resources.memory ≤ memoryLimit ∧ s.resources.disk ≤ diskLimit ∧
      s.resources.underflowed = false ∧
      (s.Dropped → s.kept = 0 → (∀ slot ∈ s.resources.pending, slot = none) →
        s.resources.memory = 0 ∧ s.resources.disk = 0) := by
  intro s
  obtain ⟨⟨hholds, -⟩, hlinked⟩ : s.Balanced (memoryLimit, diskLimit) 0 0 none :=
    run_balanced ops (new_balanced memoryLimit diskLimit)
  have hmemory : s.resources.memory = s.memoryCharges := hholds.memory_eq
  have hdisk : s.resources.disk = s.diskCharges := hholds.disk_eq
  obtain ⟨hmemoryLimit, hdiskLimit⟩ := Prod.mk.inj hholds.limits_eq
  refine ⟨hmemory, hdisk, hmemoryLimit ▸ hholds.memory_le, hdiskLimit ▸ hholds.disk_le,
    hholds.sound, fun hdropped hkept hpending => ?_⟩
  have howners := hlinked.owners_dropped hdropped
  obtain ⟨hreservations, hfiles, -⟩ := hdropped
  rw [hmemory, hdisk, memoryCharges, diskCharges, heldMemory, heldDisk, hkept]
  simp only [Slots.total_eq_zero hreservations, Slots.total_eq_zero hfiles,
    Slots.total_eq_zero howners, Slots.total_eq_zero hpending, Nat.add_zero, and_self]

/-- A file and then its folder that cannot be deleted, and a cleanup that succeeds later. -/
def retriedOps : List Op :=
  [.createOwner (.ok ()) 40, .createFile 0 (.ok ()) (.ok ()), .append 0 100 (.ok ()),
    .drop (.file 0 false false), .drop (.handle 0 false), .retryCleanup fun _ => .done]

theorem ledger_exact_retried :
    (run (retriedOps.take 5) (Sorts.new 100000 1000)).resources.disk = 100 ∧
      (run retriedOps (Sorts.new 100000 1000)).resources.memory = 0 ∧
      (run retriedOps (Sorts.new 100000 1000)).resources.disk = 0 := by
  refine ⟨by decide +kernel, ?_⟩
  refine (ledger_exact 100000 1000 retriedOps).2.2.2.2.2 ?_ ?_ ?_
  · unfold Dropped
    decide +kernel
  · decide +kernel
  · decide +kernel

end Sorts

end LeanRows.Sort
