import LeanRows.Lib.ByteFile
import LeanRows.Lib.Exec
import LeanRows.Query.Literal
import LeanRows.Source

/-!
# The scratch file of a query

Hits are appended to a file of fixed-length entries until the quota is reached. A write
may fail with some of its bytes in the file; the next write goes to the same place.
-/

namespace LeanRows

set_option autoImplicit false

def queryScratchHeaderBytes : Nat := 48

def queryHitEntryBytes : Nat := 24

inductive QueryError where
  | emptyNeedle
  | zeroReadBuffer
  | zeroCancellationInterval
  | zeroPageCapacity
  | zeroWorkBudget
  | scratchQuotaTooSmall (quotaBytes minimumBytes : Nat)
  | scratchCorrupt
  | sourceShrank
  | sourceGrew (expectedSize actualSize : Nat)
  | sourceChanged (change : SourceChange) (expectedSize actualSize : Nat)
  | sourceEvidenceUnavailable
  | rowOverflow
  | addressSpace
  | io (error : IoError)
  | scan (error : ScanError)
deriving DecidableEq, Repr

def QueryError.isSourceIntegrityFailure : QueryError → Bool
  | .sourceShrank | .sourceGrew _ _ | .sourceChanged _ _ _ | .sourceEvidenceUnavailable => true
  | _ => false

namespace QueryHit

def encode (hit : QueryHit) : List Byte :=
  ByteFile.leBytes 8 hit.row ++ ByteFile.leBytes 8 hit.span.start ++
    ByteFile.leBytes 8 hit.span.stop

def decode (bytes : List Byte) : Except QueryError QueryHit :=
  let row := ByteFile.leNat (bytes.take 8)
  let start := ByteFile.leNat ((bytes.drop 8).take 8)
  let stop := ByteFile.leNat ((bytes.drop 16).take 8)
  match RecordSpan.new start stop with
  | .error _ => .error .scratchCorrupt
  | .ok span => .ok ⟨row, span⟩

/-- The numbers of a hit are `u64`s; a start is no larger than its stop. -/
def Fits (hit : QueryHit) : Prop := hit.row < u64Bound ∧ hit.span.stop < u64Bound

@[simp] theorem encode_length (hit : QueryHit) : hit.encode.length = queryHitEntryBytes := by
  simp [encode, queryHitEntryBytes]

theorem decode_encode {hit : QueryHit} (h : hit.Fits) : decode hit.encode = .ok hit := by
  obtain ⟨hrow, hstop⟩ := h
  have hstart := hit.span.start_le_stop
  have hbound : u64Bound = 256 ^ 8 := rfl
  have hfirst : hit.encode.take 8 = ByteFile.leBytes 8 hit.row := by
    rw [encode, List.append_assoc, List.take_left' (ByteFile.leBytes_length 8 _)]
  have hrest : hit.encode.drop 8 =
      ByteFile.leBytes 8 hit.span.start ++ ByteFile.leBytes 8 hit.span.stop := by
    rw [encode, List.append_assoc, List.drop_left' (ByteFile.leBytes_length 8 _)]
  have hsecond : (hit.encode.drop 8).take 8 = ByteFile.leBytes 8 hit.span.start := by
    rw [hrest, List.take_left' (ByteFile.leBytes_length 8 _)]
  have hthird : (hit.encode.drop 16).take 8 = ByteFile.leBytes 8 hit.span.stop := by
    have hdrop : hit.encode.drop 16 = (hit.encode.drop 8).drop 8 := by rw [List.drop_drop]
    rw [hdrop, hrest, List.drop_left' (ByteFile.leBytes_length 8 _)]
    exact List.take_of_length_le (by simp)
  simp only [decode, hfirst, hsecond, hthird]
  rw [ByteFile.leNat_leBytes 8 _ (by omega), ByteFile.leNat_leBytes 8 _ (by omega),
    ByteFile.leNat_leBytes 8 _ (by omega), RecordSpan.new_start_stop]

end QueryHit

/-- The disk under a scratch file. A write that fails reports how many of its bytes are in
the file. -/
structure ScratchMedium (W : Type) where
  write : W → Option (IoError × Nat) × W

/-- The disk in a world that keeps something beside it. -/
def ScratchMedium.beside {S W : Type} (medium : ScratchMedium W) : ScratchMedium (S × W) where
  write p := ((medium.write p.2).1, p.1, (medium.write p.2).2)

structure ScratchHitStore where
  file : List Byte
  quotaBytes : Nat
  usedBytes : Nat
  entries : Nat
deriving DecidableEq

inductive ScratchAppend where
  | stored (index : Nat)
  | quota (requiredBytes : Nat)
deriving DecidableEq, Repr

/-- `LRQHIT01`, the version and the two lengths, and the owner of the file. -/
def scratchHeader (owner : List Byte) : List Byte :=
  [76, 82, 81, 72, 73, 84, 48, 49] ++ ByteFile.leBytes 2 1 ++
    ByteFile.leBytes 2 queryScratchHeaderBytes ++ ByteFile.leBytes 2 queryHitEntryBytes ++
    [0, 0] ++ owner ++ List.replicate 16 0

namespace ScratchHitStore

variable {W : Type}

/-- A created file whose header has been written. -/
def create (owner : List Byte) (quotaBytes : Nat) : ScratchHitStore :=
  ⟨scratchHeader owner, quotaBytes, queryScratchHeaderBytes, 0⟩

def append (medium : ScratchMedium W) (store : ScratchHitStore) (hit : QueryHit) (w : W) :
    Except QueryError ScratchAppend × ScratchHitStore × W :=
  match checkedAdd store.usedBytes queryHitEntryBytes with
  | none => (.error .addressSpace, store, w)
  | some requiredBytes =>
    if store.quotaBytes < requiredBytes then (.ok (.quota requiredBytes), store, w)
    else
      match medium.write w with
      | (some (error, count), w) =>
        (.error (.io error), { store with
          file := ByteFile.writeAt store.file store.usedBytes (hit.encode.take count) }, w)
      | (none, w) =>
        let written := { store with
          file := ByteFile.writeAt store.file store.usedBytes hit.encode
          usedBytes := requiredBytes }
        match checkedAdd store.entries 1 with
        | none => (.error .addressSpace, written, w)
        | some entries => (.ok (.stored store.entries), { written with entries := entries }, w)

def hitOffset (index : Nat) : Nat := queryScratchHeaderBytes + queryHitEntryBytes * index

/-- The entry in the file, which `read_hit` decodes. -/
def hitAt (store : ScratchHitStore) (index : Nat) : Except QueryError QueryHit :=
  QueryHit.decode (ByteFile.readAt store.file (hitOffset index) queryHitEntryBytes)

/-- What a reader of the file finds in it. -/
def storedHits (store : ScratchHitStore) : List (Except QueryError QueryHit) :=
  (List.range store.entries).map store.hitAt

/-- The file holds the hits, and nothing else is in use. -/
structure Holds (hits : List QueryHit) (store : ScratchHitStore) : Prop where
  entries : store.entries = hits.length
  used : store.usedBytes = hitOffset hits.length
  room : store.usedBytes ≤ store.file.length
  content : ∀ index hit, hits[index]? = some hit →
    ByteFile.readAt store.file (hitOffset index) queryHitEntryBytes = hit.encode
  fits : ∀ hit ∈ hits, hit.Fits
  quota : store.usedBytes ≤ store.quotaBytes

theorem hitOffset_succ (index : Nat) : hitOffset (index + 1) = hitOffset index + 24 := by
  simp only [hitOffset, queryHitEntryBytes]
  omega

theorem hitOffset_mono {index index' : Nat} (h : index < index') :
    hitOffset index + queryHitEntryBytes ≤ hitOffset index' := by
  simp only [hitOffset, queryHitEntryBytes]
  omega

theorem create_holds {owner : List Byte} (howner : owner.length = 16) {quotaBytes : Nat}
    (hquota : queryScratchHeaderBytes ≤ quotaBytes) : (create owner quotaBytes).Holds [] where
  entries := rfl
  used := rfl
  room := by simp [create, scratchHeader, howner, queryScratchHeaderBytes]
  content index hit h := by simp at h
  fits hit h := by simp at h
  quota := hquota

variable {hits : List QueryHit} {store : ScratchHitStore}

theorem Holds.storedHits_eq (h : store.Holds hits) : store.storedHits = hits.map .ok := by
  apply List.ext_getElem?
  intro index
  simp only [storedHits, List.getElem?_map, h.entries]
  by_cases hlt : index < hits.length
  · rw [List.getElem?_range hlt, List.getElem?_eq_getElem hlt]
    simp only [Option.map_some, hitAt, h.content index _ (List.getElem?_eq_getElem hlt)]
    rw [QueryHit.decode_encode (h.fits _ (List.getElem_mem hlt))]
  · have hrange : (List.range hits.length)[index]? = none := by simp; omega
    rw [hrange, List.getElem?_eq_none (by omega)]
    rfl

/-- What a write behind the entries in use does not change. -/
theorem Holds.write (h : store.Holds hits) (bytes : List Byte) :
    ({ store with file := ByteFile.writeAt store.file store.usedBytes bytes } :
      ScratchHitStore).Holds hits where
  entries := h.entries
  used := h.used
  room := Nat.le_trans (Nat.le_add_right _ _) (ByteFile.length_writeAt h.room bytes)
  content index hit hget := by
    obtain ⟨hlt, -⟩ := List.getElem?_eq_some_iff.mp hget
    rw [ByteFile.readAt_writeAt_of_le h.room]
    · exact h.content index hit hget
    · rw [h.used]
      exact hitOffset_mono hlt
  fits := h.fits
  quota := h.quota

theorem Holds.append_hit (h : store.Holds hits) {hit : QueryHit} (hfits : hit.Fits)
    (hquota : store.usedBytes + queryHitEntryBytes ≤ store.quotaBytes) :
    ({ store with
      file := ByteFile.writeAt store.file store.usedBytes hit.encode
      usedBytes := store.usedBytes + queryHitEntryBytes
      entries := store.entries + 1 } : ScratchHitStore).Holds (hits ++ [hit]) where
  entries := by simp [h.entries]
  used := by
    rw [List.length_append, List.length_singleton, hitOffset_succ, h.used]
    rfl
  room := by
    have hlen := ByteFile.length_writeAt h.room hit.encode
    rwa [QueryHit.encode_length] at hlen
  content index hit' hget := by
    have hwritten := h.write hit.encode
    rcases Nat.lt_or_ge index hits.length with hlt | hge
    · rw [List.getElem?_append_left hlt] at hget
      exact hwritten.content index hit' hget
    · obtain ⟨hlt, -⟩ := List.getElem?_eq_some_iff.mp hget
      rw [List.length_append, List.length_singleton] at hlt
      obtain rfl : index = hits.length := by omega
      rw [List.getElem?_append_right (Nat.le_refl _), Nat.sub_self] at hget
      cases hget
      have hself := ByteFile.readAt_writeAt_self h.room hit.encode
      rw [QueryHit.encode_length] at hself
      rw [← h.used]
      exact hself
  fits hit' hmem := by
    rcases List.mem_append.mp hmem with hold | hnew
    · exact h.fits hit' hold
    · rw [List.mem_singleton.mp hnew]
      exact hfits
  quota := hquota

/-- What an append can do: store the hit behind the others, refuse it for the quota, find
no address for it, or fail to write it. Only the first changes the hits. -/
inductive Appended (medium : ScratchMedium W) (hits : List QueryHit) (hit : QueryHit)
    (before : ScratchHitStore) (w : W) :
    Except QueryError ScratchAppend × ScratchHitStore × W → Prop where
  | stored {store : ScratchHitStore} {w' : W} (index : Nat)
      (hwrite : medium.write w = (none, w')) (h : store.Holds (hits ++ [hit])) :
      Appended medium hits hit before w (.ok (.stored index), store, w')
  | refused (h : before.Holds hits)
      (hfull : before.quotaBytes < hitOffset (hits.length + 1)) :
      Appended medium hits hit before w
        (.ok (.quota (hitOffset (hits.length + 1))), before, w)
  | unaddressed (hnone : checkedAdd before.usedBytes queryHitEntryBytes = none) :
      Appended medium hits hit before w (.error .addressSpace, before, w)
  | failed {store : ScratchHitStore} {w' : W} {failure : IoError × Nat}
      (hwrite : medium.write w = (some failure, w')) (h : store.Holds hits) :
      Appended medium hits hit before w (.error (.io failure.1), store, w')

theorem append_appended (medium : ScratchMedium W) (h : store.Holds hits) {hit : QueryHit}
    (hfits : hit.Fits) (w : W) :
    Appended medium hits hit store w (store.append medium hit w) := by
  unfold append
  have hoffset : hitOffset (hits.length + 1) = store.usedBytes + queryHitEntryBytes := by
    rw [hitOffset_succ, h.used]
    rfl
  cases hrequired : checkedAdd store.usedBytes queryHitEntryBytes with
  | none => exact .unaddressed hrequired
  | some required =>
    obtain ⟨hbound, rfl⟩ := checkedAdd_eq_some.mp hrequired
    dsimp only
    split
    · rename_i hfull
      rw [← hoffset] at hfull ⊢
      exact .refused h hfull
    rename_i hroom
    rcases hwrite : medium.write w with ⟨_ | ⟨error, count⟩, w'⟩
    · have hcount : checkedAdd store.entries 1 = some (store.entries + 1) := by
        apply checkedAdd_eq_some.mpr
        refine ⟨?_, rfl⟩
        have hused := h.used
        simp only [hitOffset, queryHitEntryBytes, queryScratchHeaderBytes] at hused hbound
        rw [h.entries]
        omega
      simp only [hcount]
      exact .stored _ hwrite (h.append_hit hfits (Nat.le_of_not_lt hroom))
    · exact .failed hwrite (h.write _)

end ScratchHitStore

end LeanRows
