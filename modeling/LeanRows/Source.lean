import LeanRows.Lib.Exec
import LeanRows.Types

/-!
# Positioned sources and their fingerprints

A source answers two kinds of calls and may change between any two of them, so a call
takes the world it is made in and returns the next one. `Reads` says that the bytes handed
out are those of one document; `Steady` that nothing else goes wrong either.
-/

namespace LeanRows

set_option autoImplicit false

/-- Stable object identity evidence (`namespace` is `volume` here). -/
structure SourceIdentity where
  volume : Nat
  object : Nat
deriving DecidableEq, Repr

structure SourceRevision where
  primary : Nat
  secondary : Nat
deriving DecidableEq, Repr

/-- Bounded evidence describing one observed source state. The size is a `u64`. -/
structure SourceFingerprint where
  size : Nat
  identity : Option SourceIdentity
  revision : Option SourceRevision
  size_lt : size < u64Bound
deriving DecidableEq, Repr

inductive SourceChange where
  | unchanged
  | grew
  | shrank
  | identityChanged
  | revisionChanged
  | evidenceLost
deriving DecidableEq, Repr

def SourceChange.isChanged (change : SourceChange) : Bool := change != .unchanged

namespace SourceFingerprint

/-- The order of the checks is the source's: identity, then size, then revision. -/
def compare (self current : SourceFingerprint) : SourceChange :=
  match self.identity, current.identity with
  | some expected, some actual =>
    if expected ≠ actual then .identityChanged else sizeThenRevision
  | some _, none => .evidenceLost
  | none, _ => sizeThenRevision
where
  sizeThenRevision : SourceChange :=
    if current.size < self.size then .shrank
    else if self.size < current.size then .grew
    else match self.revision, current.revision with
      | some expected, some actual =>
        if expected ≠ actual then .revisionChanged else .unchanged
      | some _, none => .evidenceLost
      | none, _ => .unchanged

@[simp] theorem compare_self (fingerprint : SourceFingerprint) :
    fingerprint.compare fingerprint = .unchanged := by
  obtain ⟨size, identity, revision, _⟩ := fingerprint
  cases identity <;> cases revision <;> simp [compare, compare.sizeThenRevision]

end SourceFingerprint

/-- What the operating system reports, a reader that claims more bytes than fit, or an error that
the program makes itself, of the kind `Other` or `InvalidData`. -/
inductive IoError where
  | os (code : Nat)
  | readCount (count capacity : Nat)
  | other (message : String)
  | invalidData (message : String)
deriving DecidableEq, Repr

/-- Random-access bytes. A read returns the bytes it put at the front of the destination,
so their number is the count it reports. -/
structure PositionedRead (W : Type) where
  fingerprint : W → Except IoError SourceFingerprint × W
  readAt : W → Nat → Nat → Except IoError (List Byte) × W

def validateReadCount (bytes : List Byte) (capacity : Nat) : Except IoError (List Byte) :=
  if capacity < bytes.length then .error (.readCount bytes.length capacity) else .ok bytes

theorem validateReadCount_eq_ok {bytes bytes' : List Byte} {capacity : Nat}
    (h : validateReadCount bytes capacity = .ok bytes') :
    bytes' = bytes ∧ bytes.length ≤ capacity := by
  unfold validateReadCount at h
  split at h
  · cases h
  · cases h
    exact ⟨rfl, by omega⟩

namespace PositionedRead

variable {W : Type}

/-- Every successful read hands out bytes of the document from the offset asked for,
however many, and every size reported is the document's. -/
structure Reads (source : PositionedRead W) (document : List Byte) : Prop where
  size : ∀ w fingerprint, (source.fingerprint w).1 = .ok fingerprint →
    fingerprint.size = document.length
  read : ∀ w offset len bytes, (source.readAt w offset len).1 = .ok bytes →
    bytes <+: document.drop offset

/-- The source does not change, no call fails, and a read before the end delivers at least
one byte and at most as many as asked for. -/
structure Steady (source : PositionedRead W) (document : List Byte)
    (fingerprint : SourceFingerprint) : Prop extends source.Reads document where
  unchanged : ∀ w, (source.fingerprint w).1 = .ok fingerprint
  progress : ∀ w offset len, 0 < len → offset < document.length →
    ∃ bytes, (source.readAt w offset len).1 = .ok bytes ∧ bytes ≠ [] ∧ bytes.length ≤ len

theorem Steady.size_eq {source : PositionedRead W} {document : List Byte}
    {fingerprint : SourceFingerprint} (h : source.Steady document fingerprint) (w : W) :
    fingerprint.size = document.length :=
  h.size w fingerprint (h.unchanged w)

section Exec
variable {ε : Type} (io : IoError → ε) (source : PositionedRead W)

def capture : Exec W ε SourceFingerprint := fun w =>
  ((source.fingerprint w).1.mapError io, (source.fingerprint w).2)

/-- A read, and the check of the count it reports. -/
def read (offset len : Nat) : Exec W ε (List Byte) := fun w =>
  (((source.readAt w offset len).1.bind fun bytes => validateReadCount bytes len).mapError io,
    (source.readAt w offset len).2)

variable {io source} {document : List Byte} {fingerprint : SourceFingerprint}

theorem capture_returns (h : source.Steady document fingerprint) :
    (source.capture io).Returns fun current => current = fingerprint := by
  intro w
  refine ⟨fingerprint, ?_, rfl⟩
  simp only [capture, h.unchanged w]
  rfl

theorem read_ensures (h : source.Reads document) (offset len : Nat) :
    (source.read io offset len).Ensures fun bytes =>
      bytes.length ≤ len ∧ bytes <+: document.drop offset := by
  intro w bytes hbytes
  have hread := h.read w offset len
  simp only [read] at hbytes
  cases hrun : (source.readAt w offset len).1 with
  | error e => simp [hrun, Except.bind, Except.mapError] at hbytes
  | ok got =>
    simp only [hrun, Except.bind, validateReadCount] at hbytes
    split at hbytes
    · cases hbytes
    · cases hbytes
      exact ⟨by omega, hread _ hrun⟩

theorem read_returns (h : source.Steady document fingerprint) {offset len : Nat}
    (hlen : 0 < len) (hoffset : offset < document.length) :
    (source.read io offset len).Returns fun bytes =>
      bytes ≠ [] ∧ bytes.length ≤ len ∧ bytes <+: document.drop offset := by
  intro w
  obtain ⟨bytes, hread, hne, hle⟩ := h.progress w offset len hlen hoffset
  refine ⟨bytes, ?_, hne, hle, h.read w offset len bytes hread⟩
  simp only [read, hread, Except.bind, validateReadCount]
  rw [if_neg (by omega)]
  rfl

end Exec

end PositionedRead

/-- A call of a source, with what it was answered. -/
inductive SourceEvent where
  | fingerprint (answer : Except IoError SourceFingerprint)
  | read (offset len : Nat) (answer : Except IoError (List Byte))
deriving DecidableEq

namespace PositionedRead

variable {W E : Type}

/-- The source with a record of the calls made of it. -/
def logged (note : SourceEvent → E) (source : PositionedRead W) :
    PositionedRead (List E × W) where
  fingerprint p :=
    let r := source.fingerprint p.2
    (r.1, p.1 ++ [note (.fingerprint r.1)], r.2)
  readAt p offset len :=
    let r := source.readAt p.2 offset len
    (r.1, p.1 ++ [note (.read offset len r.1)], r.2)

theorem Reads.logged {source : PositionedRead W} {document : List Byte}
    (h : source.Reads document) (note : SourceEvent → E) :
    (source.logged note).Reads document where
  size p fingerprint := h.size p.2 fingerprint
  read p offset len bytes := h.read p.2 offset len bytes

/-- The source where it is called in `K` only; elsewhere every call of it fails. -/
def guarded (source : PositionedRead W) (K : W → Prop) [DecidablePred K] : PositionedRead W where
  fingerprint w := if K w then source.fingerprint w else (.error (.os 0), w)
  readAt w offset len := if K w then source.readAt w offset len else (.error (.os 0), w)

theorem guarded_reads {source : PositionedRead W} {K : W → Prop} [DecidablePred K]
    {document : List Byte}
    (hsize : ∀ w fingerprint, K w → (source.fingerprint w).1 = .ok fingerprint →
      fingerprint.size = document.length)
    (hread : ∀ w offset len bytes, K w → (source.readAt w offset len).1 = .ok bytes →
      bytes <+: document.drop offset) : (source.guarded K).Reads document where
  size w fingerprint h := by
    unfold guarded at h
    dsimp only at h
    split at h
    · exact hsize w fingerprint ‹_› h
    · cases h
  read w offset len bytes h := by
    unfold guarded at h
    dsimp only at h
    split at h
    · exact hread w offset len bytes ‹_› h
    · cases h

/-- A file that never changes and whose reads are never short. -/
def ofBytes (document : List Byte) (hsize : document.length < u64Bound) :
    PositionedRead Unit where
  fingerprint w := (.ok ⟨document.length, none, none, hsize⟩, w)
  readAt w offset len := (.ok ((document.drop offset).take len), w)

theorem ofBytes_steady (document : List Byte) (hsize : document.length < u64Bound) :
    (ofBytes document hsize).Steady document ⟨document.length, none, none, hsize⟩ where
  size w fingerprint h := by
    cases h
    rfl
  read w offset len bytes h := by
    cases h
    exact List.take_prefix _ _
  unchanged w := rfl
  progress w offset len hlen hoffset := by
    refine ⟨_, rfl, ?_, List.length_take_le _ _⟩
    intro hnil
    have := congrArg List.length hnil
    simp only [List.length_take, List.length_drop, List.length_nil] at this
    omega

/-- The same file in any world. -/
def ofBytesIn (W : Type) (document : List Byte) (hsize : document.length < u64Bound) :
    PositionedRead W where
  fingerprint w := (.ok ⟨document.length, none, none, hsize⟩, w)
  readAt w offset len := (.ok ((document.drop offset).take len), w)

theorem ofBytesIn_reads (W : Type) (document : List Byte)
    (hsize : document.length < u64Bound) : (ofBytesIn W document hsize).Reads document where
  size w fingerprint h := by
    cases h
    rfl
  read w offset len bytes h := by
    cases h
    exact List.take_prefix _ _

end PositionedRead

end LeanRows
