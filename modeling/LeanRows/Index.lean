import LeanRows.Types

/-!
# Adaptive checkpoint indexes

At most `capacityLimit` checkpoints, sampled at a stride that doubles each time the index
is full and every second entry is dropped. The origin is never dropped, so a lookup always
finds a checkpoint at or before the row.
-/

namespace LeanRows

set_option autoImplicit false

inductive CheckpointIndexError where
  | capacityTooSmall
  | capacityUnavailable
  | zeroStride
  | nonMonotonic
deriving DecidableEq, Repr

structure IndexUpdate where
  stored : Bool
  compacted : Bool
deriving DecidableEq, Repr

/-- Whether the stride counts rows or bytes. -/
inductive Cadence where
  | rows
  | bytes
deriving DecidableEq, Repr

def Checkpoint.origin : Checkpoint := ⟨0, 0⟩

structure AdaptiveIndex where
  entries : List Checkpoint
  capacityLimit : Nat
  stride : Nat
  cadence : Cadence
  lastObserved : Checkpoint
  origin_first : entries.head? = some Checkpoint.origin

/-- The entries that compaction keeps: those at even positions. -/
def everyOther {α : Type} : List α → List α
  | [] => []
  | [a] => [a]
  | a :: _ :: rest => a :: everyOther rest

theorem everyOther_head? {α : Type} (xs : List α) : (everyOther xs).head? = xs.head? := by
  match xs with
  | [] => rfl
  | [_] => rfl
  | _ :: _ :: _ => rfl

theorem mem_of_mem_everyOther {α : Type} {a : α} {xs : List α} (h : a ∈ everyOther xs) :
    a ∈ xs := by
  match xs with
  | [] => exact h
  | [_] => exact h
  | b :: _ :: rest =>
    rcases List.mem_cons.mp h with rfl | h
    · exact List.mem_cons_self
    · exact List.mem_cons_of_mem _ (List.mem_cons_of_mem _ (mem_of_mem_everyOther h))

namespace AdaptiveIndex

def new (capacity initialStride : Nat) (cadence : Cadence) :
    Except CheckpointIndexError AdaptiveIndex :=
  if capacity < 2 then .error .capacityTooSmall
  else if initialStride = 0 then .error .zeroStride
  else .ok ⟨[.origin], capacity, initialStride, cadence, .origin, rfl⟩

def compact (index : AdaptiveIndex) : AdaptiveIndex :=
  { index with
    entries := everyOther index.entries
    stride := min (index.stride * 2) (u64Bound - 1)
    origin_first := by rw [everyOther_head?, index.origin_first] }

def push (index : AdaptiveIndex) (candidate : Checkpoint) : AdaptiveIndex :=
  { index with
    entries := index.entries ++ [candidate]
    origin_first := by
      have := index.origin_first
      cases h : index.entries <;> simp_all }

theorem entries_ne_nil (index : AdaptiveIndex) : index.entries ≠ [] := by
  intro h
  simpa [h] using index.origin_first

def last (index : AdaptiveIndex) : Checkpoint := index.entries.getLast index.entries_ne_nil

def observe (index : AdaptiveIndex) (candidate : Checkpoint) :
    Except CheckpointIndexError (AdaptiveIndex × IndexUpdate) :=
  if candidate = index.lastObserved then .ok (index, ⟨false, false⟩)
  else if candidate.row ≤ index.lastObserved.row ∨
      candidate.offset ≤ index.lastObserved.offset then .error .nonMonotonic
  else
    let full := index.entries.length == index.capacityLimit
    let index := { index with lastObserved := candidate }
    let index := if full then index.compact else index
    let delta :=
      match index.cadence with
      | .rows => candidate.row - index.last.row
      | .bytes => candidate.offset - index.last.offset
    let stored : Bool := index.stride ≤ delta
    .ok (if stored then index.push candidate else index, ⟨stored, full⟩)

/-- The latest entry at or before `row`: the source finds it by binary search, which
counts the entries in front of the first one behind `row`. -/
def nearest (index : AdaptiveIndex) (row : Nat) : Checkpoint :=
  let after := (index.entries.takeWhile fun entry => entry.row ≤ row).length
  index.entries.getD (after - 1) .origin

theorem nearest_spec (index : AdaptiveIndex) (row : Nat) :
    index.nearest row ∈ index.entries ∧ (index.nearest row).row ≤ row := by
  have horigin := index.origin_first
  unfold nearest
  cases he : index.entries with
  | nil => simp [he] at horigin
  | cons first rest =>
    obtain rfl : first = .origin := by simpa [he] using horigin
    set kept := (Checkpoint.origin :: rest).takeWhile fun entry => entry.row ≤ row with hkept
    have hpos : 0 < kept.length := by simp [hkept, Checkpoint.origin]
    have hpre : kept <+: Checkpoint.origin :: rest := List.takeWhile_prefix _
    have hlt : kept.length - 1 < (Checkpoint.origin :: rest).length := by
      have := hpre.length_le
      omega
    have hget : (Checkpoint.origin :: rest).getD (kept.length - 1) .origin ∈ kept := by
      obtain ⟨more, hmore⟩ := hpre
      rw [← hmore, List.getD_append _ _ _ _ (by omega), List.getD_eq_getElem _ _ (by omega)]
      exact List.getElem_mem _
    exact ⟨hpre.subset hget, by simpa using List.mem_takeWhile_imp hget⟩

/-- What observing can do: nothing to the entries but drop some and add the candidate. -/
theorem observe_cases {index next : AdaptiveIndex} {candidate : Checkpoint}
    {update : IndexUpdate} (h : index.observe candidate = .ok (next, update)) :
    next.lastObserved = candidate ∧
      ∀ entry ∈ next.entries, entry ∈ index.entries ∨ entry = candidate := by
  unfold observe at h
  by_cases hsame : candidate = index.lastObserved
  · rw [if_pos hsame] at h
    cases h
    exact ⟨hsame.symm, fun entry hentry => .inl hentry⟩
  rw [if_neg hsame] at h
  split at h
  · cases h
  simp only [Except.ok.injEq, Prod.mk.injEq] at h
  obtain ⟨rfl, -⟩ := h
  generalize hroom : (if (index.entries.length == index.capacityLimit) = true then
    ({ index with lastObserved := candidate } : AdaptiveIndex).compact
    else { index with lastObserved := candidate }) = room
  have hlast : room.lastObserved = candidate := by
    rw [← hroom]
    split <;> rfl
  have hold : ∀ entry ∈ room.entries, entry ∈ index.entries := by
    intro entry hentry
    rw [← hroom] at hentry
    split at hentry
    · exact mem_of_mem_everyOther hentry
    · exact hentry
  generalize hstored : decide (room.stride ≤ _) = stored
  cases stored with
  | false => exact ⟨hlast, fun entry hentry => .inl (hold entry hentry)⟩
  | true =>
    refine ⟨hlast, fun entry hentry => ?_⟩
    rcases List.mem_append.mp hentry with hentry | hentry
    · exact .inl (hold entry hentry)
    · exact .inr (List.mem_singleton.mp hentry)

/-- An observation further on in both coordinates, or the last one again, is accepted. -/
theorem observe_isOk {index : AdaptiveIndex} {candidate : Checkpoint}
    (h : candidate = index.lastObserved ∨
      index.lastObserved.row < candidate.row ∧ index.lastObserved.offset < candidate.offset) :
    ∃ next update, index.observe candidate = .ok (next, update) := by
  unfold observe
  rcases h with h | ⟨hrow, hoffset⟩
  · exact ⟨index, _, by rw [if_pos h]⟩
  · split
    · exact ⟨_, _, rfl⟩
    · rw [if_neg (by omega)]
      exact ⟨_, _, rfl⟩

end AdaptiveIndex

end LeanRows
