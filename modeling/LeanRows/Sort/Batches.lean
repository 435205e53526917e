import LeanRows.Lib.Merging
import LeanRows.Sort.MergePass

/-!
# The runs of a sort

How the records that the extraction hands over come to be sorted. A batch of them is merged into
ever wider runs between two buffers and appended to the run file, and the passes over the runs do
the rest. A record is what it sorts by; the scratch files work, and a comparison that has been
suspended goes on with the pair it was begun with.
-/

set_option autoImplicit false

namespace LeanRows.Sort.MergePass

open Merging
open SortSession (nextPair takeOne)

/-- A session up to its passes; `todo` is what is left to extract. -/
structure Batching (α : Type) where
  capacity : Nat
  todo : List α
  batch : List α
  alternate : List α
  merge : Merge
  writeAt : Nat
  runFile : List α
  comparison : Option (α × α)
  phase : SortPhase

namespace Batching

variable {α : Type} (order : α → α → Ordering)

/-- The session in front of the first record. -/
def new (capacity : Nat) (records alternate : List α) : Batching α :=
  ⟨capacity, records, [], alternate, ⟨0, 0, 0, 0, 0, 0, 0⟩, 0, [], none, .extracting⟩

def compare (c : Choice) (a b : α) (s : Batching α) : Option Ordering × Batching α :=
  let result := match s.comparison with
    | some pair => Pass.resume order c pair
    | none => if c.decided then (some (order a b), none) else Pass.resume order c (a, b)
  (result.1, { s with comparison := result.2 })

/-- A batch is full, or the last one, or it takes the next record. -/
def extract (s : Batching α) : Batching α :=
  if s.batch.length = s.capacity ∨ s.todo = [] then
    if s.batch = [] then { s with phase := .merging }
    else { s with merge := ⟨1, 0, 0, 0, 0, 0, 0⟩, writeAt := 0, phase := .sortingRuns }
  else { s with todo := s.todo.tail, batch := s.batch ++ s.todo.head?.toList }

/-- The record goes to the other buffer. An index outside of the batch would end the program. -/
def take (left : Bool) (s : Batching α) : Except SortError (Batching α) :=
  match s.batch[if left then s.merge.left else s.merge.right]? with
  | none => .error .invalidScratch
  | some record => .ok { s with
      alternate := s.alternate.set s.merge.out record
      merge := takeOne left s.merge }

def mergeRuns (c : Choice) (s : Batching α) : Except SortError (Batching α) :=
  if s.merge.left = s.merge.middle then take false s
  else if s.merge.right = s.merge.stop then take true s
  else
    match s.batch[s.merge.left]?, s.batch[s.merge.right]? with
    | some a, some b =>
      let compared := compare order c a b s
      match compared.1 with
      | none => .ok compared.2
      | some answer => take (answer != .gt) compared.2
    | _, _ => .error .invalidScratch

def sortBatch (c : Choice) (s : Batching α) : Except SortError (Batching α) :=
  let n := s.batch.length
  if n ≤ s.merge.width then
    match s.batch[s.writeAt]? with
    | some record => .ok { s with runFile := s.runFile ++ [record], writeAt := s.writeAt + 1 }
    | none => .ok { s with batch := [], phase := .extracting }
  else if n ≤ s.merge.start then
    .ok { s with
      batch := s.alternate.take n
      merge := { s.merge with width := s.merge.width * 2, start := 0, stop := 0, out := 0 } }
  else mergeRuns order c { s with merge := nextPair n s.merge }

/-- A round of `advance` in front of the passes. -/
def step (c : Choice) (s : Batching α) : Except SortError (Batching α) :=
  match s.phase with
  | .extracting => .ok (extract s)
  | .sortingRuns => sortBatch order c s
  | _ => .ok s

/-- The states of a session up to its passes. -/
inductive Reaches (first : Batching α) : Batching α → Prop where
  | start : Reaches first first
  | step {s s' : Batching α} (c : Choice) : Reaches first s → s.phase ≠ .merging →
      step order c s = .ok s' → Reaches first s'

/-! ## What holds up to the passes -/

section State
variable (records written : List α) (s : Batching α)

/-- The runs that are complete, and the records that are not in them yet. -/
structure Kept : Prop where
  capacity_pos : 0 < s.capacity
  sorted : SortedRuns order s.capacity written
  aligned : (∃ g, written.length = g * s.capacity) ∨ s.todo = [] ∧ s.batch = []
  batch_le : s.batch.length ≤ s.capacity
  room : s.alternate.length = s.capacity
  perm : (written ++ (s.batch ++ s.todo)).Perm records

/-- Runs of that width are merged in pairs, and the pairs up to `start` are. -/
structure Level : Prop where
  width_pos : 0 < s.merge.width
  sorted : SortedRuns order s.merge.width s.batch
  start : ∃ g, s.merge.start = min (g * (s.merge.width * 2)) s.batch.length
  room : s.batch.length ≤ s.alternate.length
  chunked : Chunked order (s.merge.width * 2) (s.batch.take s.merge.start)
    (s.alternate.take s.merge.start)
  perm : (s.alternate.take s.merge.start).Perm (s.batch.take s.merge.start)

/-- A pair of runs, as far as it is merged; a comparison is one of the two heads. -/
structure Pair : Prop where
  start_lt : s.merge.start < s.batch.length
  middle : s.merge.middle = min (s.merge.start + s.merge.width) s.batch.length
  stop : s.merge.stop = min (s.merge.middle + s.merge.width) s.batch.length
  left : s.merge.start ≤ s.merge.left ∧ s.merge.left ≤ s.merge.middle
  right : s.merge.middle ≤ s.merge.right ∧ s.merge.right ≤ s.merge.stop
  out : s.merge.out + s.merge.middle = s.merge.left + s.merge.right
  out_lt : s.merge.out < s.merge.stop
  merged : Merged (Before order) (slice s.alternate s.merge.start s.merge.out)
    (slice s.batch s.merge.left s.merge.middle) (slice s.batch s.merge.right s.merge.stop)
    (slice s.batch s.merge.start s.merge.stop)
  suspended : ∀ pair, s.comparison = some pair → s.merge.left < s.merge.middle ∧
    s.merge.right < s.merge.stop ∧ s.batch[s.merge.left]? = some pair.1 ∧
      s.batch[s.merge.right]? = some pair.2

/-- Two runs are merged, or the next two are to be. -/
def Paired : Prop := s.merge.out = s.merge.stop ∧ s.comparison = none ∨ Pair order s

/-- What holds in every state up to the passes. -/
inductive Inv : Prop where
  | extracting (phase : s.phase = .extracting) (quiet : s.comparison = none)
      (kept : Kept order records s.runFile s)
  | merging (written : List α) (phase : s.phase = .sortingRuns)
      (full : s.batch.length = s.capacity ∨ s.todo = []) (kept : Kept order records written s)
      (file : s.runFile = written) (writeAt : s.writeAt = 0)
      (width : s.merge.width < s.batch.length) (level : Level order s) (paired : Paired order s)
  | writing (written : List α) (phase : s.phase = .sortingRuns)
      (full : s.batch.length = s.capacity ∨ s.todo = []) (kept : Kept order records written s)
      (file : s.runFile = written ++ s.batch.take s.writeAt) (quiet : s.comparison = none)
      (width : s.batch.length ≤ s.merge.width) (sorted : s.batch.Pairwise (Before order))
  | complete (phase : s.phase = .merging) (capacity_pos : 0 < s.capacity)
      (sorted : SortedRuns order s.capacity s.runFile) (perm : s.runFile.Perm records)

end State

variable {order} {s : Batching α} {records written : List α}

/-! ## Pairs of runs -/

instance [Std.TransCmp order] : IsTrans α (Before order) := ⟨fun _ _ _ => Std.TransCmp.lt_trans⟩

theorem Level.start_le (h : Level order s) : s.merge.start ≤ s.batch.length := by
  obtain ⟨g, hg⟩ := h.start
  omega

/-- The first pair, or the next one. -/
theorem Level.begin (h : Level order s) (hmore : s.merge.start < s.batch.length)
    (hend : s.merge.out = s.merge.stop) (hquiet : s.comparison = none) :
    Level order { s with merge := nextPair s.batch.length s.merge } ∧
      Pair order { s with merge := nextPair s.batch.length s.merge } := by
  have hpos := h.width_pos
  obtain ⟨g, hg⟩ := h.start
  have haligned : s.merge.start = g * 2 * s.merge.width := by
    rw [Nat.mul_assoc, Nat.mul_comm 2]
    omega
  have hmiddle : (g * 2 + 1) * s.merge.width = s.merge.start + s.merge.width := by
    rw [Nat.succ_mul, haligned]
  have hstop : (g * 2 + 1 + 1) * s.merge.width = s.merge.start + s.merge.width + s.merge.width := by
    rw [Nat.succ_mul, hmiddle]
  have hnext : nextPair s.batch.length s.merge = { s.merge with
      left := s.merge.start
      right := min (s.merge.start + s.merge.width) s.batch.length
      middle := min (s.merge.start + s.merge.width) s.batch.length
      stop := min (min (s.merge.start + s.merge.width) s.batch.length + s.merge.width)
        s.batch.length
      out := s.merge.start } := if_pos hend
  rw [hnext]
  refine ⟨⟨hpos, h.sorted, h.start, h.room, h.chunked, h.perm⟩, ?_⟩
  constructor
  case start_lt => exact hmore
  case middle => rfl
  case stop => rfl
  case left => dsimp only; omega
  case right => dsimp only; omega
  case out => rfl
  case out_lt => dsimp only; omega
  case merged =>
    dsimp only
    have hfirst := h.sorted (g * 2)
    have hsecond := h.sorted (g * 2 + 1)
    rw [← haligned, hmiddle, ← slice_min, Nat.min_eq_left (Nat.le_of_lt hmore)] at hfirst
    rw [hmiddle, hstop, ← slice_min] at hsecond
    have hlast : min (min (s.merge.start + s.merge.width) s.batch.length + s.merge.width)
        s.batch.length = min (s.merge.start + s.merge.width + s.merge.width) s.batch.length := by
      omega
    rw [hlast, slice_of_le (Nat.le_refl s.merge.start), ← slice_append
      (show s.merge.start ≤ min (s.merge.start + s.merge.width) s.batch.length by omega)
      (show min (s.merge.start + s.merge.width) s.batch.length ≤
        min (s.merge.start + s.merge.width + s.merge.width) s.batch.length by omega)]
    exact .start hfirst hsecond
  case suspended =>
    intro pair hpair
    dsimp only at hpair
    rw [hquiet] at hpair
    cases hpair

theorem slice_set {file : List α} {a : α} {i j : Nat} (hij : i ≤ j) (hj : j < file.length) :
    slice (file.set j a) i (j + 1) = slice file i j ++ [a] := by
  have hlast : slice (file.set j a) j (j + 1) = [a] := by
    rw [slice_cons (List.getElem?_set_self hj) (Nat.lt_succ_self j), slice_of_le (Nat.le_refl _)]
  have hfirst : slice (file.set j a) i j = slice file i j := by
    rw [slice, slice, List.drop_set, if_neg (by omega), List.take_set_of_le (Nat.le_refl _)]
  rw [← slice_append hij (Nat.le_succ j), hfirst, hlast]

/-- The state with one more record of a pair in the other buffer. -/
def moved (a : α) (left right : Nat) (s : Batching α) : Batching α :=
  { s with
    alternate := s.alternate.set s.merge.out a
    merge := { s.merge with
      left := left
      right := right
      out := s.merge.out + 1
      start := if s.merge.out + 1 = s.merge.stop then s.merge.stop else s.merge.start } }

theorem take_eq {left : Bool} {a : α}
    (h : s.batch[if left then s.merge.left else s.merge.right]? = some a) :
    take left s = .ok (s.moved a (if left then s.merge.left + 1 else s.merge.left)
      (if left then s.merge.right else s.merge.right + 1)) := by
  unfold take
  rw [h]
  cases left <;> simp only [takeOne, moved, Bool.false_eq_true, if_true, if_false] <;>
    split_ifs <;> rfl

/-- A pair goes on, or is complete. -/
theorem Pair.moved (h : Pair order s) (hlevel : Level order s) (hquiet : s.comparison = none)
    {a : α} {left right : Nat} (hleft : s.merge.left ≤ left ∧ left ≤ s.merge.middle)
    (hright : s.merge.right ≤ right ∧ right ≤ s.merge.stop)
    (hone : left + right = s.merge.left + s.merge.right + 1)
    (hmerged : Merged (Before order) (slice s.alternate s.merge.start s.merge.out ++ [a])
      (slice s.batch left s.merge.middle) (slice s.batch right s.merge.stop)
      (slice s.batch s.merge.start s.merge.stop)) :
    Level order (s.moved a left right) ∧ Paired order (s.moved a left right) := by
  have hstart := h.start_lt
  have hmiddle := h.middle
  have hstop := h.stop
  have hout := h.out
  have houtLt := h.out_lt
  have hroom := hlevel.room
  have hpos := hlevel.width_pos
  have hl := h.left
  have hr := h.right
  have hslice : slice (s.alternate.set s.merge.out a) s.merge.start (s.merge.out + 1) =
      slice s.alternate s.merge.start s.merge.out ++ [a] := slice_set (by omega) (by omega)
  have htake : (s.alternate.set s.merge.out a).take s.merge.start =
      s.alternate.take s.merge.start := List.take_set_of_le (by omega)
  by_cases hend : s.merge.out + 1 = s.merge.stop
  · have hmoved : (s.moved a left right).merge.start = s.merge.stop := if_pos hend
    obtain ⟨g, hg⟩ := hlevel.start
    have hnext : (g + 1) * (s.merge.width * 2) = s.merge.start + s.merge.width * 2 := by
      rw [Nat.succ_mul]
      omega
    obtain rfl : left = s.merge.middle := by omega
    obtain rfl : right = s.merge.stop := by omega
    rw [slice_of_le (Nat.le_refl _), slice_of_le (Nat.le_refl _), ← hslice, hend] at hmerged
    obtain ⟨hsorted, hperm⟩ := hmerged.finish
    have hbatch := Pass.take_slice s.batch (show s.merge.start ≤ s.merge.stop by omega)
    have halternate := Pass.take_slice (s.alternate.set s.merge.out a)
      (show s.merge.start ≤ s.merge.stop by omega)
    rw [htake] at halternate
    refine ⟨?_, .inl ⟨hend, hquiet⟩⟩
    constructor
    case width_pos => exact hpos
    case sorted => exact hlevel.sorted
    case start =>
      rw [hmoved]
      exact ⟨g + 1, by dsimp only [Batching.moved]; omega⟩
    case room =>
      change s.batch.length ≤ (s.alternate.set s.merge.out a).length
      rwa [List.length_set]
    case chunked =>
      rw [hmoved]
      change Chunked order (s.merge.width * 2) (s.batch.take s.merge.stop)
        ((s.alternate.set s.merge.out a).take s.merge.stop)
      rw [← hbatch, ← halternate]
      refine hlevel.chunked.append (g := g) ?_ ?_ hperm ?_ hsorted
      · rw [List.length_take]
        omega
      · rw [List.length_take]
        omega
      · rw [length_slice (by rw [List.length_set]; omega)]
        omega
    case perm =>
      rw [hmoved]
      change ((s.alternate.set s.merge.out a).take s.merge.stop).Perm (s.batch.take s.merge.stop)
      rw [← hbatch, ← halternate]
      exact hlevel.perm.append hperm
  · have hmoved : (s.moved a left right).merge.start = s.merge.start := if_neg hend
    have hlast : (s.moved a left right).alternate = s.alternate.set s.merge.out a := rfl
    constructor
    · constructor
      case width_pos => exact hpos
      case sorted => exact hlevel.sorted
      case start =>
        rw [hmoved]
        exact hlevel.start
      case room =>
        rw [hlast, List.length_set]
        exact hroom
      case chunked =>
        rw [hmoved, hlast, htake]
        exact hlevel.chunked
      case perm =>
        rw [hmoved, hlast, htake]
        exact hlevel.perm
    · refine .inr ?_
      constructor
      case start_lt =>
        rw [hmoved]
        exact hstart
      case middle =>
        rw [hmoved]
        exact hmiddle
      case stop => exact hstop
      case left =>
        rw [hmoved]
        exact ⟨by dsimp only [Batching.moved]; omega, hleft.2⟩
      case right => exact ⟨by dsimp only [Batching.moved]; omega, hright.2⟩
      case out => dsimp only [Batching.moved]; omega
      case out_lt => dsimp only [Batching.moved]; omega
      case merged =>
        rw [hmoved, hlast]
        dsimp only [Batching.moved]
        rw [hslice]
        exact hmerged
      case suspended =>
        intro pair hpair
        have hsome : s.comparison = some pair := hpair
        rw [hquiet] at hsome
        cases hsome

theorem Pair.quiet (h : Pair order s) (hend : s.merge.left = s.merge.middle ∨
    s.merge.right = s.merge.stop) : s.comparison = none := by
  by_contra hsome
  obtain ⟨pair, hpair⟩ := Option.ne_none_iff_exists'.mp hsome
  obtain ⟨hleft, hright, -⟩ := h.suspended pair hpair
  omega

/-- Another comparison is of the two heads. -/
theorem Pair.suspend (h : Pair order s) {a b : α} (hleft : s.merge.left < s.merge.middle)
    (hright : s.merge.right < s.merge.stop) (ha : s.batch[s.merge.left]? = some a)
    (hb : s.batch[s.merge.right]? = some b) :
    Pair order { s with comparison := some (a, b) } :=
  { start_lt := h.start_lt
    middle := h.middle
    stop := h.stop
    left := h.left
    right := h.right
    out := h.out
    out_lt := h.out_lt
    merged := h.merged
    suspended := fun pair hpair => by
      cases hpair
      exact ⟨hleft, hright, ha, hb⟩ }

theorem Pair.answered (h : Pair order s) : Pair order { s with comparison := none } :=
  { start_lt := h.start_lt
    middle := h.middle
    stop := h.stop
    left := h.left
    right := h.right
    out := h.out
    out_lt := h.out_lt
    merged := h.merged
    suspended := fun _ hpair => by cases hpair }

theorem Level.withComparison (h : Level order s) (comparison : Option (α × α)) :
    Level order { s with comparison := comparison } :=
  ⟨h.width_pos, h.sorted, h.start, h.room, h.chunked, h.perm⟩

theorem take_right (h : Pair order s) (hlevel : Level order s) (hquiet : s.comparison = none)
    (hmore : s.merge.right < s.merge.stop)
    (hbefore : ∀ a, s.batch[s.merge.right]? = some a →
      ∀ b ∈ slice s.batch s.merge.left s.merge.middle, Before order a b) :
    ∃ a left right, take false s = .ok (s.moved a left right) ∧
      Level order (s.moved a left right) ∧ Paired order (s.moved a left right) := by
  have hstop := h.stop
  have hr := h.right
  have hget : s.batch[s.merge.right]? = some s.batch[s.merge.right] :=
    List.getElem?_eq_getElem (by omega)
  have hmerged := h.merged
  rw [slice_cons hget hmore] at hmerged
  exact ⟨_, _, _, take_eq hget, h.moved hlevel hquiet ⟨Nat.le_refl _, h.left.2⟩
    ⟨Nat.le_succ _, hmore⟩ rfl (hmerged.takeRight (hbefore _ hget))⟩

theorem take_left (h : Pair order s) (hlevel : Level order s) (hquiet : s.comparison = none)
    (hmore : s.merge.left < s.merge.middle)
    (hbefore : ∀ a, s.batch[s.merge.left]? = some a →
      ∀ b ∈ slice s.batch s.merge.right s.merge.stop, Before order a b) :
    ∃ a left right, take true s = .ok (s.moved a left right) ∧
      Level order (s.moved a left right) ∧ Paired order (s.moved a left right) := by
  have hmiddle := h.middle
  have hget : s.batch[s.merge.left]? = some s.batch[s.merge.left] :=
    List.getElem?_eq_getElem (by omega)
  have hmerged := h.merged
  rw [slice_cons hget hmore] at hmerged
  exact ⟨_, _, _, take_eq hget, h.moved hlevel hquiet ⟨Nat.le_succ _, hmore⟩
    ⟨Nat.le_refl _, h.right.2⟩ (Nat.succ_add _ _) (hmerged.takeLeft (hbefore _ hget))⟩

/-- A comparison answers for the two heads, or it is suspended with them. -/
theorem compare_spec {a b : α} (c : Choice)
    (h : ∀ pair, s.comparison = some pair → pair = (a, b)) :
    (compare order c a b s = (some (order a b), { s with comparison := none })) ∨
      compare order c a b s = (none, { s with comparison := some (a, b) }) := by
  unfold compare
  cases hcomparison : s.comparison with
  | some pair =>
    rw [h pair hcomparison]
    dsimp only
    unfold Pass.resume
    by_cases hyields : c.yields = true
    · exact .inr (by rw [if_pos hyields])
    · exact .inl (by rw [if_neg hyields])
  | none =>
    dsimp only
    unfold Pass.resume
    by_cases hdecided : c.decided = true
    · exact .inl (by rw [if_pos hdecided])
    · rw [if_neg hdecided]
      by_cases hyields : c.yields = true
      · exact .inr (by rw [if_pos hyields])
      · exact .inl (by rw [if_neg hyields])

/-- What a step of a pair does not change. -/
structure MergedTo (s s' : Batching α) : Prop where
  capacity : s'.capacity = s.capacity
  todo : s'.todo = s.todo
  batch : s'.batch = s.batch
  alternate : s'.alternate.length = s.alternate.length
  runFile : s'.runFile = s.runFile
  writeAt : s'.writeAt = s.writeAt
  phase : s'.phase = s.phase
  width : s'.merge.width = s.merge.width

theorem moved_mergedTo (a : α) (left right : Nat) : MergedTo s (s.moved a left right) :=
  ⟨rfl, rfl, rfl, List.length_set, rfl, rfl, rfl, rfl⟩

theorem answered_mergedTo : MergedTo s { s with comparison := none } :=
  ⟨rfl, rfl, rfl, rfl, rfl, rfl, rfl, rfl⟩

theorem MergedTo.trans {s' s'' : Batching α} (h : MergedTo s s') (h' : MergedTo s' s'') :
    MergedTo s s'' :=
  ⟨h'.capacity.trans h.capacity, h'.todo.trans h.todo, h'.batch.trans h.batch,
    h'.alternate.trans h.alternate, h'.runFile.trans h.runFile, h'.writeAt.trans h.writeAt,
    h'.phase.trans h.phase, h'.width.trans h.width⟩

/-- A step of a pair takes the lesser head, or none. -/
theorem mergeRuns_spec [Std.TransCmp order] (h : Pair order s) (hlevel : Level order s)
    (hdistinct : s.batch.Pairwise fun a b => order a b ≠ .eq) (c : Choice) :
    ∃ s', mergeRuns order c s = .ok s' ∧ MergedTo s s' ∧ Level order s' ∧ Paired order s' := by
  have hstop := h.stop
  have hmiddle := h.middle
  have hl := h.left
  have hr := h.right
  unfold mergeRuns
  by_cases hleft : s.merge.left = s.merge.middle
  · rw [if_pos hleft]
    obtain ⟨a, left, right, htake, hnext⟩ := take_right h hlevel (h.quiet (.inl hleft))
      (by have := h.out; have := h.out_lt; omega) (by
        rw [slice_of_le (Nat.le_of_eq hleft.symm)]
        exact fun _ _ _ hb => absurd hb List.not_mem_nil)
    exact ⟨_, htake, moved_mergedTo a left right, hnext⟩
  rw [if_neg hleft]
  by_cases hright : s.merge.right = s.merge.stop
  · rw [if_pos hright]
    obtain ⟨a, left, right, htake, hnext⟩ := take_left h hlevel (h.quiet (.inr hright))
      (by omega) (by
        rw [slice_of_le (Nat.le_of_eq hright.symm)]
        exact fun _ _ _ hb => absurd hb List.not_mem_nil)
    exact ⟨_, htake, moved_mergedTo a left right, hnext⟩
  rw [if_neg hright]
  have hleftLt : s.merge.left < s.merge.middle := by omega
  have hrightLt : s.merge.right < s.merge.stop := by omega
  have hgetLeft : s.batch[s.merge.left]? = some s.batch[s.merge.left] :=
    List.getElem?_eq_getElem (by omega)
  have hgetRight : s.batch[s.merge.right]? = some s.batch[s.merge.right] :=
    List.getElem?_eq_getElem (by omega)
  have hne : order s.batch[s.merge.left] s.batch[s.merge.right] ≠ .eq :=
    List.pairwise_iff_getElem.mp hdistinct _ _ (by omega) (by omega) (by omega)
  generalize s.batch[s.merge.left] = a at *
  generalize s.batch[s.merge.right] = b at *
  rw [hgetLeft, hgetRight]
  dsimp only
  have hpair : ∀ pair, s.comparison = some pair → pair = (a, b) := by
    intro pair hpair
    obtain ⟨-, -, ha, hb⟩ := h.suspended pair hpair
    rw [hgetLeft, Option.some.injEq] at ha
    rw [hgetRight, Option.some.injEq] at hb
    rw [ha, hb]
  obtain hanswer | hsuspended : compare order c a b s =
        (some (order a b), { s with comparison := none }) ∨
      compare order c a b s = (none, { s with comparison := some (a, b) }) := compare_spec c hpair
  · rw [hanswer]
    dsimp only
    have hmerged := h.merged
    rw [slice_cons hgetLeft hleftLt, slice_cons hgetRight hrightLt] at hmerged
    have hanswered := h.answered
    have hlevel' := hlevel.withComparison none
    cases hcase : order a b with
    | lt =>
      have hbefore := hmerged.head_before hcase
      obtain ⟨record, left, right, htake, hnext⟩ := take_left hanswered hlevel' rfl hleftLt (by
        intro x hx
        rw [hgetLeft, Option.some.injEq] at hx
        rw [← hx, slice_cons hgetRight hrightLt]
        exact hbefore)
      exact ⟨_, htake, answered_mergedTo.trans (moved_mergedTo record left right), hnext⟩
    | eq => exact absurd hcase hne
    | gt =>
      have hbefore := hmerged.symm.head_before (Std.OrientedCmp.gt_iff_lt.mp hcase)
      obtain ⟨record, left, right, htake, hnext⟩ := take_right hanswered hlevel' rfl hrightLt (by
        intro x hx
        rw [hgetRight, Option.some.injEq] at hx
        rw [← hx, slice_cons hgetLeft hleftLt]
        exact hbefore)
      exact ⟨_, htake, answered_mergedTo.trans (moved_mergedTo record left right), hnext⟩
  · rw [hsuspended]
    exact ⟨_, rfl, ⟨rfl, rfl, rfl, rfl, rfl, rfl, rfl, rfl⟩, hlevel.withComparison _,
      .inr (h.suspend hleftLt hrightLt hgetLeft hgetRight)⟩

/-! ## Every step -/

theorem MergedTo.kept {s' : Batching α} (h : MergedTo s s') (hkept : Kept order records written s) :
    Kept order records written s' :=
  { capacity_pos := by rw [h.capacity]; exact hkept.capacity_pos
    sorted := by rw [h.capacity]; exact hkept.sorted
    aligned := by rw [h.capacity, h.todo, h.batch]; exact hkept.aligned
    batch_le := by rw [h.batch, h.capacity]; exact hkept.batch_le
    room := by rw [h.alternate, h.capacity]; exact hkept.room
    perm := by rw [h.batch, h.todo]; exact hkept.perm }

/-- Records that differ still do in the batch. -/
theorem Kept.distinct [Std.OrientedCmp order] (h : Kept order records written s)
    (hdistinct : records.Pairwise fun a b => order a b ≠ .eq) :
    s.batch.Pairwise fun a b => order a b ≠ .eq := by
  have hall := (h.perm.pairwise_iff fun {x y} hxy heq =>
    hxy (Std.OrientedCmp.eq_comm.mp heq)).mpr hdistinct
  exact (List.pairwise_append.mp (List.pairwise_append.mp hall).2.1).1

/-- Runs of one width are there: the batch is one of them, or they are to be merged. -/
theorem Inv.ofRuns (hphase : s.phase = .sortingRuns)
    (hfull : s.batch.length = s.capacity ∨ s.todo = []) (hkept : Kept order records s.runFile s)
    (hwriteAt : s.writeAt = 0) (hpos : 0 < s.merge.width)
    (hsorted : SortedRuns order s.merge.width s.batch) (hstart : s.merge.start = 0)
    (hout : s.merge.out = s.merge.stop) (hquiet : s.comparison = none) : Inv order records s := by
  by_cases hwidth : s.batch.length ≤ s.merge.width
  · refine .writing s.runFile hphase hfull hkept ?_ hquiet hwidth ?_
    · rw [hwriteAt, List.take_zero, List.append_nil]
    · have hzero := hsorted 0
      rw [Nat.zero_mul, Nat.zero_add, Nat.one_mul, slice, List.drop_zero, Nat.sub_zero,
        List.take_of_length_le hwidth] at hzero
      exact hzero
  · refine .merging s.runFile hphase hfull hkept rfl hwriteAt (Nat.lt_of_not_le hwidth) ?_
      (.inl ⟨hout, hquiet⟩)
    exact
      { width_pos := hpos
        sorted := hsorted
        start := ⟨0, by rw [hstart, Nat.zero_mul, Nat.zero_min]⟩
        room := by rw [hkept.room]; exact hkept.batch_le
        chunked := by rw [hstart, List.take_zero, List.take_zero]; exact .nil
        perm := by rw [hstart, List.take_zero, List.take_zero] }

theorem extract_inv (hphase : s.phase = .extracting) (hquiet : s.comparison = none)
    (hkept : Kept order records s.runFile s) : Inv order records (extract s) := by
  unfold extract
  split_ifs with hfull hempty
  · have htodo : s.todo = [] := by
      refine hfull.resolve_left fun hlength => ?_
      rw [hempty, List.length_nil] at hlength
      exact absurd hlength (Nat.ne_of_lt hkept.capacity_pos)
    have hperm := hkept.perm
    rw [hempty, htodo, List.append_nil, List.append_nil] at hperm
    exact .complete rfl hkept.capacity_pos hkept.sorted hperm
  · exact .ofRuns rfl hfull ⟨hkept.capacity_pos, hkept.sorted, hkept.aligned, hkept.batch_le,
      hkept.room, hkept.perm⟩ rfl Nat.one_pos (Pass.sortedRuns_one _ _) rfl rfl hquiet
  · obtain ⟨hroom, hmore⟩ := not_or.mp hfull
    obtain ⟨a, rest, htodo⟩ := List.exists_cons_of_ne_nil hmore
    refine .extracting hphase hquiet ?_
    have hperm := hkept.perm
    have hle := hkept.batch_le
    rw [htodo] at hperm
    constructor
    case capacity_pos => exact hkept.capacity_pos
    case sorted => exact hkept.sorted
    case aligned => exact .inl (hkept.aligned.resolve_right fun hdone => hmore hdone.1)
    case batch_le =>
      dsimp only
      rw [htodo, List.head?_cons, Option.toList_some, List.length_append, List.length_singleton]
      omega
    case room => exact hkept.room
    case perm =>
      dsimp only
      rwa [htodo, List.head?_cons, Option.toList_some, List.tail_cons, List.append_assoc]

/-- The run that is complete is appended to those before. -/
theorem Kept.append (h : Kept order records written s)
    (hfull : s.batch.length = s.capacity ∨ s.todo = []) (hsorted : s.batch.Pairwise (Before order))
    (hfile : s.runFile = written ++ s.batch) :
    Kept order records s.runFile { s with batch := [], phase := .extracting } := by
  rw [hfile]
  constructor
  case capacity_pos => exact h.capacity_pos
  case sorted =>
    obtain ⟨g, hg⟩ | ⟨-, hempty⟩ := h.aligned
    · intro k
      dsimp only
      rw [slice_chunk hg h.batch_le]
      split_ifs
      · exact h.sorted k
      · exact hsorted
      · exact .nil
    · rw [hempty, List.append_nil]
      exact h.sorted
  case aligned =>
    obtain hlength | htodo := hfull
    · obtain ⟨g, hg⟩ | ⟨htodo, -⟩ := h.aligned
      · exact .inl ⟨g + 1, by rw [List.length_append, hg, hlength, Nat.succ_mul]⟩
      · exact .inr ⟨htodo, rfl⟩
    · exact .inr ⟨htodo, rfl⟩
  case batch_le => exact Nat.zero_le _
  case room => exact h.room
  case perm =>
    dsimp only
    rw [List.nil_append, List.append_assoc]
    exact h.perm

theorem paired_mergedTo : MergedTo s { s with merge := nextPair s.batch.length s.merge } :=
  ⟨rfl, rfl, rfl, rfl, rfl, rfl, rfl, by unfold nextPair; dsimp only; split_ifs <;> rfl⟩

theorem sortBatch_inv [Std.TransCmp order] (hphase : s.phase = .sortingRuns)
    (hinv : Inv order records s) (hdistinct : records.Pairwise fun a b => order a b ≠ .eq)
    (c : Choice) : ∃ s', sortBatch order c s = .ok s' ∧ Inv order records s' := by
  unfold sortBatch
  dsimp only
  cases hinv with
  | extracting phase => rw [hphase] at phase; cases phase
  | complete phase => rw [hphase] at phase; cases phase
  | writing written phase full kept file quiet width sorted =>
    rw [if_pos width]
    cases hget : s.batch[s.writeAt]? with
    | some record =>
      refine ⟨_, rfl, .writing written phase full ⟨kept.capacity_pos, kept.sorted, kept.aligned,
        kept.batch_le, kept.room, kept.perm⟩ ?_ quiet width sorted⟩
      dsimp only
      rw [file, List.take_add_one, hget, Option.toList_some, List.append_assoc]
    | none =>
      rw [List.take_of_length_le (List.getElem?_eq_none_iff.mp hget)] at file
      exact ⟨_, rfl, .extracting rfl quiet (kept.append full sorted file)⟩
  | merging written phase full kept file writeAt width level paired =>
    rw [if_neg (Nat.not_le_of_lt width)]
    by_cases hend : s.batch.length ≤ s.merge.start
    · rw [if_pos hend]
      have hquiet : s.merge.out = s.merge.stop ∧ s.comparison = none := by
        refine paired.resolve_right fun hpair => ?_
        exact absurd hpair.start_lt (Nat.not_lt_of_le hend)
      have hstart : s.merge.start = s.batch.length := Nat.le_antisymm level.start_le hend
      have hchunked := level.chunked
      have hperm := level.perm
      rw [hstart, List.take_length] at hchunked hperm
      refine ⟨_, rfl, .ofRuns phase ?_ ?_ writeAt ?_ (fun k => (hchunked k).1) rfl rfl hquiet.2⟩
      · dsimp only
        rwa [hperm.length_eq]
      · dsimp only
        rw [file]
        exact
          { capacity_pos := kept.capacity_pos
            sorted := kept.sorted
            aligned := by
              dsimp only
              refine kept.aligned.imp_right fun hdone => ⟨hdone.1, ?_⟩
              rw [hdone.2, List.length_nil, List.take_zero]
            batch_le := by
              dsimp only
              rw [hperm.length_eq]
              exact kept.batch_le
            room := kept.room
            perm := ((hperm.append_right _).append_left _).trans kept.perm }
      · exact Nat.mul_pos level.width_pos (by decide)
    · rw [if_neg hend]
      have hopen : Level order { s with merge := nextPair s.batch.length s.merge } ∧
          Pair order { s with merge := nextPair s.batch.length s.merge } := by
        obtain ⟨hout, hquiet⟩ | hpair := paired
        · exact level.begin (Nat.lt_of_not_le hend) hout hquiet
        · have hsame : nextPair s.batch.length s.merge = s.merge :=
            if_neg (Nat.ne_of_lt hpair.out_lt)
          rw [hsame]
          exact ⟨level, hpair⟩
      obtain ⟨s', hmerge, hto, hlevel, hpaired⟩ :=
        mergeRuns_spec hopen.2 hopen.1 (kept.distinct hdistinct) c
      have hfrom := paired_mergedTo.trans hto
      refine ⟨s', hmerge, .merging written (hfrom.phase.trans phase) ?_ (hfrom.kept kept)
        (hfrom.runFile.trans file) (hfrom.writeAt.trans writeAt) ?_ hlevel hpaired⟩
      · rw [hfrom.batch, hfrom.capacity, hfrom.todo]
        exact full
      · rw [hfrom.batch, hfrom.width]
        exact width

/-- No step fails, and each keeps the invariant. -/
theorem Inv.step [Std.TransCmp order] (h : Inv order records s)
    (hdistinct : records.Pairwise fun a b => order a b ≠ .eq) (c : Choice) :
    ∃ s', step order c s = .ok s' ∧ Inv order records s' := by
  unfold Batching.step
  cases hphase : s.phase with
  | extracting =>
    refine ⟨_, rfl, ?_⟩
    cases h with
    | extracting _ quiet kept => exact extract_inv hphase quiet kept
    | merging _ phase => rw [hphase] at phase; cases phase
    | writing _ phase => rw [hphase] at phase; cases phase
    | complete phase => rw [hphase] at phase; cases phase
  | sortingRuns => exact sortBatch_inv hphase h hdistinct c
  | merging => exact ⟨s, rfl, h⟩
  | buildingInverse => exact ⟨s, rfl, h⟩
  | complete => exact ⟨s, rfl, h⟩
  | cancelled => exact ⟨s, rfl, h⟩

theorem new_inv {capacity : Nat} {alternate : List α} (hcapacity : 0 < capacity)
    (hroom : alternate.length = capacity) : Inv order records (new capacity records alternate) :=
  .extracting rfl rfl
    { capacity_pos := hcapacity
      sorted := fun k => by
        rw [slice_behind (Nat.zero_le _)]
        exact .nil
      aligned := .inl ⟨0, (Nat.zero_mul _).symm⟩
      batch_le := Nat.zero_le _
      room := hroom
      perm := .refl _ }

theorem Reaches.inv [Std.TransCmp order] {first : Batching α} (hfirst : Inv order records first)
    (hdistinct : records.Pairwise fun a b => order a b ≠ .eq) (h : Reaches order first s) :
    Inv order records s := by
  induction h with
  | start => exact hfirst
  | step c hs hm hstep ih =>
    obtain ⟨next, hnext, hinv⟩ := ih.step hdistinct c
    rw [hstep, Except.ok.injEq] at hnext
    rwa [hnext]

theorem take_capacity {left : Bool} {s' : Batching α} (h : take left s = .ok s') :
    s'.capacity = s.capacity := by
  unfold take at h
  split at h <;> cases h
  rfl

theorem mergeRuns_capacity {c : Choice} {s' : Batching α} (h : mergeRuns order c s = .ok s') :
    s'.capacity = s.capacity := by
  unfold mergeRuns at h
  split_ifs at h
  · exact take_capacity h
  · exact take_capacity h
  · split at h
    · dsimp only at h
      split at h
      · cases h
        rfl
      · exact (take_capacity h).trans rfl
    · cases h

theorem step_capacity {c : Choice} {s' : Batching α} (h : Batching.step order c s = .ok s') :
    s'.capacity = s.capacity := by
  unfold Batching.step at h
  split at h
  · cases h
    unfold extract
    split_ifs <;> rfl
  · unfold sortBatch at h
    dsimp only at h
    split_ifs at h
    · split at h <;> cases h <;> rfl
    · cases h
      rfl
    · exact mergeRuns_capacity (s := { s with merge := nextPair s.batch.length s.merge }) h
  · cases h
    rfl

theorem Reaches.capacity {first : Batching α} (h : Reaches order first s) :
    s.capacity = first.capacity := by
  induction h with
  | start => rfl
  | step c hs hm hstep ih => exact (step_capacity hstep).trans ih

/-- What the batches leave for the passes: runs of the capacity that are sorted, of the records
that were extracted. -/
theorem Reaches.runs [Std.TransCmp order] {capacity : Nat} {alternate : List α}
    (hcapacity : 0 < capacity) (hroom : alternate.length = capacity)
    (hdistinct : records.Pairwise fun a b => order a b ≠ .eq)
    (hs : Reaches order (new capacity records alternate) s) (hphase : s.phase = .merging) :
    s.capacity = capacity ∧ SortedRuns order s.capacity s.runFile ∧ s.runFile.Perm records := by
  refine ⟨hs.capacity, ?_⟩
  cases hs.inv (new_inv hcapacity hroom) hdistinct with
  | extracting phase => rw [hphase] at phase; cases phase
  | merging _ phase => rw [hphase] at phase; cases phase
  | writing _ phase => rw [hphase] at phase; cases phase
  | complete _ _ sorted perm => exact ⟨sorted, perm⟩

end Batching

/-! ## The passes keep the records -/

namespace Pass

variable {α : Type} {order : α → α → Ordering} {s : Pass α}

theorem loadHead_runFile {run : Nat} {s' : Pass α} (h : loadHead run s = .ok s') :
    s'.runFile = s.runFile := by
  unfold loadHead at h
  split_ifs at h
  · cases hread : (s.pages run).record s.runFile (s.tree.next run) with
    | error e => rw [hread] at h; cases h
    | ok read => rw [hread] at h; cases h; rfl
  · cases h
    rfl

theorem startRuns_runFile (count run start : Nat) {s s' : Pass α}
    (h : startRuns count run start s = .ok s') : s'.runFile = s.runFile := by
  induction count generalizing run start s with
  | zero => cases h; rfl
  | succ count ih =>
    unfold startRuns at h
    dsimp only at h
    split at h
    · cases h
    · next hload =>
      have hfirst := loadHead_runFile hload
      have hrest := ih _ _ h
      split_ifs at hrest <;> exact hrest.trans hfirst

theorem startGroup_runFile {s' : Pass α} (h : startGroup s = .ok s') : s'.runFile = s.runFile := by
  unfold startGroup at h
  dsimp only at h
  split at h
  · cases h
  · next hruns =>
    have hfile := startRuns_runFile _ _ _ hruns
    cases h
    exact hfile

theorem play_runFile {node : Nat} {c : Choice} {r : Option (Option Nat) × Pass α}
    (h : play order node c s = .ok r) : r.2.runFile = s.runFile := by
  unfold play at h
  split at h
  · cases h; rfl
  · cases h; rfl
  · split at h
    · cases h; rfl
    · cases h

theorem emit_runFile {index : Nat} {s' : Pass α} (h : emit index s = .ok s') :
    s'.runFile = s.runFile := by
  unfold emit at h
  split at h
  · cases h
  · dsimp only at h
    split at h
    · cases h
    · next hload =>
      have hfile := loadHead_runFile hload
      cases h
      exact hfile

theorem mergeStage_runFile {c : Choice} {s' : Pass α} (h : mergeStage order c s = .ok s') :
    s'.runFile = s.runFile := by
  unfold mergeStage at h
  split at h
  · split at h
    · cases h
    · next hplay => cases h; exact play_runFile hplay
    · next hplay => cases h; exact play_runFile hplay
  · split at h
    · cases h; rfl
    · exact emit_runFile h
  · split at h
    · cases h
    · next hplay => cases h; exact play_runFile hplay
    · next hplay => cases h; exact play_runFile hplay
  · cases h
    rfl

/-- The run file of the next pass is the one that a pass has written; until then it stays. -/
theorem Inv.step_perm (h : Inv order s) (hm : s.merging = true) {c : Choice} {s' : Pass α}
    (hstep : mergeDisk order c s = .ok s') : s'.runFile.Perm s.runFile := by
  unfold mergeDisk at hstep
  split_ifs at hstep with hidle hend
  · obtain ⟨hbetween, -⟩ := h.idle hm hidle
    obtain ⟨-, hperm, -⟩ := hbetween.passed h.sound (h.cover hm) hend
    rw [Except.ok.injEq] at hstep
    have hfile : s'.runFile = s.passFile := by
      rw [← hstep, beginDiskMerge]
      split_ifs <;> rfl
    rw [hfile]
    exact hperm
  · split at hstep
    · cases hstep
    · next hgroup => rw [mergeStage_runFile hstep, startGroup_runFile hgroup]
  · rw [mergeStage_runFile hstep]

theorem Reaches.perm [Std.TransCmp order] {first : Pass α} (hfirst : Inv order first)
    (h : Reaches order first s) : s.runFile.Perm first.runFile := by
  induction h with
  | start => exact .refl _
  | step c hs hm hstep ih => exact ((hs.inv hfirst).step_perm hm hstep).trans ih

theorem start_runFile (mergeFanIn runWidth : Nat) (file : List α) :
    (start mergeFanIn runWidth file).runFile = file := by
  rw [start, beginDiskMerge]
  split_ifs <;> rfl

end Pass

namespace Batching

variable {α : Type} {order : α → α → Ordering} {s : Batching α} {records : List α}

/-- In every state of a sort, whatever the capacity of a batch is, and whatever comparisons were
suspended: no step fails, and the run file that is left when the passes are over is in order and
has the records that were extracted. -/
theorem Reaches.sorts [Std.TransCmp order] {capacity mergeFanIn : Nat} {alternate : List α}
    (hcapacity : 0 < capacity) (hroom : alternate.length = capacity) (hfan : 2 ≤ mergeFanIn)
    (hlength : records.length < u64Bound)
    (hdistinct : records.Pairwise fun a b => order a b ≠ .eq)
    (hs : Reaches order (new capacity records alternate) s) :
    (∀ c, ∃ s', Batching.step order c s = .ok s') ∧
    (s.phase = .merging → ∀ p, Pass.Reaches order (Pass.start mergeFanIn s.capacity s.runFile) p →
      (p.merging = true → ∀ c, ∃ p', Pass.mergeDisk order c p = .ok p') ∧
      (p.merging = false → p.runFile.Pairwise (Before order) ∧ p.runFile.Perm records)) := by
  have hinv := hs.inv (new_inv hcapacity hroom) hdistinct
  refine ⟨fun c => ?_, fun hphase p hp => ?_⟩
  · obtain ⟨s', hstep, -⟩ := hinv.step hdistinct c
    exact ⟨s', hstep⟩
  · obtain ⟨hsame, hsorted, hperm⟩ := hs.runs hcapacity hroom hdistinct hphase
    have hpos : 0 < s.capacity := hsame ▸ hcapacity
    have hfirst : Pass.Inv order (Pass.start mergeFanIn s.capacity s.runFile) := by
      refine Pass.start_inv hfan hpos ?_ ?_ hsorted
      · rwa [hperm.length_eq]
      · exact (hperm.pairwise_iff fun {x y} hxy heq =>
          hxy (Std.OrientedCmp.eq_comm.mp heq)).mpr hdistinct
    have hpass := hp.inv hfirst
    refine ⟨fun hm c => ?_, fun hm => ⟨hpass.single hm, ?_⟩⟩
    · obtain ⟨p', hstep, -⟩ := hpass.step hm c
      exact ⟨p', hstep⟩
    · have hkept := hp.perm hfirst
      rw [Pass.start_runFile] at hkept
      exact hkept.trans hperm

/-- A sort by whole keys, of which no two have the same row. -/
theorem merge_sort (direction : SortDirection) (capacity mergeFanIn : Nat)
    (records alternate : List SortKey) (hcapacity : 0 < capacity)
    (hroom : alternate.length = capacity) (hfan : 2 ≤ mergeFanIn)
    (hlength : records.length < u64Bound) (hrows : (records.map SortKey.row).Nodup)
    (s : Batching SortKey)
    (hs : Reaches (SortKey.order direction) (new capacity records alternate) s) :
    (∀ c, ∃ s', step (SortKey.order direction) c s = .ok s') ∧
    (s.phase = .merging →
      (s.capacity = capacity ∧ SortedRuns (SortKey.order direction) s.capacity s.runFile ∧
        s.runFile.Perm records) ∧
      ∀ p, Pass.Reaches (SortKey.order direction) (Pass.start mergeFanIn s.capacity s.runFile) p →
        (p.merging = true → ∀ c, ∃ p', Pass.mergeDisk (SortKey.order direction) c p = .ok p') ∧
        (p.merging = false → p.runFile.Pairwise (Before (SortKey.order direction)) ∧
          p.runFile.Perm records)) := by
  have hdistinct : records.Pairwise fun a b => SortKey.order direction a b ≠ .eq :=
    (List.pairwise_map.mp hrows).imp fun hne heq => hne (order_eq_row heq)
  obtain ⟨hstep, hpasses⟩ := hs.sorts hcapacity hroom hfan hlength hdistinct
  exact ⟨hstep, fun hphase => ⟨hs.runs hcapacity hroom hdistinct hphase, hpasses hphase⟩⟩

/-! ## Rounds -/

/-- Rounds up to the passes, or to the first that fails. -/
def batches (order : α → α → Ordering) : Nat → Batching α → Batching α
  | 0, s => s
  | count + 1, s =>
    if s.phase = .merging then s
    else (step order ⟨true, false⟩ s).toOption.elim s (batches order count)

theorem reaches_batches {first : Batching α} (count : Nat) (h : Reaches order first s) :
    Reaches order first (batches order count s) := by
  induction count generalizing s with
  | zero => exact h
  | succ count ih =>
    unfold batches
    split
    · exact h
    · next hm =>
      cases hcase : step order ⟨true, false⟩ s with
      | error e => exact h
      | ok s' => exact ih (h.step _ hm hcase)

/-- Rounds of the passes over what the batches have left. -/
def passes (order : α → α → Ordering) (mergeFanIn count : Nat) (s : Batching α) : Pass α :=
  Pass.merged order (List.replicate count ⟨true, false⟩)
    (Pass.start mergeFanIn s.capacity s.runFile)

theorem reaches_passes (mergeFanIn count : Nat) (s : Batching α) :
    Pass.Reaches order (Pass.start mergeFanIn s.capacity s.runFile)
      (passes order mergeFanIn count s) :=
  Pass.reaches_merged _ .start

/-- Three rows of blank keys from the last to the first, in batches of two. -/
def threeRows : Batching SortKey :=
  batches (SortKey.order .ascending) 30
    (new 2 [⟨.blank, 2⟩, ⟨.blank, 1⟩, ⟨.blank, 0⟩] [⟨.blank, 0⟩, ⟨.blank, 0⟩])

theorem merge_sort_threeRows :
    SortedRuns (SortKey.order .ascending) 2 threeRows.runFile ∧
      (passes (SortKey.order .ascending) 2 30 threeRows).runFile.Pairwise
        (Before (SortKey.order .ascending)) ∧
      (passes (SortKey.order .ascending) 2 30 threeRows).runFile.Perm
        [⟨.blank, 2⟩, ⟨.blank, 1⟩, ⟨.blank, 0⟩] := by
  obtain ⟨⟨hcapacity, hruns, -⟩, hpasses⟩ :=
    (merge_sort .ascending 2 2 [⟨.blank, 2⟩, ⟨.blank, 1⟩, ⟨.blank, 0⟩]
      [⟨.blank, 0⟩, ⟨.blank, 0⟩] (by decide) rfl (by decide) (by decide) (by decide) threeRows
      (reaches_batches 30 .start)).2 (by decide +kernel)
  rw [hcapacity] at hruns
  exact ⟨hruns, (hpasses _ (reaches_passes 2 30 threeRows)).2 (by decide +kernel)⟩

example : (passes (SortKey.order .ascending) 2 30 threeRows).runFile.map SortKey.row =
    [0, 1, 2] := by
  decide +kernel

end Batching

end LeanRows.Sort.MergePass
