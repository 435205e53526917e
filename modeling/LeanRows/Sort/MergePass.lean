import LeanRows.Lib.WinnerTree
import LeanRows.Sort.Order
import LeanRows.Sort.Session

/-!
# The passes over the runs

What a pass of the disk merge reads and writes. A record is what it sorts by; the files of a pass
are lists of records, read through pages. The scratch files work, and a comparison that has been
suspended goes on with the pair it was begun with.
-/

set_option autoImplicit false

namespace LeanRows.Sort.MergePass

variable {α : Type}

/-- Whether the descriptors decide a pair at once, and whether the budget ends in the middle of
the bytes otherwise. -/
structure Choice where
  decided : Bool
  yields : Bool

/-! ## Pages -/

def pageRecords : Nat := pageBytes / descriptorBytes

/-- A page of the run file; it is invalid without a base. -/
structure ReadPage (α : Type) where
  base : Option Nat
  records : List α

def ReadPage.new : ReadPage α := ⟨none, []⟩

def ReadPage.record (file : List α) (index : Nat) (page : ReadPage α) :
    Except SortError (α × ReadPage α) :=
  let base := index / pageRecords * pageRecords
  let loaded : Except SortError (ReadPage α) :=
    if some base = page.base then .ok page
    else if file.length < base then .error .invalidScratch
    else .ok ⟨some base, (file.drop base).take pageRecords⟩
  match loaded with
  | .error e => .error e
  | .ok page =>
    match page.records[index - base]? with
    | none => .error .invalidScratch
    | some record => .ok (record, page)

/-! ## The tree -/

structure Tree (α : Type) where
  leaves : Nat
  nodes : Nat → Option Nat
  heads : Nat → Option α
  next : Nat → Nat
  stop : Nat → Nat
  groupEnd : Nat
  stage : Stage

/-- A session in its merging phase, or at the maps after it. -/
structure Pass (α : Type) where
  records : Nat
  mergeFanIn : Nat
  runWidth : Nat
  runFile : List α
  passFile : List α
  pageCount : Nat
  pages : Nat → ReadPage α
  groupStart : Nat
  tree : Tree α
  comparison : Option (α × α)
  merging : Bool

namespace Pass
variable (order : α → α → Ordering)

def resume (c : Choice) (pair : α × α) : Option Ordering × Option (α × α) :=
  if c.yields then (none, some pair) else (some (order pair.1 pair.2), none)

/-- A suspended comparison goes on; only without one are the two records looked at. -/
def compare (c : Choice) (a b : α) (s : Pass α) : Option Ordering × Pass α :=
  let result := match s.comparison with
    | some pair => resume order c pair
    | none => if c.decided then (some (order a b), none) else resume order c (a, b)
  (result.1, { s with comparison := result.2 })

def loadHead (run : Nat) (s : Pass α) : Except SortError (Pass α) :=
  if s.tree.next run < s.tree.stop run then
    match (s.pages run).record s.runFile (s.tree.next run) with
    | .error e => .error e
    | .ok (record, page) => .ok { s with
        pages := Function.update s.pages run page
        tree := { s.tree with heads := Function.update s.tree.heads run (some record) } }
  else .ok { s with tree := { s.tree with heads := Function.update s.tree.heads run none } }

/-- Sets up one run after the other, and the end of the group at last. -/
def startRuns : Nat → Nat → Nat → Pass α → Except SortError (Pass α)
  | 0, _, start, s => .ok { s with tree := { s.tree with groupEnd := start } }
  | count + 1, run, start, s =>
    let stop := min (start + s.runWidth) s.records
    let s := { s with tree := { s.tree with
      next := Function.update s.tree.next run start
      stop := Function.update s.tree.stop run stop } }
    match loadHead run s with
    | .error e => .error e
    | .ok s =>
      let s := if (s.tree.heads run).isSome then
          { s with tree := { s.tree with
            nodes := Function.update s.tree.nodes (s.tree.leaves + run) (some run) } }
        else s
      startRuns count (run + 1) stop s

def startGroup (s : Pass α) : Except SortError (Pass α) :=
  let s := { s with tree := { s.tree with nodes := fun _ => none } }
  match startRuns s.pageCount 0 s.groupStart s with
  | .error e => .error e
  | .ok s => .ok { s with tree := { s.tree with
      stage := if 1 < s.tree.leaves then .build (s.tree.leaves - 1) else .emit } }

/-- The winner of the children of a node, or none when the comparison is suspended. -/
def play (node : Nat) (c : Choice) (s : Pass α) : Except SortError (Option (Option Nat) × Pass α) :=
  match s.tree.nodes (node * 2), s.tree.nodes (node * 2 + 1) with
  | none, right => .ok (some right, s)
  | some left, none => .ok (some (some left), s)
  | some left, some right =>
    match s.tree.heads left, s.tree.heads right with
    | some a, some b =>
      let compared := compare order c a b s
      .ok (compared.1.map fun answer => some (if answer = .gt then right else left), compared.2)
    | _, _ => .error .invalidScratch

def setWinner (node : Nat) (winner : Option Nat) (stage : Stage) (s : Pass α) : Pass α :=
  { s with tree := { s.tree with
    nodes := Function.update s.tree.nodes node winner
    stage := stage } }

def emit (index : Nat) (s : Pass α) : Except SortError (Pass α) :=
  match s.tree.heads index with
  | none => .error .invalidScratch
  | some record =>
    let s := { s with
      passFile := s.passFile ++ [record]
      tree := { s.tree with
        heads := Function.update s.tree.heads index none
        next := Function.update s.tree.next index (s.tree.next index + 1) } }
    match loadHead index s with
    | .error e => .error e
    | .ok s =>
      let leaf := s.tree.leaves + index
      .ok (setWinner leaf ((s.tree.heads index).map fun _ => index) (.replay (leaf / 2)) s)

def mergeStage (c : Choice) (s : Pass α) : Except SortError (Pass α) :=
  match s.tree.stage with
  | .build node =>
    match play order node c s with
    | .error e => .error e
    | .ok (none, s) => .ok s
    | .ok (some winner, s) =>
      .ok (setWinner node winner (if 1 < node then .build (node - 1) else .emit) s)
  | .emit =>
    match s.tree.nodes 1 with
    | none => .ok { s with
        groupStart := s.tree.groupEnd
        tree := { s.tree with stage := .idle } }
    | some index => emit index s
  | .replay node =>
    match play order node c s with
    | .error e => .error e
    | .ok (none, s) => .ok s
    | .ok (some winner, s) =>
      .ok (setWinner node winner (if 1 < node then .replay (node / 2) else .emit) s)
  | .idle => .ok s

/-- The next pass, unless there is a single run. -/
def beginDiskMerge (s : Pass α) : Pass α :=
  let s := { s with pages := fun run => { s.pages run with base := none } }
  if s.records ≤ s.runWidth then { s with merging := false }
  else
    let runs := min (divCeil s.records s.runWidth) s.mergeFanIn
    { s with
      pages := fun run => if s.pageCount ≤ run ∧ run < runs then ReadPage.new else s.pages run
      pageCount := max s.pageCount runs
      passFile := []
      groupStart := 0
      tree := { s.tree with stage := .idle }
      merging := true }

def mergeDisk (c : Choice) (s : Pass α) : Except SortError (Pass α) :=
  if s.tree.stage = .idle then
    if s.groupStart = s.records then
      .ok (beginDiskMerge { s with
        runFile := s.passFile
        passFile := []
        runWidth := min (s.runWidth * s.mergeFanIn) (u64Bound - 1) })
    else
      match startGroup s with
      | .error e => .error e
      | .ok s => mergeStage order c s
  else mergeStage order c s

/-- The session with sorted runs of that width in its run file. -/
def start (mergeFanIn runWidth : Nat) (runFile : List α) : Pass α :=
  beginDiskMerge
    { records := runFile.length
      mergeFanIn := mergeFanIn
      runWidth := runWidth
      runFile := runFile
      passFile := []
      pageCount := 1
      pages := fun _ => ReadPage.new
      groupStart := 0
      tree := ⟨nextPowerOfTwo mergeFanIn, fun _ => none, fun _ => none, fun _ => 0, fun _ => 0, 0,
        .idle⟩
      comparison := none
      merging := false }

end Pass

/-! ## Slices -/

def slice (file : List α) (first last : Nat) : List α := (file.drop first).take (last - first)

section Slice
variable {file : List α} {i j k : Nat}

theorem slice_cons {a : α} (h : file[i]? = some a) (hlt : i < j) :
    slice file i j = a :: slice file (i + 1) j := by
  obtain ⟨hi, rfl⟩ := List.getElem?_eq_some_iff.mp h
  have hsize : j - i = (j - (i + 1)) + 1 := by omega
  rw [slice, List.drop_eq_getElem_cons hi, hsize, List.take_succ_cons]
  rfl

theorem slice_of_le (h : j ≤ i) : slice file i j = [] := by
  rw [slice, Nat.sub_eq_zero_of_le h, List.take_zero]

theorem slice_append (hij : i ≤ j) (hjk : j ≤ k) :
    slice file i j ++ slice file j k = slice file i k := by
  have hsize : k - i = (j - i) + (k - j) := by omega
  have hdrop : file.drop j = (file.drop i).drop (j - i) := by
    rw [List.drop_drop, Nat.add_sub_cancel' hij]
  rw [slice, slice, slice, hsize, List.take_add, hdrop]

theorem length_slice (h : j ≤ file.length) : (slice file i j).length = j - i := by
  rw [slice, List.length_take, List.length_drop]
  omega

/-- There is nothing behind the end. -/
theorem slice_min : slice file (min i file.length) (min j file.length) = slice file i j := by
  rcases Nat.le_total file.length i with hi | hi
  · rw [slice_of_le (by omega), slice, List.drop_eq_nil_of_le hi, List.take_nil]
  · rw [Nat.min_eq_left hi, slice, slice]
    rcases Nat.le_total file.length j with hj | hj
    · rw [List.take_of_length_le (by rw [List.length_drop]; omega),
        List.take_of_length_le (by rw [List.length_drop]; omega)]
    · rw [Nat.min_eq_left hj]

/-- The last part of a slice. -/
theorem slice_sublist (hij : i ≤ j) : (slice file j k).Sublist (slice file i k) := by
  rcases Nat.le_total j k with hjk | hkj
  · rw [← slice_append hij hjk]
    exact List.sublist_append_right _ _
  · rw [slice_of_le hkj]
    exact List.nil_sublist _

end Slice

/-! ## Pages -/

/-- A valid page holds what is in the file. -/
def ReadPage.Cached (file : List α) (page : ReadPage α) : Prop :=
  ∀ base, page.base = some base → page.records = (file.drop base).take pageRecords

theorem ReadPage.record_spec {file : List α} {page : ReadPage α} (h : page.Cached file)
    {index : Nat} (hindex : index < file.length) :
    ∃ page', page.record file index = .ok (file[index], page') ∧ page'.Cached file := by
  have hbase : index / pageRecords * pageRecords ≤ index := Nat.div_mul_le_self _ _
  have hpos : 0 < pageRecords := by decide
  have hoffset : index - index / pageRecords * pageRecords < pageRecords := by
    have hmod := Nat.mod_lt index hpos
    have hdiv := Nat.div_add_mod index pageRecords
    rw [Nat.mul_comm] at hdiv
    omega
  have hget : ((file.drop (index / pageRecords * pageRecords)).take pageRecords)[index -
      index / pageRecords * pageRecords]? = some file[index] := by
    rw [List.getElem?_take_of_lt hoffset, List.getElem?_drop, Nat.add_sub_cancel' hbase,
      List.getElem?_eq_getElem hindex]
  unfold ReadPage.record
  dsimp only
  generalize index / pageRecords * pageRecords = base at *
  by_cases hsame : some base = page.base
  · rw [if_pos hsame]
    dsimp only
    rw [h base hsame.symm, hget]
    exact ⟨page, rfl, h⟩
  · rw [if_neg hsame, if_neg (by omega)]
    dsimp only
    rw [hget]
    refine ⟨_, rfl, fun other hother => ?_⟩
    rw [← Option.some_inj.mp hother]

/-! ## Sorted runs -/

/-- Less in the strict order of the records. -/
def Before (order : α → α → Ordering) (a b : α) : Prop := order a b = .lt

/-- The runs of a file are sorted. -/
def SortedRuns (order : α → α → Ordering) (width : Nat) (file : List α) : Prop :=
  ∀ k, (slice file (k * width) ((k + 1) * width)).Pairwise (Before order)

/-- Every piece of that width is sorted, and in the place of the same records. -/
def Chunked (order : α → α → Ordering) (width : Nat) (input output : List α) : Prop :=
  ∀ k, (slice output (k * width) ((k + 1) * width)).Pairwise (Before order) ∧
    (slice output (k * width) ((k + 1) * width)).Perm (slice input (k * width) ((k + 1) * width))

section Chunks
variable {order : α → α → Ordering} {width : Nat} {input output : List α}

theorem slice_left {as bs : List α} {i j : Nat} (h : j ≤ as.length) :
    slice (as ++ bs) i j = slice as i j := by
  rcases Nat.le_total j i with hji | hij
  · rw [slice_of_le hji, slice_of_le hji]
  · rw [slice, slice, List.drop_append_of_le_length (by omega),
      List.take_append_of_le_length (by rw [List.length_drop]; omega)]

theorem slice_behind {file : List α} {i j : Nat} (h : file.length ≤ i) : slice file i j = [] := by
  rw [slice, List.drop_eq_nil_of_le h, List.take_nil]

/-- The piece that is appended, where all before are complete. -/
theorem slice_chunk {as bs : List α} {g : Nat} (has : as.length = g * width)
    (hbs : bs.length ≤ width) (k : Nat) : slice (as ++ bs) (k * width) ((k + 1) * width) =
      if k < g then slice as (k * width) ((k + 1) * width) else if k = g then bs else [] := by
  split_ifs with hlt heq
  · have hle : (k + 1) * width ≤ g * width := Nat.mul_le_mul_right _ hlt
    exact slice_left (by omega)
  · subst heq
    rw [slice, List.drop_left' has, List.take_of_length_le]
    rw [Nat.succ_mul]
    omega
  · have hle : (g + 1) * width ≤ k * width := Nat.mul_le_mul_right _ (by omega)
    rw [Nat.succ_mul] at hle
    exact slice_behind (by rw [List.length_append]; omega)

theorem Chunked.append {as bs : List α} {g : Nat} (h : Chunked order width input output)
    (hinput : input.length = g * width) (houtput : output.length = g * width)
    (hperm : bs.Perm as) (hbs : bs.length ≤ width) (hsorted : bs.Pairwise (Before order)) :
    Chunked order width (input ++ as) (output ++ bs) := by
  intro k
  rw [slice_chunk houtput hbs, slice_chunk hinput (by rw [← hperm.length_eq]; exact hbs)]
  split_ifs
  · exact h k
  · exact ⟨hsorted, hperm⟩
  · exact ⟨.nil, .nil⟩

theorem Chunked.nil : Chunked order width ([] : List α) [] := by
  intro k
  rw [slice_behind (Nat.zero_le _)]
  exact ⟨.nil, .nil⟩

/-- A piece as wide as the file is the file. -/
theorem Chunked.whole (h : Chunked order width input output) (hinput : input.length ≤ width)
    (houtput : output.length ≤ width) : output.Pairwise (Before order) ∧ output.Perm input := by
  have hzero := h 0
  rw [Nat.zero_mul, Nat.zero_add, Nat.one_mul] at hzero
  simpa only [slice, List.drop_zero, Nat.sub_zero, List.take_of_length_le hinput,
    List.take_of_length_le houtput] using hzero

theorem chunked_of_whole (hsorted : output.Pairwise (Before order)) (hperm : output.Perm input)
    (hinput : input.length ≤ width) : Chunked order width input output := by
  have hnil : Chunked order width [] [] := .nil
  have hchunk : Chunked order width ([] ++ input) ([] ++ output) := hnil.append (g := 0) (by simp)
    (by simp) hperm (by rw [hperm.length_eq]; exact hinput) hsorted
  exact hchunk

theorem sortedRuns_of_sorted (h : output.Pairwise (Before order)) (width : Nat) :
    SortedRuns order width output := fun _ =>
  h.sublist ((List.take_sublist _ _).trans (List.drop_sublist _ _))

end Chunks

/-! ## What holds in a pass -/

namespace Pass

section State
variable (order : α → α → Ordering) (s : Pass α)

/-- What no step of a pass changes, and the pages. -/
structure Sound : Prop where
  width_pos : 0 < s.runWidth
  length : s.runFile.length = s.records
  bounded : s.records < u64Bound
  distinct : s.runFile.Pairwise fun a b => order a b ≠ .eq
  sorted : SortedRuns order s.runWidth s.runFile
  fanIn : 2 ≤ s.mergeFanIn
  leaves : s.mergeFanIn ≤ s.tree.leaves
  pages_pos : 0 < s.pageCount
  pages_le : s.pageCount ≤ s.mergeFanIn
  cached : ∀ run, (s.pages run).Cached s.runFile
  quiet : ∀ run, s.pageCount ≤ run → s.tree.heads run = none

/-- The records that a group spans. -/
def groupWidth : Nat := s.pageCount * s.runWidth

/-- Where a run of the group begins, and the one before it ends. -/
def startAt (run : Nat) : Nat := min (s.groupStart + run * s.runWidth) s.records

/-- What is left of a run, with its head. -/
def rest (run : Nat) : List α := slice s.runFile (s.tree.next run) (s.tree.stop run)

/-- The groups that are complete. -/
structure Complete (before : List α) : Prop where
  length : before.length = s.groupStart
  chunked : Chunked order s.groupWidth (s.runFile.take s.groupStart) before
  perm : before.Perm (s.runFile.take s.groupStart)

/-- Between two groups. -/
structure Between : Prop where
  start : (∃ g, s.groupStart = g * s.groupWidth ∧ s.groupStart < s.records) ∨
    s.groupStart = s.records
  complete : Complete order s s.passFile

/-- The runs of a group, and what has been written of it. -/
structure Group (before emitted : List α) : Prop where
  file : s.passFile = before ++ emitted
  start : ∃ g, s.groupStart = g * s.groupWidth
  start_lt : s.groupStart < s.records
  complete : Complete order s before
  groupEnd : s.tree.groupEnd = s.startAt s.pageCount
  stops : ∀ run < s.pageCount, s.tree.stop run = s.startAt (run + 1)
  nexts : ∀ run < s.pageCount, s.startAt run ≤ s.tree.next run ∧
    s.tree.next run ≤ s.tree.stop run
  heads : ∀ run < s.pageCount, s.tree.heads run =
    if s.tree.next run < s.tree.stop run then s.runFile[s.tree.next run]? else none
  all : (emitted : Multiset α) + ∑ run ∈ Finset.range s.pageCount, (s.rest run : Multiset α) =
    (slice s.runFile s.groupStart s.tree.groupEnd : Multiset α)
  sorted : emitted.Pairwise (Before order)
  before_rest : ∀ a ∈ emitted, ∀ run < s.pageCount, ∀ b ∈ s.rest run, Before order a b

/-- The node of the match that is to be played. -/
def node : Stage → Option Nat
  | .build node => some node
  | .replay node => some node
  | _ => none

/-- The matches that are not played yet, or not again. -/
def Pending : Stage → Nat → Prop
  | .build node, m => m ≤ node
  | .replay node, m => WinnerTree.Above m node
  | _, _ => False

/-- The tree, as far as its matches are played; a comparison is one of the next match. -/
structure Played : Prop where
  leaves : WinnerTree.Leaves s.tree.heads s.tree.leaves s.tree.nodes
  holders : WinnerTree.Scoped s.tree.leaves s.tree.nodes
  played : ∀ m < s.tree.leaves, 0 < m → ¬ Pending s.tree.stage m →
    WinnerTree.Consistent order s.tree.heads s.tree.nodes m
  inner : ∀ n, node s.tree.stage = some n → 0 < n ∧ n < s.tree.leaves
  suspended : ∀ pair, s.comparison = some pair → ∃ n left right,
    node s.tree.stage = some n ∧ s.tree.nodes (n * 2) = some left ∧
      s.tree.nodes (n * 2 + 1) = some right ∧ s.tree.heads left = some pair.1 ∧
        s.tree.heads right = some pair.2

/-- What holds in every state of the merging phase, and behind it. -/
structure Inv : Prop where
  sound : Sound order s
  cover : s.merging = true → s.pageCount = s.mergeFanIn ∨ s.records ≤ s.groupWidth
  idle : s.merging = true → s.tree.stage = .idle → Between order s ∧ s.comparison = none
  group : s.merging = true → s.tree.stage ≠ .idle →
    (∃ before emitted, Group order s before emitted) ∧ Played order s
  single : s.merging = false → s.runFile.Pairwise (Before order)

end State

variable {order : α → α → Ordering} {s : Pass α} {before emitted : List α}

theorem startAt_succ (run : Nat) : min (s.startAt run + s.runWidth) s.records =
    s.startAt (run + 1) := by
  simp only [startAt, Nat.succ_mul]
  omega

theorem startAt_mono {run run' : Nat} (h : run ≤ run') : s.startAt run ≤ s.startAt run' := by
  have hmul : run * s.runWidth ≤ run' * s.runWidth := Nat.mul_le_mul_right _ h
  simp only [startAt]
  omega

theorem startAt_le (run : Nat) : s.startAt run ≤ s.records := Nat.min_le_right _ _

theorem startAt_zero (h : s.groupStart ≤ s.records) : s.startAt 0 = s.groupStart := by
  simp only [startAt]
  omega

/-- The records of a run of the group are sorted. -/
theorem Sound.run_sorted (h : Sound order s) (hstart : ∃ g, s.groupStart = g * s.groupWidth)
    (run : Nat) : (slice s.runFile (s.startAt run) (s.startAt (run + 1))).Pairwise
      (Before order) := by
  obtain ⟨g, hg⟩ := hstart
  have hsorted := h.sorted (g * s.pageCount + run)
  have hfirst : (g * s.pageCount + run) * s.runWidth = s.groupStart + run * s.runWidth := by
    rw [hg, groupWidth]
    ring
  have hlast : (g * s.pageCount + run + 1) * s.runWidth =
      s.groupStart + (run + 1) * s.runWidth := by
    rw [hg, groupWidth]
    ring
  rw [hfirst, hlast] at hsorted
  rw [startAt, startAt, ← h.length, slice_min]
  exact hsorted

/-- What is left of a run is sorted. -/
theorem Group.rest_sorted (h : Group order s before emitted) (hsound : Sound order s) {run : Nat}
    (hrun : run < s.pageCount) : (s.rest run).Pairwise (Before order) := by
  rw [rest, h.stops run hrun]
  exact (hsound.run_sorted h.start run).sublist (slice_sublist (h.nexts run hrun).1)

/-- A head is the first of what is left of its run. -/
theorem Group.head_eq (h : Group order s before emitted) (hsound : Sound order s) {run : Nat}
    {a : α} (hhead : s.tree.heads run = some a) : run < s.pageCount ∧
      s.tree.next run < s.tree.stop run ∧ s.runFile[s.tree.next run]? = some a := by
  have hrun : run < s.pageCount := by
    by_contra hge
    rw [hsound.quiet run (Nat.not_lt.mp hge)] at hhead
    cases hhead
  rw [h.heads run hrun] at hhead
  split_ifs at hhead with hlt
  exact ⟨hrun, hlt, hhead⟩

theorem Group.rest_eq_nil_iff (h : Group order s before emitted) (hsound : Sound order s)
    {run : Nat} (hrun : run < s.pageCount) : s.tree.heads run = none ↔ s.rest run = [] := by
  have hle := startAt_le (s := s) (run + 1)
  rw [← h.stops run hrun, ← hsound.length] at hle
  rw [h.heads run hrun, rest]
  split_ifs with hlt
  · rw [List.getElem?_eq_getElem (by omega), slice_cons (List.getElem?_eq_getElem (by omega)) hlt]
    simp
  · simp [slice_of_le (Nat.not_lt.mp hlt)]

/-- The heads of two runs are different records. -/
theorem Group.distinct [Std.TransCmp order] (h : Group order s before emitted)
    (hsound : Sound order s) : WinnerTree.Distinct order s.tree.heads s.tree.leaves := by
  intro r _ r' _ hne a b ha hb
  obtain ⟨hr, hlt, hat⟩ := h.head_eq hsound ha
  obtain ⟨hr', hlt', hat'⟩ := h.head_eq hsound hb
  obtain ⟨hi, rfl⟩ := List.getElem?_eq_some_iff.mp hat
  obtain ⟨hj, rfl⟩ := List.getElem?_eq_some_iff.mp hat'
  have hpair := List.pairwise_iff_getElem.mp hsound.distinct
  rcases Nat.lt_or_gt_of_ne hne with hrr | hrr
  · have hmono : s.startAt (r + 1) ≤ s.startAt r' := startAt_mono hrr
    have hfirst := h.stops r hr
    have hsecond := (h.nexts r' hr').1
    exact hpair _ _ hi hj (by omega)
  · have hmono : s.startAt (r' + 1) ≤ s.startAt r := startAt_mono hrr
    have hfirst := h.stops r' hr'
    have hsecond := (h.nexts r hr).1
    intro heq
    exact hpair _ _ hj hi (by omega) (Std.OrientedCmp.eq_comm.mp heq)

/-! ## Matches -/

/-- A pass with other nodes, another stage and another comparison. -/
def withMatches (nodes : Nat → Option Nat) (stage : Stage) (comparison : Option (α × α))
    (s : Pass α) : Pass α :=
  { s with
    tree := { s.tree with nodes := nodes, stage := stage }
    comparison := comparison }

theorem Sound.withMatches (h : Sound order s) (nodes : Nat → Option Nat) (stage : Stage)
    (comparison : Option (α × α)) : Sound order (s.withMatches nodes stage comparison) where
  width_pos := h.width_pos
  length := h.length
  bounded := h.bounded
  distinct := h.distinct
  sorted := h.sorted
  fanIn := h.fanIn
  leaves := h.leaves
  pages_pos := h.pages_pos
  pages_le := h.pages_le
  cached := h.cached
  quiet := h.quiet

theorem Group.withMatches (h : Group order s before emitted) (nodes : Nat → Option Nat)
    (stage : Stage) (comparison : Option (α × α)) :
    Group order (s.withMatches nodes stage comparison) before emitted where
  file := h.file
  start := h.start
  start_lt := h.start_lt
  complete := ⟨h.complete.length, h.complete.chunked, h.complete.perm⟩
  groupEnd := h.groupEnd
  stops := h.stops
  nexts := h.nexts
  heads := h.heads
  all := h.all
  sorted := h.sorted
  before_rest := h.before_rest

theorem not_pending {stage : Stage} {n m : Nat} (hnode : node stage = some n) (hlt : n < m) :
    ¬ Pending stage m := by
  cases stage with
  | build b =>
    cases hnode
    exact Nat.not_le.mpr hlt
  | replay r =>
    cases hnode
    exact fun habove => Nat.not_lt.mpr habove.le hlt
  | idle => cases hnode
  | emit => cases hnode

/-- Below the match that is next, every node holds what is least below it. -/
theorem Played.child [Std.TransCmp order] (h : Played order s)
    (hdistinct : WinnerTree.Distinct order s.tree.heads s.tree.leaves) {n child : Nat}
    (hnode : node s.tree.stage = some n) (hchild : child = 2 * n ∨ child = 2 * n + 1) :
    WinnerTree.Least order s.tree.heads s.tree.leaves s.tree.nodes child := by
  obtain ⟨hpos, hlt⟩ := h.inner n hnode
  refine WinnerTree.least_of_consistent hdistinct h.leaves (by omega) (by omega) ?_
  intro m hm habove
  have hle := habove.le
  exact h.played m hm (by omega) (not_pending hnode (by omega))

/-- The match is suspended, or played to its end. -/
theorem play_spec [Std.TransCmp order] (h : Played order s)
    (hdistinct : WinnerTree.Distinct order s.tree.heads s.tree.leaves) {n : Nat}
    (hnode : node s.tree.stage = some n) (c : Choice) :
    (∃ pair, play order n c s =
        .ok (none, s.withMatches s.tree.nodes s.tree.stage (some pair)) ∧
      Played order (s.withMatches s.tree.nodes s.tree.stage (some pair))) ∨
    play order n c s = .ok (some (WinnerTree.play order s.tree.heads (s.tree.nodes (2 * n))
      (s.tree.nodes (2 * n + 1))), s.withMatches s.tree.nodes s.tree.stage none) := by
  have hleft := h.child hdistinct hnode (.inl rfl)
  have hright := h.child hdistinct hnode (.inr rfl)
  have hcomm : n * 2 = 2 * n := Nat.mul_comm n 2
  have hquiet : s.comparison = none →
      s.withMatches s.tree.nodes s.tree.stage none = s := by
    intro hnone
    rw [withMatches, ← hnone]
  unfold play
  rw [hcomm]
  cases hl : s.tree.nodes (2 * n) with
  | none =>
    have hnone : s.comparison = none := by
      by_contra hsome
      obtain ⟨pair, hpair⟩ := Option.ne_none_iff_exists'.mp hsome
      obtain ⟨m, left, right, hm, hleft', -⟩ := h.suspended pair hpair
      rw [hnode, Option.some_inj] at hm
      rw [← hm, hcomm, hl] at hleft'
      cases hleft'
    rw [hquiet hnone]
    exact .inr rfl
  | some left =>
    obtain ⟨-, -, a, ha, -⟩ := hleft.some_least left hl
    cases hr : s.tree.nodes (2 * n + 1) with
    | none =>
      have hnone : s.comparison = none := by
        by_contra hsome
        obtain ⟨pair, hpair⟩ := Option.ne_none_iff_exists'.mp hsome
        obtain ⟨m, left', right, hm, -, hright', -⟩ := h.suspended pair hpair
        rw [hnode, Option.some_inj] at hm
        rw [← hm, hcomm, hr] at hright'
        cases hright'
      rw [hquiet hnone]
      exact .inr rfl
    | some right =>
      obtain ⟨-, -, b, hb, -⟩ := hright.some_least right hr
      have hpair : ∀ pair, s.comparison = some pair → pair = (a, b) := by
        intro pair hpair
        obtain ⟨m, left', right', hm, hleft', hright', hfirst, hsecond⟩ := h.suspended pair hpair
        rw [hnode, Option.some_inj] at hm
        rw [← hm, hcomm, hl, Option.some_inj] at hleft'
        rw [← hm, hcomm, hr, Option.some_inj] at hright'
        rw [← hleft', ha, Option.some_inj] at hfirst
        rw [← hright', hb, Option.some_inj] at hsecond
        rw [hfirst, hsecond]
      have hresult : compare order c a b s =
            (none, s.withMatches s.tree.nodes s.tree.stage (some (a, b))) ∨
          compare order c a b s =
            (some (order a b), s.withMatches s.tree.nodes s.tree.stage none) := by
        unfold compare resume
        cases hcomparison : s.comparison with
        | none =>
          dsimp only
          split_ifs
          · exact .inr rfl
          · exact .inl rfl
          · exact .inr rfl
        | some pair =>
          rw [hpair pair hcomparison]
          dsimp only
          split_ifs
          · exact .inl rfl
          · exact .inr rfl
      simp only [ha, hb]
      obtain hnone | hsome := hresult
      · rw [hnone]
        refine .inl ⟨(a, b), rfl, h.leaves, h.holders, h.played, h.inner, ?_⟩
        intro pair hpair'
        cases hpair'
        exact ⟨n, left, right, hnode, by rw [hcomm]; exact hl, by rw [hcomm]; exact hr, ha, hb⟩
      · rw [hsome, WinnerTree.play_some ha hb]
        right
        dsimp only [Option.map_some]
        split_ifs <;> rfl

/-- The winner of the next match, put in its node. -/
def matched (order : α → α → Ordering) (s : Pass α) (n : Nat) : Nat → Option Nat :=
  Function.update s.tree.nodes n
    (WinnerTree.play order s.tree.heads (s.tree.nodes (2 * n)) (s.tree.nodes (2 * n + 1)))

/-- Which matches are left is all there is to show when one has been played. -/
theorem Played.matched (h : Played order s) {n : Nat} (hnode : node s.tree.stage = some n)
    {stage : Stage} (hplayed : ∀ m < s.tree.leaves, 0 < m → ¬ Pending stage m →
      WinnerTree.Consistent order s.tree.heads (s.matched order n) m)
    (hinner : ∀ m, node stage = some m → 0 < m ∧ m < s.tree.leaves) :
    Played order (s.withMatches (s.matched order n) stage none) where
  leaves r hr := by
    have hlt := (h.inner n hnode).2
    have hsame : s.matched order n (s.tree.leaves + r) = s.tree.nodes (s.tree.leaves + r) :=
      Function.update_of_ne (by omega) _ _
    exact hsame.trans (h.leaves r hr)
  holders := by
    refine h.holders.update fun r hr => ?_
    obtain hleft | hright := WinnerTree.play_mem hr
    · obtain ⟨hlt, habove⟩ := h.holders _ r hleft
      exact ⟨hlt, (WinnerTree.above_left n).trans habove⟩
    · obtain ⟨hlt, habove⟩ := h.holders _ r hright
      exact ⟨hlt, (WinnerTree.above_right n).trans habove⟩
  played := hplayed
  inner := hinner
  suspended := fun pair hpair => by cases hpair

theorem Played.built (h : Played order s) {n : Nat} (hstage : s.tree.stage = .build n) :
    Played order (s.withMatches (s.matched order n)
      (if 1 < n then .build (n - 1) else .emit) none) := by
  have hnode : node s.tree.stage = some n := by rw [hstage]; rfl
  obtain ⟨hpos, hlt⟩ := h.inner n hnode
  have hplayed : ∀ m < s.tree.leaves, 0 < m → ¬ m ≤ n - 1 →
      WinnerTree.Consistent order s.tree.heads (s.matched order n) m := by
    intro m hm hmpos hafter
    by_cases hself : m = n
    · subst hself
      unfold WinnerTree.Consistent Pass.matched
      rw [Function.update_self, Function.update_of_ne (by omega), Function.update_of_ne (by omega)]
    · have hpending : ¬ Pending s.tree.stage m := not_pending hnode (by omega)
      exact (h.played m hm hmpos hpending).of_heads (Function.update_of_ne hself _ _)
        (Function.update_of_ne (by omega) _ _) (Function.update_of_ne (by omega) _ _)
        fun _ _ _ _ => rfl
  split_ifs with hmore
  · refine h.matched hnode hplayed fun m hm => ?_
    cases hm
    omega
  · refine h.matched hnode (fun m hm hmpos _ => hplayed m hm hmpos (by omega)) fun m hm => ?_
    cases hm

theorem Played.replayed (h : Played order s) {n : Nat} (hstage : s.tree.stage = .replay n) :
    Played order (s.withMatches (s.matched order n)
      (if 1 < n then .replay (n / 2) else .emit) none) := by
  have hnode : node s.tree.stage = some n := by rw [hstage]; rfl
  obtain ⟨hpos, hlt⟩ := h.inner n hnode
  have hbefore : ∀ m < s.tree.leaves, 0 < m → ¬ WinnerTree.Above m n →
      WinnerTree.Consistent order s.tree.heads s.tree.nodes m := by
    intro m hm hmpos hapart
    refine h.played m hm hmpos ?_
    rw [hstage]
    exact hapart
  have hplayed := WinnerTree.consistent_played hbefore hpos rfl
  split_ifs with hmore
  · refine h.matched hnode hplayed fun m hm => ?_
    cases hm
    omega
  · refine h.matched hnode (fun m hm hmpos _ => hplayed m hm hmpos fun habove => ?_) fun m hm => ?_
    · have hle := habove.le
      omega
    · cases hm

/-! ## Emitting -/

/-- About to emit, every inner node holds the least head below it. -/
theorem Played.least [Std.TransCmp order] (h : Played order s)
    (hdistinct : WinnerTree.Distinct order s.tree.heads s.tree.leaves)
    (hstage : s.tree.stage = .emit) {m : Nat} (hpos : 0 < m) (hm : m < 2 * s.tree.leaves) :
    WinnerTree.Least order s.tree.heads s.tree.leaves s.tree.nodes m := by
  refine WinnerTree.least_of_consistent hdistinct h.leaves hpos hm fun n hn habove => ?_
  refine h.played n hn (Nat.lt_of_lt_of_le hpos habove.le) ?_
  rw [hstage]
  exact id

/-- The head that is read next of a run. -/
def headAt (s : Pass α) (run : Nat) : Option α :=
  if s.tree.next run < s.tree.stop run then s.runFile[s.tree.next run]? else none

theorem loadHead_spec (hcached : ∀ run, (s.pages run).Cached s.runFile) (run : Nat)
    (hstop : s.tree.stop run ≤ s.runFile.length) :
    ∃ pages, (∀ run, (pages run : ReadPage α).Cached s.runFile) ∧ loadHead run s = .ok { s with
      pages := pages
      tree := { s.tree with heads := Function.update s.tree.heads run (s.headAt run) } } := by
  unfold loadHead headAt
  split_ifs with hlt
  · obtain ⟨page, hrecord, hpage⟩ :=
      ReadPage.record_spec (hcached run) (show s.tree.next run < s.runFile.length by omega)
    rw [hrecord, List.getElem?_eq_getElem (by omega)]
    refine ⟨Function.update s.pages run page, fun other => ?_, rfl⟩
    by_cases hother : other = run
    · rw [hother, Function.update_self]
      exact hpage
    · rw [Function.update_of_ne hother]
      exact hcached other
  · exact ⟨s.pages, hcached, rfl⟩

/-- The state after a record has been written. -/
def advanced (a : α) (index : Nat) (pages : Nat → ReadPage α) (s : Pass α) : Pass α :=
  let head := if s.tree.next index + 1 < s.tree.stop index then
    s.runFile[s.tree.next index + 1]? else none
  { s with
    passFile := s.passFile ++ [a]
    pages := pages
    tree := { s.tree with
      nodes := Function.update s.tree.nodes (s.tree.leaves + index) (head.map fun _ => index)
      heads := Function.update s.tree.heads index head
      next := Function.update s.tree.next index (s.tree.next index + 1)
      stage := .replay ((s.tree.leaves + index) / 2) } }

theorem emit_eq (hcached : ∀ run, (s.pages run).Cached s.runFile) {index : Nat} {a : α}
    (hhead : s.tree.heads index = some a) (hstop : s.tree.stop index ≤ s.runFile.length) :
    ∃ pages, (∀ run, (pages run : ReadPage α).Cached s.runFile) ∧
      emit index s = .ok (advanced a index pages s) := by
  obtain ⟨pages, hpages, hload⟩ := loadHead_spec (s := { s with
      passFile := s.passFile ++ [a]
      tree := { s.tree with
        heads := Function.update s.tree.heads index none
        next := Function.update s.tree.next index (s.tree.next index + 1) } })
    hcached index hstop
  refine ⟨pages, hpages, ?_⟩
  unfold emit
  rw [hhead]
  dsimp only
  rw [hload]
  simp only [setWinner, advanced, headAt, Function.update_self, Function.update_idem]

/-- The rest of the run whose head is emitted. -/
theorem rest_advanced (h : Group order s before emitted) (hsound : Sound order s) {index : Nat}
    {a : α} (hhead : s.tree.heads index = some a) (pages : Nat → ReadPage α) :
    s.rest index = a :: (advanced a index pages s).rest index ∧
      ∀ run, run ≠ index → (advanced a index pages s).rest run = s.rest run := by
  obtain ⟨hindex, hlt, hat⟩ := h.head_eq hsound hhead
  constructor
  · rw [rest, slice_cons hat hlt]
    simp only [advanced, rest, Function.update_self]
  · intro run hrun
    simp only [advanced, rest, Function.update_of_ne hrun]

/-- The record at the root is before all that is left. -/
theorem root_before [Std.TransCmp order] (h : Group order s before emitted)
    (hsound : Sound order s) (hplayed : Played order s) (hstage : s.tree.stage = .emit)
    {index : Nat} (hroot : s.tree.nodes 1 = some index) :
    ∃ a, s.tree.heads index = some a ∧ ∀ pages, ∀ run < s.pageCount,
      ∀ b ∈ (advanced a index pages s).rest run, Before order a b := by
  have hleaves := hsound.leaves
  have hfan := hsound.fanIn
  have hpages := hsound.pages_le
  obtain ⟨-, -, a, ha, hleast⟩ := (hplayed.least (h.distinct hsound) hstage (by decide)
    (by omega)).some_least index hroot
  refine ⟨a, ha, fun pages run hrun b hb => ?_⟩
  obtain ⟨hself, hother⟩ := rest_advanced h hsound ha pages
  obtain ⟨hindex, -, -⟩ := h.head_eq hsound ha
  by_cases hsame : run = index
  · subst hsame
    have hsorted := h.rest_sorted hsound hindex
    rw [hself] at hsorted
    exact List.rel_of_pairwise_cons hsorted hb
  · rw [hother run hsame] at hb
    cases hhead : s.tree.heads run with
    | none =>
      rw [(h.rest_eq_nil_iff hsound hrun).mp hhead] at hb
      cases hb
    | some first =>
      obtain ⟨-, hlt, hat⟩ := h.head_eq hsound hhead
      have habove : WinnerTree.Above 1 (s.tree.leaves + run) :=
        WinnerTree.above_root (by omega)
      have hfirst := (hleast run (by omega) habove first hhead).resolve_left hsame
      have hsorted := h.rest_sorted hsound hrun
      rw [rest, slice_cons hat hlt] at hb hsorted
      obtain rfl | htail := List.mem_cons.mp hb
      · exact hfirst
      · exact Std.TransCmp.lt_trans hfirst (List.rel_of_pairwise_cons hsorted htail)

theorem Sound.advanced (h : Sound order s) {pages : Nat → ReadPage α}
    (hpages : ∀ run, (pages run).Cached s.runFile) (a : α) {index : Nat}
    (hindex : index < s.pageCount) : Sound order (s.advanced a index pages) where
  width_pos := h.width_pos
  length := h.length
  bounded := h.bounded
  distinct := h.distinct
  sorted := h.sorted
  fanIn := h.fanIn
  leaves := h.leaves
  pages_pos := h.pages_pos
  pages_le := h.pages_le
  cached := hpages
  quiet run hrun := by
    have hne : run ≠ index := by
      have hrun' : s.pageCount ≤ run := hrun
      omega
    exact (Function.update_of_ne hne _ _).trans (h.quiet run hrun)

/-- A group stays what it is when its least record is written. -/
theorem Group.advanced (h : Group order s before emitted) (hsound : Sound order s) {index : Nat}
    {a : α} (hhead : s.tree.heads index = some a) (pages : Nat → ReadPage α)
    (hleast : ∀ run < s.pageCount, ∀ b ∈ (s.advanced a index pages).rest run, Before order a b) :
    Group order (s.advanced a index pages) before (emitted ++ [a]) := by
  obtain ⟨hindex, hlt, hat⟩ := h.head_eq hsound hhead
  obtain ⟨hself, hother⟩ := rest_advanced h hsound hhead pages
  exact
    { file := by
        simp only [Pass.advanced]
        rw [h.file, List.append_assoc]
      start := h.start
      start_lt := h.start_lt
      complete := ⟨h.complete.length, h.complete.chunked, h.complete.perm⟩
      groupEnd := h.groupEnd
      stops := h.stops
      nexts := by
        intro run hrun
        obtain ⟨hlow, hhigh⟩ := h.nexts run hrun
        simp only [Pass.advanced]
        by_cases hsame : run = index
        · subst hsame
          rw [Function.update_self]
          exact ⟨Nat.le_succ_of_le hlow, hlt⟩
        · rw [Function.update_of_ne hsame]
          exact ⟨hlow, hhigh⟩
      heads := by
        intro run hrun
        by_cases hsame : run = index
        · subst hsame
          have hnext : (s.advanced a run pages).tree.next run = s.tree.next run + 1 :=
            Function.update_self _ _ _
          rw [hnext]
          exact Function.update_self _ _ _
        · have hnext : (s.advanced a index pages).tree.next run = s.tree.next run :=
            Function.update_of_ne hsame _ _
          rw [hnext]
          exact (Function.update_of_ne hsame _ _).trans (h.heads run hrun)
      all := by
        have hmem : index ∈ Finset.range s.pageCount := Finset.mem_range.mpr hindex
        have hall := h.all
        rw [← Finset.add_sum_erase _ _ hmem, hself] at hall
        have hsame : ∑ run ∈ (Finset.range s.pageCount).erase index,
            ((s.advanced a index pages).rest run : Multiset α) =
              ∑ run ∈ (Finset.range s.pageCount).erase index, (s.rest run : Multiset α) :=
          Finset.sum_congr rfl fun run hrun => by rw [hother run (Finset.ne_of_mem_erase hrun)]
        have hsum := (Finset.add_sum_erase (Finset.range s.pageCount)
          (fun run => ((s.advanced a index pages).rest run : Multiset α)) hmem).symm
        rw [hsame] at hsum
        refine Eq.trans ?_ hall
        change _ + ∑ run ∈ Finset.range s.pageCount,
          ((s.advanced a index pages).rest run : Multiset α) = _
        have hcons : ((a :: (s.advanced a index pages).rest index : List α) : Multiset α) =
            ([a] : List α) + ((s.advanced a index pages).rest index : Multiset α) :=
          (Multiset.coe_add [a] _).symm
        rw [hsum, ← Multiset.coe_add, hcons]
        abel
      sorted := by
        refine List.pairwise_append.mpr ⟨h.sorted, List.pairwise_singleton _ _, ?_⟩
        intro x hx y hy
        rw [List.mem_singleton.mp hy]
        exact h.before_rest x hx index hindex a (by rw [hself]; exact List.mem_cons_self)
      before_rest := by
        intro x hx run hrun b hb
        obtain hold | hnew := List.mem_append.mp hx
        · refine h.before_rest x hold run hrun b ?_
          by_cases hsame : run = index
          · subst hsame
            rw [hself]
            exact List.mem_cons_of_mem _ hb
          · rwa [hother run hsame] at hb
        · rw [List.mem_singleton.mp hnew]
          exact hleast run hrun b hb }

/-- Only the matches above the leaf of the run have to be played again. -/
theorem Played.advanced (h : Played order s) (hstage : s.tree.stage = .emit) (a : α) {index : Nat}
    (hindex : index < s.tree.leaves) (hleaves : 1 < s.tree.leaves) (hquiet : s.comparison = none)
    (pages : Nat → ReadPage α) : Played order (s.advanced a index pages) where
  leaves run hrun := by
    by_cases hsame : run = index
    · subst hsame
      simp only [Pass.advanced]
      rw [Function.update_self, Function.update_self]
    · have hne : s.tree.leaves + run ≠ s.tree.leaves + index := by omega
      have hleaf := h.leaves run hrun
      simp only [Pass.advanced]
      rwa [Function.update_of_ne hne, Function.update_of_ne hsame]
  holders := h.holders.update fun r hr => by
    obtain ⟨b, hb, rfl⟩ := Option.map_eq_some_iff.mp hr
    exact ⟨hindex, .self _⟩
  played m hm hpos hpending := by
    have hapart : ¬ WinnerTree.Above m (s.tree.leaves + index) := by
      rintro ⟨k, hk⟩
      cases k with
      | zero =>
        have hlt : m < s.tree.leaves := hm
        rw [Nat.pow_zero, Nat.div_one] at hk
        omega
      | succ k =>
        rw [Nat.pow_succ', ← Nat.div_div_eq_div_mul] at hk
        exact hpending ⟨k, hk⟩
    have hbefore := h.played m hm hpos (by rw [hstage]; exact id)
    exact WinnerTree.consistent_change h.holders hm
      (fun r hr => Function.update_of_ne hr _ _) (fun n hn => Function.update_of_ne hn _ _)
      hapart hbefore
  inner m hm := by
    have heq : (s.tree.leaves + index) / 2 = m := Option.some_inj.mp hm
    change 0 < m ∧ m < s.tree.leaves
    omega
  suspended pair hpair := by
    have hsome : s.comparison = some pair := hpair
    rw [hquiet] at hsome
    cases hsome

/-! ## The end of a group -/

theorem take_slice (file : List α) {i j : Nat} (h : i ≤ j) :
    file.take i ++ slice file i j = file.take j := by
  have happend : slice file 0 i ++ slice file i j = slice file 0 j := slice_append (Nat.zero_le i) h
  simpa only [slice, List.drop_zero, Nat.sub_zero] using happend

/-- A group whose runs are empty is complete, and in order. -/
theorem Group.finished [Std.TransCmp order] (h : Group order s before emitted)
    (hsound : Sound order s) (hplayed : Played order s) (hstage : s.tree.stage = .emit)
    (hroot : s.tree.nodes 1 = none) :
    emitted.Perm (slice s.runFile s.groupStart s.tree.groupEnd) ∧
      Between order { s with
        groupStart := s.tree.groupEnd
        tree := { s.tree with stage := .idle } } := by
  have hleaves := hsound.leaves
  have hfan := hsound.fanIn
  have hpages := hsound.pages_le
  have hnone := (hplayed.least (h.distinct hsound) hstage (show 0 < 1 by decide)
    (by omega)).none_iff.mp hroot
  have hempty : ∀ run < s.pageCount, s.rest run = [] := by
    intro run hrun
    exact (h.rest_eq_nil_iff hsound hrun).mp
      (hnone run (by omega) (WinnerTree.above_root (by omega)))
  have hperm : emitted.Perm (slice s.runFile s.groupStart s.tree.groupEnd) := by
    have hall := h.all
    rw [Finset.sum_eq_zero fun run hrun => by rw [hempty run (Finset.mem_range.mp hrun)]; rfl,
      add_zero] at hall
    exact Multiset.coe_eq_coe.mp hall
  refine ⟨hperm, ?_⟩
  obtain ⟨g, hg⟩ := h.start
  have hlt := h.start_lt
  have hend : s.tree.groupEnd = min (s.groupStart + s.groupWidth) s.records := h.groupEnd
  have hendLe : s.tree.groupEnd ≤ s.runFile.length := by
    rw [hsound.length]
    omega
  have hlength : emitted.length = s.tree.groupEnd - s.groupStart := by
    rw [hperm.length_eq, length_slice hendLe]
  have hnext : (g + 1) * s.groupWidth = s.groupStart + s.groupWidth := by
    rw [Nat.succ_mul, hg]
  constructor
  case start =>
    change (∃ g, s.tree.groupEnd = g * s.groupWidth ∧ s.tree.groupEnd < s.records) ∨
      s.tree.groupEnd = s.records
    rcases Nat.lt_or_ge s.tree.groupEnd s.records with hmore | hall
    · exact .inl ⟨g + 1, by omega, hmore⟩
    · exact .inr (by omega)
  case complete =>
    constructor
    · change s.passFile.length = s.tree.groupEnd
      rw [h.file, List.length_append, h.complete.length, hlength]
      omega
    · change Chunked order s.groupWidth (s.runFile.take s.tree.groupEnd) s.passFile
      rw [h.file, ← take_slice s.runFile (show s.groupStart ≤ s.tree.groupEnd by omega)]
      refine h.complete.chunked.append (g := g) ?_ ?_ hperm ?_ h.sorted
      · rw [List.length_take, hsound.length]
        omega
      · rw [h.complete.length, hg]
      · omega
    · change s.passFile.Perm (s.runFile.take s.tree.groupEnd)
      rw [h.file, ← take_slice s.runFile (show s.groupStart ≤ s.tree.groupEnd by omega)]
      exact h.complete.perm.append hperm

/-! ## The start of a group -/

/-- A pass with other runs in its tree. -/
def withRuns (s : Pass α) (pages : Nat → ReadPage α) (nodes : Nat → Option Nat)
    (heads : Nat → Option α) (next stop : Nat → Nat) : Pass α :=
  { s with
    pages := pages
    tree := { s.tree with nodes := nodes, heads := heads, next := next, stop := stop } }

/-- The runs before this one have been set up. -/
structure Started (s : Pass α) (run : Nat) (pages : Nat → ReadPage α) (nodes : Nat → Option Nat)
    (heads : Nat → Option α) (next stop : Nat → Nat) : Prop where
  cached : ∀ run, (pages run).Cached s.runFile
  runs : ∀ r < run, next r = s.startAt r ∧ stop r = s.startAt (r + 1) ∧
    heads r = if next r < stop r then s.runFile[next r]? else none
  later : ∀ r, run ≤ r → heads r = s.tree.heads r
  leaves : ∀ r < run, nodes (s.tree.leaves + r) = (heads r).map fun _ => r
  empty : ∀ m, (∀ r < run, m ≠ s.tree.leaves + r) → nodes m = none

theorem update_apply_of_lt {β : Type} (f : Nat → β) {r run : Nat} (value : β) (h : r < run) :
    Function.update f run value r = f r := Function.update_of_ne (Nat.ne_of_lt h) _ _

/-- One run more, with its head read. -/
theorem Started.succ {run : Nat} {pages pages' : Nat → ReadPage α} {nodes : Nat → Option Nat}
    {heads : Nat → Option α} {next stop : Nat → Nat} (h : Started s run pages nodes heads next stop)
    (hpages : ∀ run, (pages' run).Cached s.runFile) {head : Option α}
    (hhead : head = if s.startAt run < s.startAt (run + 1) then s.runFile[s.startAt run]?
      else none) :
    Started s (run + 1) pages' (if head.isSome then
        Function.update nodes (s.tree.leaves + run) (some run) else nodes)
      (Function.update heads run head) (Function.update next run (s.startAt run))
      (Function.update stop run (s.startAt (run + 1))) where
  cached := hpages
  runs r hr := by
    rcases Nat.lt_or_eq_of_le (Nat.le_of_lt_succ hr) with hlt | rfl
    · rw [update_apply_of_lt _ _ hlt, update_apply_of_lt _ _ hlt, update_apply_of_lt _ _ hlt]
      exact h.runs r hlt
    · rw [Function.update_self, Function.update_self, Function.update_self]
      exact ⟨rfl, rfl, hhead⟩
  later r hr := by
    rw [Function.update_of_ne (by omega)]
    exact h.later r (by omega)
  leaves r hr := by
    rcases Nat.lt_or_eq_of_le (Nat.le_of_lt_succ hr) with hlt | rfl
    · rw [update_apply_of_lt _ _ hlt, ← h.leaves r hlt]
      split_ifs
      · exact Function.update_of_ne (by omega) _ _
      · rfl
    · rw [Function.update_self]
      cases head with
      | none =>
        rw [if_neg (by simp)]
        exact h.empty _ fun r' hr' => by omega
      | some a =>
        rw [if_pos Option.isSome_some]
        exact Function.update_self _ _ _
  empty m hm := by
    have hne : m ≠ s.tree.leaves + run := hm run (Nat.lt_succ_self run)
    have hbefore := h.empty m fun r hr => hm r (Nat.lt_succ_of_lt hr)
    split_ifs
    · rwa [Function.update_of_ne hne]
    · exact hbefore

theorem startRuns_spec (hlength : s.runFile.length = s.records) (count run : Nat)
    {pages : Nat → ReadPage α} {nodes : Nat → Option Nat} {heads : Nat → Option α}
    {next stop : Nat → Nat} (h : Started s run pages nodes heads next stop) :
    ∃ pages' nodes' heads' next' stop', startRuns count run (s.startAt run)
        (s.withRuns pages nodes heads next stop) = .ok { s.withRuns pages' nodes' heads' next' stop'
          with tree := { (s.withRuns pages' nodes' heads' next' stop').tree with
            groupEnd := s.startAt (run + count) } } ∧
      Started s (run + count) pages' nodes' heads' next' stop' := by
  induction count generalizing run pages nodes heads next stop with
  | zero => exact ⟨pages, nodes, heads, next, stop, rfl, h⟩
  | succ count ih =>
    have hstop : min (s.startAt run + s.runWidth) s.records = s.startAt (run + 1) :=
      startAt_succ run
    obtain ⟨pages', hpages, hload⟩ := loadHead_spec
      (s := s.withRuns pages nodes heads (Function.update next run (s.startAt run))
        (Function.update stop run (s.startAt (run + 1)))) h.cached run (by
          simp only [withRuns]
          rw [Function.update_self, hlength]
          exact startAt_le _)
    have hhead : (s.withRuns pages nodes heads (Function.update next run (s.startAt run))
        (Function.update stop run (s.startAt (run + 1)))).headAt run =
          if s.startAt run < s.startAt (run + 1) then s.runFile[s.startAt run]? else none := by
      simp only [headAt, withRuns, Function.update_self]
    generalize (s.withRuns pages nodes heads (Function.update next run (s.startAt run))
      (Function.update stop run (s.startAt (run + 1)))).headAt run = head at hload hhead
    have hnext := h.succ hpages hhead
    obtain ⟨pages'', nodes'', heads'', next'', stop'', hrun, hstarted⟩ := ih (run + 1) hnext
    have hadd : run + 1 + count = run + (count + 1) := by omega
    rw [hadd] at hrun hstarted
    refine ⟨pages'', nodes'', heads'', next'', stop'', ?_, hstarted⟩
    rw [← hrun, startRuns]
    dsimp only [withRuns] at hload ⊢
    rw [hstop, hload]
    simp only [Function.update_self]
    cases head <;> rfl

/-- The runs of a group are all of it. -/
theorem sum_slices (count : Nat) : ∑ run ∈ Finset.range count,
    (slice s.runFile (s.startAt run) (s.startAt (run + 1)) : Multiset α) =
      (slice s.runFile (s.startAt 0) (s.startAt count) : Multiset α) := by
  induction count with
  | zero => rw [Finset.sum_range_zero, slice_of_le (Nat.le_refl _)]; rfl
  | succ count ih =>
    rw [Finset.sum_range_succ, ih, Multiset.coe_add,
      slice_append (startAt_mono (Nat.zero_le _)) (startAt_mono (Nat.le_succ _))]

/-- The state in which the matches of a group begin. -/
def opened (s : Pass α) (pages : Nat → ReadPage α) (nodes : Nat → Option Nat)
    (heads : Nat → Option α) (next stop : Nat → Nat) : Pass α :=
  { s with
    pages := pages
    tree :=
      { leaves := s.tree.leaves
        nodes := nodes
        heads := heads
        next := next
        stop := stop
        groupEnd := s.startAt s.pageCount
        stage := .build (s.tree.leaves - 1) } }

section Opened
variable {pages : Nat → ReadPage α} {nodes : Nat → Option Nat} {heads : Nat → Option α}
  {next stop : Nat → Nat}

theorem Started.group (h : Started s s.pageCount pages nodes heads next stop)
    (hbetween : Between order s) (hmore : s.groupStart < s.records) :
    Group order (s.opened pages nodes heads next stop) s.passFile [] where
  file := (List.append_nil _).symm
  start := by
    obtain ⟨g, hg, -⟩ | hend := hbetween.start
    · exact ⟨g, hg⟩
    · omega
  start_lt := hmore
  complete := ⟨hbetween.complete.length, hbetween.complete.chunked, hbetween.complete.perm⟩
  groupEnd := rfl
  stops run hrun := (h.runs run hrun).2.1
  nexts run hrun := by
    obtain ⟨hnext, hstop, -⟩ := h.runs run hrun
    change s.startAt run ≤ next run ∧ next run ≤ stop run
    rw [hnext, hstop]
    exact ⟨Nat.le_refl _, startAt_mono (Nat.le_succ run)⟩
  heads run hrun := (h.runs run hrun).2.2
  all := by
    have hsum := sum_slices (s := s) s.pageCount
    rw [startAt_zero (Nat.le_of_lt hmore)] at hsum
    refine (zero_add _).trans (Eq.trans (Finset.sum_congr rfl fun run hrun => ?_) hsum)
    obtain ⟨hnext, hstop, -⟩ := h.runs run (Finset.mem_range.mp hrun)
    change (slice s.runFile (next run) (stop run) : Multiset α) = _
    rw [hnext, hstop]
  sorted := .nil
  before_rest := fun a ha => by cases ha

theorem Started.sound (h : Started s s.pageCount pages nodes heads next stop)
    (hsound : Sound order s) : Sound order (s.opened pages nodes heads next stop) where
  width_pos := hsound.width_pos
  length := hsound.length
  bounded := hsound.bounded
  distinct := hsound.distinct
  sorted := hsound.sorted
  fanIn := hsound.fanIn
  leaves := hsound.leaves
  pages_pos := hsound.pages_pos
  pages_le := hsound.pages_le
  cached := h.cached
  quiet run hrun := (h.later run hrun).trans (hsound.quiet run hrun)

theorem Started.played (h : Started s s.pageCount pages nodes heads next stop)
    (hsound : Sound order s) (hquiet : s.comparison = none) :
    Played order (s.opened pages nodes heads next stop) where
  leaves run hrun := by
    change nodes (s.tree.leaves + run) = (heads run).map fun _ => run
    rcases Nat.lt_or_ge run s.pageCount with hlt | hge
    · exact h.leaves run hlt
    · rw [h.later run hge, hsound.quiet run hge]
      exact h.empty _ fun r hr => by omega
  holders m r hr := by
    have hpages := hsound.pages_le
    have hleaves := hsound.leaves
    have hnode : nodes m = some r := hr
    by_cases hleaf : ∃ run < s.pageCount, m = s.tree.leaves + run
    · obtain ⟨run, hrun, rfl⟩ := hleaf
      rw [h.leaves run hrun] at hnode
      obtain ⟨a, -, rfl⟩ := Option.map_eq_some_iff.mp hnode
      exact ⟨show run < s.tree.leaves by omega, .self _⟩
    · rw [h.empty m fun run hrun heq => hleaf ⟨run, hrun, heq⟩] at hnode
      cases hnode
  played m hm hpos hpending := by
    have hlt : m < s.tree.leaves := hm
    exact absurd (show m ≤ s.tree.leaves - 1 by omega) hpending
  inner m hm := by
    have hfan := hsound.fanIn
    have hleaves := hsound.leaves
    have heq : s.tree.leaves - 1 = m := Option.some_inj.mp hm
    change 0 < m ∧ m < s.tree.leaves
    omega
  suspended pair hpair := by
    have hsome : s.comparison = some pair := hpair
    rw [hquiet] at hsome
    cases hsome

end Opened

/-- A group begins with the first records of its runs at the leaves of the tree. -/
theorem startGroup_opened (hsound : Sound order s) (hmore : s.groupStart < s.records) :
    ∃ pages nodes heads next stop, startGroup s = .ok (s.opened pages nodes heads next stop) ∧
      Started s s.pageCount pages nodes heads next stop := by
  have hfan := hsound.fanIn
  have hleaves := hsound.leaves
  have hzero : Started s 0 s.pages (fun _ => none) s.tree.heads s.tree.next s.tree.stop :=
    { cached := hsound.cached
      runs := fun r hr => absurd hr (Nat.not_lt_zero r)
      later := fun _ _ => rfl
      leaves := fun r hr => absurd hr (Nat.not_lt_zero r)
      empty := fun _ _ => rfl }
  obtain ⟨pages, nodes, heads, next, stop, hrun, hstarted⟩ :=
    startRuns_spec hsound.length s.pageCount 0 hzero
  rw [Nat.zero_add] at hrun hstarted
  rw [startAt_zero (Nat.le_of_lt hmore)] at hrun
  refine ⟨pages, nodes, heads, next, stop, ?_, hstarted⟩
  have hbegin : startRuns s.pageCount 0 s.groupStart
      { s with tree := { s.tree with nodes := fun _ => none } } = _ := hrun
  unfold startGroup
  dsimp only
  rw [hbegin]
  dsimp only [withRuns]
  rw [if_pos (by omega)]
  rfl

theorem startGroup_spec (hsound : Sound order s) (hbetween : Between order s)
    (hquiet : s.comparison = none) (hmore : s.groupStart < s.records) :
    ∃ s', startGroup s = .ok s' ∧ Sound order s' ∧ Group order s' s.passFile [] ∧
      Played order s' ∧ s'.tree.stage = .build (s.tree.leaves - 1) ∧ s'.merging = s.merging ∧
      s'.pageCount = s.pageCount ∧ s'.mergeFanIn = s.mergeFanIn ∧ s'.records = s.records ∧
      s'.runWidth = s.runWidth := by
  obtain ⟨pages, nodes, heads, next, stop, hopened, hstarted⟩ := startGroup_opened hsound hmore
  exact ⟨s.opened pages nodes heads next stop, hopened, hstarted.sound hsound,
    hstarted.group hbetween hmore, hstarted.played hsound hquiet, rfl, rfl, rfl, rfl, rfl, rfl⟩

/-! ## Passes -/

theorem le_divCeil_mul (n : Nat) {width : Nat} (h : 0 < width) : n ≤ divCeil n width * width := by
  have hdiv := Nat.div_add_mod (n + width - 1) width
  have hmod := Nat.mod_lt (n + width - 1) h
  rw [divCeil, Nat.mul_comm]
  omega

/-- A pass begins, or there is one run. -/
theorem beginDiskMerge_inv
    (h : Sound order { s with pages := fun run => { s.pages run with base := none } })
    (hquiet : s.comparison = none) : Inv order (beginDiskMerge s) := by
  have hpos := h.width_pos
  have hpages := h.pages_le
  have hpagesPos := h.pages_pos
  have hlength := h.length
  dsimp only at hpos hpages hpagesPos hlength
  unfold beginDiskMerge
  dsimp only
  split_ifs with hone
  · exact
      { sound := ⟨h.width_pos, h.length, h.bounded, h.distinct, h.sorted, h.fanIn, h.leaves,
          h.pages_pos, h.pages_le, h.cached, h.quiet⟩
        cover := fun hm => by cases hm
        idle := fun hm => by cases hm
        group := fun hm => by cases hm
        single := fun _ => by
          have hsorted := h.sorted 0
          simp only [slice, Nat.zero_mul, List.drop_zero, Nat.zero_add, Nat.one_mul,
            Nat.sub_zero] at hsorted
          rwa [List.take_of_length_le (by omega)] at hsorted }
  · generalize hruns : min (divCeil s.records s.runWidth) s.mergeFanIn = runs
    exact
      { sound :=
          { width_pos := h.width_pos
            length := h.length
            bounded := h.bounded
            distinct := h.distinct
            sorted := h.sorted
            fanIn := h.fanIn
            leaves := h.leaves
            pages_pos := by dsimp only; omega
            pages_le := by dsimp only; omega
            cached := fun run base hbase => by
              dsimp only at hbase
              split_ifs at hbase
              cases hbase
            quiet := fun run hrun => h.quiet run (by dsimp only at hrun ⊢; omega) }
        cover := fun _ => by
          dsimp only [groupWidth]
          rcases Nat.lt_or_ge (max s.pageCount runs) s.mergeFanIn with hless | hfull
          · right
            have hceil := le_divCeil_mul s.records hpos
            have hmul : divCeil s.records s.runWidth * s.runWidth ≤
                max s.pageCount runs * s.runWidth := Nat.mul_le_mul_right _ (by omega)
            omega
          · left
            omega
        idle := fun _ _ => by
          refine ⟨⟨.inl ⟨0, (Nat.zero_mul _).symm, by dsimp only; omega⟩, ?_⟩, hquiet⟩
          refine ⟨rfl, ?_, ?_⟩
          · dsimp only
            rw [List.take_zero]
            exact .nil
          · dsimp only
            rw [List.take_zero]
        group := fun _ hstage => absurd rfl hstage
        single := fun hm => by cases hm }

/-- A complete pass leaves runs that are as many times wider as runs were merged at a time. -/
theorem Between.passed (hsound : Sound order s) (hbetween : Between order s)
    (hcover : s.pageCount = s.mergeFanIn ∨ s.records ≤ s.groupWidth)
    (hend : s.groupStart = s.records) : s.passFile.length = s.records ∧
      s.passFile.Perm s.runFile ∧ Chunked order (s.runWidth * s.mergeFanIn) s.runFile
        s.passFile := by
  obtain ⟨hlength, hchunked, hperm⟩ := hbetween.complete
  rw [hend, ← hsound.length, List.take_length] at hchunked hperm
  refine ⟨hlength.trans hend, hperm, ?_⟩
  have hwide : s.groupWidth ≤ s.runWidth * s.mergeFanIn := by
    rw [groupWidth, Nat.mul_comm]
    exact Nat.mul_le_mul_left _ hsound.pages_le
  obtain hfull | hsingle := hcover
  · rwa [groupWidth, hfull, Nat.mul_comm] at hchunked
  · have hinput := hsound.length
    obtain ⟨hsorted, -⟩ := hchunked.whole (by omega) (by omega)
    exact chunked_of_whole hsorted hperm (by omega)

theorem Between.next_inv [Std.TransCmp order] (hsound : Sound order s)
    (hbetween : Between order s) (hquiet : s.comparison = none)
    (hcover : s.pageCount = s.mergeFanIn ∨ s.records ≤ s.groupWidth)
    (hend : s.groupStart = s.records) : Inv order (beginDiskMerge { s with
      runFile := s.passFile
      passFile := []
      runWidth := min (s.runWidth * s.mergeFanIn) (u64Bound - 1) }) := by
  obtain ⟨hlength, hperm, hchunked⟩ := hbetween.passed hsound hcover hend
  have hbounded := hsound.bounded
  have hpos : 0 < s.runWidth * s.mergeFanIn :=
    Nat.mul_pos hsound.width_pos (Nat.lt_of_lt_of_le (by decide) hsound.fanIn)
  have hu64 : 1 < u64Bound := by decide
  refine beginDiskMerge_inv ?_ hquiet
  exact
    { width_pos := by dsimp only; omega
      length := hlength
      bounded := hbounded
      distinct := (hperm.pairwise_iff fun {x y} hxy heq =>
        hxy (Std.OrientedCmp.eq_comm.mp heq)).mpr hsound.distinct
      sorted := by
        dsimp only
        rcases Nat.le_total (s.runWidth * s.mergeFanIn) (u64Bound - 1) with hle | hge
        · rw [Nat.min_eq_left hle]
          exact fun k => (hchunked k).1
        · have hinput := hsound.length
          exact sortedRuns_of_sorted (hchunked.whole (by omega) (by omega)).1 _
      fanIn := hsound.fanIn
      leaves := hsound.leaves
      pages_pos := hsound.pages_pos
      pages_le := hsound.pages_le
      cached := fun run base hbase => by cases hbase
      quiet := hsound.quiet }

theorem Played.quiet (h : Played order s) (hnode : node s.tree.stage = none) :
    s.comparison = none := by
  by_contra hsome
  obtain ⟨pair, hpair⟩ := Option.ne_none_iff_exists'.mp hsome
  obtain ⟨n, left, right, hn, -⟩ := h.suspended pair hpair
  rw [hnode] at hn
  cases hn

theorem Group.stop_le (h : Group order s before emitted) (hsound : Sound order s) {run : Nat}
    {a : α} (hhead : s.tree.heads run = some a) : s.tree.stop run ≤ s.runFile.length := by
  obtain ⟨hrun, -, -⟩ := h.head_eq hsound hhead
  rw [h.stops run hrun, hsound.length]
  exact startAt_le _

/-- A stage of the merge leaves the files and the tree in order. -/
theorem mergeStage_inv [Std.TransCmp order] (hsound : Sound order s)
    (hcover : s.pageCount = s.mergeFanIn ∨ s.records ≤ s.groupWidth) (hm : s.merging = true)
    (hgroup : Group order s before emitted) (hplayed : Played order s)
    (hstage : s.tree.stage ≠ .idle) (c : Choice) :
    ∃ s', mergeStage order c s = .ok s' ∧ Inv order s' := by
  have hdistinct := hgroup.distinct hsound
  have hmatch : ∀ nodes stage comparison, stage ≠ .idle →
      Played order (s.withMatches nodes stage comparison) →
        Inv order (s.withMatches nodes stage comparison) := by
    intro nodes stage comparison hne hnext
    exact
      { sound := hsound.withMatches nodes stage comparison
        cover := fun _ => hcover
        idle := fun _ hidle => absurd hidle hne
        group := fun _ _ => ⟨⟨before, emitted, hgroup.withMatches nodes stage comparison⟩, hnext⟩
        single := fun hfalse => by
          rw [show (s.withMatches nodes stage comparison).merging = s.merging from rfl,
            hm] at hfalse
          cases hfalse }
  unfold mergeStage
  cases hcase : s.tree.stage with
  | idle => exact absurd hcase hstage
  | build n =>
    have hnode : node s.tree.stage = some n := by rw [hcase]; rfl
    dsimp only
    obtain ⟨pair, hplay, hnext⟩ | hplay := play_spec hplayed hdistinct hnode c
    · rw [hplay]
      exact ⟨_, rfl, hmatch _ _ _ hstage hnext⟩
    · rw [hplay]
      refine ⟨_, rfl, hmatch _ _ none ?_ (hplayed.built hcase)⟩
      split_ifs <;> exact Stage.noConfusion
  | replay n =>
    have hnode : node s.tree.stage = some n := by rw [hcase]; rfl
    dsimp only
    obtain ⟨pair, hplay, hnext⟩ | hplay := play_spec hplayed hdistinct hnode c
    · rw [hplay]
      exact ⟨_, rfl, hmatch _ _ _ hstage hnext⟩
    · rw [hplay]
      refine ⟨_, rfl, hmatch _ _ none ?_ (hplayed.replayed hcase)⟩
      split_ifs <;> exact Stage.noConfusion
  | emit =>
    have hquiet := hplayed.quiet (by rw [hcase]; rfl)
    dsimp only
    cases hroot : s.tree.nodes 1 with
    | none =>
      obtain ⟨-, hbetween⟩ := hgroup.finished hsound hplayed hcase hroot
      exact ⟨_, rfl,
        { sound := ⟨hsound.width_pos, hsound.length, hsound.bounded, hsound.distinct,
            hsound.sorted, hsound.fanIn, hsound.leaves, hsound.pages_pos, hsound.pages_le,
            hsound.cached, hsound.quiet⟩
          cover := fun _ => hcover
          idle := fun _ _ => ⟨hbetween, hquiet⟩
          group := fun _ hne => absurd rfl hne
          single := fun hfalse => by
            dsimp only at hfalse
            rw [hm] at hfalse
            cases hfalse }⟩
    | some index =>
      obtain ⟨a, ha, hleast⟩ := root_before hgroup hsound hplayed hcase hroot
      obtain ⟨pages, hpages, hemit⟩ := emit_eq hsound.cached ha (hgroup.stop_le hsound ha)
      obtain ⟨hindex, -, -⟩ := hgroup.head_eq hsound ha
      have hfan := hsound.fanIn
      have hleaves := hsound.leaves
      have hcount := hsound.pages_le
      exact ⟨_, hemit,
        { sound := hsound.advanced hpages a hindex
          cover := fun _ => hcover
          idle := fun _ hidle => by cases hidle
          group := fun _ _ => ⟨⟨before, _, hgroup.advanced hsound ha pages (hleast pages)⟩,
            hplayed.advanced hcase a (by omega) (by omega) hquiet pages⟩
          single := fun hfalse => by
            have hstill : s.merging = false := hfalse
            rw [hm] at hstill
            cases hstill }⟩

/-- No step of the merge fails, and each keeps the invariant. -/
theorem Inv.step [Std.TransCmp order] (h : Inv order s) (hm : s.merging = true) (c : Choice) :
    ∃ s', mergeDisk order c s = .ok s' ∧ Inv order s' := by
  unfold mergeDisk
  by_cases hidle : s.tree.stage = .idle
  · obtain ⟨hbetween, hquiet⟩ := h.idle hm hidle
    rw [if_pos hidle]
    by_cases hend : s.groupStart = s.records
    · rw [if_pos hend]
      exact ⟨_, rfl, hbetween.next_inv h.sound hquiet (h.cover hm) hend⟩
    · have hmore : s.groupStart < s.records := by
        obtain ⟨g, -, hlt⟩ | hdone := hbetween.start
        · exact hlt
        · exact absurd hdone hend
      rw [if_neg hend]
      obtain ⟨s', hstart, hsound, hgroup, hplayed, hstage, hmerging, hcount, hfan, hrecords,
        hwidth⟩ := startGroup_spec h.sound hbetween hquiet hmore
      rw [hstart]
      refine mergeStage_inv hsound ?_ (hmerging.trans hm) hgroup hplayed ?_ c
      · rw [groupWidth, hcount, hfan, hrecords, hwidth]
        exact h.cover hm
      · rw [hstage]
        exact Stage.noConfusion
  · rw [if_neg hidle]
    obtain ⟨⟨before, emitted, hgroup⟩, hplayed⟩ := h.group hm hidle
    exact mergeStage_inv h.sound (h.cover hm) hm hgroup hplayed hidle c

/-- The states of the merging phase of a file of records. -/
inductive Reaches (order : α → α → Ordering) (first : Pass α) : Pass α → Prop where
  | start : Reaches order first first
  | step {s s' : Pass α} (c : Choice) : Reaches order first s → s.merging = true →
      mergeDisk order c s = .ok s' → Reaches order first s'

theorem Reaches.inv [Std.TransCmp order] {first : Pass α} (hfirst : Inv order first)
    (h : Reaches order first s) : Inv order s := by
  induction h with
  | start => exact hfirst
  | step c hs hm hstep ih =>
    obtain ⟨next, hnext, hinv⟩ := ih.step hm c
    rw [hstep, Except.ok.injEq] at hnext
    rwa [hnext]

/-- The merging phase under these choices, up to its end or the first round that fails. -/
def merged (order : α → α → Ordering) : List Choice → Pass α → Pass α
  | [], s => s
  | c :: choices, s =>
    if s.merging then (mergeDisk order c s).toOption.elim s (merged order choices) else s

theorem reaches_merged {first : Pass α} (choices : List Choice) (h : Reaches order first s) :
    Reaches order first (merged order choices s) := by
  induction choices generalizing s with
  | nil => exact h
  | cons c choices ih =>
    unfold merged
    split
    · next hm =>
      cases hcase : mergeDisk order c s with
      | error e => exact h
      | ok s' => exact ih (h.step c hm hcase)
    · exact h

theorem le_nextPowerOfTwo (n : Nat) : n ≤ nextPowerOfTwo n := by
  unfold nextPowerOfTwo
  split_ifs with h
  · exact h
  · have hlt := Nat.lt_log2_self (n := n - 1)
    omega

theorem start_inv {mergeFanIn runWidth : Nat} {file : List α} (hfan : 2 ≤ mergeFanIn)
    (hwidth : 0 < runWidth) (hlength : file.length < u64Bound)
    (hdistinct : file.Pairwise fun a b => order a b ≠ .eq)
    (hsorted : SortedRuns order runWidth file) : Inv order (start mergeFanIn runWidth file) := by
  refine beginDiskMerge_inv ?_ rfl
  exact
    { width_pos := hwidth
      length := rfl
      bounded := hlength
      distinct := hdistinct
      sorted := hsorted
      fanIn := hfan
      leaves := le_nextPowerOfTwo mergeFanIn
      pages_pos := Nat.one_pos
      pages_le := Nat.le_trans (show 1 ≤ 2 by decide) hfan
      cached := fun run base hbase => by cases hbase
      quiet := fun _ _ => rfl }

/-- About to emit: every node holds the run with the least head below it, the run of the root has
the least record that is left, and without such a run the group is complete. -/
structure AboutToEmit (order : α → α → Ordering) (s : Pass α) : Prop where
  least : ∀ m, 0 < m → m < 2 * s.tree.leaves →
    WinnerTree.Least order s.tree.heads s.tree.leaves s.tree.nodes m
  exhausted : ∀ run < s.pageCount, s.tree.heads run = none ↔ s.rest run = []
  emits : ∀ index, s.tree.nodes 1 = some index → ∃ a, s.tree.heads index = some a ∧
    ∀ c, ∃ s', mergeDisk order c s = .ok s' ∧ s'.passFile = s.passFile ++ [a] ∧
      s.rest index = a :: s'.rest index ∧ (∀ run, run ≠ index → s'.rest run = s.rest run) ∧
        ∀ run < s.pageCount, ∀ b ∈ s'.rest run, Before order a b
  completes : s.tree.nodes 1 = none → ∃ before emitted, s.passFile = before ++ emitted ∧
    before.length = s.groupStart ∧ emitted.Pairwise (Before order) ∧
      emitted.Perm (slice s.runFile s.groupStart s.tree.groupEnd)

theorem Inv.aboutToEmit [Std.TransCmp order] (h : Inv order s) (hm : s.merging = true)
    (hstage : s.tree.stage = .emit) : AboutToEmit order s := by
  have hbusy : s.tree.stage ≠ .idle := by
    rw [hstage]
    exact Stage.noConfusion
  obtain ⟨⟨before, emitted, hgroup⟩, hplayed⟩ := h.group hm hbusy
  constructor
  case least =>
    exact fun m hpos hlt => hplayed.least (hgroup.distinct h.sound) hstage hpos hlt
  case exhausted => exact fun run hrun => hgroup.rest_eq_nil_iff h.sound hrun
  case emits =>
    intro index hroot
    obtain ⟨a, ha, hleast⟩ := root_before hgroup h.sound hplayed hstage hroot
    obtain ⟨pages, -, hemit⟩ := emit_eq h.sound.cached ha (hgroup.stop_le h.sound ha)
    obtain ⟨hself, hother⟩ := rest_advanced hgroup h.sound ha pages
    refine ⟨a, ha, fun c => ⟨_, ?_, rfl, hself, hother, hleast pages⟩⟩
    rw [mergeDisk, if_neg hbusy, mergeStage, hstage]
    dsimp only
    rw [hroot]
    exact hemit
  case completes =>
    intro hroot
    exact ⟨before, emitted, hgroup.file, hgroup.complete.length, hgroup.sorted,
      (hgroup.finished h.sound hplayed hstage hroot).1⟩

/-- In every state of the merging phase, whatever comparisons were suspended: the tree is right
whenever a record is emitted, a pass that ends leaves runs that are as many times wider as runs
are merged at a time, each with the records of those runs, and no step fails. -/
theorem winner_tree (direction : SortDirection) (mergeFanIn runWidth : Nat)
    (file : List SortKey) (hfan : 2 ≤ mergeFanIn) (hwidth : 0 < runWidth)
    (hlength : file.length < u64Bound) (hrows : (file.map SortKey.row).Nodup)
    (hsorted : SortedRuns (SortKey.order direction) runWidth file) (s : Pass SortKey)
    (hs : Reaches (SortKey.order direction) (start mergeFanIn runWidth file) s)
    (hm : s.merging = true) :
    (s.tree.stage = .emit → AboutToEmit (SortKey.order direction) s) ∧
    (s.tree.stage = .idle → s.groupStart = s.records → ∀ c, ∃ s',
      mergeDisk (SortKey.order direction) c s = .ok s' ∧ s'.runFile = s.passFile ∧
        s'.runWidth = min (s.runWidth * s.mergeFanIn) (u64Bound - 1) ∧
        Chunked (SortKey.order direction) (s.runWidth * s.mergeFanIn) s.runFile s'.runFile ∧
          s'.runFile.length = s.records ∧
          SortedRuns (SortKey.order direction) s'.runWidth s'.runFile) ∧
    ∀ c, ∃ s', mergeDisk (SortKey.order direction) c s = .ok s' := by
  have hdistinct : file.Pairwise fun a b => a.order direction b ≠ .eq := by
    refine (List.pairwise_map.mp hrows).imp fun hne heq => hne (order_eq_row heq)
  have hinv := hs.inv (start_inv hfan hwidth hlength hdistinct hsorted)
  refine ⟨hinv.aboutToEmit hm, fun hidle hend c => ?_, fun c => ?_⟩
  · obtain ⟨hbetween, hquiet⟩ := hinv.idle hm hidle
    obtain ⟨hsize, -, hchunked⟩ := hbetween.passed hinv.sound (hinv.cover hm) hend
    obtain ⟨s', hstep, hnext⟩ := hinv.step hm c
    have hsound := hnext.sound
    rw [mergeDisk, if_pos hidle, if_pos hend, Except.ok.injEq] at hstep
    have hfile : s'.runFile = s.passFile := by
      rw [← hstep, beginDiskMerge]
      split_ifs <;> rfl
    have hwide : s'.runWidth = min (s.runWidth * s.mergeFanIn) (u64Bound - 1) := by
      rw [← hstep, beginDiskMerge]
      split_ifs <;> rfl
    refine ⟨s', ?_, hfile, hwide, by rwa [hfile], by rw [hfile, hsize], hsound.sorted⟩
    rw [mergeDisk, if_pos hidle, if_pos hend, hstep]
  · obtain ⟨s', hstep, -⟩ := hinv.step hm c
    exact ⟨s', hstep⟩

/-- Runs of one record are sorted. -/
theorem sortedRuns_one (order : α → α → Ordering) (file : List α) : SortedRuns order 1 file := by
  intro k
  have hlength : (slice file (k * 1) ((k + 1) * 1)).length ≤ 1 := by
    rw [slice, List.length_take]
    omega
  rcases hslice : slice file (k * 1) ((k + 1) * 1) with _ | ⟨a, _ | ⟨b, rest⟩⟩
  · exact .nil
  · exact List.pairwise_singleton _ a
  · rw [hslice, List.length_cons, List.length_cons] at hlength
    omega

/-- Two rows of blank keys, each a run of its own: their comparison was suspended once, and the
second is about to be emitted. -/
def secondFirst : Pass SortKey :=
  merged (SortKey.order .ascending) [⟨false, true⟩, ⟨true, false⟩]
    (start 2 1 [⟨.blank, 1⟩, ⟨.blank, 0⟩])

theorem winner_tree_secondFirst : secondFirst.tree.nodes 1 = some 1 ∧ ∃ s',
    mergeDisk (SortKey.order .ascending) ⟨true, false⟩ secondFirst = .ok s' ∧
      s'.passFile = [⟨.blank, 0⟩] ∧ s'.rest 1 = [] ∧ s'.rest 0 = [⟨.blank, 1⟩] := by
  have habout := (winner_tree .ascending 2 1 [⟨.blank, 1⟩, ⟨.blank, 0⟩] (by decide) (by decide)
    (by decide) (by decide) (sortedRuns_one _ _) secondFirst (reaches_merged _ .start)
    (by decide +kernel)).1 (by decide +kernel)
  have hroot : secondFirst.tree.nodes 1 = some 1 := by decide +kernel
  obtain ⟨a, ha, hemit⟩ := habout.emits 1 hroot
  obtain ⟨s', hstep, hfile, hrest, hothers, -⟩ := hemit ⟨true, false⟩
  have hhead : secondFirst.tree.heads 1 = some ⟨.blank, 0⟩ := by decide +kernel
  have hsame : a = ⟨.blank, 0⟩ := Option.some_inj.mp (ha.symm.trans hhead)
  have hempty : secondFirst.passFile = [] := by decide +kernel
  have hsecond : secondFirst.rest 1 = [⟨.blank, 0⟩] := by decide +kernel
  have hfirst : secondFirst.rest 0 = [⟨.blank, 1⟩] := by decide +kernel
  refine ⟨hroot, s', hstep, ?_, ?_, ?_⟩
  · rw [hfile, hempty, hsame, List.nil_append]
  · rw [hsecond] at hrest
    exact (List.cons.inj hrest).2.symm
  · rw [hothers 0 (by decide), hfirst]

end Pass

end LeanRows.Sort.MergePass
