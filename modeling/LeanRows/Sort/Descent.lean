import LeanRows.Sort.Admission

/-!
# A sort comes down

`rank` falls in every round of a sort that is not waiting for a comparison: first by the phase,
then inside a phase by its passes, groups and positions. `Placed` collects what the positions
have to keep for that.
-/

set_option autoImplicit false

namespace LeanRows.Sort

/-- Five positions, the first that differs decides. -/
abbrev Five := ℕ ×ₗ ℕ ×ₗ ℕ ×ₗ ℕ ×ₗ ℕ

def five (a b c d e : Nat) : Five := toLex (a, toLex (b, toLex (c, toLex (d, e))))

theorem five_lt {a b c d e a' b' c' d' e' : Nat} :
    five a' b' c' d' e' < five a b c d e ↔ a' < a ∨ a' = a ∧ (b' < b ∨ b' = b ∧
      (c' < c ∨ c' = c ∧ (d' < d ∨ d' = d ∧ e' < e))) := by
  simp only [five, Prod.Lex.toLex_lt_toLex]

namespace SortSession

/-! ### Positions -/

/-- Enough runs and pages for another pass. -/
structure Mergeable (s : SortSession) : Prop where
  fanIn : 2 ≤ s.mergeFanIn
  width : 1 ≤ s.runWidth
  runs : Runs s.pages s.tree.runs
  some_run : s.tree.runs ≠ []
  pages : 1 ≤ s.pages

/-- The runs of the batch: `out` stands in the pair that is being merged, or where the next
one starts. -/
structure SortsAt (s : SortSession) : Prop where
  width : 1 ≤ s.merge.width
  out : s.merge.out ≤ s.merge.stop
  stop : s.merge.stop ≤ s.batch
  writeAt : s.writeAt ≤ s.batch
  start : s.merge.out = s.merge.stop → s.merge.start = s.merge.out

/-- A pass over runs shorter than the whole, and the group it is in. -/
structure MergesAt (s : SortSession) : Prop extends s.Mergeable where
  unmerged : s.runWidth < s.records
  group : if s.tree.stage = .idle then s.groupStart ≤ s.records
    else s.groupStart < s.tree.groupEnd ∧ s.tree.groupEnd ≤ s.records

structure PlacesAt (builder : InverseBuilder) : Prop where
  bucketRows : 1 ≤ builder.bucketRows
  buckets : builder.buckets = divCeil builder.records builder.bucketRows
  bucket : builder.bucket ≤ builder.buckets
  read : builder.bucket < builder.buckets →
    builder.read < builder.bucketLen builder.bucket * pairBytes

/-- The bucket that is being placed has pairs that have not been read. -/
def BuildsAt (s : SortSession) : Prop :=
  ∀ builder, s.inverseBuilder = some builder → PlacesAt builder

/-- What the positions of a phase keep. -/
def PhaseAt (s : SortSession) : Prop :=
  match s.phase with
  | .extracting => s.Mergeable
  | .sortingRuns => s.Mergeable ∧ s.SortsAt
  | .merging => s.MergesAt
  | .buildingInverse => s.BuildsAt
  | .complete | .cancelled => True

structure Placed (s : SortSession) : Prop where
  inverseAt : s.inverseAt ≤ s.records
  phase : s.PhaseAt

/-! ### The rank of a round -/

def phaseRank : SortPhase → Nat
  | .extracting | .sortingRuns => 3
  | .merging => 2
  | .buildingInverse => 1
  | .complete | .cancelled => 0

/-- A full batch is sorted, then there is none. -/
def batchRank (s : SortSession) : Nat :=
  match s.phase with
  | .extracting => if s.batch = 0 then 0 else 2
  | .sortingRuns => 1
  | _ => 0

/-- A group is built, then each of its records is written and the matches on its way are
played again. -/
def stageRank (tree : Tree) : Nat × Nat × Nat :=
  match tree.stage with
  | .idle => (2, 0, 0)
  | .build node => (1, node, 0)
  | .emit => (0, remaining tree.runs, 0)
  | .replay node => (0, remaining tree.runs, node + 1)

def bucketLeft (builder : InverseBuilder) : Nat × Nat :=
  (builder.buckets - builder.bucket,
    builder.bucketLen builder.bucket * pairBytes - builder.read)

/-- What is left of the phase. -/
def phaseLeft (s : SortSession) : Five :=
  match s.phase with
  | .sortingRuns => five (s.batch - s.merge.width) (s.batch - s.merge.out)
      (s.batch - s.writeAt) 0 0
  | .merging =>
    let stage := stageRank s.tree
    five (s.records - s.runWidth) (s.records - s.groupStart) stage.1 stage.2.1 stage.2.2
  | .buildingInverse =>
    let left := s.inverseBuilder.elim (0, 0) bucketLeft
    five (s.records - s.inverseAt) (if s.runFile.isSome then 1 else 0) left.1 left.2 0
  | .extracting | .complete | .cancelled => five 0 0 0 0 0

/-- Only what is still to be read of the source is missing. -/
def roundRank (s : SortSession) : ℕ ×ₗ ℕ ×ₗ Five :=
  toLex (phaseRank s.phase, toLex (s.batchRank, s.phaseLeft))

theorem roundRank_lt_of_phase {s s' : SortSession} (h : phaseRank s'.phase < phaseRank s.phase) :
    s'.roundRank < s.roundRank :=
  Prod.Lex.toLex_lt_toLex.mpr (.inl h)

theorem roundRank_lt_of_batch {s s' : SortSession} (hphase : phaseRank s'.phase = phaseRank s.phase)
    (h : s'.batchRank < s.batchRank) : s'.roundRank < s.roundRank :=
  Prod.Lex.toLex_lt_toLex.mpr (.inr ⟨hphase, Prod.Lex.toLex_lt_toLex.mpr (.inl h)⟩)

/-- In one phase, with the batch as it is, what is left decides. -/
theorem roundRank_lt_of_left {s s' : SortSession} (hphase : s'.phase = s.phase)
    (hbatch : s'.batchRank = s.batchRank) (h : s'.phaseLeft < s.phaseLeft) :
    s'.roundRank < s.roundRank := by
  refine Prod.Lex.toLex_lt_toLex.mpr (.inr ⟨congrArg phaseRank hphase, ?_⟩)
  exact Prod.Lex.toLex_lt_toLex.mpr (.inr ⟨hbatch, h⟩)

/-! ### Rounds -/

/-- What only reading the source changes. -/
structure SameReader (s s' : SortSession) : Prop where
  capacity : s'.batchCapacity = s.batchCapacity
  unread : s'.unread = s.unread
  scanner : s'.scanner = s.scanner
  pending : s'.pending = s.pending
  records : s'.records = s.records

theorem SameReader.refl (s : SortSession) : SameReader s s := ⟨rfl, rfl, rfl, rfl, rfl⟩

theorem SameReader.trans {s s' s'' : SortSession} (h : SameReader s s')
    (h' : SameReader s' s'') : SameReader s s'' :=
  ⟨h'.capacity.trans h.capacity, h'.unread.trans h.unread, h'.scanner.trans h.scanner,
    h'.pending.trans h.pending, h'.records.trans h.records⟩

/-- The records a tree has to compare, by their places. -/
def treeContest (tree : Tree) : Option (Nat × Nat) :=
  match tree.stage with
  | .build node | .replay node =>
    match tree.nodes.getD (node * 2) none, tree.nodes.getD (node * 2 + 1) none with
    | some left, some right =>
      match (tree.runs[left]?).bind Run.head, (tree.runs[right]?).bind Run.head with
      | some a, some b => some (a, b)
      | _, _ => none
    | _, _ => none
  | .idle | .emit => none

/-- The tree of a group whose runs have been started. -/
def startedTree (s : SortSession) (started : List Run × Nat) : Tree :=
  { s.tree with
    nodes := List.replicate s.tree.leaves none ++
      ((List.range s.tree.leaves).map fun run =>
        if run < s.pages then (started.1[run]?).bind fun r => r.head.map fun _ => run else none)
    runs := started.1
    groupEnd := started.2
    stage := if 1 < s.tree.leaves then .build (s.tree.leaves - 1) else .emit }

/-- The records a round has to compare: places in the batch, or in the run file. -/
def contest (os : Answers) (s : SortSession) : Option (Nat × Nat) :=
  match s.phase with
  | .sortingRuns =>
    if s.batch ≤ s.merge.width ∨ s.batch ≤ s.merge.start then none
    else
      let merge := nextPair s.batch s.merge
      if merge.left = merge.middle ∨ merge.right = merge.stop then none
      else some (merge.left, merge.right)
  | .merging =>
    if s.tree.stage = .idle then
      if s.groupStart = s.records then none
      else
        match startRuns s.runWidth s.records os s.pages s.groupStart s.tree.runs with
        | .error _ => none
        | .ok started => treeContest (s.startedTree started)
    else treeContest s.tree
  | _ => none

/-- A round goes on, or it waits for a comparison. -/
inductive RoundOn (s : SortSession) (c : Choice) (s' : SortSession) : Prop where
  | lower : SameReader s s' → s'.Placed → s'.roundRank < s.roundRank → RoundOn s c s'
  | held : (s.contest c.os).isSome → c.greater = none → SameReader s s' → s'.Placed →
      s'.roundRank = s.roundRank → RoundOn s c s'

/-! ### Runs in memory -/

theorem nextPair_spec {s : SortSession} (h : s.SortsAt) (hstart : s.merge.start < s.batch) :
    (nextPair s.batch s.merge).out = s.merge.out ∧
      (nextPair s.batch s.merge).width = s.merge.width ∧
      (nextPair s.batch s.merge).out < (nextPair s.batch s.merge).stop ∧
      (nextPair s.batch s.merge).stop ≤ s.batch := by
  have hwidth := h.width
  have hout := h.out
  have hstop := h.stop
  unfold nextPair
  split
  · rename_i heq
    have hfirst := h.start heq
    dsimp only
    omega
  · rename_i hne
    exact ⟨rfl, rfl, by omega, hstop⟩

theorem takeOne_spec (left : Bool) (merge : Merge) :
    (takeOne left merge).out = merge.out + 1 ∧ (takeOne left merge).width = merge.width ∧
      (takeOne left merge).stop = merge.stop ∧
      ((takeOne left merge).out = (takeOne left merge).stop →
        (takeOne left merge).start = (takeOne left merge).out) := by
  cases left <;> simp only [takeOne, Bool.false_eq_true, if_true, if_false] <;> split <;>
    exact ⟨rfl, rfl, rfl, by simp_all⟩

theorem onFile_runs (file : SortSession → Option DiskFile)
    (put : DiskFile → SortSession → SortSession) (action : DiskFileM Unit) (s : SortSession) :
    Exec.Triple (fun p : SortSession × SortResources => p.1 = s) (onFile file put action)
      (fun _ p => ∃ f, p.1 = put f s) (fun _ _ => True) := by
  rintro ⟨s', r⟩ hp
  obtain rfl : s' = s := hp
  simp only [onFile]
  cases file s' with
  | none => trivial
  | some f =>
    dsimp only
    rcases action (f, r) with ⟨error | ⟨⟩, f', r'⟩
    · trivial
    · exact ⟨_, rfl⟩

theorem onRunFile_runs (action : DiskFileM Unit) (s : SortSession) :
    Exec.Triple (fun p : SortSession × SortResources => p.1 = s) (onRunFile action)
      (fun _ p => ∃ file, p.1 = { s with runFile := some file }) (fun _ _ => True) :=
  onFile_runs _ _ action s

theorem onPassFile_runs (action : DiskFileM Unit) (s : SortSession) :
    Exec.Triple (fun p : SortSession × SortResources => p.1 = s) (onPassFile action)
      (fun _ p => ∃ file, p.1 = { s with passFile := some file }) (fun _ _ => True) :=
  onFile_runs _ _ action s

theorem onOrder_runs (action : DiskFileM Unit) (s : SortSession) :
    Exec.Triple (fun p : SortSession × SortResources => p.1 = s) (onOrder action)
      (fun _ p => ∃ file, p.1 = { s with order := some file }) (fun _ _ => True) :=
  onFile_runs _ _ action s

theorem phaseLeft_sortingRuns {s : SortSession} (h : s.phase = .sortingRuns) :
    s.phaseLeft = five (s.batch - s.merge.width) (s.batch - s.merge.out) (s.batch - s.writeAt)
      0 0 := by
  rw [phaseLeft, h]

/-- A round that stays with the batch comes down. -/
theorem sorts_lower {s s' : SortSession} (c : Choice) (hphase : s.phase = .sortingRuns)
    (hphase' : s'.phase = .sortingRuns) (hsame : SameReader s s') (hat : s'.inverseAt ≤ s'.records)
    (hmerge : s'.Mergeable) (hsorts : s'.SortsAt)
    (hlt : five (s'.batch - s'.merge.width) (s'.batch - s'.merge.out) (s'.batch - s'.writeAt) 0 0 <
      five (s.batch - s.merge.width) (s.batch - s.merge.out) (s.batch - s.writeAt) 0 0) :
    RoundOn s c s' := by
  refine .lower hsame ⟨hat, ?_⟩ (roundRank_lt_of_left (hphase'.trans hphase.symm) ?_ ?_)
  · rw [PhaseAt, hphase']
    exact ⟨hmerge, hsorts⟩
  · rw [batchRank, batchRank, hphase, hphase']
  · rwa [phaseLeft_sortingRuns hphase, phaseLeft_sortingRuns hphase']

theorem sortBatch_on (c : Choice) {s : SortSession} (hat : s.inverseAt ≤ s.records)
    (hmerge : s.Mergeable) (h : s.SortsAt) (hphase : s.phase = .sortingRuns) :
    Exec.Triple (fun p : SortSession × SortResources => p.1 = s) (sortBatch c)
      (fun _ p => RoundOn s c p.1) (fun _ _ => True) := by
  have hwidth := h.width
  have hwriteAt := h.writeAt
  have hkeep {merge : Merge} {writeAt : Nat} {runFile : Option DiskFile} :
      ({ s with merge := merge, writeAt := writeAt, runFile := runFile } :
        SortSession).Mergeable :=
    ⟨hmerge.fanIn, hmerge.width, hmerge.runs, hmerge.some_run, hmerge.pages⟩
  rintro ⟨s', r⟩ hp
  obtain rfl : s' = s := hp
  simp only [sortBatch, Exec.run_get_bind]
  by_cases hsorted : s'.batch ≤ s'.merge.width
  · rw [if_pos hsorted]
    by_cases hmore : s'.writeAt < s'.batch
    · rw [if_pos hmore]
      have hfile := onRunFile_runs (DiskFile.append descriptorBytes (c.os 0)) s' (s', r) rfl
      rcases hrun : onRunFile (DiskFile.append descriptorBytes (c.os 0)) (s', r) with
        ⟨error | ⟨⟩, next, r'⟩
      · rw [Exec.run_bind_error hrun]
        trivial
      · rw [hrun] at hfile
        obtain ⟨file, hnext⟩ := hfile
        obtain rfl : next = { s' with runFile := some file } := hnext
        rw [Exec.run_bind_ok hrun]
        refine sorts_lower c hphase hphase ⟨rfl, rfl, rfl, rfl, rfl⟩ hat hkeep
          ⟨hwidth, h.out, h.stop, hmore, h.start⟩ (five_lt.mpr ?_)
        dsimp only
        omega
    · rw [if_neg hmore]
      refine .lower ⟨rfl, rfl, rfl, rfl, rfl⟩
        ⟨hat, ⟨hmerge.fanIn, hmerge.width, hmerge.runs, hmerge.some_run, hmerge.pages⟩⟩
        (roundRank_lt_of_batch ?_ ?_)
      · rw [hphase]
        rfl
      · rw [batchRank, batchRank, hphase]
        exact Nat.one_pos
  rw [if_neg hsorted]
  by_cases hpass : s'.batch ≤ s'.merge.start
  · rw [if_pos hpass]
    refine sorts_lower c hphase hphase ⟨rfl, rfl, rfl, rfl, rfl⟩ hat hkeep
      ⟨by dsimp only; omega, Nat.le_refl _, Nat.zero_le _, hwriteAt, fun _ => rfl⟩
      (five_lt.mpr ?_)
    dsimp only
    omega
  rw [if_neg hpass]
  obtain ⟨hout, hsame, hlt, hstop⟩ := nextPair_spec h (Nat.lt_of_not_le hpass)
  cases c.fault with
  | some fault => trivial
  | none =>
  generalize htake : (if (nextPair s'.batch s'.merge).left = (nextPair s'.batch s'.merge).middle
    then some false
    else if (nextPair s'.batch s'.merge).right = (nextPair s'.batch s'.merge).stop
      then some true else c.greater.map fun greater => !greater) = take
  cases take with
  | some left =>
    obtain ⟨hnext, hwidth', hend, hfirst⟩ := takeOne_spec left (nextPair s'.batch s'.merge)
    refine sorts_lower c hphase hphase ⟨rfl, rfl, rfl, rfl, rfl⟩ hat hkeep
      ⟨by dsimp only; omega, by dsimp only; omega, by dsimp only; omega, hwriteAt, hfirst⟩
      (five_lt.mpr ?_)
    dsimp only
    omega
  | none =>
    have hcontest : ¬((nextPair s'.batch s'.merge).left = (nextPair s'.batch s'.merge).middle ∨
        (nextPair s'.batch s'.merge).right = (nextPair s'.batch s'.merge).stop) ∧
          c.greater = none := by
      split at htake
      · cases htake
      rename_i hne
      split at htake
      · cases htake
      · rename_i hne'
        exact ⟨not_or.mpr ⟨hne, hne'⟩, Option.map_eq_none_iff.mp htake⟩
    have hnew : ({ s' with merge := nextPair s'.batch s'.merge } : SortSession).PhaseAt := by
      simp only [PhaseAt, hphase]
      exact ⟨⟨hmerge.fanIn, hmerge.width, hmerge.runs, hmerge.some_run, hmerge.pages⟩,
        ⟨by dsimp only; omega, Nat.le_of_lt hlt, hstop, hwriteAt,
        fun heq => absurd heq (Nat.ne_of_lt hlt)⟩⟩
    refine .held ?_ hcontest.2 ⟨rfl, rfl, rfl, rfl, rfl⟩ ⟨hat, hnew⟩ ?_
    · simp only [contest, hphase]
      rw [if_neg (not_or.mpr ⟨hsorted, hpass⟩), if_neg hcontest.1]
      rfl
    · simp only [roundRank, batchRank, phaseLeft, hphase, hout, hsame]

/-! ### The maps -/

theorem bucket_mul_lt {records bucketRows bucket : Nat} (hrows : 1 ≤ bucketRows)
    (h : bucket < divCeil records bucketRows) : bucket * bucketRows < records := by
  have hle : (bucket + 1) * bucketRows ≤ records + bucketRows - 1 :=
    (Nat.le_div_iff_mul_le hrows).mp h
  rw [Nat.add_mul, Nat.one_mul] at hle
  omega

theorem bucketLen_pos (builder : InverseBuilder) (hrows : 1 ≤ builder.bucketRows)
    (hbuckets : builder.buckets = divCeil builder.records builder.bucketRows) {bucket : Nat}
    (h : bucket < builder.buckets) : 0 < builder.bucketLen bucket := by
  have hlt := bucket_mul_lt hrows (hbuckets ▸ h)
  simp only [InverseBuilder.bucketLen, InverseBuilder.bucketStart]
  omega

theorem new_places (owner records bucketRows bufferBytes : Nat) (os : Answers) :
    (InverseBuilder.new owner records bucketRows bufferBytes os).Ensures PlacesAt := by
  unfold InverseBuilder.new
  split
  · exact .throw _
  rename_i hconfig
  have hrows : 1 ≤ bucketRows := Nat.pos_of_ne_zero (not_or.mp hconfig).1
  refine Exec.Ensures.bind Exec.Ensures.trivial fun memory _ => ?_
  intro r builder hrun
  dsimp only at hrun
  split at hrun
  · cases hrun
  · cases hrun
    exact ⟨hrows, rfl, Nat.zero_le _, fun h =>
      Nat.mul_pos (bucketLen_pos _ hrows rfl h) (by decide)⟩

theorem makeMaps_places (owner records : Nat) (os : Answers) :
    (makeMaps owner records os).Ensures fun maps => PlacesAt maps.2.2 := by
  have hduring : ∀ {α : Type} {P : α → Prop} (file : DiskFile)
      {x : Exec SortResources SortError α}, x.Ensures P → (DiskFile.during file x).Ensures P := by
    intro α P file x hx r a hrun
    simp only [DiskFile.during] at hrun
    have hthis := hx r
    split at hrun
    · cases hrun
    · rename_i hfirst
      cases hrun
      exact hthis _ (by rw [hfirst])
  refine Exec.Ensures.bind Exec.Ensures.trivial fun order _ => ?_
  refine Exec.Ensures.bind Exec.Ensures.trivial fun order _ => hduring order ?_
  refine Exec.Ensures.bind Exec.Ensures.trivial fun inverse _ => ?_
  refine Exec.Ensures.bind Exec.Ensures.trivial fun inverse _ => hduring inverse ?_
  refine Exec.Ensures.bind (new_places _ _ _ _ _) fun builder hbuilder => ?_
  exact .pure hbuilder

theorem beginMaps_builds (os : Answers) (s : SortSession) :
    Exec.Triple (fun p : SortSession × SortResources => p.1 = s) (beginMaps os)
      (fun _ p => SameReader s p.1 ∧ p.1.inverseAt = s.inverseAt ∧
        p.1.phase = .buildingInverse ∧ p.1.BuildsAt)
      (fun _ _ => True) := by
  rintro ⟨s', r⟩ hp
  obtain rfl : s' = s := hp
  have hmaps := makeMaps_places s'.owner s'.records os
    (release Reservation.drop s'.mergeMemory r)
  rcases hrun : makeMaps s'.owner s'.records os (release Reservation.drop s'.mergeMemory r) with
    ⟨error | maps, r'⟩
  · have hfails : beginMaps os (s', r) = (.error error, { s' with
        batch := 0
        pages := min s'.pages 1
        tree := Tree.new 1
        mergeMemory := none }, r') := by
      simp only [beginMaps, Exec.inner, bind, Exec.get, hrun]
    rw [hfails]
    trivial
  · rw [hrun] at hmaps
    have hruns : beginMaps os (s', r) = (.ok (), { s' with
        batch := 0
        pages := min s'.pages 1
        tree := Tree.new 1
        mergeMemory := none
        order := some maps.1
        inverse := some maps.2.1
        inverseBuilder := some maps.2.2
        phase := .buildingInverse }, r') := by
      simp only [beginMaps, Exec.inner, bind, Exec.get, Exec.modify, hrun]
    rw [hruns]
    refine ⟨⟨rfl, rfl, rfl, rfl, rfl⟩, rfl, rfl, ?_⟩
    rintro builder ⟨⟩
    exact hmaps _ rfl

/-! ### Passes over the runs on disk -/

theorem phaseLeft_merging {s : SortSession} (h : s.phase = .merging) :
    s.phaseLeft = five (s.records - s.runWidth) (s.records - s.groupStart) (stageRank s.tree).1
      (stageRank s.tree).2.1 (stageRank s.tree).2.2 := by
  rw [phaseLeft, h]

/-- How a pass begins: another pass, or the maps. -/
structure Begun (s s' : SortSession) : Prop where
  same : SameReader s s'
  inverseAt : s'.inverseAt = s.inverseAt
  phase : s'.PhaseAt
  next : s'.phase = .buildingInverse ∨ s'.phase = .merging ∧ s'.runWidth = s.runWidth

theorem beginDiskMerge_begun (os : Answers) {s : SortSession} (h : s.Mergeable) :
    Exec.Triple (fun p : SortSession × SortResources => p.1 = s) (beginDiskMerge os)
      (fun _ p => Begun s p.1) (fun _ _ => True) := by
  rintro ⟨s', r⟩ hp
  obtain rfl : s' = s := hp
  have hfile := onRunFile_runs (DiskFile.finishWriting (os 0)) s' (s', r) rfl
  rw [beginDiskMerge]
  rcases hrun : onRunFile (DiskFile.finishWriting (os 0)) (s', r) with ⟨error | ⟨⟩, next, r'⟩
  · rw [Exec.run_bind_error hrun]
    trivial
  rw [hrun] at hfile
  obtain ⟨file, hnext⟩ := hfile
  obtain rfl : next = { s' with runFile := some file } := hnext
  rw [Exec.run_bind_ok hrun, Exec.run_get_bind]
  by_cases hwhole : s'.records ≤ s'.runWidth
  · rw [if_pos hwhole]
    have hmaps := beginMaps_builds (fun call => os (1 + call))
      { s' with runFile := some file } (_, r') rfl
    generalize beginMaps (fun call => os (1 + call)) ({ s' with runFile := some file }, r') = result
      at hmaps ⊢
    obtain ⟨error | ⟨⟩, next, r''⟩ := result
    · trivial
    · obtain ⟨hsame, hat, hphase, hbuilds⟩ := hmaps
      refine ⟨⟨hsame.capacity, hsame.unread, hsame.scanner, hsame.pending, hsame.records⟩, hat, ?_,
        .inl hphase⟩
      rw [PhaseAt, hphase]
      exact hbuilds
  · rw [if_neg hwhole]
    simp only [Exec.run_modify_bind]
    generalize hpages : max s'.pages (min (divCeil s'.records s'.runWidth) s'.mergeFanIn) = pages
    have hmore : s'.pages ≤ pages := hpages ▸ Nat.le_max_left _ _
    simp only [bind, Exec.inner]
    rcases DiskFile.create s'.owner (os 1) (os 2) r' with ⟨error | created, r''⟩
    · trivial
    · dsimp only
      refine ⟨⟨rfl, rfl, rfl, rfl, rfl⟩, rfl, ?_, .inr ⟨rfl, rfl⟩⟩
      exact ⟨⟨h.fanIn, h.width, h.runs.mono hmore, h.some_run, Nat.le_trans h.pages hmore⟩,
        Nat.lt_of_not_le hwhole, Nat.zero_le _⟩

/-- A group that is not at the end has records. -/
theorem startRuns_moves {width records : Nat} {os : Answers} {pages start : Nat}
    {runs : List Run} {started : List Run × Nat} (hwidth : 1 ≤ width) (hpages : 1 ≤ pages)
    (hruns : runs ≠ []) (hstart : start < records)
    (h : startRuns width records os pages start runs = .ok started) :
    started.1 ≠ [] ∧ 0 < remaining started.1 := by
  obtain ⟨run, rest, rfl⟩ := List.exists_cons_of_ne_nil hruns
  obtain ⟨pages, rfl⟩ := Nat.exists_eq_add_of_le' hpages
  simp only [startRuns] at h
  split at h
  · cases h
  · rename_i loaded hload
    obtain ⟨hnext, hstop, -⟩ := loadHead_eq_ok hload
    split at h
    · cases h
    · cases h
      refine ⟨List.cons_ne_nil _ _, ?_⟩
      simp only [remaining, List.map_cons, List.sum_cons]
      simp only at hnext hstop
      omega

/-- A group and its runs, behind the start of one or a step in it. -/
structure GroupOn (s s' : SortSession) : Prop where
  same : SameReader s s'
  inverseAt : s'.inverseAt = s.inverseAt
  phase : s'.phase = .merging
  merges : s'.MergesAt
  runWidth : s'.runWidth = s.runWidth

theorem startGroup_on (c : Choice) {s : SortSession} (h : s.MergesAt)
    (hphase : s.phase = .merging) (hidle : s.tree.stage = .idle)
    (hmore : s.groupStart ≠ s.records) :
    Exec.Triple (fun p : SortSession × SortResources => p.1 = s) (startGroup c)
      (fun _ p => GroupOn s p.1 ∧ p.1.groupStart = s.groupStart ∧ p.1.tree.stage ≠ .idle ∧
        s.contest c.os = treeContest p.1.tree) (fun _ _ => True) := by
  have hgroup := h.group
  rw [if_pos hidle] at hgroup
  rintro ⟨s', r⟩ hp
  obtain rfl : s' = s := hp
  simp only [startGroup, Exec.run_get_bind]
  cases hstarted : startRuns s'.runWidth s'.records c.os s'.pages s'.groupStart s'.tree.runs with
  | error error => trivial
  | ok started =>
    obtain ⟨hruns, hsum, hle⟩ := startRuns_eq_ok h.runs hgroup hstarted
    obtain ⟨hsome, hpos⟩ := startRuns_moves h.width h.pages h.some_run (by omega) hstarted
    have hstage : (s'.startedTree started).stage ≠ .idle := by
      simp only [startedTree]
      split <;> (intro heq; cases heq)
    refine ⟨⟨⟨rfl, rfl, rfl, rfl, rfl⟩, rfl, hphase, ⟨⟨h.fanIn, h.width, hruns, hsome, h.pages⟩,
      h.unmerged, ?_⟩, rfl⟩, rfl, hstage, ?_⟩
    · split
      · rename_i heq
        exact absurd heq hstage
      · exact ⟨by dsimp only; omega, hle⟩
    · simp only [contest, hphase, if_pos hidle, if_neg hmore, hstarted]
      rfl

/-- A record is written, and the matches on the way from its leaf are to be played again. -/
theorem emit_on (index : Nat) (c : Choice) {s : SortSession} (h : s.MergesAt)
    (hphase : s.phase = .merging) (hbusy : s.tree.stage ≠ .idle) :
    Exec.Triple (fun p : SortSession × SortResources => p.1 = s) (emit index c)
      (fun _ p => GroupOn s p.1 ∧ p.1.groupStart = s.groupStart ∧
        remaining p.1.tree.runs + 1 = remaining s.tree.runs ∧
        ∃ node, p.1.tree.stage = .replay node) (fun _ _ => True) := by
  have hgroup := h.group
  rw [if_neg hbusy] at hgroup
  rintro ⟨s', r⟩ hp
  obtain rfl : s' = s := hp
  simp only [emit, Exec.run_get_bind]
  rcases hslot : s'.tree.runs[index]? with _ | ⟨_ | head, next, stop⟩
  · trivial
  · trivial
  have hlt : next < stop := h.runs.heads _ (List.mem_of_getElem? hslot) rfl
  simp only [Exec.run_modify_bind]
  generalize htaken : ({ s' with tree := { s'.tree with
    runs := s'.tree.runs.set index ⟨none, next, stop⟩ } } : SortSession) = taken
  have hfile := onPassFile_runs (DiskFile.append descriptorBytes (c.os 0)) taken (taken, r) rfl
  rcases hrun : onPassFile (DiskFile.append descriptorBytes (c.os 0)) (taken, r) with
    ⟨error | ⟨⟩, after, r'⟩
  · rw [Exec.run_bind_error hrun]
    trivial
  rw [hrun] at hfile
  obtain ⟨file, hafter⟩ := hfile
  obtain rfl : after = { taken with passFile := some file } := hafter
  rw [Exec.run_bind_ok hrun]
  subst htaken
  cases hload : loadHead (c.os 1) ⟨none, next + 1, stop⟩ with
  | error error => trivial
  | ok run =>
    obtain ⟨hnext, hstop, hhead⟩ := loadHead_eq_ok hload
    have hset : (s'.tree.runs.set index ⟨none, next, stop⟩).set index run =
        s'.tree.runs.set index run := List.set_set ..
    have hsum : remaining (s'.tree.runs.set index run) + 1 = remaining s'.tree.runs := by
      have htotal := remaining_set hslot run
      simp only at htotal hnext hstop
      omega
    have hsome : s'.tree.runs.set index run ≠ [] :=
      mt (List.set_eq_nil_iff _ _).mp h.some_run
    refine ⟨⟨⟨rfl, rfl, rfl, rfl, rfl⟩, rfl, hphase, ⟨⟨h.fanIn, h.width, ?_, ?_, h.pages⟩,
      h.unmerged, hgroup⟩, rfl⟩, rfl, ?_, _, rfl⟩
    · dsimp only
      rw [hset]
      exact h.runs.set hslot hhead
    · dsimp only
      rw [hset]
      exact hsome
    · dsimp only
      rw [hset]
      exact hsum

theorem GroupOn.refl {s : SortSession} (hphase : s.phase = .merging) (h : s.MergesAt) :
    GroupOn s s := ⟨.refl s, rfl, hphase, h, rfl⟩

theorem GroupOn.trans {s s' s'' : SortSession} (h : GroupOn s s') (h' : GroupOn s' s'') :
    GroupOn s s'' :=
  ⟨h.same.trans h'.same, h'.inverseAt.trans h.inverseAt, h'.phase, h'.merges,
    h'.runWidth.trans h.runWidth⟩

theorem GroupOn.placed {s s' : SortSession} (h : GroupOn s s') (hat : s.inverseAt ≤ s.records) :
    s'.Placed := by
  refine ⟨?_, ?_⟩
  · rw [h.inverseAt, h.same.records]
    exact hat
  · rw [PhaseAt, h.phase]
    exact h.merges

theorem batchRank_merging {s : SortSession} (h : s.phase = .merging) : s.batchRank = 0 := by
  rw [batchRank, h]

theorem GroupOn.lower {s s' : SortSession} (c : Choice) (h : GroupOn s s')
    (hphase : s.phase = .merging) (hat : s.inverseAt ≤ s.records)
    (hlt : s'.phaseLeft < s.phaseLeft) : RoundOn s c s' :=
  .lower h.same (h.placed hat) (roundRank_lt_of_left (h.phase.trans hphase.symm)
    ((batchRank_merging h.phase).trans (batchRank_merging hphase).symm) hlt)

/-- The stage of a group comes down. -/
def StageLower (tree tree' : Tree) : Prop :=
  (stageRank tree').1 < (stageRank tree).1 ∨ (stageRank tree').1 = (stageRank tree).1 ∧
    ((stageRank tree').2.1 < (stageRank tree).2.1 ∨
      (stageRank tree').2.1 = (stageRank tree).2.1 ∧ (stageRank tree').2.2 < (stageRank tree).2.2)

/-- In one pass the group and its stage decide. -/
theorem GroupOn.phaseLeft_lt {s s' : SortSession} (h : GroupOn s s') (hphase : s.phase = .merging)
    (hlt : s.groupStart < s'.groupStart ∧ s.groupStart < s.records ∨
      s'.groupStart = s.groupStart ∧ StageLower s.tree s'.tree) :
    s'.phaseLeft < s.phaseLeft := by
  rw [phaseLeft_merging hphase, phaseLeft_merging h.phase, h.runWidth, h.same.records, five_lt]
  rw [StageLower] at hlt
  omega

/-- A stage that is not left waits for a comparison. -/
def StageOn (s : SortSession) (c : Choice) (s' : SortSession) : Prop :=
  GroupOn s s' ∧ (s'.phaseLeft < s.phaseLeft ∨
    s' = s ∧ (treeContest s.tree).isSome ∧ c.greater = none)

theorem play_none {node : Nat} {c : Choice} {tree : Tree} (h : play node c tree = .ok none)
    (hstage : tree.stage = .build node ∨ tree.stage = .replay node) :
    (treeContest tree).isSome ∧ c.greater = none := by
  have hcontest : treeContest tree =
      match tree.nodes.getD (node * 2) none, tree.nodes.getD (node * 2 + 1) none with
      | some left, some right =>
        match (tree.runs[left]?).bind Run.head, (tree.runs[right]?).bind Run.head with
        | some a, some b => some (a, b)
        | _, _ => none
      | _, _ => none := by
    rcases hstage with heq | heq <;> rw [treeContest, heq]
  rw [hcontest]
  revert h
  unfold play
  cases tree.nodes.getD (node * 2) none with
  | none => exact fun h => by cases h
  | some left =>
  cases tree.nodes.getD (node * 2 + 1) none with
  | none => exact fun h => by cases h
  | some right =>
  dsimp only
  cases (tree.runs[left]?).bind Run.head with
  | none => exact fun h => by cases h
  | some a =>
  cases (tree.runs[right]?).bind Run.head with
  | none => exact fun h => by cases h
  | some b =>
  dsimp only
  cases c.fault with
  | some fault => exact fun h => by cases h
  | none =>
  cases c.greater with
  | none => exact fun _ => ⟨rfl, rfl⟩
  | some greater => exact fun h => by cases h

/-- The winner of a node is set and the tree goes on with `stage`. -/
theorem setWinner_on {s : SortSession} (h : s.MergesAt) (hphase : s.phase = .merging)
    (hbusy : s.tree.stage ≠ .idle) (node : Nat) (winner : Option Nat) {stage : Stage}
    (hstage : stage ≠ .idle)
    (hlt : StageLower s.tree { s.tree with
      nodes := s.tree.nodes.set node winner, stage := stage }) (c : Choice) :
    StageOn s c (setWinner node winner stage s) := by
  have hgroup := h.group
  rw [if_neg hbusy] at hgroup
  have hon : GroupOn s (setWinner node winner stage s) := by
    refine ⟨⟨rfl, rfl, rfl, rfl, rfl⟩, rfl, hphase,
      ⟨⟨h.fanIn, h.width, h.runs, h.some_run, h.pages⟩, h.unmerged, ?_⟩, rfl⟩
    rw [if_neg (show (setWinner node winner stage s).tree.stage ≠ .idle from hstage)]
    exact hgroup
  exact ⟨hon, .inl (hon.phaseLeft_lt hphase (.inr ⟨rfl, hlt⟩))⟩

theorem mergeStage_on (c : Choice) {s : SortSession} (h : s.MergesAt)
    (hphase : s.phase = .merging) (hbusy : s.tree.stage ≠ .idle) :
    Exec.Triple (fun p : SortSession × SortResources => p.1 = s) (mergeStage c)
      (fun _ p => StageOn s c p.1) (fun _ _ => True) := by
  rintro ⟨s', r⟩ hp
  obtain rfl : s' = s := hp
  have hplayed : ∀ node stage (goesOn : Option (Option Nat) → SortM Unit),
      goesOn none = pure () →
      (∀ winner, goesOn (some winner) = Exec.modify (setWinner node winner stage)) →
      (s'.tree.stage = .build node ∨ s'.tree.stage = .replay node) → stage ≠ .idle →
      (∀ winner, StageLower s'.tree { s'.tree with
        nodes := s'.tree.nodes.set node winner, stage := stage }) →
      Exec.Triple (fun p => p = (s', r)) (Exec.ofExcept (play node c s'.tree) >>= goesOn)
        (fun _ p => StageOn s' c p.1) fun _ _ => True := by
    intro node stage goesOn hnone hsome hold hnew hlt
    refine .ofExcept_bind (fun winner hplay => ?_) fun _ _ _ _ => trivial
    cases winner with
    | none =>
      rw [hnone]
      refine .pure ?_
      rintro _ rfl
      exact ⟨.refl hphase h, .inr ⟨rfl, play_none hplay hold⟩⟩
    | some winner =>
      rw [hsome]
      refine .modify ?_
      rintro _ _ ⟨⟩
      exact setWinner_on h hphase hbusy node winner hnew (hlt winner) c
  simp only [mergeStage, Exec.run_get_bind]
  cases hstage : s'.tree.stage with
  | idle => exact absurd hstage hbusy
  | build node =>
    refine hplayed node _ _ rfl (fun _ => rfl) (.inl hstage) ?_ (fun winner => ?_) (s', r) rfl
    · split <;> (intro heq; cases heq)
    · by_cases hnode : 1 < node
      · simp only [StageLower, stageRank, hstage, if_pos hnode]
        exact .inr ⟨trivial, .inl (by omega)⟩
      · simp only [StageLower, stageRank, hstage, if_neg hnode]
        exact .inl Nat.one_pos
  | replay node =>
    refine hplayed node _ _ rfl (fun _ => rfl) (.inr hstage) ?_ (fun winner => ?_) (s', r) rfl
    · split <;> (intro heq; cases heq)
    · by_cases hnode : 1 < node
      · simp only [StageLower, stageRank, hstage, if_pos hnode]
        exact .inr ⟨trivial, .inr ⟨trivial, by omega⟩⟩
      · simp only [StageLower, stageRank, hstage, if_neg hnode]
        exact .inr ⟨trivial, .inr ⟨trivial, Nat.succ_pos _⟩⟩
  | emit =>
    dsimp only
    cases s'.tree.nodes.getD 1 none with
    | none =>
      have hgroup := h.group
      rw [if_neg hbusy] at hgroup
      have hon : GroupOn s' { s' with
          groupStart := s'.tree.groupEnd
          tree := { s'.tree with stage := .idle } } :=
        ⟨⟨rfl, rfl, rfl, rfl, rfl⟩, rfl, hphase,
          ⟨⟨h.fanIn, h.width, h.runs, h.some_run, h.pages⟩, h.unmerged, hgroup.2⟩, rfl⟩
      exact ⟨hon, .inl (hon.phaseLeft_lt hphase
        (.inl ⟨hgroup.1, Nat.lt_of_lt_of_le hgroup.1 hgroup.2⟩))⟩
    | some index =>
      have hemit := emit_on index c h hphase hbusy (s', r) rfl
      dsimp only
      generalize emit index c (s', r) = result at hemit ⊢
      obtain ⟨error | ⟨⟩, s'', r'⟩ := result
      · trivial
      · obtain ⟨hon, hstart, hleft, node, hreplay⟩ := hemit
        refine ⟨hon, .inl (hon.phaseLeft_lt hphase (.inr ⟨hstart, ?_⟩))⟩
        simp only at hreplay hleft
        simp only [StageLower, stageRank, hstage, hreplay]
        exact .inr ⟨trivial, .inl (by omega)⟩

theorem mergeDisk_on (c : Choice) {s : SortSession} (hrecords : s.records < u64Bound)
    (hat : s.inverseAt ≤ s.records) (h : s.MergesAt) (hphase : s.phase = .merging) :
    Exec.Triple (fun p : SortSession × SortResources => p.1 = s) (mergeDisk c)
      (fun _ p => RoundOn s c p.1) (fun _ _ => True) := by
  rintro ⟨s', r⟩ hp
  obtain rfl : s' = s := hp
  simp only [mergeDisk, Exec.run_get_bind]
  by_cases hidle : s'.tree.stage = .idle
  · rw [if_pos hidle]
    by_cases hend : s'.groupStart = s'.records
    · rw [if_pos hend]
      -- the pass is over, and its runs are wider than those it was made from
      simp only [bind]
      have hwide : s'.runWidth < min (s'.runWidth * s'.mergeFanIn) (u64Bound - 1) := by
        have hmore := Nat.mul_le_mul_left s'.runWidth h.fanIn
        have hwidth := h.width
        have hunmerged := h.unmerged
        omega
      generalize min (s'.runWidth * s'.mergeFanIn) (u64Bound - 1) = width at hwide ⊢
      have hbegun := beginDiskMerge_begun c.os (s := { s' with
        runFile := s'.passFile
        passFile := none
        runWidth := width }) ⟨h.fanIn, Nat.one_le_of_lt hwide, h.runs, h.some_run, h.pages⟩
        (_, release DiskFile.drop s'.runFile r) rfl
      generalize beginDiskMerge c.os ({ s' with
        runFile := s'.passFile
        passFile := none
        runWidth := width }, release DiskFile.drop s'.runFile r) = result at hbegun ⊢
      obtain ⟨error | ⟨⟩, s'', r'⟩ := result
      · trivial
      obtain ⟨⟨hcapacity, hunread, hscanner, hpending, hsame⟩, hinverse, hat', hnext⟩ := hbegun
      refine .lower ⟨hcapacity, hunread, hscanner, hpending, hsame⟩ ⟨?_, hat'⟩ ?_
      · rw [hinverse, hsame]
        exact hat
      rcases hnext with hbuilding | ⟨hmerging, hrunWidth⟩
      · refine roundRank_lt_of_phase ?_
        rw [hbuilding, hphase]
        decide
      · refine roundRank_lt_of_left (hmerging.trans hphase.symm)
          ((batchRank_merging hmerging).trans (batchRank_merging hphase).symm) ?_
        rw [phaseLeft_merging hmerging, phaseLeft_merging hphase, hrunWidth, hsame, five_lt]
        have hunmerged := h.unmerged
        dsimp only
        omega
    · rw [if_neg hend]
      have hstart := startGroup_on c h hphase hidle hend (s', r) rfl
      rcases hrun : startGroup c (s', r) with ⟨error | ⟨⟩, s₁, r₁⟩
      · rw [Exec.run_bind_error hrun]
        trivial
      rw [hrun] at hstart
      obtain ⟨hon, hgroup, hbusy, -⟩ := hstart
      rw [Exec.run_bind_ok hrun]
      have hlower : s₁.phaseLeft < s'.phaseLeft := by
        refine hon.phaseLeft_lt hphase (.inr ⟨hgroup, .inl ?_⟩)
        simp only [stageRank, hidle]
        cases hstage : s₁.tree.stage with
        | idle => exact absurd hstage hbusy
        | build node => exact Nat.one_lt_two
        | emit => exact Nat.two_pos
        | replay node => exact Nat.two_pos
      have hstage := mergeStage_on c hon.merges hon.phase hbusy (s₁, r₁) rfl
      generalize mergeStage c (s₁, r₁) = result at hstage ⊢
      obtain ⟨error | ⟨⟩, s₂, r₂⟩ := result
      · trivial
      obtain ⟨hon', hlt | ⟨hheld, -⟩⟩ := hstage
      · exact (hon.trans hon').lower c hphase hat (hlt.trans hlower)
      · obtain rfl : s₂ = s₁ := hheld
        exact hon.lower c hphase hat hlower
  · rw [if_neg hidle]
    have hstage := mergeStage_on c h hphase hidle (s', r) rfl
    generalize mergeStage c (s', r) = result at hstage ⊢
    obtain ⟨error | ⟨⟩, s₂, r₂⟩ := result
    · trivial
    obtain ⟨hon, hlt | ⟨hheld, hcontest, hgreater⟩⟩ := hstage
    · exact hon.lower c hphase hat hlt
    · obtain rfl : s₂ = s' := hheld
      refine .held ?_ hgreater (.refl _) (hon.placed hat) rfl
      simp only [contest, hphase]
      rwa [if_neg hidle]

/-! ### The order and its inverse -/

/-- Only what is in the buffers of a builder may differ. -/
structure SamePlace (builder builder' : InverseBuilder) : Prop where
  records : builder'.records = builder.records
  bucketRows : builder'.bucketRows = builder.bucketRows
  buckets : builder'.buckets = builder.buckets
  bucket : builder'.bucket = builder.bucket
  read : builder'.read = builder.read

theorem SamePlace.trans {b b' b'' : InverseBuilder} (h : SamePlace b b') (h' : SamePlace b' b'') :
    SamePlace b b'' :=
  ⟨h'.records.trans h.records, h'.bucketRows.trans h.bucketRows, h'.buckets.trans h.buckets,
    h'.bucket.trans h.bucket, h'.read.trans h.read⟩

theorem SamePlace.bucketLen {b b' : InverseBuilder} (h : SamePlace b b') (bucket : Nat) :
    b'.bucketLen bucket = b.bucketLen bucket := by
  simp only [InverseBuilder.bucketLen, InverseBuilder.bucketStart, h.records, h.bucketRows]

theorem SamePlace.places {b b' : InverseBuilder} (h : SamePlace b b') (hb : PlacesAt b) :
    PlacesAt b' := by
  refine ⟨h.bucketRows ▸ hb.bucketRows, ?_, ?_, ?_⟩
  · rw [h.buckets, h.records, h.bucketRows]
    exact hb.buckets
  · rw [h.bucket, h.buckets]
    exact hb.bucket
  · rw [h.bucket, h.buckets, h.read, h.bucketLen]
    exact hb.read

theorem flush_samePlace {bucket : Nat} {written : Answer} {b b' : InverseBuilder}
    (h : b.flush bucket written = .ok b') : SamePlace b b' := by
  unfold InverseBuilder.flush at h
  dsimp only at h
  split at h
  · cases h
    exact ⟨rfl, rfl, rfl, rfl, rfl⟩
  split at h
  · cases h
  split at h
  · cases h
  · cases h
    exact ⟨rfl, rfl, rfl, rfl, rfl⟩

theorem push_samePlace {row rank : Nat} {written : Answer} {b b' : InverseBuilder}
    (h : b.push row rank written = .ok b') : SamePlace b b' := by
  unfold InverseBuilder.push at h
  split at h
  · cases h
  dsimp only at h
  split at h
  · have hflush := flush_samePlace h
    exact ⟨hflush.records, hflush.bucketRows, hflush.buckets, hflush.bucket, hflush.read⟩
  · cases h
    exact ⟨rfl, rfl, rfl, rfl, rfl⟩

theorem finishFrom_samePlace {os : Answers} {count bucket : Nat} {b b' : InverseBuilder}
    (h : InverseBuilder.finishFrom os count bucket b = .ok b') : SamePlace b b' := by
  induction count generalizing bucket b with
  | zero =>
    cases h
    exact ⟨rfl, rfl, rfl, rfl, rfl⟩
  | succ count ih =>
    unfold InverseBuilder.finishFrom at h
    split at h
    · cases h
    · rename_i next hflush
      split at h
      · cases h
      · exact (flush_samePlace hflush).trans (ih h)

theorem onBuilder_on (action : InverseBuilder → Except SortError InverseBuilder)
    (haction : ∀ b b', action b = .ok b' → SamePlace b b') (s : SortSession) :
    Exec.Triple (fun p : SortSession × SortResources => p.1 = s) (onBuilder action)
      (fun _ p => ∃ b b', s.inverseBuilder = some b ∧ SamePlace b b' ∧
        p.1 = { s with inverseBuilder := some b' }) (fun _ _ => True) := by
  rintro ⟨s', r⟩ hp
  obtain rfl : s' = s := hp
  simp only [onBuilder, Exec.run_get_bind]
  cases s'.inverseBuilder with
  | none => trivial
  | some b =>
    cases hresult : action b with
    | error error =>
      dsimp only
      rw [hresult]
      trivial
    | ok b' =>
      dsimp only
      rw [hresult]
      exact ⟨b, b', rfl, haction b b' hresult, rfl⟩

/-- Placing a chunk ends a bucket, or reads on in it. -/
theorem place_on {placed : Except Fault Unit} {b : InverseBuilder} (h : PlacesAt b)
    {b' : InverseBuilder} (hplace : b.place (placed.mapError Fault.error) = .ok (false, b')) :
    PlacesAt b' ∧ ((bucketLeft b').1 < (bucketLeft b).1 ∨
      (bucketLeft b').1 = (bucketLeft b).1 ∧ (bucketLeft b').2 < (bucketLeft b).2) := by
  have hle := h.bucket
  unfold InverseBuilder.place at hplace
  split at hplace
  · cases hplace
  rename_i hne
  have hread := h.read (by omega)
  cases placed with
  | error fault => cases hplace
  | ok done =>
  simp only [Except.mapError, Except.ok.injEq, Prod.mk.injEq] at hplace
  obtain ⟨hmore, rfl⟩ := hplace
  split at hmore <;> rename_i hend
  · have hnext : b.bucket + 1 ≠ b.buckets := of_decide_eq_false hmore
    rw [if_pos hend]
    refine ⟨⟨h.bucketRows, h.buckets, by dsimp only; omega, fun hlt => ?_⟩, .inl ?_⟩
    · exact Nat.mul_pos (bucketLen_pos b h.bucketRows h.buckets (by omega)) (by decide)
    · simp only [bucketLeft]
      omega
  · rw [if_neg hend]
    have hchunk : 0 < chunkBytes := by decide
    refine ⟨⟨h.bucketRows, h.buckets, hle, fun _ => ?_⟩, .inr ⟨rfl, ?_⟩⟩
    · change _ < b.bucketLen b.bucket * pairBytes
      dsimp only
      omega
    · simp only [bucketLeft]
      change b.bucketLen b.bucket * pairBytes - _ < _
      omega

theorem phaseLeft_building {s : SortSession} (h : s.phase = .buildingInverse) :
    s.phaseLeft = five (s.records - s.inverseAt) (if s.runFile.isSome then 1 else 0)
      (s.inverseBuilder.elim (0, 0) bucketLeft).1 (s.inverseBuilder.elim (0, 0) bucketLeft).2
        0 := by
  rw [phaseLeft, h]

/-- A round that goes on with the maps comes down. -/
theorem builds_lower {s s' : SortSession} (c : Choice) (hphase : s.phase = .buildingInverse)
    (hphase' : s'.phase = .buildingInverse) (hsame : SameReader s s')
    (hat : s'.inverseAt ≤ s'.records) (hbuilds : s'.BuildsAt)
    (hlt : five (s'.records - s'.inverseAt) (if s'.runFile.isSome then 1 else 0)
        (s'.inverseBuilder.elim (0, 0) bucketLeft).1
        (s'.inverseBuilder.elim (0, 0) bucketLeft).2 0 <
      five (s.records - s.inverseAt) (if s.runFile.isSome then 1 else 0)
        (s.inverseBuilder.elim (0, 0) bucketLeft).1
        (s.inverseBuilder.elim (0, 0) bucketLeft).2 0) : RoundOn s c s' := by
  refine .lower hsame ⟨hat, ?_⟩ (roundRank_lt_of_left (hphase'.trans hphase.symm) ?_ ?_)
  · rw [PhaseAt, hphase']
    exact hbuilds
  · rw [batchRank, batchRank, hphase, hphase']
  · rwa [phaseLeft_building hphase, phaseLeft_building hphase']

theorem buildMaps_on (c : Choice) {s : SortSession} (hat : s.inverseAt ≤ s.records)
    (h : s.BuildsAt) (hphase : s.phase = .buildingInverse) :
    Exec.Triple (fun p : SortSession × SortResources => p.1 = s) (buildMaps c)
      (fun _ p => RoundOn s c p.1) (fun _ _ => True) := by
  rintro ⟨s', r⟩ hp
  obtain rfl : s' = s := hp
  simp only [buildMaps, Exec.run_get_bind]
  by_cases hall : s'.inverseAt = s'.records
  · rw [if_pos hall]
    by_cases hrun : s'.runFile.isSome
    · rw [if_pos hrun]
      have hfinish := onBuilder_on (InverseBuilder.finishCollecting
        fun bucket => c.os (bucket + 1)) (fun _ _ hfinished => finishFrom_samePlace hfinished) s'
        (s', r) rfl
      rcases hfirst : onBuilder (InverseBuilder.finishCollecting fun bucket => c.os (bucket + 1))
        (s', r) with ⟨error | ⟨⟩, s₁, r₁⟩
      · rw [Exec.run_bind_error hfirst]
        trivial
      rw [hfirst] at hfinish
      obtain ⟨b, b', hb, hsame, hs₁⟩ := hfinish
      obtain rfl : s₁ = { s' with inverseBuilder := some b' } := hs₁
      rw [Exec.run_bind_ok hfirst]
      have hwritten := onOrder_runs (DiskFile.finishWriting (c.os 0))
        { s' with inverseBuilder := some b' } (_, r₁) rfl
      simp only [bind]
      generalize onOrder (DiskFile.finishWriting (c.os 0))
        ({ s' with inverseBuilder := some b' }, r₁) = result at hwritten ⊢
      obtain ⟨error | ⟨⟩, s₂, r₂⟩ := result
      · trivial
      obtain ⟨file, hs₂⟩ := hwritten
      obtain rfl : s₂ = { s' with inverseBuilder := some b', order := some file } := hs₂
      refine builds_lower c hphase hphase ⟨rfl, rfl, rfl, rfl, rfl⟩ hat ?_ ?_
      · rintro _ ⟨⟩
        exact hsame.places (h b hb)
      · rw [if_pos hrun, five_lt]
        exact .inr ⟨rfl, .inl Nat.one_pos⟩
    · rw [if_neg hrun]
      cases hbuilder : s'.inverseBuilder with
      | none => trivial
      | some b =>
        dsimp only
        cases hplace : b.place (c.placed.mapError Fault.error) with
        | error error => trivial
        | ok placed =>
          obtain ⟨done, b'⟩ := placed
          cases done with
          | true =>
            refine .lower ⟨rfl, rfl, rfl, rfl, rfl⟩ ⟨hat, trivial⟩ (roundRank_lt_of_phase ?_)
            rw [hphase]
            exact Nat.one_pos
          | false =>
            obtain ⟨hplaces, hlt⟩ := place_on (h b hbuilder) hplace
            refine builds_lower c hphase hphase ⟨rfl, rfl, rfl, rfl, rfl⟩ hat ?_ ?_
            · rintro _ ⟨⟩
              exact hplaces
            · rw [hbuilder, five_lt]
              exact .inr ⟨rfl, .inr ⟨rfl, by simpa using hlt⟩⟩
  · rw [if_neg hall]
    rcases c.os 0 with error | done
    · trivial
    have hwritten := onOrder_runs (DiskFile.append orderBytes (c.os 1)) s' (s', r) rfl
    simp only [bind, Answer.check, Exec.ofExcept, Except.mapError]
    generalize onOrder (DiskFile.append orderBytes (c.os 1)) (s', r) = result at hwritten ⊢
    obtain ⟨error | ⟨⟩, s₁, r₁⟩ := result
    · trivial
    obtain ⟨file, hs₁⟩ := hwritten
    obtain rfl : s₁ = { s' with order := some file } := hs₁
    dsimp only
    have hpush := onBuilder_on (InverseBuilder.push c.row s'.inverseAt (c.os 2))
      (fun _ _ hpushed => push_samePlace hpushed) { s' with order := some file } (_, r₁) rfl
    generalize onBuilder (InverseBuilder.push c.row s'.inverseAt (c.os 2))
      ({ s' with order := some file }, r₁) = result at hpush ⊢
    obtain ⟨error | ⟨⟩, s₂, r₂⟩ := result
    · trivial
    obtain ⟨b, b', hb, hsame, hs₂⟩ := hpush
    obtain rfl : s₂ = { s' with order := some file, inverseBuilder := some b' } := hs₂
    refine builds_lower c hphase hphase ⟨rfl, rfl, rfl, rfl, rfl⟩ ?_ ?_ ?_
    · change s'.inverseAt + 1 ≤ s'.records
      omega
    · rintro _ ⟨⟩
      exact hsame.places (h b hb)
    · refine five_lt.mpr (.inl ?_)
      change s'.records - (s'.inverseAt + 1) < s'.records - s'.inverseAt
      omega

/-! ### Reading the source -/

/-- What is still to be read: records, the one that has been found, and the end. -/
def readLeft (s : SortSession) : Nat :=
  2 * s.unread + (if s.pending then 1 else 0) + (if s.scanner then 1 else 0)

/-- Reading comes first, since every record that is read makes more to do behind it. -/
def rank (s : SortSession) : ℕ ×ₗ ℕ ×ₗ ℕ ×ₗ Five := toLex (s.readLeft, s.roundRank)

def AtEnd (s : SortSession) : Prop := s.phase = .complete ∨ s.phase = .cancelled

/-- The round has read bytes of the source, and neither a record nor its key ends in them. -/
def ReadsOn (s : SortSession) (c : Choice) : Prop :=
  s.phase = .extracting ∧ match c.event with
    | .reading => True
    | .found => s.pending = true ∨ s.unread = 0
    | .record => s.pending = false
    | .finished _ => s.pending = true

/-- The round has come to nothing but a part of a key or a part of the source. -/
inductive Waits (s : SortSession) (c : Choice) : Prop where
  | source (h : s.ReadsOn c) : Waits s c
  | comparison (h : (s.contest c.os).isSome) (hgreater : c.greater = none) : Waits s c

/-- The records that have been seen or will be. -/
def rowsOf (s : SortSession) : Nat := s.records + s.unread + if s.pending then 1 else 0

/-- Where a round can lead. -/
inductive Goes (s : SortSession) (c : Choice) (s' : SortSession) : Prop where
  | ends (h : s'.AtEnd) : Goes s c s'
  | lower (hrows : s'.rowsOf ≤ s.rowsOf) (h : s'.Placed) (hlt : s'.rank < s.rank) : Goes s c s'
  | waits (hrows : s'.rowsOf ≤ s.rowsOf) (h : s'.Placed) (hrank : s'.rank = s.rank)
      (hwaits : s.Waits c) : Goes s c s'

theorem SameReader.readLeft {s s' : SortSession} (h : SameReader s s') :
    s'.readLeft = s.readLeft := by
  rw [SortSession.readLeft, SortSession.readLeft, h.unread, h.pending, h.scanner]

theorem SameReader.rowsOf {s s' : SortSession} (h : SameReader s s') : s'.rowsOf = s.rowsOf := by
  rw [SortSession.rowsOf, SortSession.rowsOf, h.records, h.unread, h.pending]

theorem RoundOn.goes {s s' : SortSession} {c : Choice} (h : RoundOn s c s') : Goes s c s' := by
  cases h with
  | lower hsame hplaced hlt =>
    refine .lower hsame.rowsOf.le hplaced (Prod.Lex.toLex_lt_toLex.mpr (.inr ⟨?_, hlt⟩))
    exact hsame.readLeft
  | held hcontest hgreater hsame hplaced hrank =>
    refine .waits hsame.rowsOf.le hplaced ?_ (.comparison hcontest hgreater)
    rw [rank, rank, hsame.readLeft, hrank]

/-- A round that only reads: nothing is done yet with what is read. -/
theorem reads_lower {s s' : SortSession} (c : Choice) (hrows : s'.rowsOf ≤ s.rowsOf)
    (hphase : s'.phase = .extracting) (hat : s'.inverseAt ≤ s'.records) (h : s'.Mergeable)
    (hlt : s'.readLeft < s.readLeft) : Goes s c s' := by
  refine .lower hrows ⟨hat, ?_⟩ (Prod.Lex.toLex_lt_toLex.mpr (.inl hlt))
  rw [PhaseAt, hphase]
  exact h

theorem reads_on {s : SortSession} {c : Choice} (hat : s.inverseAt ≤ s.records)
    (h : s.Mergeable) (hreads : s.ReadsOn c) : Goes s c s := by
  refine .waits (Nat.le_refl _) ⟨hat, ?_⟩ rfl (.source hreads)
  rw [PhaseAt, hreads.1]
  exact h

/-- No record is pending, and the batch is full or the source at its end. -/
theorem extractFull_on (c : Choice) {s : SortSession} (hat : s.inverseAt ≤ s.records)
    (h : s.Mergeable) (hphase : s.phase = .extracting) (hpending : s.pending = false)
    (hfull : s.batch = s.batchCapacity ∨ s.scanner = false) :
    Exec.Triple (fun p : SortSession × SortResources => p.1 = s) (extract c)
      (fun _ p => RoundOn s c p.1) (fun _ _ => True) := by
  rintro ⟨s', r⟩ hp
  obtain rfl : s' = s := hp
  simp only [extract]
  cases c.fault with
  | some fault => trivial
  | none =>
  simp only [Exec.run_get_bind, hpending, Bool.false_eq_true, if_false, if_pos hfull]
  by_cases hempty : s'.batch = 0
  · rw [if_pos hempty]
    have hbegun := beginDiskMerge_begun c.os h (s', r) rfl
    generalize beginDiskMerge c.os (s', r) = result at hbegun ⊢
    obtain ⟨error | ⟨⟩, s'', r'⟩ := result
    · trivial
    obtain ⟨hsame, hinverse, hat', hnext⟩ := hbegun
    refine .lower hsame ⟨?_, hat'⟩ (roundRank_lt_of_phase ?_)
    · rw [hinverse, hsame.records]
      exact hat
    · rw [hphase]
      rcases hnext with hbuilding | ⟨hmerging, -⟩
      · rw [hbuilding]
        decide
      · rw [hmerging]
        decide
  · rw [if_neg hempty]
    refine .lower ⟨rfl, rfl, rfl, rfl, rfl⟩ ⟨hat, ?_⟩ (roundRank_lt_of_batch ?_ ?_)
    · exact ⟨⟨h.fanIn, h.width, h.runs, h.some_run, h.pages⟩,
        ⟨Nat.le_refl _, Nat.le_refl _, Nat.zero_le _, Nat.zero_le _, fun _ => rfl⟩⟩
    · rw [hphase]
      rfl
    · rw [batchRank, batchRank, hphase, if_neg hempty]
      exact Nat.one_lt_two


theorem extract_on (c : Choice) {s : SortSession} (hat : s.inverseAt ≤ s.records)
    (h : s.Mergeable) (hphase : s.phase = .extracting) :
    Exec.Triple (fun p : SortSession × SortResources => p.1 = s) (extract c)
      (fun _ p => Goes s c p.1) (fun _ _ => True) := by
  by_cases hpending : s.pending = true
  · rintro ⟨s', r⟩ hp
    obtain rfl : s' = s := hp
    simp only [extract]
    cases c.fault with
    | some fault => trivial
    | none =>
    simp only [Exec.run_get_bind, hpending, if_true, Exec.modify]
    by_cases hrecord : c.event = .record
    · simp only [hrecord, if_true]
      refine reads_lower c ?_ hphase ?_ ⟨h.fanIn, h.width, h.runs, h.some_run, h.pages⟩ ?_
      · simp [rowsOf, hpending]
        omega
      · exact Nat.le_succ_of_le hat
      · simp [readLeft, hpending]
    · simp only [if_neg hrecord]
      refine reads_on hat h ⟨hphase, ?_⟩
      cases hevent : c.event with
      | reading => trivial
      | found => exact .inl hpending
      | record => exact absurd hevent hrecord
      | finished last => exact hpending
  rw [Bool.not_eq_true] at hpending
  by_cases hfull : s.batch = s.batchCapacity ∨ s.scanner = false
  · exact (extractFull_on c hat h hphase hpending hfull).post_mono fun _ _ hround => hround.goes
  rintro ⟨s', r⟩ hp
  obtain rfl : s' = s := hp
  have hscanner : s'.scanner = true := by
    rw [not_or, Bool.not_eq_false] at hfull
    exact hfull.2
  have hmergeable : ∀ unread pending scanner,
      Mergeable { s' with unread := unread, pending := pending, scanner := scanner } :=
    fun _ _ _ => ⟨h.fanIn, h.width, h.runs, h.some_run, h.pages⟩
  simp only [extract]
  cases c.fault with
  | some fault => trivial
  | none =>
  simp only [Exec.run_get_bind, hpending, Bool.false_eq_true, if_false, if_neg hfull]
  simp only [Exec.modify]
  cases hevent : c.event with
  | reading => exact reads_on hat h ⟨hphase, by rw [hevent]; trivial⟩
  | record => exact reads_on hat h ⟨hphase, by rw [hevent]; exact hpending⟩
  | found =>
    by_cases hunread : 0 < s'.unread
    · rw [if_pos hunread]
      refine reads_lower c ?_ hphase hat (hmergeable _ _ _) ?_
      · simp [rowsOf, hpending]
        omega
      · simp [readLeft, hpending]
        omega
    · rw [if_neg hunread]
      exact reads_on hat h ⟨hphase, by rw [hevent]; exact .inr (Nat.eq_zero_of_not_pos hunread)⟩
  | finished last =>
    dsimp only
    by_cases hlast : last = true ∧ 0 < s'.unread
    · rw [if_pos hlast]
      refine reads_lower c ?_ hphase hat (hmergeable _ _ _) ?_
      · simp [rowsOf, hpending]
        omega
      · simp [readLeft, hpending, hscanner]
        omega
    · rw [if_neg hlast]
      refine reads_lower c (Nat.le_refl _) hphase hat (hmergeable _ _ _) ?_
      simp [readLeft, hscanner]

/-! ### Rounds -/

theorem step_goes (c : Choice) {s : SortSession} (hrows : s.rowsOf < u64Bound) (h : s.Placed) :
    Exec.Triple (fun p : SortSession × SortResources => p.1 = s) (step c)
      (fun _ p => Goes s c p.1) (fun _ _ => True) := by
  have hat := h.inverseAt
  have hphase := h.phase
  have hrecords : s.records < u64Bound := by
    unfold rowsOf at hrows
    omega
  rw [PhaseAt] at hphase
  rintro ⟨s', r⟩ hp
  obtain rfl : s' = s := hp
  simp only [step, Exec.run_get_bind]
  by_cases hcancelled : c.cancelled = true
  · rw [if_pos hcancelled]
    exact .ends (.inr rfl)
  rw [if_neg hcancelled]
  cases hs : s'.phase with
  | extracting =>
    rw [hs] at hphase
    exact extract_on c hat hphase hs (s', r) rfl
  | sortingRuns =>
    rw [hs] at hphase
    exact (sortBatch_on c hat hphase.1 hphase.2 hs).post_mono (fun _ _ hround => hround.goes)
      (s', r) rfl
  | merging =>
    rw [hs] at hphase
    exact (mergeDisk_on c hrecords hat hphase hs).post_mono (fun _ _ hround => hround.goes)
      (s', r) rfl
  | buildingInverse =>
    rw [hs] at hphase
    exact (buildMaps_on c hat hphase hs).post_mono (fun _ _ hround => hround.goes) (s', r) rfl
  | complete => exact .ends (.inl hs)
  | cancelled => exact .ends (.inr hs)

theorem new_placed (rows batchCapacity mergeFanIn stepBytes owner : Nat) (os : Answers) :
    Exec.Triple (fun _ => True) (new rows batchCapacity mergeFanIn stepBytes owner os)
      (fun s _ => s.Placed ∧ s.rowsOf = rows) (fun _ _ => True) := by
  unfold new
  split
  · exact .throw fun _ _ => trivial
  rename_i hconfig
  push Not at hconfig
  generalize fixedBytes = fixed, pageBytes = page
  have hreserve : Exec.Triple (fun _ => True) (SortResources.reserve fixed true)
      (fun _ _ => True) (fun _ _ => True) := fun r _ => by
    generalize SortResources.reserve fixed true r = result
    obtain ⟨error | memory, r⟩ := result <;> trivial
  refine .bind hreserve fun fixedMemory => ?_
  intro r _
  dsimp only
  generalize batchCapacity * descriptorSize * 2 + mergeFanIn * (page + treeBytesPerRun) = bytes
  generalize SortResources.reserve bytes true r = reserved
  obtain ⟨e | mergeMemory, r₁⟩ := reserved
  · trivial
  dsimp only
  generalize DiskFile.create owner (os 0) (os 1) r₁ = created
  obtain ⟨e | file, r₂⟩ := created
  · trivial
  refine ⟨⟨Nat.le_refl 0, ⟨hconfig.2.1, ?_, runs_new _ _, ?_, Nat.le_refl 1⟩⟩, ?_⟩
  · exact Nat.pos_of_ne_zero hconfig.1
  · have hfanIn := hconfig.2.1
    simp only [Tree.new, ne_eq, List.replicate_eq_nil_iff]
    omega
  · simp [rowsOf]

/-- A sort from its beginning on, round by round: between two rounds other sorts may change
what is reserved. -/
structure Rounds (rows batchCapacity mergeFanIn stepBytes owner : Nat) (os : Answers)
    (s : ℕ → SortSession) (c : ℕ → Choice) : Prop where
  starts : ∃ r r', new rows batchCapacity mergeFanIn stepBytes owner os r = (.ok (s 0), r')
  goes_on : ∀ k, ∃ r r', step (c k) (s k, r) = (.ok (), s (k + 1), r')

section Rounds
variable {rows batchCapacity mergeFanIn stepBytes owner : Nat} {os : Answers}
  {s : ℕ → SortSession} {c : ℕ → Choice}

theorem Rounds.placed (h : Rounds rows batchCapacity mergeFanIn stepBytes owner os s c)
    (hrows : rows < u64Bound) (hopen : ∀ k, ¬ (s k).AtEnd) (k : ℕ) :
    (s k).Placed ∧ (s k).rowsOf ≤ rows := by
  induction k with
  | zero =>
    obtain ⟨r, r', hnew⟩ := h.starts
    have hplaced := new_placed rows batchCapacity mergeFanIn stepBytes owner os r trivial
    rw [hnew] at hplaced
    exact ⟨hplaced.1, hplaced.2.le⟩
  | succ k ih =>
    obtain ⟨r, r', hstep⟩ := h.goes_on k
    have hgoes := step_goes (c k) (ih.2.trans_lt hrows) ih.1 (s k, r) rfl
    rw [hstep] at hgoes
    cases hgoes with
    | ends hend => exact absurd hend (hopen (k + 1))
    | lower hle hplaced _ => exact ⟨hplaced, hle.trans ih.2⟩
    | waits hle hplaced _ _ => exact ⟨hplaced, hle.trans ih.2⟩

/-- Nothing but waiting keeps a sort from its end: where rounds that do not wait for the source
or for a comparison come again and again, it ends. -/
theorem rounds_come_to_an_end (h : Rounds rows batchCapacity mergeFanIn stepBytes owner os s c)
    (hrows : rows < u64Bound) (hon : ∀ k, ∃ m, k ≤ m ∧ ¬ (s m).Waits (c m)) :
    ∃ k, (s k).AtEnd := by
  by_contra hnone
  push Not at hnone
  have hgoes : ∀ k, Goes (s k) (c k) (s (k + 1)) := fun k => by
    obtain ⟨hplaced, hle⟩ := h.placed hrows hnone k
    obtain ⟨r, r', hstep⟩ := h.goes_on k
    have hgoes := step_goes (c k) (hle.trans_lt hrows) hplaced (s k, r) rfl
    rwa [hstep] at hgoes
  have hanti : Antitone fun k => (s k).rank := antitone_nat_of_succ_le fun k => by
    cases hgoes k with
    | ends hend => exact absurd hend (hnone (k + 1))
    | lower _ _ hlt => exact hlt.le
    | waits _ _ hrank _ => exact hrank.le
  obtain ⟨k, hconstant⟩ := WellFoundedLT.antitone_chain_condition hanti
  obtain ⟨m, hle, hnotWaits⟩ := hon k
  cases hgoes m with
  | ends hend => exact hnone (m + 1) hend
  | waits _ _ _ hwaits => exact hnotWaits hwaits
  | lower _ _ hlt =>
    have hm := hconstant m hle
    have hm' := hconstant (m + 1) (Nat.le_succ_of_le hle)
    rw [← hm, ← hm'] at hlt
    exact lt_irrefl _ hlt

end Rounds

/-- The states of a sort, as long as no round fails. -/
def sessionAt (c : ℕ → Choice) (p : SortSession × SortResources) : ℕ → SortSession × SortResources
  | 0 => p
  | k + 1 => (step (c k) (sessionAt c p k)).2

def smoothRound (event : ScanEvent) (row : Nat) : Choice :=
  ⟨false, none, event, some false, row, .ok (), fun _ => .ok ()⟩

/-- Two rows in runs of one, a merge pass and the maps, and nothing behind that. -/
def twoRowRounds (k : ℕ) : Choice :=
  match k with
  | 0 | 5 => smoothRound .found 0
  | 1 | 6 => smoothRound .record 0
  | 10 => smoothRound (.finished false) 0
  | 20 => smoothRound .reading 1
  | _ => smoothRound .reading 0

def twoRowStart : Except SortError SortSession × SortResources :=
  new 2 1 2 65536 0 (fun _ => .ok ()) freshLedger

def twoRowSession (k : ℕ) : SortSession × SortResources :=
  sessionAt twoRowRounds (twoRowStart.1.toOption.get (by decide +kernel), twoRowStart.2) k

theorem twoRowSession_complete (k : ℕ) : (twoRowSession (23 + k)).1.phase = .complete ∧
    (step (twoRowRounds (23 + k)) (twoRowSession (23 + k))).1 = .ok () := by
  have hstep : ∀ p : SortSession × SortResources, p.1.phase = .complete → ∀ c : Choice,
      c.cancelled = false → step c p = (.ok (), p) := by
    rintro ⟨s, r⟩ hphase c hcancelled
    simp only [step, Exec.run_get_bind, hcancelled, Bool.false_eq_true, if_false]
    rw [show s.phase = .complete from hphase]
    rfl
  have hgoesOn : ∀ k, (twoRowRounds k).cancelled = false := fun k => by
    unfold twoRowRounds
    split <;> rfl
  induction k with
  | zero =>
    have hphase : (twoRowSession 23).1.phase = .complete := by decide +kernel
    exact ⟨hphase, congrArg Prod.fst (hstep _ hphase _ (hgoesOn 23))⟩
  | succ k ih =>
    have hsame : twoRowSession (23 + k + 1) = twoRowSession (23 + k) :=
      congrArg Prod.snd (hstep _ ih.1 _ (hgoesOn (23 + k)))
    have hphase : (twoRowSession (23 + k + 1)).1.phase = .complete := by
      rw [hsame]
      exact ih.1
    exact ⟨hphase, congrArg Prod.fst (hstep _ hphase _ (hgoesOn (23 + k + 1)))⟩

theorem twoRowSession_rounds : Rounds 2 1 2 65536 0 (fun _ => .ok ())
    (fun k => (twoRowSession k).1) twoRowRounds where
  starts := ⟨freshLedger, (twoRowSession 0).2, by decide +kernel⟩
  goes_on k := by
    refine ⟨(twoRowSession k).2, (twoRowSession (k + 1)).2, Prod.ext ?_ rfl⟩
    by_cases hk : k < 23
    · have hfirst : ∀ k < 23, (step (twoRowRounds k) (twoRowSession k)).1 = .ok () := by
        decide +kernel
      exact hfirst k hk
    · obtain ⟨m, rfl⟩ := Nat.exists_eq_add_of_le (Nat.le_of_not_lt hk)
      exact (twoRowSession_complete m).2

theorem rounds_come_to_an_end_two : ∃ k, (twoRowSession k).1.AtEnd := by
  refine rounds_come_to_an_end twoRowSession_rounds (by decide) fun k => ⟨23 + k, by omega, ?_⟩
  intro hwaits
  have hphase := (twoRowSession_complete k).1
  cases hwaits with
  | source h => rw [h.1] at hphase; cases hphase
  | comparison h _ =>
    rw [contest, hphase] at h
    cases h

end SortSession

end LeanRows.Sort
