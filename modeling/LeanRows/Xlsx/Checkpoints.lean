import LeanRows.Lib.Thinning
import LeanRows.Xlsx.RowBounds

/-!
# How dense the checkpoints of a scan are

A row that is found comes behind the rows before it. On a sheet whose rows have consecutive
numbers the scan visits every one of them, so its checkpoints are marks thinned out along the
rows.
-/

set_option autoImplicit false

namespace LeanRows.Xlsx

open Thinning

namespace SheetCursor

variable {S W K : Type}

/-- The rows up to `n` are behind the cursor, and the one it is in comes after them. -/
structure RowsRead (n : Nat) (cursor : SheetCursor S) : Prop where
  lastRow : cursor.lastRow = n
  le : n ≤ xlsxMaxRows
  row : cursor.phase = .inRow → n < cursor.row ∧ cursor.row ≤ xlsxMaxRows

theorem rowsRead_new (stream : S) (part : PartName) (maxTagBytes textLimit : Nat) :
    RowsRead 0 (SheetCursor.new stream part maxTagBytes textLimit) :=
  ⟨rfl, Nat.zero_le _, fun h => by cases h⟩

theorem startRow_ok {cursor : SheetCursor S} {number : Nat} (h : cursor.startRow = .ok number) :
    cursor.lastRow < number ∧ number ≤ xlsxMaxRows := by
  have hcheck : ∀ v, (if v = 0 ∨ xlsxMaxRows < v ∨ v ≤ cursor.lastRow then
      (.error (.badRowNumber v) : Except XlsxError Nat) else pure v) = .ok number →
        cursor.lastRow < number ∧ number ≤ xlsxMaxRows := by
    intro v hv
    split at hv
    · cases hv
    · cases hv
      omega
  simp only [startRow, bind, Except.bind] at h
  cases hattribute : cursor.attributeOf ['r'] with
  | error error =>
    rw [hattribute] at h
    cases h
  | ok given =>
    rw [hattribute] at h
    cases given with
    | none => exact hcheck _ h
    | some value =>
      dsimp only at h
      cases hparse : parseNumber value with
      | none =>
        rw [hparse] at h
        cases h
      | some v =>
        rw [hparse] at h
        exact hcheck v h

section Read
variable {n : Nat} (context : CellContext K) (limits : XlsxRowLimits) (io : ByteStream S W)
  (token : W → Bool × W)

theorem nextEvent_rows : Exec.Preserves (fun p => RowsRead n p.1) (nextEvent io token) :=
  nextEvent_preserves io token (fun _ _ _ h => ⟨h.lastRow, h.le, h.row⟩)
    (fun _ _ h => ⟨h.lastRow, h.le, h.row⟩) fun _ => .self fun _ h => ⟨h.lastRow, h.le, h.row⟩

theorem rowEvent_rows (event : XmlEvent) (state : RowState) :
    Exec.Preserves (fun p => RowsRead n p.1 ∧ p.1.phase = .inRow)
      (rowEvent context limits event state : SheetM S W _) :=
  rowEvent_preserves context limits (fun _ _ h => ⟨⟨h.1.lastRow, h.1.le, h.1.row⟩, h.2⟩)
    (fun _ _ h => ⟨⟨h.1.lastRow, h.1.le, h.1.row⟩, h.2⟩) event state

/-- Behind a pass: a row that is found is the last one. -/
def PassRows (n : Nat) (pass : RowPass) (p : SheetCursor S × W) : Prop :=
  match pass with
  | .found number _ => n < number ∧ RowsRead number p.1
  | .more _ => RowsRead n p.1
  | .ended => RowsRead n p.1 ∧ p.1.phase = .after

/-- What `next_row` comes to. -/
def RowFound (n : Nat) (found : Option Nat) (p : SheetCursor S × W) : Prop :=
  match found with
  | some number => n < number ∧ RowsRead number p.1
  | none => RowsRead n p.1 ∧ p.1.phase = .after

theorem rowPass_rows (collectAfter : Option Nat) (event : Option XmlEvent) (state : RowState) :
    Exec.Triple (fun p => RowsRead n p.1)
      (rowPass context limits collectAfter event state : SheetM S W RowPass) (PassRows n)
      (fun _ p => RowsRead n p.1) := by
  rintro ⟨cursor, w⟩ h
  replace h : RowsRead n cursor := h
  have hphase : ∀ phase, phase ≠ .inRow → RowsRead n { cursor with phase := phase } :=
    fun phase hne => ⟨h.lastRow, h.le, fun heq => absurd heq hne⟩
  simp only [rowPass, Exec.run_get_bind]
  cases event with
  | none =>
    dsimp only
    split_ifs
    · exact ⟨hphase .after (by decide), rfl⟩
    · exact h
  | some event =>
  dsimp only
  cases hin : cursor.phase with
  | beforeData =>
    simp only [beforeDataPass, Exec.run_get_bind]
    cases event with
    | startTag empty =>
      dsimp only
      split_ifs
      · exact ⟨hphase .after (by decide), rfl⟩
      · exact hphase .inData (by decide)
      · exact h
    | endTag => exact h
    | text => exact h
  | inData =>
    simp only [inDataPass, Exec.run_get_bind]
    cases event with
    | startTag empty =>
      dsimp only
      split_ifs
      · simp only [rowStarts, Exec.run_get_bind]
        cases hstart : cursor.startRow with
        | error error => exact h
        | ok number =>
          obtain ⟨hlt, hle⟩ := startRow_ok hstart
          rw [h.lastRow] at hlt
          cases empty with
          | true => exact ⟨hlt, rfl, hle, fun heq => by rw [hin] at heq; cases heq⟩
          | false => exact ⟨h.lastRow, h.le, fun _ => ⟨hlt, hle⟩⟩
      · exact h
    | endTag =>
      dsimp only
      split_ifs
      · exact ⟨hphase .after (by decide), rfl⟩
      · exact h
    | text => exact h
  | inRow =>
    simp only [inRowPass]
    have hevent := (rowEvent_rows (n := n) context limits event state (cursor, w) ⟨h, hin⟩).2
    rcases hrun : (rowEvent context limits event state : SheetM S W _) (cursor, w) with
      ⟨error | ⟨ended, state'⟩, next, w'⟩
    · rw [hrun] at hevent
      rw [Exec.run_bind_error hrun]
      exact hevent.1
    · rw [hrun] at hevent
      obtain ⟨hnext, hrow⟩ := hevent
      rw [Exec.run_bind_ok hrun]
      cases ended with
      | true =>
        obtain ⟨hlt, hle⟩ := hnext.row hrow
        exact ⟨hlt, rfl, hle, fun heq => by cases heq⟩
      | false => exact hnext
  | after => exact ⟨h, hin⟩

theorem rowLoop_rows (collectAfter : Option Nat) (fuel : Nat) (state : RowState) :
    Exec.Triple (fun p => RowsRead n p.1) (rowLoop context limits io token collectAfter fuel state)
      (fun r => RowFound n r.1) (fun _ p => RowsRead n p.1) := by
  induction fuel generalizing state with
  | zero => exact .throw fun _ h => h
  | succ fuel ih =>
    refine .bind (nextEvent_rows io token).triple fun event =>
      .bind (rowPass_rows context limits collectAfter event state) fun pass => ?_
    cases pass with
    | more state => exact ih state
    | found number state => exact .pure fun _ h => h
    | ended => exact .pure fun _ h => h

/-- A row that is found has a number behind the one before. -/
theorem nextRow_rows (collectAfter : Option Nat) (builder : RowBuilder) :
    Exec.Triple (fun p => RowsRead n p.1) (nextRow context limits io token collectAfter builder)
      (fun r => RowFound n r.1) (fun _ p => RowsRead n p.1) :=
  fun p h => rowLoop_rows context limits io token collectAfter _ _ p h

/-- Behind the sheet data there are no rows. -/
theorem nextRow_after (collectAfter : Option Nat) (builder : RowBuilder) :
    Exec.Triple (fun p => p.1.phase = .after) (nextRow context limits io token collectAfter builder)
      (fun r p => r.1 = none ∧ p.1.phase = .after) (fun _ p => p.1.phase = .after) := by
  refine .get_bind fun start => ?_
  rintro p ⟨-, h⟩
  have hevent := (nextEvent_preserves (I := fun p => p.1.phase = .after) io token
    (fun _ _ _ h => h) (fun _ _ h => h) (fun _ => .self fun _ h => h) p h).2
  rw [rowLoop]
  rcases hrun : nextEvent io token p with ⟨error | event, cursor, w⟩
  · rw [hrun] at hevent
    rw [Exec.run_bind_error hrun]
    exact hevent
  · rw [hrun] at hevent
    replace hevent : cursor.phase = .after := hevent
    rw [Exec.run_bind_ok hrun]
    have hpass : (rowPass context limits collectAfter event ⟨.default, false, builder⟩ :
        SheetM S W RowPass) (cursor, w) = (.ok .ended, { cursor with phase := .after }, w) := by
      obtain ⟨stream, xml, phase, lastRow, row, nextColumn, events⟩ := cursor
      obtain rfl : phase = .after := hevent
      cases event with
      | none => rfl
      | some event => rfl
    rw [Exec.run_bind_ok hpass]
    exact ⟨rfl, rfl⟩

/-- The rest of the part is drained for its checksum: only the stream moves on. -/
theorem drain_preserves {I : SheetCursor S → Prop}
    (hstream : ∀ cursor stream, I cursor → I { cursor with stream := stream }) :
    Exec.Preserves (fun p => I p.1) (drain io token) := by
  refine .get_bind fun cursor w _ => ?_
  suffices h : ∀ fuel chunks, Exec.Preserves (fun p => I p.1) (drainLoop io token fuel chunks)
    from h _ _
  intro fuel
  induction fuel with
  | zero => exact fun _ => .throw
  | succ fuel ih =>
    intro chunks
    refine .bind (.modify fun cursor w h => hstream cursor _ h) fun _ => ?_
    refine .bind (.self fun p h => hstream p.1 _ h) fun more => ?_
    split_ifs
    · refine .bind (.self fun p h => ?_) fun _ => ih _
      unfold checkCancelled
      split_ifs <;> exact h
    · exact ih _
    · exact .pure

theorem drain_rows : Exec.Preserves (fun p => RowsRead n p.1) (drain io token) :=
  drain_preserves io token fun _ _ h => ⟨h.lastRow, h.le, h.row⟩

theorem drain_phase : Exec.Preserves (fun p => p.1.phase = .after) (drain io token) :=
  drain_preserves (I := fun cursor => cursor.phase = .after) io token fun _ _ h => h

end Read

end SheetCursor

namespace XlsxSheetScan

variable {S W K : Type} (context : CellContext K) (io : ByteStream S W) (token : W → Bool × W)

/-! ### Sheets with consecutive numbers -/

/-- The cursors on the way over the rows of a sheet, whatever the token and the source answer. -/
inductive OnWay (first : SheetCursor S) : SheetCursor S → Prop
  | first : OnWay first first
  | row {cursor : SheetCursor S} (w : W) : OnWay first cursor →
      OnWay first (SheetCursor.nextRow context noLimits io token none .empty (cursor, w)).2.1

/-- The numbers of the rows start behind `origin`, and each is one more than the last. -/
def Consecutive (first : SheetCursor S) (origin : Nat) : Prop :=
  ∀ cursor w number builder, OnWay context io token first cursor →
    (SheetCursor.nextRow context noLimits io token none .empty (cursor, w)).1 =
      .ok (some number, builder) → number = max origin cursor.lastRow + 1

/-- What a scan may come to, in steps of any size, in any world and with any outcome. -/
inductive Scanned (first : XlsxSheetScan S) : XlsxSheetScan S → Prop
  | start : Scanned first first
  | step {scan : XlsxSheetScan S} (maxCompressedBytes : Nat) (w : W) : Scanned first scan →
      Scanned first (step context io token maxCompressedBytes (scan, w)).2.1

/-! ### Checkpoints are marks -/

def marks (scan : XlsxSheetScan S) : Marks :=
  ⟨scan.checkpoints.map SheetCursor.lastRow, scan.stride, scan.nextCheckpoint⟩

theorem everyOther_tail {α : Type} (xs : List α) : everyOther xs.tail = half xs := by
  match xs with
  | [] => rfl
  | [_] => rfl
  | _ :: _ :: [] => rfl
  | _ :: b :: c :: rest =>
    have hrest := everyOther_tail (c :: rest)
    rw [List.tail_cons] at hrest ⊢
    rw [everyOther, half, hrest]

theorem half_map {α β : Type} (f : α → β) (xs : List α) : half (xs.map f) = (half xs).map f := by
  match xs with
  | [] => rfl
  | [_] => rfl
  | _ :: b :: rest =>
    rw [List.map_cons, List.map_cons, half, half, List.map_cons, half_map f rest]

/-- Marks along the rows: none before the first row is found, dense ones from there on. -/
def Thinned (origin n : Nat) (m : Marks) : Prop :=
  (n = 0 ∧ m = .start initialCheckpointStride) ∨
    (origin < n ∧ Dense checkpointCapacity initialCheckpointStride origin n m)

theorem Thinned.visit {origin n : Nat} {m : Marks} (h : Thinned origin n m) :
    Thinned origin (max origin n + 1) (m.visit checkpointCapacity (max origin n + 1)) := by
  refine .inr ⟨by omega, ?_⟩
  rcases h with ⟨rfl, rfl⟩ | ⟨hlt, h⟩
  · rw [Nat.max_zero]
    exact dense_first (by decide) (by decide)
  · rw [Nat.max_eq_right hlt.le]
    exact h.visit 16 rfl (by decide)

theorem Thinned.stride_le_max {origin n : Nat} {m : Marks} (h : Thinned origin n m)
    (hn : n ≤ xlsxMaxRows) : m.stride ≤ xlsxMaxRows := by
  rcases h with ⟨-, rfl⟩ | ⟨-, h⟩
  · decide
  · have hstride := h.stride_le 16 rfl
    simp only [checkpointCapacity, initialCheckpointStride, xlsxMaxRows] at *
    omega

/-- Where the cursor of a scan stands, and its checkpoints. -/
structure Spread (first : SheetCursor S) (origin : Nat) (scan : XlsxSheetScan S) : Prop where
  onWay : OnWay context io token first scan.cursor ∨ scan.cursor.phase = .after
  rows : SheetCursor.RowsRead scan.cursor.lastRow scan.cursor
  copies : ∀ checkpoint ∈ scan.checkpoints, SheetCursor.RowsRead checkpoint.lastRow checkpoint
  thinned : Thinned origin scan.cursor.lastRow scan.marks

theorem spread_new (stream : S) (part : PartName) (limits : XlsxLimits) (origin : Nat) :
    Spread context io token (new stream part limits).cursor origin (new stream part limits) :=
  ⟨.inl .first, SheetCursor.rowsRead_new _ _ _ _, (fun _ h => by cases h), .inl ⟨rfl, rfl⟩⟩

variable {context io token} {first : SheetCursor S} {origin : Nat} {scan : XlsxSheetScan S}

/-- A checkpoint of a scan is a mark. -/
theorem marks_addCheckpoint (hstride : scan.stride ≤ xlsxMaxRows)
    (hrow : scan.cursor.lastRow ≤ xlsxMaxRows) :
    (addCheckpoint io scan).marks = scan.marks.add checkpointCapacity scan.cursor.lastRow := by
  have hdouble : min (scan.stride * 2) (u64Bound - 1) = scan.stride * 2 := by
    simp only [u64Bound, xlsxMaxRows] at *
    omega
  have hnext : ∀ stride, stride ≤ scan.stride * 2 →
      saturatingAdd scan.cursor.lastRow stride = scan.cursor.lastRow + stride := by
    intro stride hle
    simp only [saturatingAdd, u64Bound, xlsxMaxRows] at *
    omega
  have hcopy : (scan.cursor.checkpoint io).lastRow = scan.cursor.lastRow := rfl
  simp only [marks, addCheckpoint, Marks.add, List.length_map, List.map_append, List.map_cons,
    List.map_nil, everyOther_tail, hdouble, hcopy]
  by_cases hfull : scan.checkpoints.length = checkpointCapacity
  · simp only [hfull, decide_true, if_true, half_map, hnext _ (Nat.le_refl _)]
  · simp only [hfull, decide_false, Bool.false_eq_true, if_false,
      hnext _ (Nat.le_mul_of_pos_right _ Nat.two_pos)]

/-- The cursor has found the row `number`, and the checkpoints are those in front of it. -/
structure Found (context : CellContext K) (io : ByteStream S W) (token : W → Bool × W)
    (first : SheetCursor S) (origin number : Nat) (scan : XlsxSheetScan S) : Prop where
  onWay : OnWay context io token first scan.cursor
  rows : SheetCursor.RowsRead number scan.cursor
  copies : ∀ checkpoint ∈ scan.checkpoints, SheetCursor.RowsRead checkpoint.lastRow checkpoint
  thinned : ∃ n, number = max origin n + 1 ∧ Thinned origin n scan.marks

/-- A checkpoint is made if it is time. -/
theorem Found.visit {number : Nat} (h : Found context io token first origin number scan) :
    Spread context io token first origin
      (if scan.nextCheckpoint ≤ number then addCheckpoint io scan else scan) := by
  obtain ⟨honWay, hrows, hcopies, n, hn, hthinned⟩ := h
  have hnumber := hrows.lastRow
  have hle := hrows.le
  have hstride : scan.stride ≤ xlsxMaxRows := hthinned.stride_le_max (by omega)
  have hvisit : Thinned origin scan.cursor.lastRow
      (if scan.nextCheckpoint ≤ scan.cursor.lastRow then
        scan.marks.add checkpointCapacity scan.cursor.lastRow else scan.marks) := by
    rw [hnumber, hn]
    exact hthinned.visit
  have hself : SheetCursor.RowsRead scan.cursor.lastRow scan.cursor := hnumber ▸ hrows
  rw [← hnumber]
  by_cases htime : scan.nextCheckpoint ≤ scan.cursor.lastRow
  · rw [if_pos htime]
    have hmarks : (addCheckpoint io scan).marks =
        scan.marks.add checkpointCapacity scan.cursor.lastRow :=
      marks_addCheckpoint hstride hself.le
    rw [if_pos htime, ← hmarks] at hvisit
    refine ⟨.inl honWay, hself, fun checkpoint hmem => ?_, hvisit⟩
    rcases List.mem_append.mp hmem with hkept | hnew
    · refine hcopies checkpoint ?_
      split at hkept
      · exact List.mem_of_mem_tail (mem_of_mem_everyOther hkept)
      · exact hkept
    · obtain rfl := List.mem_singleton.mp hnew
      exact ⟨rfl, hself.le, hself.row⟩
  · rw [if_neg htime]
    rw [if_neg htime] at hvisit
    exact ⟨.inl honWay, hself, hcopies, hvisit⟩

/-- The cursor has moved on, but not by a row. -/
theorem Spread.move (h : Spread context io token first origin scan) {cursor : SheetCursor S}
    (honWay : OnWay context io token first cursor ∨ cursor.phase = .after)
    (hrows : SheetCursor.RowsRead scan.cursor.lastRow cursor) :
    Spread context io token first origin { scan with cursor := cursor } := by
  have hsame : cursor.lastRow = scan.cursor.lastRow := hrows.lastRow
  refine ⟨honWay, hsame.symm ▸ hrows, h.copies, ?_⟩
  change Thinned origin cursor.lastRow scan.marks
  rw [hsame]
  exact h.thinned

/-- What reading a row makes of a scan. -/
def RowRead (context : CellContext K) (io : ByteStream S W) (token : W → Bool × W)
    (first : SheetCursor S) (origin : Nat)
    (found : Option (Option Nat × RowBuilder)) (scan : XlsxSheetScan S) :
    Prop :=
  match found with
  | none => Spread context io token first origin scan
  | some (none, _) => Spread context io token first origin scan ∧ scan.cursor.phase = .after
  | some (some number, _) => Found context io token first origin number scan

/-- What a cursor on its way comes to is on its way, or behind the rows. -/
theorem Spread.nextRow (h : Spread context io token first origin scan)
    (hfirst : Consecutive context io token first origin) {w w' : W} {cursor : SheetCursor S}
    {r : Except XlsxError (Option Nat × RowBuilder)}
    (hrun : SheetCursor.nextRow context noLimits io token none .empty (scan.cursor, w) =
      (r, cursor, w')) :
    (OnWay context io token first cursor ∨ cursor.phase = .after) ∧
      ∀ number builder, r = .ok (some number, builder) →
        OnWay context io token first cursor ∧ number = max origin scan.cursor.lastRow + 1 := by
  rcases h.onWay with honWay | hphase
  · have hnext := OnWay.row w honWay
    rw [hrun] at hnext
    refine ⟨.inl hnext, fun number builder hfound => ⟨hnext, ?_⟩⟩
    refine hfirst scan.cursor w number builder honWay ?_
    rw [hrun]
    exact hfound
  · have hstays := SheetCursor.nextRow_after context noLimits io token none .empty
      (scan.cursor, w) hphase
    rw [hrun] at hstays
    rcases r with error | ⟨number | _, builder⟩
    · exact ⟨.inr hstays, fun _ _ hfound => by cases hfound⟩
    · exact ⟨.inr hstays.2, fun _ _ hfound => by cases hfound⟩
    · exact absurd hstays.1 (by simp)

theorem nextRow_spread (hfirst : Consecutive context io token first origin) :
    Exec.Triple (fun p => Spread context io token first origin p.1)
      (onCursor (SheetCursor.nextRow context noLimits io token none .empty))
      (fun found p => RowRead context io token first origin found p.1)
      (fun _ p => Spread context io token first origin p.1) := by
  rintro ⟨scan, w⟩ h
  replace h : Spread context io token first origin scan := h
  have hrow := SheetCursor.nextRow_rows context noLimits io token none .empty
    (scan.cursor, w) h.rows
  rcases hrun : SheetCursor.nextRow context noLimits io token none .empty (scan.cursor, w) with
    ⟨error | ⟨_ | number, builder⟩, cursor, w'⟩
  · rw [hrun] at hrow
    have hmoved := h.move (h.nextRow hfirst hrun).1 hrow
    cases error <;> simp only [onCursor, hrun] <;> exact hmoved
  · rw [hrun] at hrow
    simp only [onCursor, hrun]
    exact ⟨h.move (h.nextRow hfirst hrun).1 hrow.1, hrow.2⟩
  · rw [hrun] at hrow
    obtain ⟨honWay, hnumber⟩ := (h.nextRow hfirst hrun).2 number builder rfl
    simp only [onCursor, hrun]
    exact ⟨honWay, hrow.2, h.copies, scan.cursor.lastRow, hnumber, h.thinned⟩

/-- Behind the sheet data the rest of the part holds no rows. -/
theorem drain_spread :
    Exec.Triple (fun p => Spread context io token first origin p.1 ∧ p.1.cursor.phase = .after)
      (onCursor (SheetCursor.drain io token)) (fun _ p => Spread context io token first origin p.1)
      (fun _ p => Spread context io token first origin p.1) := by
  rintro ⟨scan, w⟩ ⟨h, hphase⟩
  replace h : Spread context io token first origin scan := h
  have hrows := (SheetCursor.drain_rows io token (scan.cursor, w) h.rows).2
  have hstays := (SheetCursor.drain_phase io token (scan.cursor, w) hphase).2
  rcases hrun : SheetCursor.drain io token (scan.cursor, w) with ⟨error | ⟨⟩, cursor, w'⟩
  · rw [hrun] at hrows hstays
    have hmoved := h.move (.inr hstays) hrows
    cases error <;> simp only [onCursor, hrun] <;> exact hmoved
  · rw [hrun] at hrows hstays
    simp only [onCursor, hrun]
    exact h.move (.inr hstays) hrows

theorem stepLoop_spread (hfirst : Consecutive context io token first origin)
    (budget startConsumed startProduced fuel : Nat) :
    Exec.Preserves (fun p => Spread context io token first origin p.1)
      (stepLoop context io token budget startConsumed startProduced fuel) := by
  induction fuel with
  | zero => exact .throw
  | succ fuel ih =>
    refine .bind (.self fun _ h => h) fun cancelled => ?_
    split_ifs
    · exact .pure
    refine .of_triple (.bind (nextRow_spread hfirst) fun found => ?_)
    match found with
    | none => exact Exec.AgreeOn.triple .pure
    | some (none, _) =>
      refine .bind drain_spread fun drained => Exec.AgreeOn.triple ?_
      cases drained with
      | none => exact .pure
      | some _ =>
        exact .bind (.modify fun _ _ h => ⟨h.onWay, h.rows, h.copies, h.thinned⟩) fun _ => .pure
    | some (some number, _) =>
      have hvisit : Exec.Triple (fun p => Found context io token first origin number p.1)
          (Exec.modify fun scan =>
            if scan.nextCheckpoint ≤ number then addCheckpoint io scan else scan :
            ScanM S W Unit)
          (fun _ p => Spread context io token first origin p.1)
          (fun _ p => Spread context io token first origin p.1) := .modify fun _ _ h => h.visit
      refine .bind hvisit fun _ => Exec.AgreeOn.triple (.get_bind fun scan w _ => ?_)
      split_ifs
      · exact .pure
      · exact ih

/-- Steps of any size keep the checkpoints dense. -/
theorem step_spread (hfirst : Consecutive context io token first origin)
    (maxCompressedBytes : Nat) :
    Exec.Preserves (fun p => Spread context io token first origin p.1)
      (step context io token maxCompressedBytes) := by
  refine .get_bind fun start w _ => ?_
  split_ifs
  · exact .pure
  · exact .bind (stepLoop_spread hfirst _ _ _ _) fun status => .get_bind fun _ _ _ => .pure

theorem Scanned.spread {start : XlsxSheetScan S} (hscanned : Scanned context io token start scan)
    (hstart : Spread context io token first origin start)
    (hfirst : Consecutive context io token first origin) :
    Spread context io token first origin scan := by
  induction hscanned with
  | start => exact hstart
  | step maxCompressedBytes w _ ih =>
    exact (step_spread hfirst maxCompressedBytes (_, w) ih).2

/-! ### Rows in front of a viewport -/

section Viewport
variable {limits : XlsxRowLimits} {firstRow : Nat} {numbers : List Nat}
  {builder builder' : RowBuilder} {p q : SheetCursor S × W}

/-- The rows `read_rows` reads and leaves out because they are in front of the first one asked
for. -/
inductive Skips (context : CellContext K) (io : ByteStream S W) (token : W → Bool × W)
    (limits : XlsxRowLimits) (firstRow : Nat) :
    RowBuilder → SheetCursor S × W → List Nat → RowBuilder → SheetCursor S × W → Prop
  | done (builder : RowBuilder) (p : SheetCursor S × W) :
      Skips context io token limits firstRow builder p [] builder p
  | row {number : Nat} {numbers : List Nat} {builder next builder' : RowBuilder}
      {p p' q : SheetCursor S × W} :
      SheetCursor.nextRow context limits io token (some firstRow) builder p =
        (.ok (some number, next), p') →
      number - 1 < firstRow → Skips context io token limits firstRow next p' numbers builder' q →
      Skips context io token limits firstRow builder p (number :: numbers) builder' q

/-- The loop does nothing else with these rows. -/
theorem Skips.readLoop (h : Skips context io token limits firstRow builder p numbers builder' q)
    {rows : List XlsxRow} {maxRows : Nat} (hroom : rows.length < maxRows) (fuel nextIndex : Nat) :
    XlsxSheetScan.readLoop context limits io token firstRow maxRows (fuel + numbers.length)
        nextIndex builder rows p =
      XlsxSheetScan.readLoop context limits io token firstRow maxRows fuel nextIndex builder' rows
        q := by
  induction h with
  | done => rfl
  | row hrow hfront _ ih =>
    rw [List.length_cons, ← Nat.add_assoc, XlsxSheetScan.readLoop, if_pos hroom,
      Exec.run_bind_ok hrow]
    dsimp only
    rw [if_pos hfront]
    exact ih

theorem Skips.rows (h : Skips context io token limits firstRow builder p numbers builder' q)
    {n : Nat} (hrows : SheetCursor.RowsRead n p.1) :
    numbers.Pairwise (· < ·) ∧ ∀ number ∈ numbers, n < number ∧ number ≤ firstRow := by
  induction h generalizing n with
  | done => exact ⟨.nil, fun _ h => by cases h⟩
  | @row number numbers builder next _ p p' _ hrow hfront _ ih =>
    have hfound := SheetCursor.nextRow_rows context limits io token (some firstRow) builder p hrows
    rw [hrow] at hfound
    obtain ⟨hlt, hrows'⟩ := hfound
    obtain ⟨hsorted, hrest⟩ := ih hrows'
    refine ⟨List.pairwise_cons.mpr ⟨fun other h => (hrest other h).1, hsorted⟩, ?_⟩
    intro other hmem
    rcases List.mem_cons.mp hmem with rfl | hmem
    · exact ⟨hlt, by omega⟩
    · have hother := hrest other hmem
      exact ⟨by omega, hother.2⟩

/-- Where `read_rows` starts: at a checkpoint, or with the sheet opened anew. -/
def StartsAt (io : ByteStream S W) (scan : XlsxSheetScan S) (firstRow : Nat)
    (cursor : SheetCursor S) : Prop :=
  match scan.resumeFrom firstRow with
  | some checkpoint => cursor = checkpoint.checkpoint io
  | none => ∃ stream part maxTagBytes textLimit,
      cursor = .new stream part maxTagBytes textLimit

/-- The rows of the scan which are read once more. -/
def rereads (origin : Nat) (scan : XlsxSheetScan S) (numbers : List Nat) : List Nat :=
  numbers.filter fun number => decide (origin < number ∧ number ≤ scan.cursor.lastRow)

theorem before_marks (origin firstRow : Nat) (scan : XlsxSheetScan S) :
    Marks.before origin firstRow scan.marks.marks =
      ((scan.resumeFrom firstRow).map SheetCursor.lastRow).getD origin := by
  rw [Marks.before, marks, resumeFrom, ← List.map_reverse, List.find?_map]
  rfl

theorem StartsAt.rows {cursor : SheetCursor S} (h : StartsAt io scan firstRow cursor)
    (hspread : Spread context io token first origin scan) :
    ∃ n, SheetCursor.RowsRead n cursor ∧
      Marks.before origin firstRow scan.marks.marks ≤ max origin n := by
  rw [before_marks]
  rw [StartsAt] at h
  cases hresume : scan.resumeFrom firstRow with
  | none =>
    rw [hresume] at h
    obtain ⟨stream, part, maxTagBytes, textLimit, rfl⟩ := h
    exact ⟨0, SheetCursor.rowsRead_new stream part maxTagBytes textLimit, Nat.le_max_left _ _⟩
  | some checkpoint =>
    rw [hresume] at h
    obtain rfl : cursor = checkpoint.checkpoint io := h
    have hcopy := hspread.copies checkpoint
      (List.mem_reverse.mp (List.mem_of_find?_eq_some hresume))
    exact ⟨checkpoint.lastRow, ⟨rfl, hcopy.le, hcopy.row⟩, Nat.le_max_right _ _⟩

theorem length_le_of_sorted {low high : Nat} {numbers : List Nat}
    (hsorted : numbers.Pairwise (· < ·)) (h : ∀ number ∈ numbers, low < number ∧ number ≤ high) :
    numbers.length ≤ high - low := by
  have hnodup : numbers.Nodup := hsorted.imp fun hlt => hlt.ne
  calc numbers.length = numbers.toFinset.card := (List.toFinset_card_of_nodup hnodup).symm
    _ ≤ (Finset.Ioc low high).card := Finset.card_le_card fun number hmem =>
        Finset.mem_Ioc.mpr (h number (List.mem_toFinset.mp hmem))
    _ = high - low := Nat.card_Ioc low high

/-- Fewer rows are read once more than lie between two checkpoints. -/
theorem Skips.rereads_le (h : Skips context io token limits firstRow builder p numbers builder' q)
    (hspread : Spread context io token first origin scan)
    (hstart : StartsAt io scan firstRow p.1) :
    (rereads origin scan numbers).length ≤ scan.stride := by
  obtain ⟨n, hrows, hbefore⟩ := hstart.rows hspread
  obtain ⟨hsorted, hfront⟩ := h.rows hrows
  have hbetween : ∀ number ∈ rereads origin scan numbers,
      Marks.before origin firstRow scan.marks.marks < number ∧
        number ≤ min firstRow scan.cursor.lastRow := by
    intro number hmem
    obtain ⟨hnumber, hscan⟩ := List.mem_filter.mp hmem
    have hlast := of_decide_eq_true hscan
    have hnear := hfront number hnumber
    omega
  have hagain : (rereads origin scan numbers).Pairwise (· < ·) := hsorted.filter _
  have hle := length_le_of_sorted hagain hbetween
  rcases hspread.thinned with ⟨hnone, -⟩ | ⟨-, hdense⟩
  · omega
  · have hclose := hdense.before_close firstRow
    have hstride : scan.marks.stride = scan.stride := rfl
    omega

end Viewport

/-! ### The checkpoints of a scan -/

/-- On a sheet with consecutive row numbers the checkpoints of a scan lie along its rows at most
a stride apart. The stride is the first one until half the checkpoints cover the rows. The rows
that a read skips in front of its first are no more than a stride. -/
theorem checkpoints_dense {S W K : Type} {context : CellContext K} {io : ByteStream S W}
    {token : W → Bool × W} (stream : S) (part : PartName) (limits : XlsxLimits) {origin : Nat}
    {scan : XlsxSheetScan S}
    (hconsecutive : Consecutive context io token (new stream part limits).cursor origin)
    (hscan : Scanned context io token (new stream part limits) scan) :
    let rows := scan.checkpoints.map SheetCursor.lastRow
    let n := scan.cursor.lastRow - origin
    rows.length ≤ checkpointCapacity ∧ (origin :: rows).Pairwise (· < ·) ∧
      List.IsChain (fun a b => b ≤ a + scan.stride) (origin :: (rows ++ [scan.cursor.lastRow])) ∧
      (scan.stride = initialCheckpointStride ∨ checkpointCapacity * scan.stride ≤ 2 * n) ∧
      ∀ (rowLimits : XlsxRowLimits) (firstRow : Nat) (numbers : List Nat)
        (builder builder' : RowBuilder) (p q : SheetCursor S × W),
        StartsAt io scan firstRow p.1 →
        Skips context io token rowLimits firstRow builder p numbers builder' q →
        (rereads origin scan numbers).length ≤ scan.stride ∧
          ∀ (found : List XlsxRow) (maxRows fuel nextIndex : Nat), found.length < maxRows →
            readLoop context rowLimits io token firstRow maxRows (fuel + numbers.length) nextIndex
              builder found p =
            readLoop context rowLimits io token firstRow maxRows fuel nextIndex builder' found
              q := by
  intro rows n
  have hspread := hscan.spread (spread_new context io token stream part limits origin) hconsecutive
  have hreads : ∀ (rowLimits : XlsxRowLimits) (firstRow : Nat) (numbers : List Nat)
      (builder builder' : RowBuilder) (p q : SheetCursor S × W),
      StartsAt io scan firstRow p.1 →
      Skips context io token rowLimits firstRow builder p numbers builder' q →
      (rereads origin scan numbers).length ≤ scan.stride ∧
        ∀ (found : List XlsxRow) (maxRows fuel nextIndex : Nat), found.length < maxRows →
          readLoop context rowLimits io token firstRow maxRows (fuel + numbers.length) nextIndex
            builder found p =
          readLoop context rowLimits io token firstRow maxRows fuel nextIndex builder' found q :=
    fun _ _ _ _ _ _ _ hstart hskips => ⟨hskips.rereads_le hspread hstart,
      fun _ _ fuel nextIndex hroom => hskips.readLoop hroom fuel nextIndex⟩
  rcases hspread.thinned with ⟨hnone, hstart⟩ | ⟨-, hdense⟩
  · have hrows : rows = [] := congrArg Marks.marks hstart
    have hstride : scan.stride = initialCheckpointStride := congrArg Marks.stride hstart
    have hgap : List.IsChain (fun a b => b ≤ a + scan.stride)
        (origin :: (rows ++ [scan.cursor.lastRow])) := by
      rw [hrows, hnone]
      exact .cons_cons (Nat.zero_le _) (.singleton 0)
    refine ⟨?_, ?_, hgap, .inl hstride, hreads⟩
    · rw [hrows]
      exact Nat.zero_le _
    · rw [hrows]
      exact List.pairwise_singleton _ origin
  · exact ⟨hdense.length_le, hdense.sorted, hdense.gap_le, hdense.stride_le 16 rfl, hreads⟩

/-! ### A sheet of many rows -/

section ManyRows

open SheetCursor (viewport wholePart neverCancelled)

/-- What is behind an event does not matter to it. -/
theorem feed_append {bytes : List Byte} {xml xml' : XmlTokenizer} {used : Nat} {event : XmlEvent}
    (h : XmlTokenizer.feed bytes xml = (.ok (used, some event), xml')) (rest : List Byte) :
    XmlTokenizer.feed (bytes ++ rest) xml = (.ok (used, some event), xml') := by
  induction bytes generalizing xml used with
  | nil => cases h
  | cons byte bytes ih =>
    rw [List.cons_append]
    unfold XmlTokenizer.feed at h ⊢
    rcases hbyte : XmlTokenizer.feedByte byte xml with ⟨error | _ | found, next⟩
    · rw [hbyte] at h
      cases h
    · rw [hbyte] at h
      dsimp only at h ⊢
      rcases hfeed : XmlTokenizer.feed bytes next with ⟨error | ⟨rest, _ | found⟩, last⟩
      · rw [hfeed] at h
        cases h
      · rw [hfeed] at h
        cases h
      · rw [hfeed] at h
        cases h
        rw [ih hfeed]
    · rw [hbyte] at h
      exact h

/-- A tag in front of the cursor is its next event. -/
theorem nextEvent_tag {bytes : List Byte} {xml xml' : XmlTokenizer} {event : XmlEvent}
    (hne : bytes ≠ [])
    (hfeed : XmlTokenizer.feed bytes xml = (.ok (bytes.length, some event), xml'))
    (rest : List Byte) (phase : Phase) (last row column events : Nat) :
    SheetCursor.nextEvent wholePart neverCancelled
      (⟨bytes ++ rest, xml, phase, last, row, column, events⟩, ()) =
      (.ok (some event), ⟨rest, xml', phase, last, row, column, (events + 1) % 2 ^ 32⟩, ()) := by
  have hread : ∀ events, SheetCursor.readEvent wholePart
      (⟨bytes ++ rest, xml, phase, last, row, column, events⟩, ()) =
      (.ok (some event), ⟨rest, xml', phase, last, row, column, events⟩, ()) := by
    intro events
    have hxml : SheetCursor.onXml (XmlTokenizer.feed (bytes ++ rest))
        (⟨bytes ++ rest, xml, phase, last, row, column, events⟩, ()) =
        (.ok (bytes.length, some event),
          ⟨bytes ++ rest, xml', phase, last, row, column, events⟩, ()) := by
      simp only [SheetCursor.onXml, feed_append hfeed]
    have hfed : SheetCursor.feedAvailable wholePart
        (⟨bytes ++ rest, xml, phase, last, row, column, events⟩, ()) =
        (.ok (some event), ⟨rest, xml', phase, last, row, column, events⟩, ()) := by
      rw [SheetCursor.feedAvailable, Exec.run_get_bind]
      refine (Exec.run_bind_ok hxml).trans ?_
      rw [Exec.run_modify_bind]
      simp only [wholePart, List.drop_left, Exec.run_pure]
    have hmore : SheetCursor.moreBytes wholePart
        (⟨bytes ++ rest, xml, phase, last, row, column, events⟩, ()) =
        (.ok true, ⟨bytes ++ rest, xml, phase, last, row, column, events⟩, ()) := by
      obtain ⟨byte, bytes, rfl⟩ := List.exists_cons_of_ne_nil hne
      rfl
    rw [SheetCursor.readEvent, Exec.run_get_bind, SheetCursor.eventLoop, Exec.run_bind_ok hmore,
      if_pos rfl, Exec.run_bind_ok hfed]
    rfl
  simp only [SheetCursor.nextEvent, Exec.run_modify_bind, Exec.run_get_bind]
  split
  · exact hread _
  · exact hread _

def rowTag : List Byte := bytesOf ['<', 'r', 'o', 'w', '/', '>']

def rowsLeft (count : Nat) : List Byte :=
  (List.replicate count rowTag).flatten ++ bytesOf "</sheetData>".toList

/-- A sheet of empty rows. -/
def sheet (count : Nat) : List Byte := bytesOf "<sheetData>".toList ++ rowsLeft count

/-- Behind the tag of this text. -/
def behind (tag : List Char) : XmlTokenizer :=
  { XmlTokenizer.new [] XlsxLimits.standard.maxTagBytes XlsxLimits.standard.maxCellBytes with
    state := .text, tag := bytesOf tag }

/-- The cursor in front of that many rows. -/
def inFront (count last events : Nat) (tag : List Char) : SheetCursor (List Byte) :=
  ⟨rowsLeft count, behind tag, .inData, last, 0, 0, events⟩

theorem feed_behind (tag : List Char) (bytes : List Byte) :
    XmlTokenizer.feed (byteOf '<' :: bytes) (behind tag) =
      XmlTokenizer.feed (byteOf '<' :: bytes) (behind []) := rfl

theorem startRow_next {count last events : Nat} (h : last < xlsxMaxRows) :
    (inFront count last events ['r', 'o', 'w', '/']).startRow = .ok (last + 1) := by
  have hattr : (inFront count last events ['r', 'o', 'w', '/']).attributeOf ['r'] = .ok none := rfl
  have hlast : (inFront count last events ['r', 'o', 'w', '/']).lastRow = last := rfl
  simp only [SheetCursor.startRow, hattr, hlast, bind, Except.bind, pure, Except.pure]
  rw [if_neg]
  omega

theorem rowPass_row {count last events : Nat} (h : last < xlsxMaxRows) :
    SheetCursor.rowPass viewport.context noLimits none (some (.startTag true))
      ⟨.default, false, .empty⟩ (inFront count last events ['r', 'o', 'w', '/'], ()) =
      (.ok (.found (last + 1) ⟨.default, false, .empty⟩),
        inFront count (last + 1) events ['r', 'o', 'w', '/'], ()) := by
  have hname : (inFront count last events ['r', 'o', 'w', '/']).named ['r', 'o', 'w'] = true := rfl
  simp only [SheetCursor.rowPass, Exec.run_get_bind]
  show SheetCursor.inDataPass none (.startTag true) _ _ = _
  simp only [SheetCursor.inDataPass, Exec.run_get_bind, if_pos hname, SheetCursor.rowStarts,
    startRow_next h]
  rfl

variable {count last events fuel : Nat} {tag : List Char}

theorem rowLoop_row (h : last < xlsxMaxRows) :
    SheetCursor.rowLoop viewport.context noLimits wholePart neverCancelled none (fuel + 1)
      ⟨.default, false, .empty⟩ (inFront (count + 1) last events tag, ()) =
      (.ok (some (last + 1), .empty),
        inFront count (last + 1) ((events + 1) % 2 ^ 32) ['r', 'o', 'w', '/'], ()) := by
  have hevent : SheetCursor.nextEvent wholePart neverCancelled
      (inFront (count + 1) last events tag, ()) = (.ok (some (.startTag true)),
        inFront count last ((events + 1) % 2 ^ 32) ['r', 'o', 'w', '/'], ()) := by
    have hrest : rowsLeft (count + 1) = rowTag ++ rowsLeft count := by
      rw [rowsLeft, List.replicate_succ, List.flatten_cons, List.append_assoc, rowsLeft]
    have hfeed : XmlTokenizer.feed rowTag (behind []) =
        (.ok (rowTag.length, some (.startTag true)), behind ['r', 'o', 'w', '/']) := by
      decide +kernel
    rw [inFront, hrest]
    exact nextEvent_tag (by decide) ((feed_behind tag _).trans hfeed) _ _ _ _ _ _
  rw [SheetCursor.rowLoop, Exec.run_bind_ok hevent, Exec.run_bind_ok (rowPass_row h)]
  rfl

theorem nextRow_row (h : last < xlsxMaxRows) :
    SheetCursor.nextRow viewport.context noLimits wholePart neverCancelled none .empty
      (inFront (count + 1) last events tag, ()) =
      (.ok (some (last + 1), .empty),
        inFront count (last + 1) ((events + 1) % 2 ^ 32) ['r', 'o', 'w', '/'], ()) := by
  rw [SheetCursor.nextRow, Exec.run_get_bind]
  exact rowLoop_row h

theorem nextRow_end :
    (SheetCursor.nextRow viewport.context noLimits wholePart neverCancelled none .empty
      (inFront 0 last events tag, ())).1 = .ok (none, .empty) ∧
    (SheetCursor.nextRow viewport.context noLimits wholePart neverCancelled none .empty
      (inFront 0 last events tag, ())).2.1.phase = .after := by
  have hevent : SheetCursor.nextEvent wholePart neverCancelled
      (inFront 0 last events tag, ()) = (.ok (some .endTag),
        ⟨[], behind "/sheetData".toList, .inData, last, 0, 0, (events + 1) % 2 ^ 32⟩, ()) := by
    have hfeed : XmlTokenizer.feed (bytesOf "</sheetData>".toList) (behind []) =
        (.ok ((bytesOf "</sheetData>".toList).length, some .endTag),
          behind "/sheetData".toList) := by
      decide +kernel
    have hrest : rowsLeft 0 = bytesOf "</sheetData>".toList ++ [] := by decide +kernel
    rw [inFront, hrest]
    exact nextEvent_tag (by decide) ((feed_behind tag _).trans hfeed) _ _ _ _ _ _
  have hpass : ∀ cursor : SheetCursor (List Byte), cursor.phase = .inData →
      cursor.xml = behind "/sheetData".toList →
      SheetCursor.rowPass viewport.context noLimits none (some .endTag) ⟨.default, false, .empty⟩
        (cursor, ()) = (.ok .ended, { cursor with phase := .after }, ()) := by
    intro cursor hphase hxml
    have hname : cursor.named SheetCursor.sheetData = true := by
      rw [SheetCursor.named, hxml]
      decide +kernel
    simp only [SheetCursor.rowPass, Exec.run_get_bind, hphase, SheetCursor.inDataPass, if_pos hname,
      Exec.run_modify_bind, Exec.run_pure]
  rw [SheetCursor.nextRow, Exec.run_get_bind, SheetCursor.rowLoop, Exec.run_bind_ok hevent,
    Exec.run_bind_ok (hpass _ rfl rfl)]
  exact ⟨rfl, rfl⟩

theorem nextRow_first :
    SheetCursor.nextRow viewport.context noLimits wholePart neverCancelled none .empty
      ((new (sheet (count + 1)) [] .standard).cursor, ()) =
      (.ok (some 1, .empty), inFront count 1 2 ['r', 'o', 'w', '/'], ()) := by
  have hevent : SheetCursor.nextEvent wholePart neverCancelled
      ((new (sheet (count + 1)) [] .standard).cursor, ()) = (.ok (some (.startTag false)),
        ⟨rowsLeft (count + 1), behind "sheetData".toList, .beforeData, 0, 0, 0, 1⟩, ()) := by
    have hfeed : XmlTokenizer.feed (bytesOf "<sheetData>".toList)
        (.new [] XlsxLimits.standard.maxTagBytes XlsxLimits.standard.maxCellBytes) =
        (.ok ((bytesOf "<sheetData>".toList).length, some (.startTag false)),
          behind "sheetData".toList) := by
      decide +kernel
    exact nextEvent_tag (by decide) hfeed _ _ _ _ _ _
  have hpass : ∀ cursor : SheetCursor (List Byte), cursor.phase = .beforeData →
      cursor.xml = behind "sheetData".toList →
      SheetCursor.rowPass viewport.context noLimits none (some (.startTag false))
        ⟨.default, false, .empty⟩ (cursor, ()) =
          (.ok (.more ⟨.default, false, .empty⟩), { cursor with phase := .inData }, ()) := by
    intro cursor hphase hxml
    have hname : cursor.named SheetCursor.sheetData = true := by
      rw [SheetCursor.named, hxml]
      decide +kernel
    simp only [SheetCursor.rowPass, Exec.run_get_bind, hphase, SheetCursor.beforeDataPass,
      if_pos hname, Bool.false_eq_true, if_false, Exec.run_modify_bind, Exec.run_pure]
  rw [SheetCursor.nextRow, Exec.run_get_bind, SheetCursor.rowLoop, Exec.run_bind_ok hevent,
    Exec.run_bind_ok (hpass _ rfl rfl)]
  exact rowLoop_row (show 0 < xlsxMaxRows by decide)

theorem nextRow_behind {cursor : SheetCursor (List Byte)} (h : cursor.phase = .after) (w : Unit) :
    (SheetCursor.nextRow viewport.context noLimits wholePart neverCancelled none .empty
      (cursor, w)).2.1.phase = .after ∧ ∀ number builder,
    (SheetCursor.nextRow viewport.context noLimits wholePart neverCancelled none .empty
      (cursor, w)).1 ≠ .ok (some number, builder) := by
  have hstays := SheetCursor.nextRow_after viewport.context noLimits wholePart neverCancelled none
    .empty (cursor, w) h
  rcases hrun : SheetCursor.nextRow viewport.context noLimits wholePart neverCancelled none .empty
      (cursor, w) with ⟨error | ⟨number, builder⟩, cursor', w⟩
  · rw [hrun] at hstays
    exact ⟨hstays, fun _ _ heq => by cases heq⟩
  · rw [hrun] at hstays
    refine ⟨hstays.2, fun number' builder' heq => ?_⟩
    cases heq
    cases hstays.1

/-- The rows are read one after the other, and then the end of the sheet data. -/
theorem sheet_consecutive {rows : Nat} (hrows : rows < xlsxMaxRows) :
    Consecutive viewport.context wholePart neverCancelled
      (new (sheet (rows + 1)) [] .standard).cursor 0 := by
  have honWay : ∀ cursor, OnWay viewport.context wholePart neverCancelled
      (new (sheet (rows + 1)) [] .standard).cursor cursor →
      cursor = (new (sheet (rows + 1)) [] .standard).cursor ∨
      (∃ count last events, count + last = rows + 1 ∧
        cursor = inFront count last events ['r', 'o', 'w', '/']) ∨ cursor.phase = .after := by
    intro cursor h
    induction h with
    | first => exact .inl rfl
    | row w _ ih =>
      rcases ih with rfl | ⟨_ | count, last, events, hsum, rfl⟩ | hphase
      · rw [nextRow_first]
        exact .inr (.inl ⟨rows, 1, 2, rfl, rfl⟩)
      · exact .inr (.inr nextRow_end.2)
      · rw [nextRow_row (by omega)]
        exact .inr (.inl ⟨count, last + 1, _, by omega, rfl⟩)
      · exact .inr (.inr (nextRow_behind hphase w).1)
  intro cursor w number builder h hfound
  rcases honWay cursor h with rfl | ⟨_ | count, last, events, hsum, rfl⟩ | hphase
  · rw [nextRow_first] at hfound
    cases hfound
    rfl
  · rw [nextRow_end.1] at hfound
    cases hfound
  · rw [nextRow_row (by omega)] at hfound
    cases hfound
    exact (congrArg (· + 1) (Nat.zero_max last)).symm
  · exact absurd hfound ((nextRow_behind hphase w).2 number builder)

theorem step_visits {scan : XlsxSheetScan (List Byte)} {cursor : SheetCursor (List Byte)}
    {number : Nat} {builder : RowBuilder} (hopen : scan.complete = false)
    (hfound : SheetCursor.nextRow viewport.context noLimits wholePart neverCancelled none .empty
      (scan.cursor, ()) = (.ok (some number, builder), cursor, ())) :
    (step viewport.context wholePart neverCancelled 0 (scan, ())).2.1.cursor = cursor ∧
      (step viewport.context wholePart neverCancelled 0 (scan, ())).2.1.complete = false := by
  have hask : askToken neverCancelled (scan, ()) = (.ok false, scan, ()) := rfl
  have hread : onCursor (SheetCursor.nextRow viewport.context noLimits wholePart neverCancelled none
      .empty) (scan, ()) =
        (.ok (some (some number, builder)), { scan with cursor := cursor }, ()) := by
    simp only [onCursor, hfound]
  have hloop : stepLoop viewport.context wholePart neverCancelled 0
      (wholePart.consumed scan.cursor.stream) (wholePart.produced scan.cursor.stream)
      (wholePart.todo scan.cursor.stream + 2) (scan, ()) = (.ok .progress,
        (if scan.nextCheckpoint ≤ number then addCheckpoint wholePart { scan with cursor := cursor }
          else { scan with cursor := cursor }), ()) := by
    rw [stepLoop, Exec.run_bind_ok hask, if_neg (by decide), Exec.run_bind_ok hread]
    dsimp only
    rw [Exec.run_modify_bind, Exec.run_get_bind, if_pos (.inl (Nat.zero_le _))]
    rfl
  have hstep : (step viewport.context wholePart neverCancelled 0 (scan, ())).2.1 =
      if scan.nextCheckpoint ≤ number then addCheckpoint wholePart { scan with cursor := cursor }
        else { scan with cursor := cursor } := by
    unfold step
    rw [Exec.run_get_bind, if_neg (by rw [hopen]; decide), Exec.run_bind_ok hloop]
    rfl
  rw [hstep]
  split <;> exact ⟨rfl, hopen⟩

/-- Steps of one row each. -/
theorem sheet_scanned {rows : Nat} (hrows : rows < xlsxMaxRows) (k : Nat) (hk : k ≤ rows) :
    ∃ scan events, Scanned viewport.context wholePart neverCancelled
      (new (sheet (rows + 1)) [] .standard) scan ∧ scan.complete = false ∧
        scan.cursor = inFront (rows - k) (k + 1) events ['r', 'o', 'w', '/'] := by
  induction k with
  | zero =>
    obtain ⟨hcursor, hopen⟩ := step_visits rfl (@nextRow_first rows)
    exact ⟨_, _, .step 0 () .start, hopen, hcursor⟩
  | succ k ih =>
    obtain ⟨scan, events, hscan, hopen, hcursor⟩ := ih (by omega)
    have hleft : rows - k = rows - (k + 1) + 1 := by omega
    have hrow := @nextRow_row (rows - (k + 1)) (k + 1) events ['r', 'o', 'w', '/'] (by omega)
    rw [← hleft, ← hcursor] at hrow
    obtain ⟨hnext, hstill⟩ := step_visits hopen hrow
    exact ⟨_, _, .step 0 () hscan, hstill, hnext⟩

theorem le_of_chain {stride a b : Nat} {xs : List Nat}
    (h : List.IsChain (fun a b => b ≤ a + stride) (a :: (xs ++ [b]))) :
    b ≤ a + (xs.length + 1) * stride := by
  induction xs generalizing a with
  | nil => simpa using h
  | cons x xs ih =>
    obtain ⟨hx, hrest⟩ : x ≤ a + stride ∧
        List.IsChain (fun a b => b ≤ a + stride) (x :: (xs ++ [b])) := by simpa using h
    have hb := ih hrest
    rw [List.length_cons, Nat.succ_mul]
    omega

/-- So many rows that every second checkpoint had to go. -/
theorem checkpoints_dense_manyRows : ∃ scan,
    Scanned viewport.context wholePart neverCancelled (new (sheet 140000) [] .standard) scan ∧
      scan.cursor.lastRow = 140000 ∧ scan.checkpoints.length ≤ 32 ∧ 4096 < scan.stride ∧
      List.IsChain (fun a b => b ≤ a + scan.stride)
        (0 :: (scan.checkpoints.map SheetCursor.lastRow ++ [scan.cursor.lastRow])) := by
  have hrows : 139999 < xlsxMaxRows := by decide
  obtain ⟨scan, events, hscan, -, hcursor⟩ := sheet_scanned hrows 139999 (Nat.le_refl _)
  have hlast : scan.cursor.lastRow = 140000 := congrArg SheetCursor.lastRow hcursor
  obtain ⟨hroom, -, hchain, -⟩ :=
    checkpoints_dense (sheet 140000) [] .standard (sheet_consecutive hrows) hscan
  rw [List.length_map] at hroom
  refine ⟨scan, hscan, hlast, hroom, ?_, hchain⟩
  have hspan := le_of_chain hchain
  rw [hlast, List.length_map] at hspan
  have hroom' : scan.checkpoints.length + 1 ≤ 33 := Nat.succ_le_succ hroom
  have hmost := Nat.mul_le_mul_right scan.stride hroom'
  omega

end ManyRows

end XlsxSheetScan

end LeanRows.Xlsx
