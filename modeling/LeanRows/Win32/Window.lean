import LeanRows.Engine.Rows

/-!
# The window of the list on the rows

The native list shows a bounded number of rows of a file that may have far more. The window
keeps the first row shown and how many there are. Every operation clamps both again.
-/

namespace LeanRows

set_option autoImplicit false

/-- What the native list can count. -/
def maxNativeRows : Nat := 100000000

structure SlidingRowWindow where
  totalRows : Nat
  firstRow : Nat
  visibleRows : Nat
deriving DecidableEq, Repr

namespace SlidingRowWindow

def new (totalRows : UInt64) (requestedVisibleRows : UInt32) : SlidingRowWindow :=
  let nativeRows :=
    if maxNativeRows < requestedVisibleRows.toNat then maxNativeRows
    else requestedVisibleRows.toNat
  let visibleRows :=
    if totalRows.toNat < nativeRows then
      if totalRows.toNat < 2 ^ 32 then totalRows.toNat else maxNativeRows
    else nativeRows
  ⟨totalRows.toNat, 0, visibleRows⟩

def maxFirstRow (window : SlidingRowWindow) : Nat := window.totalRows - window.visibleRows

def setTotalRows (totalRows : UInt64) (window : SlidingRowWindow) : SlidingRowWindow :=
  let bound := if totalRows.toNat < 2 ^ 32 then totalRows.toNat else 2 ^ 32 - 1
  let window := { window with
    totalRows := totalRows.toNat
    visibleRows := min window.visibleRows bound }
  { window with firstRow := min window.firstRow window.maxFirstRow }

def setVisibleRows (requested : UInt64) (window : SlidingRowWindow) : SlidingRowWindow :=
  let bounded := min (min requested.toNat maxNativeRows) window.totalRows
  let window := { window with
    visibleRows := if bounded < 2 ^ 32 then bounded else maxNativeRows }
  { window with firstRow := min window.firstRow window.maxFirstRow }

def seek (requestedFirstRow : Nat) (window : SlidingRowWindow) : SlidingRowWindow :=
  { window with firstRow := min requestedFirstRow window.maxFirstRow }

def centerOn (absoluteRow : UInt64) (window : SlidingRowWindow) : SlidingRowWindow :=
  let boundedRow := min absoluteRow.toNat (window.totalRows - 1)
  window.seek (boundedRow - window.visibleRows / 2)

def scroll (delta : Int64) (window : SlidingRowWindow) : SlidingRowWindow :=
  let candidate :=
    if delta.toInt < 0 then window.firstRow - delta.toInt.natAbs
    else saturatingAdd window.firstRow delta.toInt.natAbs
  window.seek candidate

/-- The row of a list index. -/
def localToAbsolute (window : SlidingRowWindow) (localRow : Int32) : Option Nat :=
  if localRow.toInt < 0 then none
  else if window.visibleRows ≤ localRow.toInt.toNat then none
  else
    let absolute := window.firstRow + localRow.toInt.toNat
    if u64Bound ≤ absolute then none
    else if absolute < window.totalRows then some absolute
    else none

/-- The list index of a row. -/
def absoluteToLocal (window : SlidingRowWindow) (absoluteRow : UInt64) : Option Nat :=
  if window.totalRows ≤ absoluteRow.toNat then none
  else if absoluteRow.toNat < window.firstRow then none
  else
    let localRow := absoluteRow.toNat - window.firstRow
    if window.visibleRows ≤ localRow then none
    else if localRow < 2 ^ 31 then some localRow
    else none

/-! ## Runs -/

inductive Operation where
  | setVisibleRows (requested : UInt64)
  | setTotalRows (totalRows : UInt64)
  | seek (requestedFirstRow : UInt64)
  | scroll (delta : Int64)
  | centerOn (absoluteRow : UInt64)
deriving DecidableEq

def apply (window : SlidingRowWindow) : Operation → SlidingRowWindow
  | .setVisibleRows requested => window.setVisibleRows requested
  | .setTotalRows totalRows => window.setTotalRows totalRows
  | .seek requestedFirstRow => window.seek requestedFirstRow.toNat
  | .scroll delta => window.scroll delta
  | .centerOn absoluteRow => window.centerOn absoluteRow

def run (totalRows : UInt64) (requestedVisibleRows : UInt32) (operations : List Operation) :
    SlidingRowWindow :=
  operations.foldl apply (new totalRows requestedVisibleRows)

/-- The rows shown are rows of the file, and the list can count them. -/
structure Valid (window : SlidingRowWindow) : Prop where
  total : window.totalRows < u64Bound
  native : window.visibleRows ≤ maxNativeRows
  visible : window.visibleRows ≤ window.totalRows
  last : window.firstRow + window.visibleRows ≤ window.totalRows

section Valid
variable {window : SlidingRowWindow}

theorem new_valid (totalRows : UInt64) (requestedVisibleRows : UInt32) :
    (new totalRows requestedVisibleRows).Valid := by
  have htotal := totalRows.toNat_lt
  unfold new
  generalize hbound : (if maxNativeRows < requestedVisibleRows.toNat then maxNativeRows
    else requestedVisibleRows.toNat) = nativeRows
  have hnative : nativeRows ≤ maxNativeRows := by
    split_ifs at hbound <;> omega
  rw [maxNativeRows] at hnative
  refine ⟨htotal, ?_, ?_, ?_⟩
  all_goals
    simp only [maxNativeRows]
    split_ifs <;> omega

/-- A first row that is clamped leaves room for the rows shown. -/
theorem Valid.clamped {firstRow visibleRows totalRows : Nat} (htotal : totalRows < u64Bound)
    (hnative : visibleRows ≤ maxNativeRows) (hvisible : visibleRows ≤ totalRows) :
    Valid ⟨totalRows, min firstRow (totalRows - visibleRows), visibleRows⟩ := by
  refine ⟨htotal, hnative, hvisible, ?_⟩
  show min firstRow (totalRows - visibleRows) + visibleRows ≤ totalRows
  omega

theorem Valid.seek (h : window.Valid) (requestedFirstRow : Nat) :
    (window.seek requestedFirstRow).Valid :=
  .clamped h.total h.native h.visible

theorem Valid.setTotalRows (h : window.Valid) (totalRows : UInt64) :
    (window.setTotalRows totalRows).Valid := by
  have hnative := h.native
  refine .clamped totalRows.toNat_lt ?_ ?_
  · exact (Nat.min_le_left _ _).trans hnative
  · rw [maxNativeRows] at hnative
    dsimp only
    split_ifs <;> omega

theorem Valid.setVisibleRows (h : window.Valid) (requested : UInt64) :
    (window.setVisibleRows requested).Valid := by
  have hbound : min (min requested.toNat maxNativeRows) window.totalRows < 2 ^ 32 := by
    rw [maxNativeRows]
    omega
  unfold SlidingRowWindow.setVisibleRows
  simp only [if_pos hbound]
  exact .clamped h.total ((Nat.min_le_left _ _).trans (Nat.min_le_right _ _))
    (Nat.min_le_right _ _)

theorem Valid.apply (h : window.Valid) (operation : Operation) :
    (window.apply operation).Valid := by
  cases operation with
  | setVisibleRows requested => exact h.setVisibleRows requested
  | setTotalRows totalRows => exact h.setTotalRows totalRows
  | seek requestedFirstRow => exact h.seek requestedFirstRow.toNat
  | scroll delta => exact h.seek _
  | centerOn absoluteRow => exact h.seek _

theorem run_valid (totalRows : UInt64) (requestedVisibleRows : UInt32)
    (operations : List Operation) : (run totalRows requestedVisibleRows operations).Valid := by
  unfold run
  have hnew := new_valid totalRows requestedVisibleRows
  generalize new totalRows requestedVisibleRows = window at hnew
  induction operations generalizing window with
  | nil => exact hnew
  | cons operation operations ih => exact ih (window.apply operation) (hnew.apply operation)

/-! ### Rows and list indices -/

theorem Valid.localToAbsolute_eq_some (h : window.Valid) (localRow : Int32) (absolute : Nat) :
    window.localToAbsolute localRow = some absolute ↔
      0 ≤ localRow.toInt ∧ localRow.toInt.toNat < window.visibleRows ∧
        absolute = window.firstRow + localRow.toInt.toNat := by
  have hlast := h.last
  have htotal := h.total
  unfold localToAbsolute
  by_cases hneg : localRow.toInt < 0
  · rw [if_pos hneg]
    exact ⟨fun hnone => (by cases hnone), fun hin => absurd hneg (not_lt.mpr hin.1)⟩
  rw [if_neg hneg]
  by_cases hout : window.visibleRows ≤ localRow.toInt.toNat
  · rw [if_pos hout]
    exact ⟨fun hnone => (by cases hnone), fun hin => absurd hout (not_le.mpr hin.2.1)⟩
  have hwide : ¬ u64Bound ≤ window.firstRow + localRow.toInt.toNat := by omega
  have hrow : window.firstRow + localRow.toInt.toNat < window.totalRows := by omega
  rw [if_neg hout]
  simp only [if_neg hwide, if_pos hrow, Option.some.injEq]
  exact ⟨fun heq => ⟨not_lt.mp hneg, not_le.mp hout, heq.symm⟩, fun hin => hin.2.2.symm⟩

theorem Valid.absoluteToLocal_eq_some (h : window.Valid) (absoluteRow : UInt64) (localRow : Nat) :
    window.absoluteToLocal absoluteRow = some localRow ↔
      window.firstRow ≤ absoluteRow.toNat ∧
        absoluteRow.toNat < window.firstRow + window.visibleRows ∧
        localRow = absoluteRow.toNat - window.firstRow := by
  have hlast := h.last
  have hnative := h.native
  rw [maxNativeRows] at hnative
  unfold absoluteToLocal
  by_cases hend : window.totalRows ≤ absoluteRow.toNat
  · rw [if_pos hend]
    exact ⟨fun hnone => (by cases hnone), fun hin => absurd hin.2.1 (by omega)⟩
  rw [if_neg hend]
  by_cases hbefore : absoluteRow.toNat < window.firstRow
  · rw [if_pos hbefore]
    exact ⟨fun hnone => (by cases hnone), fun hin => absurd hbefore (not_lt.mpr hin.1)⟩
  rw [if_neg hbefore]
  by_cases hbehind : window.visibleRows ≤ absoluteRow.toNat - window.firstRow
  · simp only [if_pos hbehind]
    exact ⟨fun hnone => (by cases hnone), fun hin => absurd hin.2.1 (by omega)⟩
  have hnarrow : absoluteRow.toNat - window.firstRow < 2 ^ 31 := by omega
  simp only [if_neg hbehind, if_pos hnarrow, Option.some.injEq]
  exact ⟨fun heq => ⟨not_lt.mp hbefore, by omega, heq.symm⟩, fun hin => hin.2.2.symm⟩

/-- A row that the window is centred on is one of those shown. -/
theorem Valid.centerOn_shows (h : window.Valid) (hshown : 0 < window.visibleRows)
    {absoluteRow : UInt64} (hrow : absoluteRow.toNat < window.totalRows) :
    (window.centerOn absoluteRow).firstRow ≤ absoluteRow.toNat ∧
      absoluteRow.toNat < (window.centerOn absoluteRow).firstRow + window.visibleRows := by
  have hvisible := h.visible
  unfold centerOn SlidingRowWindow.seek maxFirstRow
  dsimp only
  omega

end Valid

/-- In every state that is reached the window lies inside the file, rows and list indices are
the same rows, and a row that is centred on is shown. -/
theorem window_inside (totalRows : UInt64) (requestedVisibleRows : UInt32)
    (operations : List Operation) :
    let window := run totalRows requestedVisibleRows operations
    (window.visibleRows ≤ window.totalRows ∧ window.visibleRows ≤ maxNativeRows ∧
      window.firstRow + window.visibleRows ≤ window.totalRows) ∧
    (∀ localRow absolute, window.localToAbsolute localRow = some absolute ↔
      0 ≤ localRow.toInt ∧ localRow.toInt.toNat < window.visibleRows ∧
        absolute = window.firstRow + localRow.toInt.toNat) ∧
    (∀ absoluteRow localRow, window.absoluteToLocal absoluteRow = some localRow ↔
      window.firstRow ≤ absoluteRow.toNat ∧
        absoluteRow.toNat < window.firstRow + window.visibleRows ∧
        localRow = absoluteRow.toNat - window.firstRow) ∧
    (∀ (localRow : Int32) (absoluteRow : UInt64), 0 ≤ localRow.toInt →
      (window.localToAbsolute localRow = some absoluteRow.toNat ↔
        window.absoluteToLocal absoluteRow = some localRow.toInt.toNat)) ∧
    (0 < window.visibleRows → ∀ absoluteRow : UInt64, absoluteRow.toNat < window.totalRows →
      ((window.centerOn absoluteRow).absoluteToLocal absoluteRow).isSome) := by
  intro window
  have h : window.Valid := run_valid totalRows requestedVisibleRows operations
  refine ⟨⟨h.visible, h.native, h.last⟩, h.localToAbsolute_eq_some, h.absoluteToLocal_eq_some,
    fun localRow absoluteRow hlocal => ?_, fun hshown absoluteRow hrow => ?_⟩
  · rw [h.localToAbsolute_eq_some, h.absoluteToLocal_eq_some]
    omega
  · have hcentred : (window.centerOn absoluteRow).Valid := h.seek _
    have hshows := h.centerOn_shows hshown hrow
    exact Option.isSome_iff_exists.mpr
      ⟨_, (hcentred.absoluteToLocal_eq_some absoluteRow _).mpr ⟨hshows.1, hshows.2, rfl⟩⟩

end SlidingRowWindow

end LeanRows
