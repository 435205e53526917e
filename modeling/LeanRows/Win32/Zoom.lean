import Mathlib

/-!
# Column widths across zoom changes

Every column keeps a width at a known zoom, and a change of the zoom scales this width and not
the one shown before. A width that is not the one given to the list last was set by the user.
-/

namespace LeanRows.Zoom

set_option autoImplicit false

def defaultZoom : Nat := 100

def i32Max : Int := 2 ^ 31 - 1

def i32Min : Int := -2 ^ 31

/-- A size at a zoom in percent. What is not zero stays so. -/
def scaleByZoom (size : Int) (zoom : Nat) : Int :=
  let scaled := (size * zoom + size.sign * 50).tdiv 100
  let scaled := if scaled = 0 then size.sign else scaled
  if i32Min ≤ scaled ∧ scaled ≤ i32Max then scaled else if size < 0 then i32Min else i32Max

/-- A width at one zoom, at another. -/
def scaleWidth (width : Int) (before after : Nat) : Int :=
  let before : Int := max before 1
  let scaled := (width * after + before.tdiv 2).tdiv before
  max (if i32Min ≤ scaled ∧ scaled ≤ i32Max then scaled else i32Max) 1

structure ColumnBasis where
  width : Int
  zoom : Nat
  applied : Int
deriving DecidableEq, Repr

def ColumnBasis.unknown : ColumnBasis := ⟨0, defaultZoom, -1⟩

structure ColumnZoom where
  columns : List ColumnBasis
deriving DecidableEq, Repr

namespace ColumnZoom

/-- The columns as a list of some length. -/
def resize (length : Nat) (columns : List ColumnBasis) : List ColumnBasis :=
  columns.take length ++ List.replicate (length - columns.length) ColumnBasis.unknown

def insert (index : Nat) (design : Int) (zoom : Nat) (state : ColumnZoom) : Int × ColumnZoom :=
  let applied := max (scaleByZoom design zoom) 1
  let columns := if state.columns.length ≤ index then resize (index + 1) state.columns
    else state.columns
  (applied, ⟨columns.set index ⟨design, defaultZoom, applied⟩⟩)

def rescaleColumn (before after : Nat) (width : Int) (basis : ColumnBasis) : ColumnBasis :=
  let basis := if basis.applied ≠ width then ⟨width, max before 1, width⟩ else basis
  { basis with applied := scaleWidth basis.width basis.zoom after }

/-- The widths at another zoom, given the widths shown. -/
def rescale (current : List Int) (before after : Nat) (state : ColumnZoom) :
    List Int × ColumnZoom :=
  let columns := List.zipWith (rescaleColumn before after) current
    (resize current.length state.columns)
  (columns.map ColumnBasis.applied, ⟨columns⟩)

end ColumnZoom

/-! ## Widths and levels -/

/-- A width that a column may have. -/
structure Width where
  value : Int
  pos : 0 < value
  le : value ≤ i32Max
deriving DecidableEq

/-- A zoom level. -/
structure Level where
  percent : Nat
  pos : 0 < percent
  lt : percent < 2 ^ 32
deriving DecidableEq

/-- A width, and the level at which it is this width. -/
structure Basis where
  width : Width
  level : Level
deriving DecidableEq

namespace Basis

def widthAt (basis : Basis) (level : Level) : Int :=
  scaleWidth basis.width.value basis.level.percent level.percent

def design (width : Width) : Basis := ⟨width, ⟨defaultZoom, by decide, by decide⟩⟩

end Basis

section Scale
variable (width : Width) (level after : Level)

/-- The products of a scaling fit into an `i64`. -/
theorem scale_fits :
    width.value * after.percent + (level.percent : Int) / 2 < 2 ^ 63 := by
  have hwidth := width.pos
  have hle := width.le
  have hafter := after.lt
  have hlevel := level.lt
  unfold i32Max at hle
  have hproduct : width.value * after.percent ≤ (2 ^ 31 - 1) * 2 ^ 32 :=
    mul_le_mul hle (by omega) (by omega) (by omega)
  omega

/-- At its own level a width is what it was. -/
theorem scaleWidth_self : scaleWidth width.value level.percent level.percent = width.value := by
  have hwidth := width.pos
  have hle := width.le
  have hlevel := level.pos
  have hone : max (level.percent : Int) 1 = level.percent := max_eq_left (by omega)
  have hmul : 0 < width.value * level.percent := mul_pos hwidth (by omega)
  have hscaled : (width.value * level.percent + (level.percent : Int).tdiv 2).tdiv level.percent =
      width.value := by
    have hhalf : (level.percent : Int).tdiv 2 = level.percent / 2 :=
      Int.tdiv_eq_ediv_of_nonneg (by omega)
    rw [hhalf, Int.tdiv_eq_ediv_of_nonneg (by omega), add_comm,
      Int.add_mul_ediv_right _ _ (by omega),
      Int.ediv_eq_zero_of_lt (by omega) (by omega), zero_add]
  unfold scaleWidth
  simp only [hone, hscaled]
  unfold i32Min
  rw [if_pos ⟨by omega, hle⟩]
  omega

/-- The two ways to scale a design width are one. -/
theorem insert_width : max (scaleByZoom width.value level.percent) 1 =
    (Basis.design width).widthAt level := by
  have hwidth := width.pos
  have hsign : width.value.sign = 1 := Int.sign_eq_one_of_pos hwidth
  have hnonneg : 0 ≤ (width.value * level.percent + 1 * 50).tdiv 100 :=
    Int.tdiv_nonneg (by positivity) (by decide)
  have hhundred : max ((defaultZoom : Nat) : Int) 1 = 100 := rfl
  have hfifty : (100 : Int).tdiv 2 = 1 * 50 := rfl
  unfold Basis.widthAt Basis.design scaleByZoom scaleWidth
  simp only [hsign, hhundred, hfifty]
  generalize (width.value * level.percent + 1 * 50).tdiv 100 = scaled at hnonneg ⊢
  unfold i32Min i32Max
  split_ifs <;> omega

end Scale

/-! ## Runs -/

/-- The list with its columns, and the level it is shown at. -/
structure Grid where
  zoom : ColumnZoom
  shown : List Int
  level : Level

inductive Operation where
  | insert (design : Width)
  | setWidth (index : Nat) (width : Width)
  | zoomTo (level : Level)

namespace Grid

def start (level : Level) : Grid := ⟨⟨[]⟩, [], level⟩

def apply (grid : Grid) : Operation → Grid
  | .insert design =>
    let (applied, zoom) := grid.zoom.insert grid.shown.length design.value grid.level.percent
    { grid with zoom := zoom, shown := grid.shown ++ [applied] }
  | .setWidth index width => { grid with shown := grid.shown.set index width.value }
  | .zoomTo level =>
    let (shown, zoom) := grid.zoom.rescale grid.shown grid.level.percent level.percent
    ⟨zoom, shown, level⟩

def run (level : Level) (operations : List Operation) : Grid :=
  operations.foldl apply (start level)

end Grid

/-! ## What a column's width comes from -/

/-- The basis at the last zoom change, and the basis now. -/
structure Column where
  last : Basis
  now : Basis

namespace Column

def insert (design : Width) : Column := ⟨.design design, .design design⟩

/-- The user sets a width. The one that the column was given at this level is no new one. -/
def setWidth (level : Level) (width : Width) (column : Column) : Column :=
  { column with
    now := if width.value = column.last.widthAt level then column.last else ⟨width, level⟩ }

def zoomed (column : Column) : Column := ⟨column.now, column.now⟩

/-- Of a column that the user has set, the basis is what the user set. -/
def WellFormed (level : Level) (column : Column) : Prop :=
  column.now = column.last ∨
    column.now.level = level ∧ column.now.width.value ≠ column.last.widthAt level

end Column

def columnsApply (level : Level) (columns : List Column) : Operation → List Column
  | .insert design => columns ++ [.insert design]
  | .setWidth index width => columns.modify index (Column.setWidth level width)
  | .zoomTo _ => columns.map Column.zoomed

/-- The level behind an operation. -/
def levelAfter (level : Level) : Operation → Level
  | .zoomTo level => level
  | _ => level

/-- The columns of a run, and its level. -/
def columnsRun : Level → List Column → List Operation → List Column × Level
  | level, columns, [] => (columns, level)
  | level, columns, operation :: operations =>
    columnsRun (levelAfter level operation) (columnsApply level columns operation) operations

/-! ### The list follows -/

section Modify
variable {α β : Type} {columns : List α} {f : α → α} {g : α → β}

theorem map_modify_eq (h : ∀ column, g (f column) = g column) (index : Nat) :
    (columns.modify index f).map g = columns.map g := by
  induction columns generalizing index with
  | nil => simp
  | cons column columns ih => cases index <;> simp [h, ih]

theorem map_modify_set {value : β} (h : ∀ column, g (f column) = value) (index : Nat) :
    (columns.modify index f).map g = (columns.map g).set index value := by
  induction columns generalizing index with
  | nil => simp
  | cons column columns ih => cases index <;> simp [h, ih]

theorem forall_mem_modify {P : α → Prop} (h : ∀ column ∈ columns, P column)
    (hf : ∀ column, P (f column)) (index : Nat) : ∀ column ∈ columns.modify index f, P column := by
  induction columns generalizing index with
  | nil => simp
  | cons column columns ih =>
    have hcolumn := h column (List.mem_cons_self ..)
    have hcolumns := fun column hmem => h column (List.mem_cons_of_mem _ hmem)
    cases index with
    | zero => simpa using ⟨hf column, hcolumns⟩
    | succ index => simpa using ⟨hcolumn, ih hcolumns index⟩

end Modify

/-- What the list keeps of a column. -/
def Column.kept (level : Level) (column : Column) : ColumnBasis :=
  ⟨column.last.width.value, column.last.level.percent, column.last.widthAt level⟩

structure Follows (columns : List Column) (grid : Grid) : Prop where
  kept : grid.zoom.columns = columns.map (Column.kept grid.level)
  shown : grid.shown = columns.map fun column => column.now.widthAt grid.level
  wellFormed : ∀ column ∈ columns, column.WellFormed grid.level

section Follows
variable {columns : List Column} {grid : Grid}

theorem widthAt_self (basis : Basis) : basis.widthAt basis.level = basis.width.value :=
  scaleWidth_self basis.width basis.level

theorem Follows.insert (h : Follows columns grid) (design : Width) :
    Follows (columns ++ [.insert design]) (grid.apply (.insert design)) := by
  have hlength : grid.shown.length = grid.zoom.columns.length := by
    rw [h.kept, h.shown, List.length_map, List.length_map]
  have hwidth := insert_width design grid.level
  have hcolumns : (ColumnZoom.insert grid.shown.length design.value grid.level.percent
      grid.zoom).2.columns = grid.zoom.columns ++ [(Column.insert design).kept grid.level] := by
    unfold ColumnZoom.insert ColumnZoom.resize
    simp only [hlength, le_refl, if_true, hwidth]
    rw [List.take_of_length_le (by omega), Nat.add_sub_cancel_left, List.replicate_one,
      List.set_append_right _ _ (le_refl _), Nat.sub_self, List.set_cons_zero]
    rfl
  refine ⟨?_, ?_, ?_⟩
  · show (ColumnZoom.insert grid.shown.length design.value grid.level.percent
      grid.zoom).2.columns = _
    rw [hcolumns, h.kept, List.map_append]
    rfl
  · show grid.shown ++ [max (scaleByZoom design.value grid.level.percent) 1] = _
    rw [hwidth, h.shown, List.map_append]
    rfl
  · intro column hcolumn
    rcases List.mem_append.mp hcolumn with hcolumn | hcolumn
    · exact h.wellFormed column hcolumn
    · cases List.mem_singleton.mp hcolumn
      exact .inl rfl

theorem setWidth_widthAt (level : Level) (width : Width) (column : Column) :
    (column.setWidth level width).now.widthAt level = width.value := by
  unfold Column.setWidth
  dsimp only
  split_ifs with hsame
  · exact hsame.symm
  · exact widthAt_self ⟨width, level⟩

theorem setWidth_wellFormed (level : Level) (width : Width) (column : Column) :
    (column.setWidth level width).WellFormed level := by
  unfold Column.setWidth Column.WellFormed
  dsimp only
  split_ifs with hsame
  · exact .inl rfl
  · exact .inr ⟨rfl, hsame⟩

theorem Follows.setWidth (h : Follows columns grid) (index : Nat) (width : Width) :
    Follows (columns.modify index (Column.setWidth grid.level width))
      (grid.apply (.setWidth index width)) := by
  refine ⟨?_, ?_, forall_mem_modify h.wellFormed (setWidth_wellFormed grid.level width) index⟩
  · show grid.zoom.columns = _
    have hkept : ∀ column : Column, (column.setWidth grid.level width).kept grid.level =
        column.kept grid.level := fun _ => rfl
    rw [h.kept, ← map_modify_eq hkept index]
    rfl
  · show grid.shown.set index width.value = _
    rw [h.shown]
    exact (map_modify_set (setWidth_widthAt grid.level width) index).symm

/-- A change of the zoom finds the widths that the user has set, and no others. -/
theorem rescaleColumn_kept {column : Column} {level : Level} (h : column.WellFormed level)
    (after : Level) :
    ColumnZoom.rescaleColumn level.percent after.percent (column.now.widthAt level)
      (column.kept level) = column.zoomed.kept after := by
  rcases h with hlast | ⟨hlevel, hset⟩
  · have hsame : ¬ (column.kept level).applied ≠ column.now.widthAt level := by
      rw [hlast]
      exact fun h => h rfl
    unfold ColumnZoom.rescaleColumn
    rw [if_neg hsame]
    unfold Column.zoomed Column.kept
    rw [hlast]
    rfl
  · have hwidth : column.now.widthAt level = column.now.width.value := by
      rw [← hlevel]
      exact widthAt_self column.now
    have hnew : (column.kept level).applied ≠ column.now.widthAt level := by
      rw [hwidth]
      exact hset.symm
    have hzoom : max level.percent 1 = column.now.level.percent := by
      rw [hlevel]
      exact max_eq_left level.pos
    unfold ColumnZoom.rescaleColumn
    rw [if_pos hnew, hwidth, hzoom]
    rfl

theorem Follows.zoomTo (h : Follows columns grid) (level : Level) :
    Follows (columns.map Column.zoomed) (grid.apply (.zoomTo level)) := by
  have hcolumns : (grid.zoom.rescale grid.shown grid.level.percent level.percent).2.columns =
      (columns.map Column.zoomed).map (Column.kept level) := by
    unfold ColumnZoom.rescale ColumnZoom.resize
    simp only
    rw [h.kept, h.shown, List.length_map, List.length_map, Nat.sub_self, List.replicate_zero,
      List.append_nil, List.take_of_length_le (by rw [List.length_map]), List.zipWith_map,
      List.zipWith_self, List.map_map]
    exact List.map_congr_left fun column hcolumn =>
      rescaleColumn_kept (h.wellFormed column hcolumn) level
  refine ⟨hcolumns, ?_, ?_⟩
  · show (grid.zoom.rescale grid.shown grid.level.percent level.percent).2.columns.map
      ColumnBasis.applied = _
    rw [hcolumns, List.map_map, List.map_map, List.map_map]
    rfl
  · intro column hcolumn
    obtain ⟨before, -, rfl⟩ := List.mem_map.mp hcolumn
    exact .inl rfl

theorem apply_level (grid : Grid) (operation : Operation) :
    (grid.apply operation).level = levelAfter grid.level operation := by
  cases operation <;> rfl

theorem Follows.apply (h : Follows columns grid) (operation : Operation) :
    Follows (columnsApply grid.level columns operation) (grid.apply operation) := by
  cases operation with
  | insert design => exact h.insert design
  | setWidth index width => exact h.setWidth index width
  | zoomTo level => exact h.zoomTo level

theorem Follows.run (h : Follows columns grid) (operations : List Operation) :
    Follows (columnsRun grid.level columns operations).1 (operations.foldl Grid.apply grid) ∧
      (operations.foldl Grid.apply grid).level =
        (columnsRun grid.level columns operations).2 := by
  induction operations generalizing columns grid with
  | nil => exact ⟨h, rfl⟩
  | cons operation operations ih =>
    have hrest := ih (h.apply operation)
    rw [apply_level] at hrest
    exact hrest

end Follows

/-- The design widths, in the order of the columns. -/
def designs (operations : List Operation) : List Width :=
  operations.filterMap fun
    | .insert design => some design
    | _ => none

theorem designs_cons (operation : Operation) (operations : List Operation) :
    designs (operation :: operations) = designs [operation] ++ designs operations := by
  rw [← List.singleton_append, designs, List.filterMap_append]
  rfl

theorem columnsApply_length (level : Level) (columns : List Column) (operation : Operation) :
    (columnsApply level columns operation).length =
      columns.length + (designs [operation]).length := by
  cases operation <;> simp [columnsApply, designs]

theorem columnsApply_getElem {level : Level} {columns : List Column} {operation : Operation}
    {index : Nat} (h : ∀ width, operation ≠ .setWidth index width) :
    ((columnsApply level columns operation).map Column.now)[index]? =
      (columns.map Column.now ++ (designs [operation]).map Basis.design)[index]? := by
  cases operation with
  | insert design =>
    rw [columnsApply, List.map_append]
    rfl
  | setWidth other width =>
    have hne : other ≠ index := fun heq => h width (by rw [heq])
    have hnone : designs [.setWidth other width] = [] := rfl
    rw [columnsApply, hnone, List.map_nil, List.append_nil, List.getElem?_map, List.getElem?_map]
    simp [hne]
  | zoomTo level =>
    have hnone : designs [.zoomTo level] = [] := rfl
    rw [columnsApply, hnone, List.map_nil, List.append_nil, List.map_map]
    rfl

/-- A column whose width is never set keeps its basis. -/
theorem columnsRun_getElem (level : Level) (columns : List Column) {operations : List Operation}
    {index : Nat} (h : ∀ width, .setWidth index width ∉ operations) :
    ((columnsRun level columns operations).1.map Column.now)[index]? =
      (columns.map Column.now ++ (designs operations).map Basis.design)[index]? := by
  induction operations generalizing level columns with
  | nil => simp [columnsRun, designs]
  | cons operation operations ih =>
    have hstep : ((columnsApply level columns operation).map Column.now)[index]? =
        (columns.map Column.now ++ (designs [operation]).map Basis.design)[index]? :=
      columnsApply_getElem fun width heq => h width (heq ▸ List.mem_cons_self)
    have hlength : ((columnsApply level columns operation).map Column.now).length =
        (columns.map Column.now ++ (designs [operation]).map Basis.design).length := by
      rw [List.length_map, columnsApply_length, List.length_append, List.length_map,
        List.length_map]
    rw [columnsRun, ih _ _ fun width hin => h width (List.mem_cons_of_mem _ hin), designs_cons,
      List.map_append, ← List.append_assoc, List.getElem?_append, hlength, hstep,
      ← List.getElem?_append]

/-- Whatever levels were passed through, a column is as wide as its basis says at the level it is
shown at, and the basis of a column whose width is never set is its design. -/
theorem zoom_path_independent (level : Level) (operations : List Operation) :
    let grid := Grid.run level operations
    let columns := (columnsRun level [] operations).1
    grid.level = (columnsRun level [] operations).2 ∧
      grid.shown = columns.map (fun column => column.now.widthAt grid.level) ∧
      (∀ index, (∀ width, .setWidth index width ∉ operations) →
        (columns[index]?).map Column.now = ((designs operations)[index]?).map Basis.design) ∧
      (∀ basis : Basis, basis.widthAt basis.level = basis.width.value) ∧
      (∀ (width : Width) (before after : Level),
        width.value * after.percent + (before.percent : Int) / 2 < 2 ^ 63) ∧
      ∀ (design : Width) (zoom : ColumnZoom) (index : Nat),
        (zoom.insert index design.value grid.level.percent).1 =
          (Basis.design design).widthAt grid.level := by
  intro grid columns
  have hstart : Follows [] (Grid.start level) :=
    ⟨rfl, rfl, fun column hcolumn => absurd hcolumn List.not_mem_nil⟩
  obtain ⟨hfollows, hlevel⟩ := hstart.run operations
  refine ⟨hlevel, hfollows.shown, fun index hunset => ?_, widthAt_self, scale_fits,
    fun design _ _ => insert_width design grid.level⟩
  rw [← List.getElem?_map, columnsRun_getElem level [] hunset, List.map_nil, List.nil_append,
    List.getElem?_map]

/-- The design widths, and every width that was set with the level at which it was. -/
def setBases : Level → List Basis → List Operation → List Basis
  | _, bases, [] => bases
  | level, bases, .insert design :: operations =>
    setBases level (bases ++ [.design design]) operations
  | level, bases, .setWidth index width :: operations =>
    setBases level (bases.set index ⟨width, level⟩) operations
  | _, bases, .zoomTo level :: operations => setBases level bases operations

/-- A column of 15 pixels is 8 pixels wide at half its size, and is set to these 8 pixels. -/
def sameWidth : List Operation :=
  [.insert ⟨15, by decide, by decide⟩, .setWidth 0 ⟨8, by decide, by decide⟩,
    .zoomTo ⟨100, by decide, by decide⟩]

/-- At full size it has its 15 pixels again, not the 16 that 8 pixels at half the size are. -/
theorem same_width_is_no_basis :
    (Grid.run ⟨50, by decide, by decide⟩ sameWidth).shown = [15] ∧
    (setBases ⟨50, by decide, by decide⟩ [] sameWidth).map (fun basis =>
      basis.widthAt (Grid.run ⟨50, by decide, by decide⟩ sameWidth).level) = [16] := by
  decide +kernel

end LeanRows.Zoom
