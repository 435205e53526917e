import Mathlib

/-!
# The geometry of the shell

Bars, tabs, grid and panel of a window of any size, at any resolution. The commands of the top
bar are taken from the right one by one, each as wide as there is room; the name of the file
and the search field share what is left. All sums saturate as those of `i32` do.
-/

namespace LeanRows.Layout

set_option autoImplicit false

def i32Max : Int := 2 ^ 31 - 1

def saturate (value : Int) : Int := max (-2 ^ 31) (min value i32Max)

def satAdd (a b : Int) : Int := saturate (a + b)

def satSub (a b : Int) : Int := saturate (a - b)

def satMul (a b : Int) : Int := saturate (a * b)

def half (value : Int) : Int := value.tdiv 2

/-! ## Rectangles and metrics -/

structure UiRect where
  x : Int
  y : Int
  width : Int
  height : Int
deriving DecidableEq, Repr

namespace UiRect

def right (rect : UiRect) : Int := satAdd rect.x rect.width

def bottom (rect : UiRect) : Int := satAdd rect.y rect.height

end UiRect

def baseDpi : Nat := 96

/-- A length in device independent pixels, in pixels. -/
def scaleDip (value dpi : Nat) : Int :=
  let rounded : Int := ((value * dpi + baseDpi / 2) / baseDpi : Nat)
  if rounded ≤ i32Max then rounded else i32Max

structure UiMetrics where
  topBarHeight : Int
  progressHeight : Int
  tabStripHeight : Int
  statusHeight : Int
  space1 : Int
  space2 : Int
  space3 : Int
  space4 : Int
  space5 : Int
  space8 : Int
  wordmarkSize : Int
  controlHeight : Int
  primaryTargetHeight : Int
  compactButtonWidth : Int
  openButtonWidth : Int
  wideReloadWidth : Int
  wideGotoWidth : Int
  themeButtonWidth : Int
  narrowSearchMinWidth : Int
  searchMinWidth : Int
  searchMaxWidth : Int
  fileIdentityMinWidth : Int
  fileIdentityMaxWidth : Int
  settingsPanelWidth : Int
  settingsMinGridWidth : Int
  narrowMaxWidth : Int
  compactIdentityMaxWidth : Int
  wideMinWidth : Int
deriving DecidableEq, Repr

def UiMetrics.forDpi (dpi : Nat) : UiMetrics :=
  let dpi := if dpi = 0 then baseDpi else dpi
  { topBarHeight := scaleDip 56 dpi
    progressHeight := scaleDip 2 dpi
    tabStripHeight := scaleDip 36 dpi
    statusHeight := scaleDip 32 dpi
    space1 := scaleDip 4 dpi
    space2 := scaleDip 8 dpi
    space3 := scaleDip 12 dpi
    space4 := scaleDip 16 dpi
    space5 := scaleDip 20 dpi
    space8 := scaleDip 32 dpi
    wordmarkSize := scaleDip 32 dpi
    controlHeight := scaleDip 40 dpi
    primaryTargetHeight := scaleDip 44 dpi
    compactButtonWidth := scaleDip 40 dpi
    openButtonWidth := scaleDip 104 dpi
    wideReloadWidth := scaleDip 88 dpi
    wideGotoWidth := scaleDip 96 dpi
    themeButtonWidth := scaleDip 100 dpi
    narrowSearchMinWidth := scaleDip 132 dpi
    searchMinWidth := scaleDip 220 dpi
    searchMaxWidth := scaleDip 360 dpi
    fileIdentityMinWidth := scaleDip 160 dpi
    fileIdentityMaxWidth := scaleDip 440 dpi
    settingsPanelWidth := scaleDip 300 dpi
    settingsMinGridWidth := scaleDip 200 dpi
    narrowMaxWidth := scaleDip 760 dpi
    compactIdentityMaxWidth := scaleDip 560 dpi
    wideMinWidth := scaleDip 1180 dpi }

/-! ## Helpers -/

def centeredY (container : UiRect) (desiredHeight : Int) : Int :=
  let height := min desiredHeight container.height
  satAdd container.y (half (satSub container.height height))

/-- A rectangle at the right end of what is left, and the new right end. -/
def takeRight (right left desiredWidth : Int) (bar : UiRect) (height : Int) : UiRect × Int :=
  let width := min desiredWidth (max (satSub right left) 0)
  let right := satSub right width
  (⟨right, centeredY bar height, width, min height bar.height⟩, right)

def retreat (right left distance : Int) : Int := max (satSub right distance) left

def inset (rect : UiRect) (distance : Int) : UiRect :=
  let horizontal := min distance (half rect.width)
  let vertical := min distance (half rect.height)
  ⟨satAdd rect.x horizontal, satAdd rect.y vertical, satSub rect.width (satMul horizontal 2),
    satSub rect.height (satMul vertical 2)⟩

/-- The wordmark, the name of the file and the search field, from the left. -/
def placeIdentityAndSearch (left searchRight : Int) (bar : UiRect) (metrics : UiMetrics) :
    UiRect × UiRect × UiRect :=
  let wordmark : UiRect := ⟨left, centeredY bar metrics.wordmarkSize,
    min metrics.wordmarkSize (max (satSub searchRight left) 0), min metrics.wordmarkSize bar.height⟩
  let fileLeft := min (satAdd wordmark.right metrics.space3) searchRight
  let maximumSearchPreservingIdentity := max (satSub (satSub (satSub searchRight fileLeft)
    metrics.fileIdentityMinWidth) metrics.space4) 0
  let availableSearch := max (satSub (satSub searchRight fileLeft) metrics.space4) 0
  let searchWidth :=
    if metrics.searchMinWidth ≤ maximumSearchPreservingIdentity then
      min maximumSearchPreservingIdentity metrics.searchMaxWidth
    else min availableSearch metrics.searchMinWidth
  let searchField : UiRect := ⟨satSub searchRight searchWidth, centeredY bar metrics.controlHeight,
    searchWidth, min metrics.controlHeight bar.height⟩
  let fileRight := max (satSub searchField.x metrics.space4) fileLeft
  let fileIdentity : UiRect := ⟨fileLeft, centeredY bar metrics.controlHeight,
    min (satSub fileRight fileLeft) metrics.fileIdentityMaxWidth,
    min metrics.controlHeight bar.height⟩
  (wordmark, fileIdentity, searchField)

/-! ## The top bar -/

inductive CommandLayoutMode where
  | narrow
  | default
  | wide
deriving DecidableEq, Repr

/-- The commands in the bar; one that is none is in the overflow. -/
structure CommandLayout where
  mode : CommandLayoutMode
  wordmark : Option UiRect
  fileIdentity : Option UiRect
  searchField : UiRect
  previousMatchButton : Option UiRect
  nextMatchButton : Option UiRect
  reloadButton : Option UiRect
  gotoButton : Option UiRect
  themeButton : Option UiRect
  settingsButton : UiRect
  openButton : UiRect
  overflowButton : UiRect
deriving DecidableEq, Repr

namespace CommandLayout

def narrow (bar : UiRect) (metrics : UiMetrics) : CommandLayout :=
  let inset := min metrics.space3 (half bar.width)
  let left := satAdd bar.x inset
  let right := satSub bar.right inset
  let (overflowButton, right) :=
    takeRight right left metrics.compactButtonWidth bar metrics.controlHeight
  let right := retreat right left metrics.space2
  let (openButton, right) :=
    takeRight right left metrics.openButtonWidth bar metrics.primaryTargetHeight
  let right := retreat right left metrics.space2
  let (settingsButton, right) :=
    takeRight right left metrics.compactButtonWidth bar metrics.controlHeight
  let right := retreat right left metrics.space2
  let showIdentity := decide (metrics.compactIdentityMaxWidth < bar.width)
  let identityWidth :=
    if showIdentity then
      min metrics.fileIdentityMinWidth (max (satSub (satSub (satSub right left) metrics.space4)
        metrics.narrowSearchMinWidth) 0)
    else 0
  let fileIdentity : Option UiRect :=
    if 0 < identityWidth then
      some ⟨left, centeredY bar metrics.controlHeight, identityWidth,
        min metrics.controlHeight bar.height⟩
    else none
  let searchLeft :=
    fileIdentity.elim left fun identity => min (satAdd identity.right metrics.space4) right
  let searchField : UiRect := ⟨searchLeft, centeredY bar metrics.controlHeight,
    satSub right searchLeft, min metrics.controlHeight bar.height⟩
  { mode := .narrow
    wordmark := none
    fileIdentity := fileIdentity
    searchField := searchField
    previousMatchButton := none
    nextMatchButton := none
    reloadButton := none
    gotoButton := none
    themeButton := none
    settingsButton := settingsButton
    openButton := openButton
    overflowButton := overflowButton }

def defaultLayout (bar : UiRect) (metrics : UiMetrics) : CommandLayout :=
  let inset := min metrics.space5 (half bar.width)
  let left := satAdd bar.x inset
  let right := satSub bar.right inset
  let (overflowButton, right) :=
    takeRight right left metrics.compactButtonWidth bar metrics.controlHeight
  let right := retreat right left metrics.space2
  let (openButton, right) :=
    takeRight right left metrics.openButtonWidth bar metrics.primaryTargetHeight
  let right := retreat right left metrics.space2
  let (settingsButton, right) :=
    takeRight right left metrics.compactButtonWidth bar metrics.controlHeight
  let right := retreat right left metrics.space2
  let (themeButton, right) :=
    takeRight right left metrics.themeButtonWidth bar metrics.controlHeight
  let right := retreat right left metrics.space2
  let (wordmark, fileIdentity, searchField) := placeIdentityAndSearch left right bar metrics
  { mode := .default
    wordmark := some wordmark
    fileIdentity := some fileIdentity
    searchField := searchField
    previousMatchButton := none
    nextMatchButton := none
    reloadButton := none
    gotoButton := none
    themeButton := some themeButton
    settingsButton := settingsButton
    openButton := openButton
    overflowButton := overflowButton }

def wide (bar : UiRect) (metrics : UiMetrics) : CommandLayout :=
  let inset := min metrics.space5 (half bar.width)
  let left := satAdd bar.x inset
  let right := satSub bar.right inset
  let (overflowButton, right) :=
    takeRight right left metrics.compactButtonWidth bar metrics.controlHeight
  let right := retreat right left metrics.space2
  let (openButton, right) :=
    takeRight right left metrics.openButtonWidth bar metrics.primaryTargetHeight
  let right := retreat right left metrics.space2
  let (settingsButton, right) :=
    takeRight right left metrics.compactButtonWidth bar metrics.controlHeight
  let right := retreat right left metrics.space2
  let (themeButton, right) :=
    takeRight right left metrics.themeButtonWidth bar metrics.controlHeight
  let right := retreat right left metrics.space2
  let (gotoButton, right) :=
    takeRight right left metrics.wideGotoWidth bar metrics.controlHeight
  let right := retreat right left metrics.space2
  let (reloadButton, right) :=
    takeRight right left metrics.wideReloadWidth bar metrics.controlHeight
  let right := retreat right left metrics.space2
  let (nextMatchButton, right) :=
    takeRight right left metrics.compactButtonWidth bar metrics.controlHeight
  let right := retreat right left metrics.space1
  let (previousMatchButton, right) :=
    takeRight right left metrics.compactButtonWidth bar metrics.controlHeight
  let right := retreat right left metrics.space2
  let (wordmark, fileIdentity, searchField) := placeIdentityAndSearch left right bar metrics
  { mode := .wide
    wordmark := some wordmark
    fileIdentity := some fileIdentity
    searchField := searchField
    previousMatchButton := some previousMatchButton
    nextMatchButton := some nextMatchButton
    reloadButton := some reloadButton
    gotoButton := some gotoButton
    themeButton := some themeButton
    settingsButton := settingsButton
    openButton := openButton
    overflowButton := overflowButton }

def calculate (bar : UiRect) (metrics : UiMetrics) : CommandLayout :=
  if bar.width ≤ metrics.narrowMaxWidth then narrow bar metrics
  else if bar.width < metrics.wideMinWidth then defaultLayout bar metrics
  else wide bar metrics

/-- The rectangles of the commands, from the left. -/
def rects (commands : CommandLayout) : List UiRect :=
  commands.wordmark.toList ++ commands.fileIdentity.toList ++ [commands.searchField] ++
    commands.previousMatchButton.toList ++ commands.nextMatchButton.toList ++
    commands.reloadButton.toList ++ commands.gotoButton.toList ++ commands.themeButton.toList ++
    [commands.settingsButton, commands.openButton, commands.overflowButton]

end CommandLayout

/-! ## The window -/

structure UiLayout where
  metrics : UiMetrics
  client : UiRect
  topBar : UiRect
  tabStrip : Option UiRect
  progressTrack : UiRect
  mainContent : UiRect
  grid : UiRect
  emptyState : UiRect
  statusStrip : UiRect
  commands : CommandLayout
  settingsPanel : Option UiRect
deriving DecidableEq, Repr

namespace UiLayout

def calculate (clientWidth clientHeight : Int32) (dpi : UInt32) (showTabs : Bool) : UiLayout :=
  let metrics := UiMetrics.forDpi dpi.toNat
  let width := max clientWidth.toInt 0
  let height := max clientHeight.toInt 0
  let topHeight := min metrics.topBarHeight height
  let topBar : UiRect := ⟨0, 0, width, topHeight⟩
  let afterTop := satSub height topHeight
  let statusHeight := min metrics.statusHeight afterTop
  let statusStrip : UiRect := ⟨0, satSub height statusHeight, width, statusHeight⟩
  let tabStrip : Option UiRect :=
    if showTabs then
      some ⟨0, topBar.bottom, width, min metrics.tabStripHeight (satSub afterTop statusHeight)⟩
    else none
  let chromeBottom := tabStrip.elim topBar.bottom UiRect.bottom
  let mainContent : UiRect := ⟨0, chromeBottom, width, satSub statusStrip.y chromeBottom⟩
  let progressHeight := min metrics.progressHeight height
  let progressTrack : UiRect :=
    ⟨0, satSub chromeBottom (half progressHeight), width, progressHeight⟩
  { metrics := metrics
    client := ⟨0, 0, width, height⟩
    topBar := topBar
    tabStrip := tabStrip
    progressTrack := progressTrack
    mainContent := mainContent
    grid := mainContent
    emptyState := inset mainContent metrics.space8
    statusStrip := statusStrip
    commands := CommandLayout.calculate topBar metrics
    settingsPanel := none }

/-- The settings panel takes the right edge of the content when it is open. -/
def withSettingsPanel (layout : UiLayout) (isOpen : Bool) : UiLayout :=
  if !isOpen then layout
  else
    let content := layout.mainContent
    let width := min layout.metrics.settingsPanelWidth
      (max (satSub content.width layout.metrics.settingsMinGridWidth) 0)
    let panel : UiRect := ⟨satSub content.right width, content.y, width, content.height⟩
    let grid : UiRect := ⟨content.x, content.y, satSub panel.x content.x, content.height⟩
    { layout with
      grid := grid
      emptyState := inset grid layout.metrics.space8
      settingsPanel := some panel }

/-- The rectangles of the window that keep to its client area. -/
def rects (layout : UiLayout) : List UiRect :=
  [layout.client, layout.topBar] ++ layout.tabStrip.toList ++
    [layout.mainContent, layout.grid, layout.emptyState, layout.statusStrip] ++
    layout.settingsPanel.toList

/-- The parts of the window, from the top. -/
def stack (layout : UiLayout) : List UiRect :=
  [layout.topBar] ++ layout.tabStrip.toList ++ [layout.mainContent, layout.statusStrip]

end UiLayout

/-! ## Saturation without effect -/

theorem saturate_id {value : Int} (hlow : -2 ^ 31 ≤ value) (hhigh : value ≤ 2 ^ 31 - 1) :
    saturate value = value := by
  simp only [saturate, i32Max]
  omega

theorem satAdd_eq {a b : Int} (hlow : -2 ^ 31 ≤ a + b) (hhigh : a + b ≤ 2 ^ 31 - 1) :
    satAdd a b = a + b :=
  saturate_id hlow hhigh

theorem satSub_eq {a b : Int} (hlow : -2 ^ 31 ≤ a - b) (hhigh : a - b ≤ 2 ^ 31 - 1) :
    satSub a b = a - b :=
  saturate_id hlow hhigh

theorem satSub_le {a b : Int} (hlow : -2 ^ 31 ≤ a) (hb : 0 ≤ b) : satSub a b ≤ a := by
  simp only [satSub, saturate, i32Max]
  omega

theorem le_satSub (a b : Int) : -2 ^ 31 ≤ satSub a b := by
  simp only [satSub, saturate, i32Max]
  omega

theorem le_satAdd {a b : Int} (hhigh : a ≤ 2 ^ 31 - 1) (hb : 0 ≤ b) : a ≤ satAdd a b := by
  simp only [satAdd, saturate, i32Max]
  omega

theorem half_eq {value : Int} (h : 0 ≤ value) : half value = value / 2 :=
  Int.tdiv_eq_ediv_of_nonneg h

theorem scaleDip_nonneg (value dpi : Nat) : 0 ≤ scaleDip value dpi := by
  have hmax : (0 : Int) ≤ i32Max := by decide
  simp only [scaleDip]
  split_ifs
  · exact Int.natCast_nonneg _
  · exact hmax

theorem scaleDip_mono {small large : Nat} (dpi : Nat) (h : small ≤ large) :
    scaleDip small dpi ≤ scaleDip large dpi := by
  have hmul : small * dpi ≤ large * dpi := Nat.mul_le_mul_right dpi h
  have hdiv : (small * dpi + baseDpi / 2) / baseDpi ≤ (large * dpi + baseDpi / 2) / baseDpi :=
    Nat.div_le_div_right (by omega)
  simp only [scaleDip]
  split_ifs <;> omega

/-! ## Inside, and in order -/

/-- Of non-negative extent, and inside another. -/
structure UiRect.Inside (outer rect : UiRect) : Prop where
  width_nonneg : 0 ≤ rect.width
  height_nonneg : 0 ≤ rect.height
  left : outer.x ≤ rect.x
  top : outer.y ≤ rect.y
  right : rect.x + rect.width ≤ outer.x + outer.width
  bottom : rect.y + rect.height ≤ outer.y + outer.height

def UiRect.LeftOf (a b : UiRect) : Prop := a.x + a.width ≤ b.x

def UiRect.Above (a b : UiRect) : Prop := a.y + a.height ≤ b.y

/-- A bar at the top left of the window. -/
structure IsBar (bar : UiRect) : Prop where
  x : bar.x = 0
  y : bar.y = 0
  width_nonneg : 0 ≤ bar.width
  width_le : bar.width ≤ 2 ^ 31 - 1
  height_nonneg : 0 ≤ bar.height
  height_le : bar.height ≤ 2 ^ 31 - 1

/-- From the right, the commands so far; those to come have the room from `left` to `right`. -/
structure Placed (bar : UiRect) (left right : Int) (rects : List UiRect) : Prop where
  left_nonneg : 0 ≤ left
  left_le : left ≤ right
  right_le : right ≤ bar.width
  inside : ∀ rect ∈ rects, UiRect.Inside bar rect
  beyond : ∀ rect ∈ rects, right ≤ rect.x
  ordered : rects.Pairwise UiRect.LeftOf

section Bar
variable {bar : UiRect}

theorem centeredY_nonneg (hbar : IsBar bar) {height : Int} (h : 0 ≤ height) :
    0 ≤ centeredY bar height ∧
      centeredY bar height + min height bar.height ≤ bar.height := by
  have hy := hbar.y
  have hlow := hbar.height_nonneg
  have hhigh := hbar.height_le
  have hsub : satSub bar.height (min height bar.height) = bar.height - min height bar.height :=
    satSub_eq (by omega) (by omega)
  have hhalf : half (bar.height - min height bar.height) =
      (bar.height - min height bar.height) / 2 := half_eq (by omega)
  have heq : centeredY bar height = (bar.height - min height bar.height) / 2 := by
    simp only [centeredY]
    rw [hsub, hhalf, satAdd_eq (by omega) (by omega), hy, Int.zero_add]
  omega

/-- What is on the line of the bar, within the room that is left. -/
theorem inside_bar (hbar : IsBar bar) {rect : UiRect} {height : Int} (hheight : 0 ≤ height)
    (htop : rect.y = centeredY bar height) (hhigh : rect.height = min height bar.height)
    (hx : 0 ≤ rect.x) (hwidth : 0 ≤ rect.width) (hright : rect.x + rect.width ≤ bar.width) :
    UiRect.Inside bar rect := by
  obtain ⟨habove, hbelow⟩ := centeredY_nonneg hbar hheight
  have hy := hbar.y
  have hzero := hbar.x
  have hlow := hbar.height_nonneg
  exact ⟨hwidth, by omega, by omega, by omega, by omega, by omega⟩

theorem placed_nil {left right : Int} (hleft : 0 ≤ left) (hle : left ≤ right)
    (hright : right ≤ bar.width) : Placed bar left right [] :=
  ⟨hleft, hle, hright, by simp, by simp, .nil⟩

/-- One more command to the left of all. -/
theorem Placed.cons {left right : Int} {rects : List UiRect} (h : Placed bar left right rects)
    {rect : UiRect} (hinside : UiRect.Inside bar rect) (hleft : left ≤ rect.x)
    (hright : rect.x + rect.width ≤ right) : Placed bar left rect.x (rect :: rects) where
  left_nonneg := h.left_nonneg
  left_le := hleft
  right_le := by
    have hwidth := hinside.width_nonneg
    have hle := h.right_le
    omega
  inside := List.forall_mem_cons.mpr ⟨hinside, h.inside⟩
  beyond := by
    refine List.forall_mem_cons.mpr ⟨Int.le_refl _, fun other hother => ?_⟩
    have hbeyond := h.beyond other hother
    have hwidth := hinside.width_nonneg
    omega
  ordered := .cons (fun other hother => Int.le_trans hright (h.beyond other hother)) h.ordered

/-- Less room than there is. -/
theorem Placed.narrow {left right right' : Int} {rects : List UiRect}
    (h : Placed bar left right rects) (hleft : left ≤ right') (hle : right' ≤ right) :
    Placed bar left right' rects :=
  { h with
    left_le := hleft
    right_le := Int.le_trans hle h.right_le
    beyond := fun rect hrect => Int.le_trans hle (h.beyond rect hrect) }

theorem Placed.takeRight (hbar : IsBar bar) {left right : Int} {rects : List UiRect}
    (h : Placed bar left right rects) {width height : Int} (hwidth : 0 ≤ width)
    (hheight : 0 ≤ height) :
    Placed bar left (takeRight right left width bar height).2
      ((takeRight right left width bar height).1 :: rects) := by
  have hleft := h.left_nonneg
  have hle := h.left_le
  have hright := h.right_le
  have hbound := hbar.width_le
  have hroom : satSub right left = right - left := satSub_eq (by omega) (by omega)
  have hx : satSub right (min width (max (satSub right left) 0)) =
      right - min width (max (right - left) 0) := by
    rw [hroom, satSub_eq (by omega) (by omega)]
  simp only [Layout.takeRight]
  rw [hx, hroom]
  generalize hrect : UiRect.mk (right - min width (max (right - left) 0)) (centeredY bar height)
    (min width (max (right - left) 0)) (min height bar.height) = rect
  have hx' : right - min width (max (right - left) 0) = rect.x := by rw [← hrect]
  rw [hx']
  subst hrect
  refine h.cons ?_ ?_ ?_
  · exact inside_bar hbar hheight rfl rfl (by simp only; omega) (by simp only; omega)
      (by simp only; omega)
  · simp only
    omega
  · simp only
    omega

theorem Placed.retreat {left right : Int} {rects : List UiRect}
    (h : Placed bar left right rects) {distance : Int} (hdistance : 0 ≤ distance) :
    Placed bar left (retreat right left distance) rects := by
  have hleft := h.left_nonneg
  have hle := h.left_le
  have hsub : satSub right distance ≤ right := satSub_le (by omega) hdistance
  exact h.narrow (Int.le_max_right _ _) (Int.max_le.mpr ⟨hsub, hle⟩)

/-- The lengths that the top bar is laid out with. -/
structure UiMetrics.Lengths (metrics : UiMetrics) : Prop where
  space1 : 0 ≤ metrics.space1
  space2 : 0 ≤ metrics.space2
  space3 : 0 ≤ metrics.space3
  space4 : 0 ≤ metrics.space4
  space5 : 0 ≤ metrics.space5
  wordmarkSize : 0 ≤ metrics.wordmarkSize
  controlHeight : 0 ≤ metrics.controlHeight
  primaryTargetHeight : 0 ≤ metrics.primaryTargetHeight
  compactButtonWidth : 0 ≤ metrics.compactButtonWidth
  openButtonWidth : 0 ≤ metrics.openButtonWidth
  wideReloadWidth : 0 ≤ metrics.wideReloadWidth
  wideGotoWidth : 0 ≤ metrics.wideGotoWidth
  themeButtonWidth : 0 ≤ metrics.themeButtonWidth
  narrowSearchMinWidth : 0 ≤ metrics.narrowSearchMinWidth
  searchMinWidth : 0 ≤ metrics.searchMinWidth
  searchMaxWidth : 0 ≤ metrics.searchMaxWidth
  fileIdentityMinWidth : 0 ≤ metrics.fileIdentityMinWidth
  fileIdentityMaxWidth : 0 ≤ metrics.fileIdentityMaxWidth

theorem forDpi_lengths (dpi : Nat) : (UiMetrics.forDpi dpi).Lengths := by
  constructor <;> exact scaleDip_nonneg _ _

variable {metrics : UiMetrics}

/-- A width within the room that is left, whichever of the two is chosen. -/
theorem searchWidth_bounds (hm : metrics.Lengths) (room : Int) (hroom : 0 ≤ room) :
    let preserving := max (satSub (satSub room metrics.fileIdentityMinWidth) metrics.space4) 0
    let available := max (satSub room metrics.space4) 0
    let width := if metrics.searchMinWidth ≤ preserving then min preserving metrics.searchMaxWidth
      else min available metrics.searchMinWidth
    0 ≤ width ∧ width ≤ room := by
  intro preserving available width
  have hpreserving : preserving ≤ room := by
    have hfirst := satSub_le (a := room) (by omega) hm.fileIdentityMinWidth
    have hsecond := satSub_le (le_satSub room metrics.fileIdentityMinWidth) hm.space4
    omega
  have havailable : available ≤ room := by
    have hsub := satSub_le (a := room) (by omega) hm.space4
    omega
  have hmin := hm.searchMinWidth
  have hmax := hm.searchMaxWidth
  simp only [width]
  split_ifs <;> omega

/-- The search field ends where the room does, and the name keeps to its left. -/
theorem Placed.identityAndSearch (hbar : IsBar bar) (hm : metrics.Lengths) {left right : Int}
    {rects : List UiRect} (h : Placed bar left right rects) {wordmark identity search : UiRect}
    (hplaced : placeIdentityAndSearch left right bar metrics = (wordmark, identity, search)) :
    Placed bar left left (wordmark :: identity :: search :: rects) := by
  have hleft := h.left_nonneg
  have hle := h.left_le
  have hright := h.right_le
  have hbound := hbar.width_le
  have hsize := hm.wordmarkSize
  unfold placeIdentityAndSearch at hplaced
  extract_lets mark fileLeft preserving available searchWidth field fileRight name at hplaced
  have hmark : mark.x = left ∧ 0 ≤ mark.width ∧ left + mark.width ≤ right := by
    have hwidth : mark.width = min metrics.wordmarkSize (max (right - left) 0) := by
      simp only [mark]
      rw [satSub_eq (by omega) (by omega)]
    exact ⟨rfl, by omega, by omega⟩
  have hmarkInside : UiRect.Inside bar mark :=
    inside_bar hbar hsize rfl rfl (by omega) hmark.2.1 (by omega)
  have hfile : left + mark.width ≤ fileLeft ∧ fileLeft ≤ right := by
    have hend : mark.right = left + mark.width := by
      rw [UiRect.right, hmark.1, satAdd_eq (by omega) (by omega)]
    have hmore : mark.right ≤ satAdd mark.right metrics.space3 := le_satAdd (by omega) hm.space3
    simp only [fileLeft]
    omega
  have hsearch : 0 ≤ searchWidth ∧ searchWidth ≤ right - fileLeft := by
    have hroom : satSub right fileLeft = right - fileLeft := satSub_eq (by omega) (by omega)
    have hwidth := searchWidth_bounds hm (right - fileLeft) (by omega)
    rw [← hroom] at hwidth ⊢
    exact hwidth
  have hfield : field.x = right - searchWidth ∧ field.width = searchWidth :=
    ⟨satSub_eq (by omega) (by omega), rfl⟩
  have hfieldInside : UiRect.Inside bar field :=
    inside_bar hbar hm.controlHeight rfl rfl (by omega) (by omega) (by omega)
  have hname : name.x = fileLeft ∧ 0 ≤ name.width ∧ fileLeft + name.width ≤ field.x := by
    have hbefore : satSub field.x metrics.space4 ≤ field.x := satSub_le (by omega) hm.space4
    have hmax := hm.fileIdentityMaxWidth
    have hrange : fileLeft ≤ fileRight ∧ fileRight ≤ field.x := by
      simp only [fileRight]
      omega
    have hwidth : name.width = min (fileRight - fileLeft) metrics.fileIdentityMaxWidth := by
      simp only [name]
      rw [satSub_eq (by omega) (by omega)]
    exact ⟨rfl, by omega, by omega⟩
  have hnameInside : UiRect.Inside bar name :=
    inside_bar hbar hm.controlHeight rfl rfl (by omega) hname.2.1 (by omega)
  simp only [Prod.mk.injEq] at hplaced
  obtain ⟨rfl, rfl, rfl⟩ := hplaced
  have hwithSearch := h.cons hfieldInside (by omega) (by omega)
  have hwithName := hwithSearch.cons hnameInside (by omega) (by omega)
  have hwithMark := hwithName.cons hmarkInside (by omega) (by omega)
  rwa [hmark.1] at hwithMark

/-- The room between the two insets of a bar. -/
theorem placed_bar (hbar : IsBar bar) {space : Int} (hspace : 0 ≤ space) :
    Placed bar (satAdd bar.x (min space (half bar.width)))
      (satSub bar.right (min space (half bar.width))) [] := by
  have hx := hbar.x
  have hlow := hbar.width_nonneg
  have hhigh := hbar.width_le
  have hhalf : half bar.width = bar.width / 2 := half_eq hlow
  have hleft : satAdd bar.x (min space (half bar.width)) = min space (bar.width / 2) := by
    rw [hhalf, satAdd_eq (by omega) (by omega), hx, Int.zero_add]
  have hright : satSub bar.right (min space (half bar.width)) =
      bar.width - min space (bar.width / 2) := by
    rw [hhalf, UiRect.right, satAdd_eq (by omega) (by omega), hx, Int.zero_add,
      satSub_eq (by omega) (by omega)]
  rw [hleft, hright]
  exact placed_nil (by omega) (by omega) (by omega)

/-- The commands of a bar keep inside it, in order. -/
def Fitting (bar : UiRect) (rects : List UiRect) : Prop :=
  (∀ rect ∈ rects, UiRect.Inside bar rect) ∧ rects.Pairwise UiRect.LeftOf

theorem Placed.fitting {left right : Int} {rects : List UiRect}
    (h : Placed bar left right rects) : Fitting bar rects :=
  ⟨h.inside, h.ordered⟩

/-- The name in a narrow bar leaves the search field its least width, or there is none. -/
theorem identityWidth_le (hbar : IsBar bar) (hm : metrics.Lengths) {left right : Int}
    {rects : List UiRect} (h : Placed bar left right rects) (shown : Bool) :
    (if shown then min metrics.fileIdentityMinWidth (max (satSub (satSub (satSub right left)
      metrics.space4) metrics.narrowSearchMinWidth) 0) else 0) ≤ right - left := by
  have hleft := h.left_nonneg
  have hle := h.left_le
  have hright := h.right_le
  have hbound := hbar.width_le
  rw [satSub_eq (a := right) (by omega) (by omega)]
  have hfirst := satSub_le (a := right - left) (by omega) hm.space4
  have hsecond := satSub_le (le_satSub (right - left) metrics.space4) hm.narrowSearchMinWidth
  split_ifs <;> omega

/-- With a name of that width on the left, the search field takes the rest. -/
theorem Placed.narrowSearch (hbar : IsBar bar) (hm : metrics.Lengths) {left right : Int}
    {rects : List UiRect} (h : Placed bar left right rects) {width : Int}
    (hwidth : width ≤ right - left) :
    let identity : Option UiRect :=
      if 0 < width then
        some ⟨left, centeredY bar metrics.controlHeight, width,
          min metrics.controlHeight bar.height⟩
      else none
    let searchLeft :=
      identity.elim left fun identity => min (satAdd identity.right metrics.space4) right
    let field : UiRect := ⟨searchLeft, centeredY bar metrics.controlHeight,
      satSub right searchLeft, min metrics.controlHeight bar.height⟩
    Fitting bar (identity.toList ++ field :: rects) := by
  intro identity searchLeft field
  have hleft := h.left_nonneg
  have hle := h.left_le
  have hright := h.right_le
  have hbound := hbar.width_le
  have hfield : ∀ start, left ≤ start → start ≤ right → searchLeft = start →
      UiRect.Inside bar field ∧ field.x = start ∧ field.x + field.width ≤ right := by
    intro start hlow hhigh hstart
    have hfieldWidth : field.width = right - start := by
      simp only [field]
      rw [hstart, satSub_eq (by omega) (by omega)]
    have hfieldLeft : field.x = start := hstart
    exact ⟨inside_bar hbar hm.controlHeight rfl rfl (by omega) (by omega) (by omega),
      hfieldLeft, by omega⟩
  by_cases hshown : 0 < width
  · generalize hname : UiRect.mk left (centeredY bar metrics.controlHeight) width
      (min metrics.controlHeight bar.height) = name
    have hidentity : identity = some name := by
      rw [← hname]
      exact if_pos hshown
    have hplace : name.x = left ∧ name.width = width := by
      subst hname
      exact ⟨rfl, rfl⟩
    have hend : name.right = left + width := by
      rw [UiRect.right, hplace.1, hplace.2, satAdd_eq (by omega) (by omega)]
    have hmore := le_satAdd (show name.right ≤ 2 ^ 31 - 1 by omega) hm.space4
    have hstart : searchLeft = min (satAdd name.right metrics.space4) right := by
      simp only [searchLeft, hidentity, Option.elim_some]
    obtain ⟨hinside, hx, hfit⟩ := hfield _ (by omega) (by omega) hstart
    have hnameInside : UiRect.Inside bar name := by
      refine inside_bar hbar hm.controlHeight ?_ ?_ (by omega) (by omega) (by omega) <;>
        rw [← hname]
    rw [hidentity]
    exact ((h.cons hinside (by omega) hfit).cons hnameInside (by omega) (by omega)).fitting
  · have hidentity : identity = none := if_neg hshown
    have hstart : searchLeft = left := by
      simp only [searchLeft, hidentity, Option.elim_none]
    obtain ⟨hinside, hx, hfit⟩ := hfield _ (Int.le_refl _) hle hstart
    rw [hidentity]
    exact (h.cons hinside (by omega) hfit).fitting

/-- The bar without the commands that only wider ones have. -/
theorem rects_narrow (commands : CommandLayout) (hmark : commands.wordmark = none)
    (hprevious : commands.previousMatchButton = none) (hnext : commands.nextMatchButton = none)
    (hreload : commands.reloadButton = none) (hgoto : commands.gotoButton = none)
    (htheme : commands.themeButton = none) :
    commands.rects = commands.fileIdentity.toList ++ commands.searchField ::
      [commands.settingsButton, commands.openButton, commands.overflowButton] := by
  simp only [CommandLayout.rects, hmark, hprevious, hnext, hreload, hgoto, htheme,
    Option.toList_none, List.nil_append, List.append_nil, List.append_assoc, List.cons_append]

/-- A narrow bar names the file only where the search field keeps its least width. -/
theorem narrow_fitting (hbar : IsBar bar) (hm : metrics.Lengths) :
    Fitting bar (CommandLayout.narrow bar metrics).rects := by
  have h := placed_bar hbar hm.space3
  replace h := h.takeRight hbar hm.compactButtonWidth hm.controlHeight
  replace h := (h.retreat hm.space2).takeRight hbar hm.openButtonWidth hm.primaryTargetHeight
  replace h := (h.retreat hm.space2).takeRight hbar hm.compactButtonWidth hm.controlHeight
  replace h := h.retreat hm.space2
  rw [rects_narrow _ rfl rfl rfl rfl rfl rfl]
  exact h.narrowSearch hbar hm (identityWidth_le hbar hm h
    (decide (metrics.compactIdentityMaxWidth < bar.width)))

theorem default_fitting (hbar : IsBar bar) (hm : metrics.Lengths) :
    Fitting bar (CommandLayout.defaultLayout bar metrics).rects := by
  have h := placed_bar hbar hm.space5
  replace h := h.takeRight hbar hm.compactButtonWidth hm.controlHeight
  replace h := (h.retreat hm.space2).takeRight hbar hm.openButtonWidth hm.primaryTargetHeight
  replace h := (h.retreat hm.space2).takeRight hbar hm.compactButtonWidth hm.controlHeight
  replace h := (h.retreat hm.space2).takeRight hbar hm.themeButtonWidth hm.controlHeight
  replace h := (h.retreat hm.space2).identityAndSearch hbar hm rfl
  exact h.fitting

theorem wide_fitting (hbar : IsBar bar) (hm : metrics.Lengths) :
    Fitting bar (CommandLayout.wide bar metrics).rects := by
  have h := placed_bar hbar hm.space5
  replace h := h.takeRight hbar hm.compactButtonWidth hm.controlHeight
  replace h := (h.retreat hm.space2).takeRight hbar hm.openButtonWidth hm.primaryTargetHeight
  replace h := (h.retreat hm.space2).takeRight hbar hm.compactButtonWidth hm.controlHeight
  replace h := (h.retreat hm.space2).takeRight hbar hm.themeButtonWidth hm.controlHeight
  replace h := (h.retreat hm.space2).takeRight hbar hm.wideGotoWidth hm.controlHeight
  replace h := (h.retreat hm.space2).takeRight hbar hm.wideReloadWidth hm.controlHeight
  replace h := (h.retreat hm.space2).takeRight hbar hm.compactButtonWidth hm.controlHeight
  replace h := (h.retreat hm.space1).takeRight hbar hm.compactButtonWidth hm.controlHeight
  replace h := (h.retreat hm.space2).identityAndSearch hbar hm rfl
  exact h.fitting

theorem commands_fitting (hbar : IsBar bar) (hm : metrics.Lengths) :
    Fitting bar (CommandLayout.calculate bar metrics).rects := by
  unfold CommandLayout.calculate
  split_ifs
  · exact narrow_fitting hbar hm
  · exact default_fitting hbar hm
  · exact wide_fitting hbar hm

end Bar

/-! ## The window as a whole -/

/-- A rectangle that is cut on all sides lies in the one it was cut from. -/
theorem inset_inside {outer rect : UiRect} (houter : IsBar outer)
    (hrect : UiRect.Inside outer rect) {distance : Int} (hdistance : 0 ≤ distance) :
    UiRect.Inside outer (inset rect distance) := by
  have hwidth := hrect.width_nonneg
  have hheight := hrect.height_nonneg
  have hleft := hrect.left
  have htop := hrect.top
  have hright := hrect.right
  have hbottom := hrect.bottom
  have hboundX := houter.width_le
  have hboundY := houter.height_le
  have hx := houter.x
  have hy := houter.y
  unfold inset
  rw [half_eq hwidth, half_eq hheight]
  simp only [satMul]
  rw [saturate_id (by omega) (by omega), saturate_id (by omega) (by omega),
    satAdd_eq (by omega) (by omega), satAdd_eq (by omega) (by omega),
    satSub_eq (by omega) (by omega), satSub_eq (by omega) (by omega)]
  exact ⟨by simp only; omega, by simp only; omega, by simp only; omega, by simp only; omega,
    by simp only; omega, by simp only; omega⟩

/-- What is laid out as the window needs it. The progress rule is drawn over the lower edge of the
bars, one half below. -/
structure UiLayout.Sound (layout : UiLayout) : Prop where
  inside : ∀ rect ∈ layout.rects, UiRect.Inside layout.client rect
  stacked : layout.stack.Pairwise UiRect.Above
  beside : ∀ panel ∈ layout.settingsPanel, UiRect.LeftOf layout.grid panel
  commands : Fitting layout.topBar layout.commands.rects
  progress_x : layout.progressTrack.x = layout.client.x
  progress_width : layout.progressTrack.width = layout.client.width
  progress_height : 0 ≤ layout.progressTrack.height
  progress_top : layout.client.y ≤ layout.progressTrack.y
  progress_edge : layout.progressTrack.y + layout.progressTrack.height / 2 = layout.mainContent.y

/-- The heights of the bars of a window, with no saturation in them. -/
structure UiLayout.Bands (layout : UiLayout) (width height top tabs status progress : Int) :
    Prop where
  width_nonneg : 0 ≤ width
  width_le : width ≤ 2 ^ 31 - 1
  height_le : height ≤ 2 ^ 31 - 1
  top_nonneg : 0 ≤ top
  tabs_nonneg : 0 ≤ tabs
  status_nonneg : 0 ≤ status
  fit : top + tabs + status ≤ height
  progress_nonneg : 0 ≤ progress
  progress_le : progress ≤ top
  client : layout.client = ⟨0, 0, width, height⟩
  topBar : layout.topBar = ⟨0, 0, width, top⟩
  tabStrip : layout.tabStrip = none ∧ tabs = 0 ∨ layout.tabStrip = some ⟨0, top, width, tabs⟩
  mainContent : layout.mainContent = ⟨0, top + tabs, width, height - status - (top + tabs)⟩
  statusStrip : layout.statusStrip = ⟨0, height - status, width, status⟩
  progressTrack : layout.progressTrack = ⟨0, top + tabs - progress / 2, width, progress⟩

theorem UiLayout.Bands.isBar {layout : UiLayout} {width height top tabs status progress : Int}
    (h : layout.Bands width height top tabs status progress) :
    IsBar layout.client ∧ IsBar layout.topBar := by
  have hfit := h.fit
  have htop := h.top_nonneg
  have htabs := h.tabs_nonneg
  have hstatus := h.status_nonneg
  have hhigh := h.height_le
  rw [h.client, h.topBar]
  exact ⟨⟨rfl, rfl, h.width_nonneg, h.width_le, by simp only; omega, hhigh⟩,
    ⟨rfl, rfl, h.width_nonneg, h.width_le, htop, by simp only; omega⟩⟩

/-- The grid has the left of the content, and a panel the rest. -/
theorem UiLayout.Bands.sound {layout : UiLayout} {width height top tabs status progress : Int}
    (h : layout.Bands width height top tabs status progress) {split space : Int}
    (hsplit : 0 ≤ split ∧ split ≤ width) (hspace : 0 ≤ space)
    (hgrid : layout.grid = ⟨0, top + tabs, split, height - status - (top + tabs)⟩)
    (hempty : layout.emptyState = inset layout.grid space)
    (hpanel : ∀ panel ∈ layout.settingsPanel,
      panel = ⟨split, top + tabs, width - split, height - status - (top + tabs)⟩)
    (hcommands : Fitting layout.topBar layout.commands.rects) : layout.Sound := by
  have hclient := h.isBar.1
  have hwidth := h.width_nonneg
  have hfit := h.fit
  have htop := h.top_nonneg
  have htabs := h.tabs_nonneg
  have hstatus := h.status_nonneg
  have hprogress := h.progress_nonneg
  have hprogressLe := h.progress_le
  have hinside : ∀ {x y w high : Int}, 0 ≤ x → 0 ≤ w → x + w ≤ width → 0 ≤ y → 0 ≤ high →
      y + high ≤ height → UiRect.Inside layout.client ⟨x, y, w, high⟩ := by
    intro x y w high hx hw hright hy hhigh hbottom
    rw [h.client]
    exact ⟨hw, hhigh, hx, hy, by simp only; omega, by simp only; omega⟩
  have hgridInside : UiRect.Inside layout.client layout.grid := by
    rw [hgrid]
    exact hinside (by omega) hsplit.1 (by omega) (by omega) (by omega) (by omega)
  constructor
  case inside =>
    intro rect hrect
    simp only [UiLayout.rects, List.mem_append, List.mem_cons, List.not_mem_nil, or_false,
      Option.mem_toList] at hrect
    obtain ((((rfl | rfl) | hstrip) | rfl | rfl | rfl | rfl) | hopen) := hrect
    · have hself := hinside (x := 0) (y := 0) (by omega) hwidth (by omega) (by omega)
        (show 0 ≤ height by omega) (by omega)
      rwa [← h.client] at hself
    · rw [h.topBar]
      exact hinside (by omega) hwidth (by omega) (by omega) htop (by omega)
    · obtain ⟨hnone, -⟩ | hsome := h.tabStrip
      · rw [hnone] at hstrip
        cases hstrip
      · rw [hsome, Option.some_inj] at hstrip
        rw [← hstrip]
        exact hinside (by omega) hwidth (by omega) htop htabs (by omega)
    · rw [h.mainContent]
      exact hinside (by omega) hwidth (by omega) (by omega) (by omega) (by omega)
    · exact hgridInside
    · rw [hempty]
      exact inset_inside hclient hgridInside hspace
    · rw [h.statusStrip]
      exact hinside (by omega) hwidth (by omega) (by omega) hstatus (by omega)
    · rw [hpanel rect hopen]
      exact hinside hsplit.1 (by omega) (by omega) (by omega) (by omega) (by omega)
  case stacked =>
    obtain ⟨hnone, -⟩ | hsome := h.tabStrip
    · simp only [UiLayout.stack, hnone, Option.toList_none, List.append_nil, List.cons_append,
        List.nil_append, List.pairwise_cons, List.mem_cons, List.not_mem_nil, or_false,
        forall_eq_or_imp, forall_eq, UiRect.Above, h.topBar, h.mainContent, h.statusStrip,
        List.Pairwise.nil, false_imp_iff, implies_true, and_true]
      omega
    · simp only [UiLayout.stack, hsome, Option.toList_some, List.cons_append, List.nil_append,
        List.pairwise_cons, List.mem_cons, List.not_mem_nil, or_false, forall_eq_or_imp,
        forall_eq, UiRect.Above, h.topBar, h.mainContent, h.statusStrip, List.Pairwise.nil,
        false_imp_iff, implies_true, and_true]
      omega
  case beside =>
    intro panel hopen
    rw [hpanel panel hopen, hgrid]
    simp only [UiRect.LeftOf]
    omega
  case commands => exact hcommands
  all_goals simp only [h.progressTrack, h.client, h.mainContent]
  all_goals omega

section Window
variable (clientWidth clientHeight : Int32) (dpi : UInt32)

/-- The tabs take what the top bar and the status strip leave. -/
theorem calculate_bands (showTabs : Bool) :
    ∃ width height top tabs status progress, UiLayout.Bands
      (UiLayout.calculate clientWidth clientHeight dpi showTabs)
      width height top tabs status progress := by
  have hwidth := clientWidth.toInt_lt
  have hheight := clientHeight.toInt_lt
  have htopBar : 0 ≤ (UiMetrics.forDpi dpi.toNat).topBarHeight := scaleDip_nonneg _ _
  have hstrip : 0 ≤ (UiMetrics.forDpi dpi.toNat).tabStripHeight := scaleDip_nonneg _ _
  have hstatus : 0 ≤ (UiMetrics.forDpi dpi.toNat).statusHeight := scaleDip_nonneg _ _
  have hrule : 0 ≤ (UiMetrics.forDpi dpi.toNat).progressHeight := scaleDip_nonneg _ _
  have hlower : (UiMetrics.forDpi dpi.toNat).progressHeight ≤
      (UiMetrics.forDpi dpi.toNat).topBarHeight := scaleDip_mono _ (by decide)
  generalize hlayout : UiLayout.calculate clientWidth clientHeight dpi showTabs = layout
  have hclient : layout.client = ⟨0, 0, max clientWidth.toInt 0, max clientHeight.toInt 0⟩ := by
    rw [← hlayout]
    rfl
  have hbar : layout.topBar = ⟨0, 0, layout.client.width,
      min (UiMetrics.forDpi dpi.toNat).topBarHeight layout.client.height⟩ := by
    rw [← hlayout]
    rfl
  have hbelow : layout.statusStrip = ⟨0, satSub layout.client.height layout.statusStrip.height,
      layout.client.width, min (UiMetrics.forDpi dpi.toNat).statusHeight
        (satSub layout.client.height layout.topBar.height)⟩ := by
    rw [← hlayout]
    rfl
  have hmiddle : layout.tabStrip = if showTabs then some ⟨0, layout.topBar.bottom,
      layout.client.width, min (UiMetrics.forDpi dpi.toNat).tabStripHeight (satSub
        (satSub layout.client.height layout.topBar.height) layout.statusStrip.height)⟩
      else none := by
    rw [← hlayout]
    rfl
  have hcontent : layout.mainContent = ⟨0,
      layout.tabStrip.elim layout.topBar.bottom UiRect.bottom, layout.client.width,
      satSub layout.statusStrip.y layout.mainContent.y⟩ := by
    rw [← hlayout]
    rfl
  have htrack : layout.progressTrack = ⟨0,
      satSub layout.mainContent.y (half layout.progressTrack.height), layout.client.width,
      min (UiMetrics.forDpi dpi.toNat).progressHeight layout.client.height⟩ := by
    rw [← hlayout]
    rfl
  clear hlayout
  generalize UiMetrics.forDpi dpi.toNat = metrics at *
  generalize hW : max clientWidth.toInt 0 = width at *
  generalize hH : max clientHeight.toInt 0 = height at *
  rw [hclient] at hbar
  generalize hT : min metrics.topBarHeight height = top at *
  rw [hclient, hbar] at hbelow
  have hafter : satSub height top = height - top := satSub_eq (by omega) (by omega)
  simp only [hafter] at hbelow
  generalize hS : min metrics.statusHeight (height - top) = status at *
  have hstatusHeight : layout.statusStrip.height = status := by rw [hbelow]
  rw [hstatusHeight, satSub_eq (by omega) (by omega)] at hbelow
  have hbottom : layout.topBar.bottom = top := by
    rw [hbar, UiRect.bottom, satAdd_eq (by simp only; omega) (by simp only; omega), Int.zero_add]
  rw [hbottom, hstatusHeight, hclient, hbar] at hmiddle
  simp only [hafter] at hmiddle
  rw [satSub_eq (a := height - top) (by omega) (by omega)] at hmiddle
  have htabs : ∃ tabs, 0 ≤ tabs ∧ tabs ≤ height - top - status ∧
      (layout.tabStrip = none ∧ tabs = 0 ∨ layout.tabStrip = some ⟨0, top, width, tabs⟩) ∧
      layout.tabStrip.elim top UiRect.bottom = top + tabs := by
    cases showTabs
    · have hnone : layout.tabStrip = none := hmiddle
      refine ⟨0, by omega, by omega, .inl ⟨hnone, rfl⟩, ?_⟩
      rw [hnone, Option.elim_none, Int.add_zero]
    · generalize hB : min metrics.tabStripHeight (height - top - status) = tabs at *
      have hsome : layout.tabStrip = some ⟨0, top, width, tabs⟩ := hmiddle
      refine ⟨tabs, by omega, by omega, .inr hsome, ?_⟩
      rw [hsome, Option.elim_some, UiRect.bottom,
        satAdd_eq (by simp only; omega) (by simp only; omega)]
  obtain ⟨tabs, htabsNonneg, htabsLe, hstripIs, hchrome⟩ := htabs
  rw [hbottom, hchrome, hclient, hbelow] at hcontent
  have hcontentTop : layout.mainContent.y = top + tabs := by rw [hcontent]
  simp only [hcontentTop] at hcontent
  rw [satSub_eq (by omega) (by omega)] at hcontent
  rw [hcontentTop, hclient] at htrack
  generalize hP : min metrics.progressHeight height = progress at *
  have htrackHeight : layout.progressTrack.height = progress := by rw [htrack]
  rw [htrackHeight, half_eq (by omega), satSub_eq (by omega) (by omega)] at htrack
  exact ⟨width, height, top, tabs, status, progress,
    { width_nonneg := by omega
      width_le := by omega
      height_le := by omega
      top_nonneg := by omega
      tabs_nonneg := htabsNonneg
      status_nonneg := by omega
      fit := by omega
      progress_nonneg := by omega
      progress_le := by omega
      client := hclient
      topBar := hbar
      tabStrip := hstripIs
      mainContent := hcontent
      statusStrip := hbelow
      progressTrack := htrack }⟩

/-- A window keeps its bands when the panel opens. -/
theorem UiLayout.Bands.withSettingsPanel {layout : UiLayout}
    {width height top tabs status progress : Int}
    (h : layout.Bands width height top tabs status progress) (isOpen : Bool) :
    (layout.withSettingsPanel isOpen).Bands width height top tabs status progress := by
  cases isOpen
  · exact h
  · exact
      { h with
        client := h.client
        topBar := h.topBar
        tabStrip := h.tabStrip
        mainContent := h.mainContent
        statusStrip := h.statusStrip
        progressTrack := h.progressTrack }

/-- The panel takes no more than the grid can spare. -/
theorem UiLayout.Bands.panel {layout : UiLayout} {width height top tabs status progress : Int}
    (h : layout.Bands width height top tabs status progress)
    (hpanelWidth : 0 ≤ layout.metrics.settingsPanelWidth)
    (hgridWidth : 0 ≤ layout.metrics.settingsMinGridWidth) :
    ∃ split, (0 ≤ split ∧ split ≤ width) ∧
      (layout.withSettingsPanel true).grid =
        ⟨0, top + tabs, split, height - status - (top + tabs)⟩ ∧
      (layout.withSettingsPanel true).settingsPanel =
        some ⟨split, top + tabs, width - split, height - status - (top + tabs)⟩ := by
  have hwidth := h.width_nonneg
  have hbound := h.width_le
  have hspare := satSub_le (a := width) (by omega) hgridWidth
  generalize htaken : min layout.metrics.settingsPanelWidth
    (max (satSub width layout.metrics.settingsMinGridWidth) 0) = taken
  have hright : (UiRect.mk 0 (top + tabs) width
    (height - status - (top + tabs))).right = width := by
    rw [UiRect.right, satAdd_eq (by simp only; omega) (by simp only; omega), Int.zero_add]
  refine ⟨width - taken, by omega, ?_, ?_⟩
  · simp only [UiLayout.withSettingsPanel, Bool.not_true, Bool.false_eq_true, if_false,
      h.mainContent, htaken, hright]
    rw [satSub_eq (a := width) (by omega) (by omega), satSub_eq (by omega) (by omega),
      Int.sub_zero]
  · simp only [UiLayout.withSettingsPanel, Bool.not_true, Bool.false_eq_true, if_false,
      h.mainContent, htaken, hright]
    rw [satSub_eq (a := width) (by omega) (by omega), Int.sub_sub_self]

/-- The rectangles of a window of any size keep to its client area and out of one another's way,
with the panel or without; the progress rule alone may reach below the client area, by no more
than the lower half of its height. -/
theorem layout_sound (showTabs isOpen : Bool) :
    ((UiLayout.calculate clientWidth clientHeight dpi showTabs).withSettingsPanel
      isOpen).Sound := by
  obtain ⟨width, height, top, tabs, status, progress, h⟩ :=
    calculate_bands clientWidth clientHeight dpi showTabs
  have hcommands := commands_fitting h.isBar.2 (forDpi_lengths dpi.toNat)
  have hwidth := h.width_nonneg
  have hspace : 0 ≤ (UiMetrics.forDpi dpi.toNat).space8 := scaleDip_nonneg _ _
  cases isOpen
  case false =>
    refine h.sound ⟨hwidth, Int.le_refl _⟩ hspace h.mainContent rfl ?_ hcommands
    intro panel hopen
    cases hopen
  case true =>
    obtain ⟨split, hsplit, hgrid, hpanel⟩ := h.panel (scaleDip_nonneg _ _) (scaleDip_nonneg _ _)
    refine (h.withSettingsPanel true).sound hsplit hspace hgrid rfl ?_ hcommands
    intro panel hopen
    rw [hpanel] at hopen
    exact (Option.some_inj.mp hopen).symm

/-- A window of one pixel has no room for the lower half of the progress rule. -/
theorem progress_leaves_client :
    let layout := UiLayout.calculate 1 1 192 false
    ¬ UiRect.Inside layout.client layout.progressTrack := by
  intro layout h
  have hbottom := h.bottom
  revert hbottom
  decide +kernel

end Window

end LeanRows.Layout
