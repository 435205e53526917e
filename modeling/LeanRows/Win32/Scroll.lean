import Mathlib

/-!
# The thin scroll bars

A thumb on a track shows which part of a range is seen. Its length and its place are rounded
divisions, and the position that a dragged thumb stands for is another one, the other way. The
arithmetic is that of `i64`; where it would leave the type there is no result.
-/

namespace LeanRows.Scroll

set_option autoImplicit false

/-- A value of `i64`, unless it is none. -/
def i64 (value : Int) : Option Int :=
  if -2 ^ 63 ≤ value ∧ value < 2 ^ 63 then some value else none

/-- A bound below the other has no values between the two. -/
def clamp (value low high : Int) : Option Int :=
  if high < low then none else some (max low (min value high))

def i32Or (value : Int) (default : Int32) : Int32 :=
  if -2 ^ 31 ≤ value ∧ value < 2 ^ 31 then Int32.ofInt value else default

structure ScrollRange where
  min : Int32
  max : Int32
  page : UInt32
  pos : Int32
deriving DecidableEq

structure Thumb where
  start : Int32
  length : Int32
deriving DecidableEq

def span (range : ScrollRange) : Option Int := do
  let width ← i64 (range.max.toInt - range.min.toInt)
  let units ← i64 (width + 1)
  return max units 0

/-- The last page starts here. -/
def lastPos (range : ScrollRange) : Option Int := do
  let beyond ← i64 (range.max.toInt - range.page.toNat)
  let last ← i64 (beyond + 1)
  return max last range.min.toInt

def scrolls (range : ScrollRange) : Option Bool :=
  if 0 < range.page.toNat then do
    let units ← span range
    return decide ((range.page.toNat : Int) < units)
  else some false

def thumb (range : ScrollRange) (track minLength : Int32) : Option (Option Thumb) := do
  let more ← scrolls range
  if !more || decide (track.toInt ≤ 0) then return none
  else
    let units ← span range
    let share ← i64 (track.toInt * range.page.toNat)
    let length := min (max (share.tdiv units) (min minLength.toInt track.toInt)) track.toInt
    let travel ← i64 (track.toInt - length)
    let last ← lastPos range
    let steps ← i64 (last - range.min.toInt)
    let moved ← i64 (range.pos.toInt - range.min.toInt)
    let offset ← clamp moved 0 steps
    let start ← if steps = 0 then some 0 else do
      let product ← i64 (travel * offset)
      let rounded ← i64 (product + steps.tdiv 2)
      some (rounded.tdiv steps)
    return some ⟨i32Or start 0, i32Or length track⟩

/-- The position that puts the start of a thumb there. -/
def positionAt (range : ScrollRange) (track length start : Int32) : Option Int32 := do
  let travel ← i64 (track.toInt - length.toInt)
  let last ← lastPos range
  let steps ← i64 (last - range.min.toInt)
  if travel ≤ 0 ∨ steps ≤ 0 then return range.min
  else
    let start ← clamp start.toInt 0 travel
    let product ← i64 (steps * start)
    let rounded ← i64 (product + travel.tdiv 2)
    let pos ← i64 (range.min.toInt + rounded.tdiv travel)
    return i32Or pos range.max

/-! ## Without the bounds of the types -/

theorem i64_of_bounds {value : Int} (hge : -2 ^ 63 ≤ value) (hlt : value < 2 ^ 63) :
    i64 value = some value :=
  if_pos ⟨hge, hlt⟩

theorem i32Or_toInt {value : Int} (default : Int32) (hge : -2 ^ 31 ≤ value)
    (hlt : value < 2 ^ 31) : (i32Or value default).toInt = value := by
  rw [i32Or, if_pos ⟨hge, hlt⟩]
  exact Int32.toInt_ofInt_of_le hge hlt

section Range
variable (range : ScrollRange)

/-- The farthest position less the first. -/
def steps : Int := max (range.max.toInt - range.page.toNat + 1) range.min.toInt - range.min.toInt

theorem steps_nonneg : 0 ≤ steps range := by
  unfold steps
  omega

theorem steps_lt : steps range ≤ 2 ^ 32 := by
  have hmax := range.max.toInt_lt
  have hmin := range.min.le_toInt
  unfold steps
  omega

theorem span_eq : span range = some (max (range.max.toInt - range.min.toInt + 1) 0) := by
  have hmax := range.max.toInt_lt
  have hmax' := range.max.le_toInt
  have hmin := range.min.toInt_lt
  have hmin' := range.min.le_toInt
  unfold span
  rw [i64_of_bounds (by omega) (by omega), Option.bind_eq_bind, Option.bind_some,
    i64_of_bounds (by omega) (by omega), Option.bind_some]
  rfl

theorem lastPos_eq : lastPos range = some (steps range + range.min.toInt) := by
  have hmax := range.max.toInt_lt
  have hmax' := range.max.le_toInt
  have hpage := range.page.toNat_lt
  unfold lastPos steps
  rw [i64_of_bounds (by omega) (by omega), Option.bind_eq_bind, Option.bind_some,
    i64_of_bounds (by omega) (by omega), Option.bind_some]
  simp

/-- A range scrolls when it has more units than a page. -/
theorem scrolls_eq : scrolls range =
    some (decide (0 < range.page.toNat ∧
      (range.page.toNat : Int) < range.max.toInt - range.min.toInt + 1)) := by
  unfold scrolls
  rw [span_eq]
  split_ifs with hpage
  · simp only [Option.bind_eq_bind, Option.bind_some, hpage, true_and]
    exact congrArg some (decide_eq_decide.mpr (by omega))
  · simp [hpage]

end Range

/-! ## Rounding -/

/-- The quotient that is nearest, the larger one of two. -/
def nearest (product divisor : Int) : Int := (product + divisor / 2) / divisor

section Nearest
variable {a b c d : Int}

theorem nearest_mul_self (hb : 0 < b) (a : Int) : nearest (b * a) b = a := by
  unfold nearest
  rw [Int.mul_add_ediv_left _ _ (by omega)]
  have hhalf : b / 2 / b = 0 := Int.ediv_eq_zero_of_lt (by omega) (by omega)
  omega

theorem nearest_nonneg (hb : 0 < b) (ha : 0 ≤ a) : 0 ≤ nearest a b :=
  Int.ediv_nonneg (by omega) (by omega)

theorem nearest_mono (hb : 0 < b) (h : a ≤ c) : nearest a b ≤ nearest c b :=
  Int.ediv_le_ediv hb (by omega)

theorem nearest_bounds (hb : 0 < b) (ha : 0 ≤ a) (hc : 0 ≤ c) (h : c ≤ b) :
    0 ≤ nearest (a * c) b ∧ nearest (a * c) b ≤ a := by
  refine ⟨nearest_nonneg hb (mul_nonneg ha hc), ?_⟩
  have hmost := nearest_mono hb (mul_le_mul_of_nonneg_left h ha)
  rwa [mul_comm a b, nearest_mul_self hb] at hmost

/-- A product of steps that is rounded to the coarser side and back is what it was. -/
theorem nearest_nearest (hb : 0 < b) (h : b ≤ d) (a : Int) :
    nearest (b * nearest (d * a) b) d = a := by
  rcases eq_or_lt_of_le h with rfl | hlt
  · rw [nearest_mul_self hb, nearest_mul_self hb]
  have hle : b * nearest (d * a) b ≤ d * a + b / 2 := Int.mul_ediv_self_le (by omega)
  have hgt : d * a + b / 2 < b * nearest (d * a) b + b := Int.lt_mul_ediv_self_add hb
  generalize b * nearest (d * a) b = product at hle hgt ⊢
  have hd : 0 < d := hb.trans hlt
  unfold nearest
  refine le_antisymm ?_ ?_
  · rw [← Int.lt_add_one_iff, Int.ediv_lt_iff_lt_mul hd, add_mul, one_mul, mul_comm]
    omega
  · rw [Int.le_ediv_iff_mul_le hd, mul_comm]
    omega

end Nearest

/-! ## The thumb -/

section Thumb
variable (range : ScrollRange) (track minLength : Int32)

/-- The length of the thumb, for a range that scrolls. -/
def thumbLength : Int :=
  min (max (track.toInt * range.page.toNat / (range.max.toInt - range.min.toInt + 1))
    (min minLength.toInt track.toInt)) track.toInt

/-- How far a position is from the first, within the range. -/
def offset : Int := max 0 (min (range.pos.toInt - range.min.toInt) (steps range))

variable {range track}

theorem mul_bounds {a b c d : Int} (ha : 0 ≤ a) (hb : 0 ≤ b) (hc : a ≤ c) (hd : b ≤ d) :
    0 ≤ a * b ∧ a * b ≤ c * d :=
  ⟨mul_nonneg ha hb, mul_le_mul hc hd hb (ha.trans hc)⟩

theorem thumbLength_bounds (htrack : 1 ≤ track.toInt)
    (hunits : 0 < range.max.toInt - range.min.toInt + 1) :
    0 ≤ thumbLength range track minLength ∧ thumbLength range track minLength ≤ track.toInt := by
  have hshare : 0 ≤ track.toInt * range.page.toNat / (range.max.toInt - range.min.toInt + 1) :=
    Int.ediv_nonneg (mul_nonneg (by omega) (by omega)) (by omega)
  unfold thumbLength
  omega

theorem offset_bounds (range : ScrollRange) : 0 ≤ offset range ∧ offset range ≤ steps range := by
  have hsteps := steps_nonneg range
  unfold offset
  omega

theorem units_of_scrolls (hscrolls : scrolls range = some true) : 0 < range.page.toNat ∧
    (range.page.toNat : Int) < range.max.toInt - range.min.toInt + 1 := by
  rw [scrolls_eq] at hscrolls
  simpa using hscrolls

/-- Of a range that scrolls there is a thumb, whatever the types bound. -/
theorem thumb_eq (hscrolls : scrolls range = some true) (htrack : 1 ≤ track.toInt) :
    0 < steps range ∧ thumb range track minLength =
      some (some ⟨Int32.ofInt (nearest ((track.toInt - thumbLength range track minLength) *
        offset range) (steps range)), Int32.ofInt (thumbLength range track minLength)⟩) := by
  have hunits := units_of_scrolls hscrolls
  have hsteps : 0 < steps range := by
    unfold steps
    omega
  refine ⟨hsteps, ?_⟩
  have hunits' : 0 < range.max.toInt - range.min.toInt + 1 := by omega
  have hpos := range.pos.toInt_lt
  have hpos' := range.pos.le_toInt
  have hmin := range.min.toInt_lt
  have hmin' := range.min.le_toInt
  have hmost := track.toInt_lt
  have hpage := range.page.toNat_lt
  have hlast := steps_lt range
  have hspan : span range = some (range.max.toInt - range.min.toInt + 1) := by
    rw [span_eq, max_eq_left (by omega)]
  have hwide : ∀ {a b : Int}, 0 ≤ a → 0 ≤ b → a ≤ 2 ^ 31 - 1 → b ≤ 2 ^ 32 →
      0 ≤ a * b ∧ a * b ≤ 2 ^ 63 - 2 ^ 32 := fun ha hb hc hd => mul_bounds ha hb hc hd
  have hshare := hwide (a := track.toInt) (b := range.page.toNat) (by omega) (by omega) (by omega)
    (by omega)
  have hlength : min (max ((track.toInt * range.page.toNat).tdiv
      (range.max.toInt - range.min.toInt + 1)) (min minLength.toInt track.toInt)) track.toInt =
        thumbLength range track minLength := by
    rw [Int.tdiv_eq_ediv_of_nonneg hshare.1, thumbLength]
  obtain ⟨hlength₀, hlength₁⟩ := thumbLength_bounds minLength htrack hunits'
  obtain ⟨hoffset₀, hoffset₁⟩ := offset_bounds range
  have hproduct := hwide (a := track.toInt - thumbLength range track minLength)
    (b := offset range) (by omega) hoffset₀ (by omega) (by omega)
  have hclamp : clamp (range.pos.toInt - range.min.toInt) 0 (steps range) =
      some (offset range) := if_neg (not_lt.mpr hsteps.le)
  have hrounded : ((track.toInt - thumbLength range track minLength) * offset range +
      (steps range).tdiv 2).tdiv (steps range) =
        nearest ((track.toInt - thumbLength range track minLength) * offset range)
          (steps range) := by
    rw [Int.tdiv_eq_ediv_of_nonneg hsteps.le, Int.tdiv_eq_ediv_of_nonneg (by omega), nearest]
  have hstart := nearest_bounds (a := track.toInt - thumbLength range track minLength) hsteps
    (by omega) hoffset₀ hoffset₁
  have htravel : i64 (track.toInt - thumbLength range track minLength) =
      some (track.toInt - thumbLength range track minLength) :=
    i64_of_bounds (by omega) (by omega)
  have hmoved : i64 (range.pos.toInt - range.min.toInt) =
      some (range.pos.toInt - range.min.toInt) := i64_of_bounds (by omega) (by omega)
  have hhalf : (steps range).tdiv 2 = steps range / 2 := Int.tdiv_eq_ediv_of_nonneg hsteps.le
  have hsum : i64 ((track.toInt - thumbLength range track minLength) * offset range +
      (steps range).tdiv 2) = some ((track.toInt - thumbLength range track minLength) *
        offset range + (steps range).tdiv 2) :=
    i64_of_bounds (by omega) (by omega)
  have hshown : decide (track.toInt ≤ 0) = false := decide_eq_false (by omega)
  unfold thumb
  simp only [hscrolls, hspan, lastPos_eq, Option.bind_eq_bind, Option.bind_some, Bool.not_true,
    Bool.false_or, hshown, Bool.false_eq_true, if_false, add_sub_cancel_right,
    i64_of_bounds (show -2 ^ 63 ≤ track.toInt * range.page.toNat by omega) (by omega), hlength,
    htravel, hmoved, i64_of_bounds (show -2 ^ 63 ≤ steps range by omega) (by omega), hclamp,
    if_neg hsteps.ne', i64_of_bounds (show -2 ^ 63 ≤ (track.toInt - thumbLength range track
      minLength) * offset range by omega) (by omega), hsum, hrounded]
  rw [i32Or, if_pos ⟨by omega, by omega⟩, i32Or, if_pos ⟨by omega, by omega⟩]
  rfl

/-- The thumb, read back from its type. -/
theorem thumb_spec (hscrolls : scrolls range = some true) (htrack : 1 ≤ track.toInt) :
    ∃ shown, thumb range track minLength = some (some shown) ∧
      shown.length.toInt = thumbLength range track minLength ∧
      shown.start.toInt =
        nearest ((track.toInt - thumbLength range track minLength) * offset range)
          (steps range) := by
  obtain ⟨hsteps, heq⟩ := thumb_eq minLength hscrolls htrack
  have hunits : 0 < range.max.toInt - range.min.toInt + 1 := by
    have hpage := units_of_scrolls hscrolls
    omega
  have hmost := track.toInt_lt
  obtain ⟨hlength₀, hlength₁⟩ := thumbLength_bounds minLength htrack hunits
  obtain ⟨hoffset₀, hoffset₁⟩ := offset_bounds range
  obtain ⟨hstart₀, hstart₁⟩ := nearest_bounds
    (a := track.toInt - thumbLength range track minLength) hsteps (by omega) hoffset₀ hoffset₁
  exact ⟨_, heq, Int32.toInt_ofInt_of_le (by omega) (by omega),
    Int32.toInt_ofInt_of_le (by omega) (by omega)⟩

theorem thumb_isSome (range : ScrollRange) (track minLength : Int32) :
    (thumb range track minLength).isSome := by
  by_cases hscrolls : scrolls range = some true
  · by_cases htrack : 1 ≤ track.toInt
    · rw [(thumb_eq minLength hscrolls htrack).2]
      rfl
    · have hshown : decide (track.toInt ≤ 0) = true := decide_eq_true (by omega)
      unfold thumb
      simp only [hscrolls, Option.bind_eq_bind, Option.bind_some, hshown, Bool.or_true, if_true]
      rfl
  · have hstill : scrolls range = some false := by
      rw [scrolls_eq] at hscrolls ⊢
      simpa using hscrolls
    unfold thumb
    simp only [hstill, Option.bind_eq_bind, Option.bind_some, Bool.not_false, Bool.true_or, if_true]
    rfl

/-- The start that counts for a position, within the travel. -/
def heldStart (travel start : Int) : Int := max 0 (min start travel)

/-- There is always a position, whatever the types bound. -/
theorem positionAt_eq (range : ScrollRange) (track length start : Int32) :
    positionAt range track length start = some
      (if track.toInt - length.toInt ≤ 0 ∨ steps range ≤ 0 then range.min
      else i32Or (range.min.toInt + nearest (steps range * heldStart (track.toInt - length.toInt)
        start.toInt) (track.toInt - length.toInt)) range.max) := by
  have hmin := range.min.toInt_lt
  have hmin' := range.min.le_toInt
  have htrack := track.toInt_lt
  have htrack' := track.le_toInt
  have hlength := length.toInt_lt
  have hlength' := length.le_toInt
  have hstart := start.toInt_lt
  have hlast := steps_lt range
  have hsteps := steps_nonneg range
  have htravel : i64 (track.toInt - length.toInt) = some (track.toInt - length.toInt) :=
    i64_of_bounds (by omega) (by omega)
  unfold positionAt
  simp only [htravel, lastPos_eq, Option.bind_eq_bind, Option.bind_some, add_sub_cancel_right,
    i64_of_bounds (show -2 ^ 63 ≤ steps range by omega) (by omega)]
  split_ifs with hstill
  · rfl
  have hmost : track.toInt - length.toInt < 2 ^ 32 := by omega
  generalize track.toInt - length.toInt = travel at *
  have hpositive : 0 < travel ∧ 0 < steps range := by omega
  have hclamp : clamp start.toInt 0 travel = some (heldStart travel start.toInt) :=
    if_neg (by omega)
  have hheld : 0 ≤ heldStart travel start.toInt ∧ heldStart travel start.toInt ≤ 2 ^ 31 - 1 ∧
      heldStart travel start.toInt ≤ travel := by
    unfold heldStart
    omega
  have hproduct : 0 ≤ steps range * heldStart travel start.toInt ∧
      steps range * heldStart travel start.toInt ≤ 2 ^ 63 - 2 ^ 32 :=
    mul_bounds hsteps hheld.1 hlast hheld.2.1
  obtain ⟨hpos₀, hpos₁⟩ := nearest_bounds hpositive.1 hsteps hheld.1 hheld.2.2
  have hhalf : travel.tdiv 2 = travel / 2 := Int.tdiv_eq_ediv_of_nonneg hpositive.1.le
  have hrounded : (steps range * heldStart travel start.toInt + travel / 2).tdiv travel =
      nearest (steps range * heldStart travel start.toInt) travel := by
    rw [Int.tdiv_eq_ediv_of_nonneg (by omega), nearest]
  have hsum : i64 (steps range * heldStart travel start.toInt + travel / 2) =
      some (steps range * heldStart travel start.toInt + travel / 2) :=
    i64_of_bounds (by omega) (by omega)
  have hpos : i64 (range.min.toInt + nearest (steps range * heldStart travel start.toInt) travel) =
      some (range.min.toInt + nearest (steps range * heldStart travel start.toInt) travel) :=
    i64_of_bounds (by omega) (by omega)
  simp only [hclamp, Option.bind_some, hhalf, hsum, hrounded, hpos,
    i64_of_bounds (show -2 ^ 63 ≤ steps range * heldStart travel start.toInt by omega) (by omega)]
  rfl

end Thumb

/-- No sum or product leaves its type. The thumb of a range that scrolls lies on the track, moves
with the position from one end to the other, and where there is a pixel for every step, its
start stands for the position it was made of. -/
theorem thumb_on_track (range : ScrollRange) (track minLength length start : Int32) :
    (thumb range track minLength).isSome ∧ (positionAt range track length start).isSome ∧
    (scrolls range = some true → 1 ≤ track.toInt →
      ∃ shown last, thumb range track minLength = some (some shown) ∧ lastPos range = some last ∧
        0 ≤ shown.start.toInt ∧ 0 ≤ shown.length.toInt ∧
        shown.start.toInt + shown.length.toInt ≤ track.toInt ∧
        (range.pos.toInt ≤ range.min.toInt → shown.start.toInt = 0) ∧
        (last ≤ range.pos.toInt → shown.start.toInt = track.toInt - shown.length.toInt) ∧
        (∀ pos, range.pos.toInt ≤ pos.toInt → ∃ shown',
          thumb { range with pos := pos } track minLength = some (some shown') ∧
            shown.start.toInt ≤ shown'.start.toInt) ∧
        (last - range.min.toInt ≤ track.toInt - shown.length.toInt → ∃ pos,
          positionAt range track shown.length shown.start = some pos ∧
            pos.toInt = max range.min.toInt (min range.pos.toInt last))) := by
  refine ⟨thumb_isSome range track minLength, ?_, fun hscrolls htrack => ?_⟩
  · rw [positionAt_eq]
    rfl
  obtain ⟨shown, hshown, hlength, hstart⟩ := thumb_spec minLength hscrolls htrack
  obtain ⟨hsteps, -⟩ := thumb_eq minLength hscrolls htrack
  have hpage := units_of_scrolls hscrolls
  have hunits : 0 < range.max.toInt - range.min.toInt + 1 := by omega
  obtain ⟨hlength₀, hlength₁⟩ := thumbLength_bounds minLength htrack hunits
  obtain ⟨hoffset₀, hoffset₁⟩ := offset_bounds range
  have htravel : 0 ≤ track.toInt - thumbLength range track minLength := by omega
  obtain ⟨hstart₀, hstart₁⟩ := nearest_bounds hsteps htravel hoffset₀ hoffset₁
  refine ⟨shown, _, hshown, lastPos_eq range, by omega, by omega, by omega, fun hfirst => ?_,
    fun hlast => ?_, fun pos hpos => ?_, fun hpixels => ?_⟩
  · have hzero : offset range = 0 := by
      unfold offset
      omega
    rw [hstart, hzero, mul_zero]
    exact Int.ediv_eq_zero_of_lt (by omega) (by omega)
  · have hfull : offset range = steps range := by
      unfold offset
      omega
    rw [hstart, hfull, mul_comm, nearest_mul_self hsteps, hlength]
  · have hscrolls' : scrolls { range with pos := pos } = some true := hscrolls
    obtain ⟨shown', hshown', -, hstart'⟩ := thumb_spec minLength hscrolls' htrack
    refine ⟨shown', hshown', ?_⟩
    have hmore : offset range ≤ offset { range with pos := pos } := by
      have hsame : steps { range with pos := pos } = steps range := rfl
      unfold offset
      rw [hsame]
      dsimp only
      omega
    rw [hstart, hstart']
    exact nearest_mono hsteps (mul_le_mul_of_nonneg_left hmore htravel)
  · rw [add_sub_cancel_right, hlength] at hpixels
    have hmin := range.min.le_toInt
    have hmax := range.max.toInt_lt
    have hheld : heldStart (track.toInt - thumbLength range track minLength) shown.start.toInt =
        shown.start.toInt := by
      unfold heldStart
      omega
    have hback : nearest (steps range * shown.start.toInt)
        (track.toInt - thumbLength range track minLength) = offset range := by
      rw [hstart]
      exact nearest_nearest hsteps hpixels _
    have hlast : range.min.toInt + offset range ≤ range.max.toInt := by
      unfold steps at hsteps hoffset₁
      omega
    refine ⟨_, positionAt_eq range track shown.length shown.start, ?_⟩
    rw [if_neg (by omega), hlength, hheld, hback, i32Or_toInt _ (by omega) (by omega)]
    unfold offset
    omega

example : thumb ⟨0, 99, 25, 37⟩ 400 24 = some (some ⟨148, 100⟩) ∧
    positionAt ⟨0, 99, 25, 0⟩ 400 100 148 = some 37 := by decide +kernel

end LeanRows.Scroll
