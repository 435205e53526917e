import Mathlib

/-!
# Decimal digit strings

A string of digits stands for a natural number, or for the fraction it is behind a decimal
point. Fractions are compared digit by digit, the shorter string continued with zeros, and
scaled fractions without leading zeros by their exponents first.
-/

set_option autoImplicit false

namespace Decimal

/-- `d₁d₂…dₙ`. -/
def natural (ds : List Nat) : Nat := ds.foldl (fun value d => value * 10 + d) 0

/-- `0.d₁d₂…dₙ`. -/
def fraction : List Nat → ℚ
  | [] => 0
  | d :: ds => (d + fraction ds) / 10

def Digits (ds : List Nat) : Prop := ∀ d ∈ ds, d < 10

/-- Digits compared one by one, the shorter string continued with zeros. -/
def padCompare : List Nat → List Nat → Ordering
  | [], bs => (bs.map (compare 0)).foldr Ordering.then .eq
  | a :: as, [] => (compare a 0).then (padCompare as [])
  | a :: as, b :: bs => (compare a b).then (padCompare as bs)

section Fraction
variable {d : Nat} {ds : List Nat}

theorem Digits.head (h : Digits (d :: ds)) : d < 10 := h d List.mem_cons_self

theorem Digits.tail (h : Digits (d :: ds)) : Digits ds :=
  fun x hx => h x (List.mem_cons_of_mem d hx)

theorem fraction_nonneg (ds : List Nat) : 0 ≤ fraction ds := by
  induction ds with
  | nil => exact le_rfl
  | cons d ds ih =>
    rw [fraction]
    positivity

theorem fraction_lt_one (h : Digits ds) : fraction ds < 1 := by
  induction ds with
  | nil => exact zero_lt_one
  | cons d ds ih =>
    have hd : (d : ℚ) + 1 ≤ 10 := by exact_mod_cast h.head
    have htail := ih h.tail
    rw [fraction, div_lt_one (by norm_num)]
    linarith

theorem fraction_ge_tenth (hd : d ≠ 0) : 1 / 10 ≤ fraction (d :: ds) := by
  have hone : (1 : ℚ) ≤ d := by exact_mod_cast Nat.one_le_iff_ne_zero.mpr hd
  have htail := fraction_nonneg ds
  rw [fraction]
  apply div_le_div_of_nonneg_right _ (by norm_num)
  linarith

theorem fraction_zeros (n : Nat) (ds : List Nat) :
    fraction (List.replicate n 0 ++ ds) * 10 ^ n = fraction ds := by
  induction n with
  | zero => simp
  | succ n ih =>
    rw [List.replicate_succ, List.cons_append, fraction, pow_succ, ← ih]
    push_cast
    ring

theorem fraction_eq_zero (h : ∀ d ∈ ds, d = 0) : fraction ds = 0 := by
  induction ds with
  | nil => rfl
  | cons d ds ih =>
    rw [fraction, ih fun x hx => h x (List.mem_cons_of_mem d hx), h d List.mem_cons_self]
    norm_num

theorem foldl_eq_fraction (ds : List Nat) (value : Nat) :
    ((ds.foldl (fun value d => value * 10 + d) value : Nat) : ℚ) =
      (value + fraction ds) * 10 ^ ds.length := by
  induction ds generalizing value with
  | nil => simp [fraction]
  | cons d ds ih =>
    rw [List.foldl_cons, ih, fraction, List.length_cons, pow_succ]
    push_cast
    ring

theorem natural_eq_fraction (ds : List Nat) :
    (natural ds : ℚ) = fraction ds * 10 ^ ds.length := by
  rw [natural, foldl_eq_fraction]
  simp

theorem le_foldl (ds : List Nat) (value : Nat) :
    value ≤ ds.foldl (fun value d => value * 10 + d) value := by
  induction ds generalizing value with
  | nil => exact le_rfl
  | cons d ds ih => exact le_trans (by omega) (ih (value * 10 + d))

end Fraction

/-! ## Comparing fractions -/

section Compare
variable {as bs : List Nat}

/-- The first digit decides, unless it is the same. -/
theorem compare_step {a b : Nat} {x y : ℚ} (hx : 0 ≤ x ∧ x < 1) (hy : 0 ≤ y ∧ y < 1) :
    compare ((a + x) / 10) ((b + y) / 10) = (compare a b).then (compare x y) := by
  obtain ⟨hx0, hx1⟩ := hx
  obtain ⟨hy0, hy1⟩ := hy
  rcases Nat.lt_trichotomy a b with h | rfl | h
  · have hab : (a : ℚ) + 1 ≤ b := by exact_mod_cast h
    rw [compare_lt_iff_lt.mpr h]
    apply compare_lt_iff_lt.mpr
    linarith
  · rw [compare_eq_iff_eq.mpr rfl, Ordering.then]
    rcases lt_trichotomy x y with h | rfl | h
    · rw [compare_lt_iff_lt.mpr h, compare_lt_iff_lt]
      linarith
    · rw [compare_eq_iff_eq.mpr rfl, compare_eq_iff_eq.mpr rfl]
    · rw [compare_gt_iff_gt.mpr h, compare_gt_iff_gt]
      linarith
  · have hab : (b : ℚ) + 1 ≤ a := by exact_mod_cast h
    rw [compare_gt_iff_gt.mpr h]
    apply compare_gt_iff_gt.mpr
    linarith

theorem padCompare_eq (ha : Digits as) (hb : Digits bs) :
    padCompare as bs = compare (fraction as) (fraction bs) := by
  have bounds {ds : List Nat} (h : Digits ds) : 0 ≤ fraction ds ∧ fraction ds < 1 :=
    ⟨fraction_nonneg ds, fraction_lt_one h⟩
  induction as generalizing bs with
  | nil =>
    induction bs with
    | nil => simp [padCompare]
    | cons b bs ih =>
      have hstep := compare_step (a := 0) (b := b) (bounds ha) (bounds hb.tail)
      have hrest : padCompare [] (b :: bs) = (compare 0 b).then (padCompare [] bs) := rfl
      rw [hrest, ih hb.tail, ← hstep]
      simp [fraction]
  | cons a as ih =>
    cases bs with
    | nil =>
      have hstep := compare_step (a := a) (b := 0) (bounds ha.tail) (bounds hb)
      rw [padCompare, ih ha.tail hb, ← hstep]
      simp [fraction]
    | cons b bs =>
      rw [padCompare, ih ha.tail hb.tail, fraction, fraction,
        compare_step (bounds ha.tail) (bounds hb.tail)]

/-- Fractions without leading zeros, scaled by powers of ten. -/
theorem compare_scaled {x y : ℚ} (hx : 1 / 10 ≤ x ∧ x < 1) (hy : 1 / 10 ≤ y ∧ y < 1)
    (e f : ℤ) :
    compare (x * 10 ^ e) (y * 10 ^ f) = (compare e f).then (compare x y) := by
  have below {x y : ℚ} (hx : x < 1) (hy : 1 / 10 ≤ y) {e f : ℤ} (h : e < f) :
      x * 10 ^ e < y * 10 ^ f := by
    have hpos : (0 : ℚ) < 10 ^ e := by positivity
    have hstep : (10 : ℚ) ^ (e + 1) ≤ 10 ^ f := zpow_le_zpow_right₀ (by norm_num) h
    rw [zpow_add_one₀ (by norm_num)] at hstep
    calc x * 10 ^ e < 1 * 10 ^ e := mul_lt_mul_of_pos_right hx hpos
      _ = 1 / 10 * (10 ^ e * 10) := by ring
      _ ≤ y * 10 ^ f := mul_le_mul hy hstep (by positivity) (by linarith)
  rcases lt_trichotomy e f with h | rfl | h
  · rw [compare_lt_iff_lt.mpr h]
    exact compare_lt_iff_lt.mpr (below hx.2 hy.1 h)
  · have hpos : (0 : ℚ) < 10 ^ e := by positivity
    rw [compare_eq_iff_eq.mpr rfl, Ordering.then]
    rcases lt_trichotomy x y with h | rfl | h
    · rw [compare_lt_iff_lt.mpr h, compare_lt_iff_lt]
      exact mul_lt_mul_of_pos_right h hpos
    · rw [compare_eq_iff_eq.mpr rfl, compare_eq_iff_eq.mpr rfl]
    · rw [compare_gt_iff_gt.mpr h, compare_gt_iff_gt]
      exact mul_lt_mul_of_pos_right h hpos
  · rw [compare_gt_iff_gt.mpr h]
    exact compare_gt_iff_gt.mpr (below hy.2 hx.1 h)

theorem compare_neg (x y : ℚ) : compare (-x) (-y) = (compare x y).swap := by
  rcases lt_trichotomy x y with h | rfl | h
  · rw [compare_lt_iff_lt.mpr h, Ordering.swap, compare_gt_iff_gt]
    exact neg_lt_neg h
  · rw [compare_eq_iff_eq.mpr rfl, compare_eq_iff_eq.mpr rfl]
    rfl
  · rw [compare_gt_iff_gt.mpr h, Ordering.swap, compare_lt_iff_lt]
    exact neg_lt_neg h

end Compare

end Decimal
