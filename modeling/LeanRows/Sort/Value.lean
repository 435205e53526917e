import LeanRows.Sort.Recognise
import LeanRows.Sort.Extract

/-!
# The value behind the counters

A numeral's value is its sign, the fraction of its digits behind the leading zeros, and the
power of ten that scales it; numbers are compared in that order. `Describes` is what a
built descriptor says about its key.
-/

namespace LeanRows.Sort

set_option autoImplicit false

open Number (leadingZeros)

namespace Numeral

/-- The digits behind the leading zeros. -/
def significant (m : Numeral) : List Byte :=
  m.mantissa.digits.drop (leadingZeros m.mantissa.digits)

def isZero (m : Numeral) : Bool := !m.mantissa.digits.any (· != 48)

def signum (m : Numeral) : ℤ :=
  if m.isZero then 0 else if m.mantissa.sign = some .minus then -1 else 1

def magnitude (m : Numeral) : ℤ :=
  m.mantissa.whole.length - leadingZeros m.mantissa.digits + m.exponentValue

/-- The significant digits as a fraction. -/
def scaled (m : Numeral) : ℚ := Decimal.fraction (m.significant.map digitValue)

end Numeral

section Digits
variable {ds : List Byte}

theorem drop_leadingZeros (ds : List Byte) :
    ds.drop (leadingZeros ds) = ds.dropWhile (· == 48) := by
  induction ds with
  | nil => rfl
  | cons d ds ih =>
    unfold leadingZeros at ih ⊢
    by_cases hd : d = 48 <;> simp [hd, ih]

theorem zeros_append_significant (ds : List Byte) :
    ds.map digitValue = List.replicate (leadingZeros ds) 0 ++
      (ds.drop (leadingZeros ds)).map digitValue := by
  induction ds with
  | nil => rfl
  | cons d ds ih =>
    unfold leadingZeros at ih ⊢
    by_cases hd : d = 48
    · subst hd
      have hzero : digitValue 48 = 0 := rfl
      simp only [List.map_cons, List.takeWhile_cons, beq_self_eq_true, if_true, List.length_cons,
        List.replicate_succ, List.drop_succ_cons, List.cons_append, hzero]
      rw [← ih]
    · simp [hd]

theorem AsciiDigits.append {ds' : List Byte} (h : AsciiDigits ds) (h' : AsciiDigits ds') :
    AsciiDigits (ds ++ ds') := by
  intro b hb
  rcases List.mem_append.mp hb with hb | hb
  · exact h b hb
  · exact h' b hb

theorem AsciiDigits.drop (h : AsciiDigits ds) (n : Nat) : AsciiDigits (ds.drop n) :=
  fun b hb => h b (List.mem_of_mem_drop hb)

theorem AsciiDigits.values (h : AsciiDigits ds) : Decimal.Digits (ds.map digitValue) := by
  intro d hd
  obtain ⟨b, hb, rfl⟩ := List.mem_map.mp hd
  exact digitValue_lt (h b hb)

theorem compareDigits_eq {ds' : List Byte} (h : AsciiDigits ds) (h' : AsciiDigits ds') :
    compareDigits ds ds' = Decimal.padCompare (ds.map digitValue) (ds'.map digitValue) := by
  have hzero : isAsciiDigit 48 := by decide +kernel
  induction ds generalizing ds' with
  | nil =>
    simp only [compareDigits, List.map_nil, Decimal.padCompare, List.map_map]
    congr 1
    apply List.map_congr_left
    intro b hb
    exact compare_digits hzero (h' b hb)
  | cons a as ih =>
    have has : AsciiDigits as := fun c hc => h c (List.mem_cons_of_mem a hc)
    cases ds' with
    | nil =>
      have hhead : compare a 48 = compare (digitValue a) 0 :=
        compare_digits (h a List.mem_cons_self) hzero
      rw [compareDigits, ih has h', hhead]
      rfl
    | cons b bs =>
      rw [compareDigits, ih has fun c hc => h' c (List.mem_cons_of_mem b hc),
        compare_digits (h a List.mem_cons_self) (h' b List.mem_cons_self)]
      rfl

end Digits

namespace Numeral

variable (m : Numeral)

theorem digits_ascii : AsciiDigits m.mantissa.digits :=
  m.mantissa.whole_digits.append m.mantissa.fraction_digits

theorem significant_ascii : AsciiDigits m.significant := m.digits_ascii.drop _

theorem scaled_lt_one : m.scaled < 1 := Decimal.fraction_lt_one m.significant_ascii.values

theorem scaled_ge_tenth (h : m.isZero = false) : 1 / 10 ≤ m.scaled := by
  rw [isZero, Bool.not_eq_false', List.any_eq_true] at h
  obtain ⟨c, hc, hne⟩ := h
  unfold scaled significant
  rw [drop_leadingZeros]
  cases hrest : m.mantissa.digits.dropWhile (· == 48) with
  | nil =>
    have hall := List.dropWhile_eq_nil_iff.mp hrest c hc
    simp only [beq_iff_eq] at hall
    simp [hall] at hne
  | cons d rest =>
    have hd : d ≠ 48 := by
      have := List.head?_dropWhile_not (· == (48 : Byte)) m.mantissa.digits
      rw [hrest] at this
      simpa using this
    have hdigit : isAsciiDigit d := by
      apply m.digits_ascii
      apply (List.dropWhile_suffix (· == 48)).subset
      rw [hrest]
      exact List.mem_cons_self
    apply Decimal.fraction_ge_tenth
    rw [digitValue_eq hdigit]
    rw [isAsciiDigit_iff] at hdigit
    intro hzero
    apply hd
    apply UInt8.toNat_inj.mp
    change d.toNat = 48
    omega

theorem scaled_eq_zero (h : m.isZero = true) : m.scaled = 0 := by
  apply Decimal.fraction_eq_zero
  rw [isZero, Bool.not_eq_true', List.any_eq_false] at h
  intro d hd
  obtain ⟨b, hb, rfl⟩ := List.mem_map.mp hd
  have hzero : b = 48 := by simpa using h b (List.mem_of_mem_drop hb)
  rw [hzero]
  rfl

/-- The value in its normal form. -/
theorem value_eq : m.value = m.signum * (m.scaled * 10 ^ m.magnitude) := by
  have hlen : m.mantissa.digits.length = m.mantissa.whole.length +
      (m.mantissa.fraction.getD []).length := List.length_append
  have hnatural : (digitsValue m.mantissa.digits : ℚ) * 10 ^ leadingZeros m.mantissa.digits =
      m.scaled * 10 ^ m.mantissa.digits.length := by
    have hzeros := Decimal.fraction_zeros (leadingZeros m.mantissa.digits)
      (m.significant.map digitValue)
    rw [significant, ← zeros_append_significant] at hzeros
    rw [digitsValue, Decimal.natural_eq_fraction, List.length_map, scaled, significant, ← hzeros]
    ring
  have hpow : (10 : ℚ) ^ leadingZeros m.mantissa.digits ≠ 0 := by positivity
  have hvalue : (digitsValue m.mantissa.digits : ℚ) =
      m.scaled * 10 ^ ((m.mantissa.digits.length : ℤ) - leadingZeros m.mantissa.digits) := by
    rw [zpow_sub₀ (by norm_num), zpow_natCast, zpow_natCast, ← mul_div_assoc, eq_div_iff hpow]
    exact hnatural
  have hscale : (digitsValue m.mantissa.digits : ℚ) *
      10 ^ (m.exponentValue - (m.mantissa.fraction.getD []).length) =
        m.scaled * 10 ^ m.magnitude := by
    rw [hvalue, mul_assoc, ← zpow_add₀ (by norm_num)]
    congr 2
    rw [magnitude, hlen]
    push_cast
    ring
  unfold value applySign signum
  by_cases hzero : m.isZero = true
  · rw [if_pos hzero, Int.cast_zero, zero_mul]
    rw [scaled_eq_zero m hzero, zero_mul] at hvalue
    have hnone : digitsValue m.mantissa.digits = 0 := by exact_mod_cast hvalue
    simp [hnone]
  · rw [if_neg hzero, ← hscale]
    split <;> push_cast <;> ring

theorem signum_cases : m.isZero = true ∧ m.signum = 0 ∧ m.value = 0 ∨
    m.isZero = false ∧ 0 < m.scaled * 10 ^ m.magnitude ∧
      (m.signum = 1 ∧ m.value = m.scaled * 10 ^ m.magnitude ∨
        m.signum = -1 ∧ m.value = -(m.scaled * 10 ^ m.magnitude)) := by
  have hvalue := m.value_eq
  cases hzero : m.isZero with
  | true =>
    have hsign : m.signum = 0 := by simp [signum, hzero]
    rw [hsign, Int.cast_zero, zero_mul] at hvalue
    exact .inl ⟨rfl, hsign, hvalue⟩
  | false =>
    have hscaled := m.scaled_ge_tenth hzero
    refine .inr ⟨rfl, by positivity, ?_⟩
    by_cases hminus : m.mantissa.sign = some .minus
    · have hsign : m.signum = -1 := by simp [signum, hzero, hminus]
      rw [hsign] at hvalue
      push_cast at hvalue
      exact .inr ⟨hsign, by rw [hvalue]; ring⟩
    · have hsign : m.signum = 1 := by simp [signum, hzero, hminus]
      rw [hsign, Int.cast_one, one_mul] at hvalue
      exact .inl ⟨hsign, hvalue⟩

end Numeral

/-- Turns an order of absolute values into one of values. -/
def signed (sign : ℤ) (order : Ordering) : Ordering := if sign < 0 then order.swap else order

/-- Values are compared by their signs, then their magnitudes, then their digits. -/
theorem compare_value (a b : Numeral) :
    compare a.value b.value = (compare a.signum b.signum).then
      (if a.signum = 0 then .eq else signed a.signum
        ((compare a.magnitude b.magnitude).then (compareDigits a.significant b.significant))) := by
  have hdigits : compareDigits a.significant b.significant = compare a.scaled b.scaled := by
    rw [compareDigits_eq a.significant_ascii b.significant_ascii,
      Decimal.padCompare_eq a.significant_ascii.values b.significant_ascii.values]
    rfl
  have hscaled (ha : a.isZero = false) (hb : b.isZero = false) :=
    Decimal.compare_scaled ⟨a.scaled_ge_tenth ha, a.scaled_lt_one⟩
      ⟨b.scaled_ge_tenth hb, b.scaled_lt_one⟩ a.magnitude b.magnitude
  rw [hdigits]
  rcases a.signum_cases with ⟨_, hsa, hva⟩ | ⟨ha, hpa, ⟨hsa, hva⟩ | ⟨hsa, hva⟩⟩ <;>
    rcases b.signum_cases with ⟨_, hsb, hvb⟩ | ⟨hb, hpb, ⟨hsb, hvb⟩ | ⟨hsb, hvb⟩⟩ <;>
    rw [hsa, hsb, hva, hvb]
  · simp
  · rw [compare_lt_iff_lt.mpr hpb]
    rfl
  · rw [compare_gt_iff_gt.mpr (neg_neg_of_pos hpb)]
    rfl
  · rw [compare_gt_iff_gt.mpr hpa]
    rfl
  · rw [hscaled ha hb]
    rfl
  · rw [compare_gt_iff_gt.mpr ((neg_neg_of_pos hpb).trans hpa)]
    rfl
  · rw [compare_lt_iff_lt.mpr (neg_neg_of_pos hpa)]
    rfl
  · rw [compare_lt_iff_lt.mpr ((neg_neg_of_pos hpa).trans hpb)]
    rfl
  · rw [Decimal.compare_neg, hscaled ha hb]
    rfl

/-! ## The digits of a key -/

theorem Blank.plain {bytes : List Byte} (h : Blank bytes) :
    bytes.filter isAsciiDigit = [] ∧ ∀ b ∈ bytes, isExponentMark b = false := by
  refine ⟨List.filter_eq_nil_iff.mpr fun b hb => ?_, fun b hb => ?_⟩
  · intro hdigit
    have := h b hb
    rw [not_blank_of_digit hdigit] at this
    cases this
  · have := isAsciiWhitespace_iff.mp (h b hb)
    rcases this with rfl | rfl | rfl | rfl | rfl <;> rfl

theorem signBytes_plain (sign : Option Sign) :
    (signBytes sign).filter isAsciiDigit = [] ∧
      ∀ b ∈ signBytes sign, isExponentMark b = false := by
  rcases sign with _ | ⟨⟨⟩⟩ <;> decide +kernel

theorem AsciiDigits.plain {ds : List Byte} (h : AsciiDigits ds) :
    ds.filter isAsciiDigit = ds ∧ ∀ b ∈ ds, isExponentMark b = false :=
  ⟨List.filter_eq_self.mpr h, fun b hb => not_mark_of_digit (h b hb)⟩

theorem Mantissa.point_plain (m : Mantissa) :
    m.point.filter isAsciiDigit = m.fraction.getD [] ∧
      ∀ b ∈ m.point, isExponentMark b = false := by
  have hdigits := m.fraction_digits
  unfold point
  cases hfraction : m.fraction with
  | none => simp
  | some ds =>
    rw [hfraction, Option.getD_some] at hdigits
    obtain ⟨hfilter, hmark⟩ := hdigits.plain
    have hpoint : isAsciiDigit 46 = false ∧ isExponentMark 46 = false := by decide +kernel
    simp only [List.filter_cons, hpoint.1, Bool.false_eq_true, if_false, hfilter,
      Option.getD_some, List.mem_cons, forall_eq_or_imp, hpoint.2, true_and]
    exact hmark

theorem Mantissa.plain (m : Mantissa) :
    m.bytes.filter isAsciiDigit = m.digits ∧ ∀ b ∈ m.bytes, isExponentMark b = false := by
  obtain ⟨hbefore, hbefore'⟩ := m.before_blank.plain
  obtain ⟨hsign, hsign'⟩ := signBytes_plain m.sign
  obtain ⟨hwhole, hwhole'⟩ := m.whole_digits.plain
  obtain ⟨hpoint, hpoint'⟩ := m.point_plain
  constructor
  · simp [bytes, digits, List.filter_append, hbefore, hsign, hwhole, hpoint]
  · intro b hb
    simp only [bytes, List.mem_append] at hb
    rcases hb with ((hb | hb) | hb) | hb
    · exact hbefore' b hb
    · exact hsign' b hb
    · exact hwhole' b hb
    · exact hpoint' b hb

theorem significantDigits_numeral (m : Numeral) :
    significantDigits (leadingZeros m.mantissa.digits) m.bytes = m.significant := by
  obtain ⟨hdigits, hmarks⟩ := m.mantissa.plain
  obtain ⟨hafter, hafter'⟩ := m.after_blank.plain
  have hfront : (m.bytes.takeWhile fun b => !isExponentMark b).filter isAsciiDigit =
      m.mantissa.digits := by
    rw [Numeral.bytes, List.append_assoc, List.takeWhile_append_of_pos (by simpa using hmarks),
      List.filter_append, hdigits, Numeral.exponentBytes]
    cases m.exponent with
    | none =>
      have hall : (m.after.takeWhile fun b => !isExponentMark b) = m.after :=
        List.takeWhile_eq_self_iff.mpr (by simpa using hafter')
      simp [hall, hafter]
    | some e => simp [Exponent.bytes, e.isMark]
  rw [significantDigits, hfront]
  rfl

end LeanRows.Sort
