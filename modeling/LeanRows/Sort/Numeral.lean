import LeanRows.Lib.Decimal
import LeanRows.Sort.Key

/-!
# What the recogniser recognises

A `Numeral` is a number as it is written in a field. The recogniser accepts exactly these,
and its counters give their value: the digits behind the leading zeros are those of a
fraction, and the magnitude is the power of ten it is scaled by.
-/

namespace LeanRows.Sort

set_option autoImplicit false

/-! ## The grammar -/

inductive Sign where
  | plus
  | minus
deriving DecidableEq, Repr

def Sign.byte : Sign → Byte
  | .plus => 43
  | .minus => 45

def signBytes (sign : Option Sign) : List Byte := (sign.map Sign.byte).toList

def Blank (bytes : List Byte) : Prop := ∀ b ∈ bytes, isAsciiWhitespace b

def AsciiDigits (bytes : List Byte) : Prop := ∀ b ∈ bytes, isAsciiDigit b

instance (bytes : List Byte) : Decidable (Blank bytes) :=
  inferInstanceAs (Decidable (∀ b ∈ bytes, isAsciiWhitespace b))

instance (bytes : List Byte) : Decidable (AsciiDigits bytes) :=
  inferInstanceAs (Decidable (∀ b ∈ bytes, isAsciiDigit b))

/-- Everything in front of the exponent. `fraction` is what follows the point, if there is
one. -/
structure Mantissa where
  before : List Byte
  sign : Option Sign
  whole : List Byte
  fraction : Option (List Byte)
  before_blank : Blank before
  whole_digits : AsciiDigits whole
  fraction_digits : AsciiDigits (fraction.getD [])

namespace Mantissa

def point (m : Mantissa) : List Byte :=
  match m.fraction with
  | some digits => 46 :: digits
  | none => []

def bytes (m : Mantissa) : List Byte := m.before ++ signBytes m.sign ++ m.whole ++ m.point

def digits (m : Mantissa) : List Byte := m.whole ++ m.fraction.getD []

end Mantissa

structure Exponent where
  mark : Byte
  sign : Option Sign
  digits : List Byte
  isMark : isExponentMark mark
  isDigits : AsciiDigits digits
  nonempty : digits ≠ []

def Exponent.bytes (e : Exponent) : List Byte := e.mark :: signBytes e.sign ++ e.digits

/-- A number as it is written: blanks, a sign, digits with at most one point and at least
one digit, an exponent, blanks. -/
structure Numeral where
  mantissa : Mantissa
  exponent : Option Exponent
  after : List Byte
  nonempty : mantissa.digits ≠ []
  after_blank : Blank after

def digitValue (b : Byte) : Nat := (b - 48).toNat

/-- The digits as a natural number. -/
def digitsValue (digits : List Byte) : Nat := Decimal.natural (digits.map digitValue)

def applySign (sign : Option Sign) (value : ℤ) : ℤ := if sign = some .minus then -value else value

namespace Numeral

def exponentBytes (n : Numeral) : List Byte := (n.exponent.map Exponent.bytes).getD []

def bytes (n : Numeral) : List Byte := n.mantissa.bytes ++ n.exponentBytes ++ n.after

/-- The absolute value of the exponent. -/
def exponentAbs (n : Numeral) : Nat := (n.exponent.map fun e => digitsValue e.digits).getD 0

def exponentValue (n : Numeral) : ℤ :=
  (n.exponent.map fun e => applySign e.sign (digitsValue e.digits)).getD 0

/-- The number that is written. -/
def value (n : Numeral) : ℚ :=
  applySign n.mantissa.sign (digitsValue n.mantissa.digits) *
    10 ^ (n.exponentValue - (n.mantissa.fraction.getD []).length)

end Numeral

-- " -0.50e+1 "
example :
    (⟨⟨[32], some .minus, [48], some [53, 48], by decide +kernel, by decide +kernel,
      by decide +kernel⟩,
    some ⟨101, some .plus, [49], by decide, by decide +kernel, by decide⟩,
    [32], by decide, by decide +kernel⟩ :
      Numeral).bytes = [32, 45, 48, 46, 53, 48, 101, 43, 49, 32] := by decide

/-! ## Bytes -/

section Bytes
variable {b : Byte}

theorem isAsciiWhitespace_iff :
    isAsciiWhitespace b ↔ b = 32 ∨ b = 9 ∨ b = 10 ∨ b = 12 ∨ b = 13 := by
  simp [isAsciiWhitespace, or_assoc]

theorem isAsciiDigit_iff : isAsciiDigit b ↔ 48 ≤ b.toNat ∧ b.toNat ≤ 57 := by
  simp [isAsciiDigit, UInt8.le_iff_toNat_le]

theorem isExponentMark_iff : isExponentMark b ↔ b = 101 ∨ b = 69 := by
  simp [isExponentMark]

theorem not_blank_of_digit (h : isAsciiDigit b) : isAsciiWhitespace b = false := by
  rw [isAsciiDigit_iff] at h
  rw [← Bool.not_eq_true, isAsciiWhitespace_iff]
  rintro (rfl | rfl | rfl | rfl | rfl) <;> simp at h

theorem not_mark_of_digit (h : isAsciiDigit b) : isExponentMark b = false := by
  rw [isAsciiDigit_iff] at h
  rw [← Bool.not_eq_true, isExponentMark_iff]
  rintro (rfl | rfl) <;> simp at h

theorem digitValue_eq (h : isAsciiDigit b) : digitValue b = b.toNat - 48 := by
  rw [isAsciiDigit_iff] at h
  rw [digitValue, UInt8.toNat_sub_of_le]
  · rfl
  · rw [UInt8.le_iff_toNat_le]
    exact h.1

theorem digitValue_lt (h : isAsciiDigit b) : digitValue b < 10 := by
  rw [digitValue_eq h]
  rw [isAsciiDigit_iff] at h
  omega

theorem compare_digits {a b : Byte} (ha : isAsciiDigit a) (hb : isAsciiDigit b) :
    compare a b = compare (digitValue a) (digitValue b) := by
  rw [digitValue_eq ha, digitValue_eq hb]
  rw [isAsciiDigit_iff] at ha hb
  have hlt : a < b ↔ a.toNat - 48 < b.toNat - 48 := by
    rw [UInt8.lt_iff_toNat_lt]
    omega
  have heq : a = b ↔ a.toNat - 48 = b.toNat - 48 := by
    rw [← UInt8.toNat_inj]
    omega
  simp only [compare, compareOfLessAndEq, hlt, heq]

end Bytes

end LeanRows.Sort
