import Mathlib

/-!
# UTF-16

Code units are `UInt16`s and code points natural numbers. A string is well formed when
every high surrogate is followed by a low one and no low one stands alone.
-/

set_option autoImplicit false

namespace Utf16

/-- A code point that is not half of a surrogate pair. -/
def IsScalar (c : Nat) : Prop := c < 0xD800 ∨ 0xE000 ≤ c ∧ c < 0x110000

instance (c : Nat) : Decidable (IsScalar c) := inferInstanceAs (Decidable (_ ∨ _ ∧ _))

def isHigh (unit : UInt16) : Bool := 0xD800 ≤ unit && unit < 0xDC00

def isLow (unit : UInt16) : Bool := 0xDC00 ≤ unit && unit < 0xE000

def encode (c : Nat) : List UInt16 :=
  if c < 0x10000 then [UInt16.ofNat c]
  else [UInt16.ofNat (0xD800 + (c - 0x10000) / 1024), UInt16.ofNat (0xDC00 + (c - 0x10000) % 1024)]

def wellFormed : List UInt16 → Bool
  | [] => true
  | [unit] => !isHigh unit && !isLow unit
  | unit :: next :: units =>
    if isHigh unit then isLow next && wellFormed units
    else !isLow unit && wellFormed (next :: units)

/-- Units that are no surrogates. -/
def Plain (units : List UInt16) : Prop := ∀ unit ∈ units, isHigh unit = false ∧ isLow unit = false

instance (units : List UInt16) : Decidable (Plain units) :=
  List.decidableBAll _ units

variable {units rest : List UInt16} {unit next : UInt16}

theorem wellFormed_cons (hhigh : isHigh unit = false) (hlow : isLow unit = false) :
    wellFormed (unit :: units) = wellFormed units := by
  cases units with
  | nil => simp [wellFormed, hhigh, hlow]
  | cons next units => simp [wellFormed, hhigh, hlow]

theorem wellFormed_pair (hhigh : isHigh unit = true) (hlow : isLow next = true) :
    wellFormed (unit :: next :: units) = wellFormed units := by
  simp [wellFormed, hhigh, hlow]

theorem Plain.append (h : Plain units) : wellFormed (units ++ rest) = wellFormed rest := by
  induction units with
  | nil => rfl
  | cons unit units ih =>
    obtain ⟨hhigh, hlow⟩ := h unit List.mem_cons_self
    rw [List.cons_append, wellFormed_cons hhigh hlow]
    exact ih fun other hother => h other (List.mem_cons_of_mem _ hother)

theorem Plain.wellFormed (h : Plain units) : wellFormed units = true := by
  rw [← List.append_nil units, h.append]
  rfl

theorem isHigh_eq (n : Nat) (h : n < 0x10000) :
    isHigh (UInt16.ofNat n) = (decide (0xD800 ≤ n) && decide (n < 0xDC00)) := by
  simp only [isHigh, UInt16.le_iff_toNat_le, UInt16.lt_iff_toNat_lt, UInt16.toNat_ofNat']
  rw [Nat.mod_eq_of_lt h]
  rfl

theorem isLow_eq (n : Nat) (h : n < 0x10000) :
    isLow (UInt16.ofNat n) = (decide (0xDC00 ≤ n) && decide (n < 0xE000)) := by
  simp only [isLow, UInt16.le_iff_toNat_le, UInt16.lt_iff_toNat_lt, UInt16.toNat_ofNat']
  rw [Nat.mod_eq_of_lt h]
  rfl

/-- A character of the basic plane is a unit of its own, any other one a pair. -/
theorem encode_cases {c : Nat} (h : IsScalar c) :
    (c < 0x10000 ∧ Plain (encode c) ∧ (encode c).length = 1) ∨
      0x10000 ≤ c ∧ ∃ high low, encode c = [high, low] ∧ isHigh high = true ∧
        isLow high = false ∧ isLow low = true ∧ isHigh low = false := by
  unfold encode
  rcases Nat.lt_or_ge c 0x10000 with hlt | hge
  · refine .inl ⟨hlt, ?_, by rw [if_pos hlt]; rfl⟩
    rw [if_pos hlt]
    intro unit hunit
    rw [List.mem_singleton.mp hunit, isHigh_eq c hlt, isLow_eq c hlt]
    rcases h with h | h <;> simp <;> omega
  · have hbound : c < 0x110000 := by
      rcases h with h | h <;> omega
    refine .inr ⟨hge, _, _, if_neg (Nat.not_lt.mpr hge), ?_⟩
    rw [isHigh_eq _ (by omega), isLow_eq _ (by omega), isLow_eq _ (by omega),
      isHigh_eq _ (by omega)]
    refine ⟨?_, ?_, ?_, ?_⟩ <;> simp <;> omega

theorem encode_append {c : Nat} (h : IsScalar c) :
    wellFormed (encode c ++ rest) = wellFormed rest := by
  rcases encode_cases h with ⟨-, hplain, -⟩ | ⟨-, high, low, hpair, hhigh, -, hlow, -⟩
  · exact hplain.append
  · rw [hpair]
    exact wellFormed_pair hhigh hlow

/-- A well-formed string that is cut and continued by plain units stays well formed unless the
cut is behind a high surrogate. -/
theorem wellFormed_take {tail : List UInt16} (htail : Plain tail) (units : List UInt16) (n : Nat)
    (h : wellFormed units = true) :
    wellFormed (units.take n ++ tail) = false ↔
      0 < n ∧ n < units.length ∧ ∃ unit, units[n - 1]? = some unit ∧ isHigh unit = true := by
  match units, n with
  | [], n => simp [htail.wellFormed]
  | units, 0 => simp [htail.wellFormed]
  | [unit], n + 1 =>
    simp only [wellFormed, Bool.and_eq_true, Bool.not_eq_true'] at h
    rw [List.take_succ_cons, List.take_nil, List.singleton_append, wellFormed_cons h.1 h.2,
      htail.wellFormed]
    simp
  | unit :: next :: units, n + 1 =>
    rw [List.take_succ_cons, List.cons_append]
    by_cases hhigh : isHigh unit = true
    · rw [wellFormed, if_pos hhigh, Bool.and_eq_true] at h
      obtain ⟨hlow, hrest⟩ := h
      have hnext : isHigh next = false := by
        simp only [isLow, isHigh, Bool.and_eq_true, decide_eq_true_eq, Bool.and_eq_false_iff,
          decide_eq_false_iff_not, UInt16.le_iff_toNat_le, UInt16.lt_iff_toNat_lt] at hlow ⊢
        exact .inr (Nat.not_lt.mpr hlow.1)
      match n with
      | 0 =>
        have hcut : wellFormed (unit :: tail) = false := by
          cases tail with
          | nil => simp [wellFormed, hhigh]
          | cons first tail => simp [wellFormed, hhigh, (htail first List.mem_cons_self).2]
        simp [hcut, hhigh]
      | 1 =>
        simp [wellFormed_pair hhigh hlow, htail.wellFormed, hnext]
      | n + 2 =>
        rw [List.take_succ_cons, List.cons_append, wellFormed_pair hhigh hlow,
          wellFormed_take htail units (n + 1) hrest]
        simp [Nat.succ_le_iff]
    · have hplain : isHigh unit = false := Bool.eq_false_iff.mpr hhigh
      rw [wellFormed, if_neg hhigh, Bool.and_eq_true, Bool.not_eq_true'] at h
      rw [wellFormed_cons hplain h.1, wellFormed_take htail (next :: units) n h.2]
      cases n with
      | zero => simp [hplain]
      | succ n => simp

end Utf16
