import Mathlib

/-!
# Remainders of bit strings

The remainder of a message by a polynomial with its bits reversed, a bit of the message at a
time. A shift of the register is linear in exclusive or: several shifts are those of its low
bits, which a table can hold, and the rest of it moved down.
-/

set_option autoImplicit false

namespace Remainder

variable {w : Nat} (poly : BitVec w)

/-- The register moves down by a bit; the polynomial is taken off when a one falls out. -/
def shift (r : BitVec w) : BitVec w :=
  if r.getLsbD 0 then poly ^^^ (r >>> 1) else r >>> 1

/-- A bit of the message comes in at the low end. -/
def feedBit (r : BitVec w) (bit : Bool) : BitVec w :=
  if r.getLsbD 0 ^^ bit then poly ^^^ (r >>> 1) else r >>> 1

def feed (r : BitVec w) (bits : List Bool) : BitVec w := bits.foldl (feedBit poly) r

/-- The bit at the low end. -/
def lowest (bit : Bool) : BitVec w := if bit then 1#w else 0#w

/-- The bits as a number, the first one lowest. -/
def word : List Bool → BitVec w
  | [] => 0#w
  | bit :: bits => lowest bit ^^^ (word bits <<< 1)

/-- The bits of a number, the lowest one first. -/
def bitsOf {n : Nat} (m : BitVec n) : List Bool := (List.range n).map m.getLsbD

variable {poly} {r : BitVec w}

theorem feed_append (bits more : List Bool) :
    feed poly r (bits ++ more) = feed poly (feed poly r bits) more :=
  List.foldl_append

/-! ### Shifts -/

theorem shift_xor (r s : BitVec w) : shift poly (r ^^^ s) = shift poly r ^^^ shift poly s := by
  have hcancel : (poly ^^^ (r >>> 1)) ^^^ (poly ^^^ (s >>> 1)) = (r >>> 1) ^^^ (s >>> 1) := by
    rw [BitVec.xor_comm poly, BitVec.xor_assoc, ← BitVec.xor_assoc poly poly, BitVec.xor_self,
      BitVec.zero_xor]
  simp only [shift, BitVec.getLsbD_xor, BitVec.ushiftRight_xor_distrib]
  cases r.getLsbD 0 <;> cases s.getLsbD 0
  · rfl
  · change poly ^^^ ((r >>> 1) ^^^ (s >>> 1)) = (r >>> 1) ^^^ (poly ^^^ (s >>> 1))
    rw [← BitVec.xor_assoc, BitVec.xor_comm poly, BitVec.xor_assoc]
  · exact (BitVec.xor_assoc ..).symm
  · exact hcancel.symm

theorem shifts_xor (n : Nat) (r s : BitVec w) :
    (shift poly)^[n] (r ^^^ s) = (shift poly)^[n] r ^^^ (shift poly)^[n] s := by
  induction n generalizing r s with
  | zero => rfl
  | succ n ih => rw [Function.iterate_succ_apply, shift_xor, ih]; rfl

/-- As long as no one falls out, the register only moves down. -/
theorem shifts_of_clear {n : Nat} (h : ∀ i < n, r.getLsbD i = false) :
    (shift poly)^[n] r = r >>> n := by
  induction n with
  | zero => simp
  | succ n ih =>
    have hlow : (r >>> n).getLsbD 0 = false := by
      rw [BitVec.getLsbD_ushiftRight]
      exact h _ (Nat.lt_succ_self n)
    rw [Function.iterate_succ_apply', ih fun i hi => h i (Nat.lt_succ_of_lt hi), shift, hlow,
      BitVec.shiftRight_add]
    rfl

/-- The low `n` bits. -/
def low (n : Nat) (r : BitVec w) : BitVec w := r &&& BitVec.ofNat w (2 ^ n - 1)

theorem getLsbD_low (n i : Nat) (r : BitVec w) :
    (low n r).getLsbD i = (r.getLsbD i && decide (i < n)) := by
  rw [low, BitVec.getLsbD_and, BitVec.getLsbD_ofNat, Nat.testBit_two_pow_sub_one]
  by_cases hi : i < w
  · simp [hi]
  · simp [BitVec.getLsbD_of_ge r i (Nat.le_of_not_lt hi)]

/-- `n` shifts of the register: those of its low bits, and the rest of it moved down. -/
theorem shifts_low (n : Nat) (r : BitVec w) :
    (shift poly)^[n] r = (shift poly)^[n] (low n r) ^^^ (r >>> n) := by
  have hsplit : r = low n r ^^^ (r ^^^ low n r) := by
    rw [BitVec.xor_comm r, ← BitVec.xor_assoc, BitVec.xor_self, BitVec.zero_xor]
  have hclear : ∀ i < n, (r ^^^ low n r).getLsbD i = false := by
    intro i hi
    rw [BitVec.getLsbD_xor, getLsbD_low, decide_eq_true hi, Bool.and_true, Bool.xor_self]
  have hdown : (r ^^^ low n r) >>> n = r >>> n := by
    apply BitVec.eq_of_getLsbD_eq
    intro i _
    rw [BitVec.getLsbD_ushiftRight, BitVec.getLsbD_ushiftRight, BitVec.getLsbD_xor, getLsbD_low,
      decide_eq_false (by omega), Bool.and_false, Bool.xor_false]
  conv_lhs => rw [hsplit]
  rw [shifts_xor, shifts_of_clear hclear, hdown]

/-! ### Words of the message -/

theorem feedBit_eq (hw : 0 < w) (r : BitVec w) (bit : Bool) :
    feedBit poly r bit = shift poly (r ^^^ lowest bit) := by
  cases bit with
  | false => simp [feedBit, shift, lowest]
  | true =>
    have hone : (1#w).getLsbD 0 = true := by simp [hw]
    have hdown : 1#w >>> 1 = 0#w := by
      apply BitVec.eq_of_getLsbD_eq
      intro i _
      simp
    simp only [feedBit, shift, lowest, if_true, BitVec.getLsbD_xor, hone,
      BitVec.ushiftRight_xor_distrib, hdown, BitVec.xor_zero]

theorem getLsbD_word {bits : List Bool} {i : Nat} (hi : i < w) :
    (word bits : BitVec w).getLsbD i = bits.getD i false := by
  induction bits generalizing i with
  | nil => simp [word]
  | cons bit bits ih =>
    cases i with
    | zero => cases bit <;> simp [word, lowest, hi]
    | succ i =>
      have hrest := ih (Nat.lt_of_succ_lt hi)
      have hbit : (lowest bit : BitVec w).getLsbD (i + 1) = false := by
        cases bit <;> simp [lowest]
      rw [word, BitVec.getLsbD_xor, hbit, BitVec.getLsbD_shiftLeft, Bool.false_xor]
      simpa [hi] using hrest

/-- Bits that all come in at once, and then as many shifts. -/
theorem feed_eq_shifts {bits : List Bool} (h : bits.length ≤ w) (r : BitVec w) :
    feed poly r bits = (shift poly)^[bits.length] (r ^^^ word bits) := by
  induction bits generalizing r with
  | nil => simp [feed, word]
  | cons bit bits ih =>
    rw [List.length_cons] at h
    have hup : shift poly (word bits <<< 1 : BitVec w) = word bits := by
      have hlow : (word bits <<< 1 : BitVec w).getLsbD 0 = false := by simp
      rw [shift, hlow, if_neg Bool.false_ne_true]
      apply BitVec.eq_of_getLsbD_eq
      intro i hi
      rw [BitVec.getLsbD_ushiftRight, BitVec.getLsbD_shiftLeft, getLsbD_word hi]
      by_cases hlast : 1 + i < w
      · simp [hlast, getLsbD_word hi]
      · have hnone : bits.length ≤ i := by omega
        simp [hlast, List.getElem?_eq_none hnone]
    change feed poly (feedBit poly r bit) bits = _
    rw [ih (by omega), feedBit_eq (by omega), List.length_cons, Function.iterate_succ_apply, word,
      ← BitVec.xor_assoc, shift_xor _ (word bits <<< 1), hup]

theorem word_bitsOf {n : Nat} (m : BitVec n) : (word (bitsOf m) : BitVec w) = m.setWidth w := by
  apply BitVec.eq_of_getLsbD_eq
  intro i hi
  rw [getLsbD_word hi, BitVec.getLsbD_setWidth, decide_eq_true hi, Bool.true_and, bitsOf]
  by_cases hn : i < n
  · simp [hn]
  · simp [Nat.le_of_not_lt hn]

/-- A word of the message by the table: the entry at the low bits, and the rest moved down. -/
theorem feed_bitsOf {n : Nat} (hn : n ≤ w) (r : BitVec w) (m : BitVec n) :
    feed poly r (bitsOf m) =
      (shift poly)^[n] (low n (r ^^^ m.setWidth w)) ^^^ (r >>> n) := by
  have hlen : (bitsOf m).length = n := by simp [bitsOf]
  have hdown : (m.setWidth w) >>> n = 0#w := by
    apply BitVec.eq_of_getLsbD_eq
    intro i _
    rw [BitVec.getLsbD_ushiftRight, BitVec.getLsbD_setWidth,
      BitVec.getLsbD_of_ge m _ (Nat.le_add_right n i), Bool.and_false, BitVec.getLsbD_zero]
  rw [feed_eq_shifts (by omega), hlen, word_bitsOf, shifts_low, BitVec.ushiftRight_xor_distrib,
    hdown, BitVec.xor_zero]

end Remainder
