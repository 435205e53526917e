import LeanRows.Lib.Remainder
import LeanRows.Xlsx.Zip

/-!
# The checksum of an entry

The table is filled once, and a byte of an entry is one look into it. What is left at the end is
the remainder of all the bits of the entry, whatever the pieces it was unpacked in.
-/

set_option autoImplicit false

namespace LeanRows.Xlsx

/-- The loop that fills `CRC_TABLE`. -/
def fillCrcTable : Nat → Nat → Array UInt32 → Array UInt32
  | 0, _, table => table
  | count + 1, index, table =>
    fillCrcTable count (index + 1) (table.set! index (crcTable (.ofNat index)))

/-- `CRC_TABLE`. -/
def crcEntries : Array UInt32 := fillCrcTable 256 0 (Array.replicate 256 0)

/-- `update`, with its looks into the table. -/
def Crc32.lookUp (crc : Crc32) (bytes : List Byte) : Crc32 :=
  ⟨bytes.foldl (fun value byte =>
    crcEntries.getD ((value ^^^ byte.toUInt32) &&& 0xff).toNat 0 ^^^ (value >>> 8)) crc.value⟩

/-! ### The reference -/

def crcPolynomial : BitVec 32 := 0xedb88320#32

/-- The bits in the order they are sent in, of each byte the lowest one first. -/
def messageBits (bytes : List Byte) : List Bool :=
  bytes.flatMap fun byte => Remainder.bitsOf byte.toBitVec

theorem messageBits_cons (byte : Byte) (bytes : List Byte) :
    messageBits (byte :: bytes) = Remainder.bitsOf byte.toBitVec ++ messageBits bytes :=
  List.flatMap_cons

/-- CRC-32, a bit at a time. -/
def referenceCrc (bytes : List Byte) : Nat :=
  (~~~Remainder.feed crcPolynomial (BitVec.allOnes 32) (messageBits bytes)).toNat

/-- The check value of CRC-32: that of the digits from 1 to 9. -/
example : referenceCrc [49, 50, 51, 52, 53, 54, 55, 56, 57] = 0xcbf43926 := by decide +kernel

/-! ### The table -/

/-- The entries from `index` on are filled, the others are left. -/
theorem getElem?_fillCrcTable {count index : Nat} {table : Array UInt32} {i : Nat}
    (h : index + count ≤ table.size) :
    (fillCrcTable count index table)[i]? =
      if index ≤ i ∧ i < index + count then some (crcTable (.ofNat i)) else table[i]? := by
  induction count generalizing index table with
  | zero =>
    rw [if_neg (by omega)]
    rfl
  | succ count ih =>
    have hsize : (table.set! index (crcTable (.ofNat index))).size = table.size := by simp
    rw [fillCrcTable, ih (by omega)]
    by_cases heq : i = index
    · subst heq
      rw [if_neg (by omega), if_pos (by omega)]
      simp [show i < table.size by omega]
    · have hother : (table.set! index (crcTable (.ofNat index)))[i]? = table[i]? := by
        simp [Array.getElem?_setIfInBounds_ne (Ne.symm heq)]
      rw [hother]
      by_cases hin : index + 1 ≤ i ∧ i < index + 1 + count
      · rw [if_pos hin, if_pos (by omega)]
      · rw [if_neg hin, if_neg (by omega)]

theorem getD_crcEntries {i : Nat} (h : i < 256) : crcEntries.getD i 0 = crcTable (.ofNat i) := by
  rw [Array.getD_eq_getD_getElem?, crcEntries, getElem?_fillCrcTable (by simp), if_pos (by omega)]
  rfl

theorem lookUp_eq_update (crc : Crc32) (bytes : List Byte) :
    crc.lookUp bytes = crc.update bytes := by
  have hentry (value : UInt32) (byte : Byte) :
      crcEntries.getD ((value ^^^ byte.toUInt32) &&& 0xff).toNat 0 =
        crcTable ((value ^^^ byte.toUInt32) &&& 0xff) := by
    have hlt : ((value ^^^ byte.toUInt32) &&& 0xff).toNat < 256 := by
      rw [UInt32.toNat_and]
      exact Nat.lt_succ_of_le Nat.and_le_right
    rw [getD_crcEntries hlt, UInt32.ofNat_toNat]
  simp only [Crc32.lookUp, Crc32.update, hentry]

/-! ### A byte of the message -/

theorem crcRound_eq_shift (value : UInt32) :
    (crcRound value).toBitVec = Remainder.shift crcPolynomial value.toBitVec := by
  have hlow : (value &&& 1 == 1) = value.toBitVec.getLsbD 0 := by
    rw [Bool.eq_iff_iff, beq_iff_eq, ← UInt32.toNat_inj, UInt32.toNat_and]
    change value.toNat &&& 1 = 1 ↔ value.toNat.testBit 0 = true
    rw [Nat.and_one_is_mod, Nat.testBit_zero, decide_eq_true_iff]
  rw [crcRound, Remainder.shift, hlow]
  split <;> rfl

theorem crcTable_eq_shifts (index : UInt32) :
    (crcTable index).toBitVec = (Remainder.shift crcPolynomial)^[8] index.toBitVec := by
  have hrounds (n : Nat) : (Nat.repeat crcRound n index).toBitVec =
      (Remainder.shift crcPolynomial)^[n] index.toBitVec := by
    induction n with
    | zero => rfl
    | succ n ih =>
      rw [Function.iterate_succ_apply', ← ih]
      exact crcRound_eq_shift _
  exact hrounds 8

theorem update_eq_feed (crc : Crc32) (bytes : List Byte) :
    (crc.update bytes).value.toBitVec =
      Remainder.feed crcPolynomial crc.value.toBitVec (messageBits bytes) := by
  obtain ⟨value⟩ := crc
  simp only [Crc32.update]
  induction bytes generalizing value with
  | nil => rfl
  | cons byte bytes ih =>
    have hbyte : (crcTable ((value ^^^ byte.toUInt32) &&& 0xff) ^^^ (value >>> 8)).toBitVec =
        Remainder.feed crcPolynomial value.toBitVec (Remainder.bitsOf byte.toBitVec) := by
      rw [Remainder.feed_bitsOf (by decide), UInt32.toBitVec_xor, crcTable_eq_shifts]
      rfl
    rw [List.foldl_cons, ih, hbyte, messageBits_cons, Remainder.feed_append]

theorem update_append (crc : Crc32) (bytes more : List Byte) :
    crc.update (bytes ++ more) = (crc.update bytes).update more := by
  simp only [Crc32.update, List.foldl_append]

theorem foldl_update (pieces : List (List Byte)) (crc : Crc32) :
    pieces.foldl Crc32.update crc = crc.update pieces.flatten := by
  induction pieces generalizing crc with
  | nil => rfl
  | cons piece pieces ih => rw [List.foldl_cons, ih, List.flatten_cons, update_append]

theorem finish_update (bytes : List Byte) :
    (Crc32.new.update bytes).finish = referenceCrc bytes := by
  rw [Crc32.finish, referenceCrc, ← UInt32.toNat_toBitVec, UInt32.toBitVec_not, update_eq_feed]
  rfl

/-- The checksum by the table, over any pieces, is the remainder of all their bits. -/
theorem crc_by_table (pieces : List (List Byte)) :
    (pieces.foldl Crc32.lookUp .new).finish = referenceCrc pieces.flatten := by
  have hlookUp : (Crc32.lookUp : Crc32 → List Byte → Crc32) = Crc32.update := by
    funext crc bytes
    exact lookUp_eq_update crc bytes
  rw [hlookUp, foldl_update, finish_update]

end LeanRows.Xlsx
