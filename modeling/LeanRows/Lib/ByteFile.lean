import Mathlib

/-!
# Byte files and little-endian numbers

A file is the list of its bytes. `writeAt` lays bytes over it from an offset on; what lies
in front of them stays as it was.
-/

set_option autoImplicit false

namespace ByteFile

/-! ## Numbers -/

/-- The `width` low bytes of a number, the lowest first. -/
def leBytes : Nat → Nat → List UInt8
  | 0, _ => []
  | width + 1, n => UInt8.ofNat n :: leBytes width (n / 256)

def leNat : List UInt8 → Nat
  | [] => 0
  | byte :: bytes => byte.toNat + 256 * leNat bytes

@[simp] theorem leBytes_length (width n : Nat) : (leBytes width n).length = width := by
  induction width generalizing n with
  | zero => rfl
  | succ width ih => simp [leBytes, ih]

theorem leNat_leBytes (width n : Nat) (h : n < 256 ^ width) : leNat (leBytes width n) = n := by
  induction width generalizing n with
  | zero =>
    have hzero : n = 0 := by simpa using h
    simp [leBytes, leNat, hzero]
  | succ width ih =>
    have hrest : n / 256 < 256 ^ width := by
      rw [Nat.div_lt_iff_lt_mul (by decide)]
      rwa [Nat.pow_succ] at h
    rw [leBytes, leNat, ih _ hrest, UInt8.toNat_ofNat']
    omega

theorem leBytes_leNat (bytes : List UInt8) : leBytes bytes.length (leNat bytes) = bytes := by
  induction bytes with
  | nil => rfl
  | cons byte bytes ih =>
    have hbyte := byte.toNat_lt
    have hlow : UInt8.ofNat (byte.toNat + 256 * leNat bytes) = byte := by
      apply UInt8.toNat_inj.mp
      rw [UInt8.toNat_ofNat']
      omega
    have hhigh : (byte.toNat + 256 * leNat bytes) / 256 = leNat bytes := by omega
    rw [List.length_cons, leNat, leBytes, hlow, hhigh, ih]

theorem leNat_lt (bytes : List UInt8) : leNat bytes < 256 ^ bytes.length := by
  induction bytes with
  | nil => exact Nat.one_pos
  | cons byte bytes ih =>
    have hbyte := byte.toNat_lt
    rw [leNat, List.length_cons, Nat.pow_succ]
    omega

/-- A signed number, as its residue. -/
def leIntBytes (width : Nat) (n : Int) : List UInt8 :=
  leBytes width (n % ((256 ^ width : Nat) : Int)).toNat

def leInt (bytes : List UInt8) : Int := Int.bmod (leNat bytes) (256 ^ bytes.length)

@[simp] theorem leIntBytes_length (width : Nat) (n : Int) : (leIntBytes width n).length = width :=
  leBytes_length width _

theorem leInt_leIntBytes (width : Nat) (n : Int) (hlow : -((256 ^ width : Nat) : Int) ≤ 2 * n)
    (hhigh : 2 * n < ((256 ^ width : Nat) : Int)) : leInt (leIntBytes width n) = n := by
  have hpos : (0 : Int) < ((256 ^ width : Nat) : Int) := by positivity
  have hresidue := Int.emod_nonneg n hpos.ne'
  have hlt := Int.emod_lt_of_pos n hpos
  rw [leInt, leIntBytes, leBytes_length, leNat_leBytes width _ (by omega),
    Int.toNat_of_nonneg hresidue, Int.emod_bmod]
  exact Int.bmod_eq_of_le_mul_two (by omega) (by omega)

theorem leIntBytes_leInt (bytes : List UInt8) : leIntBytes bytes.length (leInt bytes) = bytes := by
  have hlt := leNat_lt bytes
  have hresidue : leInt bytes % ((256 ^ bytes.length : Nat) : Int) = leNat bytes := by
    rw [leInt, Int.bmod_emod]
    exact Int.emod_eq_of_lt (by omega) (by omega)
  rw [leIntBytes, hresidue, Int.toNat_natCast, leBytes_leNat]

/-! ## Files -/

section File
variable (file : List UInt8)

def readAt (offset len : Nat) : List UInt8 := (file.drop offset).take len

/-- A write past the end fills the gap with zeros. -/
def writeAt (offset : Nat) (bytes : List UInt8) : List UInt8 :=
  file.take offset ++ List.replicate (offset - file.length) 0 ++ bytes ++
    file.drop (offset + bytes.length)

variable {file}

theorem writeAt_eq {offset : Nat} (h : offset ≤ file.length) (bytes : List UInt8) :
    writeAt file offset bytes =
      file.take offset ++ bytes ++ file.drop (offset + bytes.length) := by
  rw [writeAt, Nat.sub_eq_zero_of_le h]
  simp

theorem length_writeAt {offset : Nat} (h : offset ≤ file.length) (bytes : List UInt8) :
    offset + bytes.length ≤ (writeAt file offset bytes).length := by
  rw [writeAt_eq h]
  simp only [List.length_append, List.length_take, List.length_drop]
  omega

theorem take_writeAt {offset n : Nat} (h : offset ≤ file.length) (hn : n ≤ offset)
    (bytes : List UInt8) : (writeAt file offset bytes).take n = file.take n := by
  rw [writeAt_eq h, List.append_assoc, List.take_append_of_le_length (by
    rw [List.length_take]
    omega), List.take_take, Nat.min_eq_left hn]

/-- What is read in front of a write does not see it. -/
theorem readAt_writeAt_of_le {offset start len : Nat} (h : offset ≤ file.length)
    (hbefore : start + len ≤ offset) (bytes : List UInt8) :
    readAt (writeAt file offset bytes) start len = readAt file start len := by
  have htake : ∀ f : List UInt8, readAt f start len = (f.take (start + len)).drop start := by
    intro f
    rw [readAt, List.drop_take, Nat.add_sub_cancel_left]
  rw [htake, htake, take_writeAt h hbefore]

theorem readAt_writeAt_self {offset : Nat} (h : offset ≤ file.length) (bytes : List UInt8) :
    readAt (writeAt file offset bytes) offset bytes.length = bytes := by
  have hlen : (file.take offset).length = offset := by
    rw [List.length_take]
    omega
  rw [readAt, writeAt_eq h, List.append_assoc, List.drop_left' hlen, List.take_left]

theorem readAt_length {offset len : Nat} (h : offset + len ≤ file.length) :
    (readAt file offset len).length = len := by
  rw [readAt, List.length_take, List.length_drop]
  omega

theorem length_writeAt_of_le {offset : Nat} {bytes : List UInt8}
    (h : offset + bytes.length ≤ file.length) :
    (writeAt file offset bytes).length = file.length := by
  rw [writeAt_eq (by omega)]
  simp only [List.length_append, List.length_take, List.length_drop]
  omega

theorem take_writeAt_self {offset : Nat} (h : offset ≤ file.length) (bytes : List UInt8) :
    (writeAt file offset bytes).take (offset + bytes.length) = file.take offset ++ bytes := by
  have hlen : (file.take offset ++ bytes).length = offset + bytes.length := by
    rw [List.length_append, List.length_take]
    omega
  rw [writeAt_eq h, List.take_left' hlen]

/-! ## Records -/

/-- The fields of a record, written one after the other. -/
def writeFields (file : List UInt8) (fields : List (Nat × List UInt8)) : List UInt8 :=
  fields.foldl (fun file field => writeAt file field.1 field.2) file

/-- Each field starts where the last one ends. -/
def Contiguous : Nat → List (Nat × List UInt8) → Nat → Prop
  | start, [], stop => start = stop
  | start, field :: fields, stop =>
    field.1 = start ∧ Contiguous (start + field.2.length) fields stop

variable {fields : List (Nat × List UInt8)} {start stop : Nat}

theorem Contiguous.le (h : Contiguous start fields stop) : start ≤ stop := by
  induction fields generalizing start with
  | nil => exact Nat.le_of_eq h
  | cons field fields ih => exact Nat.le_of_add_right_le (ih h.2)

theorem length_writeFields (h : Contiguous start fields stop) (hstop : stop ≤ file.length) :
    (writeFields file fields).length = file.length := by
  induction fields generalizing start file with
  | nil => rfl
  | cons field fields ih =>
    obtain ⟨rfl, hrest⟩ := h
    have hlength := length_writeAt_of_le (hrest.le.trans hstop)
    exact (ih hrest (hstop.trans_eq hlength.symm)).trans hlength

theorem take_writeFields (h : Contiguous start fields stop) (hstop : stop ≤ file.length) :
    (writeFields file fields).take start = file.take start := by
  induction fields generalizing start file with
  | nil => rfl
  | cons field fields ih =>
    obtain ⟨rfl, hrest⟩ := h
    have hle := hrest.le.trans hstop
    have hlength := length_writeAt_of_le hle
    have hkept := congrArg (List.take field.1) (ih hrest (hstop.trans_eq hlength.symm))
    rw [List.take_take, List.take_take, Nat.min_eq_left (Nat.le_add_right _ _)] at hkept
    exact hkept.trans (take_writeAt (by omega) (Nat.le_refl _) _)

/-- A field is read as it was written. -/
theorem readAt_writeFields (h : Contiguous start fields stop) (hstop : stop ≤ file.length)
    {field : Nat × List UInt8} (hmem : field ∈ fields) :
    readAt (writeFields file fields) field.1 field.2.length = field.2 := by
  induction fields generalizing start file with
  | nil => cases hmem
  | cons first fields ih =>
    obtain ⟨rfl, hrest⟩ := h
    have hle := hrest.le.trans hstop
    have hlength := length_writeAt_of_le hle
    have hstop' : stop ≤ (writeAt file first.1 first.2).length := hstop.trans_eq hlength.symm
    rcases List.mem_cons.mp hmem with rfl | hmem
    · have hkept := take_writeFields hrest hstop'
      rw [take_writeAt_self (by omega)] at hkept
      have hfield : ∀ f : List UInt8, readAt f field.1 field.2.length =
          (f.take (field.1 + field.2.length)).drop field.1 := by
        intro f
        rw [readAt, List.drop_take, Nat.add_sub_cancel_left]
      have hfront : (file.take field.1).length = field.1 := by
        rw [List.length_take]
        omega
      rw [hfield]
      exact (congrArg (List.drop field.1) hkept).trans (List.drop_left' hfront)
    · exact ih hrest hstop' hmem

/-- Fields read from a record and written again give the record. -/
theorem take_writeFields_readAt {record : List UInt8} (h : Contiguous start fields stop)
    (hstop : stop ≤ file.length)
    (hread : ∀ field ∈ fields, readAt record field.1 field.2.length = field.2)
    (hstart : file.take start = record.take start) :
    (writeFields file fields).take stop = record.take stop := by
  induction fields generalizing start file with
  | nil => exact (show start = stop from h) ▸ hstart
  | cons field fields ih =>
    obtain ⟨rfl, hrest⟩ := h
    have hle := hrest.le.trans hstop
    have hlength := length_writeAt_of_le hle
    refine ih hrest (hstop.trans_eq hlength.symm)
      (fun other hmem => hread other (List.mem_cons_of_mem _ hmem)) ?_
    rw [take_writeAt_self (by omega), hstart, List.take_add]
    exact congrArg (List.take field.1 record ++ ·) (hread field List.mem_cons_self).symm

end File

end ByteFile
