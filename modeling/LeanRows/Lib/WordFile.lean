import Mathlib

/-!
# Files of words

A file as the 64-bit words that were written to it, by the offset of their first byte, with the
extents of all its writes. Nothing is written over a part of a word only.
-/

set_option autoImplicit false

structure WordFile where
  word : Nat → Nat
  extents : List (Nat × Nat)

namespace WordFile

def wordBytes : Nat := 8

def writeAllAt (file : WordFile) (offset : Nat) (words : List Nat) : WordFile where
  word := fun at' =>
    if offset ≤ at' ∧ (at' - offset) % wordBytes = 0 ∧ (at' - offset) / wordBytes <
      words.length then
      words.getD ((at' - offset) / wordBytes) 0
    else file.word at'
  extents := file.extents ++ [(offset, wordBytes * words.length)]

variable {file : WordFile} {offset at' : Nat} {words : List Nat}

theorem word_writeAllAt {index : Nat} (h : index < words.length) :
    (file.writeAllAt offset words).word (offset + wordBytes * index) = words.getD index 0 := by
  have hsub : offset + wordBytes * index - offset = wordBytes * index := by omega
  simp only [writeAllAt, hsub]
  rw [Nat.mul_mod_right, Nat.mul_div_cancel_left _ (by decide), if_pos ⟨by omega, rfl, h⟩]

/-- What lies before or behind the written words stays. -/
theorem word_writeAllAt_outside
    (h : at' < offset ∨ offset + wordBytes * words.length ≤ at') :
    (file.writeAllAt offset words).word at' = file.word at' := by
  refine if_neg ?_
  rintro ⟨hle, -, hlt⟩
  have hdiv := Nat.div_mul_le_self (at' - offset) wordBytes
  have hmod := Nat.lt_mul_of_div_lt hlt (show 0 < wordBytes by decide)
  obtain h | h := h
  · omega
  · rw [Nat.mul_comm] at hmod
    omega

/-! ## Pairs of words -/

def pairBytes : Nat := 2 * wordBytes

def pairWords (pairs : List (Nat × Nat)) : List Nat := pairs.flatMap fun pair => [pair.1, pair.2]

/-- The pairs from an offset on. -/
def readPairs (file : WordFile) (offset count : Nat) : List (Nat × Nat) :=
  (List.range count).map fun index =>
    (file.word (offset + pairBytes * index), file.word (offset + pairBytes * index + wordBytes))

theorem length_pairWords (pairs : List (Nat × Nat)) :
    (pairWords pairs).length = 2 * pairs.length := by
  induction pairs with
  | nil => rfl
  | cons pair pairs ih =>
    rw [pairWords, List.flatMap_cons, List.length_append]
    change 2 + (pairWords pairs).length = _
    rw [ih, List.length_cons]
    omega

theorem getD_pairWords (pairs : List (Nat × Nat)) (index : Nat) :
    (pairWords pairs).getD (2 * index) 0 = (pairs.getD index (0, 0)).1 ∧
      (pairWords pairs).getD (2 * index + 1) 0 = (pairs.getD index (0, 0)).2 := by
  induction pairs generalizing index with
  | nil => simp [pairWords]
  | cons pair pairs ih =>
    cases index with
    | zero => simp [pairWords]
    | succ index => simpa [pairWords, Nat.mul_add] using ih index

theorem length_readPairs (count : Nat) : (file.readPairs offset count).length = count := by
  simp [readPairs]

theorem take_readPairs {first count : Nat} (h : first ≤ count) :
    (file.readPairs offset count).take first = file.readPairs offset first := by
  rw [readPairs, ← List.map_take, List.take_range, Nat.min_eq_left h]
  rfl

theorem readPairs_add (first second : Nat) :
    file.readPairs offset (first + second) =
      file.readPairs offset first ++ file.readPairs (offset + pairBytes * first) second := by
  simp only [readPairs, List.range_add, List.map_append, List.map_map]
  congr 1
  refine List.map_congr_left fun index _ => ?_
  simp only [Function.comp_apply, Nat.mul_add, Nat.add_assoc]

/-- Pairs that are apart from the written words are read as before. -/
theorem readPairs_writeAllAt_outside {start count : Nat}
    (h : start + pairBytes * count ≤ offset ∨ offset + wordBytes * words.length ≤ start) :
    (file.writeAllAt offset words).readPairs start count = file.readPairs start count := by
  refine List.map_congr_left fun index hindex => ?_
  have hlt := List.mem_range.mp hindex
  have hle : pairBytes * (index + 1) ≤ pairBytes * count := Nat.mul_le_mul_left _ hlt
  rw [Nat.mul_add, Nat.mul_one] at hle
  simp only [pairBytes, wordBytes] at *
  rw [word_writeAllAt_outside (by simp only [wordBytes]; omega),
    word_writeAllAt_outside (by simp only [wordBytes]; omega)]

theorem readPairs_writeAllAt (pairs : List (Nat × Nat)) :
    (file.writeAllAt offset (pairWords pairs)).readPairs offset pairs.length = pairs := by
  refine List.ext_getElem (by simp [readPairs]) fun index hread hindex => ?_
  obtain ⟨hfirst, hsecond⟩ := getD_pairWords pairs index
  have hlen := length_pairWords pairs
  simp only [readPairs, List.getElem_map, List.getElem_range]
  have hoffset : offset + pairBytes * index = offset + wordBytes * (2 * index) := by
    simp only [pairBytes, wordBytes]
    omega
  have hnext : offset + wordBytes * (2 * index) + wordBytes =
      offset + wordBytes * (2 * index + 1) := by
    simp only [wordBytes]
    omega
  rw [hoffset, word_writeAllAt (by omega), hnext, word_writeAllAt (by omega), hfirst, hsecond,
    List.getD_eq_getElem _ _ hindex]

end WordFile
