import LeanRows.Sort.Value

/-!
# What a descriptor says about its key

Pushing a key byte by byte keeps its front, its length and the recogniser's counters.
`Describes` is the outcome: with a number, the parts of its normal form; with a text, that
it is none.
-/

namespace LeanRows.Sort

set_option autoImplicit false

open Number (leadingZeros)

/-- The group of a key in numeric mode, and the parts of a number's normal form. -/
inductive Summary (key : List Byte) (d : Descriptor) : Prop
  | number (m : Numeral) (hkey : m.bytes = key) (hexp : m.exponentAbs ≤ i64Max)
      (group : d.group = 0) (sign : d.sign = m.signum) (magnitude : d.magnitude = m.magnitude)
      (leading : d.leading = leadingZeros m.mantissa.digits)
  | text (hkey : ∀ m : Numeral, m.bytes ≠ key) (hblank : ¬ Blank key) (group : d.group = 1)
  | blank (hkey : ∀ m : Numeral, m.bytes ≠ key) (hblank : Blank key) (group : d.group = 2)

/-- A descriptor of a key that can be read again from the document. -/
structure Descriptor.Describes (document : List Byte) (quote : Byte) (mode : SortMode)
    (row : Nat) (key : List Byte) (d : Descriptor) : Prop where
  row_eq : d.row = row
  valid : (Cursor.new d quote).Valid document
  rest : (Cursor.new d quote).rest document = key
  len_eq : d.len = key.length
  head_eq : d.head = key.take prefixLen
  summary : mode = .numeric → Summary key d

/-- A blank key is no number. -/
theorem not_blank_numeral (m : Numeral) : ¬ Blank m.bytes := by
  intro hblank
  obtain ⟨hs, -⟩ := (Number.blank_iff _).mpr hblank
  have hread := Number.run_numeral m
  have hpos := hread.counts.digits_pos m.nonempty
  rw [Number.run_before rfl rfl hblank] at hpos
  exact absurd hpos (Nat.lt_irrefl 0)

/-- The descriptor keeps the front of what has been pushed. -/
structure Keeps (seen : List Byte) (d : Descriptor) : Prop where
  len_eq : d.len = seen.length
  front : d.head = seen.take prefixLen

theorem take_set {n i : Nat} (v : Vector Byte n) (byte : Byte) (h : i < n) :
    (v.set i byte h).toList.take (i + 1) = v.toList.take i ++ [byte] := by
  have hlen : i < v.toList.length := by simpa using h
  rw [Vector.toList_set, List.take_add_one, List.take_set_of_le (Nat.le_refl i),
    List.getElem?_set_self hlen]
  rfl

theorem pushByte_keeps {b : Builder} {seen : List Byte} (h : Keeps seen b.descriptor)
    (mode : SortMode) (byte : Byte) : Keeps (seen ++ [byte]) (b.pushByte mode byte).descriptor := by
  obtain ⟨hlen, hfront⟩ := h
  refine ⟨by simp [Builder.pushByte, hlen], ?_⟩
  unfold Descriptor.head at hfront ⊢
  simp only [Builder.pushByte]
  split
  · rename_i hlt
    rw [Nat.min_eq_left (by omega)] at hfront ⊢
    have hseen : seen.take prefixLen = seen := List.take_of_length_le (by omega)
    have hseen' : (seen ++ [byte]).take prefixLen = seen ++ [byte] :=
      List.take_of_length_le (by simp only [List.length_append, List.length_singleton]; omega)
    rw [take_set, hfront, hseen, hseen']
  · rename_i hge
    rw [Nat.min_eq_right (by omega)] at hfront ⊢
    rw [List.take_append_of_le_length (by omega)]
    exact hfront

theorem foldl_pushByte (mode : SortMode) (key : List Byte) (b : Builder) :
    let b' := key.foldl (fun b byte => b.pushByte mode byte) b
    (∀ seen, Keeps seen b.descriptor → Keeps (seen ++ key) b'.descriptor) ∧
      b'.descriptor = { b.descriptor with
        prefixBytes := b'.descriptor.prefixBytes
        len := b'.descriptor.len } ∧
      b'.number = if mode = .numeric then b.number.run key else b.number := by
  induction key generalizing b with
  | nil => exact ⟨by simp, rfl, by split <;> rfl⟩
  | cons byte key ih =>
    obtain ⟨hkeeps, hdescriptor, hnumber⟩ := ih (b.pushByte mode byte)
    refine ⟨fun seen hseen => ?_, hdescriptor, ?_⟩
    · have := hkeeps _ (pushByte_keeps hseen mode byte)
      rwa [List.append_assoc] at this
    · rw [List.foldl_cons, hnumber]
      simp only [Builder.pushByte, Number.run_cons]
      split <;> rfl

/-- The group of a key that is no number. -/
theorem group_of_rejected {key : List Byte} {d : Descriptor} (hlen : d.len = key.length) :
    (d.len = 0 ∨ ((Number.new.run key).state = .blank ∧ ¬ (Number.new.run key).invalid = true)) ↔
      Blank key := by
  have hblank := Number.blank_iff key
  simp only [Bool.not_eq_true]
  rw [hblank, hlen, List.length_eq_zero_iff, or_iff_right_iff_imp]
  rintro rfl
  simp [Blank]

theorem finish_eq_ok {key : List Byte} {d d' : Descriptor} (hlen : d.len = key.length)
    (h : (Number.new.run key).finish d = .ok d') : Summary key d' := by
  unfold Number.finish at h
  simp only [group_of_rejected hlen] at h
  split at h
  · rename_i hrejected
    have hkey (m : Numeral) : m.bytes ≠ key := by
      rintro rfl
      rw [(Number.run_numeral m).accepted] at hrejected
      cases hrejected
    cases h
    by_cases hblank : Blank key
    · exact .blank hkey hblank (if_pos hblank)
    · exact .text hkey hblank (if_neg hblank)
  · rename_i hrejected
    obtain ⟨m, rfl⟩ := Number.numeral_of_accepted (by simpa using hrejected)
    have hread := Number.run_numeral m
    have hcounts := hread.counts
    split at h
    · cases h
    · rename_i hover
      have hexp : m.exponentAbs ≤ i64Max := by
        rw [hread.expOverflow] at hover
        simpa using hover
      cases h
      refine .number m rfl hexp rfl ?_ ?_ hcounts.leading
      · have hzero : (!(Number.new.run m.bytes).significant) = m.isZero := by
          rw [hcounts.significant]
          rfl
        simp only [Numeral.signum, hzero, hread.negative, beq_iff_eq]
      · dsimp only
        rw [hread.exponent hexp, hcounts.beforeDot, hcounts.leading]
        rfl

theorem finish_eq_error {key : List Byte} {d : Descriptor} {error : SortError} :
    (Number.new.run key).finish d = .error error ↔
      error = .numericRange ∧ ∃ m : Numeral, m.bytes = key ∧ i64Max < m.exponentAbs := by
  unfold Number.finish
  dsimp only
  constructor
  · intro h
    split at h
    · cases h
    · rename_i hrejected
      obtain ⟨m, rfl⟩ := Number.numeral_of_accepted (by simpa using hrejected)
      split at h
      · rename_i hover
        cases h
        rw [(Number.run_numeral m).expOverflow] at hover
        exact ⟨rfl, m, rfl, by simpa using hover⟩
      · cases h
  · rintro ⟨rfl, m, rfl, hlt⟩
    have hread := Number.run_numeral m
    have hover : (Number.new.run m.bytes).expOverflow = true := by
      rw [hread.expOverflow]
      exact decide_eq_true hlt
    simp [hread.accepted, hover]

/-- `finish` sets the fields of the summary only. -/
theorem finish_outside {n : Number} {d d' : Descriptor} (h : n.finish d = .ok d') :
    d' = { d with
      group := d'.group
      sign := d'.sign
      magnitude := d'.magnitude
      leading := d'.leading
      digits := d'.digits } := by
  unfold Number.finish at h
  dsimp only at h
  split at h
  · cases h
    rfl
  · split at h
    · cases h
    · cases h
      rfl

/-- A descriptor that was built describes the key it was built from. -/
theorem describe_describes {format : ViewportFormat} {document : List Byte} {row column : Nat}
    {span : RecordSpan} {mode : SortMode} {d d' : Descriptor}
    (hd : d.Located format document row span column)
    (h : describe mode (.new d (quoteByte format))
      (keyOf format column (span.bytesOf document)) = .ok d') :
    d'.Describes document (quoteByte format) mode row
      (keyOf format column (span.bytesOf document)) := by
  generalize hkey : keyOf format column (span.bytesOf document) = key at h
  have hrest := hd.rest
  rw [hkey] at hrest
  obtain ⟨hkeeps, hdescriptor, hnumber⟩ :=
    foldl_pushByte mode key (.new d (quoteByte format))
  have hempty : Keeps [] (Builder.new d (quoteByte format)).descriptor := by
    have hlen : d.len = 0 := by rw [hd.blank]; rfl
    refine ⟨hlen, ?_⟩
    change d.head = _
    simp [Descriptor.head, hlen]
  have hkept := hkeeps [] hempty
  rw [List.nil_append] at hkept
  unfold describe at h
  generalize List.foldl (fun b byte => Builder.pushByte b mode byte) _ key = b
    at h hkept hdescriptor hnumber
  change b.descriptor = { d with prefixBytes := b.descriptor.prefixBytes, len := b.descriptor.len }
    at hdescriptor
  have hsame : (d'.row = d.row ∧ d'.keyStart = d.keyStart ∧ d'.keyEnd = d.keyEnd ∧
      d'.quoted = d.quoted) ∧ d'.len = b.descriptor.len ∧
      d'.prefixBytes = b.descriptor.prefixBytes ∧ (mode = .numeric → Summary key d') := by
    unfold Builder.atEnd at h
    split at h
    · rename_i hmode
      rw [hnumber, if_pos hmode] at h
      have hsummary := finish_eq_ok hkept.len_eq h
      have houtside := finish_outside h
      rw [houtside, hdescriptor]
      exact ⟨⟨rfl, rfl, rfl, rfl⟩, rfl, rfl, fun _ => by rwa [← hdescriptor, ← houtside]⟩
    · rename_i hmode
      cases h
      rw [hdescriptor]
      exact ⟨⟨rfl, rfl, rfl, rfl⟩, rfl, rfl, fun h => absurd h hmode⟩
  obtain ⟨⟨hrow, hstart, hend, hquoted⟩, hlen, hfront, hsummary⟩ := hsame
  have hcursor : Cursor.new d' (quoteByte format) = Cursor.new d (quoteByte format) := by
    simp only [Cursor.new, hstart, hend, hquoted]
  refine ⟨?_, ?_, ?_, hlen.trans hkept.len_eq, ?_, hsummary⟩
  · rw [hrow, hd.blank]
  · rw [hcursor]
    exact hd.valid
  · rw [hcursor, hrest]
  · rw [Descriptor.head, hfront, hlen]
    exact hkept.front

end LeanRows.Sort
