import LeanRows.Lib.Utf16
import LeanRows.Engine.Rows

/-!
# Accessible names

The name that a screen reader hears for a row: labels and values, with every run of blanks
collapsed to one, in a bounded number of UTF-16 units. A name that does not fit is cut at a
character boundary and ends in an ellipsis.
-/

namespace LeanRows.Accessibility

set_option autoImplicit false

/-- With the NUL at the end. -/
def maxAccessibleNameUtf16Units : Nat := 512

def isControl (character : Char) : Bool :=
  decide (character.toNat < 0x20) ||
    decide (0x7F ≤ character.toNat) && decide (character.toNat < 0xA0)

/-- The characters of the Unicode property `White_Space`. -/
def isWhitespace (character : Char) : Bool :=
  decide (0x9 ≤ character.toNat) && decide (character.toNat ≤ 0xD) ||
    decide (0x2000 ≤ character.toNat) && decide (character.toNat ≤ 0x200A) ||
    decide (character.toNat ∈
      [0x20, 0x85, 0xA0, 0x1680, 0x2028, 0x2029, 0x202F, 0x205F, 0x3000])

def encodeUtf16 (character : Char) : List UInt16 := Utf16.encode character.toNat

def replacementCharacter : Char := Char.ofNat 0xFFFD

def ellipsis : Char := Char.ofNat 0x2026

def pair (high low : UInt16) : Char :=
  Char.ofNat (0x10000 + (high.toNat - 0xD800) * 1024 + (low.toNat - 0xDC00))

/-- Every surrogate without its other half is a replacement character. -/
def decodeUtf16 : List UInt16 → List Char
  | [] => []
  | [unit] =>
    if Utf16.isHigh unit || Utf16.isLow unit then [replacementCharacter]
    else [Char.ofNat unit.toNat]
  | unit :: next :: units =>
    if Utf16.isHigh unit then
      if Utf16.isLow next then pair unit next :: decodeUtf16 units
      else replacementCharacter :: decodeUtf16 (next :: units)
    else if Utf16.isLow unit then replacementCharacter :: decodeUtf16 (next :: units)
    else Char.ofNat unit.toNat :: decodeUtf16 (next :: units)

/-! ## The builder -/

structure AccessibleName where
  utf16 : List UInt16
deriving DecidableEq

structure NameBuilder where
  units : List UInt16
  truncated : Bool
  lastWasSpace : Bool

def popUtf16Character (units : List UInt16) : List UInt16 :=
  match units.getLast? with
  | none => units
  | some last =>
    let units := units.dropLast
    if Utf16.isLow last && units.getLast?.any Utf16.isHigh then units.dropLast else units

theorem length_popUtf16Character (units : List UInt16) :
    (popUtf16Character units).length ≤ units.length - 1 := by
  unfold popUtf16Character
  split
  · rename_i hnone
    rw [List.getLast?_eq_none_iff.mp hnone]
    simp
  · dsimp only
    split_ifs <;> simp

/-- Makes room for the ellipsis and the NUL. -/
def makeRoom (units : List UInt16) : List UInt16 :=
  if maxAccessibleNameUtf16Units < units.length + 2 then makeRoom (popUtf16Character units)
  else units
termination_by units.length
decreasing_by
  rename_i hlong
  have hpop := length_popUtf16Character units
  simp only [maxAccessibleNameUtf16Units] at hlong
  omega

namespace NameBuilder

def new : NameBuilder := ⟨[], false, false⟩

def pushChar (builder : NameBuilder) (character : Char) : NameBuilder :=
  if builder.truncated then builder
  else
    let normalized := if isControl character || isWhitespace character then ' ' else character
    if normalized == ' ' && builder.lastWasSpace then builder
    else
      let encoded := encodeUtf16 normalized
      if maxAccessibleNameUtf16Units ≤ builder.units.length + encoded.length then
        { builder with truncated := true }
      else
        { builder with
          units := builder.units ++ encoded
          lastWasSpace := normalized == ' ' }

def pushChars (builder : NameBuilder) (characters : List Char) : NameBuilder :=
  characters.foldl pushChar builder

def pushStr (builder : NameBuilder) (text : String) : NameBuilder :=
  builder.pushChars text.toList

def pushUtf16 (builder : NameBuilder) (units : List UInt16) : NameBuilder :=
  builder.pushChars (decodeUtf16 units)

def finish (builder : NameBuilder) : AccessibleName :=
  let units :=
    if builder.truncated then makeRoom builder.units ++ [0x2026] else builder.units
  ⟨units ++ [0]⟩

end NameBuilder

namespace AccessibleName

/-- The number of a row or a column, as it is shown. -/
def oneBased (index : Nat) : String := toString (saturatingAdd index 1)

def compose (absoluteRow : UInt64) (fields : List (String × String)) : AccessibleName :=
  let builder := NameBuilder.new.pushStr "Row "
  let builder := builder.pushStr (oneBased absoluteRow.toNat)
  let builder := fields.foldl (fun builder field =>
    if field.1.isEmpty || field.2.isEmpty then builder
    else
      let builder := builder.pushStr "; "
      let builder := builder.pushStr field.1
      let builder := builder.pushStr ": "
      builder.pushStr field.2) builder
  builder.finish

/-- A cell ends at its first NUL. -/
def cellUnits (cell : List UInt16) : List UInt16 := cell.takeWhile fun unit => unit != 0

def pushCell (builder : NameBuilder) (cell : List UInt16) : NameBuilder :=
  if (cellUnits cell).isEmpty then builder.pushStr "(empty)"
  else builder.pushUtf16 (cellUnits cell)

def fromUtf16Cells (absoluteRow : UInt64) (cells : List (List UInt16)) : AccessibleName :=
  let builder := NameBuilder.new.pushStr "Row "
  let builder := builder.pushStr (oneBased absoluteRow.toNat)
  let builder := cells.zipIdx.foldl (fun builder cell =>
    let builder := builder.pushStr "; Column "
    let builder := builder.pushStr (oneBased cell.2)
    let builder := builder.pushStr ": "
    pushCell builder cell.1) builder
  builder.finish

def fromPreviewUtf16 (absoluteRow : UInt64) (cell : List UInt16) : AccessibleName :=
  let builder := NameBuilder.new.pushStr "Row "
  let builder := builder.pushStr (oneBased absoluteRow.toNat)
  let builder := builder.pushStr "; Preview: "
  (pushCell builder cell).finish

end AccessibleName

/-! ## The text of a name -/

def normalized (character : Char) : Char :=
  if isControl character || isWhitespace character then ' ' else character

/-- The normalised text, behind a blank or not. -/
def normalise : Bool → List Char → List Char
  | _, [] => []
  | afterSpace, character :: characters =>
    if normalized character == ' ' && afterSpace then normalise afterSpace characters
    else normalized character :: normalise (normalized character == ' ') characters

def encodeAll (characters : List Char) : List UInt16 := characters.flatMap encodeUtf16

def rowText (absoluteRow : UInt64) : List Char :=
  "Row ".toList ++ (AccessibleName.oneBased absoluteRow.toNat).toList

def fieldText (field : String × String) : List Char :=
  if field.1.isEmpty || field.2.isEmpty then []
  else "; ".toList ++ field.1.toList ++ ": ".toList ++ field.2.toList

def cellText (cell : List UInt16) : List Char :=
  if (AccessibleName.cellUnits cell).isEmpty then "(empty)".toList
  else decodeUtf16 (AccessibleName.cellUnits cell)

def columnText (cell : List UInt16 × Nat) : List Char :=
  "; Column ".toList ++ (AccessibleName.oneBased cell.2).toList ++ ": ".toList ++ cellText cell.1

/-- The units show these characters of the text, all of it when it fits. -/
structure IsName (units : List UInt16) (text shown : List Char) : Prop where
  units_eq : units = encodeAll shown ++ [0]
  decoded : decodeUtf16 (encodeAll shown) = shown
  wellFormed : Utf16.wellFormed units = true
  no_nul : 0 ∉ encodeAll shown
  bounded : units.length ≤ maxAccessibleNameUtf16Units
  no_control : ∀ character ∈ shown, isControl character = false
  no_adjacent : shown.IsChain fun a b => ¬ (a = ' ' ∧ b = ' ')
  whole : (encodeAll text).length + 1 ≤ maxAccessibleNameUtf16Units → shown = text
  cut : maxAccessibleNameUtf16Units < (encodeAll text).length + 1 →
    ∃ kept, kept <+: text ∧ shown = kept ++ [ellipsis] ∧
      maxAccessibleNameUtf16Units - 1 ≤ units.length

/-! ## Characters and their units -/

theorem isScalar_toNat (character : Char) : Utf16.IsScalar character.toNat := by
  obtain h | h := character.valid
  · exact .inl h
  · exact .inr ⟨h.1, h.2⟩

theorem decodeUtf16_plain {unit : UInt16} {units : List UInt16} (hhigh : Utf16.isHigh unit = false)
    (hlow : Utf16.isLow unit = false) :
    decodeUtf16 (unit :: units) = Char.ofNat unit.toNat :: decodeUtf16 units := by
  cases units with
  | nil => simp [decodeUtf16, hhigh, hlow]
  | cons next units => simp [decodeUtf16, hhigh, hlow]

theorem decodeUtf16_pair {high low : UInt16} {units : List UInt16}
    (hhigh : Utf16.isHigh high = true) (hlow : Utf16.isLow low = true) :
    decodeUtf16 (high :: low :: units) = pair high low :: decodeUtf16 units := by
  simp [decodeUtf16, hhigh, hlow]

/-- A character is a unit of its own or a surrogate pair. -/
theorem encodeUtf16_cases (character : Char) :
    (∃ unit, encodeUtf16 character = [unit] ∧ unit.toNat = character.toNat ∧
      Utf16.isHigh unit = false ∧ Utf16.isLow unit = false) ∨
    ∃ high low, encodeUtf16 character = [high, low] ∧ pair high low = character ∧
      Utf16.isHigh high = true ∧ Utf16.isLow low = true := by
  obtain ⟨hlt, hplain, -⟩ | ⟨hge, high, low, heq, hhigh, -, hlow, -⟩ :=
    Utf16.encode_cases (isScalar_toNat character)
  · have heq : encodeUtf16 character = [UInt16.ofNat character.toNat] := if_pos hlt
    have hunit := hplain (UInt16.ofNat character.toNat)
      (by rw [show Utf16.encode character.toNat = _ from heq]; exact List.mem_singleton_self _)
    refine .inl ⟨_, heq, ?_, hunit⟩
    rw [UInt16.toNat_ofNat', Nat.mod_eq_of_lt hlt]
  · refine .inr ⟨high, low, heq, ?_, hhigh, hlow⟩
    have hbound : character.toNat < 0x110000 := by
      obtain h | h := isScalar_toNat character <;> omega
    rw [Utf16.encode, if_neg (Nat.not_lt.mpr hge), List.cons.injEq, List.cons.injEq] at heq
    obtain ⟨rfl, rfl, -⟩ := heq
    have hcode : 0x10000 + (0xD800 + (character.toNat - 0x10000) / 1024 - 0xD800) * 1024 +
        (0xDC00 + (character.toNat - 0x10000) % 1024 - 0xDC00) = character.toNat := by omega
    rw [pair, UInt16.toNat_ofNat', UInt16.toNat_ofNat', Nat.mod_eq_of_lt (by omega),
      Nat.mod_eq_of_lt (by omega), hcode, Char.ofNat_toNat]

theorem decodeUtf16_encode (character : Char) (units : List UInt16) :
    decodeUtf16 (encodeUtf16 character ++ units) = character :: decodeUtf16 units := by
  obtain ⟨unit, heq, hcode, hhigh, hlow⟩ | ⟨high, low, heq, hpair, hhigh, hlow⟩ :=
    encodeUtf16_cases character
  · rw [heq, List.singleton_append, decodeUtf16_plain hhigh hlow, hcode, Char.ofNat_toNat]
  · rw [heq, List.cons_append, List.singleton_append, decodeUtf16_pair hhigh hlow, hpair]

theorem decodeUtf16_encodeAll (characters : List Char) :
    decodeUtf16 (encodeAll characters) = characters := by
  induction characters with
  | nil => rfl
  | cons character characters ih =>
    rw [encodeAll, List.flatMap_cons, decodeUtf16_encode]
    exact congrArg _ ih

theorem wellFormed_encodeAll (characters : List Char) (rest : List UInt16) :
    Utf16.wellFormed (encodeAll characters ++ rest) = Utf16.wellFormed rest := by
  induction characters with
  | nil => rfl
  | cons character characters ih =>
    rw [encodeAll, List.flatMap_cons, List.append_assoc]
    exact (Utf16.encode_append (isScalar_toNat character)).trans ih

theorem zero_notMem_encode {character : Char} (h : character.toNat ≠ 0) :
    0 ∉ encodeUtf16 character := by
  obtain ⟨unit, heq, hcode, -⟩ | ⟨high, low, heq, -, hhigh, hlow⟩ := encodeUtf16_cases character
  · rw [heq, List.mem_singleton]
    intro hzero
    rw [← hzero] at hcode
    exact h hcode.symm
  · rw [heq, List.mem_cons, List.mem_singleton]
    rintro (rfl | rfl)
    · exact absurd hhigh (by decide)
    · exact absurd hlow (by decide)

/-- Popping takes off all units of the last character. -/
theorem popUtf16Character_encode (units : List UInt16) (character : Char) :
    popUtf16Character (units ++ encodeUtf16 character) = units := by
  obtain ⟨unit, heq, -, -, hlow⟩ | ⟨high, low, heq, -, hhigh, hlow⟩ :=
    encodeUtf16_cases character
  · simp [heq, popUtf16Character, hlow]
  · have hsplit : units ++ [high, low] = (units ++ [high]) ++ [low] := by simp
    rw [heq, hsplit]
    simp [popUtf16Character, hlow, hhigh]

theorem encodeAll_append (as bs : List Char) :
    encodeAll (as ++ bs) = encodeAll as ++ encodeAll bs :=
  List.flatMap_append

theorem length_encodeUtf16 (character : Char) :
    1 ≤ (encodeUtf16 character).length ∧ (encodeUtf16 character).length ≤ 2 := by
  obtain ⟨unit, heq, -⟩ | ⟨high, low, heq, -⟩ := encodeUtf16_cases character <;> simp [heq]

/-! ## Normalised text -/

theorem isControl_normalized (character : Char) : isControl (normalized character) = false := by
  unfold normalized
  split_ifs with h
  · decide
  · simp only [Bool.or_eq_true, not_or, Bool.not_eq_true] at h
    exact h.1

theorem mem_normalise {after : Bool} {characters : List Char} {shown : Char}
    (h : shown ∈ normalise after characters) : ∃ character, shown = normalized character := by
  induction characters generalizing after with
  | nil => cases h
  | cons character characters ih =>
    rw [normalise] at h
    split_ifs at h
    · exact ih h
    · obtain rfl | hrest := List.mem_cons.mp h
      · exact ⟨character, rfl⟩
      · exact ih hrest

/-- A blank is followed by no other. -/
theorem normalise_chain (characters : List Char) (after : Bool) :
    (normalise after characters).IsChain (fun a b => ¬ (a = ' ' ∧ b = ' ')) ∧
      (after = true → ∀ first ∈ (normalise after characters).head?, first ≠ ' ') := by
  induction characters generalizing after with
  | nil => exact ⟨.nil, by simp [normalise]⟩
  | cons character characters ih =>
    rw [normalise]
    split_ifs with h
    · exact ih after
    · obtain ⟨hchain, hhead⟩ := ih (normalized character == ' ')
      refine ⟨List.isChain_cons.mpr ⟨?_, hchain⟩, ?_⟩
      · rintro next hnext ⟨hblank, hnextBlank⟩
        exact hhead (beq_iff_eq.mpr hblank) next hnext hnextBlank
      · rintro rfl first hfirst
        simp only [Bool.and_true, beq_iff_eq] at h
        rw [List.head?_cons, Option.mem_some] at hfirst
        rw [← hfirst]
        exact h

/-! ## What the builder holds -/

namespace NameBuilder
variable {builder : NameBuilder}

theorem pushChars_append (as bs : List Char) :
    (builder.pushChars as).pushChars bs = builder.pushChars (as ++ bs) :=
  List.foldl_append.symm

theorem pushStr_eq (text : String) : builder.pushStr text = builder.pushChars text.toList :=
  rfl

theorem pushChars_truncated (h : builder.truncated = true) (characters : List Char) :
    builder.pushChars characters = builder := by
  induction characters with
  | nil => rfl
  | cons character characters ih =>
    rw [pushChars, List.foldl_cons, pushChar, if_pos h]
    exact ih

/-- All of the text is there, or the longest start of it that leaves a unit for the NUL. -/
theorem pushChars_spec (characters : List Char) (builder : NameBuilder)
    (hopen : builder.truncated = false) (hlen : builder.units.length < 512) :
    let text := normalise builder.lastWasSpace characters
    let built := builder.pushChars characters
    if builder.units.length + (encodeAll text).length < 512 then
      built.truncated = false ∧ built.units = builder.units ++ encodeAll text
    else
      built.truncated = true ∧ ∃ kept, kept <+: text ∧
        built.units = builder.units ++ encodeAll kept ∧
        510 ≤ built.units.length ∧ built.units.length < 512 := by
  induction characters generalizing builder with
  | nil =>
    simp only [normalise, encodeAll, List.flatMap_nil, List.length_nil, Nat.add_zero,
      List.append_nil, if_pos hlen]
    exact ⟨hopen, rfl⟩
  | cons character characters ih =>
    intro text built
    have hstep : built = (builder.pushChar character).pushChars characters := rfl
    by_cases hskip : (normalized character == ' ' && builder.lastWasSpace) = true
    · have hsame : builder.pushChar character = builder := by
        rw [pushChar, if_neg (by simp [hopen])]
        exact if_pos hskip
      have htext : text = normalise builder.lastWasSpace characters := by
        simp only [text]
        rw [normalise, if_pos hskip]
      rw [hstep, hsame, htext]
      exact ih builder hopen hlen
    · have htext : text = normalized character ::
          normalise (normalized character == ' ') characters := by
        simp only [text]
        rw [normalise, if_neg hskip]
      obtain ⟨hmin, hmax⟩ := length_encodeUtf16 (normalized character)
      have hencode : encodeAll text = encodeUtf16 (normalized character) ++
          encodeAll (normalise (normalized character == ' ') characters) := by
        rw [htext, encodeAll, List.flatMap_cons]
        rfl
      by_cases hfull : 512 ≤ builder.units.length + (encodeUtf16 (normalized character)).length
      · have hcut : builder.pushChar character = { builder with truncated := true } := by
          rw [pushChar, if_neg (by simp [hopen])]
          exact (if_neg hskip).trans (if_pos hfull)
        have hbuilt : built = { builder with truncated := true } := by
          rw [hstep, hcut]
          exact pushChars_truncated rfl characters
        rw [if_neg (by rw [hencode, List.length_append]; omega), hbuilt]
        exact ⟨rfl, [], List.nil_prefix, by simp [encodeAll], by simp only; omega,
          by simp only; omega⟩
      · have hmore : builder.pushChar character = { builder with
            units := builder.units ++ encodeUtf16 (normalized character)
            lastWasSpace := normalized character == ' ' } := by
          rw [pushChar, if_neg (by simp [hopen])]
          exact (if_neg hskip).trans (if_neg hfull)
        have hrest := ih (builder.pushChar character) (by rw [hmore]; exact hopen)
          (by rw [hmore, List.length_append]; omega)
        rw [← hstep, hmore] at hrest
        simp only [List.length_append, List.append_assoc] at hrest
        rw [hencode, List.length_append, ← Nat.add_assoc]
        split_ifs at hrest ⊢
        · exact hrest
        · obtain ⟨htrunc, kept, hkept, hunits, hlow, hhigh⟩ := hrest
          refine ⟨htrunc, normalized character :: kept, ?_, hunits, hlow, hhigh⟩
          rw [htext]
          exact List.cons_prefix_cons.mpr ⟨rfl, hkept⟩

end NameBuilder

/-- One character gives way, and only if the ellipsis has no room. -/
theorem makeRoom_encodeAll (kept : List Char) (hlow : 510 ≤ (encodeAll kept).length)
    (hhigh : (encodeAll kept).length < 512) :
    ∃ shown, shown <+: kept ∧ makeRoom (encodeAll kept) = encodeAll shown ∧
      509 ≤ (encodeAll shown).length ∧ (encodeAll shown).length ≤ 510 := by
  have hstop : ∀ units : List UInt16, units.length ≤ 510 → makeRoom units = units := by
    intro units hlen
    rw [makeRoom, if_neg]
    simp only [maxAccessibleNameUtf16Units]
    omega
  rcases Nat.lt_or_ge 510 (encodeAll kept).length with hlong | hfit
  · obtain ⟨front, last, rfl⟩ : ∃ front last, kept = front ++ [last] := by
      rcases List.eq_nil_or_concat kept with rfl | ⟨front, last, rfl⟩
      · exact absurd hlow (by decide)
      · exact ⟨front, last, List.concat_eq_append⟩
    have hsplit : encodeAll (front ++ [last]) = encodeAll front ++ encodeUtf16 last := by
      rw [encodeAll_append]
      simp [encodeAll]
    obtain ⟨hmin, hmax⟩ := length_encodeUtf16 last
    rw [hsplit, List.length_append] at hlong hhigh
    refine ⟨front, List.prefix_append _ _, ?_, by omega, by omega⟩
    rw [hsplit, makeRoom, if_pos, popUtf16Character_encode]
    · exact hstop _ (by omega)
    · rw [List.length_append]
      simp only [maxAccessibleNameUtf16Units]
      omega
  · exact ⟨kept, List.prefix_rfl, hstop _ hfit, by omega, hfit⟩

/-! ## The name of any text -/

theorem toNat_ne_zero {character : Char} (h : isControl character = false) :
    character.toNat ≠ 0 := by
  intro hzero
  simp [isControl, hzero] at h

theorem zero_notMem_encodeAll {shown : List Char}
    (h : ∀ character ∈ shown, isControl character = false) : 0 ∉ encodeAll shown := by
  intro hmem
  obtain ⟨character, hcharacter, hunit⟩ := List.mem_flatMap.mp hmem
  exact zero_notMem_encode (toNat_ne_zero (h character hcharacter)) hunit

theorem isControl_normalise {after : Bool} {characters : List Char} {character : Char}
    (h : character ∈ normalise after characters) : isControl character = false := by
  obtain ⟨original, rfl⟩ := mem_normalise h
  exact isControl_normalized original

/-- The part of a name that does not ask how much of the text it shows. -/
theorem isName_of_shown {units : List UInt16} {text shown : List Char}
    (hunits : units = encodeAll shown ++ [0])
    (hcontrol : ∀ character ∈ shown, isControl character = false)
    (hchain : shown.IsChain fun a b => ¬ (a = ' ' ∧ b = ' '))
    (hbounded : units.length ≤ maxAccessibleNameUtf16Units)
    (hwhole : (encodeAll text).length + 1 ≤ maxAccessibleNameUtf16Units → shown = text)
    (hcut : maxAccessibleNameUtf16Units < (encodeAll text).length + 1 →
      ∃ kept, kept <+: text ∧ shown = kept ++ [ellipsis] ∧
        maxAccessibleNameUtf16Units - 1 ≤ units.length) : IsName units text shown where
  units_eq := hunits
  decoded := decodeUtf16_encodeAll shown
  wellFormed := by
    rw [hunits, wellFormed_encodeAll]
    decide
  no_nul := zero_notMem_encodeAll hcontrol
  bounded := hbounded
  no_control := hcontrol
  no_adjacent := hchain
  whole := hwhole
  cut := hcut

theorem finish_named (characters : List Char) :
    ∃ shown, IsName (NameBuilder.new.pushChars characters).finish.utf16
      (normalise false characters) shown := by
  have hspec := NameBuilder.pushChars_spec characters NameBuilder.new rfl (by decide)
  have hchain := (normalise_chain characters false).1
  simp only [NameBuilder.new, List.length_nil, Nat.zero_add, List.nil_append] at hspec
  generalize hbuilt : NameBuilder.new.pushChars characters = built
  generalize htext : normalise false characters = text at *
  rw [show NameBuilder.pushChars ⟨[], false, false⟩ characters = built from hbuilt] at hspec
  have hcontrol : ∀ character ∈ text, isControl character = false := by
    intro character hmem
    rw [← htext] at hmem
    exact isControl_normalise hmem
  split_ifs at hspec with hfit
  · obtain ⟨hopen, hunits⟩ := hspec
    have hname : built.finish.utf16 = encodeAll text ++ [0] := by
      simp [NameBuilder.finish, hopen, hunits]
    refine ⟨text, isName_of_shown hname hcontrol hchain ?_ (fun _ => rfl) ?_⟩
    · rw [hname, List.length_append, List.length_singleton]
      simp only [maxAccessibleNameUtf16Units]
      omega
    · simp only [maxAccessibleNameUtf16Units]
      intro hlong
      omega
  · obtain ⟨htruncated, kept, hkept, hunits, hlow, hhigh⟩ := hspec
    rw [hunits] at hlow hhigh
    obtain ⟨shown, hshown, hroom, hleast, hmost⟩ := makeRoom_encodeAll kept hlow hhigh
    have hstart := hshown.trans hkept
    have hdots : encodeAll (shown ++ [ellipsis]) = encodeAll shown ++ [0x2026] := by
      rw [encodeAll_append]
      rfl
    have hname : built.finish.utf16 = encodeAll (shown ++ [ellipsis]) ++ [0] := by
      rw [hdots]
      simp [NameBuilder.finish, htruncated, hunits, hroom]
    have hlength : built.finish.utf16.length = (encodeAll shown).length + 2 := by
      rw [hname, hdots]
      simp
    refine ⟨shown ++ [ellipsis], isName_of_shown hname ?_ ?_ ?_ ?_ ?_⟩
    · intro character hmem
      obtain hmem | hmem := List.mem_append.mp hmem
      · exact hcontrol character (hstart.subset hmem)
      · rw [List.mem_singleton.mp hmem]
        decide
    · have hshownChain := hchain.prefix hstart
      refine List.isChain_append.mpr ⟨hshownChain, .singleton _, ?_⟩
      rintro last - dots hdots ⟨-, hblank⟩
      rw [List.head?_cons, Option.mem_some] at hdots
      rw [← hdots] at hblank
      exact absurd hblank (by decide)
    · rw [hlength]
      simp only [maxAccessibleNameUtf16Units]
      omega
    · simp only [maxAccessibleNameUtf16Units]
      intro hshort
      omega
    · intro _
      refine ⟨shown, hstart, rfl, ?_⟩
      rw [hlength]
      simp only [maxAccessibleNameUtf16Units]
      omega

/-! ## The names of rows -/

theorem pushCell_eq (builder : NameBuilder) (cell : List UInt16) :
    AccessibleName.pushCell builder cell = builder.pushChars (cellText cell) := by
  unfold AccessibleName.pushCell cellText
  split_ifs <;> rfl

/-- Pieces pushed one after another are pushed as one text. -/
theorem foldl_pushChars {α : Type} (push : NameBuilder → α → NameBuilder) (text : α → List Char)
    (hpush : ∀ builder piece, push builder piece = builder.pushChars (text piece))
    (pieces : List α) (builder : NameBuilder) :
    pieces.foldl push builder = builder.pushChars (pieces.flatMap text) := by
  induction pieces generalizing builder with
  | nil => rfl
  | cons piece pieces ih =>
    rw [List.foldl_cons, hpush, ih, NameBuilder.pushChars_append, List.flatMap_cons]

theorem compose_eq (absoluteRow : UInt64) (fields : List (String × String)) :
    AccessibleName.compose absoluteRow fields = (NameBuilder.new.pushChars
      (rowText absoluteRow ++ fields.flatMap fieldText)).finish := by
  unfold AccessibleName.compose
  simp only [NameBuilder.pushStr_eq, NameBuilder.pushChars_append]
  rw [foldl_pushChars _ fieldText, NameBuilder.pushChars_append]
  · rfl
  · intro builder field
    unfold fieldText
    split_ifs
    · rfl
    · simp only [List.append_assoc]

theorem fromUtf16Cells_eq (absoluteRow : UInt64) (cells : List (List UInt16)) :
    AccessibleName.fromUtf16Cells absoluteRow cells = (NameBuilder.new.pushChars
      (rowText absoluteRow ++ cells.zipIdx.flatMap columnText)).finish := by
  unfold AccessibleName.fromUtf16Cells
  simp only [NameBuilder.pushStr_eq, NameBuilder.pushChars_append, pushCell_eq]
  rw [foldl_pushChars _ columnText, NameBuilder.pushChars_append]
  · rfl
  · intro builder cell
    rfl

theorem fromPreviewUtf16_eq (absoluteRow : UInt64) (cell : List UInt16) :
    AccessibleName.fromPreviewUtf16 absoluteRow cell = (NameBuilder.new.pushChars
      (rowText absoluteRow ++ "; Preview: ".toList ++ cellText cell)).finish := by
  simp only [AccessibleName.fromPreviewUtf16, NameBuilder.pushStr_eq,
    NameBuilder.pushChars_append, pushCell_eq]
  rfl

/-- Every name shows its normalised text, or the start of it and an ellipsis. -/
theorem accessible_name (absoluteRow : UInt64) (fields : List (String × String))
    (cells : List (List UInt16)) (cell : List UInt16) :
    (∃ shown, IsName (AccessibleName.compose absoluteRow fields).utf16
      (normalise false (rowText absoluteRow ++ fields.flatMap fieldText)) shown) ∧
    (∃ shown, IsName (AccessibleName.fromUtf16Cells absoluteRow cells).utf16
      (normalise false (rowText absoluteRow ++ cells.zipIdx.flatMap columnText)) shown) ∧
    ∃ shown, IsName (AccessibleName.fromPreviewUtf16 absoluteRow cell).utf16
      (normalise false (rowText absoluteRow ++ "; Preview: ".toList ++ cellText cell)) shown := by
  rw [compose_eq, fromUtf16Cells_eq, fromPreviewUtf16_eq]
  exact ⟨finish_named _, finish_named _, finish_named _⟩

end LeanRows.Accessibility
