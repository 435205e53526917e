import LeanRows.Xlsx.Content

/-!
# Start tags

A start tag with its attributes, and how it is written. The tokenizer collects the bytes of
the tag up to the end that is in no value; every lookup reads the attributes again from the
front. What is read is what was written.
-/

namespace LeanRows.Xlsx

set_option autoImplicit false

/-! ## How a tag is written -/

/-- A byte that may stand in a part of a name. -/
def IsNameByte (byte : Byte) : Prop :=
  isSpace byte = false ∧ byte ≠ byteOf '=' ∧ byte ≠ byteOf '/' ∧ byte ≠ byteOf '>' ∧
    byte ≠ byteOf '<' ∧ byte ≠ byteOf '"' ∧ byte ≠ byteOf '\'' ∧ byte ≠ byteOf ':' ∧
    byte ≠ byteOf '!' ∧ byte ≠ byteOf '?'

instance (byte : Byte) : Decidable (IsNameByte byte) := inferInstanceAs (Decidable (_ ∧ _))

/-- A name with a prefix in front of it or with none. -/
structure QualifiedName where
  front : Option (List Byte)
  localPart : List Byte

namespace QualifiedName

def render (name : QualifiedName) : List Byte :=
  match name.front with
  | some front => front ++ byteOf ':' :: name.localPart
  | none => name.localPart

structure Legal (name : QualifiedName) : Prop where
  front : ∀ front, name.front = some front → front ≠ [] ∧ ∀ byte ∈ front, IsNameByte byte
  localPart_ne : name.localPart ≠ []
  localPart : ∀ byte ∈ name.localPart, IsNameByte byte

end QualifiedName

/-- One byte of a value between quotes. -/
def escapeByte (quote byte : Byte) : List Byte :=
  if byte = byteOf '&' then bytesOf ['&', 'a', 'm', 'p', ';']
  else if byte = byteOf '<' then bytesOf ['&', 'l', 't', ';']
  else if byte = quote then
    if quote = byteOf '"' then bytesOf ['&', 'q', 'u', 'o', 't', ';']
    else bytesOf ['&', 'a', 'p', 'o', 's', ';']
  else [byte]

def escape (quote : Byte) (value : List Byte) : List Byte := value.flatMap (escapeByte quote)

def IsSpaces (bytes : List Byte) : Prop := ∀ byte ∈ bytes, isSpace byte = true

instance (bytes : List Byte) : Decidable (IsSpaces bytes) := List.decidableBAll _ bytes

structure Attribute where
  spaces : List Byte
  name : QualifiedName
  beforeEquals : List Byte
  afterEquals : List Byte
  quote : Byte
  value : List Byte

namespace Attribute

def quoted (attr : Attribute) : List Byte :=
  attr.quote :: (escape attr.quote attr.value ++ [attr.quote])

def render (attr : Attribute) : List Byte :=
  attr.spaces ++ (attr.name.render ++ (attr.beforeEquals ++
    byteOf '=' :: (attr.afterEquals ++ attr.quoted)))

structure Legal (attr : Attribute) : Prop where
  spaces : IsSpaces attr.spaces
  name : attr.name.Legal
  beforeEquals : IsSpaces attr.beforeEquals
  afterEquals : IsSpaces attr.afterEquals
  quote : attr.quote = byteOf '"' ∨ attr.quote = byteOf '\''

end Attribute

structure StartTag where
  name : QualifiedName
  attributes : List Attribute
  spaces : List Byte
  empty : Bool

namespace StartTag

/-- The attributes and the white space behind them. -/
def tail (tag : StartTag) : List Byte := tag.attributes.flatMap Attribute.render ++ tag.spaces

/-- The name, and all behind it but the slash of an empty tag. -/
def inner (tag : StartTag) : List Byte := tag.name.render ++ tag.tail

/-- All between the angle brackets. -/
def body (tag : StartTag) : List Byte :=
  tag.inner ++ if tag.empty then [byteOf '/'] else []

def render (tag : StartTag) : List Byte := byteOf '<' :: (tag.body ++ [byteOf '>'])

structure Legal (tag : StartTag) : Prop where
  name : tag.name.Legal
  attributes : ∀ attr ∈ tag.attributes, attr.Legal
  apart : ∀ attr ∈ tag.attributes.head?, attr.spaces ≠ []
  spaces : IsSpaces tag.spaces

/-- The value of the first attr of a local name, with a prefix or with none. -/
def lookup (tag : StartTag) (name : List Byte) (prefixed : Bool) : Option (List Byte) :=
  (tag.attributes.find? fun attr =>
    decide (attr.name.localPart = name) && attr.name.front.isSome == prefixed).map
      Attribute.value

end StartTag

/-! ## Bytes -/

section Bytes
variable {byte quote : Byte} {name : QualifiedName}

theorem not_space {byte : Byte} (h : isSpace byte = true) : byte ≠ byteOf '=' ∧ byte ≠ byteOf '/' ∧
    byte ≠ byteOf '>' ∧ byte ≠ byteOf '<' ∧ byte ≠ byteOf '"' ∧ byte ≠ byteOf '\'' := by
  unfold isSpace at h
  simp only [Bool.or_eq_true, beq_iff_eq] at h
  rcases h with ((h | h) | h) | h <;> subst h <;> decide

theorem QualifiedName.Legal.render_mem (h : name.Legal) (hmem : byte ∈ name.render) :
    IsNameByte byte ∨ byte = byteOf ':' := by
  unfold QualifiedName.render at hmem
  rcases hfront : name.front with _ | front
  · rw [hfront] at hmem
    exact .inl (h.localPart byte hmem)
  · rw [hfront] at hmem
    rcases List.mem_append.mp hmem with hmem | hmem
    · exact .inl ((h.front front hfront).2 byte hmem)
    · rcases List.mem_cons.mp hmem with rfl | hmem
      · exact .inr rfl
      · exact .inl (h.localPart byte hmem)

/-- No byte of a name is taken for anything else. -/
theorem QualifiedName.Legal.render_plain (h : name.Legal) (hmem : byte ∈ name.render) :
    isSpace byte = false ∧ byte ≠ byteOf '=' ∧ byte ≠ byteOf '/' ∧ byte ≠ byteOf '>' ∧
      byte ≠ byteOf '<' ∧ byte ≠ byteOf '"' ∧ byte ≠ byteOf '\'' ∧ byte ≠ byteOf '!' ∧
      byte ≠ byteOf '?' := by
  rcases h.render_mem hmem with h | rfl
  · obtain ⟨h₁, h₂, h₃, h₄, h₅, h₆, h₇, -, h₉, h₁₀⟩ := h
    exact ⟨h₁, h₂, h₃, h₄, h₅, h₆, h₇, h₉, h₁₀⟩
  · decide

theorem QualifiedName.Legal.render_ne (h : name.Legal) : name.render ≠ [] := by
  unfold QualifiedName.render
  rcases name.front with _ | front
  · exact h.localPart_ne
  · simp

theorem localName_behind (front localPart : List Byte)
    (h : ∀ byte ∈ localPart, byte ≠ byteOf ':') :
    localName (front ++ byteOf ':' :: localPart) = localPart := by
  unfold localName
  rw [List.reverse_append, List.reverse_cons, List.append_assoc,
    List.takeWhile_append_of_pos (by simpa using h)]
  simp

theorem localName_of_plain {localPart : List Byte} (h : ∀ byte ∈ localPart, byte ≠ byteOf ':') :
    localName localPart = localPart := by
  unfold localName
  rw [List.takeWhile_eq_self_iff.mpr (by simpa using h), List.reverse_reverse]

theorem QualifiedName.Legal.localName (h : name.Legal) :
    Xlsx.localName name.render = name.localPart := by
  have hplain : ∀ byte ∈ name.localPart, byte ≠ byteOf ':' := by
    intro byte hmem
    obtain ⟨-, -, -, -, -, -, -, hcolon, -⟩ := h.localPart byte hmem
    exact hcolon
  unfold QualifiedName.render
  rcases name.front with _ | front
  · exact localName_of_plain hplain
  · exact localName_behind front _ hplain

theorem QualifiedName.Legal.contains_colon (h : name.Legal) :
    name.render.contains (byteOf ':') = name.front.isSome := by
  unfold QualifiedName.render
  rcases name.front with _ | front
  · simp only [Option.isSome_none]
    rw [List.contains_eq_mem, decide_eq_false_iff_not]
    intro hmem
    obtain ⟨-, -, -, -, -, -, -, hcolon, -⟩ := h.localPart _ hmem
    exact hcolon rfl
  · simp

end Bytes

/-! ## Values -/

section Values
variable {byte quote : Byte}

/-- The entities that a value between quotes is written with. -/
theorem decodeEntity_escapes :
    decodeEntity (bytesOf ['a', 'm', 'p']) = .ok [byteOf '&'] ∧
      decodeEntity (bytesOf ['l', 't']) = .ok [byteOf '<'] ∧
      decodeEntity (bytesOf ['q', 'u', 'o', 't']) = .ok [byteOf '"'] ∧
      decodeEntity (bytesOf ['a', 'p', 'o', 's']) = .ok [byteOf '\''] := by
  refine ⟨?_, ?_, ?_, ?_⟩ <;> decide +kernel

theorem entityBody_of_all {body : List Byte}
    (h : (body.all fun byte => byte != byteOf ';' && byte != quote) = true) :
    ∀ byte ∈ body, byte ≠ byteOf ';' ∧ byte ≠ quote := by
  simpa using h

/-- A byte stands for itself or is written as an entity. -/
theorem escapeByte_cases (hquote : quote = byteOf '"' ∨ quote = byteOf '\'') (value : Byte) :
    escapeByte quote value = [value] ∧ value ≠ byteOf '&' ∧ value ≠ quote ∨
      ∃ body, escapeByte quote value = byteOf '&' :: (body ++ [byteOf ';']) ∧
        (∀ byte ∈ body, byte ≠ byteOf ';' ∧ byte ≠ quote) ∧ decodeEntity body = .ok [value] := by
  obtain ⟨hdecodeAmp, hdecodeLt, hdecodeQuot, hdecodeApos⟩ := decodeEntity_escapes
  unfold escapeByte
  by_cases hamp : value = byteOf '&'
  · subst hamp
    refine .inr ⟨bytesOf ['a', 'm', 'p'], if_pos rfl, ?_, hdecodeAmp⟩
    rcases hquote with rfl | rfl <;> exact entityBody_of_all (by decide)
  rw [if_neg hamp]
  by_cases hlt : value = byteOf '<'
  · subst hlt
    refine .inr ⟨bytesOf ['l', 't'], if_pos rfl, ?_, hdecodeLt⟩
    rcases hquote with rfl | rfl <;> exact entityBody_of_all (by decide)
  rw [if_neg hlt]
  by_cases hsame : value = quote
  · subst hsame
    rw [if_pos rfl]
    rcases hquote with rfl | rfl
    · exact .inr ⟨bytesOf ['q', 'u', 'o', 't'], if_pos rfl, entityBody_of_all (by decide),
        hdecodeQuot⟩
    · exact .inr ⟨bytesOf ['a', 'p', 'o', 's'], if_neg (by decide), entityBody_of_all (by decide),
        hdecodeApos⟩
  · rw [if_neg hsame]
    exact .inl ⟨rfl, hamp, hsame⟩

theorem escape_ne_quote (hquote : quote = byteOf '"' ∨ quote = byteOf '\'') {value : List Byte}
    (hmem : byte ∈ escape quote value) : byte ≠ quote := by
  obtain ⟨plain, -, hmem⟩ := List.mem_flatMap.mp hmem
  rcases escapeByte_cases hquote plain with ⟨hescape, -, hne⟩ | ⟨body, hescape, hbody, -⟩
  · rw [hescape] at hmem
    cases List.mem_singleton.mp hmem
    exact hne
  · rw [hescape, List.mem_cons, List.mem_append, List.mem_singleton] at hmem
    rcases hmem with rfl | hmem | rfl
    · rcases hquote with rfl | rfl <;> decide
    · exact (hbody byte hmem).2
    · rcases hquote with rfl | rfl <;> decide

theorem decodeEntities_entity {body decoded rest : List Byte}
    (hbody : ∀ byte ∈ body, byte ≠ byteOf ';') (hdecoded : decodeEntity body = .ok decoded)
    (fuel : Nat) :
    decodeEntities (fuel + 1) (byteOf '&' :: (body ++ byteOf ';' :: rest)) =
      (decodeEntities fuel rest).map (decoded ++ ·) := by
  have htake : (body ++ byteOf ';' :: rest).takeWhile (fun byte => byte != byteOf ';') = body := by
    rw [List.takeWhile_append_of_pos (by simpa using hbody)]
    simp
  rw [decodeEntities, if_pos rfl]
  simp only [htake, List.drop_left, hdecoded]
  rcases decodeEntities fuel rest with error | rest' <;> rfl

/-- A value that was escaped reads as the value. -/
theorem decodeEntities_escape (hquote : quote = byteOf '"' ∨ quote = byteOf '\'')
    (value : List Byte) {fuel : Nat} (hfuel : (escape quote value).length ≤ fuel) :
    decodeEntities fuel (escape quote value) = .ok value := by
  induction value generalizing fuel with
  | nil => cases fuel <;> rfl
  | cons plain value ih =>
    have hcons : escape quote (plain :: value) = escapeByte quote plain ++ escape quote value := rfl
    rw [hcons] at hfuel ⊢
    rcases escapeByte_cases hquote plain with ⟨hescape, hamp, -⟩ | ⟨body, hescape, hbody, hdecoded⟩
    · rw [hescape, List.singleton_append] at hfuel ⊢
      obtain ⟨fuel, rfl⟩ : ∃ less, fuel = less + 1 :=
        ⟨fuel - 1, by rw [List.length_cons] at hfuel; omega⟩
      rw [decodeEntities, if_neg hamp, ih (by simpa using hfuel)]
      rfl
    · rw [hescape, List.cons_append, List.append_assoc, List.singleton_append] at hfuel ⊢
      simp only [List.length_cons, List.length_append] at hfuel
      obtain ⟨fuel, rfl⟩ : ∃ less, fuel = less + 1 := ⟨fuel - 1, by omega⟩
      rw [decodeEntities_entity (fun byte hmem => (hbody byte hmem).1) hdecoded,
        ih (by omega)]
      rfl

end Values

/-! ## Attributes -/

section Attributes
variable {bytes stops : List Byte} {taken : Byte → Bool}

/-- What stops the reading of a word. -/
theorem takeWhile_stop (h : ∀ byte ∈ bytes, taken byte = true)
    (hstop : ∀ byte ∈ stops.head?, taken byte = false) :
    (bytes ++ stops).takeWhile taken = bytes ∧ (bytes ++ stops).dropWhile taken = stops := by
  rw [List.takeWhile_append_of_pos h, List.dropWhile_append_of_pos h]
  cases stops with
  | nil => simp
  | cons byte stops =>
    have hbyte : taken byte = false := hstop byte rfl
    simp [hbyte]

theorem dropWhile_spaces (h : IsSpaces bytes) (hstop : ∀ byte ∈ stops.head?, isSpace byte = false) :
    (bytes ++ stops).dropWhile isSpace = stops :=
  (takeWhile_stop h hstop).2

namespace Attribute
variable {attr : Attribute}

theorem Legal.name_head (h : attr.Legal) (more : List Byte) :
    ∀ byte ∈ (attr.name.render ++ more).head?, isSpace byte = false := by
  intro byte hbyte
  obtain ⟨first, render, hrender⟩ := List.exists_cons_of_ne_nil h.name.render_ne
  rw [hrender] at hbyte
  cases hbyte
  exact (h.name.render_plain (hrender ▸ List.mem_cons_self ..)).1

/-- The name of an attribute ends in front of white space or the sign behind it. -/
theorem Legal.name_word (h : attr.Legal) (more : List Byte) :
    (attr.name.render ++ (attr.beforeEquals ++ byteOf '=' :: more)).takeWhile
      (fun byte => byte != byteOf '=' && !isSpace byte) = attr.name.render := by
  refine (takeWhile_stop (fun byte hmem => ?_) fun byte hbyte => ?_).1
  · obtain ⟨hspace, hequals, -⟩ := h.name.render_plain hmem
    simp [hspace, hequals]
  · rcases hbefore : attr.beforeEquals with _ | ⟨space, spaces⟩
    · rw [hbefore] at hbyte
      cases hbyte
      simp
    · rw [hbefore] at hbyte
      cases hbyte
      have hspace := h.beforeEquals byte (hbefore ▸ List.mem_cons_self ..)
      simp [hspace]

theorem quote_plain (h : attr.quote = byteOf '"' ∨ attr.quote = byteOf '\'') :
    isSpace attr.quote = false := by
  rcases h with h | h <;> rw [h] <;> decide

end Attribute

namespace XmlTokenizer
variable {xml : XmlTokenizer} {attr : Attribute} {name : List Byte} {prefixed : Bool}

/-- One attribute is read: it is the one that is looked for, or the reading goes on behind it. -/
theorem attributeFrom_render (h : attr.Legal) (fuel : Nat) (more : List Byte) :
    xml.attributeFrom name prefixed (fuel + 1) (attr.render ++ more) =
      if attr.name.localPart = name ∧ attr.name.front.isSome = prefixed then .ok (some attr.value)
      else xml.attributeFrom name prefixed fuel more := by
  have hrender : attr.render ++ more = attr.spaces ++ (attr.name.render ++ (attr.beforeEquals ++
      byteOf '=' :: (attr.afterEquals ++ attr.quote ::
        (escape attr.quote attr.value ++ attr.quote :: more)))) := by
    simp [Attribute.render, Attribute.quoted]
  have hequals : ∀ stops : List Byte, ∀ byte ∈ (byteOf '=' :: stops).head?,
      isSpace byte = false := by
    rintro stops byte ⟨⟩
    decide
  have hvalue : (escape attr.quote attr.value ++ attr.quote :: more).takeWhile
      (fun byte => byte != attr.quote) = escape attr.quote attr.value := by
    refine (takeWhile_stop (fun byte hmem => ?_) ?_).1
    · simpa using escape_ne_quote h.quote hmem
    · rintro byte ⟨⟩
      simp
  have hnotEmpty : ∀ stops : List Byte, (attr.name.render ++ stops).isEmpty = false := by
    intro stops
    rw [List.isEmpty_eq_false_iff]
    exact List.append_ne_nil_of_left_ne_nil h.name.render_ne _
  have hquote : ¬ (attr.quote ≠ byteOf '"' ∧ attr.quote ≠ byteOf '\'') := fun hne => by
    rcases h.quote with heq | heq
    · exact hne.1 heq
    · exact hne.2 heq
  rw [hrender, attributeFrom]
  simp only [dropWhile_spaces h.spaces (h.name_head _), hnotEmpty, h.name_word, List.drop_left,
    dropWhile_spaces h.beforeEquals (hequals _), Bool.false_eq_true, if_false, ne_eq,
    not_true_eq_false]
  rw [dropWhile_spaces h.afterEquals
    (by rintro byte ⟨⟩; exact Attribute.quote_plain h.quote)]
  simp only [hvalue, List.drop_left]
  rw [if_neg hquote, decodeEntities_escape h.quote attr.value (Nat.le_refl _), h.name.localName,
    h.name.contains_colon]
  rfl

theorem attributeFrom_spaces {spaces : List Byte} (h : IsSpaces spaces) (fuel : Nat) :
    xml.attributeFrom name prefixed (fuel + 1) spaces = .ok none := by
  have hdrop : spaces.dropWhile isSpace = [] := List.dropWhile_eq_nil_iff.mpr h
  rw [attributeFrom, hdrop]
  rfl

theorem attributeFrom_flatMap {attributes : List Attribute} {spaces : List Byte}
    (hattributes : ∀ attr ∈ attributes, attr.Legal) (hspaces : IsSpaces spaces) {fuel : Nat}
    (hfuel : attributes.length < fuel) :
    xml.attributeFrom name prefixed fuel (attributes.flatMap Attribute.render ++ spaces) =
      .ok ((attributes.find? fun attr =>
        decide (attr.name.localPart = name) && attr.name.front.isSome == prefixed).map
          Attribute.value) := by
  induction attributes generalizing fuel with
  | nil =>
    obtain ⟨fuel, rfl⟩ : ∃ less, fuel = less + 1 := ⟨fuel - 1, by omega⟩
    exact attributeFrom_spaces hspaces fuel
  | cons attr attributes ih =>
    rw [List.length_cons] at hfuel
    obtain ⟨fuel, rfl⟩ : ∃ less, fuel = less + 1 := ⟨fuel - 1, by omega⟩
    have hattr := hattributes attr (List.mem_cons_self ..)
    have hless : attributes.length < fuel := by omega
    rw [List.flatMap_cons, List.append_assoc, attributeFrom_render hattr,
      ih (fun attr hmem => hattributes attr (List.mem_cons_of_mem _ hmem)) hless, List.find?_cons]
    by_cases hfound : attr.name.localPart = name ∧ attr.name.front.isSome = prefixed
    · rw [if_pos hfound]
      simp [hfound.1, hfound.2]
    · rw [if_neg hfound]
      have hother : (decide (attr.name.localPart = name) &&
          attr.name.front.isSome == prefixed) = false := by
        simpa using hfound
      rw [hother]

end XmlTokenizer

end Attributes

/-! ## The tag that was collected -/

namespace StartTag
variable {tag : StartTag}

/-- White space ends the name of the element, if anything does. -/
theorem Legal.tail_head (h : tag.Legal) : ∀ byte ∈ tag.tail.head?, isSpace byte = true := by
  intro byte hbyte
  unfold tail at hbyte
  rcases hattributes : tag.attributes with _ | ⟨attr, attributes⟩
  · rw [hattributes] at hbyte
    exact h.spaces byte (List.mem_of_mem_head? hbyte)
  · have hmem : attr ∈ tag.attributes := hattributes ▸ List.mem_cons_self ..
    obtain ⟨space, spaces, hspaces⟩ := List.exists_cons_of_ne_nil
      (h.apart attr (by rw [hattributes]; rfl))
    rw [hattributes, List.flatMap_cons, Attribute.render, hspaces] at hbyte
    cases hbyte
    exact (h.attributes attr hmem).spaces _ (hspaces ▸ List.mem_cons_self ..)

theorem Legal.flatMap_last {attributes : List Attribute} {byte : Byte}
    (h : ∀ attr ∈ attributes, attr.Legal)
    (hlast : byte ∈ (attributes.flatMap Attribute.render).getLast?) :
    byte = byteOf '"' ∨ byte = byteOf '\'' := by
  rcases attributes.eq_nil_or_concat with rfl | ⟨attributes, attr, rfl⟩
  · cases hlast
  · rw [List.concat_eq_append] at h hlast
    have hquoted : (attributes ++ [attr]).flatMap Attribute.render =
        (attributes.flatMap Attribute.render ++ (attr.spaces ++ attr.name.render ++
          attr.beforeEquals ++ byteOf '=' :: attr.afterEquals ++
            attr.quote :: escape attr.quote attr.value)) ++ [attr.quote] := by
      simp [Attribute.render, Attribute.quoted]
    rw [hquoted, List.getLast?_concat] at hlast
    cases hlast
    exact (h attr (by simp)).quote

/-- No slash stands at the end of what is inside a tag. -/
theorem Legal.inner_last (h : tag.Legal) : tag.inner.getLast? ≠ some (byteOf '/') := by
  intro hlast
  unfold inner tail at hlast
  rw [List.getLast?_append, List.getLast?_append, Option.or_eq_some_iff,
    Option.or_eq_some_iff] at hlast
  rcases hlast with (hlast | ⟨-, hlast⟩) | ⟨-, hlast⟩
  · exact (not_space (h.spaces _ (List.mem_of_mem_getLast? hlast))).2.1 rfl
  · rcases Legal.flatMap_last h.attributes hlast with heq | heq
    · revert heq
      decide
    · revert heq
      decide
  · obtain ⟨-, -, hslash, -⟩ := h.name.render_plain (List.mem_of_mem_getLast? hlast)
    exact hslash rfl

theorem Legal.inner_head (h : tag.Legal) (more : List Byte) :
    ∃ first rest, tag.inner ++ more = first :: rest ∧ first ∈ tag.name.render := by
  obtain ⟨first, render, hrender⟩ := List.exists_cons_of_ne_nil h.name.render_ne
  refine ⟨first, render ++ tag.tail ++ more, ?_, hrender ▸ List.mem_cons_self ..⟩
  rw [inner, hrender]
  rfl

end StartTag

namespace XmlTokenizer
variable {xml : XmlTokenizer} {tag : StartTag}

theorem tagBody_eq (h : tag.Legal) (htag : xml.tag = tag.body) : xml.tagBody = tag.inner := by
  obtain ⟨first, rest, hbody, hfirst⟩ :=
    h.inner_head (if tag.empty then [byteOf '/'] else [])
  have hslash : first ≠ byteOf '/' := by
    obtain ⟨-, -, hslash, -⟩ := h.name.render_plain hfirst
    exact hslash
  have hhead : ¬ xml.tag.head? = some (byteOf '/') := by
    rw [htag, StartTag.body, hbody]
    simpa using hslash
  unfold tagBody
  rw [if_neg hhead, htag, StartTag.body]
  cases tag.empty with
  | false =>
    rw [if_neg Bool.false_ne_true, List.append_nil, if_neg h.inner_last]
  | true =>
    rw [if_pos rfl, if_pos List.getLast?_concat, List.dropLast_concat]

theorem name_eq (h : tag.Legal) (htag : xml.tag = tag.body) : xml.name = tag.name.localPart := by
  have hword : tag.inner.takeWhile (fun byte => !(isSpace byte || byte == byteOf '/')) =
      tag.name.render := by
    refine (takeWhile_stop (fun byte hmem => ?_) fun byte hbyte => ?_).1
    · obtain ⟨hspace, -, hslash, -⟩ := h.name.render_plain hmem
      simp [hspace, hslash]
    · simp [h.tail_head byte hbyte]
  rw [XmlTokenizer.name, tagBody_eq h htag, hword, h.name.localName]

theorem attributeValue_eq (h : tag.Legal) (htag : xml.tag = tag.body) (name : List Byte)
    (prefixed : Bool) : xml.attributeValue name prefixed = .ok (tag.lookup name prefixed) := by
  have htail : tag.inner.dropWhile (fun byte => !isSpace byte) = tag.tail := by
    refine (takeWhile_stop (fun byte hmem => ?_) fun byte hbyte => ?_).2
    · rw [(h.name.render_plain hmem).1]
      rfl
    · rw [h.tail_head byte hbyte]
      rfl
  have hlength : tag.attributes.length ≤ tag.tail.length := by
    have hrender : ∀ length ∈ tag.attributes.map fun attr => attr.render.length, 1 ≤ length := by
      intro length hmem
      obtain ⟨attr, -, rfl⟩ := List.mem_map.mp hmem
      simp only [Attribute.render, Attribute.quoted, List.length_append, List.length_cons]
      omega
    have hsum := List.length_le_sum_of_one_le _ hrender
    rw [List.length_map] at hsum
    rw [StartTag.tail, List.length_append, List.length_flatMap]
    omega
  unfold attributeValue
  simp only [tagBody_eq h htag, htail]
  exact attributeFrom_flatMap h.attributes h.spaces (Nat.lt_succ_of_le hlength)

/-! ## The bytes of a tag -/

section Machine
variable {caller : Caller} {bytes : List Byte} {reading : Reading} {mid : XmlTokenizer}

/-- The bytes complete no event and leave the tokenizer so. -/
def Passes (bytes : List Byte) (xml xml' : XmlTokenizer) : Prop :=
  ∀ (caller : Caller) (more : List Byte) (seen : List Seen),
    readBytes caller (bytes ++ more) ⟨xml, seen⟩ = readBytes caller more ⟨xml', seen⟩

theorem Passes.refl (xml : XmlTokenizer) : Passes [] xml xml := fun _ _ _ => rfl

theorem Passes.cons {byte : Byte} {xml' : XmlTokenizer}
    (hbyte : feedByte byte xml = (.ok none, mid)) (h : Passes bytes mid xml') :
    Passes (byte :: bytes) xml xml' := by
  intro caller more seen
  rw [← h caller more seen, List.cons_append, readBytes]
  simp only [Bind.bind, readByte, hbyte]
  rfl

theorem Passes.append {bytes' : List Byte} {xml' : XmlTokenizer} (h : Passes bytes xml mid)
    (h' : Passes bytes' mid xml') : Passes (bytes ++ bytes') xml xml' := by
  intro caller more seen
  rw [List.append_assoc, h caller, h' caller]

theorem pushTag_ok (xml : XmlTokenizer) {byte : Byte} (hroom : xml.tag.length < xml.maxTagBytes) :
    pushTag byte xml = (.ok none, { xml with tag := xml.tag ++ [byte] }) := by
  unfold pushTag
  rw [if_neg (by omega)]

theorem passes_push (xml : XmlTokenizer) {quote : Byte} (hstate : xml.state = .tag false quote)
    (hbytes : ∀ byte ∈ bytes, tagByte false quote byte = pushTag byte)
    (hroom : xml.tag.length + bytes.length ≤ xml.maxTagBytes) :
    Passes bytes xml { xml with tag := xml.tag ++ bytes } := by
  induction bytes generalizing xml with
  | nil =>
    rw [List.append_nil]
    exact Passes.refl xml
  | cons byte bytes ih =>
    rw [List.length_cons] at hroom
    have hbyte : feedByte byte xml = (.ok none, { xml with tag := xml.tag ++ [byte] }) := by
      rw [← pushTag_ok xml (by omega)]
      simp only [feedByte, hstate, hbytes byte (List.mem_cons_self ..)]
    have hless : (xml.tag ++ [byte]).length + bytes.length ≤ xml.maxTagBytes := by
      rw [List.length_append, List.length_singleton]
      omega
    have hrest := ih { xml with tag := xml.tag ++ [byte] } hstate
      (fun byte hmem => hbytes byte (List.mem_cons_of_mem _ hmem)) hless
    have hjoin : xml.tag ++ [byte] ++ bytes = xml.tag ++ byte :: bytes := by simp
    rw [hjoin] at hrest
    exact hrest.cons hbyte

/-- These bytes are collected as they are, and the tokenizer stands outside of the values again
behind them. -/
def Collects (bytes : List Byte) : Prop :=
  ∀ xml : XmlTokenizer, xml.state = .tag false 0 →
    xml.tag.length + bytes.length ≤ xml.maxTagBytes →
      Passes bytes xml { xml with tag := xml.tag ++ bytes }

theorem Collects.append {bytes' : List Byte} (h : Collects bytes) (h' : Collects bytes') :
    Collects (bytes ++ bytes') := by
  intro xml hstate hroom
  rw [List.length_append] at hroom
  have hfront := h xml hstate (by omega)
  have hbehind := h' { xml with tag := xml.tag ++ bytes } hstate
    (show (xml.tag ++ bytes).length + bytes'.length ≤ xml.maxTagBytes by
      rw [List.length_append]; omega)
  have hjoin : xml.tag ++ bytes ++ bytes' = xml.tag ++ (bytes ++ bytes') := List.append_assoc ..
  rw [hjoin] at hbehind
  exact hfront.append hbehind

theorem collects_plain (h : TagName bytes) : Collects bytes := by
  intro xml hstate hroom
  refine passes_push xml hstate (fun byte hmem => ?_) hroom
  obtain ⟨hgt, hquot, hapos, hlt⟩ := h byte hmem
  exact tagByte_plain false hgt hquot hapos hlt

/-- A value may hold the bytes that end a tag outside of it. -/
theorem collects_quoted {quote : Byte} (hquote : quote = byteOf '"' ∨ quote = byteOf '\'')
    (h : ∀ byte ∈ bytes, byte ≠ quote) : Collects (quote :: (bytes ++ [quote])) := by
  intro xml hstate hroom
  have hzero : quote ≠ 0 := by
    rcases hquote with rfl | rfl <;> decide
  have hgt : quote ≠ byteOf '>' := by
    rcases hquote with rfl | rfl <;> decide
  simp only [List.length_cons, List.length_append, List.length_nil] at hroom
  have hopen : feedByte quote xml =
      (.ok none, { xml with tag := xml.tag ++ [quote], state := .tag false quote }) := by
    have hbyte : tagByte false 0 quote =
        (do let _ ← update fun xml => { xml with state := .tag false quote }; pushTag quote) := by
      have hsame : ¬ ((0 : Byte) ≠ 0) := fun h => h rfl
      exact ((if_neg hsame).trans (if_neg hgt)).trans (if_pos hquote)
    simp only [feedByte, hstate, hbyte, Bind.bind, update]
    exact pushTag_ok { xml with state := .tag false quote }
      (show xml.tag.length < xml.maxTagBytes by omega)
  have hinside : ∀ byte ∈ bytes, tagByte false quote byte = pushTag byte := by
    intro byte hmem
    have hne := h byte hmem
    refine (if_pos hzero).trans (funext fun xml => ?_)
    simp only [Bind.bind, update, if_neg hne]
  have hvalue := passes_push
    { xml with tag := xml.tag ++ [quote], state := .tag false quote } rfl hinside
    (show (xml.tag ++ [quote]).length + bytes.length ≤ xml.maxTagBytes by
      rw [List.length_append, List.length_singleton]; omega)
  have hclose : feedByte quote { xml with
        tag := xml.tag ++ [quote] ++ bytes, state := .tag false quote } =
      (.ok none, { xml with tag := xml.tag ++ [quote] ++ bytes ++ [quote] }) := by
    have hbyte : tagByte false quote quote =
        (do let _ ← update fun xml => { xml with state := .tag false 0 }; pushTag quote) := by
      refine (if_pos hzero).trans ?_
      simp only [if_true]
    simp only [feedByte, hbyte, Bind.bind, update]
    rw [pushTag_ok _ (show (xml.tag ++ [quote] ++ bytes).length < xml.maxTagBytes by
      simp only [List.length_append, List.length_singleton]; omega), ← hstate]
  have hjoin : xml.tag ++ [quote] ++ bytes ++ [quote] = xml.tag ++ quote :: (bytes ++ [quote]) := by
    simp
  rw [hjoin] at hclose
  exact (hvalue.append ((Passes.refl _).cons hclose)).cons hopen

theorem collects_attribute {attr : Attribute} (h : attr.Legal) : Collects attr.render := by
  have hrender : attr.render = (attr.spaces ++ (attr.name.render ++ (attr.beforeEquals ++
      byteOf '=' :: attr.afterEquals))) ++ attr.quoted := by
    simp [Attribute.render]
  rw [hrender]
  refine (collects_plain fun byte hmem => ?_).append
    (collects_quoted h.quote fun byte hmem => escape_ne_quote h.quote hmem)
  have hspace : isSpace byte = true →
      byte ≠ byteOf '>' ∧ byte ≠ byteOf '"' ∧ byte ≠ byteOf '\'' ∧ byte ≠ byteOf '<' := by
    intro hspace
    obtain ⟨-, -, hgt, hlt, hquot, hapos⟩ := not_space hspace
    exact ⟨hgt, hquot, hapos, hlt⟩
  simp only [List.mem_append, List.mem_cons] at hmem
  rcases hmem with hmem | hmem | hmem | rfl | hmem
  · exact hspace (h.spaces byte hmem)
  · obtain ⟨-, -, -, hgt, hlt, hquot, hapos, -⟩ := h.name.render_plain hmem
    exact ⟨hgt, hquot, hapos, hlt⟩
  · exact hspace (h.beforeEquals byte hmem)
  · decide
  · exact hspace (h.afterEquals byte hmem)

theorem collects_attributes {attributes : List Attribute} (h : ∀ attr ∈ attributes, attr.Legal) :
    Collects (attributes.flatMap Attribute.render) := by
  induction attributes with
  | nil => exact collects_plain fun byte hmem => absurd hmem (List.not_mem_nil)
  | cons attr attributes ih =>
    rw [List.flatMap_cons]
    exact (collects_attribute (h attr (List.mem_cons_self ..))).append
      (ih fun attr hmem => h attr (List.mem_cons_of_mem _ hmem))

/-- Behind the first byte of its name, all of a tag is collected. -/
theorem collects_rest {first : Byte} {name : List Byte} (h : tag.Legal)
    (hname : tag.name.render = first :: name) :
    Collects (name ++ (tag.tail ++ if tag.empty then [byteOf '/'] else [])) := by
  have hplain : TagName name := fun byte hmem => by
    obtain ⟨-, -, -, hgt, hlt, hquot, hapos, -⟩ :=
      h.name.render_plain (hname ▸ List.mem_cons_of_mem _ hmem)
    exact ⟨hgt, hquot, hapos, hlt⟩
  have hspaces : TagName tag.spaces := fun byte hmem => by
    obtain ⟨-, -, hgt, hlt, hquot, hapos⟩ := not_space (h.spaces byte hmem)
    exact ⟨hgt, hquot, hapos, hlt⟩
  have hslash : TagName (if tag.empty then [byteOf '/'] else []) := by
    cases tag.empty <;> decide
  exact (collects_plain hplain).append
    (((collects_attributes h.attributes).append (collects_plain hspaces)).append
      (collects_plain hslash))

/-- The tokenizer stands between two tokens, and no text waits to be shown. -/
structure Ready (xml : XmlTokenizer) : Prop where
  state : xml.state = .text ∨ xml.state = .start ∧ xml.instruction = []
  text : xml.collect = false ∨ xml.haveText = false ∧ xml.pendingCr = false

theorem new_ready (part : PartName) (maxTagBytes textLimit : Nat) :
    (new part maxTagBytes textLimit).Ready :=
  ⟨.inr ⟨rfl, rfl⟩, .inl rfl⟩

theorem textByte_lt (xml : XmlTokenizer)
    (h : xml.collect = false ∨ xml.haveText = false ∧ xml.pendingCr = false) :
    ∃ mid, textByte (byteOf '<') xml = (.ok none, mid) ∧ mid.state = .tagOpen ∧ mid.tag = [] ∧
      mid.maxTagBytes = xml.maxTagBytes := by
  have hflush : (xml.flushCr.collect && xml.flushCr.haveText) = false ∧
      xml.flushCr.maxTagBytes = xml.maxTagBytes := by
    unfold flushCr pushText
    rcases h with hcollect | ⟨hhave, hpending⟩
    · split_ifs <;> simp [hcollect]
    · simp [hhave, hpending]
  refine ⟨{ xml.flushCr with state := .tagOpen, tag := [] }, ?_, rfl, rfl, hflush.2⟩
  unfold textByte
  rw [if_pos rfl]
  simp only [hflush.1, Bool.false_eq_true, if_false]

theorem Ready.lt (h : xml.Ready) :
    ∃ mid, feedByte (byteOf '<') xml = (.ok none, mid) ∧ mid.state = .tagOpen ∧ mid.tag = [] ∧
      mid.maxTagBytes = xml.maxTagBytes := by
  rcases h.state with hstate | ⟨hstate, hinstruction⟩
  · simp only [feedByte, hstate]
    exact textByte_lt xml h.text
  · have hmark : ¬ (xml.instruction.length < 3 ∧
        (byteOf '<' = 0xef ∨ xml.instruction ≠ [])) := by
      rintro ⟨-, hne | hne⟩
      · revert hne
        decide
      · exact hne hinstruction
    have hencoding : ¬ (byteOf '<' = 0xfe ∨ byteOf '<' = 0xff ∨ byteOf '<' = 0) := by decide
    simp only [feedByte, hstate, startByte]
    rw [if_neg hmark, if_neg hencoding]
    exact textByte_lt { xml with state := .text } h.text

theorem tagOpenByte_name {byte : Byte} (hstate : xml.state = .tagOpen) (hslash : byte ≠ byteOf '/')
    (hbang : byte ≠ byteOf '!') (hquestion : byte ≠ byteOf '?') (hspace : isSpace byte = false)
    (hgt : byte ≠ byteOf '>') (hroom : xml.tag.length < xml.maxTagBytes) :
    feedByte byte xml =
      (.ok none, { xml with tag := xml.tag ++ [byte], state := .tag false 0 }) := by
  have hname : ¬ ((isSpace byte || byte == byteOf '>') = true) := by
    simp [hspace, hgt]
  have hbyte : tagOpenByte byte =
      (do let _ ← pushTag byte; update fun xml => { xml with state := .tag false 0 }) :=
    (((if_neg hslash).trans (if_neg hbang)).trans (if_neg hquestion)).trans (if_neg hname)
  simp only [feedByte, hstate, hbyte, Bind.bind, pushTag_ok xml hroom, update]

/-- All of a tag but its last byte. -/
theorem Ready.body (h : xml.Ready) (htag : tag.Legal)
    (hlimit : tag.body.length ≤ xml.maxTagBytes) :
    ∃ mid, Passes (byteOf '<' :: tag.body) xml mid ∧ mid.state = .tag false 0 ∧
      mid.tag = tag.body := by
  obtain ⟨opened, hopen, hstate, hempty, hmax⟩ := h.lt
  obtain ⟨first, name, hname⟩ := List.exists_cons_of_ne_nil htag.name.render_ne
  obtain ⟨hspace, -, hslash, hgt, -, -, -, hbang, hquestion⟩ :=
    htag.name.render_plain (hname ▸ List.mem_cons_self ..)
  have hbody : tag.body =
      first :: (name ++ (tag.tail ++ if tag.empty then [byteOf '/'] else [])) := by
    simp [StartTag.body, StartTag.inner, hname]
  rw [hbody, List.length_cons] at hlimit
  have hfirst := tagOpenByte_name hstate hslash hbang hquestion hspace hgt
    (by rw [hempty, hmax]; exact Nat.lt_of_lt_of_le (Nat.succ_pos _) hlimit)
  have hrest := collects_rest htag hname
    { opened with tag := opened.tag ++ [first], state := .tag false 0 } rfl
    (show (opened.tag ++ [first]).length + _ ≤ opened.maxTagBytes by
      rw [hempty, hmax, List.nil_append, List.length_singleton]; omega)
  refine ⟨_, hbody ▸ (hrest.cons hfirst).cons hopen, rfl, ?_⟩
  rw [hbody]
  simp [hempty]

/-- An answer of the caller leaves the tokenizer between two tokens. -/
theorem foldl_collectText_finish (xml : XmlTokenizer) (hstate : xml.state = .text)
    (answers : List Bool) :
    (answers.foldl (fun xml collect => xml.collectText collect) xml).finish = .ok () := by
  induction answers generalizing xml with
  | nil =>
    unfold finish
    rw [List.foldl_nil, hstate]
  | cons answer answers ih => exact ih (xml.collectText answer) hstate

end Machine

/-- A tag that is written out, in any white space and with any quotes, reads as the tag. -/
theorem start_tag_read {xml : XmlTokenizer} (hready : xml.Ready) {tag : StartTag} (htag : tag.Legal)
    (hlimit : tag.body.length ≤ xml.maxTagBytes) (caller : Caller) {chunks : List (List Byte)}
    (hchunks : chunks.flatten = tag.render) :
    ∃ reading seen, feedChunks caller chunks ⟨xml, []⟩ = (.ok (), reading) ∧
      reading.seen = [seen] ∧ seen.event = .startTag tag.empty ∧
      seen.name = tag.name.localPart ∧
      ∀ name prefixed, seen.attributeValue name prefixed = .ok (tag.lookup name prefixed) := by
  obtain ⟨mid, hpasses, hstate, hbody⟩ := hready.body htag hlimit
  have hsplit : tag.render = (byteOf '<' :: tag.body) ++ [byteOf '>'] := rfl
  have hempty : (mid.tag.getLast? == some (byteOf '/')) = tag.empty := by
    rw [hbody, StartTag.body]
    cases tag.empty with
    | false =>
      rw [if_neg Bool.false_ne_true, List.append_nil]
      simpa using htag.inner_last
    | true => rw [if_pos rfl, List.getLast?_concat, beq_self_eq_true]
  have hgt : feedByte (byteOf '>') mid =
      (.ok (some (.startTag tag.empty)), { mid with state := .text }) := by
    simp only [feedByte, hstate, tagByte_gt, hempty]
    rfl
  have hread : readBytes caller tag.render ⟨xml, []⟩ =
      (.ok (), Reading.meet caller (.startTag tag.empty) ⟨{ mid with state := .text }, []⟩) := by
    rw [hsplit, hpasses caller]
    simp only [readBytes, readByte, Bind.bind, hgt]
    rfl
  have hcollected : ({ mid with state := .text } : XmlTokenizer).tag = tag.body := hbody
  refine ⟨Reading.meet caller (.startTag tag.empty) ⟨{ mid with state := .text }, []⟩,
    ({ mid with state := .text } : XmlTokenizer).seen (.startTag tag.empty), ?_, rfl, rfl,
    name_eq htag hcollected, attributeValue_eq htag hcollected⟩
  rw [feedChunks_eq, hchunks]
  simp only [Bind.bind, hread]
  exact congrArg (·, _) (foldl_collectText_finish { mid with state := .text } rfl _)

/-- An empty tag with two attributes, one of them with a prefix and the end of a tag in its
value. -/
def linkTag : StartTag where
  name := ⟨none, bytesOf ['c']⟩
  attributes :=
    [⟨bytesOf [' '], ⟨none, bytesOf ['r']⟩, [], [], byteOf '"', bytesOf ['A', '1']⟩,
      ⟨[lf], ⟨some (bytesOf ['r']), bytesOf ['i', 'd']⟩, bytesOf [' '], [lf], byteOf '\'',
        bytesOf ['/', '>', '\'', '&']⟩]
  spaces := bytesOf [' ']
  empty := true

theorem linkTag_legal : linkTag.Legal := by
  have hname (localPart : List Byte) (hne : localPart ≠ [])
      (h : (localPart.all fun byte => decide (IsNameByte byte)) = true) :
      (⟨none, localPart⟩ : QualifiedName).Legal :=
    ⟨fun front hnone => (by cases hnone), hne,
      fun byte hmem => by simpa using List.all_eq_true.mp h byte hmem⟩
  have hid : (⟨some (bytesOf ['r']), bytesOf ['i', 'd']⟩ : QualifiedName).Legal := by
    refine ⟨fun front h => ?_, by decide, fun byte hmem => ?_⟩
    · cases h
      refine ⟨by decide, fun byte hmem => ?_⟩
      cases List.mem_singleton.mp hmem
      decide
    · rcases List.mem_cons.mp hmem with rfl | hmem
      · decide
      · cases List.mem_singleton.mp hmem
        decide
  refine ⟨hname _ (by decide) (by decide), fun attr hmem => ?_, ?_, by decide⟩
  · rcases List.mem_cons.mp hmem with rfl | hmem
    · exact ⟨by decide, hname _ (by decide) (by decide), by decide, by decide, .inl rfl⟩
    · cases List.mem_singleton.mp hmem
      exact ⟨by decide, hid, by decide, by decide, .inr rfl⟩
  · rintro attr ⟨⟩
    decide

theorem start_tag_read_link :
    ∃ reading seen, feedChunks (fun _ => [true]) [linkTag.render.take 9, [], linkTag.render.drop 9]
        ⟨new [] 64 8, []⟩ = (.ok (), reading) ∧
      reading.seen = [seen] ∧ seen.event = .startTag linkTag.empty ∧
      seen.name = linkTag.name.localPart ∧
      ∀ name prefixed, seen.attributeValue name prefixed = .ok (linkTag.lookup name prefixed) :=
  start_tag_read (new_ready [] 64 8) linkTag_legal (by decide +kernel) _ (by decide +kernel)

end XmlTokenizer

end LeanRows.Xlsx
