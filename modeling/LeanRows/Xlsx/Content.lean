import LeanRows.Xlsx.Text

/-!
# Content without child elements

The grammar of XML for the content of an element, less the elements, and the text of such a
content. The tokenizer collects this text unless a CDATA section ends in a carriage return
and a line feed follows the section: it then takes the two for one line end.
-/

namespace LeanRows.Xlsx

set_option autoImplicit false

/-- What stands between two pieces of character data. -/
inductive Markup where
  | reference (body : List Byte)
  | cdata (bytes : List Byte)
  | comment (bytes : List Byte)
  | instruction (bytes : List Byte)

/-- Character data, and then pieces of markup each with the character data behind it. -/
structure Content where
  first : List Byte
  rest : List (Markup × List Byte)

namespace Markup

open XmlTokenizer

def render : Markup → List Byte
  | reference body => byteOf '&' :: (body ++ [byteOf ';'])
  | cdata bytes => byteOf '<' :: byteOf '!' :: (cdataOpen ++ (bytes ++ cdataClose))
  | comment bytes => byteOf '<' :: byteOf '!' :: (dashes ++ (bytes ++ bytesOf ['-', '-', '>']))
  | instruction bytes => byteOf '<' :: byteOf '?' :: (bytes ++ bytesOf ['?', '>'])

/-- No piece ends in front of its end. -/
def WellFormed : Markup → Prop
  | reference body => byteOf ';' ∉ body
  | cdata bytes => ¬ cdataClose <:+: bytes
  | comment bytes => ¬ dashes <:+: bytes ∧ bytes.getLast? ≠ some (byteOf '-')
  | instruction bytes => ¬ bytesOf ['?', '>'] <:+: bytes

instance : (markup : Markup) → Decidable markup.WellFormed
  | reference body => inferInstanceAs (Decidable (byteOf ';' ∉ body))
  | cdata bytes => inferInstanceAs (Decidable (¬ cdataClose <:+: bytes))
  | comment bytes =>
    inferInstanceAs (Decidable (¬ dashes <:+: bytes ∧ bytes.getLast? ≠ some (byteOf '-')))
  | instruction bytes => inferInstanceAs (Decidable (¬ bytesOf ['?', '>'] <:+: bytes))

def text : Markup → List Byte
  | reference body => (denoted body).elim [] String.utf8EncodeChar
  | cdata bytes => lineEnds bytes
  | comment _ | instruction _ => []

def endsInCr : Markup → Bool
  | cdata bytes => bytes.getLast? == some cr
  | _ => false

end Markup

namespace Content

open XmlTokenizer

def render (content : Content) : List Byte :=
  content.first ++ content.rest.flatMap fun (markup, after) => markup.render ++ after

structure WellFormed (content : Content) : Prop where
  first : Plain content.first
  rest : ∀ markup after, (markup, after) ∈ content.rest → markup.WellFormed ∧ Plain after

/-- The text of an element with this content. -/
def text (content : Content) : List Byte :=
  lineEnds content.first ++ content.rest.flatMap fun (markup, after) =>
    markup.text ++ lineEnds after

/-- No CDATA section that ends in a carriage return has a line feed behind it. -/
def Separate (content : Content) : Prop :=
  ∀ markup after, (markup, after) ∈ content.rest → markup.endsInCr = true →
    after.head? ≠ some lf

/-- What is collected: a line feed behind a carriage return is lost, whatever stands between
the two. -/
def collected (content : Content) : List Byte :=
  lineEnds content.first ++ content.rest.flatMap fun (markup, after) =>
    markup.text ++ lineEnds (if markup.endsInCr then afterCr after else after)

end Content

theorem lineEnds_length_afterCr (bytes : List Byte) :
    (lineEnds (afterCr bytes)).length ≤ (lineEnds bytes).length ∧
      (lineEnds (afterCr bytes) = lineEnds bytes ↔ bytes.head? ≠ some lf) := by
  by_cases h : bytes.head? = some lf
  · obtain ⟨bytes, rfl⟩ := List.head?_eq_some_iff.mp h
    rw [afterCr, if_pos h, List.tail_cons, lineEnds_cons lf_ne_cr, List.length_cons]
    refine ⟨by omega, fun heq => ?_, fun hne => absurd h hne⟩
    have hlength := congrArg List.length heq
    rw [List.length_cons] at hlength
    omega
  · rw [afterCr, if_neg h]
    exact ⟨Nat.le_refl _, fun _ => h, fun _ => rfl⟩

namespace Content

theorem collected_length (content : Content) : content.collected.length ≤ content.text.length := by
  rw [collected, text, List.length_append, List.length_append, List.length_flatMap,
    List.length_flatMap]
  refine Nat.add_le_add_left (List.sum_le_sum fun piece _ => ?_) _
  rw [List.length_append, List.length_append]
  refine Nat.add_le_add_left ?_ _
  split_ifs
  · exact (lineEnds_length_afterCr piece.2).1
  · exact Nat.le_refl _

/-- Nothing is lost only where nothing can be lost. -/
theorem collected_eq_iff (content : Content) :
    content.collected = content.text ↔ content.Separate := by
  obtain ⟨first, rest⟩ := content
  simp only [collected, text, Separate, List.append_cancel_left_eq]
  induction rest with
  | nil => simp
  | cons piece rest ih =>
    obtain ⟨markup, after⟩ := piece
    simp only [List.flatMap_cons, List.append_assoc, List.append_cancel_left_eq,
      List.mem_cons, Prod.mk.injEq]
    have hrest := collected_length ⟨[], rest⟩
    rw [collected, text] at hrest
    simp only [lineEnds, List.nil_append] at hrest
    constructor
    · intro heq markup' after' hmem hends
      have hlengths := congrArg List.length heq
      rw [List.length_append, List.length_append] at hlengths
      have hthis : (lineEnds (if markup.endsInCr = true then afterCr after else after)).length =
          (lineEnds after).length := by
        have hle := (lineEnds_length_afterCr after).1
        split_ifs at hlengths ⊢ <;> omega
      obtain ⟨hhead, htail⟩ := List.append_inj heq hthis
      rcases hmem with ⟨rfl, rfl⟩ | hmem
      · rw [if_pos hends] at hhead
        exact (lineEnds_length_afterCr after').2.mp hhead
      · exact ih.mp htail markup' after' hmem hends
    · intro h
      have htail := ih.mpr fun markup' after' hmem => h markup' after' (.inr hmem)
      rw [htail]
      congr 1
      by_cases hends : markup.endsInCr = true
      · rw [if_pos hends]
        exact (lineEnds_length_afterCr after).2.mpr (h markup after (.inl ⟨rfl, rfl⟩) hends)
      · rw [if_neg hends]

end Content

namespace XmlTokenizer

section Content
variable {limit : Nat} {full : List Byte} {pending : Bool} {xml xml' : XmlTokenizer}

theorem walk_step {byte : Byte} {event : Option XmlEvent} {mid : XmlTokenizer}
    (h : feedByte byte xml = (.ok event, mid)) (more : List Byte) :
    walk (byte :: more) xml = walk more mid := by
  simp [walk, Bind.bind, h]

theorem bang_walk {more : List Byte} (hstate : xml.state = .tagOpen) :
    walk (byteOf '!' :: more) xml = walk more { xml with instruction := [], state := .bang } := by
  have hslash : byteOf '!' ≠ byteOf '/' := by decide
  have hstep : feedByte (byteOf '!') xml =
      (.ok none, { xml with instruction := [], state := .bang }) := by
    simp only [feedByte, hstate, tagOpenByte]
    rw [if_neg hslash, if_true]
    rfl
  exact walk_step hstep more

/-- A declaration that may still become a comment or a CDATA section. -/
def BangFront (seen : List Byte) : Prop :=
  seen ≠ dashes ∧ seen ≠ cdataOpen ∧ eqIgnoreAsciiCase seen doctypeOpen = false ∧
    seen.isPrefixOf cdataOpen = true ∧ seen.length ≤ maxBangBytes

instance (seen : List Byte) : Decidable (BangFront seen) := inferInstanceAs (Decidable (_ ∧ _))

theorem bang_more {front : List Byte} {byte : Byte} (h : BangFront (front ++ [byte])) :
    feedByte byte { xml with instruction := front, state := .bang } =
      (.ok none, { xml with instruction := front ++ [byte], state := .bang }) := by
  obtain ⟨hdashes, hcdata, hdoctype, hfront, hshort⟩ := h
  simp only [feedByte, bangByte]
  rw [if_neg hdashes, if_neg hcdata, hdoctype, hfront, if_neg (by simp), if_neg]
  simpa using hshort

theorem cdataOpen_walk (more : List Byte) :
    walk (cdataOpen ++ more) { xml with instruction := [], state := .bang } =
      walk more { xml with instruction := cdataOpen, state := .cdata 0 } := by
  have hopen : cdataOpen ++ more = byteOf '[' :: byteOf 'C' :: byteOf 'D' :: byteOf 'A' ::
      byteOf 'T' :: byteOf 'A' :: byteOf '[' :: more := rfl
  have hlast : feedByte (byteOf '[')
      { xml with instruction := bytesOf ['[', 'C', 'D', 'A', 'T', 'A'], state := .bang } =
        (.ok none, { xml with instruction := cdataOpen, state := .cdata 0 }) := by
    have hseen : bytesOf ['[', 'C', 'D', 'A', 'T', 'A'] ++ [byteOf '['] = cdataOpen := rfl
    have hdashes : cdataOpen ≠ dashes := by decide
    simp only [feedByte, bangByte]
    rw [hseen, if_neg hdashes, if_pos rfl]
  rw [hopen, walk_step (bang_more (by decide)), walk_step (bang_more (by decide)),
    walk_step (bang_more (by decide)), walk_step (bang_more (by decide)),
    walk_step (bang_more (by decide)), walk_step (bang_more (by decide))]
  exact walk_step hlast more

theorem commentOpen_walk (more : List Byte) :
    walk (dashes ++ more) { xml with instruction := [], state := .bang } =
      walk more { xml with instruction := dashes, state := .comment 0 } := by
  have hopen : dashes ++ more = byteOf '-' :: byteOf '-' :: more := rfl
  have hfirst : feedByte (byteOf '-') { xml with instruction := [], state := .bang } =
      (.ok none, { xml with instruction := [byteOf '-'], state := .bang }) := by
    have hseen : [] ++ [byteOf '-'] = [byteOf '-'] := rfl
    have hdashes : [byteOf '-'] ≠ dashes := by decide
    have hcdata : [byteOf '-'] ≠ cdataOpen := by decide
    have hdoctype : eqIgnoreAsciiCase [byteOf '-'] doctypeOpen = false := by decide
    have hfront : [byteOf '-'].isPrefixOf dashes = true := by decide
    simp only [feedByte, bangByte]
    rw [hseen, if_neg hdashes, if_neg hcdata, hdoctype, hfront, if_neg (by simp),
      if_neg (by simp [maxBangBytes])]
  have hlast : feedByte (byteOf '-') { xml with instruction := [byteOf '-'], state := .bang } =
      (.ok none, { xml with instruction := dashes, state := .comment 0 }) := by
    have hseen : [byteOf '-'] ++ [byteOf '-'] = dashes := rfl
    simp only [feedByte, bangByte]
    rw [hseen, if_pos rfl]
  rw [hopen, walk_step hfirst]
  exact walk_step hlast more

theorem InText.comment {bytes : List Byte} (h : InText limit full pending xml)
    (hbytes : ¬ dashes <:+: bytes) (hlast : bytes.getLast? ≠ some (byteOf '-'))
    (hwalk : walk (Markup.comment bytes).render xml = (.ok (), xml')) :
    InText limit (full ++ heldCr pending) false xml' := by
  obtain ⟨mid, hkept, hstate, -, hlimit, hrest⟩ := h.opens hwalk
  rw [bang_walk hstate, commentOpen_walk] at hrest
  obtain ⟨inside, hinside, hclose⟩ := walk_append hrest
  have hcomment : ({ mid with instruction := dashes, state := .comment 0 } : XmlTokenizer).state =
      .comment 0 := rfl
  rw [comment_walk hcomment (.inl rfl) hbytes hlast] at hinside
  cases hinside
  cases hclose
  exact ⟨⟨hkept.collect, hkept.text, hkept.total, hkept.truncated, hkept.pending⟩, rfl, hlimit⟩

theorem InText.instruction {bytes : List Byte} (h : InText limit full pending xml)
    (hbytes : ¬ bytesOf ['?', '>'] <:+: bytes)
    (hwalk : walk (Markup.instruction bytes).render xml = (.ok (), xml')) :
    InText limit (full ++ heldCr pending) false xml' := by
  obtain ⟨mid, hkept, hstate, -, hlimit, hrest⟩ := h.opens hwalk
  have hstep : feedByte (byteOf '?') mid =
      (.ok none, { mid with instruction := [], state := .instruction false }) := by
    have hslash : byteOf '?' ≠ byteOf '/' := by decide
    have hbang : byteOf '?' ≠ byteOf '!' := by decide
    simp only [feedByte, hstate, tagOpenByte]
    rw [if_neg hslash, if_neg hbang, if_true]
    rfl
  rw [walk_step hstep] at hrest
  obtain ⟨inside, hinside, hclose⟩ := walk_append hrest
  have hinstruction : ({ mid with instruction := [], state := .instruction false } :
      XmlTokenizer).state = .instruction false := rfl
  obtain ⟨seen, question, hbytes'⟩ :=
    instruction_walk hinstruction rfl (fun hquestion => by cases hquestion) hbytes
  rw [hbytes'] at hinside
  cases hinside
  obtain ⟨event, asked, hask, hclose⟩ := walk_cons hclose
  obtain ⟨event', last, hlast, hend⟩ := walk_cons hclose
  cases hend
  have hasked : ∃ seen', asked = { mid with instruction := seen', state := .instruction true } := by
    have hgt : ¬ (question = true ∧ byteOf '?' = byteOf '>') := fun h => by
      have hne : byteOf '?' ≠ byteOf '>' := by decide
      exact hne h.2
    simp only [feedByte, instructionByte] at hask
    rw [if_neg hgt, if_true] at hask
    cases hask
    unfold pushInstruction
    split_ifs
    · exact ⟨_, rfl⟩
    · exact ⟨_, rfl⟩
    · exact ⟨_, rfl⟩
  obtain ⟨seen', rfl⟩ := hasked
  simp only [feedByte, instructionByte, and_self, if_true] at hlast
  rcases hchecked : checkDeclaration
      { mid with instruction := seen', state := .instruction true } with error | u
  · rw [hchecked] at hlast
    cases hlast
  · rw [hchecked] at hlast
    cases hlast
    exact ⟨⟨hkept.collect, hkept.text, hkept.total, hkept.truncated, hkept.pending⟩, rfl, hlimit⟩

theorem cdata_bracket {count : Nat} (hstate : xml.state = .cdata count) (hcount : count < 2) :
    feedByte bracket xml = (.ok none, { xml with state := .cdata (count + 1) }) := by
  have hgt : ¬ (bracket = byteOf '>' ∧ 2 ≤ count) := fun h => by omega
  have hsame : bracket = byteOf ']' := rfl
  simp only [feedByte, hstate, cdataByte, update]
  rw [if_neg hgt, if_pos hsame, if_neg (by omega)]

theorem cdata_bracket_held (hstate : xml.state = .cdata 2) :
    feedByte bracket xml = (.ok none, pushRawText bracket xml) := by
  have hgt : ¬ (bracket = byteOf '>' ∧ 2 ≤ 2) := fun h => by
    have hne : bracket ≠ byteOf '>' := by decide
    exact hne h.1
  have hsame : bracket = byteOf ']' := rfl
  simp only [feedByte, hstate, cdataByte, update]
  rw [if_neg hgt, if_pos hsame, if_pos (Nat.le_refl _), ← hsame]

theorem cdata_gt (hstate : xml.state = .cdata 2) :
    feedByte (byteOf '>') xml = (.ok none, { xml with state := .text }) := by
  simp only [feedByte, hstate, cdataByte, update, and_self, Nat.le_refl, if_true]

/-- At the end of a section the brackets that were held back, and are none of the end, go. -/
theorem cdataClose_walk {held : Nat} (hstate : xml.state = .cdata held) (hheld : held ≤ 2)
    (h : Kept full pending xml) :
    ∃ mid, walk cdataClose xml = (.ok (), mid) ∧ mid.state = .text ∧
      mid.textLimit = xml.textLimit ∧
      Kept (full ++ (raw pending (List.replicate held bracket)).1)
        (raw pending (List.replicate held bracket)).2 mid := by
  have hclose : cdataClose = [bracket, bracket, byteOf '>'] := rfl
  rw [hclose]
  rcases held with _ | _ | _ | held
  · refine ⟨{ xml with state := .text }, ?_, rfl, rfl, ?_⟩
    · rw [walk_step (cdata_bracket hstate (by omega)), walk_step (cdata_bracket rfl (by omega)),
        walk_step (cdata_gt rfl)]
      rfl
    · simpa [raw] using
        (⟨h.collect, h.text, h.total, h.truncated, h.pending⟩ :
          Kept full pending { xml with state := .text })
  · have hstate' : ({ xml with state := .cdata 2 } : XmlTokenizer).state = .cdata 2 := rfl
    have hkept : Kept full pending { xml with state := .cdata 2 } :=
      ⟨h.collect, h.text, h.total, h.truncated, h.pending⟩
    have hpushed := hkept.pushRawText bracket
    refine ⟨{ pushRawText bracket { xml with state := .cdata 2 } with state := .text }, ?_, rfl, ?_,
      ⟨hpushed.collect, hpushed.text, hpushed.total, hpushed.truncated, hpushed.pending⟩⟩
    · rw [walk_step (cdata_bracket hstate (by omega)), walk_step (cdata_bracket_held hstate'),
        walk_step (cdata_gt (by simp))]
      rfl
    · simp
  · have hpushed := (h.pushRawText bracket).pushRawText bracket
    have happend := raw_append pending [bracket] [bracket]
    rw [List.singleton_append] at happend
    have htwo : List.replicate (0 + 1 + 1) bracket = [bracket, bracket] := rfl
    rw [htwo, happend, ← List.append_assoc]
    refine ⟨{ pushRawText bracket (pushRawText bracket xml) with state := .text }, ?_, rfl, ?_,
      ⟨hpushed.collect, hpushed.text, hpushed.total, hpushed.truncated, hpushed.pending⟩⟩
    · rw [walk_step (cdata_bracket_held hstate),
        walk_step (cdata_bracket_held (by simpa using hstate)),
        walk_step (cdata_gt (by simpa using hstate))]
      rfl
    · simp
  · omega

theorem InText.cdata {bytes : List Byte} (h : InText limit full pending xml)
    (hbytes : ¬ cdataClose <:+: bytes)
    (hwalk : walk (Markup.cdata bytes).render xml = (.ok (), xml')) :
    InText limit (full ++ heldCr pending ++ (raw false bytes).1) (raw false bytes).2 xml' := by
  obtain ⟨mid, hkept, hstate, -, hlimit, hrest⟩ := h.opens hwalk
  rw [bang_walk hstate, cdataOpen_walk] at hrest
  obtain ⟨done, held, inside, hheld, hsplit, hinside, hstate', hlimit', hkept'⟩ :=
    cdata_walk (show ({ mid with instruction := cdataOpen, state := .cdata 0 } :
        XmlTokenizer).state = .cdata 0 from rfl) (Nat.zero_le _) (by simpa using hbytes)
      ⟨hkept.collect, hkept.text, hkept.total, hkept.truncated, hkept.pending⟩
  obtain ⟨last, hlast, hend, hlimit'', hkept''⟩ := cdataClose_walk hstate' hheld hkept'
  obtain ⟨inside', hinside', hclose⟩ := walk_append hrest
  rw [hinside] at hinside'
  cases hinside'
  rw [hlast] at hclose
  cases hclose
  have hdone : bytes = done ++ List.replicate held bracket := by simpa using hsplit
  refine ⟨?_, hend, hlimit''.trans (hlimit'.trans hlimit)⟩
  rw [hdone, raw_append, ← List.append_assoc]
  exact hkept''

/-- A piece of markup adds its text. Only a section may leave a carriage return held back. -/
theorem InText.markup {markup : Markup} (h : InText limit full pending xml)
    (hmarkup : markup.WellFormed) (hwalk : walk markup.render xml = (.ok (), xml')) :
    ∃ added, InText limit (full ++ heldCr pending ++ added) markup.endsInCr xml' ∧
      added ++ heldCr markup.endsInCr = markup.text := by
  cases markup with
  | reference body =>
    obtain ⟨decoded, hdecoded, hend⟩ := h.reference hmarkup hwalk
    obtain ⟨character, hdenoted, rfl⟩ := decodeEntity_denoted hdecoded
    refine ⟨_, hend, ?_⟩
    simp [Markup.endsInCr, Markup.text, heldCr, hdenoted]
  | cdata bytes =>
    have hends : (raw false bytes).2 = (Markup.cdata bytes).endsInCr := by
      rw [raw_snd, Markup.endsInCr]
      rcases bytes.getLast? with _ | last <;> rfl
    have hend := h.cdata hmarkup hwalk
    rw [hends] at hend
    refine ⟨_, hend, ?_⟩
    rw [← hends, raw_lineEnds]
    rfl
  | comment bytes =>
    refine ⟨[], ?_, rfl⟩
    rw [List.append_nil]
    exact h.comment hmarkup.1 hmarkup.2 hwalk
  | instruction bytes =>
    refine ⟨[], ?_, rfl⟩
    rw [List.append_nil]
    exact h.instruction hmarkup hwalk

/-- Held back or not, what comes out in the end of the content is what is collected of it. -/
theorem InText.rest {rest : List (Markup × List Byte)} (h : InText limit full pending xml)
    (hrest : ∀ markup after, (markup, after) ∈ rest → markup.WellFormed ∧ Plain after)
    (hwalk : walk (rest.flatMap fun (markup, after) => markup.render ++ after) xml =
      (.ok (), xml')) :
    ∃ full' pending', InText limit full' pending' xml' ∧
      full' ++ heldCr pending' = full ++ heldCr pending ++ rest.flatMap fun (markup, after) =>
        markup.text ++ lineEnds (if markup.endsInCr then afterCr after else after) := by
  induction rest generalizing full pending xml with
  | nil =>
    cases hwalk
    exact ⟨full, pending, h, by simp⟩
  | cons piece rest ih =>
    obtain ⟨markup, after⟩ := piece
    rw [List.flatMap_cons, List.append_assoc] at hwalk
    obtain ⟨mid, hmarkup, hmore⟩ := walk_append hwalk
    obtain ⟨mid', hafter, hmore⟩ := walk_append hmore
    obtain ⟨hformed, hplain⟩ := hrest markup after (List.mem_cons_self ..)
    obtain ⟨added, hmid, hadded⟩ := h.markup hformed hmarkup
    have hmid' := hmid.chars hplain hafter
    obtain ⟨full', pending', hend, hsum⟩ :=
      ih hmid' (fun markup after hmem => hrest markup after (List.mem_cons_of_mem _ hmem)) hmore
    refine ⟨full', pending', hend, ?_⟩
    rw [hsum, List.append_assoc _ (raw _ _).1, raw_lineEnds]
    simp only [List.flatMap_cons, ← hadded, List.append_assoc]

theorem InText.content {content : Content} (hstate : xml.state = .text)
    (hcontent : content.WellFormed)
    (hwalk : walk content.render (xml.collectText true) = (.ok (), xml')) :
    ∃ full pending, InText xml.textLimit full pending xml' ∧
      full ++ heldCr pending = content.collected := by
  obtain ⟨mid, hfirst, hrest⟩ := walk_append hwalk
  have hstart : InText xml.textLimit [] false (xml.collectText true) :=
    ⟨collectText_kept, hstate, rfl⟩
  obtain ⟨full, pending, hend, hsum⟩ :=
    (hstart.chars hcontent.first hfirst).rest hcontent.rest hrest
  refine ⟨full, pending, hend, ?_⟩
  rw [hsum, List.nil_append, raw_lineEnds]
  rfl

/-! ### The end tag -/

def endTag (name : List Byte) : List Byte := byteOf '<' :: byteOf '/' :: (name ++ [byteOf '>'])

/-- The bytes of a name neither end a tag nor start a quote. -/
def TagName (name : List Byte) : Prop :=
  ∀ byte ∈ name, byte ≠ byteOf '>' ∧ byte ≠ byteOf '"' ∧ byte ≠ byteOf '\'' ∧ byte ≠ byteOf '<'

instance (name : List Byte) : Decidable (TagName name) := List.decidableBAll _ name

theorem tagByte_plain {byte : Byte} (ends : Bool) (hgt : byte ≠ byteOf '>')
    (hquot : byte ≠ byteOf '"') (hapos : byte ≠ byteOf '\'') (hlt : byte ≠ byteOf '<') :
    tagByte ends 0 byte = pushTag byte := by
  have hquote : ¬ (byte = byteOf '"' ∨ byte = byteOf '\'') := by
    rintro (h | h)
    · exact hquot h
    · exact hapos h
  have hzero : ¬ ((0 : Byte) ≠ 0) := fun h => h rfl
  calc tagByte ends 0 byte = _ := if_neg hzero
    _ = _ := if_neg hgt
    _ = _ := if_neg hquote
    _ = pushTag byte := if_neg hlt

theorem tagByte_gt (ends : Bool) : tagByte ends 0 (byteOf '>') = fun xml =>
    (.ok (some (if ends then .endTag else .startTag (xml.tag.getLast? == some (byteOf '/')))),
      { xml with state := .text }) := by
  have hzero : ¬ ((0 : Byte) ≠ 0) := fun h => h rfl
  exact (if_neg hzero).trans (if_pos rfl)

theorem tagName_walk {name : List Byte} {ends : Bool} (hstate : xml.state = .tag ends 0)
    (hname : TagName name) (hwalk : walk name xml = (.ok (), xml')) :
    xml' = { xml with tag := xml.tag ++ name } := by
  induction name generalizing xml with
  | nil =>
    cases hwalk
    simp
  | cons byte name ih =>
    obtain ⟨event, mid, hbyte, hrest⟩ := walk_cons hwalk
    obtain ⟨hgt, hquot, hapos, hlt⟩ := hname byte (List.mem_cons_self ..)
    simp only [feedByte, hstate, tagByte_plain ends hgt hquot hapos hlt] at hbyte
    unfold pushTag at hbyte
    by_cases hfull : xml.maxTagBytes ≤ xml.tag.length
    · rw [if_pos hfull] at hbyte
      cases hbyte
    · rw [if_neg hfull] at hbyte
      cases hbyte
      have hnext : ({ xml with tag := xml.tag ++ [byte] } : XmlTokenizer).state = .tag ends 0 :=
        hstate
      rw [ih hnext (fun byte hmem => hname byte (List.mem_cons_of_mem _ hmem)) hrest]
      simp

/-- The caller that only looks on. -/
def lookOn : Caller := fun _ => []

theorem readBytes_walk {bytes : List Byte} {reading reading' : Reading}
    (h : readBytes lookOn bytes reading = (.ok (), reading')) :
    walk bytes reading.xml = (.ok (), reading'.xml) := by
  induction bytes generalizing reading with
  | nil =>
    cases h
    rfl
  | cons byte bytes ih =>
    simp only [readBytes, readByte, Bind.bind] at h
    rcases hbyte : feedByte byte reading.xml with ⟨error | event, xml⟩
    · rw [hbyte] at h
      cases h
    · rw [hbyte] at h
      rw [walk_step hbyte]
      have hrest := ih h
      cases event with
      | none => exact hrest
      | some event => exact hrest

/-- The event of an end tag shows the text up to the tag, which the limit may cut. -/
theorem InText.ends {name : List Byte} {reading reading' : Reading}
    (h : InText limit full pending reading.xml) (hname : TagName name)
    (hread : readBytes lookOn (endTag name) reading = (.ok (), reading')) :
    ∃ seen, reading'.seen.getLast? = some seen ∧ seen.event = .endTag ∧
      seen.text = (full ++ heldCr pending).take limit := by
  have hsplit : endTag name = (byteOf '<' :: byteOf '/' :: name) ++ [byteOf '>'] := rfl
  rw [hsplit, readBytes_append] at hread
  obtain ⟨u, opened, hopen, hread⟩ := Exec.ok_of_bind hread
  obtain ⟨mid, hkept, hstate, -, hlimit, hrest⟩ := h.opens (readBytes_walk hopen)
  have hslash : feedByte (byteOf '/') mid =
      (.ok none, { mid with tag := mid.tag ++ [byteOf '/'], state := .tag true 0 }) := by
    simp only [feedByte, hstate, tagOpenByte]
    rw [if_true]
    rfl
  rw [walk_step hslash] at hrest
  have hopened := tagName_walk (show ({ mid with
    tag := mid.tag ++ [byteOf '/'], state := .tag true 0 } : XmlTokenizer).state = .tag true 0
      from rfl) hname hrest
  have hgt : feedByte (byteOf '>') opened.xml =
      (.ok (some .endTag), { opened.xml with state := .text }) := by
    rw [hopened]
    simp only [feedByte, tagByte_gt]
    rfl
  simp only [readBytes, readByte, Bind.bind, hgt, Pure.pure] at hread
  cases hread
  refine ⟨_, List.getLast?_concat .., rfl, ?_⟩
  show opened.xml.text = _
  rw [hopened, ← hlimit]
  exact hkept.text

end Content

/-- The text that is collected is that of the element unless a line end is lost behind a
section. -/
theorem text_collected {xml : XmlTokenizer} (hstate : xml.state = .text) (content : Content)
    (hcontent : content.WellFormed) (hlimit : content.text.length ≤ xml.textLimit)
    {name : List Byte} (hname : TagName name) {chunks : List (List Byte)}
    (hchunks : chunks.flatten = content.render ++ endTag name) {reading : Reading}
    (hrun : feedChunks lookOn chunks ⟨xml.collectText true, []⟩ = (.ok (), reading)) :
    ∃ seen, reading.seen.getLast? = some seen ∧ seen.event = .endTag ∧
      (seen.text = content.text ↔ content.Separate) := by
  rw [feedChunks_eq, hchunks] at hrun
  obtain ⟨u, last, hbytes, hfinish⟩ := Exec.ok_of_bind hrun
  obtain rfl : last = reading := congrArg Prod.snd hfinish
  rw [readBytes_append] at hbytes
  obtain ⟨u, mid, hread, hend⟩ := Exec.ok_of_bind hbytes
  obtain ⟨full, pending, hmid, hfull⟩ := InText.content hstate hcontent (readBytes_walk hread)
  obtain ⟨seen, hseen, hevent, htext⟩ := hmid.ends hname hend
  refine ⟨seen, hseen, hevent, ?_⟩
  rw [htext, hfull, List.take_of_length_le (le_trans content.collected_length hlimit)]
  exact content.collected_eq_iff

/-- `a`, a section with a carriage return in it, and a reference behind the section. -/
def sectionMiddle : Content :=
  ⟨bytesOf ['a'], [(.cdata [cr], []), (.reference (bytesOf ['l', 't']), [])]⟩

def inElement : XmlTokenizer := { new [] 64 8 with state := .text }

theorem text_collected_middle : ∃ reading : Reading,
    feedChunks lookOn [sectionMiddle.render ++ endTag (bytesOf ['t'])]
      ⟨inElement.collectText true, []⟩ = (.ok (), reading) ∧
    ∃ seen, reading.seen.getLast? = some seen ∧ seen.event = .endTag ∧
      (seen.text = sectionMiddle.text ↔ sectionMiddle.Separate) := by
  have hcontent : sectionMiddle.WellFormed := by
    refine ⟨by decide, ?_⟩
    intro markup after hmem
    rcases List.mem_cons.mp hmem with h | hmem
    · cases h
      exact ⟨by decide, by decide⟩
    · cases List.mem_singleton.mp hmem
      exact ⟨by decide, by decide⟩
  have hlimit : sectionMiddle.text.length ≤ inElement.textLimit := by decide +kernel
  have hstate : inElement.state = .text := rfl
  have hname : TagName (bytesOf ['t']) := by decide
  have hok : (feedChunks lookOn [sectionMiddle.render ++ endTag (bytesOf ['t'])]
      ⟨inElement.collectText true, []⟩).1 = .ok () := by decide +kernel
  rcases hrun : feedChunks lookOn [sectionMiddle.render ++ endTag (bytesOf ['t'])]
    ⟨inElement.collectText true, []⟩ with ⟨result, reading⟩
  rw [hrun] at hok
  obtain rfl : result = .ok () := hok
  exact ⟨reading, rfl,
    text_collected hstate sectionMiddle hcontent hlimit hname List.flatten_singleton hrun⟩

def sectionEnd : Content := ⟨[], [(.cdata [cr], [lf])]⟩

/-- A section that ends in a carriage return, and a line feed behind it. -/
theorem line_end_lost : sectionEnd.WellFormed ∧
    (feedChunks lookOn [sectionEnd.render ++ endTag (bytesOf ['t'])]
      ⟨inElement.collectText true, []⟩).1 = .ok () ∧
    ((feedChunks lookOn [sectionEnd.render ++ endTag (bytesOf ['t'])]
      ⟨inElement.collectText true, []⟩).2.seen.getLast?.map fun seen => seen.text) = some [lf] ∧
    sectionEnd.text = [lf, lf] := by
  refine ⟨⟨by decide, ?_⟩, by decide +kernel, by decide +kernel, by decide⟩
  intro markup after hmem
  cases List.mem_singleton.mp hmem
  exact ⟨by decide, by decide⟩

end XmlTokenizer

end LeanRows.Xlsx
