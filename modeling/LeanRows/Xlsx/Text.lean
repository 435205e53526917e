import LeanRows.Lib.ExecState
import LeanRows.Xlsx.Xml

/-!
# The text of an element

What the tokenizer collects between a start tag and its end tag is compared with what XML
says the character data of the element is. A held back carriage return makes the two differ
in one place: behind a CDATA section.
-/

namespace LeanRows.Xlsx

set_option autoImplicit false

/-! ## Line ends -/

/-- What stands behind a carriage return, without the line feed that belongs to it. -/
def afterCr (bytes : List Byte) : List Byte := if bytes.head? = some lf then bytes.tail else bytes

/-- Every line end of a literal piece of input as one line feed. -/
def lineEnds : List Byte → List Byte
  | [] => []
  | [byte] => if byte = cr then [lf] else [byte]
  | byte :: next :: bytes =>
    if byte = cr then
      if next = lf then lf :: lineEnds bytes else lf :: lineEnds (next :: bytes)
    else byte :: lineEnds (next :: bytes)

theorem lineEnds_cr (bytes : List Byte) :
    lineEnds (cr :: bytes) = lf :: lineEnds (afterCr bytes) := by
  rcases bytes with _ | ⟨next, bytes⟩
  · rfl
  · by_cases h : next = lf
    · simp [lineEnds, afterCr, h]
    · simp [lineEnds, afterCr, h]

theorem lineEnds_cons {byte : Byte} (h : byte ≠ cr) (bytes : List Byte) :
    lineEnds (byte :: bytes) = byte :: lineEnds bytes := by
  rcases bytes with _ | ⟨next, bytes⟩
  · simp [lineEnds, h]
  · simp [lineEnds, h]

theorem lf_ne_cr : lf ≠ cr := by decide

theorem lf_beq_cr : (lf == cr) = false := by decide

/-- The line feed of a carriage return that is held back. -/
def heldCr (pending : Bool) : List Byte := if pending then [lf] else []

/-- What pushing literal bytes adds to the text, and whether a carriage return stays held. -/
def raw : Bool → List Byte → List Byte × Bool
  | pending, [] => ([], pending)
  | pending, byte :: bytes =>
    (heldCr pending ++ (if byte = cr ∨ pending ∧ byte = lf then [] else [byte]) ++
      (raw (byte == cr) bytes).1, (raw (byte == cr) bytes).2)

theorem raw_append (pending : Bool) (bytes more : List Byte) :
    raw pending (bytes ++ more) = ((raw pending bytes).1 ++ (raw (raw pending bytes).2 more).1,
      (raw (raw pending bytes).2 more).2) := by
  induction bytes generalizing pending with
  | nil => simp [raw]
  | cons byte bytes ih => simp [raw, ih]

theorem raw_lineEnds (pending : Bool) (bytes : List Byte) :
    (raw pending bytes).1 ++ heldCr (raw pending bytes).2 =
      heldCr pending ++ lineEnds (if pending then afterCr bytes else bytes) := by
  induction bytes generalizing pending with
  | nil => cases pending <;> rfl
  | cons byte bytes ih =>
    have hrest := ih (byte == cr)
    simp only [raw, List.append_assoc, hrest]
    congr 1
    by_cases hcr : byte = cr
    · subst hcr
      cases pending <;> simp [heldCr, lineEnds_cr, afterCr, lf_ne_cr.symm]
    · by_cases hlf : byte = lf
      · subst hlf
        cases pending <;> simp [heldCr, lineEnds_cons lf_ne_cr, afterCr, lf_ne_cr]
      · cases pending <;> simp [heldCr, lineEnds_cons hcr, afterCr, hcr, hlf]

theorem raw_snd (pending : Bool) (bytes : List Byte) :
    (raw pending bytes).2 = (bytes.getLast?.map (· == cr)).getD pending := by
  induction bytes generalizing pending with
  | nil => rfl
  | cons byte bytes ih =>
    rw [raw, ih]
    rcases bytes with _ | ⟨next, bytes⟩
    · rfl
    · rw [List.getLast?_cons_cons]
      rcases h : (next :: bytes).getLast? with _ | last
      · simp at h
      · rfl

namespace XmlTokenizer

/-! ## Pushed bytes -/

/-- The text is the front that the limit leaves of all that was pushed. -/
structure Kept (full : List Byte) (pending : Bool) (xml : XmlTokenizer) : Prop where
  collect : xml.collect = true
  text : xml.text = full.take xml.textLimit
  total : xml.textTotal = full.length
  truncated : xml.textTruncated = decide (xml.textLimit < full.length)
  pending : xml.pendingCr = pending

section Push
variable {full : List Byte} {pending : Bool} {xml : XmlTokenizer}

@[simp] theorem pushText_state (byte : Byte) : (pushText byte xml).state = xml.state := by
  unfold pushText
  split_ifs <;> rfl

@[simp] theorem pushText_textLimit (byte : Byte) :
    (pushText byte xml).textLimit = xml.textLimit := by
  unfold pushText
  split_ifs <;> rfl

@[simp] theorem flushCr_state : xml.flushCr.state = xml.state := by
  unfold flushCr
  split_ifs <;> simp

@[simp] theorem flushCr_textLimit : xml.flushCr.textLimit = xml.textLimit := by
  unfold flushCr
  split_ifs <;> simp

@[simp] theorem pushRawText_state (byte : Byte) : (pushRawText byte xml).state = xml.state := by
  unfold pushRawText
  split_ifs <;> simp

@[simp] theorem pushRawText_textLimit (byte : Byte) :
    (pushRawText byte xml).textLimit = xml.textLimit := by
  unfold pushRawText
  split_ifs <;> simp

theorem Kept.pushText (h : Kept full pending xml) (byte : Byte) :
    Kept (full ++ [byte]) pending (pushText byte xml) := by
  have hlength : xml.text.length = min xml.textLimit full.length := by
    rw [h.text, List.length_take]
  unfold XmlTokenizer.pushText
  rw [if_neg (by simp [h.collect])]
  by_cases hroom : xml.text.length < xml.textLimit
  · rw [if_pos hroom]
    have hfull : full.length < xml.textLimit := by omega
    refine ⟨h.collect, ?_, by simp [h.total], ?_, h.pending⟩
    · show xml.text ++ [byte] = (full ++ [byte]).take xml.textLimit
      rw [h.text, List.take_of_length_le (by omega),
        List.take_of_length_le (by rw [List.length_append, List.length_singleton]; omega)]
    · show xml.textTruncated = decide (xml.textLimit < (full ++ [byte]).length)
      rw [h.truncated, List.length_append, List.length_singleton,
        decide_eq_false (by omega), decide_eq_false (by omega)]
  · rw [if_neg hroom]
    have hfull : xml.textLimit ≤ full.length := by omega
    refine ⟨h.collect, ?_, by simp [h.total], ?_, h.pending⟩
    · show xml.text = (full ++ [byte]).take xml.textLimit
      rw [h.text, List.take_append_of_le_length hfull]
    · show true = decide (xml.textLimit < (full ++ [byte]).length)
      rw [List.length_append, List.length_singleton, decide_eq_true (by omega)]

theorem Kept.foldl_pushText (h : Kept full pending xml) (bytes : List Byte) :
    Kept (full ++ bytes) pending (bytes.foldl (fun xml byte =>
    XmlTokenizer.pushText byte xml) xml) := by
  induction bytes generalizing full xml with
  | nil => simpa using h
  | cons byte bytes ih => simpa using ih (h.pushText byte)

theorem Kept.flushCr (h : Kept full pending xml) :
    Kept (full ++ heldCr pending) false xml.flushCr := by
  unfold XmlTokenizer.flushCr
  cases pending with
  | false => simpa [h.pending, heldCr] using h
  | true =>
    rw [if_pos h.pending]
    have hfree : Kept full false { xml with pendingCr := false } :=
      ⟨h.collect, h.text, h.total, h.truncated, rfl⟩
    exact hfree.pushText lf

theorem Kept.pushRawText (h : Kept full pending xml) (byte : Byte) :
    Kept (full ++ (raw pending [byte]).1) (raw pending [byte]).2
      (pushRawText byte xml) := by
  unfold XmlTokenizer.pushRawText
  rw [h.pending]
  by_cases hcr : byte = cr
  · subst hcr
    rw [if_neg (by simp [lf_ne_cr.symm]), if_pos rfl]
    simp only [raw, true_or, if_true, List.append_nil, beq_self_eq_true]
    exact ⟨h.flushCr.collect, h.flushCr.text, h.flushCr.total, h.flushCr.truncated, rfl⟩
  · have hbyte : (byte == cr) = false := by simpa using hcr
    by_cases hlf : pending = true ∧ byte = lf
    · obtain ⟨rfl, rfl⟩ := hlf
      simpa [raw, lf_ne_cr, lf_beq_cr] using h.flushCr
    · rw [if_neg (by simpa using hlf), if_neg hcr]
      simpa [raw, hcr, hlf, hbyte] using h.flushCr.pushText byte

theorem Kept.foldl_pushRawText (h : Kept full pending xml) (bytes : List Byte) :
    Kept (full ++ (raw pending bytes).1) (raw pending bytes).2
      (bytes.foldl (fun xml byte => XmlTokenizer.pushRawText byte xml) xml) := by
  induction bytes generalizing full pending xml with
  | nil => simpa [raw] using h
  | cons byte bytes ih =>
    have hnext := ih (h.pushRawText byte)
    rw [List.append_assoc] at hnext
    have happend := raw_append pending [byte] bytes
    rw [List.singleton_append] at happend
    rw [happend]
    exact hnext

@[simp] theorem foldl_pushRawText_textLimit (bytes : List Byte) :
    (bytes.foldl (fun xml byte => XmlTokenizer.pushRawText byte xml) xml).textLimit =
      xml.textLimit := by
  induction bytes generalizing xml with
  | nil => rfl
  | cons byte bytes ih => rw [List.foldl_cons, ih, pushRawText_textLimit]

@[simp] theorem foldl_pushText_textLimit (bytes : List Byte) :
    (bytes.foldl (fun xml byte => XmlTokenizer.pushText byte xml) xml).textLimit =
      xml.textLimit := by
  induction bytes generalizing xml with
  | nil => rfl
  | cons byte bytes ih => rw [List.foldl_cons, ih, pushText_textLimit]

theorem repeat_pushRawText (count : Nat) (byte : Byte) :
    Nat.repeat (pushRawText byte) count xml =
      (List.replicate count byte).foldl (fun xml byte =>
        XmlTokenizer.pushRawText byte xml) xml := by
  induction count with
  | zero => rfl
  | succ count ih =>
    rw [Nat.repeat, ih, List.replicate_succ', List.foldl_append]
    rfl

theorem collectText_kept : Kept [] false (xml.collectText true) :=
  ⟨rfl, by simp [collectText], rfl, by simp [collectText], rfl⟩

end Push

/-! ## Walks -/

/-- Bytes read one by one, whatever events they complete. -/
def walk : List Byte → XmlM Unit
  | [] => pure ()
  | byte :: bytes => do
    let _ ← feedByte byte
    walk bytes

/-- The tokenizer stands in character data. -/
structure InText (limit : Nat) (full : List Byte) (pending : Bool) (xml : XmlTokenizer) :
    Prop where
  kept : Kept full pending xml
  state : xml.state = .text
  limit : xml.textLimit = limit

section Walk
variable {limit : Nat} {full : List Byte} {pending : Bool} {xml xml' : XmlTokenizer}

theorem walk_cons {byte : Byte} {bytes : List Byte}
    (h : walk (byte :: bytes) xml = (.ok (), xml')) :
    ∃ event mid, feedByte byte xml = (.ok event, mid) ∧ walk bytes mid = (.ok (), xml') := by
  simp only [walk, Bind.bind] at h
  rcases hbyte : feedByte byte xml with ⟨error | event, mid⟩
  · rw [hbyte] at h
    cases h
  · rw [hbyte] at h
    exact ⟨event, mid, rfl, h⟩

theorem walk_append {bytes more : List Byte} (h : walk (bytes ++ more) xml = (.ok (), xml')) :
    ∃ mid, walk bytes xml = (.ok (), mid) ∧ walk more mid = (.ok (), xml') := by
  induction bytes generalizing xml with
  | nil => exact ⟨xml, rfl, h⟩
  | cons byte bytes ih =>
    obtain ⟨event, mid, hbyte, hrest⟩ := walk_cons h
    obtain ⟨mid', hbytes, hmore⟩ := ih hrest
    refine ⟨mid', ?_, hmore⟩
    simp [walk, Bind.bind, hbyte, hbytes]

theorem feedByte_text (h : xml.state = .text) (byte : Byte) :
    feedByte byte xml = textByte byte xml := by
  simp [feedByte, h]

/-- Character data ends in front of markup. -/
def Plain (bytes : List Byte) : Prop := ∀ byte ∈ bytes, byte ≠ byteOf '<' ∧ byte ≠ byteOf '&'

instance (bytes : List Byte) : Decidable (Plain bytes) := List.decidableBAll _ bytes

theorem InText.chars {bytes : List Byte} (h : InText limit full pending xml)
    (hplain : Plain bytes) (hwalk : walk bytes xml = (.ok (), xml')) :
    InText limit (full ++ (raw pending bytes).1) (raw pending bytes).2 xml' := by
  induction bytes generalizing full pending xml with
  | nil =>
    cases hwalk
    simpa [raw] using h
  | cons byte bytes ih =>
    obtain ⟨event, mid, hbyte, hrest⟩ := walk_cons hwalk
    obtain ⟨hopen, hamp⟩ := hplain byte (List.mem_cons_self ..)
    rw [feedByte_text h.state, textByte, if_neg hopen, if_neg hamp] at hbyte
    cases hbyte
    have hmid : InText limit (full ++ (raw pending [byte]).1) (raw pending [byte]).2
        (pushRawText byte xml) :=
      ⟨h.kept.pushRawText byte, by simpa using h.state, by simpa using h.limit⟩
    have hend := ih hmid (fun byte hmem => hplain byte (List.mem_cons_of_mem _ hmem)) hrest
    have happend := raw_append pending [byte] bytes
    rw [List.singleton_append] at happend
    rw [happend, ← List.append_assoc]
    exact hend

/-! ### References -/

theorem entity_walk {body : List Byte} (hstate : xml.state = .textEntity)
    (hbody : byteOf ';' ∉ body) (hwalk : walk body xml = (.ok (), xml')) :
    xml' = { xml with entity := xml.entity ++ body } := by
  induction body generalizing xml with
  | nil =>
    cases hwalk
    simp
  | cons byte body ih =>
    obtain ⟨event, mid, hbyte, hrest⟩ := walk_cons hwalk
    have hsemi : byte ≠ byteOf ';' := fun h => hbody (h ▸ List.mem_cons_self ..)
    simp only [feedByte, hstate, entityByte, if_neg hsemi] at hbyte
    by_cases hfull : maxEntityBytes ≤ xml.entity.length
    · rw [if_pos hfull] at hbyte
      cases hbyte
    rw [if_neg hfull] at hbyte
    cases hbyte
    have hnext : ({ xml with entity := xml.entity ++ [byte], state := .textEntity } :
        XmlTokenizer).state = .textEntity := rfl
    rw [ih hnext (fun hmem => hbody (List.mem_cons_of_mem _ hmem)) hrest]
    simp [hstate]

theorem InText.reference {body : List Byte} (h : InText limit full pending xml)
    (hbody : byteOf ';' ∉ body)
    (hwalk : walk (byteOf '&' :: (body ++ [byteOf ';'])) xml = (.ok (), xml')) :
    ∃ decoded, decodeEntity body = .ok decoded ∧
      InText limit (full ++ heldCr pending ++ decoded) false xml' := by
  obtain ⟨event, mid, hamp, hrest⟩ := walk_cons hwalk
  rw [feedByte_text h.state, textByte, if_neg (by decide), if_pos rfl] at hamp
  cases hamp
  obtain ⟨mid, hentity, hsemi⟩ := walk_append hrest
  have hmid := entity_walk rfl hbody hentity
  subst hmid
  obtain ⟨event, last, hbyte, hend⟩ := walk_cons hsemi
  cases hend
  simp only [feedByte, entityByte, if_pos, List.nil_append] at hbyte
  rcases hdecoded : decodeEntity body with reason | decoded
  · rw [hdecoded] at hbyte
    cases hbyte
  · rw [hdecoded] at hbyte
    cases hbyte
    have hflush := h.kept.flushCr
    have hentity : Kept (full ++ heldCr pending) false
        { xml.flushCr with entity := body, state := .textEntity } :=
      ⟨hflush.collect, hflush.text, hflush.total, hflush.truncated, hflush.pending⟩
    have hpushed := hentity.foldl_pushText decoded
    refine ⟨decoded, rfl, ⟨hpushed.collect, hpushed.text, hpushed.total, hpushed.truncated,
      hpushed.pending⟩, rfl, ?_⟩
    simpa using h.limit

/-! ### Markup without text -/

/-- A tag or other markup opens. A held back carriage return goes first. -/
theorem InText.opens {more : List Byte} (h : InText limit full pending xml)
    (hwalk : walk (byteOf '<' :: more) xml = (.ok (), xml')) :
    ∃ mid, Kept (full ++ heldCr pending) false mid ∧ mid.state = .tagOpen ∧ mid.tag = [] ∧
      mid.textLimit = limit ∧ walk more mid = (.ok (), xml') := by
  obtain ⟨event, mid, hbyte, hrest⟩ := walk_cons hwalk
  rw [feedByte_text h.state, textByte, if_pos rfl] at hbyte
  cases hbyte
  have hflush := h.kept.flushCr
  exact ⟨{ xml.flushCr with state := .tagOpen, tag := [] },
    ⟨hflush.collect, hflush.text, hflush.total, hflush.truncated, hflush.pending⟩, rfl, rfl,
    by simpa using h.limit, hrest⟩

theorem comment_walk {bytes : List Byte} {count : Nat} (hstate : xml.state = .comment count)
    (hcount : count = 0 ∨ count = 1 ∧ bytes ≠ [] ∧ bytes.head? ≠ some (byteOf '-'))
    (hbytes : ¬ dashes <:+: bytes) (hlast : bytes.getLast? ≠ some (byteOf '-')) :
    walk bytes xml = (.ok (), { xml with state := .comment 0 }) := by
  induction bytes generalizing count xml with
  | nil =>
    obtain rfl : count = 0 := by
      rcases hcount with h | ⟨-, h, -⟩
      · exact h
      · exact absurd rfl h
    simp [walk, pure, ← hstate]
  | cons byte bytes ih =>
    have hshort : count < 2 := by rcases hcount with h | ⟨h, -⟩ <;> omega
    have hrest : ¬ dashes <:+: bytes := fun h => hbytes (h.trans (List.suffix_cons ..).isInfix)
    have hend : bytes.getLast? ≠ some (byteOf '-') ∨ bytes = [] := by
      rcases bytes with _ | ⟨next, bytes⟩
      · exact .inr rfl
      · exact .inl (by rwa [List.getLast?_cons_cons] at hlast)
    by_cases hdash : byte = byteOf '-'
    · subst hdash
      have hzero : count = 0 := by
        rcases hcount with h | ⟨-, -, h⟩
        · exact h
        · exact absurd rfl h
      have hne : bytes ≠ [] := by
        rintro rfl
        exact hlast rfl
      have hhead : bytes.head? ≠ some (byteOf '-') := by
        intro hhead
        obtain ⟨bytes, rfl⟩ := List.head?_eq_some_iff.mp hhead
        exact hbytes ⟨[], bytes, rfl⟩
      have hone : ({ xml with state := .comment 1 } : XmlTokenizer).state = .comment 1 := rfl
      have hnext := ih hone (.inr ⟨rfl, hne, hhead⟩) hrest (hend.resolve_right hne)
      subst hzero
      simpa [walk, Bind.bind, feedByte, hstate, commentByte, update] using hnext
    · have hnext : walk bytes { xml with state := .comment 0 } =
          (.ok (), { xml with state := .comment 0 }) := by
        rcases hend with hend | rfl
        · exact ih rfl (.inl rfl) hrest hend
        · rfl
      have hstep : feedByte byte xml = (.ok none, { xml with state := .comment 0 }) := by
        simp only [feedByte, hstate, commentByte, update]
        rw [if_neg (by omega), if_neg hdash]
      simpa [walk, Bind.bind, hstep] using hnext

theorem instruction_walk {bytes seen : List Byte} {question : Bool}
    (hstate : xml.state = .instruction question) (hseen : xml.instruction = seen)
    (hhead : question = true → bytes.head? ≠ some (byteOf '>'))
    (hbytes : ¬ bytesOf ['?', '>'] <:+: bytes) :
    ∃ seen' question', walk bytes xml =
      (.ok (), { xml with instruction := seen', state := .instruction question' }) := by
  induction bytes generalizing question seen xml with
  | nil => exact ⟨seen, question, by simp [walk, pure, ← hstate, ← hseen]⟩
  | cons byte bytes ih =>
    have hrest : ¬ bytesOf ['?', '>'] <:+: bytes :=
      fun h => hbytes (h.trans (List.suffix_cons ..).isInfix)
    have hgo : ¬ (question = true ∧ byte = byteOf '>') := fun h => hhead h.1 (by simp [h.2])
    have hpush : ∀ (value : Byte) (xml : XmlTokenizer), ∃ seen',
        pushInstruction value xml = { xml with instruction := seen' } := by
      intro value xml
      unfold pushInstruction
      split_ifs
      · exact ⟨_, rfl⟩
      · exact ⟨xml.instruction, rfl⟩
    obtain ⟨seen₁, h₁⟩ : ∃ seen', (if question then pushInstruction (byteOf '?') xml else xml) =
        { xml with instruction := seen' } := by
      cases question
      · exact ⟨xml.instruction, rfl⟩
      · exact hpush ..
    by_cases hquestion : byte = byteOf '?'
    · have hasked : ({ xml with instruction := seen₁, state := .instruction true } :
          XmlTokenizer).state = .instruction true := rfl
      have hnext := ih hasked rfl
        (by
          intro _ hhead
          obtain ⟨bytes, rfl⟩ := List.head?_eq_some_iff.mp hhead
          exact hbytes ⟨[], bytes, by rw [hquestion]; rfl⟩) hrest
      obtain ⟨seen', question', hwalk⟩ := hnext
      refine ⟨seen', question', ?_⟩
      have hstep : feedByte byte xml =
          (.ok none, { xml with instruction := seen₁, state := .instruction true }) := by
        simp only [feedByte, hstate, instructionByte]
        rw [if_neg hgo, h₁, if_pos hquestion]
      simpa [walk, Bind.bind, hstep] using hwalk
    · obtain ⟨seen₂, h₂⟩ := hpush byte { xml with instruction := seen₁ }
      have hgoes : ({ xml with instruction := seen₂, state := .instruction false } :
          XmlTokenizer).state = .instruction false := rfl
      have hnext := ih hgoes rfl (by simp) hrest
      obtain ⟨seen', question', hwalk⟩ := hnext
      refine ⟨seen', question', ?_⟩
      have hstep : feedByte byte xml =
          (.ok none, { xml with instruction := seen₂, state := .instruction false }) := by
        simp only [feedByte, hstate, instructionByte]
        rw [if_neg hgo, h₁, if_neg hquestion, h₂]
      simpa [walk, Bind.bind, hstep] using hwalk

/-! ### CDATA sections -/

def bracket : Byte := byteOf ']'

def cdataClose : List Byte := bytesOf [']', ']', '>']

/-- Brackets that may belong to the end of the section are held back. -/
theorem cdata_walk {bytes : List Byte} {count : Nat} (hstate : xml.state = .cdata count)
    (hcount : count ≤ 2) (hbytes : ¬ cdataClose <:+: List.replicate count bracket ++ bytes)
    (h : Kept full pending xml) :
    ∃ done held mid, held ≤ 2 ∧
      List.replicate count bracket ++ bytes = done ++ List.replicate held bracket ∧
      walk bytes xml = (.ok (), mid) ∧ mid.state = .cdata held ∧
      mid.textLimit = xml.textLimit ∧
      Kept (full ++ (raw pending done).1) (raw pending done).2 mid := by
  induction bytes generalizing count full pending xml with
  | nil => exact ⟨[], count, xml, hcount, by simp, rfl, hstate, rfl, by simpa [raw] using h⟩
  | cons byte bytes ih =>
    by_cases hbracket : byte = bracket
    · subst hbracket
      have hstep : feedByte bracket xml = (.ok none,
          if 2 ≤ count then pushRawText bracket
            xml else { xml with state := .cdata (count + 1) }) := by
        have hclose : bracket ≠ byteOf '>' := by decide
        have hsame : bracket = byteOf ']' := rfl
        simp only [feedByte, hstate, cdataByte, update]
        rw [if_neg (fun h => hclose h.1), if_pos hsame, ← hsame]
      by_cases htwo : 2 ≤ count
      · obtain rfl : count = 2 := by omega
        rw [if_pos htwo] at hstep
        have hsuffix : List.replicate 2 bracket ++ bytes <:+
            List.replicate 2 bracket ++ bracket :: bytes :=
          ⟨[bracket], by simp [List.replicate]⟩
        obtain ⟨done, held, mid, hheld, hsplit, hwalk, hmid, hlimit, hkept⟩ :=
          ih (by simpa using hstate) hcount (fun hmem => hbytes (hmem.trans hsuffix.isInfix))
            (h.pushRawText bracket)
        refine ⟨bracket :: done, held, mid, hheld, ?_, ?_, hmid, by simpa using hlimit, ?_⟩
        · rw [List.cons_append, ← hsplit]
          simp [List.replicate]
        · simpa [walk, Bind.bind, hstep] using hwalk
        · have happend := raw_append pending [bracket] done
          rw [List.singleton_append] at happend
          rw [happend, ← List.append_assoc]
          exact hkept
      · rw [if_neg htwo] at hstep
        have hsame : List.replicate (count + 1) bracket ++ bytes =
            List.replicate count bracket ++ bracket :: bytes := by
          rw [List.replicate_succ', List.append_assoc, List.singleton_append]
        obtain ⟨done, held, mid, hheld, hsplit, hwalk, hmid, hlimit, hkept⟩ :=
          ih (show ({ xml with state := .cdata (count + 1) } : XmlTokenizer).state =
              .cdata (count + 1) from rfl) (by omega) (by rw [hsame]; exact hbytes)
            ⟨h.collect, h.text, h.total, h.truncated, h.pending⟩
        refine ⟨done, held, mid, hheld, by rw [← hsame, hsplit], ?_, hmid, hlimit, hkept⟩
        simpa [walk, Bind.bind, hstep] using hwalk
    · have hgo : ¬ (byte = byteOf '>' ∧ 2 ≤ count) := by
        rintro ⟨rfl, htwo⟩
        obtain rfl : count = 2 := by omega
        exact hbytes ⟨[], bytes, rfl⟩
      have hrest : ¬ cdataClose <:+: bytes := fun hmem =>
        hbytes (hmem.trans ((List.suffix_cons ..).trans (List.suffix_append ..)).isInfix)
      have hstep : feedByte byte xml = (.ok none, { pushRawText byte
          ((List.replicate count bracket).foldl (fun xml byte => XmlTokenizer.pushRawText byte xml)
            xml) with state := .cdata 0 }) := by
        have hother : byte ≠ byteOf ']' := hbracket
        simp only [feedByte, hstate, cdataByte, update]
        rw [if_neg hgo, if_neg hother, repeat_pushRawText]
        rfl
      have hpushed := (h.foldl_pushRawText (List.replicate count bracket)).pushRawText byte
      obtain ⟨done, held, mid, hheld, hsplit, hwalk, hmid, hlimit, hkept⟩ :=
        ih (show ({ pushRawText byte ((List.replicate count bracket).foldl
            (fun xml byte => XmlTokenizer.pushRawText byte xml) xml) with
              state := .cdata 0 } : XmlTokenizer).state = .cdata 0 from rfl)
          (Nat.zero_le _) (by simpa using hrest)
          ⟨hpushed.collect, hpushed.text, hpushed.total, hpushed.truncated, hpushed.pending⟩
      refine ⟨List.replicate count bracket ++ [byte] ++ done, held, mid, hheld, ?_, ?_, hmid,
        by simpa using hlimit, ?_⟩
      · have hbytes' : bytes = done ++ List.replicate held bracket := by simpa using hsplit
        rw [hbytes']
        simp
      · simpa [walk, Bind.bind, hstep] using hwalk
      · rw [raw_append, raw_append]
        simpa using hkept

end Walk

/-! ## What XML says -/

/-- The character of the digits of a character reference. -/
def numbered (radix : Nat) (digits : List Byte) : Option Char := do
  let values ← digits.mapM (toDigit radix)
  let value := Nat.ofDigits radix values.reverse
  if digits ≠ [] ∧ value ≠ 0 ∧ value.isValidChar then some (Char.ofNat value) else none

/-- The character that a reference stands for, by the text between `&` and `;`. -/
def denoted (body : List Byte) : Option Char :=
  if body = bytesOf ['l', 't'] then some '<'
  else if body = bytesOf ['g', 't'] then some '>'
  else if body = bytesOf ['a', 'm', 'p'] then some '&'
  else if body = bytesOf ['q', 'u', 'o', 't'] then some '"'
  else if body = bytesOf ['a', 'p', 'o', 's'] then some '\''
  else if body.head? ≠ some (byteOf '#') then none
  else if body.tail.head? = some (byteOf 'x') then numbered 16 body.tail.tail
  else numbered 10 body.tail

theorem decodeReference_values {radix value result : Nat} {digits : List Byte}
    (h : decodeReference radix value digits = .ok result) :
    ∃ values, digits.mapM (toDigit radix) = some values ∧ values.length = digits.length ∧
      result = value * radix ^ digits.length + Nat.ofDigits radix values.reverse := by
  induction digits generalizing value with
  | nil =>
    cases h
    exact ⟨[], rfl, rfl, by simp⟩
  | cons digit digits ih =>
    rw [decodeReference] at h
    rcases hdigit : toDigit radix digit with _ | v
    · rw [hdigit] at h
      cases h
    · simp only [hdigit] at h
      split_ifs at h
      obtain ⟨values, hvalues, hlength, hresult⟩ := ih h
      refine ⟨v :: values, by simp [hdigit, hvalues], by simp [hlength], ?_⟩
      rw [hresult, List.reverse_cons, Nat.ofDigits_append, List.length_reverse, hlength,
        Nat.ofDigits_singleton, List.length_cons, pow_succ]
      ring

theorem decodeReference_numbered {radix result : Nat} {digits : List Byte} {character : Char}
    (h : decodeReference radix 0 digits = .ok result) (hdigits : digits ≠ [])
    (hcharacter : characterOf result = .ok character) : numbered radix digits = some character := by
  obtain ⟨values, hvalues, -, hresult⟩ := decodeReference_values h
  rw [Nat.zero_mul, Nat.zero_add] at hresult
  unfold characterOf at hcharacter
  split_ifs at hcharacter with hvalid
  cases hcharacter
  subst hresult
  simp only [numbered, hvalues, Option.bind_eq_bind, Option.bind_some]
  rw [if_pos ⟨hdigits, hvalid⟩]

theorem decodeEntity_denoted {body decoded : List Byte} (h : decodeEntity body = .ok decoded) :
    ∃ character, denoted body = some character ∧ decoded = String.utf8EncodeChar character := by
  unfold decodeEntity at h
  unfold denoted
  by_cases hlt : body = bytesOf ['l', 't']
  · rw [if_pos hlt] at h ⊢
    cases h
    exact ⟨_, rfl, by decide⟩
  by_cases hgt : body = bytesOf ['g', 't']
  · rw [if_neg hlt, if_pos hgt] at h ⊢
    cases h
    exact ⟨_, rfl, by decide⟩
  by_cases hamp : body = bytesOf ['a', 'm', 'p']
  · rw [if_neg hlt, if_neg hgt, if_pos hamp] at h ⊢
    cases h
    exact ⟨_, rfl, by decide⟩
  by_cases hquot : body = bytesOf ['q', 'u', 'o', 't']
  · rw [if_neg hlt, if_neg hgt, if_neg hamp, if_pos hquot] at h ⊢
    cases h
    exact ⟨_, rfl, by decide⟩
  by_cases hapos : body = bytesOf ['a', 'p', 'o', 's']
  · rw [if_neg hlt, if_neg hgt, if_neg hamp, if_neg hquot, if_pos hapos] at h ⊢
    cases h
    exact ⟨_, rfl, by decide⟩
  rw [if_neg hlt, if_neg hgt, if_neg hamp, if_neg hquot, if_neg hapos] at h ⊢
  -- What is left is a character reference: decimal digits, or `x` and hexadecimal ones.
  rcases body with _ | ⟨first, digits⟩
  · cases h
  simp only at h
  by_cases hfirst : first = byteOf '#'
  swap
  · rw [if_pos hfirst] at h
    cases h
  rw [if_neg (not_not.mpr hfirst)] at h
  rw [if_neg (by simp [hfirst])]
  have hfinish : ∀ (digits : List Byte) (radix : Nat),
      (if digits.isEmpty then .error "empty character reference" else do
        let value ← decodeReference radix 0 digits
        let character ← characterOf value
        return String.utf8EncodeChar character) = Except.ok decoded →
      ∃ character, numbered radix digits = some character ∧
        decoded = String.utf8EncodeChar character := by
    intro digits radix h
    by_cases hempty : digits = []
    · subst hempty
      cases h
    rw [if_neg (by simpa using hempty)] at h
    rcases hvalue : decodeReference radix 0 digits with _ | value
    · rw [hvalue] at h
      cases h
    rcases hcharacter : characterOf value with _ | character
    · simp only [hvalue, Bind.bind, Except.bind, hcharacter] at h
      cases h
    · simp only [hvalue, Bind.bind, Except.bind, hcharacter] at h
      cases h
      exact ⟨character, decodeReference_numbered hvalue hempty hcharacter, rfl⟩
  rcases digits with _ | ⟨x, hex⟩
  · cases h
  · by_cases hx : x = byteOf 'x'
    · rw [List.tail_cons, List.head?_cons, if_pos (by rw [hx])]
      simp only [if_pos hx] at h
      exact hfinish hex 16 h
    · rw [List.tail_cons, List.head?_cons, if_neg (by simpa using hx)]
      simp only [if_neg hx] at h
      exact hfinish (x :: hex) 10 h

end XmlTokenizer

end LeanRows.Xlsx
