import LeanRows.Sort.Order

/-!
# The comparison

Two readers hand out the bytes, or the significant digits, of two keys; the comparison takes
them in pairs and can be left between any two. Whatever its budgets are, it comes to the
order of the keys.
-/

namespace LeanRows.Sort

set_option autoImplicit false

/-! ## The digits of a key -/

section Significant
variable {b : Byte} {bytes : List Byte}

theorem significantDigits_mark (hb : isExponentMark b) (skip : Nat) :
    significantDigits skip (b :: bytes) = [] := by
  simp [significantDigits, hb]

theorem significantDigits_skip (hb : isAsciiDigit b) {skip : Nat} (hskip : 0 < skip) :
    significantDigits skip (b :: bytes) = significantDigits (skip - 1) bytes := by
  obtain ⟨skip, rfl⟩ := Nat.exists_eq_add_one.mpr hskip
  simp [significantDigits, not_mark_of_digit hb, hb]

theorem significantDigits_digit (hb : isAsciiDigit b) :
    significantDigits 0 (b :: bytes) = b :: significantDigits 0 bytes := by
  simp [significantDigits, not_mark_of_digit hb, hb]

theorem significantDigits_other (hmark : isExponentMark b = false)
    (hb : isAsciiDigit b = false) (skip : Nat) :
    significantDigits skip (b :: bytes) = significantDigits skip bytes := by
  simp [significantDigits, hmark, hb]

@[simp] theorem significantDigits_nil (skip : Nat) : significantDigits skip [] = [] := by
  simp [significantDigits]

end Significant

namespace Digits

/-- The digits still to come. -/
def rest (document : List Byte) (d : Digits) : List Byte :=
  if d.ended then [] else significantDigits d.skip (d.cursor.rest document)

def stream (document : List Byte) : ByteStream Digits :=
  ⟨fun d => d.cursor.Valid document, rest document, fun d => d.cursor.stop - d.cursor.offset⟩

section Source
variable {W : Type} {source : PositionedRead W} {document : List Byte} {d : Digits}

theorem readLoop_ensures (hsource : source.Reads document) (hd : d.cursor.Valid document)
    (hended : d.ended = false) {fuel : Nat} (budget : Nat) (hfuel : budget < fuel) :
    (readLoop source fuel budget d).Ensures ((stream document).Step budget d) := by
  induction fuel generalizing d budget with
  | zero => omega
  | succ fuel ih =>
    unfold readLoop
    refine Exec.Ensures.bind (Cursor.next_ensures hsource budget hd) ?_
    rintro ⟨step, left, cursor⟩ hstep
    have hvalid : cursor.Valid document := hstep.valid
    have hspent : d.cursor.stop - d.cursor.offset + left =
      cursor.stop - cursor.offset + budget := hstep.spent
    have hrest : d.rest document = significantDigits d.skip (d.cursor.rest document) := by
      simp [rest, hended]
    cases step with
    | byte byte =>
      have hbytes : d.cursor.rest document = byte :: cursor.rest document := hstep.handed.byte_eq
      have hlt : left < budget := hstep.byte_spent byte rfl
      rw [hbytes] at hrest
      -- A byte that is passed over leaves a reader of the same digits.
      have hpass (d' : Digits) (hcursor : d'.cursor = cursor) (hended' : d'.ended = false)
          (hsame : d'.rest document = d.rest document) :
          (readLoop source fuel left d').Ensures ((stream document).Step budget d) := by
        refine (ih (d := d') (by rw [hcursor]; exact hvalid) hended' left (by omega)).mono ?_
        intro r hr
        have hspent' : d'.cursor.stop - d'.cursor.offset + r.2.1 =
          (stream document).todo r.2.2 + left := hr.spent
        have hleft := hr.left_le
        rw [hcursor] at hspent'
        refine ⟨hr.valid, ?_, ?_, by omega, hr.drained, ?_⟩
        · change ByteStep.Of (d.rest document) _ _
          rw [← hsame]
          exact hr.handed
        · change d.cursor.stop - d.cursor.offset + r.2.1 = _
          omega
        · intro byte hbyte
          have := hr.byte_spent byte hbyte
          omega
      dsimp only
      split
      · rename_i hmark
        refine .pure ⟨hvalid, ?_, hspent, hstep.left_le, by simp, by simp⟩
        change ByteStep.Of (d.rest document) _
          (rest document { d with cursor := cursor, ended := true })
        rw [hrest, significantDigits_mark hmark]
        exact .atEnd
      · rename_i hmark
        split
        · rename_i hdigit
          split
          · rename_i hskip
            apply hpass { d with cursor := cursor, skip := d.skip - 1 } rfl hended
            rw [hrest, significantDigits_skip hdigit hskip]
            simp [rest, hended]
          · rename_i hskip
            refine .pure ⟨hvalid, ?_, hspent, hstep.left_le, by simp, fun _ _ => hlt⟩
            have hzero : d.skip = 0 := by omega
            change ByteStep.Of (d.rest document) _ (rest document { d with cursor := cursor })
            rw [hrest, hzero, significantDigits_digit hdigit]
            simp only [rest, hended]
            exact .byte _ _
        · rename_i hdigit
          apply hpass { d with cursor := cursor } rfl hended
          rw [hrest, significantDigits_other (by simpa using hmark) (by simpa using hdigit)]
          simp [rest, hended]
    | atEnd =>
      have hbytes : d.cursor.rest document = [] := hstep.handed.atEnd_eq.1
      refine .pure ⟨hvalid, ?_, hspent, hstep.left_le, by simp, by simp⟩
      change ByteStep.Of (d.rest document) _
        (rest document { d with cursor := cursor, ended := true })
      rw [hrest, hbytes, significantDigits_nil]
      exact .atEnd
    | yield =>
      have hbytes : d.cursor.rest document = cursor.rest document := hstep.handed.yield_eq
      refine .pure ⟨hvalid, ?_, hspent, hstep.left_le, fun _ => hstep.drained rfl, by simp⟩
      change ByteStep.Of (d.rest document) _ (rest document { d with cursor := cursor })
      have hsame : rest document { d with cursor := cursor } = d.rest document := by
        simp only [rest, hbytes]
      rw [hsame]
      exact .yield _

theorem next_ensures (hsource : source.Reads document) (budget : Nat)
    (hd : d.cursor.Valid document) :
    (d.next source budget).Ensures ((stream document).Step budget d) := by
  unfold next
  split
  · rename_i hended
    refine .pure ⟨hd, ?_, rfl, Nat.le_refl _, by simp, by simp⟩
    change ByteStep.Of (d.rest document) _ (d.rest document)
    simp only [rest, hended, if_true]
    exact .atEnd
  · rename_i hended
    exact readLoop_ensures hsource hd (by simpa using hended) budget (Nat.lt_succ_self budget)

theorem next_returns {fingerprint : SourceFingerprint}
    (hsource : source.Steady document fingerprint) (budget : Nat) (hd : d.cursor.Valid document) :
    (d.next source budget).Returns ((stream document).Step budget d) := by
  suffices h : (d.next source budget).Returns fun _ => True from
    (h.and_ensures (next_ensures hsource.toReads budget hd)).mono fun _ h => h.2
  unfold next
  split
  · exact .pure trivial
  generalize budget + 1 = fuel
  induction fuel generalizing d budget with
  | zero => exact .pure trivial
  | succ fuel ih =>
    unfold readLoop
    refine Exec.Returns.bind (Cursor.next_returns hsource budget hd) ?_
    rintro ⟨step, left, cursor⟩ hstep
    have hvalid : cursor.Valid document := hstep.valid
    cases step with
    | byte byte =>
      dsimp only
      split
      · exact .pure trivial
      · split
        · split
          · apply ih <;> assumption
          · exact .pure trivial
        · apply ih <;> assumption
    | atEnd => exact .pure trivial
    | yield => exact .pure trivial

end Source

end Digits

/-! ## Pairs of bytes -/

namespace Comparison

/-- The bytes a pair of readers still has to hand out, the left one without the byte kept. -/
def leftRest (document : List Byte) (c : Comparison) : List Byte :=
  if c.numeric then c.da.rest document else c.ca.rest document

def rightRest (document : List Byte) (c : Comparison) : List Byte :=
  if c.numeric then c.db.rest document else c.cb.rest document

def todo (c : Comparison) : Nat :=
  if c.numeric then
    (c.da.cursor.stop - c.da.cursor.offset) + (c.db.cursor.stop - c.db.cursor.offset)
  else (c.ca.stop - c.ca.offset) + (c.cb.stop - c.cb.offset)

structure Valid (document : List Byte) (c : Comparison) : Prop where
  ca : c.ca.Valid document
  cb : c.cb.Valid document
  da : c.da.cursor.Valid document
  db : c.db.cursor.Valid document

/-- What no byte read changes. -/
structure SamePair (c c' : Comparison) : Prop where
  a : c'.a = c.a
  b : c'.b = c.b
  request : c'.request = c.request
  numeric : c'.numeric = c.numeric
  first : c'.first = c.first

/-- The order of two keys with these bytes ahead. -/
def pairOrder (c : Comparison) (left right : List Byte) : Ordering :=
  finishOrder c.request c.a c.b
    (if c.numeric then signed c.a.sign (compareDigits left right) else compare left right)

theorem SamePair.pairOrder_eq {c c' : Comparison} (h : c.SamePair c') (left right : List Byte) :
    c'.pairOrder left right = c.pairOrder left right := by
  simp only [pairOrder, h.a, h.b, h.request, h.numeric]

theorem SamePair.trans {c c' c'' : Comparison} (h : c.SamePair c') (h' : c'.SamePair c'') :
    c.SamePair c'' :=
  ⟨h'.a.trans h.a, h'.b.trans h.b, h'.request.trans h.request, h'.numeric.trans h.numeric,
    h'.first.trans h.first⟩

/-- The bytes of the left key that no pair has taken. -/
def lefts (document : List Byte) (c : Comparison) : List Byte :=
  match c.left with
  | some left => left.toList ++ c.leftRest document
  | none => c.leftRest document

/-- A kept end of the left key is its end. -/
def LeftEnds (document : List Byte) (c : Comparison) : Prop :=
  c.left = some none → c.leftRest document = []

/-- The order the comparison comes to from its bytes. -/
def answer (document : List Byte) (c : Comparison) : Ordering :=
  c.pairOrder (c.lefts document) (c.rightRest document)

theorem signed_eq (sign : ℤ) : signed sign .eq = .eq := by
  unfold signed
  split <;> rfl

/-- The order of bytes: of digits, or of the bytes themselves. -/
def byteOrder (numeric : Bool) (left right : List Byte) : Ordering :=
  if numeric then compareDigits left right else compare left right

theorem pairOrder_byteOrder (c : Comparison) (left right : List Byte) :
    c.pairOrder left right = finishOrder c.request c.a c.b
      (if c.numeric ∧ c.a.sign < 0 then (byteOrder c.numeric left right).swap
      else byteOrder c.numeric left right) := by
  cases hnumeric : c.numeric <;> simp [pairOrder, byteOrder, signed, hnumeric]

/-- A byte of each key, or the end of one of them, is compared first. -/
theorem byteOrder_step (numeric : Bool) {left right : Option Byte}
    {leftRest rightRest : List Byte} (hleft : left = none → leftRest = [])
    (hright : right = none → rightRest = []) :
    byteOrder numeric (left.toList ++ leftRest) (right.toList ++ rightRest) =
      (if numeric then compare (left.getD 48) (right.getD 48) else compare left right).then
        (byteOrder numeric leftRest rightRest) := by
  rcases left with _ | l <;> rcases right with _ | r
  · rw [hleft rfl, hright rfl]
    cases numeric <;> simp [byteOrder, compareDigits]
  · rw [hleft rfl]
    cases numeric <;> rfl
  · rw [hright rfl]
    cases numeric <;> rfl
  · cases numeric with
    | true => rfl
    | false => exact List.compare_cons_cons

/-- A pair decides the order, or leaves it to what is behind it. -/
theorem orderOf_eq (c : Comparison) (left right : Option Byte) {leftRest rightRest : List Byte}
    (hleft : left = none → leftRest = []) (hright : right = none → rightRest = []) :
    match c.orderOf left right with
    | some order => order = c.pairOrder (left.toList ++ leftRest) (right.toList ++ rightRest)
    | none => c.pairOrder leftRest rightRest =
        c.pairOrder (left.toList ++ leftRest) (right.toList ++ rightRest) := by
  have hstep := byteOrder_step c.numeric hleft hright
  unfold orderOf
  by_cases hends : left.isNone ∧ right.isNone
  · obtain ⟨rfl, rfl⟩ : left = none ∧ right = none := by simpa using hends
    rw [if_pos hends, hleft rfl, hright rfl]
    cases hnumeric : c.numeric <;>
      simp [pairOrder, hnumeric, compareDigits, signed_eq, finishOrder_eq]
  · rw [if_neg hends, pairOrder_byteOrder, pairOrder_byteOrder, hstep]
    dsimp only
    generalize (if c.numeric = true then compare (left.getD 48) (right.getD 48)
      else compare left right) = value
    cases value with
    | eq => rfl
    | lt => rfl
    | gt => rfl

section Source
variable {W : Type} {source : PositionedRead W} {document : List Byte} {c : Comparison}

/-- One call of a reader of the pair. -/
structure Took (document : List Byte) (c : Comparison) (budget : Nat)
    (r : ByteStep × Nat × Comparison) : Prop where
  valid : r.2.2.Valid document
  same : c.SamePair r.2.2
  spent : c.todo + r.2.1 = r.2.2.todo + budget
  left_le : r.2.1 ≤ budget
  drained : r.1 = .yield → r.2.1 = 0
  byte_spent : ∀ byte, r.1 = .byte byte → r.2.1 < budget
  kept : r.2.2.left = c.left

theorem nextLeft_ensures (hsource : source.Reads document) (budget : Nat)
    (hc : c.Valid document) :
    (c.nextLeft source budget).Ensures fun r => c.Took document budget r ∧
      ByteStep.Of (c.leftRest document) r.1 (r.2.2.leftRest document) ∧
      r.2.2.rightRest document = c.rightRest document := by
  unfold nextLeft
  split
  · rename_i hnumeric
    refine Exec.Ensures.bind (Digits.next_ensures hsource budget hc.da) fun r hr => .pure ?_
    have hspent : c.da.cursor.stop - c.da.cursor.offset + r.2.1 =
      r.2.2.cursor.stop - r.2.2.cursor.offset + budget := hr.spent
    refine ⟨⟨⟨hc.ca, hc.cb, hr.valid, hc.db⟩, ⟨rfl, rfl, rfl, rfl, rfl⟩, ?_, hr.left_le,
      hr.drained, hr.byte_spent, rfl⟩, ?_, by simp [rightRest, hnumeric]⟩
    · simp only [todo, hnumeric, if_true]
      omega
    · simp only [leftRest, hnumeric, if_true]
      exact hr.handed
  · rename_i hnumeric
    refine Exec.Ensures.bind (Cursor.next_ensures hsource budget hc.ca) fun r hr => .pure ?_
    have hspent : c.ca.stop - c.ca.offset + r.2.1 = r.2.2.stop - r.2.2.offset + budget := hr.spent
    refine ⟨⟨⟨hr.valid, hc.cb, hc.da, hc.db⟩, ⟨rfl, rfl, rfl, rfl, rfl⟩, ?_, hr.left_le,
      hr.drained, hr.byte_spent, rfl⟩, ?_, by simp [rightRest, hnumeric]⟩
    · simp only [todo, hnumeric, Bool.false_eq_true, if_false]
      omega
    · simp only [leftRest, hnumeric, Bool.false_eq_true, if_false]
      exact hr.handed

theorem nextRight_ensures (hsource : source.Reads document) (budget : Nat)
    (hc : c.Valid document) :
    (c.nextRight source budget).Ensures fun r => c.Took document budget r ∧
      ByteStep.Of (c.rightRest document) r.1 (r.2.2.rightRest document) ∧
      r.2.2.leftRest document = c.leftRest document := by
  unfold nextRight
  split
  · rename_i hnumeric
    refine Exec.Ensures.bind (Digits.next_ensures hsource budget hc.db) fun r hr => .pure ?_
    have hspent : c.db.cursor.stop - c.db.cursor.offset + r.2.1 =
      r.2.2.cursor.stop - r.2.2.cursor.offset + budget := hr.spent
    refine ⟨⟨⟨hc.ca, hc.cb, hc.da, hr.valid⟩, ⟨rfl, rfl, rfl, rfl, rfl⟩, ?_, hr.left_le,
      hr.drained, hr.byte_spent, rfl⟩, ?_, by simp [leftRest, hnumeric]⟩
    · simp only [todo, hnumeric, if_true]
      omega
    · simp only [rightRest, hnumeric, if_true]
      exact hr.handed
  · rename_i hnumeric
    refine Exec.Ensures.bind (Cursor.next_ensures hsource budget hc.cb) fun r hr => .pure ?_
    have hspent : c.cb.stop - c.cb.offset + r.2.1 = r.2.2.stop - r.2.2.offset + budget := hr.spent
    refine ⟨⟨⟨hc.ca, hr.valid, hc.da, hc.db⟩, ⟨rfl, rfl, rfl, rfl, rfl⟩, ?_, hr.left_le,
      hr.drained, hr.byte_spent, rfl⟩, ?_, by simp [leftRest, hnumeric]⟩
    · simp only [todo, hnumeric, Bool.false_eq_true, if_false]
      omega
    · simp only [rightRest, hnumeric, Bool.false_eq_true, if_false]
      exact hr.handed

/-- What a step keeps while the comparison is undecided. -/
structure Undecided (document : List Byte) (c c' : Comparison) : Prop where
  valid : c'.Valid document
  ends : c'.LeftEnds document
  same : c.SamePair c'
  answer : c'.answer document = c.answer document

/-- A comparison with its readers moved, and a left byte kept for it or not. -/
theorem keep_undecided {c' : Comparison} (hvalid : c'.Valid document) (hsame : c.SamePair c')
    (hright : c'.rightRest document = c.rightRest document) (left : Option (Option Byte))
    (hlefts : ({ c' with left := left } : Comparison).lefts document = c.lefts document)
    (hends : ({ c' with left := left } : Comparison).LeftEnds document) :
    Undecided document c { c' with left := left } := by
  have hsame' : c.SamePair { c' with left := left } :=
    ⟨hsame.a, hsame.b, hsame.request, hsame.numeric, hsame.first⟩
  refine ⟨⟨hvalid.ca, hvalid.cb, hvalid.da, hvalid.db⟩, hends, hsame', ?_⟩
  rw [answer, answer, hsame'.pairOrder_eq, hlefts]
  exact congrArg (c.pairOrder _) hright

theorem takeLeft_ensures (hsource : source.Reads document) (budget : Nat)
    (hc : c.Valid document) (hends : c.LeftEnds document) :
    (c.takeLeft source budget).Ensures fun r =>
      Undecided document c r.2.2 ∧ c.todo + r.2.1 = r.2.2.todo + budget ∧ r.2.1 ≤ budget ∧
      (r.1 = none → r.2.1 = 0) ∧ (∀ left, r.1 = some left → r.2.2.left = some left ∧
        (left.isSome → c.left = none → r.2.1 < budget)) := by
  unfold takeLeft
  cases hleft : c.left with
  | some left =>
    refine .pure ⟨⟨hc, hends, ⟨rfl, rfl, rfl, rfl, rfl⟩, rfl⟩, rfl, Nat.le_refl _, by simp, ?_⟩
    rintro _ ⟨⟩
    exact ⟨hleft, fun _ h => nomatch h⟩
  | none =>
    refine Exec.Ensures.bind (nextLeft_ensures hsource budget hc) ?_
    rintro ⟨step, left, c'⟩ ⟨htook, hhanded, hright⟩
    have hvalid : c'.Valid document := htook.valid
    have hlefts : c.lefts document = c.leftRest document := by simp [lefts, hleft]
    have hkept : c'.left = none := htook.kept.trans hleft
    cases step with
    | byte byte =>
      have hrest : c.leftRest document = byte :: c'.leftRest document := hhanded.byte_eq
      refine .pure ⟨keep_undecided hvalid htook.same hright (some (some byte)) ?_
        (fun h => nomatch h), htook.spent, htook.left_le, by simp, ?_⟩
      · rw [hlefts, hrest]
        rfl
      · rintro _ ⟨⟩
        exact ⟨rfl, fun _ _ => htook.byte_spent byte rfl⟩
    | atEnd =>
      have hnil : c.leftRest document = [] := hhanded.atEnd_eq.1
      have hnil' : c'.leftRest document = [] := hhanded.atEnd_eq.2
      refine .pure ⟨keep_undecided hvalid htook.same hright (some none) ?_ (fun _ => hnil'),
        htook.spent, htook.left_le, by simp, ?_⟩
      · rw [hlefts, hnil]
        exact hnil'
      · rintro _ ⟨⟩
        exact ⟨rfl, fun h => nomatch h⟩
    | yield =>
      have hrest : c.leftRest document = c'.leftRest document := hhanded.yield_eq
      refine .pure ⟨keep_undecided hvalid htook.same hright c'.left ?_ ?_, htook.spent,
        htook.left_le, fun _ => htook.drained rfl, by simp⟩
      · rw [hlefts, hrest]
        simp only [lefts, hkept]
        rfl
      · intro h
        have h' : c'.left = some none := h
        rw [hkept] at h'
        cases h'

/-- The passes the loop may need: one more when a left byte is kept. -/
def passes (c : Comparison) (budget : Nat) : Nat := budget + if c.left.isSome then 1 else 0

theorem Undecided.trans {c₁ c₂ c₃ : Comparison} (h : Undecided document c₁ c₂)
    (h' : Undecided document c₂ c₃) : Undecided document c₁ c₃ :=
  ⟨h'.valid, h'.ends, h.same.trans h'.same, h'.answer.trans h.answer⟩

theorem readLoop_ensures (hsource : source.Reads document) (hc : c.Valid document)
    (hends : c.LeftEnds document) {fuel : Nat} (budget : Nat) (hfuel : c.passes budget < fuel) :
    (readLoop source fuel budget c).Ensures fun r =>
      match r with
      | (some order, _) => order = c.answer document
      | (none, _, c') => Undecided document c c' ∧ c.todo = c'.todo + budget := by
  induction fuel generalizing c budget with
  | zero => omega
  | succ fuel ih =>
    unfold readLoop
    refine Exec.Ensures.bind (takeLeft_ensures hsource budget hc hends) ?_
    rintro ⟨_ | left, rest, c₁⟩ ⟨hc₁, hspent, hle, hdrained, htaken⟩
    · have hzero : rest = 0 := hdrained rfl
      refine .pure ⟨hc₁, ?_⟩
      dsimp only at hspent
      omega
    · obtain ⟨hleft, hbyte⟩ := htaken left rfl
      dsimp only at hc₁ hspent hle hleft hbyte
      have hlefts : c₁.lefts document = left.toList ++ c₁.leftRest document := by
        simp only [lefts, hleft]
      have hleftEnds : left = none → c₁.leftRest document = [] := by
        rintro rfl
        exact hc₁.ends hleft
      refine Exec.Ensures.bind (nextRight_ensures hsource rest hc₁.valid) ?_
      rintro ⟨step, rest', c₂⟩ ⟨htook, hhanded, hleftRest⟩
      dsimp only at hhanded hleftRest
      have hspent' : c₁.todo + rest' = c₂.todo + rest := htook.spent
      have hvalid : c₂.Valid document := htook.valid
      have hsame : c₁.SamePair c₂ := htook.same
      have hkept : c₂.left = some left := htook.kept.trans hleft
      -- A pair has been read: it decides, or the loop goes on behind it.
      have hpair (right : Option Byte)
          (hright : c₁.rightRest document = right.toList ++ c₂.rightRest document)
          (hrightEnds : right = none → c₂.rightRest document = [])
          (hless : right.isSome → rest' < rest) (hle' : rest' ≤ rest) :
          (match c₂.orderOf left right with
            | some order => pure (some order, rest', { c₂ with left := none })
            | none => readLoop source fuel rest' { c₂ with left := none } :
            Exec W SortError (Option Ordering × Nat × Comparison)).Ensures fun r =>
              match r with
              | (some order, _) => order = c.answer document
              | (none, _, c') => Undecided document c c' ∧ c.todo = c'.todo + budget := by
        have hanswer : c.answer document =
            c₂.pairOrder (left.toList ++ c₂.leftRest document)
              (right.toList ++ c₂.rightRest document) := by
          rw [← hc₁.answer, answer, hlefts, hright, hleftRest, hsame.pairOrder_eq]
        have hleftEnds' : left = none → c₂.leftRest document = [] :=
          fun h => hleftRest.trans (hleftEnds h)
        have horder := orderOf_eq c₂ left right hleftEnds' hrightEnds
        cases hdecided : c₂.orderOf left right with
        | some order =>
          rw [hdecided] at horder
          exact .pure (horder.trans hanswer.symm)
        | none =>
          rw [hdecided] at horder
          have hnext : Undecided document c { c₂ with left := none } := by
            have hsame' := hc₁.same.trans hsame
            refine ⟨⟨hvalid.ca, hvalid.cb, hvalid.da, hvalid.db⟩, (fun h => nomatch h),
              ⟨hsame'.a, hsame'.b, hsame'.request, hsame'.numeric, hsame'.first⟩, ?_⟩
            exact horder.trans hanswer.symm
          have hsome : left.isSome ∨ right.isSome := by
            by_contra hnone
            simp only [not_or, Option.not_isSome_iff_eq_none] at hnone
            rw [orderOf, hnone.1, hnone.2, if_pos ⟨rfl, rfl⟩] at hdecided
            cases hdecided
          have hpasses : ({ c₂ with left := none } : Comparison).passes rest' < fuel := by
            change rest' + 0 < fuel
            rw [passes] at hfuel
            rcases hsome with hsome | hsome
            · cases hkeptLeft : c.left with
              | none =>
                have := hbyte hsome hkeptLeft
                omega
              | some kept =>
                rw [hkeptLeft] at hfuel
                simp only [Option.isSome_some, if_true] at hfuel
                omega
            · have := hless hsome
              omega
          refine (ih hnext.valid hnext.ends rest' hpasses).mono ?_
          rintro ⟨_ | order, left', c'⟩ hr
          · obtain ⟨hundecided, htodo⟩ := hr
            refine ⟨hnext.trans hundecided, ?_⟩
            change c₂.todo = _ at htodo
            omega
          · exact Eq.trans hr hnext.answer
      cases step with
      | byte byte =>
        exact hpair (some byte) hhanded.byte_eq (by simp)
          (fun _ => htook.byte_spent byte rfl) htook.left_le
      | atEnd =>
        exact hpair none (hhanded.atEnd_eq.1.trans hhanded.atEnd_eq.2.symm)
          (fun _ => hhanded.atEnd_eq.2) (by simp) htook.left_le
      | yield =>
        have hzero : rest' = 0 := htook.drained rfl
        have hrightRest : c₁.rightRest document = c₂.rightRest document := hhanded.yield_eq
        refine .pure ⟨hc₁.trans (keep_undecided hvalid hsame hrightRest.symm c₂.left ?_ ?_),
          by omega⟩
        · rw [hlefts, ← hleftRest]
          simp only [lefts, hkept]
          rfl
        · intro h
          have h' : c₂.left = some none := h
          rw [hkept, Option.some.injEq] at h'
          exact hleftRest.trans (hleftEnds h')

/-- What the descriptors decide, or else the bytes. -/
def result (document : List Byte) (c : Comparison) : Ordering :=
  ((if c.first then decideOrder c.a c.b c.request else none)).getD (c.answer document)

theorem advance_ensures (hsource : source.Reads document) (hc : c.Valid document)
    (hends : c.LeftEnds document) (budget : Nat) :
    (c.advance source budget).Ensures fun r =>
      match r with
      | (some order, _) => order = c.result document
      | (none, _, c') => c'.Valid document ∧ c'.LeftEnds document ∧
          c'.result document = c.result document ∧ c.todo = c'.todo + budget := by
  unfold advance
  cases hdecided : if c.first then decideOrder c.a c.b c.request else none with
  | some order =>
    refine .pure ?_
    rw [result, hdecided]
    rfl
  | none =>
    have hresult : c.result document = c.answer document := by
      rw [result, hdecided]
      rfl
    have hpasses : ({ c with first := false } : Comparison).passes budget < budget + 2 := by
      simp only [passes]
      split <;> omega
    refine (readLoop_ensures (c := { c with first := false }) hsource
      ⟨hc.ca, hc.cb, hc.da, hc.db⟩ hends budget hpasses).mono ?_
    rintro ⟨_ | order, left, c'⟩ hr
    · obtain ⟨hundecided, htodo⟩ := hr
      refine ⟨hundecided.valid, hundecided.ends, ?_, htodo⟩
      have hfirst : c'.first = false := hundecided.same.first
      rw [hresult, result, hfirst]
      exact hundecided.answer
    · exact Eq.trans hr hresult.symm

theorem nextLeft_returns {fingerprint : SourceFingerprint}
    (hsource : source.Steady document fingerprint) (budget : Nat) (hc : c.Valid document) :
    (c.nextLeft source budget).Returns fun _ => True := by
  unfold nextLeft
  split
  · exact Exec.Returns.bind (Digits.next_returns hsource budget hc.da) fun _ _ => .pure trivial
  · exact Exec.Returns.bind (Cursor.next_returns hsource budget hc.ca) fun _ _ => .pure trivial

theorem nextRight_returns {fingerprint : SourceFingerprint}
    (hsource : source.Steady document fingerprint) (budget : Nat) (hc : c.Valid document) :
    (c.nextRight source budget).Returns fun _ => True := by
  unfold nextRight
  split
  · exact Exec.Returns.bind (Digits.next_returns hsource budget hc.db) fun _ _ => .pure trivial
  · exact Exec.Returns.bind (Cursor.next_returns hsource budget hc.cb) fun _ _ => .pure trivial

theorem takeLeft_returns {fingerprint : SourceFingerprint}
    (hsource : source.Steady document fingerprint) (budget : Nat) (hc : c.Valid document) :
    (c.takeLeft source budget).Returns fun r => r.2.2.Valid document := by
  unfold takeLeft
  cases c.left with
  | some left => exact .pure hc
  | none =>
    refine Exec.Returns.bind ((nextLeft_returns hsource budget hc).and_ensures
      (nextLeft_ensures hsource.toReads budget hc)) ?_
    rintro ⟨step, left, c'⟩ ⟨-, htook, -⟩
    have hvalid : c'.Valid document := htook.valid
    cases step with
    | byte byte => exact .pure ⟨hvalid.ca, hvalid.cb, hvalid.da, hvalid.db⟩
    | atEnd => exact .pure ⟨hvalid.ca, hvalid.cb, hvalid.da, hvalid.db⟩
    | yield => exact .pure hvalid

theorem advance_returns {fingerprint : SourceFingerprint}
    (hsource : source.Steady document fingerprint) (budget : Nat) (hc : c.Valid document) :
    (c.advance source budget).Returns fun _ => True := by
  unfold advance
  split
  · exact .pure trivial
  generalize hfirst : ({ c with first := false } : Comparison) = c₀
  have hc₀ : c₀.Valid document := by
    rw [← hfirst]
    exact ⟨hc.ca, hc.cb, hc.da, hc.db⟩
  clear hfirst
  have hloop : ∀ fuel budget (c : Comparison), c.Valid document →
      (readLoop source fuel budget c).Returns fun _ => True := by
    intro fuel
    induction fuel with
    | zero => exact fun _ _ _ => .pure trivial
    | succ fuel ih =>
      intro budget c hc
      unfold readLoop
      refine Exec.Returns.bind (takeLeft_returns hsource budget hc) ?_
      rintro ⟨_ | left, rest, c₁⟩ hc₁
      · exact .pure trivial
      · refine Exec.Returns.bind ((nextRight_returns hsource rest hc₁).and_ensures
          (nextRight_ensures hsource.toReads rest hc₁)) ?_
        rintro ⟨step, rest', c₂⟩ ⟨-, htook, -⟩
        have hvalid : c₂.Valid document := htook.valid
        have hpair (right : Option Byte) :
            (match c₂.orderOf left right with
              | some order => pure (some order, rest', { c₂ with left := none })
              | none => readLoop source fuel rest' { c₂ with left := none } :
              Exec W SortError (Option Ordering × Nat × Comparison)).Returns fun _ => True := by
          split
          · exact .pure trivial
          · exact ih _ _ ⟨hvalid.ca, hvalid.cb, hvalid.da, hvalid.db⟩
        cases step with
        | byte byte => exact hpair (some byte)
        | atEnd => exact hpair none
        | yield => exact .pure trivial
  exact hloop _ _ _ hc₀

/-- The comparison, taken up as often as it takes. -/
theorem resume_ensures (hsource : source.Reads document) (hc : c.Valid document)
    (hends : c.LeftEnds document) (budgets : List Nat) :
    (Exec.resume (fun budget c => advance source budget c) budgets c).Ensures fun r =>
      ∀ order, r.1 = some order → order = c.result document := by
  refine Exec.resume_ensures (fun c' => c'.Valid document ∧ c'.LeftEnds document ∧
    c'.result document = c.result document) _ ?_ budgets ⟨hc, hends, rfl⟩
  rintro budget c' ⟨hvalid, hends', hresult⟩
  refine (advance_ensures hsource hvalid hends' budget).mono ?_
  rintro ⟨_ | order, left, c''⟩ hr
  · exact ⟨hr.1, hr.2.1, hr.2.2.1.trans hresult⟩
  · exact Eq.trans hr hresult

theorem resume_returns {fingerprint : SourceFingerprint}
    (hsource : source.Steady document fingerprint) (hc : c.Valid document)
    (hends : c.LeftEnds document) {budgets : List Nat} (hpos : ∀ budget ∈ budgets, 0 < budget)
    (henough : c.todo < budgets.length) :
    (Exec.resume (fun budget c => advance source budget c) budgets c).Returns fun r =>
      r.1 = some (c.result document) := by
  refine (Exec.resume_returns (fun c' => c'.Valid document ∧ c'.LeftEnds document ∧
      c'.result document = c.result document) (fun order => order = c.result document) todo ?_
    hpos ⟨hc, hends, rfl⟩ henough).mono ?_
  · rintro budget c' ⟨hvalid, hends', hresult⟩ hbudget
    refine ((advance_returns hsource budget hvalid).and_ensures
      (advance_ensures hsource.toReads hvalid hends' budget)).mono ?_
    rintro ⟨_ | order, left, c''⟩ ⟨-, hr⟩
    · exact ⟨⟨hr.1, hr.2.1, hr.2.2.1.trans hresult⟩, by have := hr.2.2.2; omega⟩
    · exact Eq.trans hr hresult
  · rintro r ⟨order, horder, rfl⟩
    exact horder

end Source

/-! ## The outcome -/

section Outcome
variable {document : List Byte} {quote : Byte} {request : SortRequest} {rowA rowB : Nat}
  {keyA keyB : List Byte} {a b : Descriptor}

theorem new_valid (ha : a.Describes document quote request.mode rowA keyA)
    (hb : b.Describes document quote request.mode rowB keyB) :
    (new a b request quote).Valid document ∧ (new a b request quote).LeftEnds document :=
  ⟨⟨ha.valid, hb.valid, ha.valid, hb.valid⟩, fun h => nomatch h⟩

/-- Where only the bytes tell two keys apart, the bytes are compared in the order of the keys. -/
theorem new_answer (ha : a.Describes document quote request.mode rowA keyA)
    (hb : b.Describes document quote request.mode rowB keyB) (h : ByteComparable request a b) :
    (new a b request quote).answer document = bytesOrder request a b keyA keyB := by
  have hnumeric : (new a b request quote).numeric =
      decide (request.mode = .numeric ∧ a.group = 0) := by
    simp only [new]
    rw [decide_eq_decide]
    constructor
    · rintro ⟨hmode, hgroup, -⟩
      exact ⟨hmode, hgroup⟩
    · rintro ⟨hmode, hgroup⟩
      exact ⟨hmode, hgroup, (h.group hmode).1.symm.trans hgroup⟩
  rw [answer, bytesOrder, pairOrder]
  by_cases hbranch : request.mode = .numeric ∧ a.group = 0
  · rw [decide_eq_true hbranch] at hnumeric
    simp only [hnumeric, lefts, leftRest, rightRest, if_true, if_pos hbranch]
    simp only [new, Digits.new, Digits.rest, ha.rest, hb.rest]
    rfl
  · rw [decide_eq_false hbranch] at hnumeric
    simp only [hnumeric, lefts, leftRest, rightRest, Bool.false_eq_true, if_false, if_neg hbranch]
    simp only [new, ha.rest, hb.rest]

theorem new_result (ha : a.Describes document quote request.mode rowA keyA)
    (hb : b.Describes document quote request.mode rowB keyB) :
    (new a b request quote).result document = (sortKey request.mode rowA keyA).order
      request.direction (sortKey request.mode rowB keyB) := by
  cases hdecided : decideOrder a b request with
  | some order =>
    have horder := decideOrder_eq_some ha hb hdecided
    rw [result, ← horder]
    simp only [new, if_true, hdecided, Option.getD_some]
  | none =>
    have hbytes := decideOrder_eq_none hdecided
    rw [← bytesOrder_eq ha hb hbytes, ← new_answer ha hb hbytes, result]
    have hnone : (if (new a b request quote).first then
        decideOrder (new a b request quote).a (new a b request quote).b
          (new a b request quote).request else none) = none := hdecided
    rw [hnone]
    rfl

end Outcome

end Comparison

end LeanRows.Sort
