import LeanRows.Sort.Numeral

/-!
# The recogniser

Reading a numeral from left to right, part by part, and back: what has been read when the
recogniser is in one of its states.
-/

namespace LeanRows.Sort

set_option autoImplicit false

namespace Number

def run (n : Number) (bytes : List Byte) : Number := bytes.foldl push n

@[simp] theorem run_nil (n : Number) : n.run [] = n := rfl

@[simp] theorem run_cons (n : Number) (b : Byte) (bytes : List Byte) :
    n.run (b :: bytes) = (n.push b).run bytes := rfl

theorem run_append (n : Number) (bytes bytes' : List Byte) :
    n.run (bytes ++ bytes') = (n.run bytes).run bytes' := List.foldl_append ..

theorem run_invalid {n : Number} (h : n.invalid = true) (bytes : List Byte) : n.run bytes = n := by
  induction bytes with
  | nil => rfl
  | cons b bytes ih =>
    have hpush : n.push b = n := by simp [push, h]
    rw [run_cons, hpush, ih]

/-! ## One byte -/

section Push
variable {n : Number} {b : Byte} (hn : n.invalid = false)
include hn

theorem push_space (hb : isAsciiWhitespace b) :
    n.push b = { n with
      invalid := n.state == .signed || n.state == .marked || n.state == .exponentSigned
      state := if n.state = .blank then .blank else .trailing } := by
  simp [push, hn, hb]

theorem push_whole (hs : n.state = .blank ∨ n.state = .signed ∨ n.state = .whole)
    (hb : isAsciiDigit b) : n.push b = ({ n with state := .whole } : Number).digit b true := by
  have hspace := not_blank_of_digit hb
  have hsign : ¬ (b = 43 ∨ b = 45) := by
    rintro (rfl | rfl) <;> simp [isAsciiDigit] at hb
  have hpoint : b ≠ 46 := by
    rintro rfl
    simp [isAsciiDigit] at hb
  rcases hs with hs | hs | hs <;> simp [push, hn, hspace, hs, hsign, hpoint, hb]

theorem push_fraction (hs : n.state = .fraction) (hb : isAsciiDigit b) :
    n.push b = n.digit b false := by
  simp [push, hn, not_blank_of_digit hb, hs, hb]

theorem push_exponent
    (hs : n.state = .marked ∨ n.state = .exponentSigned ∨ n.state = .exponent)
    (hb : isAsciiDigit b) : n.push b = ({ n with state := .exponent } : Number).exponent b := by
  have hspace := not_blank_of_digit hb
  have hsign : ¬ (b = 43 ∨ b = 45) := by
    rintro (rfl | rfl) <;> simp [isAsciiDigit] at hb
  rcases hs with hs | hs | hs <;> simp [push, hn, hspace, hs, hsign, hb]

theorem push_point (hs : n.state = .blank ∨ n.state = .signed ∨ n.state = .whole) :
    n.push 46 = { n with state := .fraction } := by
  rcases hs with hs | hs | hs <;> simp [push, hn, hs, isAsciiWhitespace, isAsciiDigit]

theorem push_mark (hs : n.state = .whole ∨ n.state = .fraction) (hd : 0 < n.digits)
    (hb : isExponentMark b) : n.push b = { n with state := .marked } := by
  rw [isExponentMark_iff] at hb
  rcases hb with rfl | rfl <;> rcases hs with hs | hs <;>
    simp [push, hn, hs, hd, isAsciiWhitespace, isAsciiDigit, isExponentMark]

theorem push_sign (hs : n.state = .blank) (sign : Sign) :
    n.push sign.byte = { n with negative := sign == .minus, state := .signed } := by
  cases sign <;> simp [push, hn, hs, Sign.byte, isAsciiWhitespace]

theorem push_exponentSign (hs : n.state = .marked) (sign : Sign) :
    n.push sign.byte = { n with expNegative := sign == .minus, state := .exponentSigned } := by
  cases sign <;> simp [push, hn, hs, Sign.byte, isAsciiWhitespace]

end Push

/-! ## The counters -/

def readDigits (integer : Bool) (n : Number) (ds : List Byte) : Number :=
  ds.foldl (fun n b => n.digit b integer) n

def readExponent (n : Number) (ds : List Byte) : Number := ds.foldl exponent n

def leadingZeros (ds : List Byte) : Nat := (ds.takeWhile (· == 48)).length

/-- The counters after the digits of a mantissa, read up to the point and behind it. -/
structure Counts (whole behind : List Byte) (n : Number) : Prop where
  digits : n.digits = whole.length + behind.length
  beforeDot : n.beforeDot = whole.length
  leading : n.leading = leadingZeros (whole ++ behind)
  significant : n.significant = (whole ++ behind).any (· != 48)

theorem leadingZeros_concat (ds : List Byte) (b : Byte) :
    leadingZeros (ds ++ [b]) =
      if !ds.any (· != 48) && b == 48 then leadingZeros ds + 1 else leadingZeros ds := by
  unfold leadingZeros
  induction ds with
  | nil => by_cases hb : b = 48 <;> simp [hb]
  | cons d ds ih =>
    by_cases hd : d = 48
    · simp only [hd, List.cons_append, List.takeWhile_cons, beq_self_eq_true, if_true,
        List.length_cons, ih, List.any_cons, bne_self_eq_false, Bool.false_or]
      split <;> rfl
    · simp [hd]

theorem Counts.digit_whole {whole : List Byte} {n : Number} (h : n.Counts whole []) (b : Byte) :
    (n.digit b true).Counts (whole ++ [b]) [] := by
  obtain ⟨hdigits, hbefore, hleading, hsignificant⟩ := h
  simp only [List.append_nil, List.length_nil, Nat.add_zero] at *
  refine ⟨?_, ?_, ?_, ?_⟩
  · simp [digit, hdigits]
  · simp [digit, hbefore]
  · simp only [digit, List.append_nil, leadingZeros_concat, hsignificant, hleading]
  · simp [digit, hsignificant]

theorem Counts.digit_behind {whole behind : List Byte} {n : Number} (h : n.Counts whole behind)
    (b : Byte) : (n.digit b false).Counts whole (behind ++ [b]) := by
  obtain ⟨hdigits, hbefore, hleading, hsignificant⟩ := h
  refine ⟨?_, hbefore, ?_, ?_⟩
  · simp only [digit, hdigits, List.length_append, List.length_singleton]
    omega
  · simp only [digit, ← List.append_assoc, leadingZeros_concat, hsignificant, hleading]
  · simp [digit, hsignificant, Bool.or_assoc]

theorem readDigits_whole {n : Number} {whole : List Byte} (h : n.Counts whole [])
    (ds : List Byte) : (readDigits true n ds).Counts (whole ++ ds) [] := by
  induction ds generalizing n whole with
  | nil => simpa [readDigits] using h
  | cons b ds ih => simpa [readDigits] using ih (h.digit_whole b)

theorem readDigits_behind {n : Number} {whole behind : List Byte} (h : n.Counts whole behind)
    (ds : List Byte) : (readDigits false n ds).Counts whole (behind ++ ds) := by
  induction ds generalizing n behind with
  | nil => simpa [readDigits] using h
  | cons b ds ih => simpa [readDigits] using ih (h.digit_behind b)

/-- Two recognisers that differ in their states and the counters of the mantissa only. -/
structure SameOutside (n n' : Number) : Prop where
  invalid : n'.invalid = n.invalid
  negative : n'.negative = n.negative
  expNegative : n'.expNegative = n.expNegative
  exp : n'.exp = n.exp
  expDigits : n'.expDigits = n.expDigits
  expOverflow : n'.expOverflow = n.expOverflow

theorem SameOutside.refl (n : Number) : n.SameOutside n := ⟨rfl, rfl, rfl, rfl, rfl, rfl⟩

theorem readDigits_outside (integer : Bool) (ds : List Byte) (n : Number) :
    n.SameOutside (readDigits integer n ds) := by
  induction ds generalizing n with
  | nil => exact .refl n
  | cons b ds ih =>
    obtain ⟨h1, h2, h3, h4, h5, h6⟩ := ih (n.digit b integer)
    exact ⟨h1, h2, h3, h4, h5, h6⟩

theorem readDigits_state (integer : Bool) (ds : List Byte) (n : Number) :
    (readDigits integer n ds).state = n.state := by
  induction ds generalizing n with
  | nil => rfl
  | cons b ds ih => exact ih (n.digit b integer)

theorem readExponent_expDigits (ds : List Byte) (n : Number) :
    (readExponent n ds).expDigits = n.expDigits + ds.length := by
  induction ds generalizing n with
  | nil => rfl
  | cons b ds ih =>
    refine (ih (n.exponent b)).trans ?_
    simp only [exponent, List.length_cons]
    omega

theorem readExponent_overflown (ds : List Byte) {n : Number} (hn : n.expOverflow = true) :
    (readExponent n ds).expOverflow = true := by
  induction ds generalizing n with
  | nil => exact hn
  | cons b ds ih => exact ih (by simp [exponent, hn])

/-- The exponent is exact up to `i64::MAX`; above that it is known to be too large. -/
theorem readExponent_eq (ds : List Byte) {n : Number} (hn : n.expOverflow = false)
    (hexp : n.exp ≤ i64Max) :
    let value := (ds.map digitValue).foldl (fun value d => value * 10 + d) n.exp
    (readExponent n ds).expOverflow = decide (i64Max < value) ∧
      (value ≤ i64Max → (readExponent n ds).exp = value) := by
  induction ds generalizing n with
  | nil => exact ⟨by simpa [readExponent, hn] using hexp, fun _ => rfl⟩
  | cons b ds ih =>
    by_cases hvalue : n.exp * 10 + digitValue b ≤ i64Max
    · have hvalue' : n.exp * 10 + (b - 48).toNat ≤ i64Max := hvalue
      have hstep : (n.exponent b).exp = n.exp * 10 + digitValue b := by
        simp only [exponent, if_pos hvalue']
        rfl
      have hrest := ih (n := n.exponent b) (by simp only [exponent, hn, hvalue']; rfl)
        (by rw [hstep]; exact hvalue)
      rw [hstep] at hrest
      exact hrest
    · have hvalue' : ¬ n.exp * 10 + (b - 48).toNat ≤ i64Max := hvalue
      have hover : (n.exponent b).expOverflow = true := by
        simp only [exponent, hn, hvalue']
        rfl
      have hle := Decimal.le_foldl (ds.map digitValue) (n.exp * 10 + digitValue b)
      have hlt : i64Max < ((b :: ds).map digitValue).foldl
          (fun value d => value * 10 + d) n.exp := by
        rw [List.map_cons, List.foldl_cons]
        omega
      refine ⟨?_, fun h => absurd h (Nat.not_le.mpr hlt)⟩
      rw [decide_eq_true hlt]
      exact readExponent_overflown ds hover

theorem readExponent_outside (ds : List Byte) (n : Number) :
    (readExponent n ds).state = n.state ∧ (readExponent n ds).invalid = n.invalid ∧
      (readExponent n ds).negative = n.negative ∧
      (readExponent n ds).expNegative = n.expNegative ∧
      (∀ whole behind, n.Counts whole behind → (readExponent n ds).Counts whole behind) := by
  induction ds generalizing n with
  | nil => exact ⟨rfl, rfl, rfl, rfl, fun _ _ h => h⟩
  | cons b ds ih =>
    obtain ⟨h1, h2, h3, h4, h5⟩ := ih (n.exponent b)
    exact ⟨h1, h2, h3, h4, fun _ _ h => h5 _ _ ⟨h.digits, h.beforeDot, h.leading, h.significant⟩⟩

/-! ## The parts of a numeral -/

section Parts
variable {n : Number} (hn : n.invalid = false)
include hn

theorem run_before (hs : n.state = .blank) {bytes : List Byte} (h : Blank bytes) :
    n.run bytes = n := by
  induction bytes with
  | nil => rfl
  | cons b bytes ih =>
    have hpush : n.push b = n := by
      rw [push_space hn (h b List.mem_cons_self), hs]
      obtain ⟨⟩ := n
      subst hs hn
      rfl
    rw [run_cons, hpush, ih fun b hb => h b (List.mem_cons_of_mem _ hb)]

theorem run_whole (hs : n.state = .blank ∨ n.state = .signed ∨ n.state = .whole)
    {ds : List Byte} (h : AsciiDigits ds) (hne : ds ≠ []) :
    n.run ds = readDigits true { n with state := .whole } ds := by
  induction ds generalizing n with
  | nil => exact absurd rfl hne
  | cons b ds ih =>
    rw [run_cons, push_whole hn hs (h b List.mem_cons_self)]
    by_cases hnil : ds = []
    · subst hnil
      rfl
    · exact ih hn (.inr (.inr rfl)) (fun b hb => h b (List.mem_cons_of_mem _ hb)) hnil

theorem run_fraction (hs : n.state = .fraction) {ds : List Byte} (h : AsciiDigits ds) :
    n.run ds = readDigits false n ds := by
  induction ds generalizing n with
  | nil => rfl
  | cons b ds ih =>
    rw [run_cons, push_fraction hn hs (h b List.mem_cons_self)]
    exact ih hn hs fun b hb => h b (List.mem_cons_of_mem _ hb)

theorem run_exponent
    (hs : n.state = .marked ∨ n.state = .exponentSigned ∨ n.state = .exponent)
    {ds : List Byte} (h : AsciiDigits ds) (hne : ds ≠ []) :
    n.run ds = readExponent { n with state := .exponent } ds := by
  induction ds generalizing n with
  | nil => exact absurd rfl hne
  | cons b ds ih =>
    rw [run_cons, push_exponent hn hs (h b List.mem_cons_self)]
    by_cases hnil : ds = []
    · subst hnil
      rfl
    · exact ih hn (.inr (.inr rfl)) (fun b hb => h b (List.mem_cons_of_mem _ hb)) hnil

theorem run_after (hs : n.state = .whole ∨ n.state = .fraction ∨ n.state = .exponent ∨
    n.state = .trailing) {bytes : List Byte} (h : Blank bytes) :
    n.run bytes = if bytes = [] then n else { n with state := .trailing } := by
  induction bytes generalizing n with
  | nil => rfl
  | cons b bytes ih =>
    have hpush : n.push b = { n with state := .trailing } := by
      rw [push_space hn (h b List.mem_cons_self)]
      obtain ⟨⟩ := n
      subst hn
      rcases hs with rfl | rfl | rfl | rfl <;> rfl
    have hrest := ih (n := { n with state := .trailing }) hn (.inr (.inr (.inr rfl)))
      fun b hb => h b (List.mem_cons_of_mem _ hb)
    rw [run_cons, hpush, hrest, if_neg (List.cons_ne_nil b bytes)]
    split <;> rfl

end Parts

/-- What the recogniser has read once it is behind a mantissa. -/
structure ReadMantissa (m : Mantissa) (n : Number) : Prop where
  valid : n.invalid = false
  counts : n.Counts m.whole (m.fraction.getD [])
  negative : n.negative = (m.sign == some .minus)
  expNegative : n.expNegative = false
  exp : n.exp = 0
  expDigits : n.expDigits = 0
  expOverflow : n.expOverflow = false
  state : m.digits ≠ [] → n.state = .whole ∨ n.state = .fraction

/-- The digits in front of the point, if there are any. -/
theorem run_wholePart {n : Number} (hn : n.invalid = false)
    (hs : n.state = .blank ∨ n.state = .signed) (hcounts : n.Counts [] []) {ds : List Byte}
    (h : AsciiDigits ds) :
    n.SameOutside (n.run ds) ∧ (n.run ds).Counts ds [] ∧
      ((n.run ds).state = .blank ∨ (n.run ds).state = .signed ∨ (n.run ds).state = .whole) ∧
      (ds ≠ [] → (n.run ds).state = .whole) := by
  by_cases hnil : ds = []
  · subst hnil
    refine ⟨.refl n, hcounts, ?_, fun h => absurd rfl h⟩
    rcases hs with hs | hs
    · exact .inl hs
    · exact .inr (.inl hs)
  · have hs' : n.state = .blank ∨ n.state = .signed ∨ n.state = .whole := by
      rcases hs with hs | hs
      · exact .inl hs
      · exact .inr (.inl hs)
    have hcounts' : ({ n with state := .whole } : Number).Counts [] [] :=
      ⟨hcounts.digits, hcounts.beforeDot, hcounts.leading, hcounts.significant⟩
    have hstate := readDigits_state true ds { n with state := .whole }
    obtain ⟨h1, h2, h3, h4, h5, h6⟩ := readDigits_outside true ds { n with state := .whole }
    rw [run_whole hn hs' h hnil]
    exact ⟨⟨h1, h2, h3, h4, h5, h6⟩, readDigits_whole hcounts' ds, .inr (.inr hstate),
      fun _ => hstate⟩

/-- The point and the digits behind it, if there is a point. -/
theorem run_point {n : Number} (hn : n.invalid = false) (m : Mantissa)
    (hs : n.state = .blank ∨ n.state = .signed ∨ n.state = .whole)
    (hcounts : n.Counts m.whole []) :
    n.SameOutside (n.run m.point) ∧ (n.run m.point).Counts m.whole (m.fraction.getD []) ∧
      (n.run m.point).state = if m.fraction.isSome then .fraction else n.state := by
  have hdigits := m.fraction_digits
  unfold Mantissa.point
  cases hfraction : m.fraction with
  | none => exact ⟨.refl n, hcounts, rfl⟩
  | some ds =>
    rw [hfraction, Option.getD_some] at hdigits
    have hcounts' : ({ n with state := .fraction } : Number).Counts m.whole [] :=
      ⟨hcounts.digits, hcounts.beforeDot, hcounts.leading, hcounts.significant⟩
    have hstate := readDigits_state false ds { n with state := .fraction }
    obtain ⟨h1, h2, h3, h4, h5, h6⟩ := readDigits_outside false ds { n with state := .fraction }
    dsimp only
    rw [run_cons, push_point hn hs, 
      run_fraction (n := { n with state := .fraction }) hn rfl hdigits]
    exact ⟨⟨h1, h2, h3, h4, h5, h6⟩, readDigits_behind hcounts' ds, hstate⟩

theorem run_mantissa (m : Mantissa) : (new.run m.bytes).ReadMantissa m := by
  have hbefore : new.run m.before = new := run_before rfl rfl m.before_blank
  obtain ⟨state, hstate, hsign⟩ : ∃ state, (state = .blank ∨ state = .signed) ∧
      new.run (signBytes m.sign) =
        { new with negative := m.sign == some .minus, state := state } := by
    cases hs : m.sign with
    | none => exact ⟨.blank, .inl rfl, rfl⟩
    | some sign =>
      refine ⟨.signed, .inr rfl, ?_⟩
      change new.push sign.byte = _
      rw [push_sign rfl rfl]
      rfl
  rw [Mantissa.bytes, run_append, run_append, run_append, hbefore, hsign]
  generalize hn : ({ new with negative := m.sign == some .minus, state := state } : Number) = n
  have hinvalid : n.invalid = false := by rw [← hn]; rfl
  have hcounts : n.Counts [] [] := by rw [← hn]; exact ⟨rfl, rfl, rfl, rfl⟩
  obtain ⟨hsame, hcounts', hstate', hwhole⟩ :=
    run_wholePart hinvalid (by rw [← hn]; exact hstate) hcounts m.whole_digits
  have hinvalid' := hsame.invalid.trans hinvalid
  obtain ⟨hsame', hcounts'', hstate''⟩ := run_point hinvalid' m hstate' hcounts'
  refine ⟨hsame'.invalid.trans hinvalid', hcounts'', ?_, ?_, ?_, ?_, ?_, ?_⟩
  · rw [hsame'.negative, hsame.negative, ← hn]
  · rw [hsame'.expNegative, hsame.expNegative, ← hn]
    rfl
  · rw [hsame'.exp, hsame.exp, ← hn]
    rfl
  · rw [hsame'.expDigits, hsame.expDigits, ← hn]
    rfl
  · rw [hsame'.expOverflow, hsame.expOverflow, ← hn]
    rfl
  · intro hne
    rw [hstate'']
    cases hfraction : m.fraction with
    | some ds => exact .inr rfl
    | none =>
      refine .inl (hwhole fun hnil => hne ?_)
      rw [Mantissa.digits, hnil, hfraction]
      rfl

/-- What the recogniser knows of a numeral. -/
structure Recognised (m : Numeral) (n : Number) : Prop where
  valid : n.invalid = false
  accepted : n.rejected = false
  counts : n.Counts m.mantissa.whole (m.mantissa.fraction.getD [])
  negative : n.negative = (m.mantissa.sign == some .minus)
  expOverflow : n.expOverflow = decide (i64Max < m.exponentAbs)
  exponent : m.exponentAbs ≤ i64Max → (if n.expNegative then -(n.exp : ℤ) else n.exp) =
    m.exponentValue

theorem Counts.digits_pos {m : Mantissa} {n : Number}
    (h : n.Counts m.whole (m.fraction.getD [])) (hne : m.digits ≠ []) : 0 < n.digits := by
  have hpos := List.length_pos_of_ne_nil hne
  rw [Mantissa.digits, List.length_append] at hpos
  rw [h.digits]
  exact hpos

/-- The digits of the exponent complete a numeral. -/
theorem readExponent_recognised {m : Numeral} {e : Exponent} (he : m.exponent = some e)
    {n : Number} (hstate : n.state = .exponent)
    (hvalid : n.invalid = false)
    (hcounts : n.Counts m.mantissa.whole (m.mantissa.fraction.getD []))
    (hnegative : n.negative = (m.mantissa.sign == some .minus))
    (hexpNegative : n.expNegative = (e.sign == some .minus)) (hexp : n.exp = 0)
    (hover : n.expOverflow = false) : (readExponent n e.digits).Recognised m := by
  have habs : m.exponentAbs = digitsValue e.digits := by simp [Numeral.exponentAbs, he]
  obtain ⟨hstate', hvalid', hnegative', hexpNegative', hcounts'⟩ := readExponent_outside e.digits n
  obtain ⟨hoverflow, hvalue⟩ := readExponent_eq e.digits hover (by omega)
  have hnatural : (e.digits.map digitValue).foldl (fun value d => value * 10 + d) n.exp =
      digitsValue e.digits := by
    rw [hexp]
    rfl
  rw [hnatural] at hoverflow hvalue
  refine ⟨hvalid'.trans hvalid, ?_, hcounts' _ _ hcounts, hnegative'.trans hnegative, ?_, ?_⟩
  · have hexpDigits : (readExponent n e.digits).expDigits ≠ 0 := by
      have := List.length_pos_of_ne_nil e.nonempty
      rw [readExponent_expDigits]
      omega
    have hdigits : (readExponent n e.digits).digits ≠ 0 := by
      have := (hcounts' _ _ hcounts).digits_pos m.nonempty
      omega
    simp [rejected, hvalid', hvalid, hstate', hstate, hexpDigits, hdigits]
  · rw [hoverflow, habs]
  · intro h
    rw [habs] at h
    rw [hvalue h, hexpNegative', hexpNegative]
    simp only [Numeral.exponentValue, he, Option.map_some, Option.getD_some, applySign, beq_iff_eq]

theorem run_exponentBytes (m : Numeral) {n : Number} (hn : n.ReadMantissa m.mantissa) :
    ((n.run m.exponentBytes).Recognised m) ∧ ((n.run m.exponentBytes).state = .whole ∨
      (n.run m.exponentBytes).state = .fraction ∨ (n.run m.exponentBytes).state = .exponent) := by
  have hstate := hn.state m.nonempty
  have hdigits : 0 < n.digits := hn.counts.digits_pos m.nonempty
  unfold Numeral.exponentBytes
  cases he : m.exponent with
  | none =>
    have habs : m.exponentAbs = 0 := by simp [Numeral.exponentAbs, he]
    have hvalue : m.exponentValue = 0 := by simp [Numeral.exponentValue, he]
    change n.Recognised m ∧ (n.state = .whole ∨ n.state = .fraction ∨ n.state = .exponent)
    refine ⟨⟨hn.valid, ?_, hn.counts, hn.negative, ?_, fun _ => ?_⟩, by tauto⟩
    · have hpos : n.digits ≠ 0 := by omega
      rcases hstate with hs | hs <;> simp [rejected, hn.valid, hs, hpos]
    · rw [hn.expOverflow, habs]
      rfl
    · rw [hn.expNegative, hn.exp, hvalue]
      rfl
  | some e =>
    obtain ⟨state, hstate', hsign⟩ : ∃ state, (state = .marked ∨ state = .exponentSigned) ∧
        (n.push e.mark).run (signBytes e.sign) =
          { n with expNegative := e.sign == some .minus, state := state } := by
      rw [push_mark hn.valid hstate hdigits e.isMark]
      cases hs : e.sign with
      | none =>
        refine ⟨.marked, .inl rfl, ?_⟩
        have hexp := hn.expNegative
        obtain ⟨⟩ := n
        subst hexp
        rfl
      | some sign =>
        refine ⟨.exponentSigned, .inr rfl, ?_⟩
        change ({ n with state := .marked } : Number).push sign.byte = _
        rw [push_exponentSign (n := { n with state := .marked }) hn.valid rfl]
        rfl
    have hs : state = .marked ∨ state = .exponentSigned ∨ state = .exponent := by tauto
    have hrun := run_exponent (n := { n with expNegative := e.sign == some .minus, state := state })
      hn.valid hs e.isDigits e.nonempty
    rw [Option.map_some, Option.getD_some, Exponent.bytes, List.cons_append, run_cons, run_append,
      hsign, hrun]
    refine ⟨readExponent_recognised he rfl hn.valid ?_ hn.negative rfl hn.exp hn.expOverflow,
      .inr (.inr (readExponent_outside _ _).1)⟩
    exact ⟨hn.counts.digits, hn.counts.beforeDot, hn.counts.leading, hn.counts.significant⟩

theorem run_numeral (m : Numeral) : (new.run m.bytes).Recognised m := by
  rw [Numeral.bytes, run_append, run_append]
  obtain ⟨hread, hstate⟩ := run_exponentBytes m (run_mantissa m.mantissa)
  generalize ((new.run m.mantissa.bytes).run m.exponentBytes) = n at hread hstate
  rw [run_after hread.valid (by tauto) m.after_blank]
  split
  · exact hread
  · obtain ⟨hvalid, haccepted, hcounts, hnegative, hoverflow, hexponent⟩ := hread
    refine ⟨hvalid, ?_, ⟨hcounts.digits, hcounts.beforeDot, hcounts.leading,
      hcounts.significant⟩, hnegative, hoverflow, hexponent⟩
    simp only [rejected, Bool.or_eq_false_iff] at haccepted ⊢
    simp [haccepted]

/-! ## Back from what was accepted -/

/-- Everything a byte can do short of being refused. -/
inductive Pushes (n : Number) (b : Byte) : Number → Prop
  | before (hs : n.state = .blank) (hb : isAsciiWhitespace b) : Pushes n b n
  | after (hs : n.state = .whole ∨ n.state = .fraction ∨ n.state = .exponent ∨
      n.state = .trailing) (hb : isAsciiWhitespace b) : Pushes n b { n with state := .trailing }
  | sign (hs : n.state = .blank) (sign : Sign) (hb : b = sign.byte) :
      Pushes n b { n with negative := sign == .minus, state := .signed }
  | point (hs : n.state = .blank ∨ n.state = .signed ∨ n.state = .whole) (hb : b = 46) :
      Pushes n b { n with state := .fraction }
  | whole (hs : n.state = .blank ∨ n.state = .signed ∨ n.state = .whole) (hb : isAsciiDigit b) :
      Pushes n b (({ n with state := .whole } : Number).digit b true)
  | fraction (hs : n.state = .fraction) (hb : isAsciiDigit b) : Pushes n b (n.digit b false)
  | mark (hs : n.state = .signed ∨ n.state = .whole ∨ n.state = .fraction)
      (hb : isExponentMark b) : Pushes n b { n with state := .marked }
  | exponentSign (hs : n.state = .marked) (sign : Sign) (hb : b = sign.byte) :
      Pushes n b { n with expNegative := sign == .minus, state := .exponentSigned }
  | exponent (hs : n.state = .marked ∨ n.state = .exponentSigned ∨ n.state = .exponent)
      (hb : isAsciiDigit b) :
      Pushes n b (({ n with state := .exponent } : Number).exponent b)

theorem sign_of_byte {b : Byte} (h : b = 43 ∨ b = 45) :
    ∃ sign : Sign, b = sign.byte ∧ (b == 45) = (sign == .minus) := by
  rcases h with rfl | rfl
  · exact ⟨.plus, rfl, rfl⟩
  · exact ⟨.minus, rfl, rfl⟩

theorem push_pushes {n : Number} {b : Byte} (hn : n.invalid = false)
    (h : (n.push b).invalid = false) : Pushes n b (n.push b) := by
  by_cases hspace : isAsciiWhitespace b
  · rw [push_space hn hspace] at h ⊢
    obtain ⟨state⟩ := n
    simp only [Bool.or_eq_false_iff, beq_eq_false_iff_ne] at h hn
    subst hn
    cases state with
    | blank => exact .before rfl hspace
    | whole => exact .after (.inl rfl) hspace
    | fraction => exact .after (.inr (.inl rfl)) hspace
    | exponent => exact .after (.inr (.inr (.inl rfl))) hspace
    | trailing => exact .after (.inr (.inr (.inr rfl))) hspace
    | signed | marked | exponentSigned => simp at h
  · unfold push at h ⊢
    rw [if_neg (by simp [hn]), if_neg hspace] at h ⊢
    cases hs : n.state <;> simp only [hs] at h ⊢
    case blank =>
      split_ifs at h ⊢ with hsign hpoint hdigit
      · obtain ⟨sign, hbyte, hminus⟩ := sign_of_byte hsign
        rw [hminus]
        exact .sign hs sign hbyte
      · exact .point (.inl hs) hpoint
      · exact .whole (.inl hs) hdigit
    case signed =>
      split_ifs at h ⊢ with hdigit hpoint hmark
      · exact .whole (.inr (.inl hs)) hdigit
      · exact .point (.inr (.inl hs)) hpoint
      · exact .mark (.inl hs) hmark.1
    case whole =>
      split_ifs at h ⊢ with hdigit hpoint hmark
      · exact .whole (.inr (.inr hs)) hdigit
      · exact .point (.inr (.inr hs)) hpoint
      · exact .mark (.inr (.inl hs)) hmark.1
    case fraction =>
      split_ifs at h ⊢ with hdigit hmark
      · exact .fraction hs hdigit
      · exact .mark (.inr (.inr hs)) hmark.1
    case marked =>
      split_ifs at h ⊢ with hsign hdigit
      · obtain ⟨sign, hbyte, hminus⟩ := sign_of_byte hsign
        rw [hminus]
        exact .exponentSign hs sign hbyte
      · exact .exponent (.inl hs) hdigit
    case exponentSigned =>
      split_ifs at h ⊢ with hdigit
      exact .exponent (.inr (.inl hs)) hdigit
    case exponent =>
      split_ifs at h ⊢ with hdigit
      exact .exponent (.inr (.inr hs)) hdigit
    case trailing => cases h

/-- What has been read in each state, when nothing has been refused. -/
def Shape (bytes : List Byte) (n : Number) : Prop :=
  ∃ m : Mantissa, n.digits = m.digits.length ∧
    match n.state with
    | .blank => m.sign = none ∧ m.whole = [] ∧ m.fraction = none ∧ bytes = m.bytes
    | .signed | .whole => m.fraction = none ∧ bytes = m.bytes
    | .fraction => m.fraction.isSome ∧ bytes = m.bytes
    | .marked => ∃ mark, isExponentMark mark ∧ bytes = m.bytes ++ [mark]
    | .exponentSigned => ∃ mark, ∃ sign : Sign, isExponentMark mark ∧
        bytes = m.bytes ++ [mark, sign.byte]
    | .exponent => ∃ e : Exponent, bytes = m.bytes ++ e.bytes
    | .trailing => ∃ e : Option Exponent, ∃ after, Blank after ∧
        bytes = m.bytes ++ (e.map Exponent.bytes).getD [] ++ after

theorem new_shape : Shape [] new :=
  ⟨⟨[], none, [], none, by simp [Blank], by simp [AsciiDigits], by simp [AsciiDigits]⟩,
    rfl, rfl, rfl, rfl, rfl⟩

theorem all_concat {p : Byte → Bool} {bytes : List Byte} {b : Byte} (h : ∀ c ∈ bytes, p c)
    (hb : p b) : ∀ c ∈ bytes ++ [b], p c := by
  intro c hc
  rcases List.mem_append.mp hc with hc | hc
  · exact h c hc
  · rwa [List.mem_singleton.mp hc]

theorem Pushes.shape {n n' : Number} {b : Byte} {bytes : List Byte} (h : Pushes n b n')
    (hn : n.Shape bytes) : n'.Shape (bytes ++ [b]) := by
  obtain ⟨m, hdigits, hm⟩ := hn
  cases h with
  | before hs hb =>
    rw [hs] at hm
    obtain ⟨hsign, hwhole, hfraction, rfl⟩ := hm
    refine ⟨{ m with before := m.before ++ [b], before_blank := all_concat m.before_blank hb },
      hdigits, ?_⟩
    rw [hs]
    refine ⟨hsign, hwhole, hfraction, ?_⟩
    simp [Mantissa.bytes, Mantissa.point, hsign, hwhole, hfraction, signBytes]
  | after hs hb =>
    refine ⟨m, hdigits, ?_⟩
    rcases hs with hs | hs | hs | hs <;> rw [hs] at hm
    · exact ⟨none, [b], by simpa [Blank] using hb, by simp [hm.2]⟩
    · exact ⟨none, [b], by simpa [Blank] using hb, by simp [hm.2]⟩
    · obtain ⟨e, rfl⟩ := hm
      exact ⟨some e, [b], by simpa [Blank] using hb, by simp⟩
    · obtain ⟨e, after, hafter, rfl⟩ := hm
      exact ⟨e, after ++ [b], all_concat hafter hb, by simp⟩
  | sign hs sign hb =>
    rw [hs] at hm
    obtain ⟨hsign, hwhole, hfraction, rfl⟩ := hm
    refine ⟨{ m with sign := some sign }, hdigits, hfraction, ?_⟩
    simp [Mantissa.bytes, Mantissa.point, hsign, hwhole, hfraction, signBytes, hb]
  | point hs hb =>
    have hm' : m.fraction = none ∧ bytes = m.bytes := by
      rcases hs with hs | hs | hs <;> rw [hs] at hm
      · exact hm.2.2
      · exact hm
      · exact hm
    obtain ⟨hfraction, rfl⟩ := hm'
    refine ⟨{ m with fraction := some [], fraction_digits := by simp [AsciiDigits] }, ?_, rfl, ?_⟩
    · simpa [Mantissa.digits, hfraction] using hdigits
    · simp [Mantissa.bytes, Mantissa.point, hfraction, hb]
  | whole hs hb =>
    have hm' : m.fraction = none ∧ bytes = m.bytes := by
      rcases hs with hs | hs | hs <;> rw [hs] at hm
      · exact hm.2.2
      · exact hm
      · exact hm
    obtain ⟨hfraction, rfl⟩ := hm'
    refine ⟨{ m with whole := m.whole ++ [b], whole_digits := all_concat m.whole_digits hb },
      ?_, hfraction, ?_⟩
    · simpa [Mantissa.digits, hfraction, digit] using hdigits
    · simp [Mantissa.bytes, Mantissa.point, hfraction]
  | fraction hs hb =>
    rw [hs] at hm
    obtain ⟨hfraction, rfl⟩ := hm
    obtain ⟨ds, hds⟩ := Option.isSome_iff_exists.mp hfraction
    have hold := m.fraction_digits
    rw [hds, Option.getD_some] at hold
    refine ⟨{ m with fraction := some (ds ++ [b]), fraction_digits := all_concat hold hb }, ?_, ?_⟩
    · simp only [digit, hdigits, Mantissa.digits, hds, Option.getD_some, List.length_append,
        List.length_singleton]
      omega
    · have hstate : (n.digit b false).state = .fraction := hs
      rw [hstate]
      refine ⟨rfl, ?_⟩
      simp [Mantissa.bytes, Mantissa.point, hds]
  | mark hs hb =>
    have hm' : bytes = m.bytes := by
      rcases hs with hs | hs | hs <;> rw [hs] at hm
      · exact hm.2
      · exact hm.2
      · exact hm.2
    exact ⟨m, hdigits, b, hb, by rw [hm']⟩
  | exponentSign hs sign hb =>
    rw [hs] at hm
    obtain ⟨mark, hmark, rfl⟩ := hm
    exact ⟨m, hdigits, mark, sign, hmark, by simp [hb]⟩
  | exponent hs hb =>
    refine ⟨m, hdigits, ?_⟩
    rcases hs with hs | hs | hs <;> rw [hs] at hm
    · obtain ⟨mark, hmark, rfl⟩ := hm
      exact ⟨⟨mark, none, [b], hmark, by simpa [AsciiDigits] using hb, by simp⟩,
        by simp [Exponent.bytes, signBytes]⟩
    · obtain ⟨mark, sign, hmark, rfl⟩ := hm
      exact ⟨⟨mark, some sign, [b], hmark, by simpa [AsciiDigits] using hb, by simp⟩,
        by simp [Exponent.bytes, signBytes]⟩
    · obtain ⟨e, rfl⟩ := hm
      exact ⟨⟨e.mark, e.sign, e.digits ++ [b], e.isMark, all_concat e.isDigits hb, by simp⟩,
        by simp [Exponent.bytes]⟩

theorem run_shape {bytes : List Byte} (h : (new.run bytes).invalid = false) :
    (new.run bytes).Shape bytes := by
  induction bytes using List.reverseRecOn with
  | nil => exact new_shape
  | append_singleton bytes b ih =>
    have hbefore : (new.run bytes).invalid = false := by
      by_contra hinvalid
      rw [Bool.not_eq_false] at hinvalid
      rw [run_append, run_invalid hinvalid, hinvalid] at h
      cases h
    rw [run_append, run_cons, run_nil] at h ⊢
    exact (push_pushes hbefore h).shape (ih hbefore)

/-- The recogniser accepts numerals only. -/
theorem numeral_of_accepted {bytes : List Byte} (h : (new.run bytes).rejected = false) :
    ∃ m : Numeral, m.bytes = bytes := by
  simp only [rejected, Bool.or_eq_false_iff, beq_eq_false_iff_ne, and_assoc] at h
  obtain ⟨hvalid, hdigits, hsigned, hmarked, hexponentSigned, -⟩ := h
  obtain ⟨m, hcount, hm⟩ := run_shape hvalid
  have hne : m.digits ≠ [] := by
    intro hnil
    rw [hcount, hnil] at hdigits
    exact hdigits rfl
  cases hs : (new.run bytes).state <;> rw [hs] at hm
  case blank =>
    obtain ⟨-, hwhole, hfraction, -⟩ := hm
    exact absurd (by rw [Mantissa.digits, hwhole, hfraction]; rfl) hne
  case signed => exact absurd hs hsigned
  case marked => exact absurd hs hmarked
  case exponentSigned => exact absurd hs hexponentSigned
  case whole =>
    exact ⟨⟨m, none, [], hne, by simp [Blank]⟩, by simp [Numeral.bytes, Numeral.exponentBytes,
      hm.2]⟩
  case fraction =>
    exact ⟨⟨m, none, [], hne, by simp [Blank]⟩, by simp [Numeral.bytes, Numeral.exponentBytes,
      hm.2]⟩
  case exponent =>
    obtain ⟨e, rfl⟩ := hm
    exact ⟨⟨m, some e, [], hne, by simp [Blank]⟩, by simp [Numeral.bytes, Numeral.exponentBytes]⟩
  case trailing =>
    obtain ⟨e, after, hafter, rfl⟩ := hm
    exact ⟨⟨m, e, after, hne, hafter⟩, rfl⟩

/-- The recogniser is still in front of the number exactly on blank bytes. -/
theorem blank_iff (bytes : List Byte) :
    ((new.run bytes).state = .blank ∧ (new.run bytes).invalid = false) ↔ Blank bytes := by
  constructor
  · rintro ⟨hs, hvalid⟩
    obtain ⟨m, -, hm⟩ := run_shape hvalid
    rw [hs] at hm
    obtain ⟨hsign, hwhole, hfraction, rfl⟩ := hm
    have hbytes : m.bytes = m.before := by
      simp [Mantissa.bytes, Mantissa.point, hsign, hwhole, hfraction, signBytes]
    rw [hbytes]
    exact m.before_blank
  · intro h
    rw [run_before rfl rfl h]
    exact ⟨rfl, rfl⟩

end Number

end LeanRows.Sort
