import LeanRows.Engine.Sorted
import LeanRows.Lib.Utf16
import LeanRows.Worker.Document

/-!
# Previews of cells and lines

The bytes of a cell are shown as UTF-16: control characters and bytes that are no UTF-8 are
escaped, and a text behind the limit gives way to a mark of the omission.
-/

namespace LeanRows

set_option autoImplicit false

def maxPreviewUtf16Units : Nat := 1024

/-! ## Reading UTF-8 -/

/-- The code point of a sequence whose first byte says how long it is. -/
def codePoint : List Byte → Nat
  | [a] => a.toNat
  | [a, b] => a.toNat % 32 * 64 + b.toNat % 64
  | [a, b, c] => a.toNat % 16 * 4096 + b.toNat % 64 * 64 + c.toNat % 64
  | [a, b, c, d] =>
    a.toNat % 8 * 262144 + b.toNat % 64 * 4096 + c.toNat % 64 * 64 + d.toNat % 64
  | _ => 0

/-- `std::str::from_utf8` on the bytes behind `pending`, the sequence that has been begun: the
characters up to an error, and with an error its bytes and those behind them. -/
def readUtf8 : List Byte → List (Byte × Byte) → List Byte →
    List Nat × Option (List Byte × List Byte)
  | _, [], [] => ([], none)
  | pending, _ :: _, [] => ([], some (pending, []))
  | _, [], byte :: bytes =>
    match utf8Continuation byte with
    | none => ([], some ([byte], bytes))
    | some [] =>
      let r := readUtf8 [] [] bytes
      (codePoint [byte] :: r.1, r.2)
    | some (range :: ranges) => readUtf8 [byte] (range :: ranges) bytes
  | pending, (low, high) :: ranges, byte :: bytes =>
    if low ≤ byte ∧ byte ≤ high then
      match ranges with
      | [] =>
        let r := readUtf8 [] [] bytes
        (codePoint (pending ++ [byte]) :: r.1, r.2)
      | range :: ranges => readUtf8 (pending ++ [byte]) (range :: ranges) bytes
    else ([], some (pending, byte :: bytes))

/-- `char::is_control`. -/
def isControl (c : Nat) : Bool := decide (c < 0x20) || decide (0x7F ≤ c) && decide (c < 0xA0)

def hexUnit (digit : Nat) : Utf16Unit :=
  UInt16.ofNat (if digit < 10 then 48 + digit else 55 + digit)

/-- The digits of a number, put in front of `digits` from the last one on. -/
def hexDigits : Nat → Nat → List Utf16Unit → List Utf16Unit
  | 0, _, digits => digits
  | fuel + 1, remaining, digits =>
    let digits := hexUnit (remaining % 16) :: digits
    if remaining / 16 = 0 then digits else hexDigits fuel (remaining / 16) digits

/-! ## The builder -/

structure PreviewBuilder where
  units : List Utf16Unit
  limit : Nat
  truncated : Bool
  escapedNonUtf8 : Bool
deriving DecidableEq

namespace PreviewBuilder

def new (limit : Nat) : PreviewBuilder := ⟨[], limit, false, false⟩

/-- What does not fit is left out, also the second unit of a pair. -/
def pushUnits (builder : PreviewBuilder) (units : List Utf16Unit) : PreviewBuilder :=
  let available := builder.limit - builder.units.length
  let retained := min available units.length
  { builder with
    units := builder.units ++ units.take retained
    truncated := builder.truncated || retained != units.length }

def pushAscii (builder : PreviewBuilder) (text : List Utf16Unit) : PreviewBuilder :=
  text.foldl (fun builder unit => builder.pushUnits [unit]) builder

/-- `\u{`, the hexadecimal digits, `}`. -/
def pushControlEscape (builder : PreviewBuilder) (character : Nat) : PreviewBuilder :=
  ((builder.pushAscii [92, 117, 123]).pushUnits (hexDigits 6 character [])).pushAscii [125]

/-- `\x` and two digits. -/
def pushHexByte (builder : PreviewBuilder) (byte : Byte) : PreviewBuilder :=
  { builder with escapedNonUtf8 := true }.pushUnits
    [92, 120, hexUnit (byte.toNat / 16), hexUnit (byte.toNat % 16)]

def pushCharacter (builder : PreviewBuilder) (character : Nat) : PreviewBuilder :=
  if character = 10 then builder.pushAscii [92, 110]
  else if character = 13 then builder.pushAscii [92, 114]
  else if character = 9 then builder.pushAscii [92, 116]
  else if character = 0 then builder.pushAscii [92, 48]
  else if isControl character then builder.pushControlEscape character
  else builder.pushUnits (Utf16.encode character)

def pushValid (builder : PreviewBuilder) (text : List Nat) : PreviewBuilder :=
  text.foldl pushCharacter builder

/-- The loop of `push_bytes`; every turn but the last takes bytes away. -/
def pushBytesLoop : Nat → PreviewBuilder → List Byte → PreviewBuilder
  | 0, builder, _ => builder
  | fuel + 1, builder, bytes =>
    if bytes.isEmpty then builder
    else
      match readUtf8 [] [] bytes with
      | (text, none) => builder.pushValid text
      | (text, some (invalid, rest)) =>
        pushBytesLoop fuel (invalid.foldl pushHexByte (builder.pushValid text)) rest

def pushBytes (builder : PreviewBuilder) (bytes : List Byte) : PreviewBuilder :=
  builder.pushBytesLoop bytes.length bytes

/-- A blank and three dots. -/
def marker : List Utf16Unit := [32, 46, 46, 46]

def finish (builder : PreviewBuilder) (omissionMarker : Bool) : Utf16Cell :=
  let units :=
    if omissionMarker || builder.truncated then
      if marker.length ≤ builder.limit then
        builder.units.take (builder.limit - marker.length) ++ marker
      else builder.units
    else builder.units
  units ++ [0]

end PreviewBuilder

/-- A cell's preview as `build_cached_row` and `build_xlsx_row` make it. -/
def previewField : PreviewEncoder := fun bytes omissionMarker =>
  let builder := (PreviewBuilder.new maxPreviewUtf16Units).pushBytes bytes
  ⟨builder.finish omissionMarker, builder.truncated, builder.escapedNonUtf8⟩

-- a, a line end, U+1F600 and a lone continuation byte
example : (previewField [97, 10, 0xF0, 0x9F, 0x98, 0x80, 0x80] false).units =
    [97, 92, 110, 0xD83D, 0xDE00, 92, 120, 56, 48, 0] := by decide

/-! ## What the bytes read as -/

/-- Either a character of the bytes or a byte that belongs to none. -/
inductive PreviewPiece where
  | character (value : Nat)
  | invalid (byte : Byte)
deriving DecidableEq, Repr

def characterUnits (c : Nat) : List Utf16Unit :=
  if c = 10 then [92, 110]
  else if c = 13 then [92, 114]
  else if c = 9 then [92, 116]
  else if c = 0 then [92, 48]
  else if isControl c then [92, 117, 123] ++ hexDigits 6 c [] ++ [125]
  else Utf16.encode c

namespace PreviewPiece

def units : PreviewPiece → List Utf16Unit
  | .character c => characterUnits c
  | .invalid byte => [92, 120, hexUnit (byte.toNat / 16), hexUnit (byte.toNat % 16)]

/-- A character that takes a surrogate pair. -/
def Supplementary : PreviewPiece → Prop
  | .character c => 0x10000 ≤ c
  | .invalid _ => False

end PreviewPiece

/-- The pieces of the bytes, in their order. -/
def piecesFrom : Nat → List Byte → List PreviewPiece
  | 0, _ => []
  | fuel + 1, bytes =>
    if bytes.isEmpty then []
    else
      match readUtf8 [] [] bytes with
      | (text, none) => text.map .character
      | (text, some (invalid, rest)) =>
        text.map .character ++ invalid.map .invalid ++ piecesFrom fuel rest

def pieces (bytes : List Byte) : List PreviewPiece := piecesFrom bytes.length bytes

def unlimitedUnits (ps : List PreviewPiece) : List Utf16Unit := ps.flatMap PreviewPiece.units

theorem unlimitedUnits_append (ps qs : List PreviewPiece) :
    unlimitedUnits (ps ++ qs) = unlimitedUnits ps ++ unlimitedUnits qs :=
  List.flatMap_append

/-- The byte lies in the range that the first byte of its sequence leaves it. -/
def InRange (byte : Byte) (range : Byte × Byte) : Prop := range.1 ≤ byte ∧ byte ≤ range.2

/-- A sequence that keeps its ranges is the code point of a character. -/
theorem codePoint_scalar {lead : Byte} {conts : List Byte} {ranges : List (Byte × Byte)}
    (hlead : utf8Continuation lead = some ranges) (hconts : List.Forall₂ InRange conts ranges) :
    Utf16.IsScalar (codePoint (lead :: conts)) := by
  simp only [utf8Continuation, UInt8.le_iff_toNat_le, UInt8.lt_iff_toNat_lt, UInt8.toNat_ofNat,
    ← UInt8.toNat_inj] at hlead
  unfold Utf16.IsScalar
  repeat' split at hlead
  all_goals cases hlead
  · cases hconts
    simp only [codePoint]
    omega
  · rcases hconts with _ | ⟨h₁, _ | _⟩
    simp only [InRange, UInt8.le_iff_toNat_le, UInt8.toNat_ofNat] at h₁
    simp only [codePoint]
    omega
  iterate 3
    rcases hconts with _ | ⟨h₁, _ | ⟨h₂, _ | _⟩⟩
    simp only [InRange, UInt8.le_iff_toNat_le, UInt8.toNat_ofNat] at h₁ h₂
    simp only [codePoint]
    omega
  iterate 3
    rcases hconts with _ | ⟨h₁, _ | ⟨h₂, _ | ⟨h₃, _ | _⟩⟩⟩
    simp only [InRange, UInt8.le_iff_toNat_le, UInt8.toNat_ofNat] at h₁ h₂ h₃
    simp only [codePoint]
    omega

/-- The bytes in hand are the front of a sequence that waits for the ranges left. -/
def Begun (pending : List Byte) (ranges : List (Byte × Byte)) : Prop :=
  ranges = [] ∨ ∃ lead conts done, pending = lead :: conts ∧
    utf8Continuation lead = some (done ++ ranges) ∧ List.Forall₂ InRange conts done

theorem Begun.next {pending : List Byte} {byte : Byte} {range : Byte × Byte}
    {ranges : List (Byte × Byte)} (h : Begun pending (range :: ranges))
    (hbyte : InRange byte range) :
    ∃ lead conts done, pending ++ [byte] = lead :: conts ∧
      utf8Continuation lead = some (done ++ ranges) ∧ List.Forall₂ InRange conts done := by
  rcases h with h | ⟨lead, conts, done, rfl, hlead, hconts⟩
  · cases h
  · refine ⟨lead, conts ++ [byte], done ++ [range], rfl, ?_, ?_⟩
    · rw [hlead, List.append_assoc]
      rfl
    · exact List.rel_append hconts (.cons hbyte .nil)

theorem readUtf8_scalar (bytes : List Byte) : ∀ {pending ranges}, Begun pending ranges →
    ∀ c ∈ (readUtf8 pending ranges bytes).1, Utf16.IsScalar c := by
  induction bytes with
  | nil =>
    intro pending ranges _ c hc
    cases ranges <;> simp [readUtf8] at hc
  | cons byte bytes ih =>
    intro pending ranges hbegun c hc
    cases ranges with
    | nil =>
      simp only [readUtf8] at hc
      split at hc
      · cases hc
      · rename_i hlead
        rcases List.mem_cons.mp hc with rfl | hc
        · exact codePoint_scalar hlead .nil
        · exact ih (.inl rfl) c hc
      · rename_i range ranges hlead
        exact ih (.inr ⟨byte, [], [], rfl, hlead, .nil⟩) c hc
    | cons range ranges =>
      obtain ⟨low, high⟩ := range
      unfold readUtf8 at hc
      split at hc
      · rename_i hrange
        obtain ⟨lead, conts, done, hpending, hlead, hconts⟩ := hbegun.next hrange
        split at hc
        · rcases List.mem_cons.mp hc with rfl | hc
          · rw [hpending]
            exact codePoint_scalar hlead (by rwa [List.append_nil])
          · exact ih (.inl rfl) c hc
        · exact ih (.inr ⟨lead, conts, done, hpending, hlead, hconts⟩) c hc
      · cases hc

/-- A piece whose character is no half of a surrogate pair. -/
def PreviewPiece.Scalar : PreviewPiece → Prop
  | .character c => Utf16.IsScalar c
  | .invalid _ => True

theorem pieces_scalar (bytes : List Byte) : ∀ piece ∈ pieces bytes, piece.Scalar := by
  suffices h : ∀ fuel bytes, ∀ piece ∈ piecesFrom fuel bytes, piece.Scalar from h _ bytes
  intro fuel
  induction fuel with
  | zero =>
    intro bytes piece hpiece
    cases hpiece
  | succ fuel ih =>
    intro bytes piece hpiece
    have hscalar := readUtf8_scalar bytes (.inl rfl : Begun [] [])
    rw [piecesFrom] at hpiece
    split at hpiece
    · cases hpiece
    rcases hread : readUtf8 [] [] bytes with ⟨text, _ | ⟨invalid, rest⟩⟩
    · rw [hread] at hpiece hscalar
      obtain ⟨c, hc, rfl⟩ := List.mem_map.mp hpiece
      exact hscalar c hc
    · rw [hread] at hpiece hscalar
      simp only [List.mem_append, List.mem_map] at hpiece
      rcases hpiece with (⟨c, hc, rfl⟩ | ⟨byte, -, rfl⟩) | hpiece
      · exact hscalar c hc
      · trivial
      · exact ih rest piece hpiece

/-! ### The units of a piece -/

/-- Units of the basic plane, none of them a terminator. -/
def Escaped (units : List Utf16Unit) : Prop :=
  ∀ unit ∈ units, Utf16.isHigh unit = false ∧ Utf16.isLow unit = false ∧ unit ≠ 0

instance (units : List Utf16Unit) : Decidable (Escaped units) :=
  List.decidableBAll _ units

theorem hexUnit_escaped {digit : Nat} (h : digit < 16) : Escaped [hexUnit digit] := by
  revert digit
  decide

theorem Escaped.nil : Escaped [] := fun unit hunit => by cases hunit

theorem Escaped.append {front back : List Utf16Unit} (hfront : Escaped front)
    (hback : Escaped back) : Escaped (front ++ back) := by
  intro unit hunit
  rcases List.mem_append.mp hunit with hunit | hunit
  · exact hfront unit hunit
  · exact hback unit hunit

theorem hexDigits_escaped (fuel n : Nat) {digits : List Utf16Unit} (h : Escaped digits) :
    Escaped (hexDigits fuel n digits) := by
  induction fuel generalizing n digits with
  | zero => exact h
  | succ fuel ih =>
    have hnext : Escaped (hexUnit (n % 16) :: digits) :=
      (hexUnit_escaped (Nat.mod_lt n (by decide))).append h
    rw [hexDigits]
    split
    · exact hnext
    · exact ih _ hnext

/-- A piece is shown by units of the basic plane, or it is a character shown by its pair. -/
theorem PreviewPiece.units_cases {piece : PreviewPiece} (h : piece.Scalar) :
    (¬ piece.Supplementary ∧ Escaped piece.units) ∨
      piece.Supplementary ∧ ∃ high low, piece.units = [high, low] ∧
        Utf16.isHigh high = true ∧ Utf16.isLow low = true ∧ Utf16.isHigh low = false ∧
        high ≠ 0 ∧ low ≠ 0 := by
  cases piece with
  | invalid byte =>
    have hdigits : Escaped ([92, 120] ++ [hexUnit (byte.toNat / 16)] ++
        [hexUnit (byte.toNat % 16)]) := by
      have hbyte := byte.toNat_lt
      refine (Escaped.append (by decide) (hexUnit_escaped ?_)).append (hexUnit_escaped ?_)
      · omega
      · omega
    exact .inl ⟨not_false, hdigits⟩
  | character c =>
    have hescape : ∀ units, Escaped units → c < 0x10000 → ¬ 0x10000 ≤ c ∧ Escaped units :=
      fun units hunits hc => ⟨Nat.not_le.mpr hc, hunits⟩
    change (¬ 0x10000 ≤ c ∧ Escaped (characterUnits c)) ∨ 0x10000 ≤ c ∧
      ∃ high low, characterUnits c = [high, low] ∧ _
    unfold characterUnits
    by_cases hlf : c = 10
    · exact .inl (by rw [if_pos hlf]; exact hescape _ (by decide) (by omega))
    by_cases hcr : c = 13
    · exact .inl (by rw [if_neg hlf, if_pos hcr]; exact hescape _ (by decide) (by omega))
    by_cases htab : c = 9
    · exact .inl (by rw [if_neg hlf, if_neg hcr, if_pos htab]
                     exact hescape _ (by decide) (by omega))
    by_cases hnul : c = 0
    · exact .inl (by rw [if_neg hlf, if_neg hcr, if_neg htab, if_pos hnul]
                     exact hescape _ (by decide) (by omega))
    rw [if_neg hlf, if_neg hcr, if_neg htab, if_neg hnul]
    by_cases hcontrol : isControl c = true
    · rw [if_pos hcontrol]
      have hsmall : c < 0x10000 := by
        simp only [isControl, Bool.or_eq_true, Bool.and_eq_true, decide_eq_true_eq] at hcontrol
        omega
      have hdigits := hexDigits_escaped 6 c Escaped.nil
      exact .inl (hescape _ ((Escaped.append (by decide) hdigits).append (by decide)) hsmall)
    rw [if_neg hcontrol]
    rcases Utf16.encode_cases h with ⟨hc, hplain, -⟩ | ⟨hc, high, low, hpair, hhigh, -, hlow, hnot⟩
    · refine .inl (hescape _ (fun unit hunit => ?_) hc)
      obtain ⟨hhigh, hlow⟩ := hplain unit hunit
      refine ⟨hhigh, hlow, ?_⟩
      rintro rfl
      rw [Utf16.encode, if_pos hc, List.mem_singleton] at hunit
      have hzero := congrArg UInt16.toNat hunit
      rw [UInt16.toNat_ofNat', Nat.mod_eq_of_lt hc] at hzero
      exact hnul hzero.symm
    · refine .inr ⟨hc, high, low, hpair, hhigh, hlow, hnot, ?_, ?_⟩
      · rintro rfl
        cases hhigh
      · rintro rfl
        cases hlow

/-- The whole text is well formed and has no terminator. -/
theorem unlimitedUnits_wellFormed {ps : List PreviewPiece} (h : ∀ piece ∈ ps, piece.Scalar) :
    Utf16.wellFormed (unlimitedUnits ps) = true ∧ ∀ unit ∈ unlimitedUnits ps, unit ≠ 0 := by
  induction ps with
  | nil => exact ⟨rfl, fun unit hunit => by cases hunit⟩
  | cons piece ps ih =>
    obtain ⟨hrest, hzero⟩ := ih fun other hother => h other (List.mem_cons_of_mem _ hother)
    have hsplit : unlimitedUnits (piece :: ps) = piece.units ++ unlimitedUnits ps := rfl
    rw [hsplit]
    rcases piece.units_cases (h piece List.mem_cons_self) with
      ⟨-, hescaped⟩ | ⟨-, high, low, hpair, hhigh, hlow, -, hne, hne'⟩
    · refine ⟨?_, fun unit hunit => ?_⟩
      · have hplain : Utf16.Plain piece.units :=
          fun unit hunit => ⟨(hescaped unit hunit).1, (hescaped unit hunit).2.1⟩
        rw [hplain.append, hrest]
      · rcases List.mem_append.mp hunit with hunit | hunit
        · exact (hescaped unit hunit).2.2
        · exact hzero unit hunit
    · rw [hpair]
      refine ⟨(Utf16.wellFormed_pair hhigh hlow).trans hrest, fun unit hunit => ?_⟩
      rcases List.mem_cons.mp hunit with rfl | hunit
      · exact hne
      rcases List.mem_cons.mp hunit with rfl | hunit
      · exact hne'
      · exact hzero unit hunit

/-- A character that takes a pair begins at unit `n` of the text. -/
def PairAt (ps : List PreviewPiece) (n : Nat) : Prop :=
  ∃ front piece back, ps = front ++ piece :: back ∧ piece.Supplementary ∧
    (unlimitedUnits front).length = n

/-- A high surrogate stands where a pair begins and nowhere else. -/
theorem isHigh_iff_pairAt {ps : List PreviewPiece} (h : ∀ piece ∈ ps, piece.Scalar) (n : Nat) :
    (∃ unit, (unlimitedUnits ps)[n]? = some unit ∧ Utf16.isHigh unit = true) ↔ PairAt ps n := by
  induction ps generalizing n with
  | nil =>
    constructor
    · rintro ⟨unit, hunit, -⟩
      cases hunit
    · rintro ⟨front, piece, back, hps, -⟩
      cases front <;> cases hps
  | cons first ps ih =>
    have hrest := ih fun other hother => h other (List.mem_cons_of_mem _ hother)
    have hsplit : unlimitedUnits (first :: ps) = first.units ++ unlimitedUnits ps := rfl
    have hlength : ∀ front, (unlimitedUnits (first :: front)).length =
        first.units.length + (unlimitedUnits front).length := by
      intro front
      exact List.length_append
    have hbehind : PairAt (first :: ps) n →
        (n = 0 ∧ first.Supplementary) ∨
          first.units.length ≤ n ∧ PairAt ps (n - first.units.length) := by
      rintro ⟨_ | ⟨other, front⟩, piece, back, hps, hpair, hn⟩
      · obtain ⟨rfl, rfl⟩ := List.cons.inj hps
        exact .inl ⟨hn.symm, hpair⟩
      · obtain ⟨rfl, rfl⟩ := List.cons.inj hps
        rw [hlength] at hn
        exact .inr ⟨by omega, front, piece, back, rfl, hpair, by omega⟩
    have hahead : first.units.length ≤ n → PairAt ps (n - first.units.length) →
        PairAt (first :: ps) n := by
      rintro hle ⟨front, piece, back, rfl, hpair, hn⟩
      refine ⟨first :: front, piece, back, rfl, hpair, ?_⟩
      rw [hlength, hn]
      omega
    have hskip : first.units.length ≤ n → ¬ (n = 0 ∧ first.Supplementary) →
        ((∃ unit, (unlimitedUnits (first :: ps))[n]? = some unit ∧ Utf16.isHigh unit = true) ↔
          PairAt (first :: ps) n) := by
      intro hle hnot
      rw [hsplit, List.getElem?_append_right hle, hrest]
      exact ⟨hahead hle, fun h => ((hbehind h).resolve_left hnot).2⟩
    rcases first.units_cases (h first List.mem_cons_self) with
      ⟨hnot, hescaped⟩ | ⟨hpair, high, low, hunits, hhigh, -, hlow, -⟩
    · rcases Nat.lt_or_ge n first.units.length with hlt | hge
      · constructor
        · rintro ⟨unit, hunit, hhigh⟩
          rw [hsplit, List.getElem?_append_left hlt] at hunit
          rw [(hescaped unit (List.mem_of_getElem? hunit)).1] at hhigh
          cases hhigh
        · intro hpair
          rcases hbehind hpair with ⟨-, hpair⟩ | ⟨hge, -⟩
          · exact absurd hpair hnot
          · omega
      · exact hskip hge fun h => hnot h.2
    · have htwo : first.units.length = 2 := by
        rw [hunits]
        rfl
      have hread : unlimitedUnits (first :: ps) = high :: low :: unlimitedUnits ps := by
        rw [hsplit, hunits]
        rfl
      match n with
      | 0 =>
        rw [hread]
        exact ⟨fun _ => ⟨[], first, ps, rfl, hpair, rfl⟩, fun _ => ⟨high, rfl, hhigh⟩⟩
      | 1 =>
        rw [hread]
        constructor
        · rintro ⟨unit, hunit, hhigh'⟩
          cases hunit
          rw [hlow] at hhigh'
          cases hhigh'
        · intro hpair
          rcases hbehind hpair with ⟨hzero, -⟩ | ⟨hge, -⟩
          · cases hzero
          · omega
      | n + 2 => exact hskip (by omega) fun h => by cases h.1

namespace PreviewBuilder

/-- The builder has been handed `text`, of which it keeps what fits. -/
structure Pushed (limit : Nat) (text : List Utf16Unit) (builder : PreviewBuilder) : Prop where
  units : builder.units = text.take limit
  limit_eq : builder.limit = limit
  truncated : builder.truncated = decide (limit < text.length)

section Pushed
variable {limit : Nat} {text : List Utf16Unit} {builder : PreviewBuilder}

theorem new_pushed (limit : Nat) : Pushed limit [] (new limit) where
  units := List.take_nil.symm
  limit_eq := rfl
  truncated := (decide_eq_false (Nat.not_lt_zero limit)).symm

theorem Pushed.pushUnits (h : Pushed limit text builder) (units : List Utf16Unit) :
    Pushed limit (text ++ units) (builder.pushUnits units) := by
  have hroom : builder.limit - builder.units.length = limit - text.length := by
    rw [h.limit_eq, h.units, List.length_take]
    omega
  refine ⟨?_, h.limit_eq, ?_⟩
  · simp only [PreviewBuilder.pushUnits, hroom]
    rw [h.units, List.take_append, ← List.take_take, List.take_length]
  · simp only [PreviewBuilder.pushUnits, hroom, h.truncated, List.length_append]
    rw [Bool.eq_iff_iff]
    simp only [Bool.or_eq_true, decide_eq_true_eq, bne_iff_ne]
    omega

theorem Pushed.pushAscii (h : Pushed limit text builder) (units : List Utf16Unit) :
    Pushed limit (text ++ units) (builder.pushAscii units) := by
  unfold PreviewBuilder.pushAscii
  induction units generalizing text builder with
  | nil => rwa [List.append_nil]
  | cons unit units ih =>
    have hnext := ih (h.pushUnits [unit])
    rwa [List.append_assoc] at hnext

theorem Pushed.pushCharacter (h : Pushed limit text builder) (c : Nat) :
    Pushed limit (text ++ characterUnits c) (builder.pushCharacter c) := by
  unfold PreviewBuilder.pushCharacter characterUnits
  split
  · exact h.pushAscii _
  split
  · exact h.pushAscii _
  split
  · exact h.pushAscii _
  split
  · exact h.pushAscii _
  split
  · have hescape := ((h.pushAscii [92, 117, 123]).pushUnits (hexDigits 6 c [])).pushAscii [125]
    rwa [List.append_assoc, List.append_assoc, ← List.append_assoc [92, 117, 123]] at hescape
  · exact h.pushUnits _

theorem Pushed.pushHexByte (h : Pushed limit text builder) (byte : Byte) :
    Pushed limit (text ++ (PreviewPiece.invalid byte).units) (builder.pushHexByte byte) := by
  have hflag : Pushed limit text { builder with escapedNonUtf8 := true } :=
    ⟨h.units, h.limit_eq, h.truncated⟩
  exact hflag.pushUnits _

/-- Pieces that are handed on one after another. -/
theorem Pushed.foldl {α : Type} {push : PreviewBuilder → α → PreviewBuilder}
    (piece : α → PreviewPiece)
    (hpush : ∀ {text builder} (a : α), Pushed limit text builder →
      Pushed limit (text ++ (piece a).units) (push builder a))
    (xs : List α) (h : Pushed limit text builder) :
    Pushed limit (text ++ unlimitedUnits (xs.map piece)) (xs.foldl push builder) := by
  induction xs generalizing text builder with
  | nil => rwa [List.map_nil, unlimitedUnits, List.flatMap_nil, List.append_nil]
  | cons a xs ih =>
    have hnext := ih (hpush a h)
    rwa [List.append_assoc] at hnext

theorem Pushed.pushBytesLoop (fuel : Nat) (bytes : List Byte) (h : Pushed limit text builder) :
    Pushed limit (text ++ unlimitedUnits (piecesFrom fuel bytes))
      (builder.pushBytesLoop fuel bytes) := by
  induction fuel generalizing text builder bytes with
  | zero => rwa [piecesFrom, unlimitedUnits, List.flatMap_nil, List.append_nil]
  | succ fuel ih =>
    rw [PreviewBuilder.pushBytesLoop, piecesFrom]
    split
    · rwa [unlimitedUnits, List.flatMap_nil, List.append_nil]
    rcases readUtf8 [] [] bytes with ⟨valid, _ | ⟨invalid, rest⟩⟩
    · exact h.foldl .character (fun c h => h.pushCharacter c) valid
    · have hvalid := h.foldl .character (fun c h => h.pushCharacter c) valid
      have hinvalid := hvalid.foldl .invalid (fun byte h => h.pushHexByte byte) invalid
      have hrest := ih rest hinvalid
      rwa [List.append_assoc, List.append_assoc, ← unlimitedUnits_append,
        ← unlimitedUnits_append, ← List.append_assoc] at hrest

/-- The text with the mark of an omission where it asks for one or does not fit. -/
theorem Pushed.finish (h : Pushed limit text builder) (hlimit : marker.length ≤ limit)
    (omissionMarker : Bool) :
    builder.finish omissionMarker =
      (if omissionMarker = true ∨ limit < text.length then
        text.take (limit - marker.length) ++ marker else text) ++ [0] := by
  have htake : (text.take limit).take (limit - marker.length) =
      text.take (limit - marker.length) := by
    rw [List.take_take, Nat.min_eq_left (Nat.sub_le _ _)]
  unfold PreviewBuilder.finish
  simp only [h.truncated, h.units, h.limit_eq, if_pos hlimit, Bool.or_eq_true, decide_eq_true_eq,
    htake]
  split
  · rfl
  · rename_i hshort
    rw [not_or, Nat.not_lt] at hshort
    rw [List.take_of_length_le hshort.2]

end Pushed

end PreviewBuilder

/-- The text of the bytes has to be cut, and between the units of a pair. -/
def SplitsPair (bytes : List Byte) (omissionMarker : Bool) : Prop :=
  PairAt (pieces bytes) (maxPreviewUtf16Units - PreviewBuilder.marker.length - 1) ∧
    (omissionMarker = true ∨ maxPreviewUtf16Units < (unlimitedUnits (pieces bytes)).length)

/-- A cell as a list view can show it. -/
structure Utf16Cell.Displayable (cell : Utf16Cell) : Prop where
  wellFormed : Utf16.wellFormed cell = true
  terminated : ∃ text, cell = text ++ [0] ∧ (0 : Utf16Unit) ∉ text
  bounded : cell.length ≤ maxPreviewUtf16Units + 1

theorem PairAt.lt_length {ps : List PreviewPiece} (hscalar : ∀ piece ∈ ps, piece.Scalar)
    {n : Nat} (h : PairAt ps n) : n + 1 < (unlimitedUnits ps).length := by
  obtain ⟨front, piece, back, rfl, hpair, rfl⟩ := h
  have hpiece : piece.Scalar := hscalar piece (by simp)
  rcases piece.units_cases hpiece with ⟨hnot, -⟩ | ⟨-, high, low, hunits, -⟩
  · exact absurd hpair hnot
  · rw [unlimitedUnits_append, unlimitedUnits, unlimitedUnits, List.flatMap_cons, hunits]
    simp only [List.length_append, List.length_cons, List.length_nil]
    omega

/-- The cell of the bytes: their text, cut for the mark where there has to be one. -/
theorem previewField_units (bytes : List Byte) (omissionMarker : Bool) :
    (previewField bytes omissionMarker).units =
      (if omissionMarker = true ∨ maxPreviewUtf16Units < (unlimitedUnits (pieces bytes)).length then
        (unlimitedUnits (pieces bytes)).take
          (maxPreviewUtf16Units - PreviewBuilder.marker.length) ++ PreviewBuilder.marker
      else unlimitedUnits (pieces bytes)) ++ [0] :=
  ((PreviewBuilder.new_pushed maxPreviewUtf16Units).pushBytesLoop bytes.length bytes).finish
    (by decide) omissionMarker

theorem previewField_terminated (bytes : List Byte) (omissionMarker : Bool) :
    (∃ text, (previewField bytes omissionMarker).units = text ++ [0] ∧ (0 : Utf16Unit) ∉ text) ∧
      (previewField bytes omissionMarker).units.length ≤ maxPreviewUtf16Units + 1 := by
  have hzero : (0 : Utf16Unit) ∉ unlimitedUnits (pieces bytes) :=
    fun h => (unlimitedUnits_wellFormed (pieces_scalar bytes)).2 0 h rfl
  rw [previewField_units]
  refine ⟨⟨_, rfl, ?_⟩, ?_⟩
  · split
    · rw [List.mem_append, not_or]
      exact ⟨fun h => hzero (List.mem_of_mem_take h), by decide⟩
    · exact hzero
  · rw [List.length_append, List.length_singleton]
    split
    · rw [List.length_append, List.length_take]
      change min (1024 - 4) _ + 4 + 1 ≤ 1024 + 1
      omega
    · rename_i hshort
      omega

theorem previewField_displayable (bytes : List Byte) (omissionMarker : Bool) :
    Utf16Cell.Displayable (previewField bytes omissionMarker).units ↔
      ¬ SplitsPair bytes omissionMarker := by
  have hscalar := pieces_scalar bytes
  have hwhole := (unlimitedUnits_wellFormed hscalar).1
  obtain ⟨hterminated, hbounded⟩ := previewField_terminated bytes omissionMarker
  have hcell : Utf16.wellFormed (previewField bytes omissionMarker).units = true ↔
      ¬ SplitsPair bytes omissionMarker := by
    rw [previewField_units, SplitsPair]
    by_cases hcut : omissionMarker = true ∨
        maxPreviewUtf16Units < (unlimitedUnits (pieces bytes)).length
    · have htail : Utf16.Plain (PreviewBuilder.marker ++ [0]) := by decide
      have htake := Utf16.wellFormed_take htail (unlimitedUnits (pieces bytes))
        (maxPreviewUtf16Units - PreviewBuilder.marker.length) hwhole
      rw [isHigh_iff_pairAt hscalar] at htake
      rw [if_pos hcut, List.append_assoc, ← Bool.not_eq_false, htake, not_iff_not]
      constructor
      · rintro ⟨-, -, hpair⟩
        exact ⟨hpair, hcut⟩
      · rintro ⟨hpair, -⟩
        exact ⟨by decide, hpair.lt_length hscalar, hpair⟩
    · have htail : Utf16.Plain ([0] : List Utf16Unit) := by decide
      have hall := Utf16.wellFormed_take htail (unlimitedUnits (pieces bytes))
        (unlimitedUnits (pieces bytes)).length hwhole
      rw [List.take_length] at hall
      rw [if_neg hcut, ← Bool.not_eq_false, hall, not_iff_not]
      exact ⟨fun h => absurd h.2.1 (lt_irrefl _), fun h => absurd h.2 hcut⟩
  exact ⟨fun h => hcell.mp h.wellFormed, fun h => ⟨hcell.mpr h, hterminated, hbounded⟩⟩

/-! ## Rows -/

theorem decimal_displayable {value : Nat} (h : value < u64Bound) :
    (Utf16Cell.decimal value).Displayable := by
  have hdigits : Escaped ((Nat.toDigits 10 value).map fun digit => digit.toNat.toUInt16) := by
    intro unit hunit
    obtain ⟨digit, hdigit, rfl⟩ := List.mem_map.mp hunit
    have hrange := Nat.isDigit_of_mem_toDigits (by decide) (by decide) hdigit
    have hunits : ∀ n < 58, 48 ≤ n → Escaped [Nat.toUInt16 n] := by decide
    simp only [Char.isDigit, Bool.and_eq_true, decide_eq_true_eq, UInt32.le_iff_toNat_le] at hrange
    exact hunits digit.toNat (Nat.lt_succ_of_le hrange.2) hrange.1 _ (List.mem_singleton_self _)
  have hlength : (Nat.toDigits 10 value).length ≤ 20 := by
    rw [Nat.length_toDigits_le_iff (by decide) (by decide)]
    exact h.trans (by decide)
  refine ⟨?_, ⟨_, rfl, fun hzero => (hdigits 0 hzero).2.2 rfl⟩, ?_⟩
  · have hplain : Utf16.Plain
        ((Nat.toDigits 10 value).map fun digit => digit.toNat.toUInt16) :=
      fun unit hunit => ⟨(hdigits unit hunit).1, (hdigits unit hunit).2.1⟩
    rw [Utf16Cell.decimal, hplain.append]
    decide
  · rw [Utf16Cell.decimal, List.length_append, List.length_map, List.length_singleton]
    change _ ≤ 1024 + 1
    omega

/-- A cell that a list view can show, or a preview that was cut within a pair. -/
def Utf16Cell.Previewed (cell : Utf16Cell) : Prop :=
  cell.Displayable ∨ ∃ bytes omissionMarker, SplitsPair bytes omissionMarker ∧
    cell = (previewField bytes omissionMarker).units

theorem previewField_previewed (bytes : List Byte) (omissionMarker : Bool) :
    (previewField bytes omissionMarker).units.Previewed := by
  by_cases hsplit : SplitsPair bytes omissionMarker
  · exact .inr ⟨bytes, omissionMarker, hsplit, rfl⟩
  · exact .inl ((previewField_displayable bytes omissionMarker).mpr hsplit)

theorem Utf16Cell.Previewed.isNulTerminated {cell : Utf16Cell} (h : cell.Previewed) :
    Worker.isNulTerminated cell = true := by
  obtain ⟨text, rfl, hzero⟩ : ∃ text, cell = text ++ [0] ∧ (0 : Utf16Unit) ∉ text := by
    rcases h with h | ⟨bytes, omissionMarker, -, rfl⟩
    · exact h.terminated
    · exact (previewField_terminated bytes omissionMarker).1
  simp [Worker.isNulTerminated, hzero]

theorem buildCachedRow_previewed {record : RecordPreview} {format : DocumentFormat}
    {limits : FieldProjectionLimits} {row : UiCachedRow}
    (h : buildCachedRow previewField record format limits = .ok row) :
    (∀ cell ∈ row.cells, cell.Previewed) ∧ 2 ≤ row.cells.length ∨ format.delimitedDialect.isSome ∧
      ∀ cell ∈ row.cells, cell.Previewed := by
  have hnumber : (Utf16Cell.decimal (saturatingAdd record.row 1)).Previewed :=
    .inl (decimal_displayable (Nat.lt_of_le_of_lt (Nat.min_le_right _ _) (by decide)))
  unfold buildCachedRow at h
  dsimp only at h
  split at h
  · rename_i dialect hdialect
    split at h
    · cases h
    cases h
    refine .inr ⟨by rw [hdialect]; rfl, fun cell hcell => ?_⟩
    rcases List.mem_cons.mp hcell with rfl | hcell
    · exact hnumber
    · simp only [List.mem_map] at hcell
      obtain ⟨_, ⟨field, -, rfl⟩, rfl⟩ := hcell
      exact previewField_previewed _ _
  · cases h
    refine .inl ⟨fun cell hcell => ?_, Nat.le_refl _⟩
    rcases List.mem_cons.mp hcell with rfl | hcell
    · exact hnumber
    · rw [List.mem_singleton.mp hcell]
      exact previewField_previewed _ _

theorem buildXlsxRow_previewed (row : XlsxRow) :
    ∀ cell ∈ (buildXlsxRow previewField row).cells, cell.Previewed := by
  intro cell hcell
  rcases List.mem_cons.mp hcell with rfl | hcell
  · exact .inl (decimal_displayable (Nat.lt_of_le_of_lt (Nat.min_le_right _ _) (by decide)))
  · simp only [List.mem_map] at hcell
    obtain ⟨_, ⟨field, -, rfl⟩, rfl⟩ := hcell
    exact previewField_previewed _ _

theorem dataColumns_le_widest {row : UiCachedRow} {rows : List UiCachedRow} (h : row ∈ rows)
    (least : Nat) : row.dataColumns ≤ DocumentEngine.widest least rows := by
  have hmono : ∀ (rows : List UiCachedRow) (least : Nat), least ≤
    DocumentEngine.widest least rows := by
    intro rows
    induction rows with
    | nil => exact fun least => Nat.le_refl least
    | cons first rows ih => exact fun least => (Nat.le_max_left _ _).trans (ih _)
  induction rows generalizing least with
  | nil => cases h
  | cons first rows ih =>
    rcases List.mem_cons.mp h with rfl | h
    · exact (Nat.le_max_right _ _).trans (hmono rows _)
    · exact ih h _

/-- A row whose cells are previews is taken over as it is. -/
theorem convertRow_previewed {kind : UiColumnKind} {least : Nat} {rows : List UiCachedRow}
    {columns : UiColumnLayout}
    (hcolumns : UiColumnLayout.new kind (DocumentEngine.widest least rows) = .ok columns)
    {row : UiCachedRow} (hrow : row ∈ rows) (hcells : ∀ cell ∈ row.cells, cell.Previewed)
    (hpreview : kind = .preview → 2 ≤ row.cells.length) :
    Worker.convertRow columns row = .ok ⟨row.displayRank, row.absoluteRow, row.cells⟩ := by
  have hall : row.cells.all Worker.isNulTerminated = true :=
    List.all_eq_true.mpr fun cell hcell => (hcells cell hcell).isNulTerminated
  have hwide := dataColumns_le_widest hrow least
  unfold UiColumnLayout.new at hcolumns
  split at hcolumns
  · cases hcolumns
  cases hcolumns
  unfold Worker.convertRow
  have hfits : ¬ DocumentEngine.widest least rows < row.cells.length - 1 := Nat.not_lt.mpr hwide
  have hboth : ¬ (kind = .preview ∧ row.cells.length < 2) := by
    rintro ⟨hkind, hshort⟩
    exact Nat.not_lt.mpr (hpreview hkind) hshort
  simp only [hall, Bool.not_true, Bool.false_eq_true, if_false, if_neg hfits, if_neg hboth]

theorem mem_buildRows {α : Type} {build : α → Except DocumentEngineError UiCachedRow}
    {polls : Nat → Bool} {i : Nat} {records : List α} {rows : List UiCachedRow}
    (h : DocumentEngine.buildRows build polls i records = .ok rows) {row : UiCachedRow}
    (hrow : row ∈ rows) : ∃ record, build record = .ok row := by
  induction records generalizing i rows with
  | nil =>
    cases h
    cases hrow
  | cons head records ih =>
    unfold DocumentEngine.buildRows at h
    split at h
    · cases h
    cases hhead : build head with
    | error e =>
      rw [hhead] at h
      cases h
    | ok first =>
      simp only [hhead, bind, Except.bind] at h
      cases hrest : DocumentEngine.buildRows build polls (i + 1) records with
      | error e =>
        rw [hrest] at h
        cases h
      | ok rest =>
        rw [hrest] at h
        cases h
        rcases List.mem_cons.mp hrow with rfl | hrow
        · exact ⟨head, hhead⟩
        · exact ih hrest hrow

/-- A preview can be shown unless it is cut within a pair, and no row of previews is refused. -/
theorem previews_displayable (bytes : List Byte) (omissionMarker : Bool) :
    (Utf16Cell.Displayable (previewField bytes omissionMarker).units ↔
      ¬ SplitsPair bytes omissionMarker) ∧
    (∀ (format : DocumentFormat) (limits : FieldProjectionLimits) (polls : Nat → Bool)
        (records : List RecordPreview) (rows : List UiCachedRow) (columns : UiColumnLayout),
      DocumentEngine.buildRows (fun record => buildCachedRow previewField record format limits)
        polls 0 records = .ok rows →
      UiColumnLayout.new (DocumentEngine.columnKind format) (DocumentEngine.widest
        (DocumentEngine.leastColumns (DocumentEngine.columnKind format)) rows) = .ok columns →
      ∀ row ∈ rows, (∀ cell ∈ row.cells, cell.Previewed) ∧
        Worker.convertRow columns row = .ok ⟨row.displayRank, row.absoluteRow, row.cells⟩) ∧
    ∀ (sheetRows : List XlsxRow) (columns : UiColumnLayout),
      UiColumnLayout.new .cells (DocumentEngine.widest 0
        (sheetRows.map (buildXlsxRow previewField))) = .ok columns →
      ∀ row ∈ sheetRows.map (buildXlsxRow previewField), (∀ cell ∈ row.cells, cell.Previewed) ∧
        Worker.convertRow columns row = .ok ⟨row.displayRank, row.absoluteRow, row.cells⟩ := by
  refine ⟨previewField_displayable bytes omissionMarker, ?_, ?_⟩
  · intro format limits polls records rows columns hrows hcolumns row hrow
    obtain ⟨record, hrecord⟩ := mem_buildRows hrows hrow
    have hbuilt := buildCachedRow_previewed hrecord
    have hcells : ∀ cell ∈ row.cells, cell.Previewed := by
      rcases hbuilt with ⟨hcells, -⟩ | ⟨-, hcells⟩
      · exact hcells
      · exact hcells
    refine ⟨hcells, convertRow_previewed hcolumns hrow hcells fun hkind => ?_⟩
    rcases hbuilt with ⟨-, htwo⟩ | ⟨hdialect, -⟩
    · exact htwo
    · rw [DocumentEngine.columnKind, if_pos hdialect] at hkind
      cases hkind
  · intro sheetRows columns hcolumns row hrow
    obtain ⟨sheetRow, -, rfl⟩ := List.mem_map.mp hrow
    have hcells := buildXlsxRow_previewed sheetRow
    exact ⟨hcells, convertRow_previewed hcolumns hrow hcells fun hkind => by cases hkind⟩

theorem readUtf8_replicate (n : Nat) (rest : List Byte) :
    readUtf8 [] [] (List.replicate n 97 ++ rest) =
      (List.replicate n 97 ++ (readUtf8 [] [] rest).1, (readUtf8 [] [] rest).2) := by
  induction n with
  | zero => rfl
  | succ n ih =>
    rw [List.replicate_succ, List.cons_append, List.replicate_succ, List.cons_append]
    have hlead : utf8Continuation 97 = some [] := by decide
    conv => lhs; unfold readUtf8
    rw [hlead]
    simp only [ih]
    rfl

theorem length_unlimitedUnits_letters (n : Nat) :
    (unlimitedUnits (List.replicate n (.character 97))).length = n := by
  have hletter : (PreviewPiece.character 97).units.length = 1 := by decide
  rw [unlimitedUnits, List.length_flatMap, List.map_replicate, hletter, List.sum_replicate]
  simp

/-- A line of 1,019 letters, U+1F600 and four letters: the cut falls within the pair. -/
theorem preview_splits_pair :
    Utf16.wellFormed (previewField (List.replicate 1019 97 ++
      [0xF0, 0x9F, 0x98, 0x80, 97, 97, 97, 97]) false).units = false := by
  have hpieces : pieces (List.replicate 1019 97 ++ [0xF0, 0x9F, 0x98, 0x80, 97, 97, 97, 97]) =
      List.replicate 1019 (.character 97) ++ .character 0x1F600 ::
        List.replicate 4 (.character 97) := by
    have hread : readUtf8 [] [] [0xF0, 0x9F, 0x98, 0x80, 97, 97, 97, 97] =
        ([0x1F600, 97, 97, 97, 97], none) := by decide
    have hne : (List.replicate 1019 (97 : Byte) ++
        [0xF0, 0x9F, 0x98, 0x80, 97, 97, 97, 97]).isEmpty = false := rfl
    rw [pieces, List.length_append, List.length_replicate]
    change piecesFrom (1026 + 1) _ = _
    rw [piecesFrom, hne, readUtf8_replicate, hread]
    simp only [Bool.false_eq_true, if_false, List.map_append, List.map_replicate]
    rfl
  have hsplit : SplitsPair (List.replicate 1019 97 ++
      [0xF0, 0x9F, 0x98, 0x80, 97, 97, 97, 97]) false := by
    rw [SplitsPair, hpieces]
    refine ⟨⟨_, _, _, rfl, ?_, length_unlimitedUnits_letters 1019⟩, .inr ?_⟩
    · change 0x10000 ≤ 0x1F600
      decide
    · have hpair : (PreviewPiece.character 0x1F600).units.length = 2 := by decide
      rw [unlimitedUnits_append, List.length_append, length_unlimitedUnits_letters,
        ← List.singleton_append, unlimitedUnits_append, List.length_append,
        length_unlimitedUnits_letters, unlimitedUnits, List.flatMap_singleton, hpair]
      decide
  by_contra hformed
  have hterminated := previewField_terminated (List.replicate 1019 97 ++
    [0xF0, 0x9F, 0x98, 0x80, 97, 97, 97, 97]) false
  exact (previewField_displayable _ _).mp
    ⟨Bool.eq_true_of_not_eq_false hformed, hterminated.1, hterminated.2⟩ hsplit

end LeanRows
