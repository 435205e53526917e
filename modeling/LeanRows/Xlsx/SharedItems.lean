import LeanRows.Xlsx.SharedStrings

/-!
# What is kept of an item

A run that has no room left is cut in front of a character, and what the cut leaves free is
offered to the next run. So a later run can stand behind a gap.
-/

namespace LeanRows.Xlsx

set_option autoImplicit false

/-! ## Characters -/

/-- The bytes of a text. -/
def encoded (text : List Char) : List Byte := text.flatMap String.utf8EncodeChar

def isContinuation (byte : Byte) : Bool := byte &&& 0xc0 == 0x80

theorem isContinuation_low (byte : Byte) : isContinuation (byte &&& 0x3f ||| 0x80) = true := by
  unfold isContinuation
  rw [beq_iff_eq, ← UInt8.toBitVec_inj]
  simp only [UInt8.toBitVec_and, UInt8.toBitVec_or]
  generalize byte.toBitVec = bits
  revert bits
  decide +kernel

theorem isContinuation_ascii {byte : Byte} (h : byte ≤ 0x7f) : isContinuation byte = false := by
  unfold isContinuation
  rw [beq_eq_false_iff_ne, ne_eq, ← UInt8.toBitVec_inj]
  rw [UInt8.le_iff_toBitVec_le] at h
  simp only [UInt8.toBitVec_and]
  generalize byte.toBitVec = bits at h
  revert bits
  decide +kernel

theorem isContinuation_lead (byte : Byte) :
    isContinuation (byte &&& 0x1f ||| 0xc0) = false ∧
    isContinuation (byte &&& 0x0f ||| 0xe0) = false ∧
    isContinuation (byte &&& 0x07 ||| 0xf0) = false := by
  unfold isContinuation
  simp only [beq_eq_false_iff_ne, ne_eq, ← UInt8.toBitVec_inj, UInt8.toBitVec_and,
    UInt8.toBitVec_or]
  generalize byte.toBitVec = bits
  revert bits
  decide +kernel

/-- A character is a byte that continues none, and then bytes that do. -/
theorem utf8EncodeChar_bytes (c : Char) : ∃ lead tail, String.utf8EncodeChar c = lead :: tail ∧
    isContinuation lead = false ∧ ∀ byte ∈ tail, isContinuation byte = true := by
  have htail : ∀ bytes : List Byte, ∀ byte ∈ bytes.map fun byte => byte &&& 0x3f ||| 0x80,
      isContinuation byte = true := by
    intro bytes byte hbyte
    obtain ⟨low, -, rfl⟩ := List.mem_map.mp hbyte
    exact isContinuation_low low
  rw [String.utf8EncodeChar_eq_utf8EncodeCharFast]
  unfold String.utf8EncodeCharFast
  by_cases hone : c.val ≤ 0x7f
  · refine ⟨c.val.toUInt8, [], if_pos hone, isContinuation_ascii ?_, htail []⟩
    rw [UInt32.le_iff_toNat_le] at hone
    rw [UInt8.le_iff_toNat_le, UInt32.toNat_toUInt8]
    exact (Nat.mod_le ..).trans hone
  by_cases htwo : c.val ≤ 0x7ff
  · exact ⟨_, _, by rw [if_neg hone, if_pos htwo]; rfl, (isContinuation_lead _).1,
      htail [c.val.toUInt8]⟩
  by_cases hthree : c.val ≤ 0xffff
  · exact ⟨_, _, by rw [if_neg hone, if_neg htwo, if_pos hthree]; rfl, (isContinuation_lead _).2.1,
      htail [(c.val >>> 6).toUInt8, c.val.toUInt8]⟩
  · exact ⟨_, _, by rw [if_neg hone, if_neg htwo, if_neg hthree]; rfl, (isContinuation_lead _).2.2,
      htail [(c.val >>> 12).toUInt8, (c.val >>> 6).toUInt8, c.val.toUInt8]⟩

/-- No character begins another. -/
theorem utf8EncodeChar_inj {c c' : Char} {bytes bytes' : List Byte}
    (h : String.utf8EncodeChar c ++ bytes = String.utf8EncodeChar c' ++ bytes') : c = c' := by
  have hbytes := congrArg List.toByteArray h
  rw [List.toByteArray_append, List.toByteArray_append] at hbytes
  have hleft := ByteArray.utf8DecodeChar?_utf8EncodeChar_append (b := bytes.toByteArray) (c := c)
  rw [hbytes, ByteArray.utf8DecodeChar?_utf8EncodeChar_append] at hleft
  exact (Option.some.inj hleft).symm

/-! ## Cuts -/

theorem utf8Prefix_of_length_le {bytes : List Byte} {limit : Nat} (h : bytes.length ≤ limit) :
    utf8Prefix bytes limit = bytes := if_pos h

theorem utf8Prefix_zero (bytes : List Byte) : utf8Prefix bytes 0 = [] := by
  unfold utf8Prefix
  split_ifs with h
  · exact List.length_eq_zero_iff.mp (Nat.le_zero.mp h)
  · rfl

theorem utf8Prefix_isPrefix (bytes : List Byte) (limit : Nat) :
    utf8Prefix bytes limit <+: bytes := by
  unfold utf8Prefix
  split_ifs
  · exact List.prefix_refl _
  · exact List.take_prefix _ _

/-- A limit beyond the room does not change where a text is cut. -/
theorem utf8Prefix_take {bytes : List Byte} {room limit : Nat} (h : room < limit) :
    utf8Prefix (bytes.take limit) room = utf8Prefix bytes room := by
  have hboundary : ∀ stop, stop ≤ room → utf8Prefix.boundary (bytes.take limit) stop =
      utf8Prefix.boundary bytes stop := by
    intro stop hstop
    induction stop with
    | zero => rfl
    | succ stop ih =>
      unfold utf8Prefix.boundary
      rw [List.getElem?_take_of_lt (by omega), ih (by omega)]
  have hle : ∀ stop, utf8Prefix.boundary bytes stop ≤ stop := by
    intro stop
    induction stop with
    | zero => exact Nat.le_refl _
    | succ stop ih =>
      unfold utf8Prefix.boundary
      split_ifs
      · exact Nat.le_succ_of_le ih
      · exact Nat.le_refl _
  unfold utf8Prefix
  by_cases hshort : bytes.length ≤ room
  · rw [if_pos hshort, if_pos (by rw [List.length_take]; omega), List.take_of_length_le (by omega)]
  · have hroom := hle room
    rw [if_neg hshort, if_neg (by rw [List.length_take]; omega), hboundary room (Nat.le_refl _),
      List.take_take, Nat.min_eq_left (by omega)]

/-- A cut inside a character is moved back to its first byte. -/
theorem boundary_inside {before after : List Byte} (c : Char) (stop : Nat)
    (hlow : before.length ≤ stop) (hhigh : stop < before.length + c.utf8Size) :
    utf8Prefix.boundary (before ++ (String.utf8EncodeChar c ++ after)) stop = before.length := by
  obtain ⟨lead, tail, hbytes, hlead, htail⟩ := utf8EncodeChar_bytes c
  have hsize : c.utf8Size = tail.length + 1 := by
    rw [← String.length_utf8EncodeChar, hbytes, List.length_cons]
  induction stop with
  | zero => exact (Nat.le_zero.mp hlow).symm
  | succ stop ih =>
    unfold utf8Prefix.boundary
    rw [hbytes, List.getElem?_append_right hlow]
    by_cases hfirst : before.length = stop + 1
    · rw [hfirst, Nat.sub_self, List.cons_append, List.getElem?_cons_zero, Option.any_some]
      rw [if_neg (by simpa [isContinuation] using hlead)]
    · obtain ⟨offset, hoffset⟩ : ∃ offset, stop + 1 - before.length = offset + 1 :=
        ⟨stop - before.length, by omega⟩
      have hin : offset < tail.length := by omega
      rw [hoffset, List.cons_append, List.getElem?_cons_succ, List.getElem?_append_left hin,
        List.getElem?_eq_getElem hin, Option.any_some]
      have hcontinues : (tail[offset] &&& 0xc0 == 0x80) = true := htail _ (List.getElem_mem hin)
      have hback := ih (by omega) (by omega)
      rw [hbytes] at hback
      rw [if_pos hcontinues]
      exact hback

/-- A text that is too long is cut in front of the first character that has no room. -/
theorem utf8Prefix_encoded {text : List Char} {room : Nat} (h : room < (encoded text).length) :
    ∃ front c back, text = front ++ c :: back ∧ utf8Prefix (encoded text) room = encoded front ∧
      (encoded front).length ≤ room ∧ room < (encoded front).length + c.utf8Size := by
  obtain ⟨front, c, back, rfl, hlow, hhigh⟩ : ∃ front c back, text = front ++ c :: back ∧
      (encoded front).length ≤ room ∧ room < (encoded front).length + c.utf8Size := by
    induction text generalizing room with
    | nil => cases h
    | cons c text ih =>
      have hlength : (encoded (c :: text)).length = c.utf8Size + (encoded text).length := by
        simp [encoded]
      by_cases hfirst : room < c.utf8Size
      · exact ⟨[], c, text, rfl, Nat.zero_le _, by simpa [encoded] using hfirst⟩
      · have hrest : room - c.utf8Size < (encoded text).length := by omega
        obtain ⟨front, d, back, rfl, hlow, hhigh⟩ := ih hrest
        have hfront : (encoded (c :: front)).length = c.utf8Size + (encoded front).length := by
          simp [encoded]
        exact ⟨c :: front, d, back, rfl, by omega, by omega⟩
  refine ⟨front, c, back, rfl, ?_, hlow, hhigh⟩
  have hbytes : encoded (front ++ c :: back) =
      encoded front ++ (String.utf8EncodeChar c ++ encoded back) := by
    simp [encoded]
  rw [utf8Prefix, if_neg (by omega), hbytes, boundary_inside c room hlow hhigh, List.take_left]

/-! ## The runs of an item -/

/-- What is kept with the next run: its front, in the room that is left. -/
def keepRun (limit : Nat) (kept run : List Byte) : List Byte :=
  kept ++ utf8Prefix (run.take limit) (limit - kept.length)

def keepRuns (limit : Nat) (runs : List (List Byte)) : List Byte := runs.foldl (keepRun limit) []

/-- Once a run has no room, none of the bytes that its cut leaves free hold the first character
of a later run. -/
def StopsAtCut (limit : Nat) : Nat → List (List Byte) → Prop
  | _, [] => True
  | room, run :: runs =>
    if run.length ≤ room then StopsAtCut limit (room - run.length) runs
    else ∀ later ∈ runs,
      utf8Prefix (later.take limit) (room - (utf8Prefix (run.take limit) room).length) = []

instance StopsAtCut.decidable (limit : Nat) : ∀ room runs, Decidable (StopsAtCut limit room runs)
  | _, [] => .isTrue trivial
  | room, run :: runs =>
    have : Decidable (StopsAtCut limit (room - run.length) runs) := decidable limit _ runs
    inferInstanceAs (Decidable (if run.length ≤ room then _ else _))

section Runs
variable {limit : Nat}

theorem keepRun_isPrefix (limit : Nat) (kept run : List Byte) :
    keepRun limit kept run <+: kept ++ run :=
  (List.prefix_append_right_inj kept).mpr
    ((utf8Prefix_isPrefix _ _).trans (List.take_prefix _ _))

theorem keepRun_fits {kept run : List Byte} (h : run.length ≤ limit - kept.length) :
    keepRun limit kept run = kept ++ run := by
  rw [keepRun, List.take_of_length_le (by omega), utf8Prefix_of_length_le h]

theorem foldl_keepRun_isPrefix (kept : List Byte) (runs : List (List Byte)) :
    kept <+: runs.foldl (keepRun limit) kept := by
  induction runs generalizing kept with
  | nil => exact List.prefix_refl _
  | cons run runs ih => exact (List.prefix_append _ _).trans (ih _)

theorem foldl_keepRun_eq_self {kept : List Byte} {runs : List (List Byte)}
    (h : ∀ run ∈ runs, utf8Prefix (run.take limit) (limit - kept.length) = []) :
    runs.foldl (keepRun limit) kept = kept := by
  induction runs with
  | nil => rfl
  | cons run runs ih =>
    have hfirst : keepRun limit kept run = kept := by
      rw [keepRun, h run List.mem_cons_self, List.append_nil]
    rw [List.foldl_cons, hfirst]
    exact ih fun later hlater => h later (List.mem_cons_of_mem _ hlater)

theorem foldl_keepRun_length_le (limit : Nat) (kept : List Byte) (runs : List (List Byte)) :
    (runs.foldl (keepRun limit) kept).length ≤ kept.length + runs.flatten.length := by
  induction runs generalizing kept with
  | nil => simp
  | cons run runs ih =>
    have hrun := (keepRun_isPrefix limit kept run).length_le
    have hrest := ih (keepRun limit kept run)
    rw [List.length_append] at hrun
    rw [List.foldl_cons, List.flatten_cons, List.length_append]
    omega

theorem StopsAtCut.isPrefix {kept : List Byte} {runs : List (List Byte)}
    (h : StopsAtCut limit (limit - kept.length) runs) (hkept : kept.length ≤ limit) :
    runs.foldl (keepRun limit) kept <+: kept ++ runs.flatten := by
  induction runs generalizing kept with
  | nil => simp
  | cons run runs ih =>
    unfold StopsAtCut at h
    rw [List.foldl_cons, List.flatten_cons, ← List.append_assoc]
    by_cases hfits : run.length ≤ limit - kept.length
    · rw [if_pos hfits] at h
      have hroom : limit - (kept ++ run).length = limit - kept.length - run.length := by
        rw [List.length_append]
        omega
      rw [keepRun_fits hfits]
      exact ih (hroom ▸ h) (by rw [List.length_append]; omega)
    · rw [if_neg hfits] at h
      have hroom : limit - (keepRun limit kept run).length =
          limit - kept.length - (utf8Prefix (run.take limit) (limit - kept.length)).length := by
        rw [keepRun, List.length_append]
        omega
      rw [← hroom] at h
      rw [foldl_keepRun_eq_self h]
      exact (keepRun_isPrefix limit kept run).trans (List.prefix_append _ _)

/-- The first run that has something in the room left puts it behind what is kept. -/
theorem foldl_keepRun_more {kept later : List Byte} {runs : List (List Byte)} (h : later ∈ runs)
    (hmore : utf8Prefix (later.take limit) (limit - kept.length) ≠ []) :
    ∃ next ∈ runs, utf8Prefix (next.take limit) (limit - kept.length) ≠ [] ∧
      kept ++ utf8Prefix (next.take limit) (limit - kept.length) <+:
        runs.foldl (keepRun limit) kept := by
  induction runs with
  | nil => cases h
  | cons run runs ih =>
    rw [List.foldl_cons]
    by_cases hrun : utf8Prefix (run.take limit) (limit - kept.length) = []
    · have hsame : keepRun limit kept run = kept := by rw [keepRun, hrun, List.append_nil]
      rcases List.mem_cons.mp h with rfl | hlater
      · exact absurd hrun hmore
      obtain ⟨next, hmem, hnext, hfront⟩ := ih hlater
      rw [hsame]
      exact ⟨next, List.mem_cons_of_mem _ hmem, hnext, hfront⟩
    · exact ⟨run, List.mem_cons_self, hrun, foldl_keepRun_isPrefix _ _⟩

/-- Whole characters are kept of a later run, and the first of them is not the one that had no
room before. -/
theorem later_character {text : List Char} {room : Nat}
    (hmore : utf8Prefix (encoded text) room ≠ []) :
    ∃ c rest, utf8Prefix (encoded text) room = String.utf8EncodeChar c ++ rest ∧
      c.utf8Size ≤ room := by
  obtain ⟨front, hfront, hroom⟩ : ∃ front, utf8Prefix (encoded text) room = encoded front ∧
      (encoded front).length ≤ room := by
    by_cases hfits : (encoded text).length ≤ room
    · exact ⟨text, utf8Prefix_of_length_le hfits, hfits⟩
    · obtain ⟨front, c, back, -, hcut, hlow, -⟩ := utf8Prefix_encoded (Nat.lt_of_not_le hfits)
      exact ⟨front, hcut, hlow⟩
  cases front with
  | nil => exact absurd hfront hmore
  | cons c front =>
    refine ⟨c, encoded front, hfront, ?_⟩
    rw [encoded, List.flatMap_cons, List.length_append, String.length_utf8EncodeChar] at hroom
    omega

theorem StopsAtCut.of_isPrefix {kept : List Byte} {runs : List (List Byte)}
    (hkept : kept.length ≤ limit) (htexts : ∀ run ∈ runs, ∃ text, run = encoded text)
    (h : runs.foldl (keepRun limit) kept <+: kept ++ runs.flatten) :
    StopsAtCut limit (limit - kept.length) runs := by
  induction runs generalizing kept with
  | nil => trivial
  | cons run runs ih =>
    unfold StopsAtCut
    rw [List.foldl_cons, List.flatten_cons, ← List.append_assoc] at h
    by_cases hfits : run.length ≤ limit - kept.length
    · rw [if_pos hfits]
      rw [keepRun_fits hfits] at h
      have hroom : limit - (kept ++ run).length = limit - kept.length - run.length := by
        rw [List.length_append]
        omega
      rw [← hroom]
      exact ih (by rw [List.length_append]; omega)
        (fun later hlater => htexts later (List.mem_cons_of_mem _ hlater)) h
    rw [if_neg hfits]
    have hroom : limit - kept.length - (utf8Prefix (run.take limit) (limit - kept.length)).length =
        limit - (keepRun limit kept run).length := by
      rw [keepRun, List.length_append]
      omega
    rw [hroom]
    by_contra hmore
    push Not at hmore
    obtain ⟨later, hlater, hmore⟩ := hmore
    obtain ⟨next, hnext, hkeeps, hfront⟩ := foldl_keepRun_more hlater hmore
    -- an item that begins with a cut run is cut at the limit, and no room is left
    by_cases hfirst : kept = []
    · subst hfirst
      have hfull : (keepRun limit [] run).length = limit := by
        rw [List.length_nil, Nat.sub_zero] at hfits
        rw [keepRun, List.nil_append, List.length_nil, Nat.sub_zero,
          utf8Prefix_of_length_le (by rw [List.length_take]; omega), List.length_take]
        omega
      rw [hfull, Nat.sub_self] at hkeeps
      exact hkeeps (utf8Prefix_zero _)
    have hpos : 0 < kept.length := List.length_pos_iff.mpr hfirst
    obtain ⟨text, rfl⟩ := htexts run List.mem_cons_self
    obtain ⟨text', rfl⟩ := htexts next (List.mem_cons_of_mem _ hnext)
    by_cases hlimit : limit = 0
    · subst hlimit
      rw [Nat.zero_sub] at hkeeps
      exact hkeeps (utf8Prefix_zero _)
    obtain ⟨front, c, back, rfl, hcut, hlow, hhigh⟩ :=
      utf8Prefix_encoded (Nat.lt_of_not_le hfits)
    have hlength : (keepRun limit kept (encoded (front ++ c :: back))).length =
        kept.length + (encoded front).length := by
      rw [keepRun, utf8Prefix_take (by omega), hcut, List.length_append]
    rw [utf8Prefix_take (by omega)] at hkeeps hfront
    obtain ⟨d, rest, hd, hsize⟩ := later_character hkeeps
    rw [hd] at hfront
    have hwhole := hfront.trans h
    have hkeep : keepRun limit kept (encoded (front ++ c :: back)) = kept ++ encoded front := by
      rw [keepRun, utf8Prefix_take (by omega), hcut]
    have hbytes : encoded (front ++ c :: back) =
        encoded front ++ (String.utf8EncodeChar c ++ encoded back) := by
      simp [encoded]
    have hregroup : kept ++ (encoded front ++ (String.utf8EncodeChar c ++ encoded back)) ++
        runs.flatten = (kept ++ encoded front) ++
          (String.utf8EncodeChar c ++ (encoded back ++ runs.flatten)) := by
      simp only [List.append_assoc]
    rw [hkeep, hbytes, hregroup, List.prefix_append_right_inj] at hwhole
    obtain ⟨more, hmore⟩ := hwhole
    rw [List.append_assoc] at hmore
    have hsame : d = c := utf8EncodeChar_inj hmore
    subst hsame
    omega

theorem StopsAtCut.keepRuns_isPrefix {runs : List (List Byte)} (h : StopsAtCut limit limit runs) :
    keepRuns limit runs <+: runs.flatten :=
  isPrefix h (Nat.zero_le _)

/-- What is kept of an item is a front of all its text exactly if it stops at the first cut. -/
theorem keepRuns_isPrefix_iff {runs : List (List Byte)}
    (htexts : ∀ run ∈ runs, ∃ text, run = encoded text) :
    keepRuns limit runs <+: runs.flatten ↔ StopsAtCut limit limit runs := by
  constructor
  · intro h
    exact StopsAtCut.of_isPrefix (Nat.zero_le limit) htexts h
  · intro h
    exact h.keepRuns_isPrefix

end Runs

/-! ## Two readers on one part -/

section Lockstep
variable {S W : Type} {io : ByteStream S W} {token : W → Bool × W} {limit bound : Nat}

open Exec (Viewed)

namespace PartCursor

/-- The cursor as it would be under a lower limit for the text. -/
def limited (limit : Nat) (cursor : PartCursor S) : PartCursor S :=
  { cursor with xml := cursor.xml.limited limit }

abbrev Counted (limit bound : Nat) (cursor : PartCursor S) : Prop :=
  cursor.xml.Counted limit bound

theorem onStream_viewed {α : Type} (x : Exec (S × W) XlsxError α) :
    Viewed (Counted limit bound) (limited limit) (onStream x : PartM S W α) (onStream x) :=
  fun _ _ h => ⟨rfl, h⟩

theorem onXml_viewed {α : Type} {x : XmlTokenizer.XmlM α}
    (h : XmlTokenizer.Unlimited limit bound x) :
    Viewed (Counted limit bound) (limited limit) (onXml x : PartM S W α) (onXml x) := by
  intro cursor w hcursor
  obtain ⟨hrun, hkeep⟩ := h cursor.xml hcursor
  refine ⟨?_, hkeep⟩
  have hxml : (cursor.limited limit).xml = cursor.xml.limited limit := rfl
  simp only [onXml, hxml, hrun]
  rfl

theorem moreBytes_viewed :
    Viewed (Counted limit bound) (limited limit) (moreBytes io) (moreBytes io) :=
  .get_bind fun _ _ => .ite (fun _ => onStream_viewed _) fun _ => .pure _

theorem nextLoop_viewed (fuel : Nat) :
    Viewed (Counted limit bound) (limited limit) (nextLoop io fuel) (nextLoop io fuel) := by
  induction fuel with
  | zero => exact .throw _
  | succ fuel ih =>
    refine moreBytes_viewed.bind fun more => .get_bind fun cursor _ => .ite (fun _ => ?_) fun _ =>
      ?_
    · refine Viewed.bind (onXml_viewed (XmlTokenizer.feed_unlimited _)) fun fed =>
        Viewed.bind (.modify fun _ h => ⟨rfl, h⟩) fun _ => ?_
      cases fed.2 with
      | none => exact ih
      | some event => exact .pure _
    · exact Viewed.bind (fun _ _ h => ⟨rfl, h⟩) fun _ => .pure _

theorem next_viewed : Viewed (Counted limit bound) (limited limit) (next io) (next io) :=
  .get_bind fun _ _ => nextLoop_viewed _

theorem poll_viewed (events : Nat) :
    Viewed (S := PartCursor S) (Counted limit bound) (limited limit)
    (poll token events) (poll token events) := by
  refine .ite (fun _ => fun cursor w h => ?_) fun _ => .pure _
  unfold checkCancelled
  dsimp only
  split_ifs
  · exact ⟨rfl, h⟩
  · exact ⟨rfl, h⟩

theorem answer_limited {cursor : PartCursor S} (h : Counted limit bound cursor)
    (collect : Option Bool) : answer collect (cursor.limited limit) =
      (answer collect cursor).limited limit ∧ Counted limit bound (answer collect cursor) := by
  cases collect with
  | none => exact ⟨rfl, h⟩
  | some collect =>
    obtain ⟨hxml, hkeep⟩ := XmlTokenizer.collectText_limited h collect
    refine ⟨?_, hkeep⟩
    show (⟨cursor.stream, (cursor.xml.limited limit).collectText collect⟩ : PartCursor S) = _
    rw [hxml]
    rfl

theorem run_ofExcept {α : Type} {r : Except XlsxError α} {p p' : PartCursor S × W} {a : α}
    (h : (Exec.ofExcept r : PartM S W α) p = (.ok a, p')) : r = .ok a ∧ p' = p := by
  cases h
  exact ⟨rfl, rfl⟩

end PartCursor

end Lockstep

/-! ## The table of a part -/

namespace SharedStrings

variable {strings strings' : SharedStrings} {limits : XlsxLimits}

/-- What is in the table stays as it is while it grows. -/
theorem get_grown {index : Nat} {bytes : List Byte} {truncated : Bool} (more : List Byte)
    (ends : List Nat) (h : strings.get index = some (bytes, truncated)) :
    SharedStrings.get ⟨strings.arena ++ more, strings.ends ++ ends⟩ index =
      some (bytes, truncated) := by
  unfold get at h ⊢
  obtain ⟨stop, hstop, h⟩ := Option.bind_eq_some_iff.mp h
  obtain ⟨start, hstart, h⟩ := Option.bind_eq_some_iff.mp h
  have hindex : index < strings.ends.length := (List.getElem?_eq_some_iff.mp hstop).1
  have hstop' : (strings.ends ++ ends)[index]? = some stop := by
    rw [List.getElem?_append_left hindex, hstop]
  have hstart' : SharedStrings.startOf ⟨strings.arena ++ more, strings.ends ++ ends⟩ index =
      some start := by
    cases index with
    | zero => exact hstart
    | succ previous =>
      show ((strings.ends ++ ends)[previous]?).map _ = some start
      rw [List.getElem?_append_left (by omega)]
      exact hstart
  refine Option.bind_eq_some_iff.mpr ⟨stop, hstop',
    Option.bind_eq_some_iff.mpr ⟨start, hstart', ?_⟩⟩
  split_ifs at h with hinside
  rw [if_pos ⟨hinside.1, by rw [List.length_append]; omega⟩, ← h,
    List.drop_append_of_le_length (by omega),
    List.take_append_of_le_length (by rw [List.length_drop]; omega)]

theorem pushString_eq_ok {truncated : Bool}
    (h : strings.pushString limits truncated = .ok strings') :
    strings.arena.length < truncatedBit ∧ strings' = { strings with
      ends := strings.ends ++ [strings.arena.length + if truncated then truncatedBit else 0] } := by
  unfold pushString at h
  by_cases hcount : limits.maxSharedStrings ≤ strings.ends.length
  · rw [if_pos hcount] at h
    cases h
  by_cases hbit : truncatedBit ≤ strings.arena.length
  · rw [if_neg hcount, if_pos hbit] at h
    cases h
  · rw [if_neg hcount, if_neg hbit] at h
    cases h
    exact ⟨Nat.lt_of_not_le hbit, rfl⟩

theorem pushString_startOf {truncated : Bool}
    (h : strings.pushString limits truncated = .ok strings') :
    strings'.startOf strings'.ends.length = some strings'.arena.length := by
  obtain ⟨hbit, rfl⟩ := pushString_eq_ok h
  rw [List.length_append, List.length_singleton, startOf, List.getElem?_concat_length,
    Option.map_some]
  have hend : (strings.arena.length + if truncated then truncatedBit else 0) % truncatedBit =
      strings.arena.length := by
    cases truncated with
    | false => exact Nat.mod_eq_of_lt hbit
    | true => rw [if_pos rfl, Nat.add_mod_right, Nat.mod_eq_of_lt hbit]
  rw [hend]

/-- The string that is pushed is what the arena holds from its start on. -/
theorem pushString_get {truncated : Bool} {start : Nat}
    (hstart : strings.startOf strings.ends.length = some start)
    (hle : start ≤ strings.arena.length) (h : strings.pushString limits truncated = .ok strings') :
    strings'.get strings.ends.length = some (strings.arena.drop start, truncated) := by
  obtain ⟨hbit, rfl⟩ := pushString_eq_ok h
  have hmod : (strings.arena.length + if truncated then truncatedBit else 0) % truncatedBit =
      strings.arena.length := by
    cases truncated with
    | false => exact Nat.mod_eq_of_lt hbit
    | true => rw [if_pos rfl, Nat.add_mod_right, Nat.mod_eq_of_lt hbit]
  have hmark : decide (truncatedBit ≤ strings.arena.length +
    if truncated then truncatedBit else 0) =
      truncated := by
    cases truncated with
    | false => exact decide_eq_false (Nat.not_le.mpr hbit)
    | true => exact decide_eq_true (Nat.le_add_left _ _)
  have hstart' : SharedStrings.startOf ⟨strings.arena, strings.ends ++
      [strings.arena.length + if truncated then truncatedBit else 0]⟩ strings.ends.length =
      some start := by
    rcases hlength : strings.ends.length with _ | previous
    · rw [hlength] at hstart
      exact hstart
    · rw [hlength] at hstart
      show ((strings.ends ++ _)[previous]?).map _ = some start
      rw [List.getElem?_append_left (by omega)]
      exact hstart
  unfold get
  refine Option.bind_eq_some_iff.mpr ⟨_, List.getElem?_concat_length, Option.bind_eq_some_iff.mpr
    ⟨start, hstart', ?_⟩⟩
  rw [hmod, hmark, if_pos ⟨hle, Nat.le_refl _⟩, List.take_of_length_le (by simp)]

/-- The table has one string for each item: what is kept of it, marked if that is not all. -/
structure Holds (limit : Nat) (items : List (List (List Byte))) (strings : SharedStrings) :
    Prop where
  count : strings.ends.length = items.length
  get : ∀ i runs, items[i]? = some runs → strings.get i =
    some (keepRuns limit runs, decide ((keepRuns limit runs).length < runs.flatten.length))

theorem Holds.grow {limit : Nat} {items : List (List (List Byte))} (h : Holds limit items strings)
    (more : List Byte) : Holds limit items { strings with arena := strings.arena ++ more } := by
  refine ⟨h.count, fun i runs hruns => ?_⟩
  have hget := get_grown more [] (h.get i runs hruns)
  rwa [List.append_nil] at hget

theorem Holds.push {limit : Nat} {items : List (List (List Byte))} {runs : List (List Byte)}
    {truncated : Bool} {start : Nat} (h : Holds limit items strings)
    (hstart : strings.startOf strings.ends.length = some start) (hle : start ≤ strings.arena.length)
    (hkept : strings.arena.drop start = keepRuns limit runs)
    (htruncated : truncated = decide ((keepRuns limit runs).length < runs.flatten.length))
    (hpush : strings.pushString limits truncated = .ok strings') :
    Holds limit (items ++ [runs]) strings' := by
  have hget := pushString_get hstart hle hpush
  obtain ⟨-, rfl⟩ := pushString_eq_ok hpush
  refine ⟨by rw [List.length_append, List.length_append, h.count]; rfl, fun i runs' hruns => ?_⟩
  by_cases hi : i < items.length
  · rw [List.getElem?_append_left hi] at hruns
    have hold := get_grown [] [strings.arena.length + if truncated then truncatedBit else 0]
      (h.get i runs' hruns)
    rwa [List.append_nil] at hold
  · have hlast : i = items.length := by
      have hin := (List.getElem?_eq_some_iff.mp hruns).1
      rw [List.length_append, List.length_singleton] at hin
      omega
    subst hlast
    rw [List.getElem?_concat_length, Option.some.injEq] at hruns
    subst hruns
    rw [← htruncated, ← hkept, ← hget, h.count]

end SharedStrings

theorem ok_of_bind {α β : Type} {x : Except XlsxError α} {f : α → Except XlsxError β} {b : β}
    (h : (x >>= f) = .ok b) : ∃ a, x = .ok a ∧ f a = .ok b := by
  cases x with
  | error error => cases h
  | ok a => exact ⟨a, rfl, h⟩

/-- The reader of the table and the reader of the items stand at the same place. -/
structure Together (limit : Nat) (items : ItemReader) (reader : SharedReader) : Prop where
  table : reader.strings.Holds limit items.items
  inItem : reader.inItem = items.inItem
  phoneticDepth : reader.phoneticDepth = items.phoneticDepth
  collecting : reader.collecting = items.collecting
  collects : items.collecting = true → items.inItem = true
  outside : items.inItem = false →
    reader.strings.startOf reader.strings.ends.length = some reader.strings.arena.length
  start : items.inItem = true →
    reader.strings.startOf reader.strings.ends.length = some reader.itemStart
  start_le : items.inItem = true → reader.itemStart ≤ reader.strings.arena.length
  kept : items.inItem = true →
    reader.strings.arena.drop reader.itemStart = keepRuns limit items.runs
  truncated : items.inItem = true → reader.itemTruncated =
    decide ((keepRuns limit items.runs).length < items.runs.flatten.length)

namespace Together

variable {limits : XlsxLimits} {items items' : ItemReader} {reader reader' : SharedReader}
  {xml : XmlTokenizer} {collect collect' : Option Bool}

theorem start_start {limit : Nat} : Together limit .start .start where
  table := ⟨rfl, fun i runs h => by cases h⟩
  inItem := rfl
  phoneticDepth := rfl
  collecting := rfl
  collects h := by cases h
  outside _ := rfl
  start h := by cases h
  start_le h := by cases h
  kept h := by cases h
  truncated h := by cases h

theorem phonetic {limit : Nat} (h : Together limit items reader) (f : Nat → Nat) :
    Together limit { items with phoneticDepth := f items.phoneticDepth }
      { reader with phoneticDepth := f reader.phoneticDepth } :=
  ⟨h.table, h.inItem, congrArg f h.phoneticDepth, h.collecting, h.collects, h.outside, h.start,
    h.start_le, h.kept, h.truncated⟩

theorem startTag (h : Together limits.maxCellBytes items reader) {empty : Bool}
    {front : XmlTokenizer}
    (hname : front.name = xml.name)
    (hreader : reader.startTag limits empty front = .ok (reader', collect))
    (hitems : items.startTag empty xml = .ok (items', collect')) :
    Together limits.maxCellBytes items' reader' ∧ collect = collect' := by
  unfold SharedReader.startTag at hreader
  unfold ItemReader.startTag at hitems
  rw [hname] at hreader
  by_cases hitem : xml.name = itemName
  · rw [if_pos hitem] at hreader hitems
    by_cases hnested : items.inItem = true ∨ items.collecting = true
    · rw [if_pos hnested] at hitems
      cases hitems
    rw [if_neg hnested] at hitems
    obtain ⟨houtside, hidle⟩ := not_or.mp hnested
    rw [Bool.not_eq_true] at houtside hidle
    have hstart := h.outside houtside
    have hrest : reader.strings.arena.drop reader.strings.arena.length =
      keepRuns limits.maxCellBytes [] :=
      List.drop_length
    cases empty with
    | true =>
      rw [if_pos rfl] at hreader hitems
      obtain ⟨strings, hpush, hreader⟩ := ok_of_bind hreader
      cases hreader
      cases hitems
      have htable := h.table.push hstart (Nat.le_refl _) hrest rfl hpush
      exact ⟨⟨htable, houtside.symm, rfl, h.collecting, fun hc => absurd hc (by simp [hidle]),
        fun _ => SharedStrings.pushString_startOf hpush, fun hin => absurd hin (by simp [houtside]),
        fun hin => absurd hin (by simp [houtside]), fun hin => absurd hin (by simp [houtside]),
        fun hin => absurd hin (by simp [houtside])⟩, rfl⟩
    | false =>
      rw [if_neg (by decide)] at hreader hitems
      cases hreader
      cases hitems
      exact ⟨⟨h.table, rfl, rfl, h.collecting, fun _ => rfl, fun hout => Bool.noConfusion hout,
        fun _ => hstart, fun _ => Nat.le_refl _, fun _ => hrest, fun _ => rfl⟩, rfl⟩
  rw [if_neg hitem] at hreader hitems
  by_cases hphonetic : xml.name = phoneticName ∧ empty = false
  · rw [if_pos hphonetic] at hreader hitems
    cases hreader
    cases hitems
    exact ⟨h.phonetic (· + 1), rfl⟩
  rw [if_neg hphonetic] at hreader hitems
  rw [h.inItem, h.phoneticDepth] at hreader
  by_cases htext : xml.name = textName ∧ items.inItem = true ∧ items.phoneticDepth = 0 ∧
    empty = false
  · rw [if_pos htext] at hreader hitems
    split_ifs at hitems
    cases hreader
    cases hitems
    exact ⟨⟨h.table, rfl, rfl, rfl, fun _ => htext.2.1, h.outside, h.start, h.start_le, h.kept,
      h.truncated⟩, rfl⟩
  · rw [if_neg htext] at hreader hitems
    cases hreader
    cases hitems
    exact ⟨h, rfl⟩

/-- The text that the limit left is cut as the whole text of the run is. -/
theorem keepText {limit bound : Nat} (h : Together limit items reader)
    (hcounted : xml.Counted limit bound)
    (htotal : xml.textTotal ≤ bound) (hlimit : limits.maxCellBytes = limit) (total : Nat)
    (hcollects : items.collecting = true) :
    Together limit { items with runs := items.runs ++ [xml.text], collecting := false }
      (SharedReader.keepText limits (xml.limited limit) { reader with totalText := total }) := by
  have hin := h.collects hcollects
  have hlength : xml.textTotal = xml.text.length := by
    rw [hcounted.length]
    omega
  have hused : reader.strings.arena.length - reader.itemStart =
      (keepRuns limit items.runs).length := by
    rw [← h.kept hin, List.length_drop]
  have hnext : keepRuns limit (items.runs ++ [xml.text]) =
      keepRun limit (keepRuns limit items.runs) xml.text := by
    simp [keepRuns]
  have hcut : (xml.limited limit).text = xml.text.take limit := rfl
  refine ⟨?_, h.inItem, h.phoneticDepth, rfl, fun hc => Bool.noConfusion hc, fun hout => ?_,
    fun _ => h.start hin, fun _ => ?_, fun _ => ?_, fun _ => ?_⟩
  · exact h.table.grow _
  · rw [hin] at hout
    cases hout
  · show reader.itemStart ≤ (reader.strings.arena ++ _).length
    rw [List.length_append]
    exact (h.start_le hin).trans (Nat.le_add_right _ _)
  · show (reader.strings.arena ++ _).drop reader.itemStart = _
    rw [List.drop_append_of_le_length (h.start_le hin), h.kept hin, hnext, keepRun, hused, hcut,
      hlimit]
  · have hflag : (SharedReader.keepText limits (xml.limited limit)
        { reader with totalText := total }).itemTruncated =
        (reader.itemTruncated || decide ((utf8Prefix (xml.text.take limit)
          (limits.maxCellBytes - (reader.strings.arena.length - reader.itemStart))).length <
            (xml.text.take limit).length) || decide (limit < xml.textTotal)) := rfl
    have hfront := (utf8Prefix_isPrefix (xml.text.take limit)
      (limit - (keepRuns limit items.runs).length)).length_le
    have hall : (keepRuns limit items.runs).length ≤ items.runs.flatten.length := by
      have hkept := foldl_keepRun_length_le limit [] items.runs
      simpa [keepRuns] using hkept
    rw [hflag, h.truncated hin, hused, hlimit, hnext, keepRun, hlength]
    rw [List.length_take] at hfront
    simp only [List.flatten_append, List.flatten_singleton, List.length_append, List.length_take]
    rw [Bool.eq_iff_iff]
    simp only [Bool.or_eq_true, decide_eq_true_eq]
    omega

theorem endTag {bound : Nat} (h : Together limits.maxCellBytes items reader)
    (hcounted : xml.Counted limits.maxCellBytes bound)
    (hbound : limits.maxSharedStringBytes ≤ bound)
    (hreader : reader.endTag limits (xml.limited limits.maxCellBytes) = .ok (reader', collect))
    (hitems : items.endTag xml = .ok (items', collect')) :
    Together limits.maxCellBytes items' reader' ∧ collect = collect' := by
  have hname : (xml.limited limits.maxCellBytes).name = xml.name := rfl
  have htotal : (xml.limited limits.maxCellBytes).textTotal = xml.textTotal := rfl
  unfold SharedReader.endTag at hreader
  unfold ItemReader.endTag at hitems
  rw [hname, htotal] at hreader
  have hcollecting := h.collecting
  by_cases htext : xml.name = textName ∧ items.collecting = true
  · rw [if_pos htext] at hitems
    rw [if_pos (by rwa [hcollecting])] at hreader
    dsimp only at hreader
    split_ifs at hreader with htoo
    cases hreader
    cases hitems
    exact ⟨h.keepText hcounted (by omega) rfl _ htext.2, rfl⟩
  rw [if_neg htext] at hitems
  rw [if_neg (by rwa [hcollecting])] at hreader
  by_cases hphonetic : xml.name = phoneticName
  · rw [if_pos hphonetic] at hreader hitems
    cases hreader
    cases hitems
    exact ⟨h.phonetic (· - 1), rfl⟩
  rw [if_neg hphonetic] at hreader hitems
  rw [h.inItem] at hreader
  by_cases hitem : xml.name = itemName ∧ items.inItem = true
  · rw [if_pos hitem] at hreader hitems
    obtain ⟨-, hin⟩ := hitem
    by_cases hcollects : items.collecting = true
    · rw [if_pos hcollects] at hitems
      cases hitems
    rw [if_neg hcollects] at hitems
    obtain ⟨strings, hpush, hreader⟩ := ok_of_bind hreader
    cases hreader
    cases hitems
    have htable := h.table.push (h.start hin) (h.start_le hin) (h.kept hin) (h.truncated hin) hpush
    exact ⟨⟨htable, rfl, h.phoneticDepth, h.collecting, fun hc => absurd hc hcollects,
      fun _ => SharedStrings.pushString_startOf hpush, fun hout => Bool.noConfusion hout,
      fun hout => Bool.noConfusion hout, fun hout => Bool.noConfusion hout,
      fun hout => Bool.noConfusion hout⟩, rfl⟩
  · rw [if_neg hitem] at hreader hitems
    cases hreader
    cases hitems
    exact ⟨h, rfl⟩

theorem event {bound : Nat} (h : Together limits.maxCellBytes items reader)
    (hcounted : xml.Counted limits.maxCellBytes bound)
    (hbound : limits.maxSharedStringBytes ≤ bound)
    {event : XmlEvent}
    (hreader : SharedReader.event limits event (xml.limited limits.maxCellBytes) reader =
      .ok (reader', collect))
    (hitems : ItemReader.event event xml items = .ok (items', collect')) :
    Together limits.maxCellBytes items' reader' ∧ collect = collect' := by
  cases event with
  | startTag empty => exact h.startTag rfl hreader hitems
  | endTag => exact h.endTag hcounted hbound hreader hitems
  | text =>
    cases hreader
    cases hitems
    exact ⟨h, rfl⟩

end Together

/-- Both readers read the part to its end, the one of the table under a lower limit. -/
theorem eachEvent_together {S W : Type} {io : ByteStream S W} {token : W → Bool × W}
    {limits : XlsxLimits} {bound : Nat} (hbound : limits.maxSharedStringBytes ≤ bound) (fuel : Nat)
    {events : Nat} {items items' : ItemReader} {reader reader' : SharedReader}
    {cursor : PartCursor S}
    {w : W} {p p' : PartCursor S × W} (hcounted : cursor.xml.Counted limits.maxCellBytes bound)
    (h : Together limits.maxCellBytes items reader)
    (hreader : PartCursor.eachEvent io token (SharedReader.event limits) fuel events reader
      (cursor.limited limits.maxCellBytes, w) = (.ok reader', p))
    (hitems : PartCursor.eachEvent io token ItemReader.event fuel events items (cursor, w) =
      (.ok items', p')) : Together limits.maxCellBytes items' reader' := by
  induction fuel generalizing events items reader cursor w with
  | zero => cases hitems
  | succ fuel ih =>
    obtain ⟨found, mid, hnext, hitems⟩ := Exec.ok_of_bind hitems
    obtain ⟨found', mid', hnext', hreader⟩ := Exec.ok_of_bind hreader
    obtain ⟨hseen, hkept⟩ := PartCursor.next_viewed cursor w hcounted
    rw [hnext] at hseen hkept
    rw [hnext'] at hseen
    cases hseen
    cases found with
    | none =>
      cases hreader
      cases hitems
      exact h
    | some event =>
      obtain ⟨cursor, w⟩ := mid
      obtain ⟨u, mid, hpoll, hitems⟩ := Exec.ok_of_bind hitems
      obtain ⟨u', mid', hpoll', hreader⟩ := Exec.ok_of_bind hreader
      obtain ⟨hseen, hkept⟩ := PartCursor.poll_viewed _ cursor w hkept
      rw [hpoll] at hseen hkept
      rw [hpoll'] at hseen
      cases hseen
      obtain ⟨cursor, w⟩ := mid
      rw [Exec.run_get_bind] at hitems hreader
      obtain ⟨r, mid, hbody, hitems⟩ := Exec.ok_of_bind hitems
      obtain ⟨r', mid', hbody', hreader⟩ := Exec.ok_of_bind hreader
      obtain ⟨hitem, rfl⟩ := PartCursor.run_ofExcept hbody
      obtain ⟨hread, rfl⟩ := PartCursor.run_ofExcept hbody'
      obtain ⟨htogether, hcollect⟩ := h.event hkept hbound hread hitem
      rw [Exec.run_modify_bind] at hitems hreader
      obtain ⟨hanswer, hcounted⟩ := PartCursor.answer_limited hkept r.2
      rw [hcollect, hanswer] at hreader
      exact ih hcounted htogether hreader hitems

/-- A table that is read holds the items of its part: what is kept of each, marked if that is
not all of it. -/
theorem readSharedStrings_holds {S W : Type} {io : ByteStream S W} {token : W → Bool × W}
    {opened : Exec W XlsxError (Option (S × PartName))} {part : PartName} {limits : XlsxLimits}
    {w w' w'' : W} {strings : SharedStrings} {items : List (List (List Byte))}
    (hstrings : readSharedStrings io token opened part limits w = (.ok strings, w'))
    (hitems : readItems io token opened part limits w = (.ok items, w'')) :
    strings.Holds limits.maxCellBytes items := by
  obtain ⟨reader, mid, hreader, hstrings⟩ := Exec.ok_of_bind hstrings
  obtain ⟨itemReader, mid', hitem, hitems⟩ := Exec.ok_of_bind hitems
  cases hstrings
  cases hitems
  unfold readPart at hreader hitem
  rcases hopened : opened w with ⟨error | _ | ⟨stream, name⟩, w₁⟩
  · rw [hopened] at hreader
    cases hreader
  · rw [hopened] at hreader
    cases hreader
  rw [hopened] at hreader hitem
  dsimp only at hreader hitem
  have hbound := Nat.le_max_right limits.maxCellBytes limits.maxSharedStringBytes
  have hlower := Nat.le_max_left limits.maxCellBytes limits.maxSharedStringBytes
  generalize max limits.maxCellBytes limits.maxSharedStringBytes = bound at hitem hbound hlower
  have hcounted : (XmlTokenizer.new name limits.maxTagBytes bound).Counted
    limits.maxCellBytes bound :=
    ⟨hlower, rfl, (Nat.min_zero _).symm⟩
  have hlimited : (⟨stream, .new name limits.maxTagBytes limits.maxCellBytes⟩ : PartCursor S) =
      PartCursor.limited limits.maxCellBytes ⟨stream, .new name limits.maxTagBytes bound⟩ := by
    simp [PartCursor.limited, XmlTokenizer.limited, XmlTokenizer.new]
  rcases hrun : PartCursor.eachEvent io token (SharedReader.event limits) (io.todo stream + 2) 0
    .start (⟨stream, .new name limits.maxTagBytes limits.maxCellBytes⟩, w₁) with
    ⟨error | reader', p⟩
  · rw [hrun] at hreader
    cases hreader
  rcases hrun' : PartCursor.eachEvent io token ItemReader.event (io.todo stream + 2) 0 .start
    (⟨stream, .new name limits.maxTagBytes bound⟩, w₁) with ⟨error | itemReader', p'⟩
  · rw [hrun'] at hitem
    cases hitem
  rw [hrun] at hreader
  rw [hrun'] at hitem
  cases hreader
  cases hitem
  rw [hlimited] at hrun
  exact (eachEvent_together hbound _ hcounted .start_start hrun hrun').table


/-- An item is marked exactly if its text is not all kept. What is kept of it is a front of its
text if it stops at the first cut, and for texts in UTF-8 only then. -/
theorem shared_strings_kept {S W : Type} (io : ByteStream S W) (token : W → Bool × W)
    (opened : Exec W XlsxError (Option (S × PartName))) (part : PartName) (limits : XlsxLimits)
    {w w' w'' : W} {strings : SharedStrings} {items : List (List (List Byte))}
    (hstrings : readSharedStrings io token opened part limits w = (.ok strings, w'))
    (hitems : readItems io token opened part limits w = (.ok items, w'')) :
    strings.ends.length = items.length ∧
    ∀ i runs, items[i]? = some runs → ∃ kept truncated, strings.get i = some (kept, truncated) ∧
      (truncated = true ↔ kept.length < runs.flatten.length) ∧
      (StopsAtCut limits.maxCellBytes limits.maxCellBytes runs → kept <+: runs.flatten) ∧
      ((∀ run ∈ runs, ∃ text, run = encoded text) →
        (kept <+: runs.flatten ↔ StopsAtCut limits.maxCellBytes limits.maxCellBytes runs)) := by
  have hholds := readSharedStrings_holds hstrings hitems
  refine ⟨hholds.count, fun i runs hruns => ⟨_, _, hholds.get i runs hruns, ?_, ?_, ?_⟩⟩
  · rw [decide_eq_true_eq]
  · intro hstops
    exact hstops.keepRuns_isPrefix
  · exact keepRuns_isPrefix_iff

/-! ### A run behind a gap -/

open SheetCursor (wholePart neverCancelled)

/-- The second run has no room for its only character, the third has. -/
def gapPart : List Byte :=
  encoded "<sst><si><r><t>abc</t></r><r><t>é</t></r><r><t>d</t></r></si></sst>".toList

/-- Here nothing comes behind the run without room. -/
def cutPart : List Byte :=
  encoded "<sst><si><r><t>abc</t></r><r><t>é</t></r></si></sst>".toList

def fourBytes : XlsxLimits := { XlsxLimits.standard with maxCellBytes := 4 }

def gapItem : List (List Byte) := [encoded ['a', 'b', 'c'], encoded ['é'], encoded ['d']]

def cutItem : List (List Byte) := [encoded ['a', 'b', 'c'], encoded ['é']]

theorem gapPart_strings : readSharedStrings wholePart neverCancelled (pure (some (gapPart, []))) []
    fourBytes () = (.ok ⟨encoded ['a', 'b', 'c', 'd'], [4 + truncatedBit]⟩, ()) := by
  decide +kernel

theorem gapPart_items : readItems wholePart neverCancelled (pure (some (gapPart, []))) []
    fourBytes () = (.ok [gapItem], ()) := by
  decide +kernel

theorem cutPart_strings : readSharedStrings wholePart neverCancelled (pure (some (cutPart, []))) []
    fourBytes () = (.ok ⟨encoded ['a', 'b', 'c'], [3 + truncatedBit]⟩, ()) := by
  decide +kernel

theorem cutPart_items : readItems wholePart neverCancelled (pure (some (cutPart, []))) []
    fourBytes () = (.ok [cutItem], ()) := by
  decide +kernel

theorem encoded_gapItem : ∀ run ∈ gapItem, ∃ text, run = encoded text := by
  intro run hrun
  simp only [gapItem, List.mem_cons, List.not_mem_nil, or_false] at hrun
  rcases hrun with rfl | rfl | rfl <;> exact ⟨_, rfl⟩

theorem shared_strings_kept_cut :
    (∃ kept truncated, SharedStrings.get ⟨encoded ['a', 'b', 'c'], [3 + truncatedBit]⟩ 0 =
      some (kept, truncated) ∧ (truncated = true ↔ kept.length < 5) ∧ kept <+: cutItem.flatten) ∧
    ¬ StopsAtCut 4 4 gapItem := by
  obtain ⟨-, hcut⟩ := shared_strings_kept wholePart neverCancelled (pure (some (cutPart, []))) []
    fourBytes cutPart_strings cutPart_items
  obtain ⟨-, hgap⟩ := shared_strings_kept wholePart neverCancelled (pure (some (gapPart, []))) []
    fourBytes gapPart_strings gapPart_items
  obtain ⟨kept, truncated, hget, hmark, hfront, -⟩ := hcut 0 cutItem rfl
  have hstops : StopsAtCut 4 4 cutItem := by decide +kernel
  refine ⟨⟨kept, truncated, hget, hmark, hfront hstops⟩, fun hno => ?_⟩
  obtain ⟨kept, truncated, hget, -, -, hexact⟩ := hgap 0 gapItem rfl
  have hkept : SharedStrings.get ⟨encoded ['a', 'b', 'c', 'd'], [4 + truncatedBit]⟩ 0 =
      some (encoded ['a', 'b', 'c', 'd'], true) := by
    decide +kernel
  rw [hkept] at hget
  cases hget
  have hprefix := (hexact encoded_gapItem).mpr hno
  exact absurd hprefix (by decide)

/-- What is kept of the item is no front of its text. -/
theorem run_behind_gap : ∃ strings runs,
    readSharedStrings wholePart neverCancelled (pure (some (gapPart, []))) [] fourBytes () =
      (.ok strings, ()) ∧
    readItems wholePart neverCancelled (pure (some (gapPart, []))) [] fourBytes () =
      (.ok [runs], ()) ∧
    strings.get 0 = some (encoded ['a', 'b', 'c', 'd'], true) ∧
    runs.flatten = encoded ['a', 'b', 'c', 'é', 'd'] ∧
    ¬ encoded ['a', 'b', 'c', 'd'] <+: runs.flatten :=
  ⟨_, _, gapPart_strings, gapPart_items, by decide, by decide, by decide⟩

end LeanRows.Xlsx
