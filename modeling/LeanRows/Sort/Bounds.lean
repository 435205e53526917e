import LeanRows.Sort.Extract

/-!
# What the key machines ask for

A machine asks the source for bytes of its own record only, whatever the source answers, and
what it counts is no more than the bytes it has read.
-/

namespace LeanRows.Sort

set_option autoImplicit false

/-- The key lies inside its row. -/
structure Descriptor.Inside (d : Descriptor) : Prop where
  start_le : d.start ≤ d.keyStart
  key_le : d.keyStart ≤ d.keyEnd
  keyEnd_le : d.keyEnd ≤ d.stop

/-- The numbers of a descriptor have room in their fields. -/
structure Descriptor.Sized (d : Descriptor) : Prop where
  row : d.row < u64Bound
  stop : d.stop < u64Bound
  len : d.len < u64Bound
  leading : d.leading < u64Bound
  digits : d.digits < u64Bound
  group : d.group ≤ 2
  sign : -1 ≤ d.sign ∧ d.sign ≤ 1
  magnitude : -2 ^ 127 ≤ d.magnitude ∧ d.magnitude < 2 ^ 127

structure Descriptor.Fits (d : Descriptor) : Prop extends d.Inside, d.Sized

/-! ## Sources -/

section Source
variable {W : Type}

/-- The source may be asked for bytes between `low` and `high`, and keeps `L` by its answers. -/
def Serves (L : W → Prop) (source : PositionedRead W) (low high : Nat) : Prop :=
  ∀ offset len, low ≤ offset → offset + len ≤ high →
    Exec.Preserves L (checkedRead source offset len)

theorem checkedRead_length (source : PositionedRead W) (offset len : Nat) :
    (checkedRead source offset len).Ensures fun bytes => 0 < bytes.length ∧ bytes.length ≤ len := by
  intro w bytes h
  unfold checkedRead at h
  split at h
  · cases h
  · split at h
    · cases h
    · cases h
      omega

theorem Serves.checkedRead {L : W → Prop} {source : PositionedRead W} {low high : Nat}
    (h : Serves L source low high) {offset len : Nat} (hlow : low ≤ offset)
    (hhigh : offset + len ≤ high) :
    Exec.Triple L (Sort.checkedRead source offset len)
      (fun bytes w => L w ∧ 0 < bytes.length ∧ bytes.length ≤ len) (fun _ => L) := by
  intro w hw
  have hkept := (h offset len hlow hhigh w hw).2
  have hlength := checkedRead_length source offset len w
  rcases hrun : Sort.checkedRead source offset len w with ⟨error | bytes, w'⟩
  · rwa [hrun] at hkept
  · rw [hrun] at hkept hlength
    exact ⟨hkept, hlength bytes rfl⟩

theorem Serves.mono {L : W → Prop} {source : PositionedRead W} {low high low' high' : Nat}
    (h : Serves L source low high) (hlow : low ≤ low') (hhigh : high' ≤ high) :
    Serves L source low' high' :=
  fun offset len hlow' hhigh' => h offset len (hlow.trans hlow') (hhigh'.trans hhigh)

theorem serves_any {source : PositionedRead W} {low high : Nat} :
    Serves (fun _ => True) source low high := fun _ _ _ _ => .self fun _ _ => trivial

end Source

/-! ## Finding the field -/

namespace Locator

variable {low high : Nat} {l : Locator}

/-- The locator stands in its record, and the field it is in starts there. -/
structure Inside (low high : Nat) (l : Locator) : Prop extends l.descriptor.Sized where
  start_eq : l.descriptor.start = low
  stop_eq : l.descriptor.stop = high
  low_le : low ≤ l.fieldStart
  field_le : l.fieldStart ≤ l.cursor
  cursor_le : l.cursor ≤ high
  empty : l.descriptor.len = 0

/-- A field found in the record. -/
structure Found (low high : Nat) (d : Descriptor) : Prop extends d.Fits where
  start_eq : d.start = low
  stop_eq : d.stop = high
  empty : d.len = 0

theorem Inside.found (h : l.Inside low high) {keyStart keyEnd : Nat} (hstart : low ≤ keyStart)
    (hkey : keyStart ≤ keyEnd) (hend : keyEnd ≤ high) :
    Found low high { l.descriptor with keyStart := keyStart, keyEnd := keyEnd } where
  start_le := h.start_eq.trans_le hstart
  key_le := hkey
  keyEnd_le := hend.trans_eq h.stop_eq.symm
  row := h.row
  stop := h.stop
  len := h.len
  leading := h.leading
  digits := h.digits
  group := h.group
  sign := h.sign
  magnitude := h.magnitude
  start_eq := h.start_eq
  stop_eq := h.stop_eq
  empty := h.empty

theorem Inside.atEnd (h : l.Inside low high) : Found low high l.atEnd := by
  have hle := h.low_le.trans h.field_le
  rw [Locator.atEnd]
  split_ifs
  · exact h.found h.low_le h.field_le h.cursor_le
  · exact h.found hle (Nat.le_refl _) h.cursor_le

/-- The same descriptor but for its quote, a field that starts no later than the cursor. -/
theorem Inside.move (h : l.Inside low high) {l' : Locator} {quoted : Bool}
    (hdescriptor : l'.descriptor = { l.descriptor with quoted := quoted })
    (hlow : low ≤ l'.fieldStart) (hfield : l'.fieldStart ≤ l'.cursor) (hcursor : l'.cursor ≤ high) :
    l'.Inside low high := by
  refine ⟨?_, ?_, ?_, hlow, hfield, hcursor, ?_⟩
  · rw [hdescriptor]
    exact ⟨h.row, h.stop, h.len, h.leading, h.digits, h.group, h.sign, h.magnitude⟩
  · rw [hdescriptor]
    exact h.start_eq
  · rw [hdescriptor]
    exact h.stop_eq
  · rw [hdescriptor]
    exact h.empty

theorem readByte_inside (h : l.Inside low high) (hlt : l.cursor < high) (byte : Byte) :
    match l.readByte byte with
    | (some d, _) => Found low high d
    | (none, l') => l'.Inside low high ∧ l'.cursor = l.cursor + 1 := by
  have hlow := h.low_le
  have hfield := h.field_le
  simp only [readByte]
  cases l.delimiter with
  | none => exact ⟨h.move rfl hlow (hfield.trans (Nat.le_succ _)) hlt, rfl⟩
  | some delimiter =>
    dsimp only
    split_ifs
    · exact ⟨h.move rfl hlow (hfield.trans (Nat.le_succ _)) hlt, rfl⟩
    · exact ⟨h.move rfl hlow (hfield.trans (Nat.le_succ _)) hlt, rfl⟩
    · exact ⟨h.move rfl hlow (hfield.trans (Nat.le_succ _)) hlt, rfl⟩
    · exact ⟨h.move rfl hlow (hfield.trans (Nat.le_succ _)) hlt, rfl⟩
    · exact h.found hlow hfield h.cursor_le
    · exact ⟨h.move rfl (hlow.trans (hfield.trans (Nat.le_succ _))) (Nat.le_refl _) hlt, rfl⟩
    · exact ⟨h.move rfl hlow (hfield.trans (Nat.le_succ _)) hlt, rfl⟩

theorem readBytes_inside (bytes : List Byte) (budget : Nat) (h : l.Inside low high)
    (hlen : l.cursor + bytes.length ≤ high) :
    match l.readBytes bytes budget with
    | (some d, _) => Found low high d
    | (none, _, l') => l'.Inside low high := by
  induction bytes generalizing budget l with
  | nil => exact h
  | cons byte bytes ih =>
    rw [List.length_cons] at hlen
    have hbyte := readByte_inside h (by omega) byte
    rw [readBytes]
    rcases hread : l.readByte byte with ⟨_ | d, l'⟩
    · rw [hread] at hbyte
      have hcursor := hbyte.2
      exact ih (budget - 1) hbyte.1 (by omega)
    · rw [hread] at hbyte
      exact hbyte

section Source
variable {W : Type} {source : PositionedRead W} {L : W → Prop}

theorem readLoop_inside (hsource : Serves L source low high) (fuel budget : Nat)
    (h : l.Inside low high) :
    Exec.Triple L (readLoop source fuel budget l)
      (fun r w => L w ∧ Exec.CallEnds (Inside low high) (Found low high) r) (fun _ => L) := by
  induction fuel generalizing budget l with
  | zero => exact .pure fun _ hw => ⟨hw, h⟩
  | succ fuel ih =>
    unfold readLoop
    split_ifs with hmore
    swap
    · exact .pure fun _ hw => ⟨hw, h⟩
    have hlow := h.low_le.trans h.field_le
    have hstop := h.stop_eq
    have hhigh : l.cursor + min (min budget readerBytes) (l.descriptor.stop - l.cursor) ≤ high := by
      omega
    refine .bind (hsource.checkedRead hlow hhigh) fun bytes w hw => ?_
    obtain ⟨hw, -, hlength⟩ := hw
    have hbytes := readBytes_inside bytes budget h (by omega)
    rcases hreads : l.readBytes bytes budget with ⟨_ | d, left, l'⟩
    · rw [hreads] at hbytes
      exact ih left hbytes w hw
    · rw [hreads] at hbytes
      exact ⟨hw, hbytes⟩

theorem advance_inside (hsource : Serves L source low high) (budget : Nat)
    (h : l.Inside low high) :
    Exec.Triple L (l.advance source budget)
      (fun r w => L w ∧ Exec.CallEnds (Inside low high) (Found low high) r) (fun _ => L) := by
  refine .bind (readLoop_inside hsource budget budget h) ?_
  rintro ⟨_ | d, left, l'⟩ w ⟨hw, hr⟩
  · dsimp only
    split_ifs with hend
    · exact ⟨hw, Inside.atEnd hr⟩
    · exact ⟨hw, hr⟩
  · exact ⟨hw, hr⟩

end Source

theorem new_inside {row column : Nat} (hrow : row < u64Bound) {span : RecordSpan}
    (hspan : span.stop < u64Bound) (format : ViewportFormat) :
    (Locator.new row span format column).Inside span.start span.stop where
  row := hrow
  stop := hspan
  len := show 0 < u64Bound by decide
  leading := show 0 < u64Bound by decide
  digits := show 0 < u64Bound by decide
  group := Nat.zero_le 2
  sign := show (-1 : Int) ≤ 0 ∧ (0 : Int) ≤ 1 by decide
  magnitude := show (-2 ^ 127 : Int) ≤ 0 ∧ (0 : Int) < 2 ^ 127 by decide
  start_eq := rfl
  stop_eq := rfl
  low_le := Nat.le_refl _
  field_le := Nat.le_refl _
  cursor_le := span.start_le_stop
  empty := rfl

end Locator

/-! ## Reading its value -/

namespace Cursor

variable {low high : Nat} {c : Cursor}

/-- The buffer holds bytes from `low` on, and none behind `high`. -/
structure Inside (low high : Nat) (c : Cursor) : Prop where
  low_le : low ≤ c.offset
  pending_le : c.offset + c.pending.length ≤ c.stop
  stop_le : c.stop ≤ high

theorem Inside.decode (h : c.Inside low high) (byte : Byte) :
    (c.decode byte).2.Inside low high := by
  obtain ⟨hoffset, hstop, hpending⟩ := decode_offset c byte
  refine ⟨?_, ?_, ?_⟩
  · rw [hoffset]
    exact h.low_le
  · rw [hoffset, hstop, hpending]
    exact h.pending_le
  · rw [hstop]
    exact h.stop_le

section Source
variable {W : Type} {source : PositionedRead W} {L : W → Prop}

theorem fill_inside (hsource : Serves L source low high) (h : c.Inside low high) :
    Exec.Triple L (c.fill source) (fun filled w => L w ∧ ∀ c', filled = some c' →
      c'.Inside low high ∧ 0 < c'.pending.length ∧ c'.offset = c.offset) (fun _ => L) := by
  obtain ⟨hlow, hpending, hstop⟩ := h
  unfold fill
  split_ifs with hempty hend
  · exact .pure fun _ hw => ⟨hw, fun _ h => by cases h⟩
  · have hhigh : c.offset + min readerBytes (c.stop - c.offset) ≤ high := by omega
    refine .bind (hsource.checkedRead hlow hhigh) fun bytes w hw => ?_
    obtain ⟨hw, hpos, hlength⟩ := hw
    refine ⟨hw, ?_⟩
    rintro _ ⟨⟩
    exact ⟨⟨hlow, by dsimp only; omega, hstop⟩, hpos, rfl⟩
  · refine .pure fun _ hw => ⟨hw, ?_⟩
    rintro _ ⟨⟩
    have hpos : c.pending ≠ [] := by simpa using hempty
    exact ⟨⟨hlow, hpending, hstop⟩, List.length_pos_of_ne_nil hpos, rfl⟩

/-- A byte that is handed out has been read. -/
def Stepped (L : W → Prop) (low high offset : Nat) (r : ByteStep × Nat × Cursor) (w : W) : Prop :=
  L w ∧ r.2.2.Inside low high ∧ offset ≤ r.2.2.offset ∧
    ∀ byte, r.1 = .byte byte → offset < r.2.2.offset

theorem next_inside (hsource : Serves L source low high) (budget : Nat) (h : c.Inside low high) :
    Exec.Triple L (c.next source budget) (Stepped L low high c.offset) (fun _ => L) := by
  induction budget generalizing c with
  | zero => exact .pure fun _ hw => ⟨hw, h, Nat.le_refl _, fun _ h => by cases h⟩
  | succ budget ih =>
    unfold next
    refine .bind (fill_inside hsource h) ?_
    rintro (_ | filled) w ⟨hw, hfilled⟩
    · exact ⟨hw, h, Nat.le_refl _, fun _ h => by cases h⟩
    obtain ⟨hinside, hpos, hoffset⟩ := hfilled filled rfl
    have hpending := hinside.pending_le
    have hlow := hinside.low_le
    generalize htaken : ({ filled with
      pending := filled.pending.tail, offset := filled.offset + 1 } : Cursor) = taken
    have htakenOffset : taken.offset = c.offset + 1 := by
      rw [← htaken, ← hoffset]
    have htakenInside : taken.Inside low high := by
      rw [← htaken]
      refine ⟨by dsimp only; omega, ?_, hinside.stop_le⟩
      dsimp only
      rw [List.length_tail]
      omega
    have hdecode := htakenInside.decode (filled.pending.headD 0)
    have hdecodeOffset := (decode_offset taken (filled.pending.headD 0)).1
    dsimp only
    rw [htaken]
    rcases hbyte : taken.decode (filled.pending.headD 0) with ⟨_ | value, c'⟩
    · rw [hbyte] at hdecode hdecodeOffset
      replace hdecode : c'.Inside low high := hdecode
      have hnext := ih hdecode w hw
      dsimp only at hdecodeOffset ⊢
      revert hnext
      rcases next source budget c' w with ⟨error | r, w'⟩
      · exact id
      · rintro ⟨hw', hinside', hle, hlt⟩
        refine ⟨hw', hinside', by omega, fun byte hbyte => ?_⟩
        have hmore := hlt byte hbyte
        omega
    · rw [hbyte] at hdecode hdecodeOffset
      dsimp only at hdecodeOffset
      exact ⟨hw, hdecode, by dsimp only; omega, fun _ _ => by dsimp only; omega⟩

end Source

theorem new_inside {d : Descriptor} (h : d.keyStart ≤ d.keyEnd) (quote : Byte) :
    (Cursor.new d quote).Inside d.keyStart d.keyEnd :=
  ⟨Nat.le_refl _, h, Nat.le_refl _⟩

end Cursor

namespace Digits

variable {W : Type} {source : PositionedRead W} {L : W → Prop} {low high : Nat} {d : Digits}

/-- The digits of a key are read where the key is. -/
def Stepped (L : W → Prop) (low high : Nat) (r : ByteStep × Nat × Digits) (w : W) : Prop :=
  L w ∧ r.2.2.cursor.Inside low high

theorem readLoop_inside (hsource : Serves L source low high) (fuel budget : Nat)
    (h : d.cursor.Inside low high) :
    Exec.Triple L (readLoop source fuel budget d) (Stepped L low high) (fun _ => L) := by
  induction fuel generalizing budget d with
  | zero => exact .pure fun _ hw => ⟨hw, h⟩
  | succ fuel ih =>
    unfold readLoop
    refine .bind (Cursor.next_inside hsource budget h) ?_
    rintro ⟨_ | _ | _, left, cursor⟩ w ⟨hw, hcursor, -⟩
    · dsimp only
      split_ifs
      · exact ⟨hw, hcursor⟩
      · exact ih left hcursor w hw
      · exact ⟨hw, hcursor⟩
      · exact ih left hcursor w hw
    · exact ⟨hw, hcursor⟩
    · exact ⟨hw, hcursor⟩

theorem next_inside (hsource : Serves L source low high) (budget : Nat)
    (h : d.cursor.Inside low high) :
    Exec.Triple L (d.next source budget) (Stepped L low high) (fun _ => L) := by
  unfold next
  split_ifs
  · exact .pure fun _ hw => ⟨hw, h⟩
  · exact readLoop_inside hsource _ budget h

end Digits

/-! ## Describing the key -/

namespace Number

variable {n : Number} {seen : Nat}

/-- What is counted are digits, and no more than the bytes that were seen. -/
structure Counted (seen : Nat) (n : Number) : Prop where
  leading_le : n.leading ≤ n.digits
  beforeDot_le : n.beforeDot ≤ n.digits
  digits_le : n.digits ≤ seen
  exp_le : n.exp ≤ i64Max

theorem Counted.digit (h : n.Counted seen) (byte : Byte) (integer : Bool) :
    (n.digit byte integer).Counted (seen + 1) := by
  obtain ⟨hleading, hbefore, hdigits, hexp⟩ := h
  refine ⟨?_, ?_, Nat.succ_le_succ hdigits, hexp⟩ <;> dsimp only [Number.digit]
  · split_ifs <;> omega
  · split_ifs <;> omega

theorem Counted.exponent (h : n.Counted seen) (byte : Byte) :
    (n.exponent byte).Counted (seen + 1) := by
  refine ⟨h.leading_le, h.beforeDot_le, h.digits_le.trans (Nat.le_succ _), ?_⟩
  dsimp only [Number.exponent]
  split_ifs with hfits
  · exact hfits
  · exact h.exp_le

/-- A byte that only changes the state. -/
theorem Counted.state (h : n.Counted seen) {n' : Number} (hleading : n'.leading = n.leading)
    (hbefore : n'.beforeDot = n.beforeDot) (hdigits : n'.digits = n.digits)
    (hexp : n'.exp = n.exp) : n'.Counted (seen + 1) := by
  obtain ⟨hleading', hbefore', hdigits', hexp'⟩ := h
  exact ⟨by omega, by omega, by omega, by omega⟩

theorem Counted.push (h : n.Counted seen) (byte : Byte) : (n.push byte).Counted (seen + 1) := by
  have hsame : ∀ state, ({ n with state := state } : Number).Counted seen :=
    fun _ => ⟨h.leading_le, h.beforeDot_le, h.digits_le, h.exp_le⟩
  unfold Number.push
  by_cases hinvalid : n.invalid = true
  · rw [if_pos hinvalid]
    exact h.state rfl rfl rfl rfl
  rw [if_neg hinvalid]
  by_cases hspace : isAsciiWhitespace byte = true
  · rw [if_pos hspace]
    exact h.state rfl rfl rfl rfl
  rw [if_neg hspace]
  cases n.state with
  | blank =>
    dsimp only
    split_ifs
    · exact h.state rfl rfl rfl rfl
    · exact h.state rfl rfl rfl rfl
    · exact (hsame .whole).digit byte true
    · exact h.state rfl rfl rfl rfl
  | signed | whole =>
    dsimp only
    split_ifs
    · exact (hsame .whole).digit byte true
    · exact h.state rfl rfl rfl rfl
    · exact h.state rfl rfl rfl rfl
    · exact h.state rfl rfl rfl rfl
  | fraction =>
    dsimp only
    split_ifs
    · exact h.digit byte false
    · exact h.state rfl rfl rfl rfl
    · exact h.state rfl rfl rfl rfl
  | marked =>
    dsimp only
    split_ifs
    · exact h.state rfl rfl rfl rfl
    · exact (hsame .exponent).exponent byte
    · exact h.state rfl rfl rfl rfl
  | exponentSigned | exponent =>
    dsimp only
    split_ifs
    · exact (hsame .exponent).exponent byte
    · exact h.state rfl rfl rfl rfl
  | trailing => exact h.state rfl rfl rfl rfl

theorem Counted.finish (h : n.Counted seen) {d d' : Descriptor} (hd : d.Fits) (hlen : d.len = seen)
    (hfinish : n.finish d = .ok d') : d'.Fits := by
  obtain ⟨hleading, hbefore, hdigits, hexp⟩ := h
  have hsize := hd.len
  have hgroup : (if d.len = 0 ∨ (n.state = .blank ∧ ¬ n.invalid) then 2 else 1) ≤ 2 := by
    split_ifs <;> omega
  simp only [Number.finish] at hfinish
  by_cases hrejected : n.rejected = true
  · rw [if_pos hrejected] at hfinish
    cases hfinish
    exact ⟨⟨hd.start_le, hd.key_le, hd.keyEnd_le⟩, ⟨hd.row, hd.stop, hd.len, hd.leading,
      hd.digits, hgroup, hd.sign, hd.magnitude⟩⟩
  rw [if_neg hrejected] at hfinish
  by_cases hoverflow : n.expOverflow = true
  · rw [if_pos hoverflow] at hfinish
    cases hfinish
  rw [if_neg hoverflow] at hfinish
  cases hfinish
  have hsign : -1 ≤ (if !n.significant then 0 else if n.negative then -1 else 1 : Int) ∧
      (if !n.significant then 0 else if n.negative then -1 else 1 : Int) ≤ 1 := by
    split_ifs <;> decide
  have hexponent : -(n.exp : Int) ≤ (if n.expNegative then -n.exp else n.exp : Int) ∧
      (if n.expNegative then -n.exp else n.exp : Int) ≤ n.exp := by
    split_ifs <;> omega
  have hmagnitude : -2 ^ 127 ≤ (n.beforeDot - n.leading : Int) +
        (if n.expNegative then -n.exp else n.exp : Int) ∧
      (n.beforeDot - n.leading : Int) + (if n.expNegative then -n.exp else n.exp : Int) <
        2 ^ 127 := by
    generalize (if n.expNegative then -n.exp else n.exp : Int) = exponent at hexponent ⊢
    simp only [u64Bound, i64Max] at hsize hexp
    norm_num at hsize hexp ⊢
    omega
  exact ⟨⟨hd.start_le, hd.key_le, hd.keyEnd_le⟩, ⟨hd.row, hd.stop, hd.len, by dsimp only; omega,
    by dsimp only; omega, Nat.zero_le 2, hsign, hmagnitude⟩⟩

theorem new_counted : Number.new.Counted 0 :=
  ⟨Nat.le_refl _, Nat.le_refl _, Nat.le_refl _, Nat.zero_le _⟩

end Number

namespace Builder

variable {low high : Nat} {b : Builder}

/-- The bytes of the key that were counted have been read. -/
structure Inside (low high : Nat) (b : Builder) : Prop where
  fits : b.descriptor.Fits
  high_le : high ≤ b.descriptor.stop
  cursor : b.cursor.Inside (low + b.descriptor.len) high
  number : b.number.Counted b.descriptor.len

theorem new_inside {d : Descriptor} (h : d.Fits) (hempty : d.len = 0) (quote : Byte) :
    (Builder.new d quote).Inside d.keyStart d.keyEnd where
  fits := h
  high_le := h.keyEnd_le
  cursor := by
    have hcursor := Cursor.new_inside h.key_le quote
    rwa [← Nat.add_zero d.keyStart, ← hempty] at hcursor
  number := show Number.new.Counted d.len from hempty ▸ Number.new_counted

theorem Inside.pushByte (h : b.Inside low high) {cursor : Cursor}
    (hcursor : cursor.Inside (low + b.descriptor.len) high)
    (hread : b.cursor.offset < cursor.offset) (mode : SortMode) (byte : Byte) :
    (({ b with cursor := cursor } : Builder).pushByte mode byte).Inside low high := by
  obtain ⟨hfits, hhigh, hold, hnumber⟩ := h
  have hlow := hold.low_le
  have hpending := hcursor.pending_le
  have hend := hcursor.stop_le
  have hstop := hfits.stop
  refine ⟨⟨⟨hfits.start_le, hfits.key_le, hfits.keyEnd_le⟩, ⟨hfits.row, hfits.stop, ?_,
    hfits.leading, hfits.digits, hfits.group, hfits.sign, hfits.magnitude⟩⟩, hhigh, ?_, ?_⟩
  · change b.descriptor.len + 1 < u64Bound
    omega
  · exact ⟨by change low + (b.descriptor.len + 1) ≤ cursor.offset; omega, hpending, hend⟩
  · change (if mode = .numeric then b.number.push byte else b.number).Counted (b.descriptor.len + 1)
    split_ifs
    · exact hnumber.push byte
    · exact hnumber.state rfl rfl rfl rfl

theorem Inside.atEnd (h : b.Inside low high) {mode : SortMode} {d : Descriptor}
    (hend : b.atEnd mode = .ok d) : d.Fits := by
  unfold Builder.atEnd at hend
  split_ifs at hend
  · exact h.number.finish h.fits rfl hend
  · cases hend
    exact h.fits

section Source
variable {W : Type} {source : PositionedRead W} {L : W → Prop}

theorem readLoop_inside (hsource : Serves L source low high) (mode : SortMode) (fuel budget : Nat)
    (h : b.Inside low high) :
    Exec.Triple L (readLoop source mode fuel budget b)
      (fun r w => L w ∧ Exec.CallEnds (Inside low high) Descriptor.Fits r) (fun _ => L) := by
  induction fuel generalizing budget b with
  | zero => exact .pure fun _ hw => ⟨hw, h⟩
  | succ fuel ih =>
    have hsource' : Serves L source (low + b.descriptor.len) high :=
      hsource.mono (Nat.le_add_right _ _) (Nat.le_refl _)
    unfold readLoop
    refine .bind (Cursor.next_inside hsource' budget h.cursor) ?_
    rintro ⟨step, left, cursor⟩ w ⟨hw, hcursor, -, hread⟩
    have hmoved : ({ b with cursor := cursor } : Builder).Inside low high :=
      ⟨h.fits, h.high_le, hcursor, h.number⟩
    cases step with
    | byte byte => exact ih left (h.pushByte hcursor (hread byte rfl) mode byte) w hw
    | atEnd =>
      dsimp only
      cases hend : b.atEnd mode with
      | error error => exact hw
      | ok d => exact ⟨hw, h.atEnd hend⟩
    | yield => exact ⟨hw, hmoved⟩

theorem advance_inside (hsource : Serves L source low high) (mode : SortMode) (budget : Nat)
    (h : b.Inside low high) :
    Exec.Triple L (b.advance source mode budget)
      (fun r w => L w ∧ Exec.CallEnds (Inside low high) Descriptor.Fits r) (fun _ => L) :=
  readLoop_inside hsource mode (budget + 1) budget h

end Source

end Builder

/-! ## Comparing two keys -/

namespace Comparison

variable {W : Type} {source : PositionedRead W} {L : W → Prop} {a b : Descriptor} {c : Comparison}

/-- Each key is read in its own field. -/
structure Inside (a b : Descriptor) (c : Comparison) : Prop where
  ca : c.ca.Inside a.keyStart a.keyEnd
  da : c.da.cursor.Inside a.keyStart a.keyEnd
  cb : c.cb.Inside b.keyStart b.keyEnd
  db : c.db.cursor.Inside b.keyStart b.keyEnd

theorem new_inside (ha : a.Inside) (hb : b.Inside) (request : SortRequest) (quote : Byte) :
    (new a b request quote).Inside a b :=
  ⟨Cursor.new_inside ha.key_le quote, Cursor.new_inside ha.key_le quote,
    Cursor.new_inside hb.key_le quote, Cursor.new_inside hb.key_le quote⟩

variable (ha : Serves L source a.keyStart a.keyEnd) (hb : Serves L source b.keyStart b.keyEnd)

include ha in
theorem nextLeft_inside (budget : Nat) (h : c.Inside a b) :
    Exec.Triple L (nextLeft source budget c) (fun r w => L w ∧ r.2.2.Inside a b) (fun _ => L) := by
  unfold nextLeft
  split_ifs
  · exact .bind (Digits.next_inside ha budget h.da) fun r =>
      .pure fun _ hr => ⟨hr.1, h.ca, hr.2, h.cb, h.db⟩
  · exact .bind (Cursor.next_inside ha budget h.ca) fun r =>
      .pure fun _ hr => ⟨hr.1, hr.2.1, h.da, h.cb, h.db⟩

include hb in
theorem nextRight_inside (budget : Nat) (h : c.Inside a b) :
    Exec.Triple L (nextRight source budget c) (fun r w => L w ∧ r.2.2.Inside a b) (fun _ => L) := by
  unfold nextRight
  split_ifs
  · exact .bind (Digits.next_inside hb budget h.db) fun r =>
      .pure fun _ hr => ⟨hr.1, h.ca, h.da, h.cb, hr.2⟩
  · exact .bind (Cursor.next_inside hb budget h.cb) fun r =>
      .pure fun _ hr => ⟨hr.1, h.ca, h.da, hr.2.1, h.db⟩

include ha in
theorem takeLeft_inside (budget : Nat) (h : c.Inside a b) :
    Exec.Triple L (takeLeft source budget c) (fun r w => L w ∧ r.2.2.Inside a b) (fun _ => L) := by
  unfold takeLeft
  cases c.left with
  | some left => exact .pure fun _ hw => ⟨hw, h⟩
  | none =>
    refine .bind (nextLeft_inside ha budget h) ?_
    rintro ⟨_ | _ | _, left, c'⟩
    · exact .pure fun _ hr => ⟨hr.1, hr.2.ca, hr.2.da, hr.2.cb, hr.2.db⟩
    · exact .pure fun _ hr => ⟨hr.1, hr.2.ca, hr.2.da, hr.2.cb, hr.2.db⟩
    · exact .pure fun _ hr => hr

include ha hb in
theorem readLoop_inside (fuel budget : Nat) (h : c.Inside a b) :
    Exec.Triple L (readLoop source fuel budget c) (fun r w => L w ∧ r.2.2.Inside a b)
      (fun _ => L) := by
  induction fuel generalizing budget c with
  | zero => exact .pure fun _ hw => ⟨hw, h⟩
  | succ fuel ih =>
    unfold readLoop
    refine .bind (takeLeft_inside ha budget h) ?_
    rintro ⟨_ | left, taken, c'⟩ w ⟨hw, hc'⟩
    · exact ⟨hw, hc'⟩
    refine Exec.Triple.bind (nextRight_inside hb taken hc') ?_ w hw
    rintro ⟨step, left', c''⟩ w' ⟨hw', hc''⟩
    have hfree : ({ c'' with left := none } : Comparison).Inside a b :=
      ⟨hc''.ca, hc''.da, hc''.cb, hc''.db⟩
    cases step with
    | yield => exact ⟨hw', hc''⟩
    | byte byte =>
      dsimp only
      cases c''.orderOf left (some byte) with
      | some order => exact ⟨hw', hfree⟩
      | none => exact ih left' hfree w' hw'
    | atEnd =>
      dsimp only
      cases c''.orderOf left none with
      | some order => exact ⟨hw', hfree⟩
      | none => exact ih left' hfree w' hw'

include ha hb in
theorem advance_inside (budget : Nat) (h : c.Inside a b) :
    Exec.Triple L (c.advance source budget) (fun r w => L w ∧ r.2.2.Inside a b) (fun _ => L) := by
  have hfirst : ({ c with first := false } : Comparison).Inside a b := ⟨h.ca, h.da, h.cb, h.db⟩
  unfold advance
  cases (if c.first then decideOrder c.a c.b c.request else none) with
  | some order => exact .pure fun _ hw => ⟨hw, hfirst⟩
  | none => exact readLoop_inside ha hb _ budget hfirst

end Comparison

/-! ## Whole keys -/

section Key
variable {W : Type} {source : PositionedRead W} {L : W → Prop} {format : ViewportFormat}
  {row column : Nat} {span : RecordSpan}

theorem locate_inside (hsource : Serves L source span.start span.stop) (hrow : row < u64Bound)
    (hspan : span.stop < u64Bound) (budgets : List Nat) :
    Exec.Triple L (locate source format row span column budgets)
      (fun r w => L w ∧ ∀ d, r = some d → Locator.Found span.start span.stop d) (fun _ => L) := by
  refine .bind (Exec.resume_triple (Locator.Inside span.start span.stop)
    (Locator.Found span.start span.stop) ?_ budgets (Locator.new_inside hrow hspan format)) ?_
  · exact fun budget l h => Locator.advance_inside hsource budget h
  · exact fun r => .pure fun _ h => h

theorem build_inside {d : Descriptor} (hsource : Serves L source d.keyStart d.keyEnd)
    (h : d.Fits) (hempty : d.len = 0) (mode : SortMode) (budgets : List Nat) :
    Exec.Triple L (build source format mode d budgets)
      (fun r w => L w ∧ ∀ d', r = some d' → d'.Fits) (fun _ => L) := by
  refine .bind (Exec.resume_triple (Builder.Inside d.keyStart d.keyEnd) Descriptor.Fits ?_ budgets
    (Builder.new_inside h hempty _)) ?_
  · exact fun budget b h => Builder.advance_inside hsource mode budget h
  · exact fun r => .pure fun _ h => h

/-- The descriptor of a key has room in a record, and is made from bytes of its row. -/
theorem extractKey_inside (hsource : Serves L source span.start span.stop)
    (hrow : row < u64Bound) (hspan : span.stop < u64Bound) (mode : SortMode)
    (locating building : List Nat) :
    Exec.Triple L (extractKey source format mode row span column locating building)
      (fun r w => L w ∧ ∀ d, r = some d → d.Fits) (fun _ => L) := by
  refine .bind (locate_inside hsource hrow hspan locating) ?_
  rintro (_ | d) w ⟨hw, hd⟩
  · exact ⟨hw, fun _ h => by cases h⟩
  · have hfound := hd d rfl
    have hkey : Serves L source d.keyStart d.keyEnd :=
      hsource.mono (hfound.start_eq ▸ hfound.start_le) (hfound.stop_eq ▸ hfound.keyEnd_le)
    exact build_inside hkey hfound.toFits hfound.empty mode building w hw

theorem locate_fits (hrow : row < u64Bound) (hspan : span.stop < u64Bound) (budgets : List Nat) :
    (locate source format row span column budgets).Ensures fun r => ∀ d, r = some d → d.Fits :=
  ((locate_inside serves_any hrow hspan budgets).post_mono
    fun _ _ h d hd => (h.2 d hd).toFits).ensures fun _ => trivial

theorem extractKey_fits (hrow : row < u64Bound) (hspan : span.stop < u64Bound) (mode : SortMode)
    (locating building : List Nat) :
    (extractKey source format mode row span column locating building).Ensures fun r =>
      ∀ d, r = some d → d.Fits :=
  ((extractKey_inside serves_any hrow hspan mode locating building).post_mono
    fun _ _ h => h.2).ensures fun _ => trivial

/-- Two keys are compared by bytes of their fields. -/
theorem compare_inside {a b : Descriptor} (ha : Serves L source a.keyStart a.keyEnd)
    (hb : Serves L source b.keyStart b.keyEnd) (ha' : a.Inside) (hb' : b.Inside)
    (request : SortRequest) (quote : Byte) (budgets : List Nat) :
    Exec.Preserves L (Exec.resume (fun budget (c : Comparison) => c.advance source budget) budgets
      (.new a b request quote)) := by
  have hcall : ∀ budget (c : Comparison), c.Inside a b → Exec.Triple L (c.advance source budget)
      (fun r w => L w ∧ Exec.CallEnds (Comparison.Inside a b) (fun _ => True) r) (fun _ => L) := by
    intro budget c hc
    refine (Comparison.advance_inside ha hb budget hc).post_mono ?_
    rintro ⟨_ | order, left, c'⟩ w ⟨hw, hc'⟩
    · exact ⟨hw, hc'⟩
    · exact ⟨hw, trivial⟩
  exact .of_triple ((Exec.resume_triple (Comparison.Inside a b) (fun _ => True) hcall budgets
    (Comparison.new_inside ha' hb' request quote)).post_mono fun _ _ h => h.1)

end Key

end LeanRows.Sort
