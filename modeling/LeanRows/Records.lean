import LeanRows.Segmentation

/-!
# The records of a document

Facts about the segmentation itself: the records lie in the document one after another,
and a scanner started at the start of any record finds the same records from there on.
-/

namespace LeanRows

set_option autoImplicit false

namespace BoundaryScanner

variable {rules : BoundaryRules}

/-- A CR that has been read lies behind the record it ends. -/
def CrRead (s : BoundaryScanner rules) : Prop := ∀ e, s.pendingCrEnd = some e → e < s.offset

theorem crRead_atOffset (o : Nat) : CrRead (atOffset rules o) := by
  intro e he
  cases he

/-- A byte in front of which nothing is pending either ends a record or extends it. -/
theorem takeByte_cases (s : BoundaryScanner rules) (byte : Byte) :
    (∃ span, (s.takeByte byte).1 = some span ∧ span.start = s.recordStart ∧
        span.stop ≤ s.offset ∧ (s.takeByte byte).2 = atOffset rules (s.offset + 1)) ∨
    ((s.takeByte byte).1 = none ∧ (s.takeByte byte).2.recordStart = s.recordStart ∧
        (s.takeByte byte).2.CrRead) := by
  cases hp : s.pendingCrEnd with
  | some e =>
    rw [takeByte_pending hp]
    exact .inl ⟨_, rfl, rfl, pending_le_offset hp, rfl⟩
  | none =>
    rw [takeByte_none hp]
    split
    · refine .inr ⟨rfl, rfl, ?_⟩
      intro e he
      cases he
      exact Nat.lt_succ_self _
    split
    · exact .inl ⟨_, rfl, rfl, Nat.le_refl _, rfl⟩
    · refine .inr ⟨rfl, rfl, ?_⟩
      intro e he
      cases hp.symm.trans he

/-- The first record still to come starts where the scanner says, and behind it a fresh
scanner finds the others. -/
theorem first_record {s : BoundaryScanner rules} (hs : s.CrRead) {bytes : List Byte}
    {span : RecordSpan} {tail : List RecordSpan}
    (h : (stream rules).remaining s bytes = span :: tail) :
    span.start = s.recordStart ∧ ∃ o, span.stop ≤ o ∧ span.start < o ∧ s.offset ≤ o ∧
      o ≤ s.offset + bytes.length ∧
      tail = (stream rules).remaining (atOffset rules o) (bytes.drop (o - s.offset)) := by
  induction bytes generalizing s with
  | nil =>
    obtain ⟨hlast, rfl⟩ : s.lastRecord = some span ∧ tail = [] := by
      cases hl : s.lastRecord <;> simp_all [stream]
    have hfresh : (stream rules).remaining (atOffset rules s.offset) [] = [] := by
      simp [stream, lastRecord, atOffset]
    refine ⟨?_, s.offset, ?_⟩
    · unfold lastRecord at hlast
      split at hlast
      · cases hlast; rfl
      · split at hlast
        · cases hlast; rfl
        · cases hlast
    · unfold lastRecord at hlast
      split at hlast
      · rename_i e he
        cases hlast
        have hlt := hs e he
        have hle := recordStart_le_of_pending he
        exact ⟨Nat.le_of_lt hlt, Nat.lt_of_le_of_lt hle hlt, Nat.le_refl _, by simp,
          by simpa using hfresh.symm⟩
      · split at hlast
        · rename_i hlt
          cases hlast
          exact ⟨Nat.le_refl _, hlt, Nat.le_refl _, by simp, by simpa using hfresh.symm⟩
        · cases hlast
  | cons byte bytes ih =>
    cases hf : s.flushCr byte with
    | some p =>
      obtain ⟨flushed, next⟩ := p
      have hscan := Scans.flush hf (.refl next (byte :: bytes))
      rw [hscan.remaining_eq, List.cons_append, List.nil_append] at h
      cases hp : s.pendingCrEnd with
      | none => simp [flushCr_none hp] at hf
      | some e =>
        have hb : byte ≠ lf := by
          rintro rfl
          simp [flushCr_lf] at hf
        rw [flushCr_pending hp hb] at hf
        cases hf
        cases h
        have hlt := hs e hp
        refine ⟨rfl, s.offset, Nat.le_of_lt hlt, ?_, Nat.le_refl _, by simp, by simp⟩
        exact Nat.lt_of_le_of_lt (recordStart_le_of_pending hp) hlt
    | none =>
      have hscan := Scans.take hf (.refl (s.takeByte byte).2 bytes)
      rw [hscan.remaining_eq, List.append_nil] at h
      rcases takeByte_cases s byte with ⟨ended, hout, hstart, hstop, hnext⟩ |
        ⟨hout, hstart, hread⟩
      · rw [hout, hnext] at h
        cases h
        have hle := s.recordStart_le_offset
        refine ⟨hstart, s.offset + 1, by omega, by omega, by omega, by simp, ?_⟩
        simp
      · rw [hout] at h
        obtain ⟨hspan, o, h1, h2, h3, h4, h5⟩ := ih hread h
        rw [takeByte_offset] at h3 h4 h5
        refine ⟨hspan.trans hstart, o, h1, h2, by omega, ?_, ?_⟩
        · rw [List.length_cons]; omega
        · rw [h5, show o - s.offset = (o - (s.offset + 1)) + 1 by omega, List.drop_succ_cons]

/-- A record that is not the last one is delivered by a byte, and leaves a fresh scanner. -/
theorem first_record_scans {s : BoundaryScanner rules} {bytes : List Byte}
    {span : RecordSpan} {tail : List RecordSpan}
    (h : (stream rules).remaining s bytes = span :: tail) (hne : tail ≠ []) :
    ∃ o, Scans s bytes [span] (atOffset rules o) (bytes.drop (o - s.offset)) := by
  induction bytes generalizing s with
  | nil =>
    have hlen := congrArg List.length h
    have hpos := List.length_pos_iff.mpr hne
    have hone : ((stream rules).remaining s []).length ≤ 1 := by
      cases hl : s.lastRecord <;> simp [stream, hl]
    simp only [List.length_cons] at hlen
    omega
  | cons byte bytes ih =>
    cases hf : s.flushCr byte with
    | some p =>
      obtain ⟨flushed, next⟩ := p
      have hscan := Scans.flush hf (.refl next (byte :: bytes))
      rw [hscan.remaining_eq, List.cons_append, List.nil_append] at h
      cases h
      refine ⟨s.offset, ?_⟩
      rw [Nat.sub_self, List.drop_zero, ← flushCr_offset hf]
      exact hscan
    | none =>
      have hscan := Scans.take hf (.refl (s.takeByte byte).2 bytes)
      rw [hscan.remaining_eq, List.append_nil] at h
      cases hout : (s.takeByte byte).1 with
      | some ended =>
        rw [hout] at h hscan
        cases h
        refine ⟨s.offset + 1, ?_⟩
        rw [show s.offset + 1 - s.offset = 1 by omega, List.drop_succ_cons, List.drop_zero,
          ← takeByte_some hout]
        exact hscan
      | none =>
        rw [hout] at h hscan
        obtain ⟨o, ho⟩ := ih h
        have hoffset := ho.rest_eq.1
        rw [takeByte_offset] at hoffset ho
        refine ⟨o, ?_⟩
        rw [atOffset_offset] at hoffset
        rw [show o - s.offset = (o - (s.offset + 1)) + 1 by omega, List.drop_succ_cons]
        exact hscan.trans ho

/-- Bytes that belong to no record yet are in a record still to come. -/
theorem remaining_ne_nil {s : BoundaryScanner rules} {bytes : List Byte}
    (h : s.recordStart < s.offset + bytes.length) :
    (stream rules).remaining s bytes ≠ [] := by
  induction bytes generalizing s with
  | nil =>
    have hlast : s.lastRecord ≠ none := by
      unfold lastRecord
      split
      · simp
      · simpa using h
    cases hl : s.lastRecord with
    | none => exact absurd hl hlast
    | some span => simp [stream, hl]
  | cons byte bytes ih =>
    cases hf : s.flushCr byte with
    | some p =>
      have hscan := Scans.flush hf (.refl p.2 (byte :: bytes))
      simp [hscan.remaining_eq]
    | none =>
      have hscan := Scans.take hf (.refl (s.takeByte byte).2 bytes)
      rw [hscan.remaining_eq]
      cases hout : (s.takeByte byte).1 with
      | some span => simp
      | none =>
        have hstart : (s.takeByte byte).2.recordStart = s.recordStart := by
          cases hp : s.pendingCrEnd with
          | some e => simp [takeByte_pending hp] at hout
          | none =>
            rw [takeByte_none hp] at hout ⊢
            split
            · rfl
            split
            · simp_all
            · rfl
        have := ih (s := (s.takeByte byte).2) (by
          rw [hstart, takeByte_offset]
          simp only [List.length_cons] at h
          omega)
        simpa using this

/-- The records of `bytes`, read from offset `o` on. -/
def recordsFrom (rules : BoundaryRules) (o : Nat) (bytes : List Byte) : List RecordSpan :=
  (stream rules).remaining (atOffset rules o) bytes

theorem recordsFrom_eq_cons {o : Nat} {bytes : List Byte} {span : RecordSpan}
    {tail : List RecordSpan} (h : recordsFrom rules o bytes = span :: tail) :
    span.start = o ∧ ∃ k, span.stop ≤ o + k ∧ 0 < k ∧ k ≤ bytes.length ∧
      tail = recordsFrom rules (o + k) (bytes.drop k) := by
  obtain ⟨hstart, o', h1, h2, h3, h4, h5⟩ := first_record (crRead_atOffset o) h
  rw [atOffset_recordStart] at hstart
  rw [atOffset_offset] at h3 h4 h5
  refine ⟨hstart, o' - o, by omega, by omega, by omega, ?_⟩
  rw [h5, show o + (o' - o) = o' by omega]
  rfl

theorem recordsFrom_eq_nil {o : Nat} {bytes : List Byte} :
    recordsFrom rules o bytes = [] ↔ bytes = [] := by
  constructor
  · intro h
    by_contra hne
    have hlen : 0 < bytes.length := List.length_pos_iff.mpr hne
    exact remaining_ne_nil (s := atOffset rules o) (by simp; omega) h
  · rintro rfl
    simp [recordsFrom, stream, lastRecord, atOffset]

/-- Records lie behind the offset they are read from and inside the bytes. -/
theorem mem_recordsFrom {o : Nat} {bytes : List Byte} {span : RecordSpan}
    (h : span ∈ recordsFrom rules o bytes) :
    o ≤ span.start ∧ span.stop ≤ o + bytes.length ∧ span.start < o + bytes.length := by
  generalize hn : bytes.length = n
  induction n using Nat.strong_induction_on generalizing o bytes with
  | _ n ih =>
    cases hr : recordsFrom rules o bytes with
    | nil => simp [hr] at h
    | cons first tail =>
      obtain ⟨hstart, k, h1, h2, h3, h4⟩ := recordsFrom_eq_cons hr
      rw [hr, List.mem_cons] at h
      rcases h with rfl | h
      · omega
      · rw [h4] at h
        have := ih (n - k) (by omega) h (by simp [hn])
        omega

/-- Each record ends before the next one starts, and no two start at one place. -/
theorem recordsFrom_pairwise (o : Nat) (bytes : List Byte) :
    (recordsFrom rules o bytes).Pairwise fun a b => a.stop ≤ b.start ∧ a.start < b.start := by
  generalize hn : bytes.length = n
  induction n using Nat.strong_induction_on generalizing o bytes with
  | _ n ih =>
    cases hr : recordsFrom rules o bytes with
    | nil => exact .nil
    | cons first tail =>
      obtain ⟨hstart, k, h1, h2, h3, h4⟩ := recordsFrom_eq_cons hr
      refine .cons ?_ ?_
      · intro span hspan
        rw [h4] at hspan
        have := mem_recordsFrom hspan
        omega
      · rw [h4]
        exact ih (n - k) (by omega) _ _ (by simp [hn])

theorem recordsFrom_length_le (o : Nat) (bytes : List Byte) :
    (recordsFrom rules o bytes).length ≤ bytes.length := by
  generalize hn : bytes.length = n
  induction n using Nat.strong_induction_on generalizing o bytes with
  | _ n ih =>
    cases hr : recordsFrom rules o bytes with
    | nil => simp
    | cons first tail =>
      obtain ⟨hstart, k, h1, h2, h3, h4⟩ := recordsFrom_eq_cons hr
      have := ih (n - k) (by omega) (o + k) (bytes.drop k) (by simp [hn])
      rw [← h4] at this
      rw [List.length_cons]
      omega

/-- The start of a record is where the scanner, in its initial state, stands once it has
delivered the records in front. -/
theorem recordsFrom_scans {o r : Nat} {bytes : List Byte} {span : RecordSpan}
    (h : (recordsFrom rules o bytes)[r]? = some span) :
    Scans (atOffset rules o) bytes ((recordsFrom rules o bytes).take r)
      (atOffset rules span.start) (bytes.drop (span.start - o)) := by
  induction r generalizing o bytes with
  | zero =>
    cases hr : recordsFrom rules o bytes with
    | nil => simp [hr] at h
    | cons first tail =>
      obtain ⟨hstart, _⟩ := recordsFrom_eq_cons hr
      obtain rfl : first = span := by simpa [hr] using h
      rw [List.take_zero, hstart, Nat.sub_self, List.drop_zero]
      exact .refl _ _
  | succ r ih =>
    cases hr : recordsFrom rules o bytes with
    | nil => simp [hr] at h
    | cons first tail =>
      rw [hr, List.getElem?_cons_succ] at h
      have hne : tail ≠ [] := by
        rintro rfl
        cases h
      obtain ⟨o', hscan⟩ := first_record_scans hr hne
      have htail : tail = recordsFrom rules o' (bytes.drop (o' - o)) := by
        have := hscan.remaining_eq
        rw [recordsFrom] at hr
        rw [hr] at this
        exact (List.cons.inj this).2
      have hoffset := hscan.rest_eq.1
      rw [atOffset_offset, atOffset_offset] at hoffset
      rw [htail] at h ⊢
      have hmem := mem_recordsFrom (List.mem_of_getElem? h)
      have hrest := ih h
      rw [List.drop_drop, show o' - o + (span.start - o') = span.start - o by omega] at hrest
      exact hscan.trans hrest

end BoundaryScanner

open BoundaryScanner

section Document
variable {format : ViewportFormat} {document : List Byte}

theorem records_eq_recordsFrom (format : ViewportFormat) (document : List Byte) :
    records format document = recordsFrom format.rules 0 document :=
  (remaining_eq_records format document).symm

theorem record_stop_le {span : RecordSpan} (h : span ∈ records format document) :
    span.stop ≤ document.length := by
  rw [records_eq_recordsFrom] at h
  simpa using (mem_recordsFrom h).2.1

theorem records_length_le (format : ViewportFormat) (document : List Byte) :
    (records format document).length ≤ document.length := by
  rw [records_eq_recordsFrom]
  exact recordsFrom_length_le 0 document

theorem records_pairwise (format : ViewportFormat) (document : List Byte) :
    (records format document).Pairwise fun a b => a.stop ≤ b.start ∧ a.start < b.start := by
  rw [records_eq_recordsFrom]
  exact recordsFrom_pairwise 0 document

theorem records_eq_nil : records format document = [] ↔ document = [] := by
  rw [records_eq_recordsFrom]
  exact recordsFrom_eq_nil

theorem records_scans {r : Nat} {span : RecordSpan}
    (h : (records format document)[r]? = some span) :
    Scans (atOffset format.rules 0) document ((records format document).take r)
      (atOffset format.rules span.start) (document.drop span.start) := by
  rw [records_eq_recordsFrom] at h ⊢
  simpa using recordsFrom_scans h

theorem records_zero_start {span : RecordSpan}
    (h : (records format document)[0]? = some span) : span.start = 0 := by
  rw [records_eq_recordsFrom] at h
  cases hr : recordsFrom format.rules 0 document with
  | nil => simp [hr] at h
  | cons first tail =>
    obtain rfl : first = span := by simpa [hr] using h
    exact (recordsFrom_eq_cons hr).1

end Document

end LeanRows
