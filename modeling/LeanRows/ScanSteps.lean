import LeanRows.Lib.Mealy
import LeanRows.Scan

/-!
# What one feed call can do

`Scans` is the small-step relation of a scanner over the bytes ahead of it: a byte is
read, or a pending record is delivered in front of a byte that stays unread. Every call
of `feed_inner`, however it is cut short, is a sequence of such steps; the records still
to come are carried over each of them.
-/

namespace LeanRows

set_option autoImplicit false

namespace BoundaryScanner

variable {rules : BoundaryRules} {σ : Type}

/-! ### The fields of the scanner after each elementary update -/

@[simp] theorem advanceOffset_pending (s : BoundaryScanner rules) :
    s.advanceOffset.pendingCrEnd = s.pendingCrEnd := rfl
@[simp] theorem advanceOffset_offset (s : BoundaryScanner rules) :
    s.advanceOffset.offset = s.offset + 1 := rfl
@[simp] theorem advanceOffset_recordStart (s : BoundaryScanner rules) :
    s.advanceOffset.recordStart = s.recordStart := rfl
@[simp] theorem advanceOffset_state (s : BoundaryScanner rules) :
    s.advanceOffset.state = s.state := rfl
@[simp] theorem atOffset_pending (o : Nat) : (atOffset rules o).pendingCrEnd = none := rfl
@[simp] theorem atOffset_offset (o : Nat) : (atOffset rules o).offset = o := rfl
@[simp] theorem atOffset_recordStart (o : Nat) : (atOffset rules o).recordStart = o := rfl
@[simp] theorem atOffset_state (o : Nat) : (atOffset rules o).state = rules.fieldStart := rfl
@[simp] theorem holdCr_pending (s : BoundaryScanner rules) :
    s.holdCr.pendingCrEnd = some s.offset := rfl
@[simp] theorem holdCr_offset (s : BoundaryScanner rules) : s.holdCr.offset = s.offset := rfl
@[simp] theorem holdCr_recordStart (s : BoundaryScanner rules) :
    s.holdCr.recordStart = s.recordStart := rfl
@[simp] theorem holdCr_state (s : BoundaryScanner rules) : s.holdCr.state = s.state := rfl
@[simp] theorem withState_pending (s : BoundaryScanner rules) (q : rules.State) :
    (s.withState q).pendingCrEnd = s.pendingCrEnd := rfl
@[simp] theorem withState_offset (s : BoundaryScanner rules) (q : rules.State) :
    (s.withState q).offset = s.offset := rfl
@[simp] theorem withState_recordStart (s : BoundaryScanner rules) (q : rules.State) :
    (s.withState q).recordStart = s.recordStart := rfl
@[simp] theorem withState_state (s : BoundaryScanner rules) (q : rules.State) :
    (s.withState q).state = q := rfl

/-! ### One byte -/

theorem flushCr_none {s : BoundaryScanner rules} (h : s.pendingCrEnd = none) (byte : Byte) :
    s.flushCr byte = none := by
  unfold flushCr
  split
  · rfl
  · simp_all

theorem flushCr_lf (s : BoundaryScanner rules) : s.flushCr lf = none := by
  unfold flushCr
  split <;> simp

theorem flushCr_pending {s : BoundaryScanner rules} {recordEnd : Nat}
    (h : s.pendingCrEnd = some recordEnd) {byte : Byte} (hbyte : byte ≠ lf) :
    s.flushCr byte = some (⟨s.recordStart, recordEnd, recordStart_le_of_pending h⟩,
      atOffset rules s.offset) := by
  unfold flushCr
  split
  · simp_all
  · rename_i e he
    cases h.symm.trans he
    simp [hbyte, completeRecord]

theorem takeByte_pending {s : BoundaryScanner rules} {recordEnd : Nat}
    (h : s.pendingCrEnd = some recordEnd) (byte : Byte) :
    s.takeByte byte = (some ⟨s.recordStart, recordEnd, recordStart_le_of_pending h⟩,
      atOffset rules (s.offset + 1)) := by
  unfold takeByte
  split
  · rename_i e he
    cases h.symm.trans he
    rfl
  · simp_all

theorem takeByte_none {s : BoundaryScanner rules} (h : s.pendingCrEnd = none) (byte : Byte) :
    s.takeByte byte =
      if !rules.inQuotes s.state && byte == cr then (none, s.holdCr.advanceOffset)
      else if !rules.inQuotes s.state && byte == lf then
        (some ⟨s.recordStart, s.offset, s.recordStart_le_offset⟩, atOffset rules (s.offset + 1))
      else (none, (s.withState (rules.next s.state byte)).advanceOffset) := by
  unfold takeByte
  split
  · simp_all
  · rfl

theorem takeByte_offset (s : BoundaryScanner rules) (byte : Byte) :
    (s.takeByte byte).2.offset = s.offset + 1 := by
  cases h : s.pendingCrEnd with
  | some e => rw [takeByte_pending h]; rfl
  | none =>
    rw [takeByte_none h]
    split
    · rfl
    split <;> rfl

/-- A byte that ends a record leaves a fresh scanner. -/
theorem takeByte_some {s : BoundaryScanner rules} {byte : Byte} {span : RecordSpan}
    (h : (s.takeByte byte).1 = some span) :
    (s.takeByte byte).2 = atOffset rules (s.offset + 1) := by
  cases hp : s.pendingCrEnd with
  | some e => rw [takeByte_pending hp]
  | none =>
    rw [takeByte_none hp] at h ⊢
    split
    · simp_all
    split
    · rfl
    · simp_all

theorem flushCr_offset {s next : BoundaryScanner rules} {byte : Byte} {span : RecordSpan}
    (h : s.flushCr byte = some (span, next)) : next = atOffset rules s.offset := by
  cases hp : s.pendingCrEnd with
  | none => simp [flushCr_none hp] at h
  | some e =>
    by_cases hb : byte = lf
    · subst hb
      simp [flushCr_lf] at h
    · rw [flushCr_pending hp hb] at h
      cases h
      rfl

/-! ### The scanner as a stream machine -/

/-- The scanner that reads `byte`: a pending record in front of it is delivered first. -/
def beforeByte (s : BoundaryScanner rules) (byte : Byte) : BoundaryScanner rules :=
  ((s.flushCr byte).map Prod.snd).getD s

/-- The records a byte makes the scanner deliver, and the scanner after it. -/
def stream (rules : BoundaryRules) : Mealy Byte RecordSpan (BoundaryScanner rules) where
  step s byte := (((s.flushCr byte).map Prod.fst).toList ++
    ((s.beforeByte byte).takeByte byte).1.toList, ((s.beforeByte byte).takeByte byte).2)
  finish s := s.lastRecord.toList

theorem beforeByte_flushed {s next : BoundaryScanner rules} {byte : Byte} {span : RecordSpan}
    (h : s.flushCr byte = some (span, next)) : s.beforeByte byte = next := by
  simp [beforeByte, h]

theorem beforeByte_self {s : BoundaryScanner rules} {byte : Byte}
    (h : s.flushCr byte = none) : s.beforeByte byte = s := by
  simp [beforeByte, h]

theorem beforeByte_offset (s : BoundaryScanner rules) (byte : Byte) :
    (s.beforeByte byte).offset = s.offset := by
  cases h : s.flushCr byte with
  | none => rw [beforeByte_self h]
  | some p => rw [beforeByte_flushed h, flushCr_offset h, atOffset_offset]

theorem stream_step_offset (s : BoundaryScanner rules) (byte : Byte) :
    ((stream rules).step s byte).2.offset = s.offset + 1 := by
  simp [stream, takeByte_offset, beforeByte_offset]

theorem after_offset (s : BoundaryScanner rules) (bytes : List Byte) :
    ((stream rules).after s bytes).offset = s.offset + bytes.length := by
  induction bytes generalizing s with
  | nil => rfl
  | cons byte bytes ih =>
    rw [Mealy.after_cons, ih, stream_step_offset, List.length_cons]
    omega

/-- The scanner steps, over the bytes ahead, that deliver the listed records. -/
inductive Scans : BoundaryScanner rules → List Byte → List RecordSpan →
    BoundaryScanner rules → List Byte → Prop where
  | refl (s : BoundaryScanner rules) (bytes : List Byte) : Scans s bytes [] s bytes
  | flush {s next s' : BoundaryScanner rules} {byte : Byte} {span : RecordSpan}
      {bytes rest : List Byte} {spans : List RecordSpan} :
      s.flushCr byte = some (span, next) → Scans next (byte :: bytes) spans s' rest →
      Scans s (byte :: bytes) (span :: spans) s' rest
  | take {s s' : BoundaryScanner rules} {byte : Byte} {bytes rest : List Byte}
      {spans : List RecordSpan} :
      s.flushCr byte = none → Scans (s.takeByte byte).2 bytes spans s' rest →
      Scans s (byte :: bytes) ((s.takeByte byte).1.toList ++ spans) s' rest

namespace Scans

variable {s s' s'' : BoundaryScanner rules} {bytes rest rest' : List Byte}
  {spans spans' : List RecordSpan}

theorem trans (h : Scans s bytes spans s' rest) (h' : Scans s' rest spans' s'' rest') :
    Scans s bytes (spans ++ spans') s'' rest' := by
  induction h with
  | refl => exact h'
  | flush hf _ ih => exact .flush hf (ih h')
  | take hf _ ih =>
    rw [List.append_assoc]
    exact .take hf (ih h')

/-- Bytes further ahead do not matter. -/
theorem append (h : Scans s bytes spans s' rest) (more : List Byte) :
    Scans s (bytes ++ more) spans s' (rest ++ more) := by
  induction h with
  | refl => exact .refl _ _
  | flush hf _ ih => exact .flush hf ih
  | take hf _ ih => exact .take hf ih

/-- The records still to come are those delivered and those left. -/
theorem remaining_eq (h : Scans s bytes spans s' rest) :
    (stream rules).remaining s bytes = spans ++ (stream rules).remaining s' rest := by
  induction h with
  | refl => rfl
  | @flush s next s' byte span bytes rest spans hf _ ih =>
    have hnone : next.flushCr byte = none := by
      rw [flushCr_offset hf]
      exact flushCr_none rfl byte
    rw [List.cons_append, ← ih, Mealy.remaining_cons, Mealy.remaining_cons]
    simp [stream, hf, hnone, beforeByte_flushed hf, beforeByte_self hnone]
  | take hf _ ih =>
    rw [Mealy.remaining_cons, List.append_assoc, ← ih]
    simp [stream, hf, beforeByte_self hf]

/-- A step over the bytes ahead leads to the same scanner at the end of them. -/
theorem after_eq (h : Scans s bytes spans s' rest) :
    (stream rules).after s bytes = (stream rules).after s' rest := by
  induction h with
  | refl => rfl
  | @flush s next s' byte span bytes rest spans hf _ ih =>
    have hnone : next.flushCr byte = none := by
      rw [flushCr_offset hf]
      exact flushCr_none rfl byte
    rw [← ih]
    simp [stream, beforeByte_flushed hf, beforeByte_self hnone]
  | take hf _ ih =>
    rw [← ih]
    simp [stream, beforeByte_self hf]

theorem offset_eq (h : Scans s bytes spans s' rest) :
    s.offset + bytes.length = s'.offset + rest.length := by
  rw [← after_offset, h.after_eq, after_offset]

theorem suffix (h : Scans s bytes spans s' rest) : rest <:+ bytes := by
  induction h with
  | refl => exact List.suffix_rfl
  | flush _ _ ih => exact ih
  | take _ _ ih => exact ih.trans (List.suffix_cons _ _)

/-- The bytes left ahead of a scanner are determined by its offset. -/
theorem rest_eq (h : Scans s bytes spans s' rest) :
    s.offset ≤ s'.offset ∧ rest = bytes.drop (s'.offset - s.offset) := by
  have hlen := h.offset_eq
  have hle := h.suffix.length_le
  refine ⟨by omega, ?_⟩
  rw [List.suffix_iff_eq_drop.mp h.suffix]
  congr 1
  omega

end Scans

/-! ### One call of the loop -/

/-- The sink is called on `spans` in turn, and asks to stop at the last of them or not at
all. -/
inductive Delivers (emit : RecordSpan → σ → EmitControl × σ) :
    σ → List RecordSpan → EmitControl → σ → Prop where
  | nil (sink : σ) : Delivers emit sink [] .continue sink
  | stop {sink sink' : σ} {span : RecordSpan} :
      emit span sink = (.stop, sink') → Delivers emit sink [span] .stop sink'
  | continue {sink sink' sink'' : σ} {span : RecordSpan} {spans : List RecordSpan}
      {control : EmitControl} :
      emit span sink = (.continue, sink') → Delivers emit sink' spans control sink'' →
      Delivers emit sink (span :: spans) control sink''

/-- A sink that never stops receives every record. -/
theorem Delivers.of_continue {emit : RecordSpan → σ → EmitControl × σ}
    (hemit : ∀ span sink, (emit span sink).1 = .continue) {sink sink' : σ}
    {spans : List RecordSpan} {control : EmitControl}
    (h : Delivers emit sink spans control sink') :
    control = .continue ∧ sink' = spans.foldl (fun sink span => (emit span sink).2) sink := by
  induction h with
  | nil => exact ⟨rfl, rfl⟩
  | stop hstop =>
    have := hemit _ _ ▸ congrArg Prod.fst hstop
    cases this
  | «continue» hcont _ ih =>
    refine ⟨ih.1, ?_⟩
    rw [ih.2, List.foldl_cons, hcont]

/-- A sink that always stops receives at most one record. -/
theorem Delivers.of_stop {emit : RecordSpan → σ → EmitControl × σ}
    (hemit : ∀ span sink, (emit span sink).1 = .stop) {sink sink' : σ}
    {spans : List RecordSpan} {control : EmitControl}
    (h : Delivers emit sink spans control sink') :
    (spans = [] ∧ control = .continue ∧ sink' = sink) ∨
      ∃ span, spans = [span] ∧ control = .stop ∧ sink' = (emit span sink).2 := by
  cases h with
  | nil => exact .inl ⟨rfl, rfl, rfl⟩
  | stop hstop => exact .inr ⟨_, rfl, rfl, by rw [hstop]⟩
  | «continue» hcont _ =>
    have := hemit _ _ ▸ congrArg Prod.fst hcont
    cases this

/-- How a call that has taken the bytes up to `rest` came to its answer. -/
inductive Answers (cancel : Option CancelCheck) (taken : Nat) (rest : List Byte)
    (s : BoundaryScanner rules) : EmitControl → Except ScanError ScanProgress → Prop where
  | complete : rest = [] → Answers cancel taken rest s .continue (.ok ⟨taken, .complete⟩)
  | stopped : Answers cancel taken rest s .stop (.ok ⟨taken, .stopped⟩)
  | cancelled : rest ≠ [] → CancelCheck.fires cancel taken →
      Answers cancel taken rest s .continue (.ok ⟨taken, .cancelled⟩)
  | overflow : rest ≠ [] → u64Bound ≤ s.offset + 1 →
      Answers cancel taken rest s .continue (.error .offsetOverflow)

/-- Resuming at the offset a call reports leaves exactly the bytes it did not take. -/
theorem drop_taken {chunk rest : List Byte} (h : rest <:+ chunk) (more : List Byte) :
    (chunk ++ more).drop (chunk.length - rest.length) = rest ++ more := by
  rw [List.drop_append_of_le_length (Nat.sub_le _ _), ← List.suffix_iff_eq_drop.mp h]

/-- A finished call: scanner steps over a prefix of the chunk, with the records they
deliver passed to the sink. A stop comes right behind a record. -/
structure FeedSteps (cancel : Option CancelCheck) (emit : RecordSpan → σ → EmitControl × σ)
    (chunk : List Byte) (first : Nat) (s : BoundaryScanner rules) (sink : σ)
    (r : Feed rules σ) (spans : List RecordSpan) (rest : List Byte)
    (control : EmitControl) (s' : BoundaryScanner rules) : Prop where
  scans : Scans s chunk spans s' rest
  delivers : Delivers emit sink spans control r.sink
  answers : Answers cancel (first + (chunk.length - rest.length)) rest s' control r.result
  scanner : ∀ progress, r.result = .ok progress → r.scanner = s'
  fresh : control = .stop → s' = atOffset rules s'.offset

section Loop
variable (cancel : Option CancelCheck) (emit : RecordSpan → σ → EmitControl × σ)

@[simp] theorem deliver_none (sink : σ) : deliver emit none sink = (.continue, sink) := rfl

@[simp] theorem deliver_some (span : RecordSpan) (sink : σ) :
    deliver emit (some span) sink = emit span sink := rfl

theorem feedInner_nil (first : Nat) (s : BoundaryScanner rules) (sink : σ) :
    feedInner cancel emit [] first s sink = ⟨s, sink, .ok ⟨first, .complete⟩⟩ := rfl

theorem feedInner_cancelled {byte : Byte} {chunk : List Byte} {first : Nat}
    {s : BoundaryScanner rules} {sink : σ} (h : CancelCheck.fires cancel first) :
    feedInner cancel emit (byte :: chunk) first s sink =
      ⟨s, sink, .ok ⟨first, .cancelled⟩⟩ := by
  simp [feedInner, h]

/-- The loop body once no record waits in front of the byte. -/
theorem feedInner_take {byte : Byte} {chunk : List Byte} {first : Nat}
    {s : BoundaryScanner rules} {sink : σ} (hc : CancelCheck.fires cancel first = false)
    (hf : s.flushCr byte = none) :
    feedInner cancel emit (byte :: chunk) first s sink =
      if s.canAdvance then
        match deliver emit (s.takeByte byte).1 sink with
        | (.stop, sink) => ⟨(s.takeByte byte).2, sink, .ok ⟨first + 1, .stopped⟩⟩
        | (.continue, sink) =>
          feedInner cancel emit chunk (first + 1) (s.takeByte byte).2 sink
      else ⟨s.overflowed byte, sink, .error .offsetOverflow⟩ := by
  rw [feedInner]
  by_cases hadvance : s.canAdvance
  · rcases hsent : deliver emit (s.takeByte byte).1 sink with ⟨_ | _, sink'⟩
    · simp [hc, hf, hadvance, hsent, deliver_none]
    · simp [hc, hf, hadvance, hsent, deliver_none]
  · simp [hc, hf, hadvance, deliver_none]

theorem feedInner_flush {byte : Byte} {chunk : List Byte} {first : Nat}
    {s next : BoundaryScanner rules} {span : RecordSpan} {sink : σ}
    (hc : CancelCheck.fires cancel first = false) (hf : s.flushCr byte = some (span, next)) :
    feedInner cancel emit (byte :: chunk) first s sink =
      match emit span sink with
      | (.stop, sink) => ⟨next, sink, .ok ⟨first, .stopped⟩⟩
      | (.continue, sink) => feedInner cancel emit (byte :: chunk) first next sink := by
  have hnone : next.flushCr byte = none := by
    rw [flushCr_offset hf]
    exact flushCr_none rfl byte
  rcases hemit : emit span sink with ⟨_ | _, sink'⟩
  · dsimp only
    rw [feedInner_take cancel emit hc hnone, feedInner]
    by_cases hadvance : next.canAdvance
    · rcases hsent : deliver emit (next.takeByte byte).1 sink' with ⟨_ | _, sink''⟩
      · simp [hc, hf, hemit, hadvance, hsent]
      · simp [hc, hf, hemit, hadvance, hsent]
    · simp [hc, hf, hemit, hadvance]
  · rw [feedInner]
    simp [hc, hf, hemit]

theorem feedInner_take_steps {byte : Byte} {chunk : List Byte} {first : Nat}
    {s : BoundaryScanner rules} {sink : σ} (hc : CancelCheck.fires cancel first = false)
    (hf : s.flushCr byte = none)
    (ih : ∀ (s : BoundaryScanner rules) (sink : σ), ∃ spans rest control s',
      FeedSteps cancel emit chunk (first + 1) s sink
        (feedInner cancel emit chunk (first + 1) s sink) spans rest control s') :
    ∃ spans rest control s', FeedSteps cancel emit (byte :: chunk) first s sink
      (feedInner cancel emit (byte :: chunk) first s sink) spans rest control s' := by
  rw [feedInner_take cancel emit hc hf]
  by_cases ha : s.canAdvance
  swap
  · have hover : u64Bound ≤ s.offset + 1 := by simpa [canAdvance] using ha
    refine ⟨[], byte :: chunk, .continue, s, ?_⟩
    rw [if_neg ha]
    exact ⟨.refl _ _, .nil _, .overflow (by simp) hover, by simp, by simp⟩
  rw [if_pos ha]
  rcases hd : deliver emit (s.takeByte byte).1 sink with ⟨_ | _, sink'⟩
  · -- the loop goes on behind the byte
    obtain ⟨spans, rest, control, s', h⟩ := ih (s.takeByte byte).2 sink'
    refine ⟨_, rest, control, s', ⟨.take hf h.scans, ?_, ?_, h.scanner, h.fresh⟩⟩
    · cases hspan : (s.takeByte byte).1 with
      | none =>
        obtain rfl : sink = sink' := by simpa [hspan] using hd
        simpa [hspan] using h.delivers
      | some span => exact .continue (by simpa [hspan] using hd) h.delivers
    · have hle := h.scans.suffix.length_le
      have htaken : first + ((byte :: chunk).length - rest.length) =
          first + 1 + (chunk.length - rest.length) := by
        rw [List.length_cons]
        omega
      rw [htaken]
      exact h.answers
  · cases hspan : (s.takeByte byte).1 with
    | none => simp [hspan] at hd
    | some span =>
      refine ⟨(s.takeByte byte).1.toList ++ [], chunk, .stop, (s.takeByte byte).2,
        ⟨.take hf (.refl _ _), ?_, ?_, by simp, ?_⟩⟩
      · rw [hspan]
        exact .stop (by simpa [hspan] using hd)
      · simpa using Answers.stopped
      · intro _
        rw [takeByte_some hspan, atOffset_offset]

theorem feedInner_steps (chunk : List Byte) (first : Nat) (s : BoundaryScanner rules)
    (sink : σ) : ∃ spans rest control s', FeedSteps cancel emit chunk first s sink
      (feedInner cancel emit chunk first s sink) spans rest control s' := by
  induction chunk generalizing first s sink with
  | nil => exact ⟨[], [], .continue, s, .refl _ _, .nil _, by simpa using .complete rfl, by
      simp [feedInner_nil], by simp⟩
  | cons byte chunk ih =>
    cases hc : CancelCheck.fires cancel first with
    | true =>
      refine ⟨[], byte :: chunk, .continue, s, ?_⟩
      rw [feedInner_cancelled cancel emit hc]
      exact ⟨.refl _ _, .nil _, by simpa using .cancelled (by simp) (by simpa using hc), by simp,
        by simp⟩
    | false =>
      cases hf : s.flushCr byte with
      | none => exact feedInner_take_steps cancel emit hc hf fun s sink => ih (first + 1) s sink
      | some p =>
        obtain ⟨span, next⟩ := p
        have hnone : next.flushCr byte = none := by
          rw [flushCr_offset hf]
          exact flushCr_none rfl byte
        rw [feedInner_flush cancel emit hc hf]
        rcases hemit : emit span sink with ⟨_ | _, sink'⟩
        · obtain ⟨spans, rest, control, s', h⟩ :=
            feedInner_take_steps (s := next) cancel emit hc hnone
              fun s sink => ih (first + 1) s sink
          exact ⟨span :: spans, rest, control, s', .flush hf h.scans,
            .continue hemit h.delivers, h.answers, h.scanner, h.fresh⟩
        · exact ⟨[span], byte :: chunk, .stop, next, .flush hf (.refl _ _), .stop hemit,
            by simpa using .stopped, by simp, fun _ => by rw [flushCr_offset hf, atOffset_offset]⟩

end Loop

end BoundaryScanner

end LeanRows
