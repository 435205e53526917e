import LeanRows.Xlsx.Stream

/-!
# What a stream touches

Whatever the headers say and whatever the decompressor makes of the data, a stream reads no
byte outside the entry, stays in its window and comes to an end of every call: to bytes, to the
end of the entry or to an error.
-/

namespace LeanRows.Xlsx

set_option autoImplicit false

/-! ## Reads -/

/-- Every read asks for bytes of this range. -/
def Within (start stop : Nat) (log : List SourceEvent) : Prop :=
  ∀ offset len answer, SourceEvent.read offset len answer ∈ log →
    start ≤ offset ∧ offset + len ≤ stop

theorem Within.append {start stop : Nat} {log : List SourceEvent} (h : Within start stop log)
    {offset len : Nat} (answer : Except IoError (List Byte)) (hstart : start ≤ offset)
    (hstop : offset + len ≤ stop) : Within start stop (log ++ [.read offset len answer]) := by
  intro offset' len' answer' hmem
  rcases List.mem_append.mp hmem with hmem | hmem
  · exact h offset' len' answer' hmem
  · cases List.mem_singleton.mp hmem
    exact ⟨hstart, hstop⟩

section Read
variable {W : Type} {source : PositionedRead W} {start stop : Nat}

theorem readExactLoop_within {offset count : Nat} (hstart : start ≤ offset)
    (hstop : offset + count ≤ stop) (fuel : Nat) {filled : List Byte}
    (hle : filled.length ≤ count) (hfuel : count - filled.length ≤ fuel) :
    Exec.Triple (fun p => Within start stop p.1)
      (readExactLoop (source.logged id) offset count fuel filled)
      (fun bytes p => Within start stop p.1 ∧ bytes.length = count)
      (fun _ p => Within start stop p.1) := by
  induction fuel generalizing filled with
  | zero => exact .pure fun p hp => ⟨hp, by omega⟩
  | succ fuel ih =>
    unfold readExactLoop
    by_cases hroom : filled.length < count
    swap
    · rw [if_neg hroom]
      exact .pure fun p hp => ⟨hp, by omega⟩
    rw [if_pos hroom]
    cases hposition : checkedAdd offset filled.length with
    | none => exact .throw fun p hp => hp
    | some position =>
      obtain ⟨-, rfl⟩ := checkedAdd_eq_some.mp hposition
      rintro ⟨log, w⟩ hp
      have hlow : start ≤ offset + filled.length := by omega
      have hhigh : offset + filled.length + (count - filled.length) ≤ stop := by omega
      have hlog := hp.append (source.readAt w (offset + filled.length) (count - filled.length)).1
        hlow hhigh
      simp only [PositionedRead.logged, id]
      rcases hrun : source.readAt w (offset + filled.length) (count - filled.length) with
        ⟨error | bytes, w'⟩
      · rw [hrun] at hlog
        exact hlog
      · rw [hrun] at hlog
        by_cases hempty : bytes.isEmpty = true
        · simp only [hempty, if_true]
          exact hlog
        by_cases hmany : count - filled.length < bytes.length
        · simp only [hempty, hmany, if_true]
          exact hlog
        · simp only [hempty, hmany, if_false]
          have hpos : 0 < bytes.length := List.length_pos_iff.mpr (by simpa using hempty)
          exact ih (by simp; omega) (by simp; omega) (log ++ [_], w') hlog

/-- All bytes are there when no error is. -/
theorem readExact_within (source : PositionedRead W) {offset count : Nat} (hstart : start ≤ offset)
    (hstop : offset + count ≤ stop) :
    Exec.Triple (fun p => Within start stop p.1) (readExact (source.logged id) offset count)
      (fun bytes p => Within start stop p.1 ∧ bytes.length = count)
      (fun _ p => Within start stop p.1) :=
  readExactLoop_within hstart hstop count (Nat.zero_le _) (Nat.le_refl _)

end Read

/-- The source may be asked for bytes of this range, and keeps `L` by its answers. -/
def Serves {W : Type} (L : W → Prop) (source : PositionedRead W) (start stop : Nat) : Prop :=
  ∀ offset count, start ≤ offset → offset + count ≤ stop →
    Exec.Triple L (readExact source offset count) (fun bytes w => L w ∧ bytes.length = count)
      fun _ => L

namespace EntryStream

variable {D W : Type}

/-! ## The invariant of a stream -/

/-- What the output is held against. -/
def sizes (stream : EntryStream D) : Nat × Nat × Nat × Nat :=
  (stream.declared, stream.maxEntryBytes, stream.maxRatio, stream.ratioAfter)

/-- A stream of the entry at `start` of so many bytes, with all positions in their ranges. -/
structure Valid (start size : Nat) (sizes : Nat × Nat × Nat × Nat) (stream : EntryStream D) :
    Prop where
  dataOffset_eq : stream.dataOffset = start
  compressed_eq : stream.compressed = size
  consumed_le : stream.consumed + (stream.input.length - stream.inputPosition) ≤ size
  inputPosition_le : stream.inputPosition ≤ stream.input.length
  input_le : stream.input.length ≤ inputBytes
  window_length : stream.window.length = windowBytes
  readPosition_le : stream.readPosition ≤ stream.writeEnd
  writeEnd_le : stream.writeEnd ≤ windowBytes
  stored_input : stream.method = methodStored → stream.input = []
  sizes_eq : stream.sizes = sizes

/-- The bytes produced respect the limits. -/
structure Bounded (stream : EntryStream D) : Prop where
  declared : stream.produced ≤ stream.declared
  entry : stream.produced ≤ stream.maxEntryBytes
  ratio : ratioExceeded stream.produced stream.consumed stream.maxRatio stream.ratioAfter = false

/-- Reading more input can only lower the ratio. -/
theorem ratioExceeded_mono {produced consumed consumed' maxRatio after : Nat}
    (h : consumed ≤ consumed') (hratio : ratioExceeded produced consumed maxRatio after = false) :
    ratioExceeded produced consumed' maxRatio after = false := by
  have hmul := Nat.mul_le_mul_right maxRatio h
  simp only [ratioExceeded, Bool.and_eq_false_iff, decide_eq_false_iff_not] at hratio ⊢
  omega

/-- The stream is valid and `L` holds of the world; the stream is bounded if `G`. -/
def Keeps (L : W → Prop) (start size : Nat) (sizes : Nat × Nat × Nat × Nat) (G : Prop)
    (p : EntryStream D × W) : Prop :=
  p.1.Valid start size sizes ∧ L p.2 ∧ (G → p.1.Bounded)

section Spec
variable {start size : Nat} {sizes : Nat × Nat × Nat × Nat} {G : Prop} {L : W → Prop}
  {stream : EntryStream D} {tools : Decompressor D} {source : PositionedRead W}

theorem Keeps.fails {p : EntryStream D × W} (h : Keeps L start size sizes G p) :
    Keeps L start size sizes False p :=
  ⟨h.1, h.2.1, False.elim⟩

theorem writeAt_length {window bytes : List Byte} {position : Nat}
    (h : position + bytes.length ≤ window.length) :
    (ByteFile.writeAt window position bytes).length = window.length := by
  rw [ByteFile.writeAt_eq (by omega)]
  simp only [List.length_append, List.length_take, List.length_drop]
  omega

theorem finish_keeps : Exec.Triple (Keeps L start size sizes G)
    (finish : StreamM D W Unit) (fun _ => Keeps L start size sizes G)
    (fun _ => Keeps L start size sizes False) := by
  refine .modify_bind (Keeps L start size sizes G) ?_ (.get_bind fun stream => ?_)
  · rintro stream w ⟨hvalid, hlog, hbound⟩
    exact ⟨⟨hvalid.dataOffset_eq, hvalid.compressed_eq, hvalid.consumed_le,
      hvalid.inputPosition_le, hvalid.input_le, hvalid.window_length, hvalid.readPosition_le,
      hvalid.writeEnd_le, hvalid.stored_input, hvalid.sizes_eq⟩, hlog,
      fun hG => ⟨(hbound hG).declared, (hbound hG).entry, (hbound hG).ratio⟩⟩
  · exact .ite (fun _ => .throw fun p hp => hp.2.fails) fun _ =>
      .ite (fun _ => .throw fun p hp => hp.2.fails) fun _ => .pure fun p hp => hp.2

/-- Accepted output is within the limits, whatever was there before. -/
theorem acceptOutput_keeps {position count : Nat} (h : position + count ≤ windowBytes) :
    Exec.Triple (Keeps L start size sizes False)
      (acceptOutput position count : StreamM D W Unit)
      (fun _ => Keeps L start size sizes G) (fun _ => Keeps L start size sizes False) := by
  refine .modify_bind (Keeps L start size sizes False) ?_ (.get_bind fun stream => ?_)
  · rintro stream w ⟨hvalid, hlog, -⟩
    exact ⟨⟨hvalid.dataOffset_eq, hvalid.compressed_eq, hvalid.consumed_le,
      hvalid.inputPosition_le, hvalid.input_le, hvalid.window_length, Nat.le_add_right _ _, h,
      hvalid.stored_input, hvalid.sizes_eq⟩, hlog, False.elim⟩
  · refine .ite (fun _ => .throw fun p hp => hp.2) fun hsize =>
      .ite (fun _ => .throw fun p hp => hp.2) fun hratio => .pure ?_
    rintro p ⟨rfl, hvalid, hlog, -⟩
    exact ⟨hvalid, hlog, fun _ => ⟨by omega, by omega, by simpa using hratio⟩⟩

/-- The read of the next bytes of the entry. -/
theorem readNext_keeps (hserves : Serves L source start (start + size)) (stream : EntryStream D)
    (hvalid : stream.Valid start size sizes) {count : Nat}
    (hcount : count ≤ size - stream.consumed) :
    Exec.Triple (fun p : EntryStream D × W =>
        p.1 = stream ∧ Keeps L start size sizes G p)
      (Exec.inner (readExact source (stream.dataOffset + stream.consumed) count))
      (fun bytes p => bytes.length = count ∧ p.1 = stream ∧ Keeps L start size sizes G p)
      (fun _ => Keeps L start size sizes False) := by
  have hle := hvalid.consumed_le
  have hdata := hvalid.dataOffset_eq
  have hlow : start ≤ stream.dataOffset + stream.consumed := by omega
  have hhigh : stream.dataOffset + stream.consumed + count ≤ start + size := by omega
  refine .inner fun s => ?_
  rintro w ⟨rfl, -, hlog, hbound⟩
  have hrun := hserves _ _ hlow hhigh w hlog
  rcases hread : readExact source (s.dataOffset + s.consumed) count w with
    ⟨e | bytes, w'⟩
  · rw [hread] at hrun
    exact ⟨hvalid, hrun, False.elim⟩
  · rw [hread] at hrun
    exact ⟨hrun.2, rfl, hvalid, hrun.1, hbound⟩

theorem fillStored_keeps (hserves : Serves L source start (start + size)) {position : Nat}
    (hposition : position ≤ windowBytes) :
    Exec.Triple (fun p => p.1.method = methodStored ∧ Keeps L start size sizes G p)
      (fillStored source position : StreamM D W Bool)
      (fun _ => Keeps L start size sizes G) (fun _ => Keeps L start size sizes False) := by
  refine .get_bind fun stream => ?_
  have hfinish : ∀ more : Bool, Exec.Triple (Keeps L start size sizes G)
      (do finish; pure more : StreamM D W Bool)
      (fun _ => Keeps L start size sizes G) (fun _ => Keeps L start size sizes False) :=
    fun more => .bind finish_keeps fun _ => .pure fun _ hp => hp
  refine .ite (fun _ => (hfinish false).pre_mono fun _ hp => hp.2.2) fun hcount => ?_
  rintro ⟨s, w⟩ ⟨hs, hmethod, hkeeps⟩
  obtain rfl : s = stream := hs
  have hvalid : s.Valid start size sizes := hkeeps.1
  have hle := hvalid.consumed_le
  have hsize := hvalid.compressed_eq
  have hwindow := hvalid.window_length
  have hinput := hvalid.stored_input hmethod
  refine Exec.Triple.bind (readNext_keeps hserves s hvalid (by omega)) (fun bytes => ?_) (s, w)
    ⟨rfl, hkeeps⟩
  refine .modify_bind (Keeps L start size sizes False) ?_
    (.bind (acceptOutput_keeps (by omega)) fun _ => .get_bind fun stream =>
      .ite (fun _ => (hfinish true).pre_mono fun _ hp => hp.2) fun _ => .pure fun _ hp => hp.2)
  rintro s' w ⟨hlen, hs', -, hlog, -⟩
  obtain rfl : s' = s := hs'
  refine ⟨⟨hvalid.dataOffset_eq, hsize, ?_, hvalid.inputPosition_le, hvalid.input_le, ?_,
    hvalid.readPosition_le, hvalid.writeEnd_le, hvalid.stored_input, hvalid.sizes_eq⟩, hlog,
    False.elim⟩
  · rw [hinput] at hle ⊢
    simp only [List.length_nil, Nat.zero_sub, Nat.add_zero] at hle ⊢
    omega
  · dsimp only
    rw [writeAt_length (by omega), hwindow]

/-! ### Deflated entries -/

/-- Input is there, or there is none left. -/
def Supplied (stream : EntryStream D) : Prop :=
  stream.inputPosition < stream.input.length ∨
    stream.inputPosition = stream.input.length ∧ stream.consumed = stream.compressed

theorem refillInput_keeps (hserves : Serves L source start (start + size))
    (stream : EntryStream D) (hvalid : stream.Valid start size sizes)
    (hmethod : stream.method ≠ methodStored) (hempty : stream.inputPosition = stream.input.length) :
    Exec.Triple (fun p => p.1 = stream ∧ Keeps L start size sizes G p)
      (refillInput source : StreamM D W Unit)
      (fun _ p => Keeps L start size sizes G p ∧ stream.consumed = p.1.consumed ∧
        p.1.method ≠ methodStored ∧ Supplied p.1)
      (fun _ => Keeps L start size sizes False) := by
  have hle := hvalid.consumed_le
  have hsize := hvalid.compressed_eq
  refine .get_bind fun stream' => ?_
  rintro p ⟨rfl, rfl, hkeeps⟩
  generalize hcount : min (p.1.compressed - p.1.consumed) inputBytes = count
  refine Exec.Triple.bind (readNext_keeps hserves p.1 hvalid (by omega)) (fun bytes => .modify ?_) p
    ⟨rfl, hkeeps⟩
  rintro s w ⟨hlen, hs, -, hlog, hbound⟩
  obtain rfl : s = p.1 := hs
  refine ⟨⟨⟨hvalid.dataOffset_eq, hsize, ?_, Nat.zero_le _, ?_, hvalid.window_length,
    hvalid.readPosition_le, hvalid.writeEnd_le, fun h => absurd h hmethod, hvalid.sizes_eq⟩, hlog,
    fun hG => ?_⟩, rfl, hmethod, ?_⟩
  · dsimp only
    omega
  · dsimp only
    omega
  · exact ⟨(hbound hG).declared, (hbound hG).entry, (hbound hG).ratio⟩
  · unfold Supplied inputBytes at *
    dsimp only
    omega

theorem refillIfEmpty_keeps (hserves : Serves L source start (start + size)) (c : Nat) :
    Exec.Triple
      (fun p => Keeps L start size sizes G p ∧ p.1.method ≠ methodStored ∧ c ≤ p.1.consumed)
      (refillIfEmpty source : StreamM D W Unit)
      (fun _ p => Keeps L start size sizes G p ∧ p.1.method ≠ methodStored ∧ c ≤ p.1.consumed ∧
        Supplied p.1)
      (fun _ => Keeps L start size sizes False) := by
  refine .get_bind fun stream => .ite (fun hempty => ?_) fun hinput => .pure ?_
  · rintro p ⟨rfl, hkeeps, hmethod, hc⟩
    refine (refillInput_keeps hserves p.1 hkeeps.1 hmethod hempty).post_mono ?_ p ⟨rfl, hkeeps⟩
    rintro _ p' ⟨hkeeps', hconsumed, hmethod', hsupplied⟩
    exact ⟨hkeeps', hmethod', hconsumed ▸ hc, hsupplied⟩
  · rintro p ⟨rfl, hkeeps, hmethod, hc⟩
    exact ⟨hkeeps, hmethod, hc, .inl (Nat.lt_of_le_of_ne hkeeps.1.inputPosition_le hinput)⟩

/-- A call that goes on took input. -/
theorem judge_keeps {status : TinflStatus} {read written c : Nat} {moreInput : Bool} :
    Exec.Triple (fun p => Keeps L start size sizes G p ∧ (written = 0 → p.1.method ≠ methodStored ∧
        c + read ≤ p.1.consumed ∧ (read = 0 → p.1.inputPosition < p.1.input.length ∨
          p.1.inputPosition = p.1.input.length ∧ moreInput = false)))
      (judge status read written moreInput : StreamM D W (Option Bool))
      (fun more p => Keeps L start size sizes G p ∧
        (more = none → p.1.method ≠ methodStored ∧ c < p.1.consumed))
      (fun _ => Keeps L start size sizes False) := by
  refine .get_bind fun stream => ?_
  cases status with
  | done =>
    exact .bind (finish_keeps.pre_mono fun p hp => hp.2.1) fun _ => .pure fun p hp => ⟨hp, nofun⟩
  | hasMoreOutput =>
    exact .ite (fun _ => .pure fun p hp => ⟨hp.2.1, nofun⟩) fun _ =>
      .throw fun p hp => hp.2.1.fails
  | needsMoreInput =>
    refine .ite (fun _ => .pure fun p hp => ⟨hp.2.1, nofun⟩) fun hzero =>
      .ite (fun _ => .throw fun p hp => hp.2.1.fails) fun hcorrupt =>
      .ite (fun _ => .throw fun p hp => hp.2.1.fails) fun htruncated => .pure ?_
    rintro p ⟨rfl, hkeeps, hwritten⟩
    obtain ⟨hmethod, hc, hread⟩ := hwritten (by omega)
    refine ⟨hkeeps, fun _ => ⟨hmethod, ?_⟩⟩
    by_cases hzero' : read = 0
    · rcases hread hzero' with hinput | ⟨hempty, hmore⟩
      · exact absurd ⟨hinput, hzero'⟩ hcorrupt
      · exact absurd ⟨by simp [hmore], hempty⟩ htruncated
    · omega
  | failed => exact .throw fun p hp => hp.2.1.fails

theorem inflate_keeps {position : Nat} (hposition : position ≤ windowBytes) (c : Nat) :
    Exec.Triple
      (fun p => Keeps L start size sizes G p ∧ p.1.method ≠ methodStored ∧ c ≤ p.1.consumed ∧
        Supplied p.1)
      (inflate tools position : StreamM D W (Option Bool))
      (fun more p => Keeps L start size sizes G p ∧
        (more = none → p.1.method ≠ methodStored ∧ c < p.1.consumed))
      (fun _ => Keeps L start size sizes False) := by
  refine .get_bind fun stream => ?_
  rintro ⟨s, w⟩ ⟨hs, hkeeps, hmethod, hc, hsupplied⟩
  obtain rfl : s = stream := hs
  have hvalid : s.Valid start size sizes := hkeeps.1
  have hbound : G → s.Bounded := hkeeps.2.2
  have hle := hvalid.consumed_le
  have hpos := hvalid.inputPosition_le
  have hsize := hvalid.compressed_eq
  have hwindow := hvalid.window_length
  dsimp only
  generalize hmore : decide (s.consumed + (s.input.length - s.inputPosition) < s.compressed) = more
  have hread := tools.read_le s.inflater (s.input.drop s.inputPosition) s.window position more
  have hwritten := tools.written_le s.inflater (s.input.drop s.inputPosition) s.window position more
    (by omega)
  generalize tools.decompress s.inflater (s.input.drop s.inputPosition) s.window position more =
    answer at *
  obtain ⟨status, read, written, inflater⟩ := answer
  dsimp only at *
  rw [List.length_drop] at hread
  generalize hnext : ({ s with
    inflater := inflater
    inputPosition := s.inputPosition + read
    consumed := s.consumed + read
    window := ByteFile.writeAt s.window position written } : EntryStream D) = next
  have hvalid' : next.Valid start size sizes := by
    subst hnext
    refine ⟨hvalid.dataOffset_eq, hsize, ?_, ?_, hvalid.input_le, ?_, hvalid.readPosition_le,
      hvalid.writeEnd_le, hvalid.stored_input, hvalid.sizes_eq⟩
    · dsimp only
      omega
    · dsimp only
      omega
    · dsimp only
      rw [writeAt_length (by omega), hwindow]
  have hbound' : G → next.Bounded := by
    subst hnext
    exact fun hG => ⟨(hbound hG).declared, (hbound hG).entry,
      ratioExceeded_mono (Nat.le_add_right _ _) (hbound hG).ratio⟩
  have hfacts : next.method ≠ methodStored ∧ c + read ≤ next.consumed ∧
      (read = 0 → next.inputPosition < next.input.length ∨
        next.inputPosition = next.input.length ∧ more = false) := by
    subst hnext
    refine ⟨hmethod, Nat.add_le_add_right hc read, ?_⟩
    rintro rfl
    refine hsupplied.imp id ?_
    rintro ⟨hempty, hall⟩
    refine ⟨hempty, ?_⟩
    rw [← hmore, decide_eq_false_iff_not]
    omega
  rw [Exec.run_modify_bind, hnext]
  have hrest : Exec.Triple (fun p : EntryStream D × W =>
        p.1 = next ∧ Keeps L start size sizes G p)
      (if 0 < written.length then do
          acceptOutput position written.length
          judge status read written.length more
        else judge status read written.length more)
      (fun more p => Keeps L start size sizes G p ∧
        (more = none → p.1.method ≠ methodStored ∧ c < p.1.consumed))
      (fun _ => Keeps L start size sizes False) := by
    refine .ite (fun hsome => ?_) fun hnone => judge_keeps.pre_mono ?_
    · refine .bind ((acceptOutput_keeps (by omega)).pre_mono fun p hp => hp.2.fails) fun _ =>
        judge_keeps.pre_mono fun p hp => ⟨hp, fun hzero => by omega⟩
    · rintro p ⟨rfl, hp⟩
      exact ⟨hp, fun _ => hfacts⟩
  exact hrest (next, w) ⟨rfl, hvalid', hkeeps.2.1, hbound'⟩

/-- `inflatePasses` comes to its end before the passes run out. -/
theorem inflatePasses_keeps (tools : Decompressor D)
    (hserves : Serves L source start (start + size)) {position : Nat}
    (hposition : position ≤ windowBytes) (passes c : Nat) :
    Exec.Triple
      (fun p => Keeps L start size sizes G p ∧ p.1.method ≠ methodStored ∧ c ≤ p.1.consumed)
      (inflatePasses tools source position passes : StreamM D W (Option Bool))
      (fun more p => Keeps L start size sizes G p ∧ (more = none → c + passes ≤ p.1.consumed))
      (fun _ => Keeps L start size sizes False) := by
  induction passes generalizing c with
  | zero => exact .pure fun p hp => ⟨hp.1, fun _ => hp.2.2⟩
  | succ passes ih =>
    refine .bind (refillIfEmpty_keeps hserves c) fun _ =>
      .bind (inflate_keeps hposition c) fun more => ?_
    cases more with
    | some more => exact .pure fun p hp => ⟨hp.1, nofun⟩
    | none =>
      refine (ih (c + 1)).weaken (fun p hp => ⟨hp.1, hp.2 rfl⟩) ?_ fun _ _ hp => hp
      intro more p hp
      exact ⟨hp.1, fun hnone => by have := hp.2 hnone; omega⟩

theorem inflatePasses_ends (hserves : Serves L source start (start + size)) {position : Nat}
    (hposition : position ≤ windowBytes)
    {p : EntryStream D × W} (hkeeps : Keeps L start size sizes G p)
    (hmethod : p.1.method ≠ methodStored) {passes : Nat}
    (hpasses : p.1.compressed - p.1.consumed < passes) :
    (inflatePasses tools source position passes p).1 ≠ .ok none := by
  have hrun := inflatePasses_keeps tools hserves hposition passes p.1.consumed p
    ⟨hkeeps, hmethod, Nat.le_refl _⟩
  rcases hresult : inflatePasses tools source position passes p with ⟨e | more, p'⟩
  · simp
  · rw [hresult] at hrun
    rintro h
    obtain rfl : more = none := Except.ok.inj h
    have hlow := hrun.2 rfl
    have hhigh := hrun.1.1.consumed_le
    have hsize := hkeeps.1.compressed_eq
    omega

theorem fill_keeps (tools : Decompressor D) (hserves : Serves L source start (start + size)) :
    Exec.Triple (Keeps L start size sizes G)
    (fill tools source : StreamM D W Bool)
    (fun _ => Keeps L start size sizes G) (fun _ => Keeps L start size sizes False) := by
  have hposition : ∀ end' : Nat, end' % windowBytes ≤ windowBytes := fun end' =>
    Nat.le_of_lt (Nat.mod_lt _ (by decide))
  refine .get_bind fun stream => .ite (fun _ => .pure fun p hp => hp.2) fun _ =>
    .ite (fun _ => .pure fun p hp => hp.2) fun _ => .ite (fun hstored => ?_) fun hdeflate => ?_
  · exact (fillStored_keeps hserves (hposition _)).pre_mono fun p hp => ⟨hp.1 ▸ hstored, hp.2⟩
  · refine .get_bind fun stream' =>
      .bind ((inflatePasses_keeps tools hserves (hposition _) _ 0).pre_mono
        fun p hp => ⟨hp.2.2, hp.2.1 ▸ hdeflate, Nat.zero_le _⟩) fun more => ?_
    cases more with
    | some more => exact .pure fun p hp => hp.1
    | none => exact .throw fun p hp => hp.1.fails

theorem consume_keeps (count : Nat) {p : EntryStream D × W}
    (h : Keeps L start size sizes G p) : Keeps L start size sizes G (p.1.consume count, p.2) := by
  obtain ⟨hvalid, hlog, hbound⟩ := h
  refine ⟨⟨hvalid.dataOffset_eq, hvalid.compressed_eq, hvalid.consumed_le,
    hvalid.inputPosition_le, hvalid.input_le, hvalid.window_length, Nat.min_le_right _ _,
    hvalid.writeEnd_le, hvalid.stored_input, hvalid.sizes_eq⟩, hlog, ?_⟩
  exact fun hG => ⟨(hbound hG).declared, (hbound hG).entry, (hbound hG).ratio⟩

end Spec

/-! ## Runs -/

inductive StreamOp where
  | fill
  | consume (count : Nat)

section Runs
variable (tools : Decompressor D) (source : PositionedRead W)

/-- The answers of the fills among the calls, and where the calls lead. -/
def calls : List StreamOp → EntryStream D × W → List (Except XlsxError Bool) × (EntryStream D × W)
  | [], p => ([], p)
  | .fill :: ops, p =>
    let r := fill tools source p
    let rest := calls ops r.2
    (r.1 :: rest.1, rest.2)
  | .consume count :: ops, p => calls ops (p.1.consume count, p.2)

variable {start size : Nat} {sizes : Nat × Nat × Nat × Nat} {L : W → Prop}
  {source : PositionedRead W}

/-- What was so before the calls is so behind them, but for the limits once a fill failed. -/
theorem calls_keeps (tools : Decompressor D) (hserves : Serves L source start (start + size))
    (ops : List StreamOp) {G : Prop} {p : EntryStream D × W}
    (h : Keeps L start size sizes G p) :
    Keeps L start size sizes (G ∧ ∀ a ∈ (calls tools source ops p).1, a.isOk)
      (calls tools source ops p).2 := by
  induction ops generalizing G p with
  | nil => exact ⟨h.1, h.2.1, fun hG => h.2.2 hG.1⟩
  | cons op ops ih =>
    cases op with
    | consume count => exact ih (consume_keeps count h)
    | fill =>
      have hrun := fill_keeps tools hserves p h
      simp only [calls, List.forall_mem_cons]
      generalize fill tools source p = r at hrun
      obtain ⟨e | more, p'⟩ := r
      · obtain ⟨hvalid, hlog, -⟩ := ih hrun
        exact ⟨hvalid, hlog, fun hG => absurd hG.2.1 Bool.false_ne_true⟩
      · obtain ⟨hvalid, hlog, hbound⟩ := ih hrun
        exact ⟨hvalid, hlog, fun hG => hbound ⟨hG.1, hG.2.2⟩⟩

/-- While no fill fails, a stream that has come to its end is complete. -/
theorem calls_sound (tools : Decompressor D) (hserves : Serves L source start (start + size))
    (ops : List StreamOp) {G : Prop} {p : EntryStream D × W} (h : Keeps L start size sizes G p)
    (hsound : p.1.Sound) (hclean : ∀ a ∈ (calls tools source ops p).1, a.isOk) :
    (calls tools source ops p).2.1.Sound := by
  induction ops generalizing G p with
  | nil => exact hsound
  | cons op ops ih =>
    cases op with
    | consume count => exact ih (consume_keeps count h) hsound hclean
    | fill =>
      have hkeeps := fill_keeps tools hserves p h
      simp only [calls, List.forall_mem_cons] at hclean ⊢
      rcases hrun : fill tools source p with ⟨e | more, p'⟩
      · rw [hrun] at hclean
        exact absurd hclean.1 Bool.false_ne_true
      · rw [hrun] at hclean hkeeps
        have hfilled := fill_filled tools source h.1.readPosition_le hrun
        exact ih hkeeps (hfilled.sound hsound) hclean.2

end Runs

end EntryStream

/-! ## From the archive to the stream -/

theorem u32At_lt (bytes : List Byte) (offset : Nat) : u32At bytes offset < 2 ^ 32 := by
  simp only [u32At, numberAt]
  split
  · rename_i hlen
    have h := ByteFile.leNat_lt (ByteFile.readAt bytes offset 4)
    rwa [hlen] at h
  · exact Nat.two_pow_pos 32

section Archive
variable {D W : Type} {source : PositionedRead W} {tools : Decompressor D}

theorem read_ensures (limits : XlsxLimits) :
    (ZipDirectory.read source limits).Ensures fun directory =>
      directory.centralDirectory < 2 ^ 32 := by
  unfold ZipDirectory.read
  refine .bind .trivial fun fingerprint _ => .bind .trivial fun magic _ => ?_
  split
  · exact .throw _
  split
  · exact .throw _
  split
  · exact .throw _
  refine .bind .trivial fun tail _ => ?_
  split
  · exact .throw _
  split
  · exact .throw _
  dsimp only
  split
  · exact .throw _
  split
  · exact .throw _
  split
  · exact .throw _
  split
  · exact .throw _
  split
  · exact .throw _
  refine .bind .trivial fun bytes _ => .bind .trivial fun entries _ => .pure ?_
  exact u32At_lt _ _

theorem openEntry_ensures (directory : ZipDirectory) (entry : ZipEntry) (limits : XlsxLimits) :
    (directory.openEntry tools source entry limits).Ensures fun stream =>
      ∃ data, stream = .new tools entry data limits ∧
        data + entry.compressed ≤ directory.centralDirectory := by
  unfold ZipDirectory.openEntry
  split
  · exact .throw _
  split
  · exact .throw _
  split
  · exact .throw _
  split
  · exact .throw _
  refine .bind .trivial fun header _ => ?_
  split
  · exact .throw _
  dsimp only
  split
  · exact .throw _
  refine .bind .trivial fun name _ => ?_
  split
  · exact .throw _
  split
  · exact .throw _
  · rename_i hinside
    exact .pure ⟨_, rfl, Nat.not_lt.mp hinside⟩

/-- A new stream keeps the invariant, with nothing read. -/
theorem new_keeps (tools : Decompressor D) (entry : ZipEntry) (data : Nat) (limits : XlsxLimits)
    {L : W → Prop} {w : W} (hw : L w) :
    EntryStream.Keeps L data entry.compressed (entry.uncompressed, limits.maxEntryBytes,
      limits.maxCompressionRatio, limits.ratioCheckAfterBytes) True
        (.new tools entry data limits, w) :=
  ⟨⟨rfl, rfl, Nat.zero_le _, Nat.le_refl _, Nat.zero_le _, List.length_replicate,
    Nat.le_refl _, Nat.zero_le _, fun _ => rfl, rfl⟩, hw,
    fun _ => ⟨Nat.zero_le _, Nat.zero_le _, by simp [ratioExceeded, EntryStream.new]⟩⟩

/-- Whatever archive was accepted, whatever the decompressor answers and whatever is called:
only bytes of the entry are read, they lie in front of the central directory, all positions
stay in their ranges, the limits hold until a fill fails, and every fill ends: with bytes, at the
end of the entry, which has its declared size and checksum if none failed, or with an error. -/
theorem stream_stays_inside (tools : Decompressor D) (source : PositionedRead W)
    (limits : XlsxLimits) {w₀ w₁ : W} {directory : ZipDirectory} {entry : ZipEntry}
    {stream : EntryStream D} (hread : (ZipDirectory.read source limits w₀).1 = .ok directory)
    (hopen : (directory.openEntry tools source entry limits w₁).1 = .ok stream)
    (ops : List EntryStream.StreamOp) (w₂ : W) :
    let r := EntryStream.calls tools (source.logged id) ops (stream, [], w₂)
    stream.dataOffset + entry.compressed ≤ directory.centralDirectory ∧
    directory.centralDirectory < 2 ^ 32 ∧
    (∀ offset len answer, SourceEvent.read offset len answer ∈ r.2.2.1 →
      stream.dataOffset ≤ offset ∧ offset + len ≤ stream.dataOffset + entry.compressed) ∧
    r.2.1.consumed ≤ entry.compressed ∧
    ((∀ a ∈ r.1, a.isOk) → r.2.1.Bounded) ∧
    r.2.1.Valid stream.dataOffset entry.compressed (entry.uncompressed, limits.maxEntryBytes,
      limits.maxCompressionRatio, limits.ratioCheckAfterBytes) ∧
    (r.2.1.method ≠ methodStored → ∀ position ≤ windowBytes,
      (EntryStream.inflatePasses tools (source.logged id) position
        (r.2.1.compressed - r.2.1.consumed + 1) r.2).1 ≠ .ok none) ∧
    (∀ more next, EntryStream.fill tools (source.logged id) r.2 = (.ok more, next) →
      r.2.1.Filled more next.1 ∧
      ((∀ a ∈ r.1, a.isOk) → more = false → next.1.Complete)) := by
  intro r
  obtain ⟨data, rfl, hinside⟩ := openEntry_ensures directory entry limits w₁ stream hopen
  have hserves : Serves (fun p : List SourceEvent × W => Within data (data + entry.compressed) p.1)
      (source.logged id) data (data + entry.compressed) :=
    fun _ _ hlow hhigh => readExact_within source hlow hhigh
  have hstart : Within data (data + entry.compressed) ([], w₂).1 := nofun
  have hkeeps :=
    EntryStream.calls_keeps tools hserves ops (new_keeps tools entry data limits hstart)
  refine ⟨hinside, read_ensures limits w₀ directory hread, hkeeps.2.1, ?_, ?_, hkeeps.1, ?_, ?_⟩
  · exact Nat.le_trans (Nat.le_add_right _ _) hkeeps.1.consumed_le
  · exact fun hclean => hkeeps.2.2 ⟨trivial, hclean⟩
  · intro hmethod position hposition
    exact EntryStream.inflatePasses_ends hserves hposition hkeeps hmethod (Nat.lt_succ_self _)
  · intro more next hrun
    have hfilled := EntryStream.fill_filled tools (source.logged id) hkeeps.1.readPosition_le hrun
    refine ⟨hfilled, fun hclean hmore => ?_⟩
    have hsound := EntryStream.calls_sound tools hserves ops
      (new_keeps tools entry data limits hstart) nofun hclean
    exact hfilled.sound hsound (hfilled.ended hmore).2

end Archive

/-! ### An archive of one deflated entry -/

open ByteFile in
/-- The entry `a` holds the bytes `xyz` as a last block that is not compressed. -/
def tinyArchive : List Byte :=
  leBytes 4 localHeaderSignature ++ List.replicate 22 0 ++ leBytes 2 1 ++ leBytes 2 0 ++
    bytesOf ['a'] ++ [1, 3, 0, 252, 255] ++ bytesOf ['x', 'y', 'z'] ++
    leBytes 4 centralHeaderSignature ++ List.replicate 6 0 ++ leBytes 2 methodDeflate ++
    List.replicate 4 0 ++ leBytes 4 0xeb8eba67 ++ leBytes 4 8 ++ leBytes 4 3 ++ leBytes 2 1 ++
    List.replicate 16 0 ++ bytesOf ['a'] ++
    leBytes 4 endSignature ++ List.replicate 4 0 ++ leBytes 2 1 ++ leBytes 2 1 ++ leBytes 4 47 ++
    leBytes 4 39 ++ leBytes 2 0

def tinySource : PositionedRead Unit := .ofBytes tinyArchive (by decide)

def tinyEntry : ZipEntry := ⟨bytesOf ['a'], methodDeflate, 0xeb8eba67, 8, 3, 0⟩

/-- Inflates a last block that is not compressed, given whole. -/
def lastBlock : Decompressor Unit where
  init := ()
  decompress _ input window position _ :=
    let len := u16At input 1
    if input.headD 0 = 1 ∧ u16At input 3 = 0xffff - len ∧ 5 + len ≤ input.length ∧
        position + len ≤ window.length then
      (.done, 5 + len, (input.drop 5).take len, ())
    else (.failed, 0, [], ())
  read_le _ input window position _ := by
    dsimp only
    split_ifs with h
    · exact h.2.2.1
    · exact Nat.zero_le _
  written_le _ input window position _ hposition := by
    dsimp only
    split_ifs with h
    · rw [List.length_take]
      omega
    · exact hposition

set_option maxRecDepth 2048 in
theorem stream_stays_inside_tiny :
    let stream : EntryStream Unit := .new lastBlock tinyEntry 31 .standard
    let r := EntryStream.calls lastBlock (tinySource.logged id) [.fill, .consume 3]
      (stream, [], ())
    (ZipDirectory.openEntry lastBlock tinySource ⟨[tinyEntry], 39⟩ tinyEntry .standard ()).1 =
      .ok stream ∧
    (∀ offset len answer, SourceEvent.read offset len answer ∈ r.2.2.1 →
      31 ≤ offset ∧ offset + len ≤ 31 + 8) ∧ r.2.1.consumed ≤ 8 ∧
    ∀ more next, EntryStream.fill lastBlock (tinySource.logged id) r.2 = (.ok more, next) →
      r.2.1.Filled more next.1 ∧ ((∀ a ∈ r.1, a.isOk) → more = false → next.1.Complete) := by
  intro stream r
  have hread : (ZipDirectory.read tinySource .standard ()).1 = .ok ⟨[tinyEntry], 39⟩ := rfl
  have hopen : (ZipDirectory.openEntry lastBlock tinySource ⟨[tinyEntry], 39⟩ tinyEntry
    .standard ()).1 = .ok stream := rfl
  obtain ⟨-, -, hreads, hconsumed, -, -, -, hfills⟩ := stream_stays_inside lastBlock tinySource
    .standard hread hopen [.fill, .consume 3] ()
  exact ⟨hopen, hreads, hconsumed, hfills⟩

end LeanRows.Xlsx
