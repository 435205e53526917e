import LeanRows.Lib.ExecState
import LeanRows.Xlsx.Zip

/-!
# What a fill brings

A fill of a stream with nothing left to consume comes to bytes, to the end of the entry or to an
error. The bytes are those that it has just produced, and at the end the entry has its declared
size and its checksum, unless an earlier fill failed.
-/

namespace LeanRows.Xlsx.EntryStream

set_option autoImplicit false

variable {D W : Type}

/-- The size and the checksum that the archive declares are those of what was produced. -/
def Complete (stream : EntryStream D) : Prop :=
  stream.produced = stream.declared ∧ stream.crc.finish = stream.expectedCrc

/-- What has come to its end is complete. -/
def Sound (stream : EntryStream D) : Prop := stream.done = true → stream.Complete

/-- Nothing is left to consume of the first `q` bytes, and more may come. -/
def Spent (q : Nat) (stream : EntryStream D) : Prop :=
  stream.produced = q ∧ stream.readPosition = stream.writeEnd ∧ stream.done = false

/-- What there is to consume has come behind the first `q` bytes. -/
def Ready (q : Nat) (stream : EntryStream D) : Prop :=
  stream.readPosition < stream.writeEnd ∧
    stream.produced = q + (stream.writeEnd - stream.readPosition)

/-- The end, with nothing left to consume. -/
def Ended (stream : EntryStream D) : Prop :=
  stream.readPosition = stream.writeEnd ∧ stream.done = true ∧ stream.Complete

/-- What an answer of a fill says of the stream. -/
def Answered (q : Nat) (more : Bool) (stream : EntryStream D) : Prop :=
  (more = true → stream.Ready q ∧ stream.Sound) ∧ (more = false → stream.Ended)

section Brings
variable {tools : Decompressor D} {source : PositionedRead W} {q : Nat}

theorem finish_ready {P : EntryStream D → Prop} (hP : ∀ s, P s → P { s with done := true }) :
    Exec.Triple (fun p => P p.1) (finish : StreamM D W Unit)
      (fun _ p => P p.1 ∧ p.1.done = true ∧ p.1.Complete) fun _ _ => True := by
  refine .modify_bind (fun p => P p.1 ∧ p.1.done = true) (fun s _ h => ⟨hP s h, rfl⟩)
    (.get_bind fun stream => ?_)
  refine .ite (fun _ => .throw fun _ _ => trivial) fun hsize =>
    .ite (fun _ => .throw fun _ _ => trivial) fun hcrc => .pure ?_
  rintro p ⟨rfl, hp, hdone⟩
  exact ⟨hp, hdone, not_not.mp hsize, not_not.mp hcrc⟩

theorem acceptOutput_ready (position count : Nat) (hpos : 0 < count) :
    Exec.Triple (fun p => p.1.Spent q) (acceptOutput position count : StreamM D W Unit)
      (fun _ p => p.1.Ready q ∧ p.1.done = false) fun _ _ => True := by
  refine .modify_bind (fun p => p.1.Ready q ∧ p.1.done = false) ?_ (.get_bind fun stream => ?_)
  · rintro s w ⟨rfl, -, hdone⟩
    refine ⟨⟨Nat.lt_add_of_pos_right hpos, ?_⟩, hdone⟩
    dsimp only
    omega
  · exact .ite (fun _ => .throw fun _ _ => trivial) fun _ =>
      .ite (fun _ => .throw fun _ _ => trivial) fun _ => .pure fun p hp => hp.2

/-- A read of the source leaves the stream as it is. -/
theorem readNext_ready {P : EntryStream D → Prop} (offset count : Nat) :
    Exec.Triple (fun p => P p.1)
      (Exec.inner (readExact source offset count) : StreamM D W (List Byte)) (fun _ p => P p.1)
      fun _ _ => True := by
  refine .inner fun s w hs => ?_
  rcases readExact source offset count w with ⟨e | bytes, w'⟩
  · trivial
  · exact hs

theorem fillStored_ready (position : Nat) :
    Exec.Triple (fun p => p.1.Spent q) (fillStored source position : StreamM D W Bool)
      (fun more p => p.1.Answered q more) fun _ _ => True := by
  refine .get_bind fun stream => .ite (fun _ => ?_) fun hcount => ?_
  · refine .bind ((finish_ready (P := fun s => s.readPosition = s.writeEnd) fun _ h => h).pre_mono
      fun p hp => hp.2.2.1) fun _ => .pure fun p hp => ⟨nofun, fun _ => hp⟩
  · refine .bind ((readNext_ready (P := Spent q) _ _).pre_mono fun p hp => hp.2) fun bytes =>
      .modify_bind (fun p => p.1.Spent q) (fun _ _ h => h)
        (.bind (acceptOutput_ready position _ (Nat.pos_of_ne_zero hcount)) fun _ =>
          .get_bind fun stream => .ite (fun _ => ?_) fun _ => .pure ?_)
    · refine .bind ((finish_ready (P := Ready q) fun _ h => h).pre_mono fun p hp => hp.2.1)
        fun _ => .pure fun p hp => ⟨fun _ => ⟨hp.1, fun _ => hp.2.2⟩, nofun⟩
    · rintro p ⟨-, hready, hdone⟩
      exact ⟨fun _ => ⟨hready, fun h => absurd (hdone.symm.trans h) Bool.false_ne_true⟩, nofun⟩

/-- The answer to output that was accepted, or to none. -/
theorem judge_ready (status : TinflStatus) (read written : Nat) (moreInput : Bool) :
    Exec.Triple (fun p => (0 < written → p.1.Ready q ∧ p.1.done = false) ∧
        (written = 0 → p.1.Spent q))
      (judge status read written moreInput : StreamM D W (Option Bool))
      (fun more p => (∀ b, more = some b → p.1.Answered q b) ∧ (more = none → p.1.Spent q))
      fun _ _ => True := by
  have hready : 0 < written → ∀ p : EntryStream D × W,
      ((0 < written → p.1.Ready q ∧ p.1.done = false) ∧ (written = 0 → p.1.Spent q)) →
      (∀ b, some true = some b → p.1.Answered q b) ∧ (some true = none → p.1.Spent q) := by
    rintro hwritten p ⟨hp, -⟩
    obtain ⟨hready, hdone⟩ := hp hwritten
    refine ⟨?_, nofun⟩
    rintro _ ⟨⟩
    exact ⟨fun _ => ⟨hready, fun h => absurd (hdone.symm.trans h) Bool.false_ne_true⟩, nofun⟩
  refine .get_bind fun stream => ?_
  cases status with
  | done =>
    by_cases hwritten : 0 < written
    · refine .bind ((finish_ready (P := Ready q) fun _ h => h).pre_mono
        fun p hp => (hp.2.1 hwritten).1) fun _ => .pure fun p hp => ⟨?_, nofun⟩
      rw [decide_eq_true hwritten]
      rintro _ ⟨⟩
      exact ⟨fun _ => ⟨hp.1, fun _ => hp.2.2⟩, nofun⟩
    · refine .bind ((finish_ready (P := fun s => s.readPosition = s.writeEnd) fun _ h => h).pre_mono
        fun p hp => (hp.2.2 (by omega)).2.1) fun _ => .pure fun p hp => ⟨?_, nofun⟩
      rw [decide_eq_false hwritten]
      rintro _ ⟨⟩
      exact ⟨nofun, fun _ => hp⟩
  | hasMoreOutput =>
    exact .ite (fun hwritten => .pure fun p hp => hready hwritten p hp.2) fun _ =>
      .throw fun _ _ => trivial
  | needsMoreInput =>
    refine .ite (fun hwritten => .pure fun p hp => hready hwritten p hp.2)
      fun hwritten => .ite (fun _ => .throw fun _ _ => trivial) fun _ =>
      .ite (fun _ => .throw fun _ _ => trivial) fun _ => .pure fun p hp => ⟨nofun, fun _ => ?_⟩
    exact hp.2.2 (by omega)
  | failed => exact .throw fun _ _ => trivial

theorem inflate_ready (position : Nat) :
    Exec.Triple (fun p => p.1.Spent q) (inflate tools position : StreamM D W (Option Bool))
      (fun more p => (∀ b, more = some b → p.1.Answered q b) ∧ (more = none → p.1.Spent q))
      fun _ _ => True := by
  refine .get_bind fun stream => .modify_bind (fun p => p.1.Spent q) (fun _ _ h => h.2)
    (.ite (fun hwritten => ?_) fun hwritten => ?_)
  · exact .bind (acceptOutput_ready position _ hwritten) fun _ =>
      (judge_ready _ _ _ _).pre_mono fun p hp => ⟨fun _ => hp, fun h => by omega⟩
  · exact (judge_ready _ _ _ _).pre_mono fun p hp => ⟨fun h => absurd h hwritten, fun _ => hp⟩

theorem inflatePasses_ready (position passes : Nat) :
    Exec.Triple (fun p => p.1.Spent q)
      (inflatePasses tools source position passes : StreamM D W (Option Bool))
      (fun more p => (∀ b, more = some b → p.1.Answered q b) ∧ (more = none → p.1.Spent q))
      fun _ _ => True := by
  induction passes with
  | zero => exact .pure fun p hp => ⟨nofun, fun _ => hp⟩
  | succ passes ih =>
    have hrefill : Exec.Triple (fun p => p.1.Spent q) (refillIfEmpty source : StreamM D W Unit)
        (fun _ p => p.1.Spent q) fun _ _ => True := by
      refine .get_bind fun stream => .ite (fun _ => .get_bind fun stream' => ?_) fun _ =>
        .pure fun p hp => hp.2
      exact .bind ((readNext_ready (P := Spent q) _ _).pre_mono fun p hp => hp.2.2) fun bytes =>
        .modify fun _ _ h => h
    refine .bind hrefill fun _ => .bind (inflate_ready position) fun more => ?_
    cases more with
    | some more => exact .pure fun p hp => hp
    | none => exact ih.pre_mono fun p hp => hp.2 rfl

/-- A fill with nothing left to consume and more to come. -/
theorem fill_ready : Exec.Triple (fun p => p.1.Spent q) (fill tools source : StreamM D W Bool)
    (fun more p => p.1.Answered q more) fun _ _ => True := by
  refine .get_bind fun stream => .ite (fun hsome => ?_) fun _ => .ite (fun hdone => ?_) fun _ =>
    .ite (fun _ => ?_) fun _ => ?_
  · rintro p ⟨rfl, -, hempty, -⟩
    omega
  · rintro p ⟨rfl, -, -, hmore⟩
    exact absurd (hmore.symm.trans hdone) Bool.false_ne_true
  · exact (fillStored_ready _).pre_mono fun p hp => hp.2
  · refine .get_bind fun stream' => .bind ((inflatePasses_ready _ _).pre_mono
      fun p hp => hp.2.2) fun more => ?_
    cases more with
    | some more => exact .pure fun p hp => hp.1 more rfl
    | none => exact .throw fun _ _ => trivial

end Brings

/-! ## Any fill -/

/-- What the answer of a fill says of the streams before and behind it. -/
structure Filled (before : EntryStream D) (more : Bool) (after : EntryStream D) : Prop where
  kept : before.readPosition < before.writeEnd → more = true ∧ after = before
  brought : before.readPosition = before.writeEnd → more = true → after.Ready before.produced
  ended : more = false → after.readPosition = after.writeEnd ∧ after.done = true
  sound : before.Sound → after.Sound

theorem fill_filled (tools : Decompressor D) (source : PositionedRead W)
    {stream : EntryStream D} (hle : stream.readPosition ≤ stream.writeEnd) {w : W} {more : Bool}
    {p : EntryStream D × W} (hrun : fill tools source (stream, w) = (.ok more, p)) :
    stream.Filled more p.1 := by
  by_cases hsome : stream.readPosition < stream.writeEnd
  · have hkept : fill tools source (stream, w) = (.ok true, stream, w) := by
      rw [fill, Exec.run_get_bind, if_pos hsome]
      rfl
    cases hrun.symm.trans hkept
    exact ⟨fun _ => ⟨rfl, rfl⟩, fun h => absurd h hsome.ne, nofun, id⟩
  · have hempty : stream.readPosition = stream.writeEnd := by omega
    by_cases hdone : stream.done = true
    · have hkept : fill tools source (stream, w) = (.ok false, stream, w) := by
        rw [fill, Exec.run_get_bind, if_neg hsome, if_pos hdone]
        rfl
      cases hrun.symm.trans hkept
      exact ⟨fun h => absurd h hsome, fun _ => nofun, fun _ => ⟨hempty, hdone⟩, id⟩
    · have hready : Exec.Triple (fun p => p.1.Spent stream.produced) (fill tools source)
          (fun more p => p.1.Answered stream.produced more) fun _ _ => True := fill_ready
      have hanswer := hready (stream, w) ⟨rfl, hempty, Bool.eq_false_iff.mpr hdone⟩
      rw [hrun] at hanswer
      obtain ⟨htrue, hfalse⟩ := hanswer
      refine ⟨fun h => absurd h hsome, fun _ hmore => (htrue hmore).1, fun hmore => ?_, fun _ => ?_⟩
      · exact ⟨(hfalse hmore).1, (hfalse hmore).2.1⟩
      · cases more with
        | true => exact (htrue rfl).2
        | false => exact fun _ => (hfalse rfl).2.2

end LeanRows.Xlsx.EntryStream
