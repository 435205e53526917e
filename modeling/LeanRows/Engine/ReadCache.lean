import LeanRows.Source

/-!
# The query read cache

A query reads the document through one aligned block. The cache keeps where the block
starts, its bytes and how many of them are the document's; `Holds` is what makes a hit
answer with the document's bytes.
-/

namespace LeanRows

set_option autoImplicit false

def readBufferBytes : Nat := 64 * 1024

theorem readBufferBytes_pos : 0 < readBufferBytes := by decide

inductive QueryReadError where
  | io (error : IoError)
  | addressOverflow
  | tooManyBytes
  | movedBackwards
deriving DecidableEq, Repr

def QueryReadError.toIoError : QueryReadError → IoError
  | .io error => error
  | .addressOverflow => .other "query read-cache address overflow"
  | .tooManyBytes => .invalidData "query source returned more bytes than the fixed cache buffer"
  | .movedBackwards => .other "query read-cache offset moved backwards"

structure QueryReadCache where
  bytes : List Byte
  start : Nat
  valid : Nat
  loaded : Bool
deriving DecidableEq

namespace QueryReadCache

variable {W : Type}

def new : QueryReadCache := ⟨List.replicate readBufferBytes 0, 0, 0, false⟩

def blockStart (offset : Nat) : Nat := offset / readBufferBytes * readBufferBytes

theorem blockStart_le (offset : Nat) : blockStart offset ≤ offset :=
  Nat.div_mul_le_self offset readBufferBytes

def misses (cache : QueryReadCache) (offset stop : Nat) : Bool :=
  !cache.loaded || decide (offset < cache.start) || decide (stop ≤ offset)

/-- Reads the block of `offset` over the old one. The start has moved, also when the read
fails; what a short read leaves of the old bytes is no longer valid. -/
def refill (source : PositionedRead W) (cache : QueryReadCache) (offset : Nat) (w : W) :
    Except QueryReadError Unit × QueryReadCache × W :=
  let moved := { cache with start := blockStart offset }
  match source.readAt w moved.start moved.bytes.length with
  | (.error error, w) => (.error (.io error), moved, w)
  | (.ok got, w) =>
    let filled := { moved with
      bytes := got.take moved.bytes.length ++ moved.bytes.drop got.length
      valid := got.length }
    if moved.bytes.length < got.length then (.error .tooManyBytes, filled, w)
    else (.ok (), { filled with loaded := true }, w)

/-- The bytes copied to the front of a destination of `len` bytes. -/
def serve (cache : QueryReadCache) (offset len : Nat) : Except QueryReadError (List Byte) :=
  if offset < cache.start then .error .movedBackwards
  else
    let relative := offset - cache.start
    if cache.valid ≤ relative then .ok []
    else .ok ((cache.bytes.drop relative).take (min len (cache.valid - relative)))

def readAt (source : PositionedRead W) (cache : QueryReadCache) (offset len : Nat) (w : W) :
    Except QueryReadError (List Byte) × QueryReadCache × W :=
  if len = 0 then (.ok [], cache, w)
  else
    match checkedAdd cache.start cache.valid with
    | none => (.error .addressOverflow, cache, w)
    | some stop =>
      if cache.misses offset stop then
        match cache.refill source offset w with
        | (.error error, cache, w) => (.error error, cache, w)
        | (.ok (), cache, w) => (cache.serve offset len, cache, w)
      else (cache.serve offset len, cache, w)

structure ReadCall where
  offset : Nat
  len : Nat
deriving DecidableEq

/-- A schedule of calls and what each of them answered. -/
def answers (source : PositionedRead W) : List ReadCall → QueryReadCache → W →
    List (ReadCall × Except QueryReadError (List Byte))
  | [], _, _ => []
  | call :: rest, cache, w =>
    let after := cache.readAt source call.offset call.len w
    (call, after.1) :: answers source rest after.2.1 after.2.2

/-! ## What the window holds -/

section Content
variable (document : List Byte)

/-- An answer is the document's, and an empty one means the end of it. -/
def Right (call : ReadCall) (answer : Except QueryReadError (List Byte)) : Prop :=
  ∀ bytes, answer = .ok bytes →
    bytes.length ≤ call.len ∧ bytes <+: document.drop call.offset ∧
    (0 < call.len → bytes = [] → document.length ≤ call.offset)

/-- The valid bytes are the document's at the start the cache has for them. -/
def Holds (cache : QueryReadCache) : Prop :=
  cache.loaded → cache.valid ≤ cache.bytes.length ∧
    cache.bytes.take cache.valid <+: document.drop cache.start

/-- The file's content never changes; its reads may be short and may fail. -/
structure Fixed (source : PositionedRead W) : Prop where
  read : ∀ w offset len bytes, (source.readAt w offset len).1 = .ok bytes →
    bytes.length ≤ len ∧ bytes <+: document.drop offset

/-- A call that goes to the file fails only while no byte of another block is valid in the
cache, and ends short of the offset asked for only at the end of the document. -/
def RefillsWhole (source : PositionedRead W) (cache : QueryReadCache) (call : ReadCall)
    (w : W) : Prop :=
  0 < call.len → ∀ stop, checkedAdd cache.start cache.valid = some stop →
    cache.misses call.offset stop →
    match (source.readAt w (blockStart call.offset) cache.bytes.length).1 with
    | .error _ => cache.loaded → cache.valid = 0 ∨ cache.start = blockStart call.offset
    | .ok got => call.offset < document.length →
        call.offset - blockStart call.offset < got.length

/-- Every call of the schedule does. -/
def AllRefillWhole (source : PositionedRead W) : List ReadCall → QueryReadCache → W → Prop
  | [], _, _ => True
  | call :: rest, cache, w =>
    RefillsWhole document source cache call w ∧
      let after := cache.readAt source call.offset call.len w
      AllRefillWhole source rest after.2.1 after.2.2

end Content

variable {document : List Byte} {source : PositionedRead W} {cache : QueryReadCache}

theorem Right.error (call : ReadCall) (error : QueryReadError) :
    Right document call (.error error) := by
  intro bytes hbytes
  cases hbytes

theorem Right.empty (call : ReadCall) (hlen : call.len = 0) :
    Right document call (.ok []) := by
  rintro bytes ⟨⟩
  refine ⟨Nat.zero_le _, List.nil_prefix, ?_⟩
  intro hpos
  omega

theorem new_holds : Holds document new := by
  intro hloaded
  cases hloaded

/-- What is served lies inside the window, so the bytes are the document's. -/
theorem serve_isPrefix (h : Holds document cache) (hloaded : cache.loaded) {offset len : Nat}
    {bytes : List Byte} (hok : cache.serve offset len = .ok bytes) :
    bytes.length ≤ len ∧ bytes <+: document.drop offset := by
  obtain ⟨hvalid, hwindow⟩ := h hloaded
  unfold serve at hok
  split at hok
  · cases hok
  rename_i hstart
  dsimp only at hok
  split at hok
  · cases hok
    exact ⟨Nat.zero_le _, List.nil_prefix⟩
  · rename_i hinside
    generalize hrelative : offset - cache.start = relative at hinside hok
    cases hok
    have hcount : min len (cache.valid - relative) ≤ cache.valid - relative :=
      Nat.min_le_right _ _
    have hdrop : (cache.bytes.take cache.valid).drop relative <+: document.drop offset := by
      have hoffset : offset = cache.start + relative := by omega
      rw [hoffset, ← List.drop_drop]
      exact hwindow.drop relative
    have htake : (cache.bytes.drop relative).take (min len (cache.valid - relative)) <+:
        (cache.bytes.take cache.valid).drop relative := by
      rw [List.drop_take]
      exact List.take_prefix_take_left hcount
    refine ⟨?_, htake.trans hdrop⟩
    rw [List.length_take]
    omega

/-- A hit inside the window, or an offset at which the window is known to end. -/
theorem serve_right (h : Holds document cache) (hloaded : cache.loaded) {call : ReadCall}
    (hreach : call.offset < document.length → call.offset < cache.start + cache.valid) :
    Right document call (cache.serve call.offset call.len) := by
  intro bytes hok
  obtain ⟨hlen, hprefix⟩ := serve_isPrefix h hloaded hok
  refine ⟨hlen, hprefix, ?_⟩
  rintro hpos rfl
  have hvalid := (h hloaded).1
  unfold serve at hok
  split at hok
  · cases hok
  dsimp only at hok
  split at hok
  · by_contra hlt
    have := hreach (by omega)
    omega
  · have hlength := congrArg List.length (Except.ok.inj hok)
    simp only [List.length_take, List.length_drop, List.length_nil] at hlength
    omega

/-- A refill that comes back has read the document. -/
theorem refill_ok (hsource : source.Reads document) {offset : Nat} {w : W}
    (hok : (cache.refill source offset w).1 = .ok ()) :
    (cache.refill source offset w).2.1.loaded ∧
      Holds document (cache.refill source offset w).2.1 := by
  simp only [refill] at hok ⊢
  rcases hread : source.readAt w (blockStart offset) cache.bytes.length with ⟨error | got, w'⟩
  · rw [hread] at hok
    cases hok
  · rw [hread] at hok
    have hcontent := hsource.read w _ _ got (by rw [hread])
    dsimp only at hok ⊢
    split at hok
    · cases hok
    · rename_i hcount
      rw [if_neg hcount, List.take_of_length_le (by omega)]
      refine ⟨rfl, fun _ => ⟨by simp, ?_⟩⟩
      dsimp only
      rw [List.take_left]
      exact hcontent

/-- Whatever is short or fails: what is answered is the document's, and behind an answer the
window is right. Only a call that fails can leave it wrong. -/
theorem readAt_ok (hsource : source.Reads document) (h : Holds document cache) {offset len : Nat}
    {w : W} {bytes : List Byte} (hok : (cache.readAt source offset len w).1 = .ok bytes) :
    bytes <+: document.drop offset ∧ Holds document (cache.readAt source offset len w).2.1 := by
  unfold readAt at hok ⊢
  split at hok
  · cases hok
    exact ⟨List.nil_prefix, by rwa [if_pos ‹_›]⟩
  rename_i hlen
  rw [if_neg hlen]
  cases hstop : checkedAdd cache.start cache.valid with
  | none =>
    rw [hstop] at hok
    cases hok
  | some stop =>
    rw [hstop] at hok
    dsimp only at hok ⊢
    cases hmiss : cache.misses offset stop with
    | false =>
      rw [hmiss] at hok
      have hloaded : cache.loaded := by
        unfold misses at hmiss
        simp only [Bool.or_eq_false_iff, Bool.not_eq_false'] at hmiss
        exact hmiss.1.1
      exact ⟨(serve_isPrefix h hloaded hok).2, h⟩
    | true =>
      have hfill := @refill_ok W document source cache hsource offset w
      rcases hrun : cache.refill source offset w with ⟨error | ⟨⟩, filled, w'⟩
      · rw [hmiss, hrun] at hok
        cases hok
      · rw [hmiss, hrun] at hok
        rw [hrun] at hfill
        obtain ⟨hloaded, hholds⟩ := hfill rfl
        exact ⟨(serve_isPrefix hholds hloaded hok).2, hholds⟩

/-- What a refill that keeps the condition leaves behind. -/
theorem refill_holds (hsource : Fixed document source) (h : Holds document cache)
    {call : ReadCall} {w : W}
    (hwhole : match (source.readAt w (blockStart call.offset) cache.bytes.length).1 with
      | .error _ => cache.loaded → cache.valid = 0 ∨ cache.start = blockStart call.offset
      | .ok got => call.offset < document.length →
          call.offset - blockStart call.offset < got.length) :
    Holds document (cache.refill source call.offset w).2.1 ∧
    ((cache.refill source call.offset w).1 = .ok () →
      (cache.refill source call.offset w).2.1.loaded ∧
      (call.offset < document.length → call.offset <
        (cache.refill source call.offset w).2.1.start +
          (cache.refill source call.offset w).2.1.valid)) := by
  have hstart := blockStart_le call.offset
  simp only [refill]
  rcases hread : source.readAt w (blockStart call.offset) cache.bytes.length with
    ⟨error | got, w'⟩
  · rw [hread] at hwhole
    refine ⟨?_, by simp⟩
    intro hloaded
    obtain ⟨hvalid, hwindow⟩ := h hloaded
    rcases hwhole hloaded with hzero | hsame
    · exact ⟨hvalid, by simp [hzero]⟩
    · exact ⟨hvalid, hsame ▸ hwindow⟩
  · rw [hread] at hwhole
    obtain ⟨hcount, hcontent⟩ := hsource.read w _ _ got (by rw [hread])
    dsimp only
    rw [if_neg (by omega), List.take_of_length_le hcount]
    refine ⟨?_, ?_⟩
    · intro _
      refine ⟨by simp, ?_⟩
      rw [List.take_left]
      exact hcontent
    · intro _
      refine ⟨rfl, ?_⟩
      intro hinside
      have hreach := hwhole hinside
      dsimp only
      omega

theorem misses_eq_false {offset stop : Nat} (h : cache.misses offset stop = false) :
    cache.loaded ∧ cache.start ≤ offset ∧ offset < stop := by
  unfold misses at h
  simp only [Bool.or_eq_false_iff, Bool.not_eq_false', decide_eq_false_iff_not, not_lt,
    not_le] at h
  exact ⟨h.1.1, h.1.2, h.2⟩

theorem readAt_right (hsource : Fixed document source) (h : Holds document cache)
    (call : ReadCall) (w : W) (hwhole : RefillsWhole document source cache call w) :
    Right document call (cache.readAt source call.offset call.len w).1 ∧
    Holds document (cache.readAt source call.offset call.len w).2.1 := by
  unfold readAt
  split
  · rename_i hlen
    exact ⟨.empty call hlen, h⟩
  rename_i hlen
  cases hstop : checkedAdd cache.start cache.valid with
  | none => exact ⟨.error call _, h⟩
  | some stop =>
    dsimp only
    obtain ⟨_, hsum⟩ := checkedAdd_eq_some.mp hstop
    cases hmiss : cache.misses call.offset stop with
    | false =>
      obtain ⟨hloaded, _, hinside⟩ := misses_eq_false hmiss
      refine ⟨serve_right h hloaded ?_, h⟩
      intro _
      omega
    | true =>
      have hfill := refill_holds hsource h (hwhole (Nat.pos_of_ne_zero hlen) stop hstop hmiss)
      rcases hrun : cache.refill source call.offset w with ⟨error | ⟨⟩, filled, w'⟩
      · rw [hrun] at hfill
        exact ⟨.error call _, hfill.1⟩
      · rw [hrun] at hfill
        obtain ⟨hholds, hok⟩ := hfill
        obtain ⟨hloaded, hreach⟩ := hok rfl
        exact ⟨serve_right hholds hloaded hreach, hholds⟩

theorem answers_right (hsource : Fixed document source) (schedule : List ReadCall)
    (h : Holds document cache) (w : W)
    (hwhole : AllRefillWhole document source schedule cache w) :
    ∀ answer ∈ answers source schedule cache w, Right document answer.1 answer.2 := by
  induction schedule generalizing cache w with
  | nil => simp [answers]
  | cons call rest ih =>
    obtain ⟨hcall, hrest⟩ := hwhole
    obtain ⟨hright, hholds⟩ := readAt_right hsource h call w hcall
    intro answer hanswer
    rcases List.mem_cons.mp hanswer with rfl | htail
    · exact hright
    · exact ih hholds _ hrest answer htail

/-! ### The two ways out of the condition -/

/-- A refill that fails leaves the bytes of the old block under the start of the new one:
the next call there is a hit, and answers with them. -/
theorem failed_refill_serves_old {offset len : Nat} {w w' : W} {stop : Nat} {error : IoError}
    (hlen : len ≠ 0) (hstop : checkedAdd cache.start cache.valid = some stop)
    (hmiss : cache.misses offset stop) (hloaded : cache.loaded)
    (hvalid : 0 < cache.valid) (hroom : blockStart offset + cache.valid < u64Bound)
    (hread : source.readAt w (blockStart offset) cache.bytes.length = (.error error, w'))
    (asked : Nat) (hasked : asked ≠ 0) (later : W) :
    ((cache.readAt source offset len w).2.1.readAt source
      (blockStart offset) asked later).1 = .ok (cache.bytes.take (min asked cache.valid)) := by
  have hmoved : (cache.readAt source offset len w).2.1 =
      { cache with start := blockStart offset } := by
    simp only [readAt, hlen, if_false, hstop, hmiss, if_true, refill, hread]
  have hadd : checkedAdd (blockStart offset) cache.valid =
      some (blockStart offset + cache.valid) := checkedAdd_eq_some.mpr ⟨hroom, rfl⟩
  have hhit : ({ cache with start := blockStart offset } : QueryReadCache).misses
      (blockStart offset) (blockStart offset + cache.valid) = false := by
    simp only [misses, hloaded, Bool.not_true, Nat.lt_irrefl, decide_false, Bool.or_self,
      Bool.false_or, decide_eq_false_iff_not]
    omega
  rw [hmoved]
  simp only [readAt, hasked, if_false, hadd, hhit, Bool.false_eq_true, serve, Nat.lt_irrefl,
    Nat.sub_self, Nat.sub_zero, List.drop_zero]
  rw [if_neg (by omega)]

/-- In every schedule of calls from a new cache, whatever is asked for and whichever reads
are short or fail, as long as each call keeps the condition on the reads it makes. -/
theorem answers_transparent (hsource : Fixed document source) (schedule : List ReadCall)
    (w : W) (hwhole : AllRefillWhole document source schedule new w) :
    ∀ answer ∈ answers source schedule new w, Right document answer.1 answer.2 := by
  apply answers_right hsource schedule _ w hwhole
  exact new_holds

/-- The blocks of a file whose reads deliver one byte each; the second read fails. -/
def flaky (document : List Byte) : PositionedRead Nat where
  fingerprint w := (.error (.os 0), w)
  readAt w offset len :=
    (if w = 1 then .error (.os 5) else .ok ((document.drop offset).take (min 1 len)), w + 1)

theorem flaky_fixed (document : List Byte) : Fixed document (flaky document) where
  read w offset len bytes h := by
    simp only [flaky] at h
    split at h
    · cases h
    · cases h
      refine ⟨?_, List.take_prefix _ _⟩
      rw [List.length_take]
      omega

@[simp] theorem blockStart_zero : blockStart 0 = 0 := rfl

@[simp] theorem blockStart_one : blockStart 1 = 0 := rfl

@[simp] theorem blockStart_block : blockStart readBufferBytes = readBufferBytes := by decide

/-- The cache once a read of the first block has delivered one byte. -/
def oneByte (byte : Byte) : QueryReadCache :=
  ⟨byte :: List.replicate (readBufferBytes - 1) 0, 0, 1, true⟩

theorem new_refill_flaky (byte : Byte) (rest : List Byte) {offset : Nat}
    (hblock : blockStart offset = 0) :
    new.refill (flaky (byte :: rest)) offset 0 = (.ok (), oneByte byte, 1) := by
  have hmin : min 1 readBufferBytes = 1 := by decide
  have htake : [byte].take readBufferBytes = [byte] := by
    rw [List.take_of_length_le]
    exact readBufferBytes_pos
  have hcount : ¬ readBufferBytes < 1 := by decide
  simp [refill, new, hblock, flaky, hmin, htake, hcount, oneByte]

theorem new_readAt_flaky (byte : Byte) (rest : List Byte) {offset : Nat}
    (hblock : blockStart offset = 0) : new.readAt (flaky (byte :: rest)) offset 1 0 =
      ((oneByte byte).serve offset 1, oneByte byte, 1) := by
  rw [readAt, if_neg (by decide)]
  simp only [new_refill_flaky byte rest hblock]
  rfl

/-- The first read is shorter than the block, and the read for the second byte of it fails: the
first byte is still answered. -/
theorem answers_transparent_heldBlock :
    (answers (flaky [97, 98]) [⟨0, 1⟩, ⟨1, 1⟩, ⟨0, 1⟩] new 0).map Prod.snd =
        [.ok [97], .error (.io (.os 5)), .ok [97]] ∧
      ∀ answer ∈ answers (flaky [97, 98]) [⟨0, 1⟩, ⟨1, 1⟩, ⟨0, 1⟩] new 0,
        Right [97, 98] answer.1 answer.2 := by
  have hfirst : new.readAt (flaky [97, 98]) 0 1 0 = (.ok [97], oneByte 97, 1) :=
    new_readAt_flaky 97 [98] rfl
  have hsecond : (oneByte 97).readAt (flaky [97, 98]) 1 1 1 =
      (.error (.io (.os 5)), oneByte 97, 2) := by
    simp [readAt, oneByte, checkedAdd, u64Bound, misses, refill, flaky]
  have hthird : (oneByte 97).readAt (flaky [97, 98]) 0 1 2 = (.ok [97], oneByte 97, 2) := by
    simp [readAt, oneByte, checkedAdd, u64Bound, misses, serve]
  refine ⟨by simp [answers, hfirst, hsecond, hthird], ?_⟩
  refine answers_transparent (flaky_fixed [97, 98]) _ 0 ?_
  simp only [AllRefillWhole, hfirst, hsecond]
  refine ⟨?_, ?_, ?_, trivial⟩
  · intro _ stop _ _
    simp [flaky, new, readBufferBytes_pos]
  · intro _ stop _ _
    simp [flaky, oneByte]
  · intro _ stop hstop hmiss
    simp [oneByte, checkedAdd, u64Bound] at hstop
    simp [oneByte, misses, ← hstop] at hmiss

/-- A document of two blocks: the read of the second one fails, and the next call there is
answered with the first block's byte. In two bytes read one at a time, the second is
reported as past the end. -/
theorem flaky_not_transparent :
    (let document : List Byte := List.replicate readBufferBytes 97 ++ [98]
    ∃ answer ∈ answers (flaky document)
        [⟨0, 1⟩, ⟨readBufferBytes, 1⟩, ⟨readBufferBytes, 1⟩] new 0,
      ¬ Right document answer.1 answer.2) ∧
    ∃ answer ∈ answers (flaky [97, 98]) [⟨1, 1⟩] new 0, ¬ Right [97, 98] answer.1 answer.2 := by
  refine ⟨?_, ⟨⟨1, 1⟩, .ok []⟩, ?_, ?_⟩
  · intro document
    have hlast : document.drop readBufferBytes = [98] := by
      apply List.drop_left'
      exact List.length_replicate
    have hload : new.readAt (flaky document) 0 1 0 = (.ok [97], oneByte 97, 1) :=
      new_readAt_flaky 97 _ rfl
    refine ⟨(⟨readBufferBytes, 1⟩, .ok [97]), ?_, ?_⟩
    · have hread : (flaky document).readAt 1 (blockStart readBufferBytes)
          (oneByte 97).bytes.length = (.error (.os 5), 2) := rfl
      have hold := failed_refill_serves_old Nat.one_ne_zero
        (checkedAdd_eq_some.mpr ⟨by decide, rfl⟩) (by decide) rfl
        Nat.one_pos (by decide) hread 1 (by decide)
        (((oneByte 97).readAt (flaky document) readBufferBytes 1 1).2.2)
      rw [blockStart_block] at hold
      simp only [answers, hload, List.mem_cons, Prod.mk.injEq, true_and]
      right
      right
      left
      exact hold.symm
    · intro hright
      obtain ⟨_, hcontent, _⟩ := hright [97] rfl
      rw [hlast] at hcontent
      revert hcontent
      decide
  · simp only [answers, new_readAt_flaky 97 [98] blockStart_one]
    exact List.mem_singleton.mpr rfl
  · intro hright
    have hend := (hright [] rfl).2.2 Nat.one_pos rfl
    revert hend
    decide

end QueryReadCache

end LeanRows
