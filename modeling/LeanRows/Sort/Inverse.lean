import LeanRows.Lib.WordFile
import LeanRows.Sort.Session

/-!
# The map from rows to ranks

What the inverse builder writes. Every pair of a row and its rank goes to the bucket of the row,
through a buffer, into one scratch file; then bucket by bucket the ranks are placed in memory and
written to the map. The scratch files work; what an error of theirs does is with the session.
-/

set_option autoImplicit false

namespace LeanRows.Sort.Inverse

open WordFile (pairWords)

/-- `u64::MAX`, which is no rank. -/
def emptySlot : Nat := u64Bound - 1

/-- What a builder is made for. -/
structure Shape where
  records : Nat
  bucketRows : Nat
  buckets : Nat
  bufferBytes : Nat

namespace Shape

def bucketStart (shape : Shape) (bucket : Nat) : Nat := bucket * shape.bucketRows

def bucketLen (shape : Shape) (bucket : Nat) : Nat :=
  min shape.bucketRows (shape.records - shape.bucketStart bucket)

end Shape

/-- The builder with the contents of its buffers and its file. -/
structure Builder extends Shape where
  pairs : WordFile
  buffer : Nat → List (Nat × Nat)
  written : Nat → Nat
  ranks : Nat → Nat
  bucket : Nat
  read : Nat

namespace Builder

def new (records bucketRows bufferBytes : Nat) : Except SortError Builder :=
  if bucketRows = 0 ∨ bufferBytes < pairBytes ∨ bufferBytes % pairBytes ≠ 0 then
    .error .invalidConfig
  else if u64Bound ≤ records * pairBytes then .error .invalidScratch
  else .ok
    { records := records
      bucketRows := bucketRows
      buckets := divCeil records bucketRows
      bufferBytes := bufferBytes
      pairs := ⟨fun _ => 0, []⟩
      buffer := fun _ => []
      written := fun _ => 0
      ranks := fun _ => 0
      bucket := 0
      read := 0 }

/-- The bytes of a bucket's buffer that are in use. -/
def filled (builder : Builder) (bucket : Nat) : Nat := pairBytes * (builder.buffer bucket).length

def flush (bucket : Nat) (builder : Builder) : Except SortError Builder :=
  let count := builder.filled bucket
  if count = 0 then .ok builder
  else if builder.bucketLen bucket * pairBytes < builder.written bucket + count then
    .error .invalidScratch
  else
    let offset := builder.bucketStart bucket * pairBytes + builder.written bucket
    .ok { builder with
      pairs := builder.pairs.writeAllAt offset (pairWords (builder.buffer bucket))
      written := Function.update builder.written bucket (builder.written bucket + count)
      buffer := Function.update builder.buffer bucket [] }

def push (row rank : Nat) (builder : Builder) : Except SortError Builder :=
  if builder.records ≤ row ∨ builder.records ≤ rank then .error .invalidScratch
  else
    let bucket := row / builder.bucketRows
    let builder := { builder with
      buffer := Function.update builder.buffer bucket (builder.buffer bucket ++ [(row, rank)]) }
    if builder.filled bucket = builder.bufferBytes then flush bucket builder else .ok builder

/-- Pushes pairs one after another; what fails stays as it was before. -/
def pushAll : List (Nat × Nat) → Builder → Except SortError Unit × Builder
  | [], builder => (.ok (), builder)
  | (row, rank) :: pairs, builder =>
    match builder.push row rank with
    | .error e => (.error e, builder)
    | .ok builder => pushAll pairs builder

/-- Flushes that many buckets from `bucket` on. -/
def finishFrom : Nat → Nat → Builder → Except SortError Unit × Builder
  | 0, _, builder => (.ok (), builder)
  | count + 1, bucket, builder =>
    match builder.flush bucket with
    | .error e => (.error e, builder)
    | .ok builder =>
      if builder.written bucket ≠ builder.bucketLen bucket * pairBytes then
        (.error .invalidScratch, builder)
      else finishFrom count (bucket + 1) builder

def finishCollecting (builder : Builder) : Except SortError Unit × Builder :=
  finishFrom builder.buckets 0 builder

/-- Puts ranks into the slots of their rows. -/
def placePairs (base len : Nat) : List (Nat × Nat) → (Nat → Nat) → Except SortError (Nat → Nat)
  | [], ranks => .ok ranks
  | (row, rank) :: pairs, ranks =>
    if row < base ∨ len ≤ row - base then .error .invalidScratch
    else if ranks (row - base) ≠ emptySlot then .error .invalidScratch
    else placePairs base len pairs (Function.update ranks (row - base) rank)

def ranksPerChunk : Nat := chunkBytes / 8

/-- Writes the ranks of a bucket to the map, at most a chunk at a time. -/
def writeRanks (ranks : Nat → Nat) (base rows : Nat) : Nat → Nat → WordFile → WordFile
  | 0, _, inverse => inverse
  | fuel + 1, done, inverse =>
    if done < rows then
      let take := min (rows - done) ranksPerChunk
      writeRanks ranks base rows fuel (done + take)
        (inverse.writeAllAt (mapHeaderBytes + (base + done) * 8)
          ((List.range take).map fun index => ranks (done + index)))
    else inverse

/-- One step of placing, and what it leaves of the budget. -/
def place (inverse : WordFile) (budget : Nat) (builder : Builder) :
    Except SortError Bool × Builder × WordFile × Nat :=
  if builder.bucket = builder.buckets then (.ok true, builder, inverse, budget)
  else
    let base := builder.bucketStart builder.bucket
    let len := builder.bucketLen builder.bucket
    let total := len * pairBytes
    let count := min (total - builder.read) chunkBytes
    let ranks := if builder.read = 0 then fun slot =>
        if slot < len then emptySlot else builder.ranks slot
      else builder.ranks
    let chunk := builder.pairs.readPairs (base * pairBytes + builder.read) (count / pairBytes)
    match placePairs base len chunk ranks with
    | .error e => (.error e, builder, inverse, budget)
    | .ok ranks =>
      let builder := { builder with ranks := ranks, read := builder.read + count }
      let budget := budget - count
      if builder.read = total then
        let builder := { builder with bucket := builder.bucket + 1, read := 0 }
        (.ok (decide (builder.bucket = builder.buckets)), builder,
          writeRanks ranks base len len 0 inverse, budget)
      else (.ok (decide (builder.bucket = builder.buckets)), builder, inverse, budget)

/-- Places until the map is complete, with the budget of each step, in so many steps at most. -/
def placeAll (budgets : Nat → Nat) : Nat → WordFile → Builder →
    Except SortError Bool × Builder × WordFile
  | 0, inverse, builder => (.ok false, builder, inverse)
  | calls + 1, inverse, builder =>
    match builder.place inverse (budgets calls) with
    | (.error e, builder, inverse, _) => (.error e, builder, inverse)
    | (.ok true, builder, inverse, _) => (.ok true, builder, inverse)
    | (.ok false, builder, inverse, _) => placeAll budgets calls inverse builder

/-- The map of the rows that are shown at the ranks from zero on. -/
def build (rows : List Nat) (budgets : Nat → Nat) (calls : Nat) (inverse : WordFile)
    (builder : Builder) : Except SortError Bool × Builder × WordFile :=
  match builder.pushAll rows.zipIdx with
  | (.error e, builder) => (.error e, builder, inverse)
  | (.ok _, builder) =>
    match builder.finishCollecting with
    | (.error e, builder) => (.error e, builder, inverse)
    | (.ok _, builder) => builder.placeAll budgets calls inverse

end Builder

/-! ## Buckets of rows -/

namespace Shape
variable {shape : Shape} {bucket other row : Nat}

/-- The shape that `new` gives. -/
structure Sound (shape : Shape) : Prop where
  bucketRows_pos : 0 < shape.bucketRows
  buckets_eq : shape.buckets = divCeil shape.records shape.bucketRows
  buffer_pos : pairBytes ≤ shape.bufferBytes
  buffer_mod : shape.bufferBytes % pairBytes = 0
  bounded : shape.records * pairBytes < u64Bound

theorem div_lt_buckets (h : shape.Sound) (hrow : row < shape.records) :
    row / shape.bucketRows < shape.buckets := by
  have hpos := h.bucketRows_pos
  rw [h.buckets_eq, divCeil, Nat.div_lt_iff_lt_mul hpos]
  have hdiv := Nat.div_add_mod (shape.records + shape.bucketRows - 1) shape.bucketRows
  have hmod := Nat.mod_lt (shape.records + shape.bucketRows - 1) hpos
  rw [Nat.mul_comm] at hdiv
  omega

theorem bucketStart_lt (h : shape.Sound) (hbucket : bucket < shape.buckets) :
    shape.bucketStart bucket < shape.records := by
  have hpos := h.bucketRows_pos
  rw [h.buckets_eq, divCeil, Nat.lt_div_iff_mul_lt hpos] at hbucket
  rw [bucketStart]
  omega

theorem bucketLen_pos (h : shape.Sound) (hbucket : bucket < shape.buckets) :
    0 < shape.bucketLen bucket := by
  have hstart := bucketStart_lt h hbucket
  have hpos := h.bucketRows_pos
  unfold bucketLen
  omega

theorem bucket_end_le (h : shape.Sound) (hbucket : bucket < shape.buckets) :
    shape.bucketStart bucket + shape.bucketLen bucket ≤ shape.records := by
  have hstart := bucketStart_lt h hbucket
  unfold bucketLen
  omega

/-- Buckets do not overlap. -/
theorem bucket_end_le_start (shape : Shape) (hlt : bucket < other) :
    shape.bucketStart bucket + shape.bucketLen bucket ≤ shape.bucketStart other := by
  have hmul : (bucket + 1) * shape.bucketRows ≤ other * shape.bucketRows :=
    Nat.mul_le_mul_right _ hlt
  rw [Nat.succ_mul] at hmul
  unfold bucketLen bucketStart
  omega

theorem div_eq_iff (h : shape.Sound) (hrow : row < shape.records) :
    row / shape.bucketRows = bucket ↔ shape.bucketStart bucket ≤ row ∧
      row < shape.bucketStart bucket + shape.bucketLen bucket := by
  have hpos := h.bucketRows_pos
  have hdiv := Nat.div_add_mod row shape.bucketRows
  have hmod := Nat.mod_lt row hpos
  rw [Nat.mul_comm] at hdiv
  unfold bucketLen bucketStart
  constructor
  · rintro rfl
    omega
  · rintro ⟨hge, hlt⟩
    exact Nat.div_eq_of_lt_le hge (by rw [Nat.succ_mul]; omega)

end Shape

/-! ## Collecting -/

namespace Builder
variable {shape : Shape} {builder : Builder} {pushed : List (Nat × Nat)} {bucket : Nat}

/-- What is written of a bucket's region. -/
def region (builder : Builder) (bucket : Nat) : List (Nat × Nat) :=
  builder.pairs.readPairs (builder.bucketStart bucket * pairBytes)
    (builder.written bucket / pairBytes)

/-- The pairs of the rows of a bucket, in order. -/
def bucketPairs (shape : Shape) (pushed : List (Nat × Nat)) (bucket : Nat) : List (Nat × Nat) :=
  pushed.filter fun pair => pair.1 / shape.bucketRows == bucket

/-- The region of a bucket and its buffer hold its pairs, in order. -/
structure Collected (shape : Shape) (builder : Builder) (pushed : List (Nat × Nat)) : Prop where
  shape_eq : builder.toShape = shape
  written_mod : ∀ bucket, builder.written bucket % pairBytes = 0
  written_le : ∀ bucket, builder.written bucket ≤ shape.bucketLen bucket * pairBytes
  contents : ∀ bucket, builder.region bucket ++ builder.buffer bucket =
    bucketPairs shape pushed bucket
  inside : ∀ extent ∈ builder.pairs.extents, ∃ bucket < shape.buckets,
    shape.bucketStart bucket * pairBytes ≤ extent.1 ∧
      extent.1 + extent.2 ≤ (shape.bucketStart bucket + shape.bucketLen bucket) * pairBytes
  fresh : builder.bucket = 0 ∧ builder.read = 0

theorem length_region (builder : Builder) (bucket : Nat) :
    (builder.region bucket).length = builder.written bucket / pairBytes :=
  WordFile.length_readPairs _

theorem Collected.length (h : Collected shape builder pushed) (bucket : Nat) :
    builder.written bucket + builder.filled bucket =
      (bucketPairs shape pushed bucket).length * pairBytes := by
  have hmod := h.written_mod bucket
  rw [← h.contents bucket, List.length_append, length_region, filled]
  simp only [pairBytes] at *
  omega

/-- The builder after a bucket's buffer is written. -/
def flushed (builder : Builder) (bucket : Nat) : Builder :=
  { builder with
    pairs := builder.pairs.writeAllAt
      (builder.bucketStart bucket * pairBytes + builder.written bucket)
      (pairWords (builder.buffer bucket))
    written := Function.update builder.written bucket
      (builder.written bucket + builder.filled bucket)
    buffer := Function.update builder.buffer bucket [] }

theorem written_bytes (builder : Builder) (bucket : Nat) :
    WordFile.wordBytes * (pairWords (builder.buffer bucket)).length = builder.filled bucket := by
  rw [WordFile.length_pairWords, filled]
  simp only [WordFile.wordBytes, pairBytes]
  omega

theorem region_flushed_self (h : Collected shape builder pushed) (bucket : Nat) :
    (builder.flushed bucket).region bucket = builder.region bucket ++ builder.buffer bucket := by
  have hmod := h.written_mod bucket
  have hcount : (builder.written bucket + builder.filled bucket) / pairBytes =
      builder.written bucket / pairBytes + (builder.buffer bucket).length := by
    simp only [filled, pairBytes] at *
    omega
  have hoffset : builder.bucketStart bucket * pairBytes + builder.written bucket =
      builder.bucketStart bucket * pairBytes +
        WordFile.pairBytes * (builder.written bucket / pairBytes) := by
    simp only [pairBytes, WordFile.pairBytes, WordFile.wordBytes] at *
    omega
  simp only [region, flushed, Function.update_self]
  rw [hcount, WordFile.readPairs_add, hoffset, WordFile.readPairs_writeAllAt,
    WordFile.readPairs_writeAllAt_outside (.inl (Nat.le_refl _))]

theorem region_flushed_other (h : Collected shape builder pushed)
    (hfit : builder.written bucket + builder.filled bucket ≤
      shape.bucketLen bucket * pairBytes) {other : Nat} (hother : other ≠ bucket) :
    (builder.flushed bucket).region other = builder.region other := by
  have hle := h.written_le other
  have hmod := h.written_mod other
  simp only [region, flushed, Function.update_of_ne hother]
  refine WordFile.readPairs_writeAllAt_outside ?_
  rw [written_bytes, h.shape_eq]
  obtain hlt | hlt := Nat.lt_or_gt_of_ne hother
  · have hend := Shape.bucket_end_le_start shape hlt
    simp only [pairBytes, WordFile.pairBytes, WordFile.wordBytes] at *
    omega
  · have hend := Shape.bucket_end_le_start shape hlt
    simp only [pairBytes, WordFile.pairBytes, WordFile.wordBytes] at *
    omega

theorem Collected.flushed (h : Collected shape builder pushed) (hbucket : bucket < shape.buckets)
    (hfit : builder.written bucket + builder.filled bucket ≤
      shape.bucketLen bucket * pairBytes) :
    Collected shape (builder.flushed bucket) pushed where
  shape_eq := h.shape_eq
  written_mod other := by
    simp only [Builder.flushed]
    by_cases hother : other = bucket
    · subst hother
      have hmod := h.written_mod other
      rw [Function.update_self, filled]
      simp only [pairBytes] at *
      omega
    · rw [Function.update_of_ne hother]
      exact h.written_mod other
  written_le other := by
    simp only [Builder.flushed]
    by_cases hother : other = bucket
    · subst hother
      rwa [Function.update_self]
    · rw [Function.update_of_ne hother]
      exact h.written_le other
  contents other := by
    by_cases hother : other = bucket
    · subst hother
      rw [region_flushed_self h, ← h.contents other]
      simp only [Builder.flushed, Function.update_self, List.append_nil]
    · rw [region_flushed_other h hfit hother, ← h.contents other]
      simp only [Builder.flushed, Function.update_of_ne hother]
  inside extent hextent := by
    obtain hold | hnew := List.mem_append.mp hextent
    · exact h.inside extent hold
    · rw [List.mem_singleton.mp hnew]
      refine ⟨bucket, hbucket, ?_, ?_⟩
      · rw [h.shape_eq]
        exact Nat.le_add_right _ _
      · rw [h.shape_eq, written_bytes, Nat.add_mul]
        omega
  fresh := h.fresh

/-- A bucket that is flushed has its pairs in its region, unless these are too many. -/
theorem Collected.flush (h : Collected shape builder pushed) (hbucket : bucket < shape.buckets) :
    (builder.flush bucket = .error .invalidScratch ∧
      shape.bucketLen bucket < (bucketPairs shape pushed bucket).length) ∨
    ∃ builder', builder.flush bucket = .ok builder' ∧ Collected shape builder' pushed ∧
      builder'.buffer bucket = [] ∧
      ∀ other, builder.buffer other = [] → builder'.buffer other = [] := by
  have hlength := h.length bucket
  by_cases hnone : builder.filled bucket = 0
  · refine .inr ⟨builder, if_pos hnone, h, ?_, fun _ => id⟩
    rw [filled] at hnone
    exact List.length_eq_zero_iff.mp ((Nat.mul_eq_zero.mp hnone).resolve_left (by decide))
  by_cases hover : builder.bucketLen bucket * pairBytes <
      builder.written bucket + builder.filled bucket
  · refine .inl ⟨(if_neg hnone).trans (if_pos hover), ?_⟩
    rw [hlength, h.shape_eq] at hover
    exact Nat.lt_of_mul_lt_mul_right hover
  · refine .inr ⟨builder.flushed bucket, (if_neg hnone).trans (if_neg hover), ?_, ?_, ?_⟩
    · rw [h.shape_eq] at hover
      exact h.flushed hbucket (Nat.not_lt.mp hover)
    · exact Function.update_self _ _ _
    · intro other hempty
      simp only [Builder.flushed]
      by_cases hother : other = bucket
      · rw [hother, Function.update_self]
      · rwa [Function.update_of_ne hother]

/-- A pair more in the buffer of its bucket. -/
theorem Collected.buffered (h : Collected shape builder pushed) (row rank : Nat) :
    Collected shape { builder with
      buffer := Function.update builder.buffer (row / shape.bucketRows)
        (builder.buffer (row / shape.bucketRows) ++ [(row, rank)]) } (pushed ++ [(row, rank)]) where
  shape_eq := h.shape_eq
  written_mod := h.written_mod
  written_le := h.written_le
  contents other := by
    have hregion := h.contents other
    rw [bucketPairs, List.filter_append, ← bucketPairs, ← hregion]
    by_cases hother : other = row / shape.bucketRows
    · subst hother
      simp [region]
    · have hne : (row / shape.bucketRows == other) = false := beq_false_of_ne (Ne.symm hother)
      simp [region, hother, hne]
  inside := h.inside
  fresh := h.fresh

/-- A pair that is pushed is in its bucket, or its row is none or its bucket has too many. -/
theorem Collected.push (hshape : shape.Sound) (h : Collected shape builder pushed) {row rank : Nat}
    (hrank : rank < shape.records) :
    (builder.push row rank = .error .invalidScratch ∧ (shape.records ≤ row ∨
      shape.bucketLen (row / shape.bucketRows) <
        (bucketPairs shape (pushed ++ [(row, rank)]) (row / shape.bucketRows)).length)) ∨
    ∃ builder', builder.push row rank = .ok builder' ∧ row < shape.records ∧
      Collected shape builder' (pushed ++ [(row, rank)]) := by
  obtain rfl := h.shape_eq
  unfold Builder.push
  by_cases hrow : builder.records ≤ row
  · exact .inl ⟨if_pos (.inl hrow), .inl hrow⟩
  rw [if_neg (by omega)]
  have hbuffered := h.buffered row rank
  have hbucket := Shape.div_lt_buckets hshape (Nat.not_le.mp hrow)
  dsimp only
  split_ifs
  · obtain ⟨herror, hmany⟩ | ⟨builder', hok, hflushed, -, -⟩ := hbuffered.flush hbucket
    · exact .inl ⟨herror, .inr hmany⟩
    · exact .inr ⟨builder', hok, Nat.not_le.mp hrow, hflushed⟩
  · exact .inr ⟨_, rfl, Nat.not_le.mp hrow, hbuffered⟩

/-- The rows of the pairs are the rows of a file, each bucket with no more than it has. -/
def Admissible (shape : Shape) (pushed : List (Nat × Nat)) : Prop :=
  (∀ pair ∈ pushed, pair.1 < shape.records) ∧
    ∀ bucket, (bucketPairs shape pushed bucket).length ≤ shape.bucketLen bucket

theorem length_bucketPairs_append (shape : Shape) (as bs : List (Nat × Nat)) (bucket : Nat) :
    (bucketPairs shape (as ++ bs) bucket).length =
      (bucketPairs shape as bucket).length + (bucketPairs shape bs bucket).length := by
  rw [bucketPairs, List.filter_append, List.length_append]
  rfl

theorem Admissible.of_append {as bs : List (Nat × Nat)} (h : Admissible shape (as ++ bs)) :
    Admissible shape as := by
  refine ⟨fun pair hpair => h.1 pair (List.mem_append_left _ hpair), fun bucket => ?_⟩
  have hle := h.2 bucket
  rw [length_bucketPairs_append] at hle
  omega

/-- What an error leaves behind has been written in the regions, as anything has. -/
def Kept (shape : Shape) (builder : Builder) : Prop :=
  ∀ extent ∈ builder.pairs.extents, ∃ bucket < shape.buckets,
    shape.bucketStart bucket * pairBytes ≤ extent.1 ∧
      extent.1 + extent.2 ≤ (shape.bucketStart bucket + shape.bucketLen bucket) * pairBytes

theorem Collected.pushAll (hshape : shape.Sound) (more : List (Nat × Nat))
    (hranks : ∀ pair ∈ more, pair.2 < shape.records) (h : Collected shape builder pushed) :
    (∃ builder', builder.pushAll more = (.error .invalidScratch, builder') ∧
      Kept shape builder' ∧ ¬ Admissible shape (pushed ++ more)) ∨
    ∃ builder', builder.pushAll more = (.ok (), builder') ∧
      (∀ pair ∈ more, pair.1 < shape.records) ∧ Collected shape builder' (pushed ++ more) := by
  induction more generalizing builder pushed with
  | nil => exact .inr ⟨builder, rfl, by simp, by rwa [List.append_nil]⟩
  | cons pair more ih =>
    obtain ⟨row, rank⟩ := pair
    have hsplit : pushed ++ (row, rank) :: more = (pushed ++ [(row, rank)]) ++ more := by simp
    obtain ⟨herror, hbad⟩ | ⟨builder', hok, hrow, hpushed⟩ :=
      h.push hshape (hranks (row, rank) List.mem_cons_self)
    · refine .inl ⟨builder, by rw [Builder.pushAll, herror], h.inside, ?_⟩
      rw [hsplit]
      intro hadmissible
      have hfront := hadmissible.of_append
      obtain hrow | hmany := hbad
      · exact Nat.not_lt.mpr hrow (hfront.1 (row, rank) (by simp))
      · exact Nat.not_lt.mpr (hfront.2 _) hmany
    · rw [Builder.pushAll, hok, hsplit]
      obtain hbad | ⟨last, hlast, hrows, hall⟩ :=
        ih (fun pair hpair => hranks pair (List.mem_cons_of_mem _ hpair)) hpushed
      · exact .inl hbad
      · exact .inr ⟨last, hlast, List.forall_mem_cons.mpr ⟨hrow, hrows⟩, hall⟩

/-- All pairs of a bucket are in its region, and they are as many as its rows. -/
def Full (shape : Shape) (builder : Builder) (pushed : List (Nat × Nat)) (bucket : Nat) : Prop :=
  builder.buffer bucket = [] ∧ (bucketPairs shape pushed bucket).length = shape.bucketLen bucket

theorem Collected.finishFrom (count bucket : Nat) (hcount : bucket + count = shape.buckets)
    (h : Collected shape builder pushed) (hdone : ∀ other < bucket,
    Full shape builder pushed other) :
    (∃ builder', Builder.finishFrom count bucket builder = (.error .invalidScratch, builder') ∧
      Kept shape builder' ∧ ∃ other < shape.buckets,
        (bucketPairs shape pushed other).length ≠ shape.bucketLen other) ∨
    ∃ builder', Builder.finishFrom count bucket builder = (.ok (), builder') ∧
      Collected shape builder' pushed ∧ ∀ other < shape.buckets,
        Full shape builder' pushed other := by
  induction count generalizing builder bucket with
  | zero => exact .inr ⟨builder, rfl, h, fun other hother => hdone other (by omega)⟩
  | succ count ih =>
    have hbucket : bucket < shape.buckets := by omega
    rw [Builder.finishFrom]
    obtain ⟨herror, hmany⟩ | ⟨builder', hok, hflushed, hempty, hstay⟩ := h.flush hbucket
    · rw [herror]
      exact .inl ⟨builder, rfl, h.inside, bucket, hbucket, by omega⟩
    · have hlength := hflushed.length bucket
      rw [filled, hempty, List.length_nil, Nat.mul_zero, Nat.add_zero] at hlength
      rw [hok]
      dsimp only
      rw [hlength, hflushed.shape_eq]
      split_ifs with hshort
      · refine .inl ⟨builder', rfl, hflushed.inside, bucket, hbucket, fun heq => ?_⟩
        rw [heq] at hshort
        exact hshort rfl
      · refine ih (bucket + 1) (by omega) hflushed fun other hother => ?_
        rcases Nat.lt_or_eq_of_le (Nat.le_of_lt_succ hother) with hlt | rfl
        · exact ⟨hstay other (hdone other hlt).1, (hdone other hlt).2⟩
        · exact ⟨hempty, Nat.eq_of_mul_eq_mul_right (by decide) (Decidable.not_not.mp hshort)⟩

/-- In a full region are the pairs of the bucket. -/
theorem Collected.readPairs (h : Collected shape builder pushed)
    (hfull : Full shape builder pushed bucket) :
    builder.pairs.readPairs (shape.bucketStart bucket * pairBytes) (shape.bucketLen bucket) =
      bucketPairs shape pushed bucket := by
  have hlength := h.length bucket
  rw [filled, hfull.1, List.length_nil, Nat.mul_zero, Nat.add_zero, hfull.2] at hlength
  have hcontents := h.contents bucket
  rw [hfull.1, List.append_nil, region, hlength, h.shape_eq,
    Nat.mul_div_cancel _ (by decide)] at hcontents
  exact hcontents

/-! ## Placing -/

/-- The slots of the rows of these pairs hold their ranks, all others are empty. -/
structure Placed (base len : Nat) (ranks : Nat → Nat) (placed : List (Nat × Nat)) : Prop where
  distinct : (placed.map Prod.fst).Nodup
  here : ∀ pair ∈ placed, ranks (pair.1 - base) = pair.2
  free : ∀ slot < len, (∀ pair ∈ placed, pair.1 ≠ base + slot) → ranks slot = emptySlot

variable {base len : Nat} {ranks : Nat → Nat} {placed : List (Nat × Nat)}

/-- The pair of a row that was not placed yet. -/
theorem Placed.concat (h : Placed base len ranks placed) {row rank : Nat}
    (hrange : ∀ pair ∈ placed, base ≤ pair.1) (hrow : base ≤ row)
    (hnew : ∀ pair ∈ placed, pair.1 ≠ row) :
    Placed base len (Function.update ranks (row - base) rank) (placed ++ [(row, rank)]) where
  distinct := by
    rw [List.map_append, List.map_singleton]
    refine List.nodup_append.mpr ⟨h.distinct, List.nodup_singleton _, ?_⟩
    intro other hother last hlast
    obtain ⟨pair, hpair, rfl⟩ := List.mem_map.mp hother
    rw [List.mem_singleton.mp hlast]
    exact hnew pair hpair
  here pair hpair := by
    obtain hold | hlast := List.mem_append.mp hpair
    · have hle := hrange pair hold
      have hne := hnew pair hold
      rw [Function.update_of_ne (by omega)]
      exact h.here pair hold
    · rw [List.mem_singleton.mp hlast]
      exact Function.update_self _ _ _
  free slot hslot hother := by
    have hlast := hother (row, rank) (by simp)
    rw [Function.update_of_ne (by simp only at hlast; omega)]
    exact h.free slot hslot fun pair hpair => hother pair (List.mem_append_left _ hpair)

/-- Pairs are placed unless a row occurs twice among them. -/
theorem Placed.placePairs (more : List (Nat × Nat)) (h : Placed base len ranks placed)
    (hrange : ∀ pair ∈ placed ++ more, base ≤ pair.1 ∧ pair.1 < base + len)
    (hranks : ∀ pair ∈ placed ++ more, pair.2 ≠ emptySlot) :
    (Builder.placePairs base len more ranks = .error .invalidScratch ∧
      ¬ ((placed ++ more).map Prod.fst).Nodup) ∨
    ∃ ranks', Builder.placePairs base len more ranks = .ok ranks' ∧
      Placed base len ranks' (placed ++ more) := by
  induction more generalizing ranks placed with
  | nil => exact .inr ⟨ranks, rfl, by rwa [List.append_nil]⟩
  | cons pair more ih =>
    obtain ⟨row, rank⟩ := pair
    obtain ⟨hlow, hhigh⟩ := hrange (row, rank) (by simp)
    have hplaced : ∀ pair ∈ placed, base ≤ pair.1 := fun pair hpair =>
      (hrange pair (List.mem_append_left _ hpair)).1
    have hsplit : placed ++ (row, rank) :: more = (placed ++ [(row, rank)]) ++ more := by simp
    simp only at hlow hhigh
    rw [Builder.placePairs, if_neg (by omega)]
    by_cases hseen : ∃ pair ∈ placed, pair.1 = row
    · obtain ⟨pair, hpair, rfl⟩ := hseen
      have htaken : ranks (pair.1 - base) ≠ emptySlot := by
        rw [h.here pair hpair]
        exact hranks pair (List.mem_append_left _ hpair)
      refine .inl ⟨if_pos htaken, fun hnodup => ?_⟩
      rw [List.map_append, List.map_cons] at hnodup
      exact (List.disjoint_of_nodup_append hnodup) (List.mem_map_of_mem hpair)
        List.mem_cons_self
    · have hnew : ∀ pair ∈ placed, pair.1 ≠ row := fun pair hpair heq => hseen ⟨pair, hpair, heq⟩
      have hempty : ranks (row - base) = emptySlot :=
        h.free _ (by omega) fun pair hpair => by
          have hne := hnew pair hpair
          omega
      rw [if_neg (by simpa using hempty), hsplit]
      rw [hsplit] at hrange hranks
      exact ih (h.concat hplaced hlow hnew) hrange hranks

/-- The ranks from one slot on go to the words of their rows, and nothing else changes. -/
theorem writeRanks_spec (ranks : Nat → Nat) (base rows fuel done : Nat) (hfuel : rows ≤ done + fuel)
    (file : WordFile) :
    (∀ slot, done ≤ slot → slot < rows →
      (writeRanks ranks base rows fuel done file).word (mapHeaderBytes + (base + slot) * 8) =
        ranks slot) ∧
    (∀ at', at' < mapHeaderBytes + (base + done) * 8 ∨ mapHeaderBytes + (base + rows) * 8 ≤ at' →
      (writeRanks ranks base rows fuel done file).word at' = file.word at') ∧
    ∀ extent ∈ (writeRanks ranks base rows fuel done file).extents, extent ∈ file.extents ∨
      mapHeaderBytes + (base + done) * 8 ≤ extent.1 ∧
        extent.1 + extent.2 ≤ mapHeaderBytes + (base + rows) * 8 := by
  induction fuel generalizing done file with
  | zero =>
    exact ⟨fun slot hge hlt => by omega, fun at' _ => rfl, fun extent hextent => .inl hextent⟩
  | succ fuel ih =>
    rw [writeRanks]
    by_cases hmore : done < rows
    · rw [if_pos hmore]
      dsimp only
      have htake : 0 < min (rows - done) ranksPerChunk ∧
          done + min (rows - done) ranksPerChunk ≤ rows := by
        simp only [ranksPerChunk, chunkBytes]
        omega
      generalize min (rows - done) ranksPerChunk = take at *
      obtain ⟨hslots, hstay, hextents⟩ := ih (done + take) (by omega)
        (file.writeAllAt (mapHeaderBytes + (base + done) * 8)
          ((List.range take).map fun index => ranks (done + index)))
      refine ⟨fun slot hge hlt => ?_, fun at' hat => ?_, fun extent hextent => ?_⟩
      · rcases Nat.lt_or_ge slot (done + take) with hfirst | hrest
        · rw [hstay _ (.inl (by omega))]
          have hword : mapHeaderBytes + (base + slot) * 8 = mapHeaderBytes + (base + done) * 8 +
              WordFile.wordBytes * (slot - done) := by
            simp only [WordFile.wordBytes]
            omega
          have hindex : slot - done < take := by omega
          rw [hword, WordFile.word_writeAllAt (by simpa using hindex),
            List.getD_eq_getElem _ _ (by simpa using hindex)]
          simp only [List.getElem_map, List.getElem_range]
          congr 1
          omega
        · exact hslots slot hrest hlt
      · rw [hstay at' (by omega), WordFile.word_writeAllAt_outside]
        simp only [List.length_map, List.length_range, WordFile.wordBytes]
        omega
      · obtain hold | hnew := hextents extent hextent
        · obtain hfile | hlast := List.mem_append.mp hold
          · exact .inl hfile
          · right
            rw [List.mem_singleton.mp hlast]
            simp only [List.length_map, List.length_range, WordFile.wordBytes]
            omega
        · right
          omega
    · rw [if_neg hmore]
      exact ⟨fun slot hge hlt => by omega, fun at' _ => rfl, fun extent hextent => .inl hextent⟩

/-- Between two steps of placing: the buckets before the current one are in the map, and the
slots hold what was read of the current one. -/
structure Placing (shape : Shape) (pushed : List (Nat × Nat)) (original : WordFile)
    (builder : Builder) (inverse : WordFile) : Prop where
  shape_eq : builder.toShape = shape
  regions : ∀ bucket < shape.buckets, builder.pairs.readPairs
    (shape.bucketStart bucket * pairBytes) (shape.bucketLen bucket) =
      bucketPairs shape pushed bucket
  kept : Kept shape builder
  bucket_le : builder.bucket ≤ shape.buckets
  current : builder.bucket < shape.buckets → ∃ count < shape.bucketLen builder.bucket,
    builder.read = count * pairBytes ∧ (0 < count →
      Placed (shape.bucketStart builder.bucket) (shape.bucketLen builder.bucket) builder.ranks
        ((bucketPairs shape pushed builder.bucket).take count))
  distinct : ∀ other < builder.bucket, ((bucketPairs shape pushed other).map Prod.fst).Nodup
  mapped : ∀ other < builder.bucket, ∀ pair ∈ bucketPairs shape pushed other,
    inverse.word (mapHeaderBytes + pair.1 * 8) = pair.2
  inside : ∀ extent ∈ inverse.extents, extent ∈ original.extents ∨
    mapHeaderBytes ≤ extent.1 ∧ extent.1 + extent.2 ≤ mapHeaderBytes + shape.records * 8

/-- How many pairs have been read. -/
def position (builder : Builder) : Nat :=
  min (builder.bucketStart builder.bucket) builder.records + builder.read / pairBytes

/-- The pairs of rows of the file with ranks of the file. -/
def InFile (shape : Shape) (pushed : List (Nat × Nat)) : Prop :=
  ∀ pair ∈ pushed, pair.1 < shape.records ∧ pair.2 < shape.records

theorem mem_bucketPairs (hshape : shape.Sound) (hfile : InFile shape pushed) {pair : Nat × Nat}
    (hpair : pair ∈ bucketPairs shape pushed bucket) :
    (shape.bucketStart bucket ≤ pair.1 ∧
      pair.1 < shape.bucketStart bucket + shape.bucketLen bucket) ∧ pair.2 ≠ emptySlot := by
  obtain ⟨hmem, hbucket⟩ := List.mem_filter.mp hpair
  obtain ⟨hrow, hrank⟩ := hfile pair hmem
  refine ⟨(Shape.div_eq_iff hshape hrow).mp (beq_iff_eq.mp hbucket), ?_⟩
  have hbound := hshape.bounded
  simp only [emptySlot, pairBytes] at *
  omega

/-- The slots once the next chunk of a bucket is placed. -/
theorem Placing.chunk (hshape : shape.Sound) (hfile : InFile shape pushed)
    {original inverse : WordFile} (h : Placing shape pushed original builder inverse)
    (hopen : builder.bucket < shape.buckets) {count chunk : Nat}
    (hcount : count + chunk ≤ shape.bucketLen builder.bucket)
    (hplaced : Placed (shape.bucketStart builder.bucket) (shape.bucketLen builder.bucket) ranks
      ((bucketPairs shape pushed builder.bucket).take count)) :
    let next := builder.pairs.readPairs
      (shape.bucketStart builder.bucket * pairBytes + count * pairBytes) chunk
    (Builder.placePairs (shape.bucketStart builder.bucket) (shape.bucketLen builder.bucket) next
        ranks = .error .invalidScratch ∧
      ¬ ((bucketPairs shape pushed builder.bucket).map Prod.fst).Nodup) ∨
    ∃ ranks', Builder.placePairs (shape.bucketStart builder.bucket)
        (shape.bucketLen builder.bucket) next ranks = .ok ranks' ∧
      Placed (shape.bucketStart builder.bucket) (shape.bucketLen builder.bucket) ranks'
        ((bucketPairs shape pushed builder.bucket).take (count + chunk)) := by
  intro next
  have hregion := h.regions builder.bucket hopen
  have hmore : (bucketPairs shape pushed builder.bucket).take count ++ next =
      (bucketPairs shape pushed builder.bucket).take (count + chunk) := by
    rw [← hregion, WordFile.take_readPairs (by omega), WordFile.take_readPairs hcount,
      WordFile.readPairs_add]
    simp only [next, pairBytes, WordFile.pairBytes, WordFile.wordBytes, Nat.mul_comm]
  have hin : ∀ pair ∈ (bucketPairs shape pushed builder.bucket).take count ++ next,
      pair ∈ bucketPairs shape pushed builder.bucket := by
    rw [hmore]
    exact fun pair hpair => List.mem_of_mem_take hpair
  obtain ⟨herror, htwice⟩ | hok := hplaced.placePairs next
    (fun pair hpair => (mem_bucketPairs hshape hfile (hin pair hpair)).1)
    (fun pair hpair => (mem_bucketPairs hshape hfile (hin pair hpair)).2)
  · refine .inl ⟨herror, fun hnodup => htwice ?_⟩
    rw [hmore, List.map_take]
    exact hnodup.sublist (List.take_sublist _ _)
  · rw [hmore] at hok
    exact .inr hok

/-- The slots of a bucket that has not been read yet. -/
theorem placed_empty (base len : Nat) (ranks : Nat → Nat) :
    Placed base len (fun slot => if slot < len then emptySlot else ranks slot) [] where
  distinct := List.nodup_nil
  here pair hpair := by cases hpair
  free slot hslot _ := if_pos hslot

/-- A bucket that is placed as a whole goes to the map. -/
theorem Placing.complete (hshape : shape.Sound) (hfile : InFile shape pushed)
    {original inverse : WordFile} (h : Placing shape pushed original builder inverse)
    (hopen : builder.bucket < shape.buckets)
    (hplaced : Placed (shape.bucketStart builder.bucket) (shape.bucketLen builder.bucket) ranks
      (bucketPairs shape pushed builder.bucket)) :
    Placing shape pushed original
      { builder with ranks := ranks, bucket := builder.bucket + 1, read := 0 }
      (writeRanks ranks (shape.bucketStart builder.bucket) (shape.bucketLen builder.bucket)
        (shape.bucketLen builder.bucket) 0 inverse) := by
  have hend := Shape.bucket_end_le hshape hopen
  obtain ⟨hslots, hstay, hextents⟩ := writeRanks_spec ranks
    (shape.bucketStart builder.bucket) (shape.bucketLen builder.bucket)
    (shape.bucketLen builder.bucket) 0 (by omega) inverse
  exact
    { shape_eq := h.shape_eq
      regions := h.regions
      kept := h.kept
      bucket_le := hopen
      current := fun hnext => ⟨0, Shape.bucketLen_pos hshape hnext, (Nat.zero_mul _).symm,
        fun hzero => absurd hzero (Nat.lt_irrefl _)⟩
      distinct := by
        intro other hother
        rcases Nat.lt_or_eq_of_le (Nat.le_of_lt_succ hother) with hlt | rfl
        · exact h.distinct other hlt
        · exact hplaced.distinct
      mapped := by
        intro other hother pair hpair
        obtain ⟨⟨hlow, hhigh⟩, -⟩ := mem_bucketPairs hshape hfile hpair
        rcases Nat.lt_or_eq_of_le (Nat.le_of_lt_succ hother) with hlt | rfl
        · have hbefore := Shape.bucket_end_le_start shape hlt
          rw [hstay _ (.inl (by omega))]
          exact h.mapped other hlt pair hpair
        · have hslot := hslots (pair.1 - shape.bucketStart builder.bucket) (by omega) (by omega)
          rw [Nat.add_sub_cancel' hlow, hplaced.here pair hpair] at hslot
          exact hslot
      inside := by
        intro extent hextent
        obtain hold | hnew := hextents extent hextent
        · exact h.inside extent hold
        · right
          omega }

/-- A step of placing gets further, unless a row occurs twice in the bucket. -/
theorem Placing.place (hshape : shape.Sound) (hfile : InFile shape pushed)
    {original inverse : WordFile} (h : Placing shape pushed original builder inverse)
    (hopen : builder.bucket < shape.buckets) (budget : Nat) :
    (builder.place inverse budget = (.error .invalidScratch, builder, inverse, budget) ∧
      ¬ ((bucketPairs shape pushed builder.bucket).map Prod.fst).Nodup) ∨
    ∃ builder' inverse', builder.place inverse budget =
        (.ok (decide (builder'.bucket = shape.buckets)), builder', inverse',
          budget - min (shape.bucketLen builder.bucket * pairBytes - builder.read) chunkBytes) ∧
      Placing shape pushed original builder' inverse' ∧ builder.position < builder'.position := by
  obtain rfl := h.shape_eq
  obtain ⟨count, hcount, hread, hcurrent⟩ := h.current hopen
  have hend := Shape.bucket_end_le hshape hopen
  let ranks := if builder.read = 0 then fun slot =>
      if slot < builder.bucketLen builder.bucket then emptySlot else builder.ranks slot
    else builder.ranks
  have hplaced : Placed (builder.bucketStart builder.bucket) (builder.bucketLen builder.bucket)
      ranks ((bucketPairs builder.toShape pushed builder.bucket).take count) := by
    rcases Nat.eq_zero_or_pos count with rfl | hpos
    · simp only [ranks]
      rw [if_pos (by rw [hread, Nat.zero_mul]), List.take_zero]
      exact placed_empty _ _ _
    · have hne : builder.read ≠ 0 := by
        rw [hread]
        exact Nat.ne_of_gt (Nat.mul_pos hpos (by decide))
      simp only [ranks]
      rw [if_neg hne]
      exact hcurrent hpos
  obtain ⟨chunk, hchunk, hpos, hfit⟩ : ∃ chunk,
      min (builder.bucketLen builder.bucket * pairBytes - builder.read) chunkBytes =
        chunk * pairBytes ∧ 0 < chunk ∧ count + chunk ≤ builder.bucketLen builder.bucket := by
    refine ⟨min (builder.bucketLen builder.bucket - count) (chunkBytes / pairBytes), ?_, ?_, ?_⟩
    all_goals simp only [hread, pairBytes, chunkBytes] at *
    all_goals omega
  have hdiv : chunk * pairBytes / pairBytes = chunk := Nat.mul_div_cancel _ (by decide)
  have hstart := Shape.bucketStart_lt hshape hopen
  have hhere : builder.position = builder.bucketStart builder.bucket + count := by
    rw [position, hread, Nat.mul_div_cancel _ (by decide), Nat.min_eq_left (Nat.le_of_lt hstart)]
  have hstep := h.chunk hshape hfile hopen hfit hplaced
  rw [← hread] at hstep
  unfold Builder.place
  rw [if_neg (Nat.ne_of_lt hopen)]
  dsimp only
  rw [hchunk, hdiv]
  obtain ⟨herror, htwice⟩ | ⟨ranks', hok, hnext⟩ := hstep
  · refine .inl ⟨?_, htwice⟩
    simp only [ranks] at herror
    rw [herror]
  · right
    simp only [ranks] at hok
    rw [hok]
    dsimp only
    by_cases hdone : builder.read + chunk * pairBytes =
        builder.bucketLen builder.bucket * pairBytes
    · have hall : count + chunk = builder.bucketLen builder.bucket := by
        rw [hread, ← Nat.add_mul] at hdone
        exact Nat.eq_of_mul_eq_mul_right (by decide) hdone
      have hlength : (bucketPairs builder.toShape pushed builder.bucket).length =
          builder.bucketLen builder.bucket := by
        rw [← h.regions builder.bucket hopen]
        exact WordFile.length_readPairs _
      rw [if_pos hdone]
      have htake : (bucketPairs builder.toShape pushed builder.bucket).take
          (builder.bucketLen builder.bucket) =
            bucketPairs builder.toShape pushed builder.bucket := by
        rw [← hlength, List.take_length]
      rw [hall, htake] at hnext
      refine ⟨_, _, rfl, h.complete hshape hfile hopen hnext, ?_⟩
      have hnextStart : builder.bucketStart (builder.bucket + 1) =
          builder.bucketStart builder.bucket + builder.bucketRows := Nat.succ_mul _ _
      have hlen : builder.bucketLen builder.bucket =
          min builder.bucketRows (builder.records - builder.bucketStart builder.bucket) := rfl
      rw [hhere]
      simp only [position]
      rw [hnextStart, Nat.zero_div]
      omega
    · rw [if_neg hdone]
      have hmore : count + chunk < builder.bucketLen builder.bucket := by
        refine Nat.lt_of_le_of_ne hfit fun heq => hdone ?_
        rw [hread, ← Nat.add_mul, heq]
      refine ⟨{ builder with ranks := ranks', read := builder.read + chunk * pairBytes }, inverse,
        rfl, ?_, ?_⟩
      · exact
          { h with
            shape_eq := rfl
            kept := h.kept
            current := fun _ => ⟨count + chunk, hmore, by rw [Nat.add_mul, ← hread],
              fun _ => hnext⟩ }
      · rw [hhere]
        simp only [position]
        rw [hread, ← Nat.add_mul, Nat.mul_div_cancel _ (by decide),
          Nat.min_eq_left (Nat.le_of_lt hstart)]
        omega

theorem Placing.position_lt (hshape : shape.Sound) {original inverse : WordFile}
    (h : Placing shape pushed original builder inverse) (hopen : builder.bucket < shape.buckets) :
    builder.position < shape.records := by
  obtain rfl := h.shape_eq
  obtain ⟨count, hcount, hread, -⟩ := h.current hopen
  have hend := Shape.bucket_end_le hshape hopen
  have hstart := Shape.bucketStart_lt hshape hopen
  rw [position, hread, Nat.mul_div_cancel _ (by decide), Nat.min_eq_left (Nat.le_of_lt hstart)]
  omega

/-- Enough steps of placing complete the map, unless a row occurs twice. -/
theorem Placing.placeAll (hshape : shape.Sound) (hfile : InFile shape pushed)
    {original inverse : WordFile} (budgets : Nat → Nat) (calls : Nat)
    (h : Placing shape pushed original builder inverse) :
    ∃ result builder' inverse', builder.placeAll budgets calls inverse =
        (result, builder', inverse') ∧
      Kept shape builder' ∧
      (∀ extent ∈ inverse'.extents, extent ∈ original.extents ∨
        mapHeaderBytes ≤ extent.1 ∧ extent.1 + extent.2 ≤ mapHeaderBytes + shape.records * 8) ∧
      (result = .error .invalidScratch ∧ (∃ bucket < shape.buckets,
          ¬ ((bucketPairs shape pushed bucket).map Prod.fst).Nodup) ∨
        result = .ok true ∧ Placing shape pushed original builder' inverse' ∧
          builder'.bucket = shape.buckets ∨
        result = .ok false ∧ (calls = 0 ∨ calls + builder.position ≤ shape.records)) := by
  induction calls generalizing builder inverse with
  | zero =>
    exact ⟨_, _, _, rfl, h.kept, h.inside, .inr (.inr ⟨rfl, .inl rfl⟩)⟩
  | succ calls ih =>
    rw [Builder.placeAll]
    rcases Nat.lt_or_eq_of_le h.bucket_le with hopen | hdone
    · obtain ⟨herror, htwice⟩ | ⟨builder', inverse', hok, hnext, hfurther⟩ :=
        h.place hshape hfile hopen (budgets calls)
      · rw [herror]
        exact ⟨_, _, _, rfl, h.kept, h.inside, .inl ⟨rfl, _, hopen, htwice⟩⟩
      · rw [hok]
        by_cases hlast : builder'.bucket = shape.buckets
        · rw [decide_eq_true hlast]
          exact ⟨_, _, _, rfl, hnext.kept, hnext.inside, .inr (.inl ⟨rfl, hnext, hlast⟩)⟩
        · rw [decide_eq_false hlast]
          obtain ⟨result, last, map, hrun, hkept, hinside, hresult⟩ := ih hnext
          refine ⟨result, last, map, hrun, hkept, hinside, ?_⟩
          rcases hresult with hbad | hgood | ⟨hfalse, hshort⟩
          · exact .inl hbad
          · exact .inr (.inl hgood)
          · have hroom := h.position_lt hshape hopen
            exact .inr (.inr ⟨hfalse, .inr (by omega)⟩)
    · have hcomplete : builder.place inverse (budgets calls) =
          (.ok true, builder, inverse, budgets calls) := by
        rw [Builder.place, h.shape_eq, if_pos hdone]
      rw [hcomplete]
      exact ⟨_, _, _, rfl, h.kept, h.inside, .inr (.inl ⟨rfl, h, hdone⟩)⟩

/-! ## Permutations -/

theorem bucketPairs_zipIdx (shape : Shape) (rows : List Nat) (bucket : Nat) :
    (bucketPairs shape rows.zipIdx bucket).map Prod.fst =
      rows.filter fun row => row / shape.bucketRows == bucket := by
  have hmap : rows.zipIdx.map Prod.fst = rows := List.zipIdx_map_fst 0 rows
  have hfilter := List.filter_map (f := Prod.fst) (p := fun row => row / shape.bucketRows == bucket)
    (l := rows.zipIdx)
  rw [hmap] at hfilter
  exact hfilter.symm

/-- As many rows of a permutation are in a bucket as it has. -/
theorem length_filter_perm (hshape : shape.Sound) {rows : List Nat}
    (hperm : rows.Perm (List.range shape.records)) (hbucket : bucket < shape.buckets) :
    (rows.filter fun row => row / shape.bucketRows == bucket).length =
      shape.bucketLen bucket := by
  have hend := Shape.bucket_end_le hshape hbucket
  have hsame : ((List.range shape.records).filter fun row => row / shape.bucketRows == bucket).Perm
      (List.range' (shape.bucketStart bucket) (shape.bucketLen bucket)) := by
    refine (List.perm_ext_iff_of_nodup (List.nodup_range.filter _) List.nodup_range').mpr ?_
    intro row
    rw [List.mem_filter, List.mem_range, List.mem_range'_1, beq_iff_eq]
    constructor
    · rintro ⟨hrow, hdiv⟩
      exact (Shape.div_eq_iff hshape hrow).mp hdiv
    · rintro ⟨hlow, hhigh⟩
      have hrow : row < shape.records := by omega
      exact ⟨hrow, (Shape.div_eq_iff hshape hrow).mpr ⟨hlow, hhigh⟩⟩
  have hlength := ((hperm.filter _).trans hsame).length_eq
  rw [List.length_range'] at hlength
  exact hlength

/-- A list of rows of the file, in every bucket without a repetition, is a permutation. -/
theorem perm_of_buckets (hshape : shape.Sound) {rows : List Nat}
    (hlength : rows.length = shape.records) (hrows : ∀ row ∈ rows, row < shape.records)
    (hbuckets : ∀ bucket < shape.buckets,
      (rows.filter fun row => row / shape.bucketRows == bucket).Nodup) :
    rows.Perm (List.range shape.records) := by
  have hnodup : rows.Nodup := by
    rw [List.nodup_iff_count_le_one]
    intro row
    by_cases hmem : row ∈ rows
    · have hcount := List.nodup_iff_count_le_one.mp
        (hbuckets _ (Shape.div_lt_buckets hshape (hrows row hmem))) row
      have hsame := List.count_filter (a := row) (l := rows)
        (p := fun other => other / shape.bucketRows == row / shape.bucketRows)
        (beq_self_eq_true _)
      rwa [hsame] at hcount
    · rw [List.count_eq_zero_of_not_mem hmem]
      exact Nat.zero_le 1
  refine (List.subperm_of_subset hnodup fun row hrow =>
    List.mem_range.mpr (hrows row hrow)).perm_of_length_le ?_
  rw [hlength, List.length_range]

theorem new_sound {records bucketRows bufferBytes : Nat} {builder : Builder}
    (h : Builder.new records bucketRows bufferBytes = .ok builder) :
    builder.Sound ∧ builder.records = records ∧ Collected builder.toShape builder [] := by
  unfold Builder.new at h
  split_ifs at h with hconfig hlarge
  rw [Except.ok.injEq] at h
  subst h
  simp only [not_or, Nat.not_lt, Decidable.not_not] at hconfig
  refine ⟨⟨Nat.pos_of_ne_zero hconfig.1, rfl, hconfig.2.1, hconfig.2.2, Nat.not_le.mp hlarge⟩,
    rfl, ?_⟩
  exact
    { shape_eq := rfl
      written_mod := fun bucket => Nat.zero_mod _
      written_le := fun bucket => Nat.zero_le _
      contents := fun bucket => by
        simp only [region, Nat.zero_div, bucketPairs]
        rfl
      inside := fun extent hextent => by cases hextent
      fresh := ⟨rfl, rfl⟩ }

theorem inFile_zipIdx {rows : List Nat} (hlength : rows.length = shape.records)
    (hrows : ∀ pair ∈ rows.zipIdx, pair.1 < shape.records) : InFile shape rows.zipIdx := by
  intro pair hpair
  refine ⟨hrows pair hpair, ?_⟩
  rw [← hlength]
  have hindex := List.snd_lt_of_mem_zipIdx hpair
  omega

/-- Where everything that the builder writes goes. -/
def WritesInside (shape : Shape) (builder : Builder) (original inverse : WordFile) : Prop :=
  Kept shape builder ∧ ∀ extent ∈ inverse.extents, extent ∈ original.extents ∨
    mapHeaderBytes ≤ extent.1 ∧ extent.1 + extent.2 ≤ mapHeaderBytes + shape.records * 8

theorem length_bucketPairs_zipIdx (shape : Shape) (rows : List Nat) (bucket : Nat) :
    (bucketPairs shape rows.zipIdx bucket).length =
      (rows.filter fun row => row / shape.bucketRows == bucket).length := by
  rw [← bucketPairs_zipIdx, List.length_map]

theorem admissible_of_perm (hshape : shape.Sound) {rows : List Nat}
    (hperm : rows.Perm (List.range shape.records)) : Admissible shape rows.zipIdx := by
  have hrow : ∀ row ∈ rows, row < shape.records := fun row hrow =>
    List.mem_range.mp (hperm.mem_iff.mp hrow)
  refine ⟨fun pair hpair => hrow _ (List.fst_mem_of_mem_zipIdx hpair), fun bucket => ?_⟩
  rw [length_bucketPairs_zipIdx]
  rcases Nat.lt_or_ge bucket shape.buckets with hlt | hge
  · exact Nat.le_of_eq (length_filter_perm hshape hperm hlt)
  · have hnone : (rows.filter fun row => row / shape.bucketRows == bucket) = [] := by
      refine List.filter_eq_nil_iff.mpr fun row hmem heq => ?_
      have hdiv := Shape.div_lt_buckets hshape (hrow row hmem)
      rw [beq_iff_eq] at heq
      omega
    rw [hnone]
    exact Nat.zero_le _

/-- Once all pairs are collected, placing starts with the first bucket. -/
theorem Collected.placing (hshape : shape.Sound) (h : Collected shape builder pushed)
    (hfull : ∀ bucket < shape.buckets, Full shape builder pushed bucket) (inverse : WordFile) :
    Placing shape pushed inverse builder inverse := by
  obtain ⟨hbucket, hread⟩ := h.fresh
  exact
    { shape_eq := h.shape_eq
      regions := fun bucket hlt => h.readPairs (hfull bucket hlt)
      kept := h.inside
      bucket_le := by
        rw [hbucket]
        exact Nat.zero_le _
      current := fun hopen => ⟨0, Shape.bucketLen_pos hshape hopen, by rw [hread, Nat.zero_mul],
        fun hzero => absurd hzero (Nat.lt_irrefl _)⟩
      distinct := fun other hother => by
        rw [hbucket] at hother
        exact absurd hother (Nat.not_lt_zero _)
      mapped := fun other hother => by
        rw [hbucket] at hother
        exact absurd hother (Nat.not_lt_zero _)
      inside := fun extent hextent => .inl hextent }

/-- The builder makes the map of a permutation and refuses all other rows. -/
theorem build_spec (hshape : builder.Sound) (h : Collected builder.toShape builder [])
    {rows : List Nat} (hlength : rows.length = builder.records) (budgets : Nat → Nat) (calls : Nat)
    (inverse : WordFile) :
    ∃ result builder' inverse', build rows budgets calls inverse builder =
        (result, builder', inverse') ∧
      WritesInside builder.toShape builder' inverse inverse' ∧
      (result = .error .invalidScratch ∧ ¬ rows.Perm (List.range rows.length) ∨
        result = .ok true ∧ rows.Perm (List.range rows.length) ∧
          (∀ pair ∈ rows.zipIdx, inverse'.word (mapHeaderBytes + pair.1 * 8) = pair.2) ∨
        result = .ok false ∧ calls ≤ rows.length) := by
  generalize hs : builder.toShape = shape at *
  rw [hlength]
  have hranks : ∀ pair ∈ rows.zipIdx, pair.2 < shape.records := by
    intro pair hpair
    have hindex := List.snd_lt_of_mem_zipIdx hpair
    omega
  unfold build
  obtain ⟨last, hpush, hkept, hbad⟩ | ⟨collected, hpush, hrows, hcollected⟩ :=
    h.pushAll hshape rows.zipIdx hranks
  · rw [hpush]
    rw [List.nil_append] at hbad
    exact ⟨_, _, _, rfl, ⟨hkept, fun extent => .inl⟩,
      .inl ⟨rfl, fun hperm => hbad (admissible_of_perm hshape hperm)⟩⟩
  rw [hpush, List.nil_append] at *
  have hfile := inFile_zipIdx hlength hrows
  dsimp only
  rw [finishCollecting, hcollected.shape_eq]
  obtain ⟨last, hfinish, hkept, bucket, hbucket, hshort⟩ | ⟨full, hfinish, hall, hfull⟩ :=
    hcollected.finishFrom shape.buckets 0 (Nat.zero_add _) (by simp)
  · rw [hfinish]
    refine ⟨_, _, _, rfl, ⟨hkept, fun extent => .inl⟩, .inl ⟨rfl, fun hperm => hshort ?_⟩⟩
    rw [length_bucketPairs_zipIdx]
    exact length_filter_perm hshape hperm hbucket
  rw [hfinish]
  dsimp only
  obtain ⟨result, last, map, hrun, hkept, hinside, hresult⟩ :=
    (hall.placing hshape hfull inverse).placeAll hshape hfile budgets calls
  refine ⟨result, last, map, hrun, ⟨hkept, hinside⟩, ?_⟩
  obtain ⟨herror, bucket, hbucket, htwice⟩ | ⟨hok, hplaced, hlast⟩ | ⟨hfalse, hcalls⟩ := hresult
  · refine .inl ⟨herror, fun hperm => htwice ?_⟩
    rw [bucketPairs_zipIdx]
    exact (hperm.nodup_iff.mpr List.nodup_range).filter _
  · refine .inr (.inl ⟨hok, ?_, ?_⟩)
    · refine perm_of_buckets hshape hlength ?_ fun bucket hbucket => ?_
      · intro row hrow
        obtain ⟨pair, hpair, rfl⟩ : ∃ pair ∈ rows.zipIdx, pair.1 = row := by
          rw [← List.zipIdx_map_fst 0 rows] at hrow
          exact List.mem_map.mp hrow
        exact hrows pair hpair
      · have hdistinct := hplaced.distinct bucket (by omega)
        rwa [bucketPairs_zipIdx] at hdistinct
    · intro pair hpair
      have hdiv := Shape.div_lt_buckets hshape (hrows pair hpair)
      exact hplaced.mapped (pair.1 / shape.bucketRows) (by omega) pair
        (List.mem_filter.mpr ⟨hpair, beq_self_eq_true _⟩)
  · exact .inr (.inr ⟨hfalse, by omega⟩)

theorem new_ok {records bucketRows bufferBytes : Nat} (hrows : 0 < bucketRows)
    (hbuffer : pairBytes ≤ bufferBytes) (hmod : bufferBytes % pairBytes = 0)
    (hbounded : records * pairBytes < u64Bound) :
    ∃ builder, Builder.new records bucketRows bufferBytes = .ok builder := by
  refine ⟨_, (if_neg ?_).trans (if_neg (Nat.not_le.mpr hbounded))⟩
  omega

/-- With buffers of whole pairs there is a builder. Given the rows in the order of their ranks, and
enough steps of any budgets, it makes the map if the rows are a permutation and fails if they are
not. Nothing is ever written outside the regions of the buckets and the map. -/
theorem inverse_map (rows : List Nat) (bucketRows bufferBytes : Nat) (budgets : Nat → Nat)
    (calls : Nat) (inverse : WordFile) :
    (0 < bucketRows → pairBytes ≤ bufferBytes → bufferBytes % pairBytes = 0 →
      rows.length * pairBytes < u64Bound →
        ∃ builder, Builder.new rows.length bucketRows bufferBytes = .ok builder) ∧
    ∀ builder, Builder.new rows.length bucketRows bufferBytes = .ok builder →
      let run := builder.build rows budgets calls inverse
      WritesInside builder.toShape run.2.1 inverse run.2.2 ∧ (rows.length < calls →
        (run.1 = .ok true ↔ rows.Perm (List.range rows.length)) ∧
        (run.1 = .ok true → ∀ row < rows.length,
          rows[run.2.2.word (mapHeaderBytes + row * 8)]? = some row) ∧
        (¬ rows.Perm (List.range rows.length) → run.1 = .error .invalidScratch)) := by
  refine ⟨new_ok, fun builder hnew => ?_⟩
  intro run
  obtain ⟨hshape, hrecords, hcollected⟩ := new_sound hnew
  obtain ⟨result, last, map, hrun, hinside, hresult⟩ :=
    build_spec hshape hcollected hrecords.symm budgets calls inverse
  have hvalue : run = (result, last, map) := hrun
  rw [hvalue]
  refine ⟨hinside, fun hcalls => ?_⟩
  obtain ⟨rfl, hbad⟩ | ⟨rfl, hperm, hmapped⟩ | ⟨-, hfew⟩ := hresult
  · exact ⟨⟨fun hok => (by cases hok), fun hperm => absurd hperm hbad⟩,
      fun hok => (by cases hok), fun _ => rfl⟩
  · refine ⟨⟨fun _ => hperm, fun _ => rfl⟩, fun _ row hrow => ?_, fun hbad => absurd hperm hbad⟩
    have hmem := hperm.mem_iff.mpr (List.mem_range.mpr hrow)
    obtain ⟨rank, hrank, rfl⟩ := List.getElem_of_mem hmem
    have hword := hmapped (rows[rank], rank) (List.mem_zipIdx_iff_getElem?.mpr
      (List.getElem?_eq_getElem hrank))
    rw [hword]
    exact List.getElem?_eq_getElem hrank
  · omega

/-- Three rows in two buckets, with buffers of one pair. -/
theorem inverse_map_three : ∃ builder, Builder.new 3 2 16 = .ok builder ∧
    (builder.build [2, 0, 1] (fun _ => 0) 4 ⟨fun _ => 0, []⟩).1 = .ok true := by
  obtain ⟨hbuilder, hmap⟩ := inverse_map [2, 0, 1] 2 16 (fun _ => 0) 4 ⟨fun _ => 0, []⟩
  obtain ⟨builder, hnew⟩ := hbuilder (by decide) (by decide) (by decide) (by decide)
  exact ⟨builder, hnew, ((hmap builder hnew).2 (by decide)).1.mpr (by decide)⟩

end Builder

end LeanRows.Sort.Inverse
