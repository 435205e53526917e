import LeanRows.Engine.Sorted
import LeanRows.Lib.ByteFile
import LeanRows.Sort.Finished

/-!
# The map files of a sort

What the maps of a finished sort hold, byte for byte, and what is read from them: the record of a
rank, and the rank of a row. The view of a sorted document asks for both.
-/

set_option autoImplicit false

namespace LeanRows.Sort

open ByteFile Inverse MergePass

/-! ## Reading and writing -/

/-- `LRSORT01`. -/
def magic : List Byte := [76, 82, 83, 79, 82, 84, 48, 49]

def mapHeader (count size width : Nat) : List Byte :=
  magic ++ leBytes 8 count ++ leBytes 8 size ++ leBytes 8 width

/-- The bytes that are appended to the order for a record. -/
def orderEntry (d : Descriptor) : List Byte :=
  leBytes 8 d.row ++ leBytes 8 d.start ++ leBytes 8 d.stop

/-- The contents of the two map files, and what the order of a sort was made for. -/
structure MapFiles where
  order : List Byte
  inverse : List Byte
  count : Nat
  sourceSize : Nat

namespace MapFiles

def readExactAt (file : List Byte) (offset len : Nat) : Except SortError (List Byte) :=
  if offset + len ≤ file.length then .ok (readAt file offset len) else .error .invalidScratch

def validate (file : List Byte) (width : Nat) (maps : MapFiles) : Except SortError Unit :=
  match readExactAt file 0 mapHeaderBytes with
  | .error e => .error e
  | .ok header =>
    if header ≠ mapHeader maps.count maps.sourceSize width ∨ u64Bound ≤ maps.count * width ∨
        file.length ≠ mapHeaderBytes + maps.count * width then .error .invalidScratch
    else .ok ()

def recordAt (rank : Nat) (maps : MapFiles) : Except SortError SortedRecord :=
  match maps.validate maps.order orderBytes with
  | .error e => .error e
  | .ok _ =>
    if maps.count ≤ rank then .error .invalidScratch
    else
      match readExactAt maps.order (mapHeaderBytes + rank * orderBytes) orderBytes with
      | .error e => .error e
      | .ok bytes =>
        let row := leNat (readAt bytes 0 8)
        let start := leNat (readAt bytes 8 8)
        let stop := leNat (readAt bytes 16 8)
        if maps.count ≤ row ∨ maps.sourceSize < stop then .error .invalidScratch
        else if h : start ≤ stop then .ok ⟨row, start, stop, h⟩
        else .error .invalidScratch

def rankOf (row : Nat) (maps : MapFiles) : Except SortError Nat :=
  match maps.validate maps.inverse 8 with
  | .error e => .error e
  | .ok _ =>
    if maps.count ≤ row then .error .invalidScratch
    else
      match readExactAt maps.inverse (mapHeaderBytes + row * 8) 8 with
      | .error e => .error e
      | .ok bytes => if maps.count ≤ leNat bytes then .error .invalidScratch else .ok (leNat bytes)

/-- The files of a finished sort: the records are appended to the order one after the other, and
the words of the inverse are where its builder has written them. -/
def ofSort (sourceSize : Nat) (file : List Descriptor) (inverse : WordFile) : MapFiles where
  order := mapHeader file.length sourceSize orderBytes ++ file.flatMap orderEntry
  inverse := mapHeader file.length sourceSize 8 ++
    (List.range file.length).flatMap fun row => leBytes 8 (inverse.word (mapHeaderBytes + row * 8))
  count := file.length
  sourceSize := sourceSize

/-- What the engine asks. -/
def answers {W : Type} (maps : MapFiles) : SortedOrder W where
  len := maps.count
  recordAt rank w := (maps.recordAt rank, w)
  rankOf row w := (maps.rankOf row, w)

end MapFiles

/-! ## Entries of a file -/

section Entries
variable {α : Type} {width : Nat} {entry : α → List Byte}

theorem length_entries (hwidth : ∀ a, (entry a).length = width) (items : List α) :
    (items.flatMap entry).length = items.length * width := by
  induction items with
  | nil => rw [List.flatMap_nil, List.length_nil, List.length_nil, Nat.zero_mul]
  | cons a items ih =>
    rw [List.flatMap_cons, List.length_append, ih, hwidth, List.length_cons, Nat.succ_mul,
      Nat.add_comm]

/-- An entry is read where those before it end. -/
theorem readAt_entries (hwidth : ∀ a, (entry a).length = width) {items : List α} {index : Nat}
    {a : α} (h : items[index]? = some a) :
    readAt (items.flatMap entry) (index * width) width = entry a := by
  obtain ⟨hindex, rfl⟩ := List.getElem?_eq_some_iff.mp h
  have hsplit : items = items.take index ++ items[index] :: items.drop (index + 1) := by
    rw [List.cons_getElem_drop_succ, List.take_append_drop]
  have hfront : ((items.take index).flatMap entry).length = index * width := by
    rw [length_entries hwidth, List.length_take, Nat.min_eq_left (Nat.le_of_lt hindex)]
  have hall : items.flatMap entry = (items.take index).flatMap entry ++
      (entry items[index] ++ (items.drop (index + 1)).flatMap entry) := by
    conv_lhs => rw [hsplit]
    rw [List.flatMap_append, List.flatMap_cons]
  rw [hall, readAt, List.drop_left' hfront, List.take_left' (hwidth _)]

end Entries

theorem length_mapHeader (count size width : Nat) :
    (mapHeader count size width).length = mapHeaderBytes := by
  simp only [mapHeader, List.length_append, leBytes_length]
  rfl

/-- Behind a header, what is read is read in what follows it. -/
theorem readAt_behind {header file : List Byte} (h : header.length = mapHeaderBytes)
    (offset len : Nat) :
    readAt (header ++ file) (mapHeaderBytes + offset) len = readAt file offset len := by
  rw [readAt, readAt, ← List.drop_drop, List.drop_left' h]

/-! ## What is read back -/

namespace MapFiles

/-- There is one error that a map gives. -/
theorem validate_error {maps : MapFiles} {file : List Byte} {width : Nat} {e : SortError}
    (h : maps.validate file width = .error e) : e = .invalidScratch := by
  unfold validate readExactAt at h
  split_ifs at h
  · dsimp only at h
    split_ifs at h
    cases h
    rfl
  · cases h
    rfl

theorem validate_ok {maps : MapFiles} {file entries : List Byte} {width : Nat}
    (hfile : file = mapHeader maps.count maps.sourceSize width ++ entries)
    (hentries : entries.length = maps.count * width) (hbound : maps.count * width < u64Bound) :
    maps.validate file width = .ok () := by
  have hheader := length_mapHeader maps.count maps.sourceSize width
  have hlength : file.length = mapHeaderBytes + maps.count * width := by
    rw [hfile, List.length_append, hheader, hentries]
  have hread : readExactAt file 0 mapHeaderBytes =
      .ok (mapHeader maps.count maps.sourceSize width) := by
    rw [readExactAt, if_pos (by omega), hfile, readAt, List.drop_zero, List.take_left' hheader]
  rw [validate, hread]
  dsimp only
  rw [if_neg]
  simp only [ne_eq, not_true_eq_false, false_or, not_or, Nat.not_le]
  exact ⟨hbound, not_not.mpr hlength⟩

theorem length_orderEntry (d : Descriptor) : (orderEntry d).length = orderBytes := by
  simp only [orderEntry, List.length_append, leBytes_length]
  rfl

/-- The three numbers of an entry. -/
theorem readAt_orderEntry {d : Descriptor} (hrow : d.row < u64Bound) (hstart : d.start < u64Bound)
    (hstop : d.stop < u64Bound) : leNat (readAt (orderEntry d) 0 8) = d.row ∧
      leNat (readAt (orderEntry d) 8 8) = d.start ∧
        leNat (readAt (orderEntry d) 16 8) = d.stop := by
  have hword : ∀ n, n < u64Bound → leNat (leBytes 8 n) = n := fun n => leNat_leBytes 8 n
  have hfront : (leBytes 8 d.row ++ leBytes 8 d.start).length = 16 := by
    rw [List.length_append, leBytes_length, leBytes_length]
  refine ⟨?_, ?_, ?_⟩
  · rw [orderEntry, List.append_assoc, readAt, List.drop_zero,
      List.take_left' (leBytes_length 8 d.row), hword _ hrow]
  · rw [orderEntry, List.append_assoc, readAt, List.drop_left' (leBytes_length 8 d.row),
      List.take_left' (leBytes_length 8 d.start), hword _ hstart]
  · rw [orderEntry, readAt, List.drop_left' hfront,
      List.take_of_length_le (by rw [leBytes_length]), hword _ hstop]

variable {sourceSize : Nat} {file : List Descriptor} {inverse : WordFile}

/-- The record of a rank is read as it was appended. -/
theorem recordAt_ofSort (hbound : file.length * orderBytes < u64Bound)
    (hsize : sourceSize < u64Bound) {rank : Nat} {d : Descriptor} (hrank : file[rank]? = some d)
    (hrow : d.row < file.length) (hspan : d.start ≤ d.stop) (hstop : d.stop ≤ sourceSize) :
    (ofSort sourceSize file inverse).recordAt rank = .ok ⟨d.row, d.start, d.stop, hspan⟩ := by
  obtain ⟨hlt, -⟩ := List.getElem?_eq_some_iff.mp hrank
  have hentries := length_entries length_orderEntry file
  have hheader := length_mapHeader file.length sourceSize orderBytes
  have hrows : file.length ≤ file.length * orderBytes := Nat.le_mul_of_pos_right _ (by decide)
  have hlast : rank * orderBytes + orderBytes ≤ file.length * orderBytes := by
    rw [← Nat.succ_mul]
    exact Nat.mul_le_mul_right _ hlt
  have hread : readExactAt (ofSort sourceSize file inverse).order
      (mapHeaderBytes + rank * orderBytes) orderBytes = .ok (orderEntry d) := by
    rw [readExactAt, if_pos]
    · rw [ofSort, readAt_behind hheader, readAt_entries length_orderEntry hrank]
    · rw [ofSort, List.length_append, hheader, hentries]
      omega
  have hvalid : (ofSort sourceSize file inverse).validate (ofSort sourceSize file inverse).order
      orderBytes = .ok () := validate_ok rfl hentries hbound
  have hcount : ¬ (ofSort sourceSize file inverse).count ≤ rank := Nat.not_le.mpr hlt
  obtain ⟨hfirst, hsecond, hthird⟩ :=
    readAt_orderEntry (d := d) (by omega) (by omega) (by omega)
  have hinside : ¬ ((ofSort sourceSize file inverse).count ≤ leNat (readAt (orderEntry d) 0 8) ∨
      (ofSort sourceSize file inverse).sourceSize < leNat (readAt (orderEntry d) 16 8)) := by
    rw [hfirst, hthird]
    exact not_or.mpr ⟨Nat.not_le.mpr hrow, Nat.not_lt.mpr hstop⟩
  have horder : leNat (readAt (orderEntry d) 8 8) ≤ leNat (readAt (orderEntry d) 16 8) := by
    rw [hsecond, hthird]
    exact hspan
  unfold recordAt
  rw [hvalid]
  dsimp only
  rw [if_neg hcount, hread]
  dsimp only
  rw [if_neg hinside, dif_pos horder, Except.ok.injEq, SortedRecord.mk.injEq]
  exact ⟨hfirst, RecordSpan.ext hsecond hthird⟩

/-- The rank of a row is the word that the builder has left for it. -/
theorem rankOf_ofSort (hbound : file.length * 8 < u64Bound) {row : Nat} (hrow : row < file.length)
    (hword : inverse.word (mapHeaderBytes + row * 8) < file.length) :
    (ofSort sourceSize file inverse).rankOf row =
      .ok (inverse.word (mapHeaderBytes + row * 8)) := by
  have hwidth : ∀ row, (leBytes 8 (inverse.word (mapHeaderBytes + row * 8))).length = 8 :=
    fun row => leBytes_length 8 _
  have hentries := length_entries hwidth (List.range file.length)
  rw [List.length_range] at hentries
  have hheader := length_mapHeader file.length sourceSize 8
  have hindex : (List.range file.length)[row]? = some row := by
    rw [List.getElem?_range hrow]
  have hread : readExactAt (ofSort sourceSize file inverse).inverse (mapHeaderBytes + row * 8) 8 =
      .ok (leBytes 8 (inverse.word (mapHeaderBytes + row * 8))) := by
    rw [readExactAt, if_pos]
    · rw [ofSort, readAt_behind hheader, readAt_entries hwidth hindex]
    · rw [ofSort, List.length_append, hheader, hentries]
      omega
  have hvalid : (ofSort sourceSize file inverse).validate (ofSort sourceSize file inverse).inverse
      8 = .ok () := validate_ok rfl hentries hbound
  have hcount : ¬ (ofSort sourceSize file inverse).count ≤ row := Nat.not_le.mpr hrow
  have hvalue : leNat (leBytes 8 (inverse.word (mapHeaderBytes + row * 8))) =
      inverse.word (mapHeaderBytes + row * 8) :=
    leNat_leBytes 8 _ (Nat.lt_trans hword (show file.length < 256 ^ 8 by
      have hu64 : u64Bound = 256 ^ 8 := by decide
      omega))
  have hinside : ¬ (ofSort sourceSize file inverse).count ≤
      leNat (leBytes 8 (inverse.word (mapHeaderBytes + row * 8))) := by
    rw [hvalue]
    exact Nat.not_le.mpr hword
  unfold rankOf
  rw [hvalid]
  dsimp only
  rw [if_neg hcount, hread]
  dsimp only
  rw [if_neg hinside, hvalue]

/-- There is nothing behind the last rank. -/
theorem recordAt_behind {maps : MapFiles} {rank : Nat} (h : maps.count ≤ rank) :
    maps.recordAt rank = .error .invalidScratch := by
  unfold recordAt
  cases hvalid : maps.validate maps.order orderBytes with
  | error e =>
    dsimp only
    rw [validate_error hvalid]
  | ok _ =>
    dsimp only
    rw [if_pos h]

end MapFiles

/-! ## The spans of the records -/

/-- The machine leaves the span of the record as it is. -/
theorem describe_span {mode : SortMode} {quote : Byte} {d d' : Descriptor} {key : List Byte}
    (h : describe mode (.new d quote) key = .ok d') : d'.start = d.start ∧ d'.stop = d.stop := by
  obtain ⟨-, hdescriptor, hnumber⟩ := foldl_pushByte mode key (.new d quote)
  unfold describe at h
  generalize List.foldl (fun b byte => Builder.pushByte b mode byte) _ key = b
    at h hdescriptor hnumber
  change b.descriptor = { d with prefixBytes := b.descriptor.prefixBytes, len := b.descriptor.len }
    at hdescriptor
  unfold Builder.atEnd at h
  split at h
  · rw [finish_outside h, hdescriptor]
    exact ⟨rfl, rfl⟩
  · cases h
    rw [hdescriptor]
    exact ⟨rfl, rfl⟩

theorem Extracted.span {W : Type} {source : PositionedRead W} {format : ViewportFormat}
    {document : List Byte} {request : SortRequest} {row : Nat} {d : Descriptor}
    (hsource : source.Reads document) (h : Extracted source format document request row d) :
    ∃ span, (records format document)[row]? = some span ∧ d.start = span.start ∧
      d.stop = span.stop := by
  obtain ⟨span, hspan, w, locating, building, hrun⟩ := h
  have hstop := record_stop_le (List.mem_of_getElem? hspan)
  obtain ⟨located, hlocated, hdescribe⟩ :=
    extractKey_ensures hsource hstop request.mode locating building w _ hrun d rfl
  obtain ⟨hstart, hend⟩ := describe_span hdescribe
  refine ⟨span, hspan, ?_, ?_⟩
  · rw [hstart, hlocated.blank]
  · rw [hend, hlocated.blank]

/-! ## The view -/

/-- The answers about rows in that order: the record of a rank with its span, and the rank of a
row. -/
structure MapFiles.Answers (format : ViewportFormat) (document : List Byte) (rows : List Nat)
    (maps : MapFiles) : Prop where
  count : maps.count = rows.length
  recordAt : ∀ rank row, rows[rank]? = some row → ∃ span,
    (records format document)[row]? = some span ∧ maps.recordAt rank = .ok ⟨row, span⟩
  rankOf : ∀ rank row, rows[rank]? = some row → maps.rankOf row = .ok rank
  behind : ∀ rank, rows.length ≤ rank → maps.recordAt rank = .error .invalidScratch

section View
variable {W : Type} {source : PositionedRead W} {format : ViewportFormat} {document : List Byte}
  {request : SortRequest} {rows : List Nat} {maps : MapFiles}

/-- The maps of a finished sort answer for its rows. -/
theorem answers_ofSort (hsource : source.Reads document) (hsize : document.length < u64Bound)
    {file : List (Extraction source format document request)}
    (hperm : (rowsOf file).Perm (List.range (rowsOf file).length))
    (hbound : file.length * orderBytes < u64Bound) {inverse : WordFile}
    (hinverse : ∀ rank row, (rowsOf file)[rank]? = some row →
      inverse.word (mapHeaderBytes + row * 8) = rank) :
    (MapFiles.ofSort document.length (file.map Extraction.descriptor) inverse).Answers format
      document (rowsOf file) := by
  have hcount : (rowsOf file).length = file.length := List.length_map _
  have hlength : (file.map Extraction.descriptor).length = file.length := List.length_map _
  have hwords : file.length * 8 ≤ file.length * orderBytes := Nat.mul_le_mul_left _ (by decide)
  constructor
  case count => exact hlength.trans hcount.symm
  case recordAt =>
    intro rank row hrow
    obtain ⟨record, hrecord, rfl⟩ := List.getElem?_map ▸ hrow |> Option.map_eq_some_iff.mp
    obtain ⟨span, hspan, hstart, hstop⟩ := record.extracted.span hsource
    have hget : (file.map Extraction.descriptor)[rank]? = some record.descriptor := by
      rw [List.getElem?_map, hrecord]
      rfl
    have hrowLt : record.descriptor.row < (file.map Extraction.descriptor).length := by
      rw [hlength, ← hcount]
      exact List.mem_range.mp (hperm.mem_iff.mp (List.mem_of_getElem? hrow))
    have hle := record_stop_le (List.mem_of_getElem? hspan)
    have horder := span.start_le_stop
    refine ⟨span, by rw [record.row_eq hsource]; exact hspan, ?_⟩
    rw [MapFiles.recordAt_ofSort (by rwa [hlength]) hsize hget hrowLt (by omega) (by omega),
      Except.ok.injEq, SortedRecord.mk.injEq]
    exact ⟨rfl, RecordSpan.ext hstart hstop⟩
  case rankOf =>
    intro rank row hrow
    have hword := hinverse rank row hrow
    obtain ⟨hrank, -⟩ := List.getElem?_eq_some_iff.mp hrow
    have hrowLt := List.mem_range.mp (hperm.mem_iff.mp (List.mem_of_getElem? hrow))
    rw [MapFiles.rankOf_ofSort (by omega) (by omega) (by omega), hword]
  case behind =>
    intro rank hrank
    exact MapFiles.recordAt_behind (hlength.trans_le (hcount ▸ hrank))

/-- The engine is answered with the records of the rows. -/
theorem MapFiles.Answers.lists {V : Type} (h : maps.Answers format document rows) :
    ∃ sorted : List SortedRecord, sorted.length = rows.length ∧
      (maps.answers : SortedOrder V).Lists sorted ∧
      ∀ (rank : Nat) record, sorted[rank]? = some record →
        rows[rank]? = some record.sourceRow ∧
          (records format document)[record.sourceRow]? = some record.span := by
  let entry : Nat → SortedRecord := fun row =>
    ⟨row, ((records format document)[row]?).getD ⟨0, 0, Nat.le_refl 0⟩⟩
  have hentry : ∀ (rank row : Nat), rows[rank]? = some row →
      maps.recordAt rank = .ok (entry row) ∧
        (records format document)[row]? = some (entry row).span := by
    intro rank row hrow
    obtain ⟨span, hspan, hanswer⟩ := h.recordAt rank row hrow
    have hsame : (entry row).span = span := by
      change ((records format document)[row]?).getD _ = span
      rw [hspan, Option.getD_some]
    rw [hanswer, hsame, Except.ok.injEq, SortedRecord.mk.injEq]
    exact ⟨⟨rfl, hsame.symm⟩, hspan⟩
  refine ⟨rows.map entry, List.length_map _, ⟨?_, ?_⟩, ?_⟩
  · rw [List.length_map]
    exact h.count
  · intro rank w record hrecord
    have hread : maps.recordAt rank = .ok record := hrecord
    cases hrow : rows[rank]? with
    | none =>
      rw [h.behind rank (List.getElem?_eq_none_iff.mp hrow)] at hread
      cases hread
    | some row =>
      rw [(hentry rank row hrow).1, Except.ok.injEq] at hread
      rw [List.getElem?_map, hrow, ← hread]
      rfl
  · intro rank record hrecord
    rw [List.getElem?_map] at hrecord
    obtain ⟨row, hrow, rfl⟩ := Option.map_eq_some_iff.mp hrecord
    exact ⟨hrow, (hentry rank row hrow).2⟩

end View

open DocumentEngine Call

/-- From the document to the view: whatever the schedules, the budgets, the capacity of a batch,
the fan-in, the buckets and the comparisons that were suspended, the maps of a finished sort
answer for all rows in the order of their keys, and a page of the sorted view that is shown at all
shows the records of these rows, each at its rank. -/
theorem sorted_view {W V X : Type} {source : PositionedRead W} {format : DocumentFormat}
    {document : List Byte} {request : SortRequest} {scan : ScanSession format.viewportFormat}
    {engine : DocumentEngine V X}
    (hsource : source.Reads document) (hsize : document.length < u64Bound)
    (hbound : (records format.viewportFormat document).length * orderBytes < u64Bound)
    (capacity mergeFanIn : Nat)
    (extractions alternate : List (Extraction source format.viewportFormat document request))
    (hrows : extractions.map Extraction.row =
      List.range (records format.viewportFormat document).length)
    (hcapacity : 0 < capacity) (hroom : alternate.length = capacity) (hfan : 2 ≤ mergeFanIn)
    (s : Batching (Extraction source format.viewportFormat document request))
    (hs : Batching.Reaches Extraction.order (.new capacity extractions alternate) s)
    (hphase : s.phase = .merging)
    (p : Pass (Extraction source format.viewportFormat document request))
    (hp : Pass.Reaches Extraction.order (Pass.start mergeFanIn s.capacity s.runFile) p)
    (hdone : p.merging = false) (bucketRows bufferBytes : Nat) (builder : Inverse.Builder)
    (hnew : Inverse.Builder.new (records format.viewportFormat document).length bucketRows
      bufferBytes = .ok builder)
    (budgets : Nat → Nat) (calls : Nat) (inverse : WordFile)
    (hcalls : (records format.viewportFormat document).length < calls)
    (hengine : engine.file.handle.Reads document) (hcontent : engine.content = .text format scan)
    (encode : PreviewEncoder) (firstRow : Nat) (polls : Nat → StepPolls) :
    let rows := rowsOf p.runFile
    let maps := MapFiles.ofSort document.length (p.runFile.map Extraction.descriptor)
      (builder.build rows budgets calls inverse).2.2
    Shows format.viewportFormat document request rows ∧
    maps.Answers format.viewportFormat document rows ∧
    ∀ w shown, (snapshotOrdered encode maps.answers firstRow polls (engine, w)).1 = .ok shown →
      shown.rows.length = min (rows.length - firstRow) maxViewportRows ∧
      ∀ i < shown.rows.length, ∃ row span built, rows[firstRow + i]? = some row ∧
        (records format.viewportFormat document)[row]? = some span ∧
        buildCachedRow encode (sourcePreview document row span) format projectionLimits =
          .ok built ∧
        shown.rows[i]? = some { built with displayRank := firstRow + i } := by
  intro rows maps
  have hle : (records format.viewportFormat document).length ≤
      (records format.viewportFormat document).length * orderBytes :=
    Nat.le_mul_of_pos_right _ (by decide)
  obtain ⟨hshows, hinverts⟩ := ((document_sorts hsource capacity mergeFanIn extractions alternate
    hrows hcapacity hroom hfan (by omega) s hs).2 hphase p hp).2 hdone
  have hlength : rows.length = (records format.viewportFormat document).length := by
    rw [hshows.perm.length_eq, List.length_range]
  have hfile : p.runFile.length = rows.length := (List.length_map _).symm
  have hbuilt := hinverts bucketRows bufferBytes builder (by rw [hlength]; exact hnew) budgets
    calls inverse (by rwa [hlength])
  have hanswers : maps.Answers format.viewportFormat document rows := by
    refine answers_ofSort hsource hsize ?_ (by rwa [hfile, hlength]) fun rank row hrow => ?_
    · rw [show (rowsOf p.runFile).length = _ from hlength]
      exact hshows.perm
    · exact ((hbuilt.2 rank row).mp hrow).2
  refine ⟨hshows, hanswers, fun w shown hshown => ?_⟩
  obtain ⟨sorted, hcount, hlists, hrecords⟩ := hanswers.lists (V := V)
  obtain ⟨hpage, hentries⟩ :=
    (snapshotOrdered_gives hengine hcontent hlists firstRow polls).value hshown
  refine ⟨by rw [hpage, hcount], fun i hi => ?_⟩
  obtain ⟨record, built, hrecord, hbuilt, hrow⟩ := hentries i hi
  obtain ⟨hsource, hspan⟩ := hrecords _ record hrecord
  exact ⟨record.sourceRow, record.span, built, hsource, hspan, hbuilt, hrow⟩

/-! ### The two lines -/

/-- A builder with one bucket. -/
def twoLinesBuilder : Inverse.Builder :=
  (Inverse.Builder.new 2 2 16).toOption.getD
    ⟨⟨0, 0, 0, 0⟩, ⟨fun _ => 0, []⟩, fun _ => [], fun _ => 0, fun _ => 0, 0, 0⟩

def twoLinesMaps : MapFiles :=
  .ofSort 4 (twoLinesPasses.runFile.map Extraction.descriptor)
    (twoLinesBuilder.build (rowsOf twoLinesPasses.runFile) (fun _ => 0) 3 ⟨fun _ => 0, []⟩).2.2

theorem sorted_view_twoLines : ∃ shown,
    (snapshotOrdered plainPreview twoLinesMaps.answers 0 (fun _ => ⟨false, fun _ => false⟩)
      (openedTwoLines, 0)).1 = .ok shown ∧
    ∀ i < shown.rows.length, ∃ row span built,
      (rowsOf twoLinesPasses.runFile)[0 + i]? = some row ∧
      (records .lines [97, 10, 98, 10])[row]? = some span ∧
      buildCachedRow plainPreview (sourcePreview [97, 10, 98, 10] row span) .log
        projectionLimits = .ok built ∧
      shown.rows[i]? = some { built with displayRank := 0 + i } := by
  obtain ⟨shown, hshown⟩ : ∃ shown, (snapshotOrdered plainPreview twoLinesMaps.answers 0
      (fun _ => ⟨false, fun _ => false⟩) (openedTwoLines, 0)).1 = .ok shown := by
    have hok : (snapshotOrdered plainPreview twoLinesMaps.answers 0
        (fun _ => ⟨false, fun _ => false⟩) (openedTwoLines, 0)).1.isOk = true := by
      decide +kernel
    revert hok
    cases (snapshotOrdered plainPreview twoLinesMaps.answers 0
        (fun _ => ⟨false, fun _ => false⟩) (openedTwoLines, 0)).1 with
    | error e => exact fun hok => by cases hok
    | ok shown => exact fun _ => ⟨shown, rfl⟩
  obtain ⟨-, -, hview⟩ := @sorted_view Unit Nat Empty twoLines .log [97, 10, 98, 10]
    ⟨0, .text, .descending⟩ twoLineSession openedTwoLines
    (PositionedRead.ofBytes_steady [97, 10, 98, 10] (by decide)).toReads
    (by decide) (by decide +kernel) 1 2 twoLinesExtractions (twoLinesExtractions.take 1)
    twoLinesExtractions_rows (by decide) (by decide +kernel) (by decide) twoLinesBatches
    (Batching.reaches_batches 20 .start) (by decide +kernel) twoLinesPasses
    (Batching.reaches_passes 2 20 twoLinesBatches) (by decide +kernel) 2 16 twoLinesBuilder rfl
    (fun _ => 0) 3 ⟨fun _ => 0, []⟩ (by decide +kernel) twoLineFile_steady.toReads rfl plainPreview
    0 (fun _ => ⟨false, fun _ => false⟩)
  exact ⟨shown, hshown, (hview 0 shown hshown).2⟩

example : twoLinesMaps.recordAt 0 = .ok ⟨1, 2, 3, by decide⟩ ∧ twoLinesMaps.rankOf 0 = .ok 1 := by
  decide +kernel

end LeanRows.Sort
