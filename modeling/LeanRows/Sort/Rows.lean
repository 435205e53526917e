import LeanRows.Sort.Compare

/-!
# The order of rows

The rows of a document under a request: each has the key its record holds in the column,
the descriptors built for two rows are compared to the order of these keys, and that order
is strict and total.
-/

namespace LeanRows.Sort

set_option autoImplicit false

/-- The key of a row of the reference segmentation. -/
def rowKey (format : ViewportFormat) (document : List Byte) (column row : Nat) : List Byte :=
  keyOf format column
    ((((records format document)[row]?).map fun span => span.bytesOf document).getD [])

/-- The order of two rows, from their whole keys. -/
noncomputable def rowOrder (format : ViewportFormat) (document : List Byte)
    (request : SortRequest) (r s : Nat) : Ordering :=
  (sortKey request.mode r (rowKey format document request.column r)).order request.direction
    (sortKey request.mode s (rowKey format document request.column s))

section Rows
variable {W : Type} {source : PositionedRead W} {format : ViewportFormat} {document : List Byte}
  {request : SortRequest} {r s : Nat} {a b d : Descriptor}

/-- A descriptor that the key machine built for a row, on some schedule in some world. -/
def Extracted (source : PositionedRead W) (format : ViewportFormat) (document : List Byte)
    (request : SortRequest) (row : Nat) (d : Descriptor) : Prop :=
  ∃ span, (records format document)[row]? = some span ∧ ∃ w locating building,
    (extractKey source format request.mode row span request.column locating building w).1 =
      .ok (some d)

theorem Extracted.describes (hsource : source.Reads document)
    (h : Extracted source format document request r d) :
    d.Describes document (quoteByte format) request.mode r
      (rowKey format document request.column r) := by
  obtain ⟨span, hspan, w, locating, building, hrun⟩ := h
  have hstop := record_stop_le (List.mem_of_getElem? hspan)
  obtain ⟨located, hlocated, hdescribe⟩ :=
    extractKey_ensures hsource hstop request.mode locating building w _ hrun d rfl
  have hkey : rowKey format document request.column r =
      keyOf format request.column (span.bytesOf document) := by
    rw [rowKey, hspan]
    rfl
  rw [hkey]
  exact describe_describes hlocated hdescribe

/-- In text mode every row gets its descriptor. -/
theorem exists_extracted {fingerprint : SourceFingerprint}
    (hsource : source.Steady document fingerprint) (w : W) (hmode : request.mode = .text)
    (hrow : r < (records format document).length) :
    ∃ d, Extracted source format document request r d := by
  obtain ⟨span, hspan⟩ : ∃ span, (records format document)[r]? = some span :=
    ⟨_, List.getElem?_eq_getElem hrow⟩
  have hstop := record_stop_le (List.mem_of_getElem? hspan)
  have hpos : ∀ budget ∈ List.replicate (span.len + 1) 1, 0 < budget := by simp
  have henough : span.len < (List.replicate (span.len + 1) 1).length := by simp
  obtain ⟨d, -, hrun⟩ := extractKey_answers hsource hstop format .text r request.column hpos hpos
    henough henough w
  obtain ⟨d', hdescribe⟩ : ∃ d', describe .text (.new d (quoteByte format))
      (keyOf format request.column (span.bytesOf document)) = .ok d' := ⟨_, rfl⟩
  rw [hdescribe, ← hmode] at hrun
  exact ⟨d', span, hspan, w, _, _, hrun⟩

theorem compare_extracted (hsource : source.Reads document)
    (ha : Extracted source format document request r a)
    (hb : Extracted source format document request s b) :
    (Comparison.new a b request (quoteByte format)).result document =
      rowOrder format document request r s :=
  Comparison.new_result (ha.describes hsource) (hb.describes hsource)

theorem comparison_returns {fingerprint : SourceFingerprint}
    (hsource : source.Steady document fingerprint)
    (ha : Extracted source format document request r a)
    (hb : Extracted source format document request s b) {budgets : List Nat}
    (hpos : ∀ n ∈ budgets, 0 < n)
    (henough : (a.keyEnd - a.keyStart) + (b.keyEnd - b.keyStart) < budgets.length) :
    (Exec.resume (fun budget (c : Comparison) => c.advance source budget) budgets
      (Comparison.new a b request (quoteByte format))).Returns fun result =>
        result.1 = some (rowOrder format document request r s) := by
  have hreads := hsource.toReads
  obtain ⟨hvalid, hends⟩ := Comparison.new_valid (ha.describes hreads) (hb.describes hreads)
  rw [← compare_extracted hreads ha hb]
  apply Comparison.resume_returns hsource hvalid hends hpos
  rw [Comparison.todo]
  split <;> exact henough

/-- What the descriptors of two rows decide, what their bytes decide where only these tell
the keys apart, and what the comparison comes to on any budgets and reads, is the order of
the rows; and this is a strict total order. -/
theorem comparison_orders_rows (hsource : source.Reads document) (format : ViewportFormat)
    (request : SortRequest) :
    (∀ r s a b, r ≠ s → Extracted source format document request r a →
      Extracted source format document request s b →
      (∀ order, decideOrder a b request = some order →
        order = rowOrder format document request r s) ∧
      (ByteComparable request a b → ∀ budgets,
        (Exec.resume (fun budget (c : Comparison) => c.advance source budget) budgets
          { Comparison.new a b request (quoteByte format) with first := false }).Ensures
            fun result =>
            ∀ order, result.1 = some order → order = rowOrder format document request r s) ∧
      (∀ budgets, (Exec.resume (fun budget (c : Comparison) => c.advance source budget) budgets
        (Comparison.new a b request (quoteByte format))).Ensures fun result =>
          ∀ order, result.1 = some order → order = rowOrder format document request r s) ∧
      (∀ fingerprint, source.Steady document fingerprint → ∀ budgets, (∀ n ∈ budgets, 0 < n) →
        (a.keyEnd - a.keyStart) + (b.keyEnd - b.keyStart) < budgets.length →
        (Exec.resume (fun budget (c : Comparison) => c.advance source budget) budgets
          (Comparison.new a b request (quoteByte format))).Returns fun result =>
            result.1 = some (rowOrder format document request r s)) ∧
      rowOrder format document request r s ≠ .eq) ∧
    (∀ r, rowOrder format document request r r ≠ .lt) ∧
    (∀ r s t, rowOrder format document request r s = .lt →
      rowOrder format document request s t = .lt → rowOrder format document request r t = .lt) ∧
    (∀ r s, r ≠ s → rowOrder format document request r s = .lt ∨
      rowOrder format document request s r = .lt) := by
  refine ⟨?_, fun r => order_irrefl _, fun r s t => order_trans, fun r s h => order_total h⟩
  intro r s a b hne ha hb
  have hA := ha.describes hsource
  have hB := hb.describes hsource
  obtain ⟨hvalid, hends⟩ := Comparison.new_valid hA hB
  have hresult := compare_extracted hsource ha hb
  refine ⟨fun order => decideOrder_eq_some hA hB, fun hbytes budgets => ?_, fun budgets => ?_,
    fun fingerprint hsteady budgets hpos henough => ?_, fun h => hne (order_eq_row h)⟩
  · have hslow := (Comparison.new_answer hA hB hbytes).trans (bytesOrder_eq hA hB hbytes)
    refine (Comparison.resume_ensures (c := { Comparison.new a b request (quoteByte format) with
      first := false }) hsource ⟨hA.valid, hB.valid, hA.valid, hB.valid⟩ hends budgets).mono ?_
    intro result h order horder
    exact (h order horder).trans hslow
  · refine (Comparison.resume_ensures hsource hvalid hends budgets).mono ?_
    intro result h order horder
    exact (h order horder).trans hresult
  · exact comparison_returns hsteady ha hb hpos henough

/-- Two rows of a two-line document, on any budgets. -/
theorem comparison_orders_rows_twoLines :
    ∃ a b, Extracted (.ofBytes [98, 10, 97] (by decide)) .lines [98, 10, 97]
        ⟨0, .text, .descending⟩ 0 a ∧
      Extracted (.ofBytes [98, 10, 97] (by decide)) .lines [98, 10, 97]
        ⟨0, .text, .descending⟩ 1 b ∧
      ∀ budgets, (Exec.resume (fun budget (c : Comparison) =>
          c.advance (.ofBytes [98, 10, 97] (by decide)) budget) budgets
        (Comparison.new a b ⟨0, .text, .descending⟩ 34)).Ensures fun result =>
          ∀ order, result.1 = some order →
            order = rowOrder .lines [98, 10, 97] ⟨0, .text, .descending⟩ 0 1 := by
  have hsteady := PositionedRead.ofBytes_steady [98, 10, 97] (by decide)
  have hrow (r : Nat) (hr : r < 2) : ∃ d, Extracted (.ofBytes [98, 10, 97] (by decide)) .lines
      [98, 10, 97] ⟨0, .text, .descending⟩ r d :=
    exists_extracted hsteady () rfl (hr.trans_eq (by decide))
  obtain ⟨a, ha⟩ := hrow 0 (by decide)
  obtain ⟨b, hb⟩ := hrow 1 (by decide)
  obtain ⟨hpair, -⟩ := comparison_orders_rows hsteady.toReads .lines ⟨0, .text, .descending⟩
  exact ⟨a, b, ha, hb, (hpair 0 1 a b (by decide) ha hb).2.2.1⟩

/-! ## Numbers -/

/-- In a numeric order numbers come before other texts and these before blank keys. -/
theorem order_classes {a b : SortKey} (h : a.cls.group < b.cls.group)
    (direction : SortDirection) : a.order direction b = .lt := by
  have hlt := compare_lt_iff_lt.mpr h
  rw [order_of_group (by rw [hlt]; exact nofun), hlt]

theorem Summary.group_zero {key : List Byte} (h : Summary key d) :
    d.group = 0 ↔ ∃ m : Numeral, m.bytes = key := by
  cases h with
  | number m hkey hexp group => exact ⟨fun _ => ⟨m, hkey⟩, fun _ => group⟩
  | text hkey hblank group =>
    exact ⟨fun h => by omega, fun ⟨m, hm⟩ => absurd hm (hkey m)⟩
  | blank hkey hblank group =>
    exact ⟨fun h => by omega, fun ⟨m, hm⟩ => absurd hm (hkey m)⟩

theorem Summary.group_two {key : List Byte} (h : Summary key d) : d.group = 2 ↔ Blank key := by
  cases h with
  | number m hkey hexp group =>
    subst hkey
    exact ⟨fun h => by omega, fun h => absurd h (not_blank_numeral m)⟩
  | text hkey hblank group => exact ⟨fun h => by omega, fun h => absurd h hblank⟩
  | blank hkey hblank group => exact ⟨fun _ => hblank, fun _ => group⟩

/-- A fresh descriptor takes the summary of the key pushed into it. -/
theorem describe_numeric (quote : Byte) {d : Descriptor} (hd : d.len = 0) (key : List Byte) :
    ∃ d', d'.len = key.length ∧
      describe .numeric (.new d quote) key = (Number.new.run key).finish d' := by
  obtain ⟨hkeeps, -, hnumber⟩ := foldl_pushByte .numeric key (.new d quote)
  have hempty : Keeps [] (Builder.new d quote).descriptor := ⟨hd, by
    change d.head = _
    simp [Descriptor.head, hd]⟩
  refine ⟨_, (hkeeps [] hempty).len_eq, ?_⟩
  rw [describe, Builder.atEnd, if_pos rfl, hnumber]
  rfl

/-- What the machine makes of any field: a number exactly of a numeral with an exponent it can
hold, a range error exactly of one beyond that, and blank exactly of blank bytes. -/
theorem describe_numeric_iff (quote : Byte) {d : Descriptor} (hd : d.len = 0) (key : List Byte) :
    ((∃ d', describe .numeric (.new d quote) key = .ok d' ∧ d'.group = 0) ↔
      ∃ m : Numeral, m.bytes = key ∧ m.exponentAbs ≤ i64Max) ∧
    (∀ error, describe .numeric (.new d quote) key = .error error ↔
      error = .numericRange ∧ ∃ m : Numeral, m.bytes = key ∧ i64Max < m.exponentAbs) ∧
    (∀ d', describe .numeric (.new d quote) key = .ok d' → (d'.group = 2 ↔ Blank key)) := by
  obtain ⟨d₀, hlen, hdescribe⟩ := describe_numeric quote hd key
  rw [hdescribe]
  refine ⟨⟨?_, ?_⟩, fun error => finish_eq_error, fun d' h => (finish_eq_ok hlen h).group_two⟩
  · rintro ⟨d', hfinish, hgroup⟩
    cases finish_eq_ok hlen hfinish with
    | number m hkey hexp group => exact ⟨m, hkey, hexp⟩
    | text hkey hblank group => omega
    | blank hkey hblank group => omega
  · rintro ⟨m, hkey, hexp⟩
    cases hfinish : (Number.new.run key).finish d₀ with
    | error e =>
      obtain ⟨-, m', hkey', hover⟩ := finish_eq_error.mp hfinish
      have hm := (Number.run_numeral m).expOverflow
      have hm' := (Number.run_numeral m').expOverflow
      rw [hkey] at hm
      rw [hkey', hm, decide_eq_decide] at hm'
      omega
    | ok d' => exact ⟨d', rfl, (finish_eq_ok hlen hfinish).group_zero.mpr ⟨m, hkey⟩⟩

theorem Descriptor.Located.fresh {row column : Nat} {span : RecordSpan}
    (h : d.Located format document row span column) : d.len = 0 := by
  rw [h.blank]
  rfl

theorem Summary.cls_number {key : List Byte} (h : Summary key d) {m : Numeral}
    (hm : m.bytes = key) : classOf .numeric key = .number m.value := by
  cases h with
  | number m' hkey hexp group =>
    rw [← hkey, classOf_numeral m' hexp, m'.value_unique (hkey.trans hm.symm) hexp]
  | text hkey hblank group => exact absurd hm (hkey m)
  | blank hkey hblank group => exact absurd hm (hkey m)

theorem rowKey_of_getElem? {span : RecordSpan} (h : (records format document)[r]? = some span)
    (column : Nat) :
    rowKey format document column r = keyOf format column (span.bytesOf document) := by
  rw [rowKey, h]
  rfl

/-- Enough calls on a source that stays as it is give a row its descriptor, unless its exponent
is out of range: then they all end in that error. -/
theorem extractKey_numeric {fingerprint : SourceFingerprint}
    (hsource : source.Steady document fingerprint) {span : RecordSpan}
    (hspan : (records format document)[r]? = some span) (column : Nat)
    {locating building : List Nat} (hlocating : ∀ budget ∈ locating, 0 < budget)
    (hbuilding : ∀ budget ∈ building, 0 < budget) (hlocated : span.len < locating.length)
    (hbuilt : span.len < building.length) :
    ((∃ m : Numeral, m.bytes = rowKey format document column r ∧ i64Max < m.exponentAbs) →
      ∀ w, (extractKey source format .numeric r span column locating building w).1 =
        .error .numericRange) ∧
    ((¬ ∃ m : Numeral, m.bytes = rowKey format document column r ∧ i64Max < m.exponentAbs) →
      (extractKey source format .numeric r span column locating building).Returns fun result =>
        ∃ d, result = some d) := by
  have hstop := record_stop_le (List.mem_of_getElem? hspan)
  rw [rowKey_of_getElem? hspan]
  have hanswers := extractKey_answers hsource hstop format .numeric r column hlocating hbuilding
    hlocated hbuilt
  refine ⟨fun hover w => ?_, fun hrange w => ?_⟩
  · obtain ⟨d, hd, hrun⟩ := hanswers w
    rw [hrun, ((describe_numeric_iff _ hd.fresh _).2.1 _).mpr ⟨rfl, hover⟩]
    rfl
  · obtain ⟨d, hd, hrun⟩ := hanswers w
    cases hdescribe : describe .numeric (.new d (quoteByte format))
        (keyOf format column (span.bytesOf document)) with
    | error e =>
      exact absurd ((describe_numeric_iff _ hd.fresh _).2.1 e |>.mp hdescribe).2 hrange
    | ok d' =>
      rw [hdescribe] at hrun
      exact ⟨_, hrun, d', rfl⟩

/-- In numeric mode, for every document and any schedules: a row's key is a number exactly if
it is a numeral, and out of range only if its exponent is; two numbers are compared to the
order of their values, ties by row; numbers come first and blank keys last. While the source
stays as it is, enough calls come to the descriptor, to the range error and to the order. -/
theorem numeric_order_exact (hsource : source.Reads document) (format : ViewportFormat)
    (request : SortRequest) (hmode : request.mode = .numeric) :
    (∀ quote d key, d.len = 0 →
      ((∃ d', describe .numeric (.new d quote) key = .ok d' ∧ d'.group = 0) ↔
        ∃ m : Numeral, m.bytes = key ∧ m.exponentAbs ≤ i64Max) ∧
      (∀ error, describe .numeric (.new d quote) key = .error error ↔
        error = .numericRange ∧ ∃ m : Numeral, m.bytes = key ∧ i64Max < m.exponentAbs)) ∧
    (∀ r a, Extracted source format document request r a →
      (a.group = 0 ↔ ∃ m : Numeral, m.bytes = rowKey format document request.column r)) ∧
    (∀ r span, (records format document)[r]? = some span → ∀ locating building w,
      (extractKey source format request.mode r span request.column locating building w).1 =
        .error .numericRange →
      ∃ m : Numeral, m.bytes = rowKey format document request.column r ∧
        i64Max < m.exponentAbs) ∧
    (∀ fingerprint, source.Steady document fingerprint → ∀ r span,
      (records format document)[r]? = some span → ∀ locating building,
      (∀ budget ∈ locating, 0 < budget) → (∀ budget ∈ building, 0 < budget) →
      span.len < locating.length → span.len < building.length →
      ((∃ m : Numeral, m.bytes = rowKey format document request.column r ∧
          i64Max < m.exponentAbs) →
        ∀ w, (extractKey source format request.mode r span request.column locating building w).1 =
          .error .numericRange) ∧
      ((¬ ∃ m : Numeral, m.bytes = rowKey format document request.column r ∧
          i64Max < m.exponentAbs) →
        (extractKey source format request.mode r span request.column locating building).Returns
          fun result => ∃ a, result = some a)) ∧
    ∀ r s a b, Extracted source format document request r a →
      Extracted source format document request s b →
      (∀ order, decideOrder a b request = some order →
        order = rowOrder format document request r s) ∧
      (∀ budgets, (Exec.resume (fun budget (c : Comparison) => c.advance source budget) budgets
        (Comparison.new a b request (quoteByte format))).Ensures fun result =>
          ∀ order, result.1 = some order → order = rowOrder format document request r s) ∧
      (∀ fingerprint, source.Steady document fingerprint → ∀ budgets, (∀ n ∈ budgets, 0 < n) →
        (a.keyEnd - a.keyStart) + (b.keyEnd - b.keyStart) < budgets.length →
        (Exec.resume (fun budget (c : Comparison) => c.advance source budget) budgets
          (Comparison.new a b request (quoteByte format))).Returns fun result =>
            result.1 = some (rowOrder format document request r s)) ∧
      (∀ m m' : Numeral, m.bytes = rowKey format document request.column r →
        m'.bytes = rowKey format document request.column s →
        rowOrder format document request r s =
          (directed request.direction (compare m.value m'.value)).then (compare r s)) ∧
      ((∃ m : Numeral, m.bytes = rowKey format document request.column r) →
        (¬ ∃ m : Numeral, m.bytes = rowKey format document request.column s) →
        rowOrder format document request r s = .lt) ∧
      (¬ Blank (rowKey format document request.column r) →
        Blank (rowKey format document request.column s) →
        rowOrder format document request r s = .lt) := by
  refine ⟨fun quote d key hd => ?_, fun r a ha => ?_, fun r span hspan locating building w he => ?_,
    fun fingerprint hsteady r span hspan locating building hlocating hbuilding hlocated hbuilt =>
      ?_,
    fun r s a b ha hb => ?_⟩
  · obtain ⟨hnumber, herror, -⟩ := describe_numeric_iff quote hd key
    exact ⟨hnumber, herror⟩
  · exact ((ha.describes hsource).summary hmode).group_zero
  · have hstop := record_stop_le (List.mem_of_getElem? hspan)
    rw [rowKey_of_getElem? hspan]
    rcases extractKey_raises hsource hstop locating building w _ he with
      (hread | ⟨io, hread⟩) | ⟨d, hd, hdescribe⟩
    · cases hread
    · cases hread
    · rw [hmode] at hdescribe
      exact ((describe_numeric_iff _ hd.fresh _).2.1 _ |>.mp hdescribe).2
  · rw [hmode]
    exact extractKey_numeric hsteady hspan request.column hlocating hbuilding hlocated hbuilt
  · have hA := ha.describes hsource
    have hB := hb.describes hsource
    have hsA := hA.summary hmode
    have hsB := hB.summary hmode
    obtain ⟨hvalid, hends⟩ := Comparison.new_valid hA hB
    have hresult := compare_extracted hsource ha hb
    refine ⟨fun order => decideOrder_eq_some hA hB, fun budgets => ?_,
      fun fingerprint hsteady budgets hpos henough => ?_, fun m m' hm hm' => ?_,
      fun hm hm' => ?_, fun hr hs => ?_⟩
    · refine (Comparison.resume_ensures hsource hvalid hends budgets).mono ?_
      intro result h order horder
      exact (h order horder).trans hresult
    · exact comparison_returns hsteady ha hb hpos henough
    · simp only [rowOrder, sortKey, hmode]
      exact order_number (a := ⟨_, r⟩) (b := ⟨_, s⟩) (hsA.cls_number hm) (hsB.cls_number hm')
    · apply order_classes
      simp only [sortKey, hmode, ← hsA.group_eq, ← hsB.group_eq]
      have hzero := hsA.group_zero.mpr hm
      have hne := mt hsB.group_zero.mp hm'
      omega
    · apply order_classes
      simp only [sortKey, hmode, ← hsA.group_eq, ← hsB.group_eq]
      have hne := mt hsA.group_two.mp hr
      have htwo := hsB.group_two.mpr hs
      have hle : a.group ≤ 2 := by cases hsA <;> omega
      omega

/-- The lines `1e1` and `9.50`: both are numbers, and ten comes behind. -/
theorem numeric_order_exact_twoLines :
    ∃ a b, Extracted (.ofBytes [49, 101, 49, 10, 57, 46, 53, 48] (by decide)) .lines
        [49, 101, 49, 10, 57, 46, 53, 48] ⟨0, .numeric, .ascending⟩ 0 a ∧ a.group = 0 ∧
      Extracted (.ofBytes [49, 101, 49, 10, 57, 46, 53, 48] (by decide)) .lines
        [49, 101, 49, 10, 57, 46, 53, 48] ⟨0, .numeric, .ascending⟩ 1 b ∧ b.group = 0 ∧
      ∀ budgets, (∀ n ∈ budgets, 0 < n) →
        (a.keyEnd - a.keyStart) + (b.keyEnd - b.keyStart) < budgets.length →
        (Exec.resume (fun budget (c : Comparison) => c.advance
          (.ofBytes [49, 101, 49, 10, 57, 46, 53, 48] (by decide)) budget) budgets
            (Comparison.new a b ⟨0, .numeric, .ascending⟩ 34)).Returns fun result =>
              result.1 = some .gt := by
  let ten : Numeral :=
    ⟨⟨[], none, [49], none, by decide +kernel, by decide +kernel, by decide +kernel⟩,
      some ⟨101, none, [49], by decide +kernel, by decide +kernel, nofun⟩, [], nofun,
      by decide +kernel⟩
  let nine : Numeral :=
    ⟨⟨[], none, [57], some [53, 48], by decide +kernel, by decide +kernel, by decide +kernel⟩,
      none, [], nofun, by decide +kernel⟩
  have hsteady := PositionedRead.ofBytes_steady [49, 101, 49, 10, 57, 46, 53, 48] (by decide)
  have hten : ten.bytes = rowKey .lines [49, 101, 49, 10, 57, 46, 53, 48] 0 0 := by decide
  have hnine : nine.bytes = rowKey .lines [49, 101, 49, 10, 57, 46, 53, 48] 0 1 := by decide
  have hvalue : compare ten.value nine.value = .gt := by
    rw [compare_gt_iff_gt]
    have hone : digitsValue [49] = 1 := by decide +kernel
    have hlong : digitsValue [57, 53, 48] = 950 := by decide +kernel
    have hsign (z : ℤ) : applySign none z = z := rfl
    norm_num [ten, nine, Numeral.value, Numeral.exponentValue, hsign, Mantissa.digits, hone, hlong]
  obtain ⟨hmachine, hgroup, -, hanswer, hpair⟩ := numeric_order_exact hsteady.toReads .lines
    ⟨0, .numeric, .ascending⟩ rfl
  have hrow (r : Nat) (span : RecordSpan)
      (hspan : (records .lines [49, 101, 49, 10, 57, 46, 53, 48])[r]? = some span) (n : Numeral)
      (hn : n.bytes = rowKey .lines [49, 101, 49, 10, 57, 46, 53, 48] 0 r)
      (hfine : describe .numeric (.new default 34) n.bytes ≠ .error .numericRange) :
      ∃ d, Extracted (.ofBytes [49, 101, 49, 10, 57, 46, 53, 48] (by decide)) .lines
        [49, 101, 49, 10, 57, 46, 53, 48] ⟨0, .numeric, .ascending⟩ r d ∧ d.group = 0 := by
    have hrange := fun h => hfine (((hmachine 34 default n.bytes rfl).2 .numericRange).mpr ⟨rfl, h⟩)
    rw [hn] at hrange
    obtain ⟨_, hrun, d, rfl⟩ := (hanswer _ hsteady r span hspan (List.replicate (span.len + 1) 1)
      (List.replicate (span.len + 1) 1) (by simp) (by simp) (by simp) (by simp)).2 hrange ()
    have hd : Extracted (.ofBytes [49, 101, 49, 10, 57, 46, 53, 48] (by decide)) .lines
        [49, 101, 49, 10, 57, 46, 53, 48] ⟨0, .numeric, .ascending⟩ r d :=
      ⟨span, hspan, (), _, _, hrun⟩
    exact ⟨d, hd, (hgroup r d hd).mpr ⟨n, hn⟩⟩
  obtain ⟨a, ha, hazero⟩ := hrow 0 ⟨0, 3, by decide⟩ (by decide) ten hten (by decide +kernel)
  obtain ⟨b, hb, hbzero⟩ := hrow 1 ⟨4, 8, by decide⟩ (by decide) nine hnine (by decide +kernel)
  obtain ⟨-, -, hreturns, hvalues, -⟩ := hpair 0 1 a b ha hb
  refine ⟨a, b, ha, hazero, hb, hbzero, fun budgets hpos henough => ?_⟩
  refine (hreturns _ hsteady budgets hpos henough).mono fun result hresult => ?_
  rw [hresult, hvalues ten nine hten hnine, directed, hvalue]
  rfl

end Rows

end LeanRows.Sort
